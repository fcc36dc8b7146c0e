import MonkeyMachine.Proofs.WellFormed

/-!
# Encoding and decoding

Streams of instructions and the buffers that they are encoded as. What one instruction is encoded as
can be read back, and by induction over the stream so can all of them. The other direction is
`Code.Whole.encodeAll_instrs`: a buffer in which decoding meets neither an unknown opcode nor an
instruction that is cut short is the encoding of what was decoded.

A listing is decoded code in words. Its text has one row for each instruction, and the words of a
row are those of the instruction: `Code.Listed`. They are its offset in at least four decimal digits,
its mnemonic and its operands in decimal digits, and they belong to no other instruction and to no
other offset: `Instr.words_inj`.
-/

namespace MonkeyMachine

/-! ## Encoding -/

/-- The bytes of instructions one after another, if each of them can be encoded. -/
def encodeAll : List Instr → Except EncodingError (List UInt8)
  | [] => .ok []
  | i :: is => do
      let bytes ← i.op.encode i.operands
      let rest ← encodeAll is
      return bytes ++ rest

theorem encodeAll_of_valid {is : List Instr} (h : ∀ i ∈ is, i.Valid) :
    encodeAll is = .ok (assemble is) := by
  induction is with
  | nil => rfl
  | cons i is ih =>
      have hi := (i.op.encode_eq_ok_iff i.operands i.bytes).2 ⟨h i (by simp), rfl⟩
      have hrest := ih fun j hj => h j (by simp [hj])
      simp [encodeAll, hi, hrest, bind, Except.bind, pure, Except.pure]

theorem valid_of_encodeAll {is : List Instr} {bytes : List UInt8} (h : encodeAll is = .ok bytes) :
    ∀ i ∈ is, i.Valid := by
  induction is generalizing bytes with
  | nil => exact List.forall_mem_nil _
  | cons i is ih =>
      cases hi : i.op.encode i.operands with
      | error cause => simp [encodeAll, hi, bind, Except.bind] at h
      | ok first =>
          cases hrest : encodeAll is with
          | error cause => simp [encodeAll, hi, hrest, bind, Except.bind] at h
          | ok rest =>
              have hvalid : i.Valid := ((i.op.encode_eq_ok_iff i.operands first).1 hi).1
              exact List.forall_mem_cons.2 ⟨hvalid, ih hrest⟩

theorem encodeAll_eq_ok_iff {is : List Instr} {bytes : List UInt8} :
    encodeAll is = .ok bytes ↔ (∀ i ∈ is, i.Valid) ∧ bytes = assemble is := by
  constructor
  · intro h
    have hvalid := valid_of_encodeAll h
    rw [encodeAll_of_valid hvalid] at h
    exact ⟨hvalid, (Except.ok.inj h).symm⟩
  · rintro ⟨hvalid, rfl⟩
    exact encodeAll_of_valid hvalid

/-- A valid instruction has as many operands as its opcode has widths, and each is below the bound
that its width sets. -/
theorem Instr.valid_iff (i : Instr) :
    i.Valid ↔ i.operands.length = i.op.widths.length ∧
      ∀ (k operand : Nat) (width : Width), i.operands[k]? = some operand →
        i.op.widths[k]? = some width → operand < 256 ^ width.size := by
  rw [Valid, List.forall₂_iff_get]
  constructor
  · rintro ⟨hlength, hfits⟩
    refine ⟨hlength.symm, ?_⟩
    intro k operand width hoperand hwidth
    rcases List.getElem?_eq_some_iff.1 hoperand with ⟨hk, rfl⟩
    rcases List.getElem?_eq_some_iff.1 hwidth with ⟨hk', rfl⟩
    exact hfits k hk' hk
  · rintro ⟨hlength, hfits⟩
    refine ⟨hlength.symm, ?_⟩
    intro k hk hk'
    exact hfits k _ _ (List.getElem?_eq_getElem hk') (List.getElem?_eq_getElem hk)

/-- An instruction cannot be encoded if it has the wrong number of operands or one that is too
large, and in no other case. -/
theorem Opcode.encode_fails_iff (op : Opcode) (operands : List Nat) :
    (∃ cause, op.encode operands = .error cause) ↔
      operands.length ≠ op.widths.length ∨
        ∃ (k operand : Nat) (width : Width), operands[k]? = some operand ∧
          op.widths[k]? = some width ∧ 256 ^ width.size ≤ operand := by
  have hfails : (∃ cause, op.encode operands = .error cause) ↔ ¬ (Instr.mk op operands).Valid := by
    cases h : op.encode operands with
    | ok bytes => simpa using ((op.encode_eq_ok_iff operands bytes).1 h).1
    | error cause =>
        simp only [Except.error.injEq, exists_eq', true_iff]
        intro hvalid
        rw [(op.encode_eq_ok_iff operands _).2 ⟨hvalid, rfl⟩] at h
        cases h
  rw [hfails, Instr.valid_iff, Classical.not_and_iff_not_or_not]
  push Not
  rfl

/-! ## Decoding -/

theorem Opcode.toByte_of_ofByte? {byte : UInt8} {op : Opcode} (h : ofByte? byte = some op) :
    op.toByte = byte := by
  have hdense : ∀ k : Fin all.size, (all[k]).toByte.toNat = k := by decide
  rcases Array.getElem?_eq_some_iff.1 h with ⟨hlt, rfl⟩
  exact UInt8.toNat_inj.1 (hdense ⟨byte.toNat, hlt⟩)

namespace Code

variable {code : Code}

/-- Decoding meets no unknown opcode and no instruction that is cut short. -/
def Whole (code : Code) : Prop :=
  ∀ line ∈ code.lines, ∃ offset op operands, line = .instruction offset op operands

theorem drop_of_getElem? {position : Nat} {byte : UInt8} (h : code[position]? = some byte) :
    code.toList.drop position = byte :: code.toList.drop (position + 1) := by
  rw [← Array.getElem?_toList] at h
  rcases List.getElem?_eq_some_iff.1 h with ⟨hlt, rfl⟩
  exact List.drop_eq_getElem_cons hlt

/-- What is read as an operand fits, and stands there as its bytes. -/
theorem drop_of_read? {position n : Nat} {w : Width} (h : code.read? position w = some n) :
    n < w.limit ∧
      code.toList.drop position = w.bytes n ++ code.toList.drop (position + w.size) := by
  cases w with
  | byte =>
      rcases Option.map_eq_some_iff.1 h with ⟨byte, hget, rfl⟩
      refine ⟨byte.toNat_lt, ?_⟩
      rw [drop_of_getElem? hget]
      simp [Width.bytes, Width.size]
  | word =>
      cases hhigh : code[position]? with
      | none => simp [read?, hhigh] at h
      | some high =>
          cases hlow : code[position + 1]? with
          | none => simp [read?, hhigh, hlow] at h
          | some low =>
              have hhigh' := high.toNat_lt
              have hlow' := low.toNat_lt
              obtain rfl : 256 * high.toNat + low.toNat = n := by simpa [read?, hhigh, hlow] using h
              -- The high byte comes back by division, so the two bytes are those of `n`.
              have hdiv : (256 * high.toNat + low.toNat) / 256 = high.toNat := by omega
              refine ⟨?_, ?_⟩
              · rw [Width.limit_word]
                omega
              · rw [drop_of_getElem? hhigh, drop_of_getElem? hlow]
                simp [Width.bytes, Width.size, hdiv, UInt8.ofNat_add, UInt8.ofNat_mul]

/-- What is read as operands fits, and stands there as their bytes. -/
theorem drop_of_readOperands {widths : List Width} {operands : List Nat} {position finish : Nat}
    (h : code.readOperands position widths = .ok (operands, finish)) :
    List.Forall₂ (fun (w : Width) n => n < w.limit) widths operands ∧ position ≤ finish ∧
      code.toList.drop position =
        Instr.operandBytes widths operands ++ code.toList.drop finish := by
  induction widths generalizing operands position with
  | nil =>
      cases h
      exact ⟨.nil, Nat.le_refl _, rfl⟩
  | cons w ws ih =>
      unfold readOperands at h
      cases hread : code.read? position w with
      | none => simp [hread] at h
      | some n =>
          cases hrest : code.readOperands (position + w.size) ws with
          | error missing => simp [hread, hrest] at h
          | ok answer =>
              obtain ⟨ns, finish'⟩ := answer
              simp only [hread, hrest, Except.ok.injEq, Prod.mk.injEq] at h
              obtain ⟨rfl, rfl⟩ := h
              rcases drop_of_read? hread with ⟨hfit, hdrop⟩
              rcases ih hrest with ⟨hfits, hle, hdrop'⟩
              refine ⟨.cons hfit hfits, Nat.le_of_add_right_le hle, ?_⟩
              rw [hdrop, hdrop']
              simp [Instr.operandBytes]

/-- The instructions of a buffer, from an offset on, are valid and stand there as their bytes, if all
of its lines are instructions. -/
theorem assemble_of_linesFrom (offset : Nat)
    (h : ∀ line ∈ code.linesFrom offset, ∃ o op operands, line = .instruction o op operands) :
    (∀ i ∈ (code.linesFrom offset).filterMap Line.instr?, i.Valid) ∧
      code.toList.drop offset = assemble ((code.linesFrom offset).filterMap Line.instr?) := by
  fun_induction linesFrom code offset with
  -- A byte that is no opcode has a line of its own, which is no instruction.
  | case1 offset hlt hbyte ih =>
      rcases h _ List.mem_cons_self with ⟨_, _, _, hline⟩
      cases hline
  | case2 offset hlt op hop operands read hread ih =>
      rcases ih fun line hline => h line (by simp [hline]) with ⟨hvalid, hrest⟩
      unfold decodeOperands at hread
      cases hfinish : code.readOperands (offset + 1) op.widths with
      | error missing => simp [hfinish] at hread
      | ok answer =>
          obtain ⟨operands', finish⟩ := answer
          simp only [hfinish, Except.ok.injEq, Prod.mk.injEq] at hread
          obtain ⟨rfl, rfl⟩ := hread
          rcases drop_of_readOperands hfinish with ⟨hfits, hle, hdrop⟩
          have hnext : offset + 1 + (finish - (offset + 1)) = finish := by omega
          have hbyte : code[offset]? = some op.toByte := by
            rw [Array.getElem?_eq_getElem hlt, Opcode.toByte_of_ofByte? hop]
          rw [hnext] at hrest hvalid
          rw [hnext]
          refine ⟨List.forall_mem_cons.2 ⟨hfits, hvalid⟩, ?_⟩
          rw [drop_of_getElem? hbyte, hdrop, hrest]
          simp [Line.instr?, Instr.bytes]
  -- Nor is the line of an opcode whose operands are cut short.
  | case3 offset hlt op hop cause hread =>
      rcases h _ List.mem_cons_self with ⟨_, _, _, hline⟩
      cases hline
  | case4 offset hend =>
      have hnil : code.toList.drop offset = [] := by
        rw [List.drop_eq_nil_iff, Array.length_toList]
        omega
      exact ⟨List.forall_mem_nil _, hnil⟩

/-- A buffer that can be decoded is the encoding of its instructions. -/
theorem Whole.encodeAll_instrs (h : code.Whole) : encodeAll code.instrs = .ok code.toList := by
  rcases assemble_of_linesFrom 0 h with ⟨hvalid, hcode⟩
  exact encodeAll_eq_ok_iff.2 ⟨hvalid, hcode⟩

theorem whole_of_encodeAll {is : List Instr} (h : encodeAll is = .ok code.toList) : code.Whole := by
  rcases encodeAll_eq_ok_iff.1 h with ⟨hvalid, hcode⟩
  intro line hline
  rw [lines_assemble hvalid hcode, mem_instructionLines] at hline
  rcases hline with ⟨pre, i, post, -, rfl⟩
  exact ⟨_, _, _, rfl⟩

end Code

/-! ## Rows of text -/

section Rows

/-- Words with a mark before each but the first. -/
theorem splitOn_words {α : Type} [DecidableEq α] {mark : α} {word : List α} {words : List (List α)}
    (h : ∀ w ∈ word :: words, mark ∉ w) :
    (word ++ words.flatMap fun w => mark :: w).splitOn mark = word :: words := by
  induction words generalizing word with
  | nil => simpa using List.splitOn_eq_singleton (h word (by simp))
  | cons next words ih =>
      have hrest := ih fun w hw => h w (List.mem_cons_of_mem _ hw)
      rw [List.flatMap_cons, List.cons_append,
        List.splitOn_append_cons_self_of_not_mem (h word (by simp)), hrest]

/-- Rows with a mark behind each. -/
theorem splitOn_rows {α : Type} [DecidableEq α] {mark : α} {rows : List (List α)}
    (h : ∀ row ∈ rows, mark ∉ row) :
    (rows.flatMap fun row => row ++ [mark]).splitOn mark = rows ++ [[]] := by
  induction rows with
  | nil => exact List.splitOn_nil mark
  | cons row rows ih =>
      have hrest := ih fun r hr => h r (by simp [hr])
      rw [List.flatMap_cons, List.append_assoc, List.singleton_append,
        List.splitOn_append_cons_self_of_not_mem (h row (by simp)), hrest, List.cons_append]

end Rows

/-- The words of a row of a listing: where the instruction starts, its mnemonic and its operands.
Numbers are in decimal digits, and there are zeros before an offset of less than four. -/
def Instr.words (offset : Nat) (i : Instr) : List (List Char) :=
  (Nat.toDigits 10 offset).leftpad 4 '0' :: i.op.mnemonic.toList ::
    i.operands.map fun operand => Nat.toDigits 10 operand

theorem Opcode.mnemonic_inj {op op' : Opcode} (h : op.mnemonic.toList = op'.mnemonic.toList) :
    op = op' := by
  -- No two rows of the table of opcodes have the same mnemonic.
  have hfind : ∀ op : Opcode, all.find? (fun other => other.mnemonic = op.mnemonic) = some op := by
    intro op
    cases op <;> decide
  have hsame := hfind op
  rw [String.toList_inj.1 h, hfind op'] at hsame
  exact (Option.some.inj hsame).symm

/-- Zeros before a number do not count. -/
theorem ofDigitChars_leftpad (width n : Nat) :
    Nat.ofDigitChars 10 ((Nat.toDigits 10 n).leftpad width '0') 0 = n := by
  rw [List.leftpad, Nat.ofDigitChars_append, Nat.ofDigitChars_replicate_zero, Nat.mul_zero,
    Nat.ofDigitChars_ten_toDigits]

theorem leftpad_toDigits_inj {width m n : Nat}
    (h : (Nat.toDigits 10 m).leftpad width '0' = (Nat.toDigits 10 n).leftpad width '0') : m = n :=
  calc m = Nat.ofDigitChars 10 ((Nat.toDigits 10 m).leftpad width '0') 0 :=
        (ofDigitChars_leftpad width m).symm
    _ = Nat.ofDigitChars 10 ((Nat.toDigits 10 n).leftpad width '0') 0 := by rw [h]
    _ = n := ofDigitChars_leftpad width n

/-- The words of a row tell the offset, the opcode and the operands. -/
theorem Instr.words_inj {i j : Instr} {offset offset' : Nat}
    (h : i.words offset = j.words offset') : offset = offset' ∧ i = j := by
  obtain ⟨op, operands⟩ := i
  obtain ⟨op', operands'⟩ := j
  simp only [words, List.cons.injEq] at h
  rcases h with ⟨hoffset, hmnemonic, hoperands⟩
  obtain rfl := Opcode.mnemonic_inj hmnemonic
  -- Operands have no zeros before them.
  have hdigits : Function.Injective fun operand => Nat.toDigits 10 operand := fun m n hmn =>
    leftpad_toDigits_inj (congrArg (List.leftpad 0 '0') hmn)
  obtain rfl := List.map_injective_iff.2 hdigits hoperands
  exact ⟨leftpad_toDigits_inj hoffset, rfl⟩

namespace Line

/-- A character that ends neither a word nor a row. -/
def Inner (c : Char) : Prop := c ≠ ' ' ∧ c ≠ '\n'

theorem inner_of_isDigit {c : Char} (h : c.isDigit = true) : Inner c := by
  constructor
  · rintro rfl
    cases h
  · rintro rfl
    cases h

theorem inner_of_mem_toDigits {n : Nat} {c : Char} (h : c ∈ Nat.toDigits 10 n) : Inner c :=
  inner_of_isDigit (Nat.isDigit_of_mem_toDigits (by decide) (by decide) h)

theorem inner_of_mem_words {offset : Nat} {i : Instr} {word : List Char} {c : Char}
    (hword : word ∈ i.words offset) (hc : c ∈ word) : Inner c := by
  rcases List.mem_cons.1 hword with rfl | hword
  · rcases List.mem_append.1 hc with hzero | hdigit
    · rw [List.eq_of_mem_replicate hzero]
      exact inner_of_isDigit rfl
    · exact inner_of_mem_toDigits hdigit
  · rcases List.mem_cons.1 hword with rfl | hword
    · have hmnemonic : ∀ op : Opcode,
          op.mnemonic.toList.all (fun c => c != ' ' && c != '\n') = true := by
        intro op
        cases op <;> decide
      simpa [Inner] using List.all_eq_true.1 (hmnemonic i.op) c hc
    · rcases List.mem_map.1 hword with ⟨operand, -, rfl⟩
      exact inner_of_mem_toDigits hc

theorem toList_offsetText (offset : Nat) :
    (offsetText offset).toList = (Nat.toDigits 10 offset).leftpad 4 '0' := by
  have hdigits : (toString offset).toList = Nat.toDigits 10 offset := by
    rw [Nat.toString_eq_ofList_toDigits, String.toList_ofList]
  rw [offsetText, String.toList_append, String.toList_ofList, ← String.length_toList, hdigits]
  rfl

/-- A row is the words of its instruction with a blank between two of them. -/
theorem toList_text (offset : Nat) (i : Instr) :
    (instruction offset i.op i.operands).text.toList =
      (Nat.toDigits 10 offset).leftpad 4 '0' ++
        (i.op.mnemonic.toList :: i.operands.map fun operand => Nat.toDigits 10 operand).flatMap
          fun w => ' ' :: w := by
  simp [text, String.toList_join, List.flatMap_map, toList_offsetText]

theorem splitOn_text (offset : Nat) (i : Instr) :
    (instruction offset i.op i.operands).text.toList.splitOn ' ' = i.words offset := by
  rw [toList_text]
  refine splitOn_words ?_
  intro word hword hspace
  have hword : word ∈ i.words offset := hword
  exact (inner_of_mem_words hword hspace).1 rfl

theorem newline_not_mem_text (offset : Nat) (i : Instr) :
    '\n' ∉ (instruction offset i.op i.operands).text.toList := by
  rw [toList_text]
  intro hnewline
  rcases List.mem_append.1 hnewline with hfirst | hrest
  · have hword : (Nat.toDigits 10 offset).leftpad 4 '0' ∈ i.words offset := List.mem_cons_self
    exact (inner_of_mem_words hword hfirst).2 rfl
  · rcases List.mem_flatMap.1 hrest with ⟨word, hlater, hmem⟩
    rcases List.mem_cons.1 hmem with hspace | hmem
    · cases hspace
    · have hword : word ∈ i.words offset := List.mem_cons_of_mem _ hlater
      exact (inner_of_mem_words hword hmem).2 rfl

end Line

namespace Code

variable {code : Code} {is : List Instr}

/-- The text of the listing has one row for each of the instructions. The row of an instruction gives
its offset, which is the number of bytes that the instructions before it are encoded as, its mnemonic
and its operands. -/
def Listed (code : Code) (is : List Instr) : Prop :=
  ∃ rows, code.listing.toList.splitOn '\n' = rows ++ [[]] ∧ rows.length = is.length ∧
    ∀ pre i post, is = pre ++ i :: post → ∃ bytes row, encodeAll pre = .ok bytes ∧
      rows[pre.length]? = some row ∧ row.splitOn ' ' = i.words bytes.length

theorem length_instructionLines (start : Nat) (is : List Instr) :
    (instructionLines start is).length = is.length := by
  induction is generalizing start with
  | nil => rfl
  | cons i is ih => simp [instructionLines, ih]

theorem getElem?_instructionLines (start : Nat) (pre : List Instr) (i : Instr) (post : List Instr) :
    (instructionLines start (pre ++ i :: post))[pre.length]? =
      some (.instruction (start + codeSize pre) i.op i.operands) := by
  induction pre generalizing start with
  | nil => rfl
  | cons j pre ih => simp [instructionLines, ih, Nat.add_assoc]

theorem listed_of_encodeAll (h : encodeAll is = .ok code.toList) : code.Listed is := by
  rcases encodeAll_eq_ok_iff.1 h with ⟨hvalid, hcode⟩
  have hlines := lines_assemble hvalid hcode
  have hlisting : code.listing.toList =
      (code.lines.map fun line => line.text.toList).flatMap fun row => row ++ ['\n'] := by
    simp [listing, String.toList_join, List.flatMap_map]
  refine ⟨code.lines.map fun line => line.text.toList, ?_, ?_, ?_⟩
  -- No line has a line break in it, so splitting the listing gives the lines back.
  · rw [hlisting]
    refine splitOn_rows ?_
    intro row hrow
    rcases List.mem_map.1 hrow with ⟨line, hline, rfl⟩
    rw [hlines, mem_instructionLines] at hline
    rcases hline with ⟨pre, i, post, -, rfl⟩
    exact Line.newline_not_mem_text _ i
  · rw [List.length_map, hlines, length_instructionLines]
  · rintro pre i post rfl
    have hpre : ∀ j ∈ pre, j.Valid := fun j hj => hvalid j (by simp [hj])
    refine ⟨assemble pre, _, encodeAll_of_valid hpre, ?_, Line.splitOn_text _ i⟩
    rw [List.getElem?_map, hlines, getElem?_instructionLines, length_assemble hpre, Nat.zero_add]
    rfl

/-- Encoding and decoding are inverse to each other over whole streams of instructions, and the rows
of a listing tell its instructions and where they start. -/
theorem encodeAll_inverse :
    (∀ (is : List Instr) (code : Code), encodeAll is = .ok code.toList →
        code.Whole ∧ code.instrs = is ∧ code.Listed is) ∧
      (∀ (i j : Instr) (offset offset' : Nat), i.words offset = j.words offset' →
        offset = offset' ∧ i = j) ∧
      (∀ (is js : List Instr) (bytes : List UInt8), encodeAll is = .ok bytes →
        encodeAll js = .ok bytes → is = js) ∧
      (∀ code : Code, code.Whole → encodeAll code.instrs = .ok code.toList) ∧
      ∀ (op : Opcode) (operands : List Nat),
        (∃ cause, op.encode operands = .error cause) ↔
          operands.length ≠ op.widths.length ∨
            ∃ (k operand : Nat) (width : Width), operands[k]? = some operand ∧
              op.widths[k]? = some width ∧ 256 ^ width.size ≤ operand := by
  have hdecoded {is : List Instr} {code : Code} (h : encodeAll is = .ok code.toList) :
      code.instrs = is := by
    rcases encodeAll_eq_ok_iff.1 h with ⟨hvalid, hcode⟩
    exact instrs_of_assemble hvalid hcode
  refine ⟨?_, fun _ _ _ _ => Instr.words_inj, ?_, fun _ => Whole.encodeAll_instrs,
    Opcode.encode_fails_iff⟩
  · intro is code h
    exact ⟨whole_of_encodeAll h, hdecoded h, listed_of_encodeAll h⟩
  · intro is js bytes his hjs
    have his : Code.instrs bytes.toArray = is := hdecoded his
    have hjs : Code.instrs bytes.toArray = js := hdecoded hjs
    exact his.symm.trans hjs

/-- Operands of both widths, the largest ones included. -/
theorem encodeAll_inverse_of_mixed_widths :
    ∃ (is : List Instr) (code : Code),
      is = [⟨.add, []⟩, ⟨.getLocal, [1]⟩, ⟨.constant, [2]⟩, ⟨.closure, [65535, 255]⟩] ∧
      encodeAll is = .ok code.toList ∧ code.Whole ∧ code.instrs = is ∧ code.Listed is ∧
      code.listing = "0000 Add\n0001 GetLocal 1\n0003 Constant 2\n0006 Closure 65535 255\n" ∧
      ∃ cause, Opcode.getLocal.encode [256] = .error cause := by
  have hencoded : encodeAll
      [⟨.add, []⟩, ⟨.getLocal, [1]⟩, ⟨.constant, [2]⟩, ⟨.closure, [65535, 255]⟩] =
        .ok [0x05, 0x13, 1, 0x00, 0, 2, 0x1C, 255, 255, 255] := by decide
  rcases encodeAll_inverse with ⟨hdecode, -, -, -, hfails⟩
  have hlarge : ∃ cause, Opcode.getLocal.encode [256] = .error cause :=
    (hfails .getLocal [256]).2 (.inr ⟨0, 256, .byte, rfl, rfl, by decide⟩)
  rcases hdecode _ #[0x05, 0x13, 1, 0x00, 0, 2, 0x1C, 255, 255, 255] hencoded with
    ⟨hwhole, hinstrs, hlisted⟩
  refine ⟨_, _, rfl, hencoded, hwhole, hinstrs, hlisted, ?_, hlarge⟩
  rcases encodeAll_eq_ok_iff.1 hencoded with ⟨hvalid, hcode⟩
  rw [listing, lines_assemble hvalid hcode]
  decide +kernel

end Code

end MonkeyMachine
