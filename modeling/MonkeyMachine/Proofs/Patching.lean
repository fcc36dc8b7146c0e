import MonkeyMachine.Proofs.RoundTrip

/-!
# Patching operands

A compiler that has written a forward jump comes back to it once the target is known. It finds the
opcode among the bytes and writes the instruction over itself with another operand. In a stream of
instructions of different lengths that is safe because the length depends on the opcode alone: all
other instructions stay where they are, so a patch is `List.set` on the instructions.
-/

namespace MonkeyMachine

/-- Where instruction number `k` of a stream starts. -/
def startOf (is : List Instr) (k : Nat) : Nat := codeSize (is.take k)

/-- What an act answers, whatever state it leaves. -/
def answer {ε σ α : Type} : EStateM.Result ε σ α → Except ε α
  | .ok a _ => .ok a
  | .error e _ => .error e

/-! ## Streams with one instruction changed -/

section Streams

variable {is : List Instr} {k l : Nat} {i : Instr}

theorem eq_of_getElem? (h : is[k]? = some i) : is = is.take k ++ i :: is.drop (k + 1) := by
  rcases List.getElem?_eq_some_iff.1 h with ⟨hlt, rfl⟩
  rw [List.getElem_cons_drop, List.take_append_drop]

theorem set_eq_of_getElem? (h : is[k]? = some i) (j : Instr) :
    is.set k j = is.take k ++ j :: is.drop (k + 1) := by
  rcases List.getElem?_eq_some_iff.1 h with ⟨hlt, -⟩
  exact List.set_eq_take_append_cons_drop ▸ if_pos hlt

/-- An instruction of the same opcode leaves all starts where they were. -/
theorem startOf_set (h : is[k]? = some i) {j : Instr} (hop : j.op = i.op) (l : Nat) :
    startOf (is.set k j) l = startOf is l := by
  rcases List.getElem?_eq_some_iff.1 h with ⟨hlt, hget⟩
  have hlt' : k < (is.map Instr.size).length := by simpa using hlt
  have hsize : j.size = (is.map Instr.size)[k] := by
    rw [List.getElem_map, hget, Instr.size, Instr.size, hop]
  have hsizes : (is.set k j).map Instr.size = is.map Instr.size := by
    rw [List.map_set, hsize, List.set_getElem_self]
  rw [startOf, startOf, codeSize, codeSize, List.map_take, List.map_take, hsizes]

end Streams

/-! ## One patch -/

/-- An instruction with one operand can be encoded if the operand fits. -/
theorem Opcode.encode_singleton {op : Opcode} {width : Width} (h : op.widths = [width])
    (operand : Nat) :
    op.encode [operand] =
      if operand < width.limit then .ok (Instr.mk op [operand]).bytes
      else .error (.operandOverflow op operand width) := by
  by_cases hfits : operand < width.limit
  · rw [if_pos hfits]
    refine (op.encode_eq_ok_iff [operand] _).2 ⟨?_, rfl⟩
    rw [Instr.Valid, h]
    exact .cons hfits .nil
  · rw [if_neg hfits]
    simp [encode, encodeOperands, h, hfits, bind, Except.bind, throw, throwThe, MonadExceptOf.throw]

theorem Instr.Valid.widths_of_singleton {op : Opcode} {operand : Nat}
    (h : (Instr.mk op [operand]).Valid) : ∃ width, op.widths = [width] ∧ operand < width.limit := by
  have hlength : op.widths.length = 1 := List.Forall₂.length_eq h
  rcases List.length_eq_one_iff.1 hlength with ⟨width, hwidths⟩
  rw [Instr.Valid, hwidths] at h
  cases h with
  | cons hfits _ => exact ⟨width, hwidths, hfits⟩

namespace Compiler

/-- The compiler with another code in its buffer. -/
def withCode (c : Compiler) (code : Code) : Compiler := { c with buffer := { c.buffer with code } }

/-- The code of the buffer is the encoding of the instructions. -/
def Encodes (c : Compiler) (is : List Instr) : Prop := encodeAll is = .ok c.buffer.code.toList

theorem Encodes.withCode_unique {c : Compiler} {is : List Instr} {code code' : Code}
    (h : (c.withCode code).Encodes is) (h' : (c.withCode code').Encodes is) : code = code' := by
  have heq : code.toList = code'.toList := Except.ok.inj (h.symm.trans h')
  exact Array.toList_inj.1 heq

/-- The bytes in front of an instruction, its own, and those behind it. -/
theorem Encodes.split {c : Compiler} {is : List Instr} {k : Nat} {i : Instr} (h : c.Encodes is)
    (hk : is[k]? = some i) :
    i.Valid ∧ (assemble (is.take k)).length = startOf is k ∧
      c.buffer.code.toList = assemble (is.take k) ++ (i.bytes ++ assemble (is.drop (k + 1))) := by
  rcases encodeAll_eq_ok_iff.1 h with ⟨hvalid, hcode⟩
  refine ⟨hvalid i (List.mem_of_getElem? hk), ?_, ?_⟩
  · exact length_assemble fun j hj => hvalid j (List.mem_of_mem_take hj)
  · calc c.buffer.code.toList
        = assemble (is.take k ++ i :: is.drop (k + 1)) := by rw [hcode, ← eq_of_getElem? hk]
      _ = assemble (is.take k) ++ (i.bytes ++ assemble (is.drop (k + 1))) := by
          rw [assemble_append, assemble_cons]

end Compiler

namespace Compile

variable {c : Compiler} {is : List Instr} {k : Nat} {op : Opcode} {old : Nat} {width : Width}

theorem patched_of_encodes (h : c.Encodes is) (hk : is[k]? = some ⟨op, [old]⟩) (operand : Nat) :
    c.buffer.code.patched (startOf is k) operand = op.encode [operand] := by
  rcases h.split hk with ⟨-, hlength, hcode⟩
  have hbyte : c.buffer.code[startOf is k]? = some op.toByte := by
    rw [← Array.getElem?_toList, hcode, ← hlength]
    simp [Instr.bytes]
  simp [Code.patched, hbyte]

/-- An operand that fits is written over the old one. -/
theorem patch_of_fits (h : c.Encodes is) (hk : is[k]? = some ⟨op, [old]⟩)
    (hwidth : op.widths = [width]) {operand : Nat} (hfits : operand < width.limit) :
    ∃ code, patch (startOf is k) operand c = .ok () (c.withCode code) ∧
      code.size = c.buffer.code.size ∧ (c.withCode code).Encodes (is.set k ⟨op, [operand]⟩) := by
  rcases h.split hk with ⟨hvalid, hlength, hcode⟩
  have hencode := Opcode.encode_singleton hwidth operand
  rw [if_pos hfits] at hencode
  have hnew := ((op.encode_eq_ok_iff [operand] _).1 hencode).1
  refine ⟨_, patch_of_ok ((patched_of_encodes h hk operand).trans hencode), Code.size_write .., ?_⟩
  have hbytes : (Instr.mk op [operand]).bytes.length = (Instr.mk op [old]).bytes.length := by
    rw [hnew.length_bytes, hvalid.length_bytes]
    rfl
  refine encodeAll_eq_ok_iff.2 ⟨?_, ?_⟩
  · intro j hj
    rcases List.mem_or_eq_of_mem_set hj with hj | rfl
    · exact valid_of_encodeAll h j hj
    · exact hnew
  · rw [set_eq_of_getElem? hk, assemble_append, assemble_cons]
    exact Code.toList_write hcode hlength hbytes

/-- An operand that does not fit is refused. -/
theorem patch_of_overflow (h : c.Encodes is) (hk : is[k]? = some ⟨op, [old]⟩)
    (hwidth : op.widths = [width]) {operand : Nat} (hlarge : width.limit ≤ operand) :
    patch (startOf is k) operand c = .error (.encoding (.operandOverflow op operand width)) c := by
  have hencode := Opcode.encode_singleton hwidth operand
  rw [if_neg (Nat.not_lt.2 hlarge)] at hencode
  exact patch_of_error ((patched_of_encodes h hk operand).trans hencode)

/-- The same whether the operand fits or not: what a patch answers, and what it leaves. -/
theorem patch_settles (h : c.Encodes is) (hk : is[k]? = some ⟨op, [old]⟩)
    (hwidth : op.widths = [width]) (operand : Nat) :
    answer (patch (startOf is k) operand c) =
        (if operand < width.limit then .ok ()
          else .error (.encoding (.operandOverflow op operand width))) ∧
      ∃ code, finalState (patch (startOf is k) operand c) = c.withCode code ∧
        (c.withCode code).Encodes
          (is.set k ⟨op, [if operand < width.limit then operand else old]⟩) := by
  by_cases hfits : operand < width.limit
  · rcases patch_of_fits h hk hwidth hfits with ⟨code, hpatch, -, hencodes⟩
    rw [hpatch, if_pos hfits, if_pos hfits]
    exact ⟨rfl, code, rfl, hencodes⟩
  · have hsame : is.set k ⟨op, [old]⟩ = is := by
      rw [set_eq_of_getElem? hk, ← eq_of_getElem? hk]
    rw [patch_of_overflow h hk hwidth (Nat.not_lt.1 hfits), if_neg hfits, if_neg hfits, hsame]
    exact ⟨rfl, c.buffer.code, rfl, h⟩

section Two

variable {l : Nat} {op' : Opcode} {old' : Nat} {width' : Width}

/-- A patch elsewhere does not change what a patch answers, nor what it does to the stream. -/
theorem patch_after_patch (h : c.Encodes is) (hne : k ≠ l) (hk : is[k]? = some ⟨op, [old]⟩)
    (hwidth : op.widths = [width]) (hl : is[l]? = some ⟨op', [old']⟩) (hwidth' : op'.widths = [width'])
    (operand operand' : Nat) :
    answer (patch (startOf is l) operand' (finalState (patch (startOf is k) operand c))) =
        answer (patch (startOf is l) operand' c) ∧
      ∃ code, finalState (patch (startOf is l) operand'
          (finalState (patch (startOf is k) operand c))) = c.withCode code ∧
        (c.withCode code).Encodes
          ((is.set k ⟨op, [if operand < width.limit then operand else old]⟩).set l
            ⟨op', [if operand' < width'.limit then operand' else old']⟩) := by
  rcases patch_settles h hk hwidth operand with ⟨-, code, hfinal, hencodes⟩
  -- The second instruction is still there, and it starts where it did.
  have hl' : (is.set k ⟨op, [if operand < width.limit then operand else old]⟩)[l]? =
      some ⟨op', [old']⟩ := by
    rw [List.getElem?_set_ne hne, hl]
  have hstart := startOf_set (j := ⟨op, [if operand < width.limit then operand else old]⟩) hk rfl l
  rcases patch_settles hencodes hl' hwidth' operand' with ⟨hanswer, code', hfinal', hencodes'⟩
  rw [hstart] at hanswer hfinal'
  rw [hfinal, hanswer, (patch_settles h hl hwidth' operand').1]
  exact ⟨rfl, code', hfinal', hencodes'⟩

/-- Two patches of different instructions answer the same in either order, and leave the same. -/
theorem patch_comm (h : c.Encodes is) (hne : k ≠ l) (hk : is[k]? = some ⟨op, [old]⟩)
    (hwidth : op.widths = [width]) (hl : is[l]? = some ⟨op', [old']⟩) (hwidth' : op'.widths = [width'])
    (operand operand' : Nat) :
    finalState (patch (startOf is l) operand' (finalState (patch (startOf is k) operand c))) =
      finalState (patch (startOf is k) operand (finalState (patch (startOf is l) operand' c))) := by
  rcases patch_after_patch h hne hk hwidth hl hwidth' operand operand' with ⟨-, code, hfinal, hcode⟩
  rcases patch_after_patch h (Ne.symm hne) hl hwidth' hk hwidth operand' operand with
    ⟨-, code', hfinal', hcode'⟩
  rw [List.set_comm _ _ (Ne.symm hne)] at hcode'
  rw [hfinal, hfinal', hcode.withCode_unique hcode']

end Two

/-- Patching is local. In a buffer of encoded instructions, an operand that fits replaces the old one
and changes nothing else: the buffer has the same length and decodes to the same instructions but for
that one. An operand that does not fit is refused, and nothing is changed. Patches of different
instructions answer the same in either order, and leave the same. -/
theorem patch_local (h : encodeAll is = .ok c.buffer.code.toList) (hk : is[k]? = some ⟨op, [old]⟩)
    (operand : Nat) :
    ∃ width, op.widths = [width] ∧
      (operand < 256 ^ width.size → ∃ code : Code,
        patch (startOf is k) operand c = .ok () { c with buffer := { c.buffer with code } } ∧
          code.size = c.buffer.code.size ∧ code.Whole ∧ code.instrs = is.set k ⟨op, [operand]⟩) ∧
      (256 ^ width.size ≤ operand →
        patch (startOf is k) operand c =
          .error (.encoding (.operandOverflow op operand width)) c) ∧
      ∀ (l operand' : Nat) (op' : Opcode) (old' : Nat), l ≠ k → is[l]? = some ⟨op', [old']⟩ →
        answer (patch (startOf is l) operand' (finalState (patch (startOf is k) operand c))) =
            answer (patch (startOf is l) operand' c) ∧
          answer (patch (startOf is k) operand (finalState (patch (startOf is l) operand' c))) =
            answer (patch (startOf is k) operand c) ∧
          finalState (patch (startOf is l) operand' (finalState (patch (startOf is k) operand c))) =
            finalState
              (patch (startOf is k) operand (finalState (patch (startOf is l) operand' c))) := by
  have hencodes : c.Encodes is := h
  rcases (hencodes.split hk).1.widths_of_singleton with ⟨width, hwidth, -⟩
  refine ⟨width, hwidth, ?_, patch_of_overflow hencodes hk hwidth, ?_⟩
  · intro hfits
    rcases patch_of_fits hencodes hk hwidth hfits with ⟨code, hpatch, hsize, hpatched⟩
    rcases encodeAll_eq_ok_iff.1 hpatched with ⟨hvalid, hcode⟩
    exact ⟨code, hpatch, hsize, Code.whole_of_encodeAll hpatched,
      Code.instrs_of_assemble hvalid hcode⟩
  · intro l operand' op' old' hne hl
    rcases (hencodes.split hl).1.widths_of_singleton with ⟨width', hwidth', -⟩
    exact ⟨(patch_after_patch hencodes (Ne.symm hne) hk hwidth hl hwidth' operand operand').1,
      (patch_after_patch hencodes hne hl hwidth' hk hwidth operand' operand).1,
      patch_comm hencodes (Ne.symm hne) hk hwidth hl hwidth' operand operand'⟩

/-- Two jumps with operands of both sizes between them. The first jump gets the largest target, and
one more is refused. -/
theorem patch_local_of_jumps :
    ∃ (is : List Instr) (c : Compiler) (code : Code),
      is = [⟨.jumpNotTruthy, [9999]⟩, ⟨.getLocal, [255]⟩, ⟨.closure, [1, 2]⟩, ⟨.jump, [9999]⟩] ∧
      encodeAll is = .ok c.buffer.code.toList ∧
      patch 0 65535 c = .ok () { c with buffer := { c.buffer with code } } ∧
      code.size = c.buffer.code.size ∧ code.Whole ∧
      code.instrs =
        [⟨.jumpNotTruthy, [65535]⟩, ⟨.getLocal, [255]⟩, ⟨.closure, [1, 2]⟩, ⟨.jump, [9999]⟩] ∧
      patch 0 65536 c = .error (.encoding (.operandOverflow .jumpNotTruthy 65536 .word)) c ∧
      finalState (patch 9 12 (finalState (patch 0 65535 c))) =
        finalState (patch 0 65535 (finalState (patch 9 12 c))) := by
  have hencoded : encodeAll
      [⟨.jumpNotTruthy, [9999]⟩, ⟨.getLocal, [255]⟩, ⟨.closure, [1, 2]⟩, ⟨.jump, [9999]⟩] =
        .ok (Compiler.initial.withCode
          #[0x0F, 39, 15, 0x13, 255, 0x1C, 0, 1, 2, 0x0E, 39, 15]).buffer.code.toList := by decide
  rcases patch_local hencoded (k := 0) rfl 65535 with ⟨width, hwidth, hfits, -, hcomm⟩
  rcases patch_local hencoded (k := 0) rfl 65536 with ⟨width', hwidth', -, hlarge, -⟩
  cases hwidth
  cases hwidth'
  rcases hfits (by decide) with ⟨code, hpatch, hsize, hwhole, hinstrs⟩
  exact ⟨_, _, code, rfl, hencoded, hpatch, hsize, hwhole, hinstrs, hlarge (by decide),
    (hcomm 3 12 .jump 9999 (by decide) rfl).2.2⟩

end Compile

end MonkeyMachine
