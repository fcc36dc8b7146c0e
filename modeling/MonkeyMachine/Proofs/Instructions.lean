import Mathlib.Algebra.GroupWithZero.Nat
import Mathlib.Data.List.Forall2
import MonkeyMachine.Code.Listing

/-!
# Streams of instructions

A code buffer seen as a list of instructions. `Instr` is an opcode with its operands, `assemble`
writes a list of them as bytes, and `Holds code position is` says that the bytes of `is` stand in
`code` from `position` on.

The main results are `Holds.fetch`, which reads an instruction back at its start, and
`lines_assemble`, which says that the listing of an assembled buffer has one line for each
instruction and nothing else. Nothing here says which lists the compiler writes.
-/

namespace MonkeyMachine

/-- An opcode with its operands. -/
structure Instr where
  op : Opcode
  operands : List Nat
  deriving DecidableEq

/-! ## Operands and their bytes -/

theorem Width.limit_word : Width.word.limit = 65536 := rfl

namespace Instr

/-- Every operand has a width to stand against and fits in it. -/
def Valid (i : Instr) : Prop :=
  List.Forall₂ (fun (w : Width) n => n < w.limit) i.op.widths i.operands

instance (i : Instr) : Decidable i.Valid := inferInstanceAs (Decidable (List.Forall₂ _ _ _))

/-- The bytes of operands that stand against the given widths. -/
def operandBytes (widths : List Width) (operands : List Nat) : List UInt8 :=
  (List.zipWith Width.bytes widths operands).flatten

/-- The bytes of an instruction. -/
def bytes (i : Instr) : List UInt8 :=
  i.op.toByte :: operandBytes i.op.widths i.operands

/-- Length of an instruction in bytes. -/
def size (i : Instr) : Nat := i.op.instructionSize

theorem size_pos (i : Instr) : 0 < i.size := by
  unfold size Opcode.instructionSize
  omega

theorem length_operandBytes {widths : List Width} {operands : List Nat}
    (h : List.Forall₂ (fun (w : Width) n => n < w.limit) widths operands) :
    (operandBytes widths operands).length = Width.total widths := by
  induction h with
  | nil => rfl
  | @cons w n ws ns _ _ ih =>
      have hrest : (List.zipWith Width.bytes ws ns).flatten.length = Width.total ws := ih
      simp [operandBytes, hrest, Width.total]

theorem Valid.length_bytes {i : Instr} (h : i.Valid) : i.bytes.length = i.size := by
  have hrest := length_operandBytes h
  simp [bytes, size, Opcode.instructionSize, hrest, Nat.add_comm]

end Instr

namespace Opcode

theorem encodeOperands_of_fits (op : Opcode) {widths : List Width} {operands : List Nat}
    (h : List.Forall₂ (fun (w : Width) n => n < w.limit) widths operands) :
    op.encodeOperands widths operands = .ok (Instr.operandBytes widths operands) := by
  induction h with
  | nil => rfl
  | cons hfit _ ih =>
      simp [encodeOperands, hfit, ih, Instr.operandBytes, bind, Except.bind, pure, Except.pure]

theorem fits_of_encodeOperands (op : Opcode) {widths : List Width} {operands : List Nat}
    {bytes : List UInt8} (hlen : operands.length = widths.length)
    (h : op.encodeOperands widths operands = .ok bytes) :
    List.Forall₂ (fun (w : Width) n => n < w.limit) widths operands := by
  induction widths generalizing operands bytes with
  | nil =>
      have hnil : operands = [] := List.eq_nil_of_length_eq_zero hlen
      subst hnil
      exact .nil
  | cons w ws ih =>
      cases operands with
      | nil => simp at hlen
      | cons n ns =>
          by_cases hfit : n < w.limit
          · cases hrest : op.encodeOperands ws ns with
            | error cause => simp [encodeOperands, hfit, hrest, bind, Except.bind] at h
            | ok rest => exact .cons hfit (ih (by simpa using hlen) hrest)
          · simp [encodeOperands, hfit, throw, throwThe, MonadExceptOf.throw] at h

/-- Encoding succeeds on exactly the valid instructions, with their bytes. -/
theorem encode_eq_ok_iff (op : Opcode) (operands : List Nat) (bytes : List UInt8) :
    op.encode operands = .ok bytes ↔
      (Instr.mk op operands).Valid ∧ bytes = (Instr.mk op operands).bytes := by
  constructor
  · intro h
    by_cases hlen : operands.length = op.widths.length
    · cases hrest : op.encodeOperands op.widths operands with
      | error cause => simp [encode, hlen, hrest, bind, Except.bind] at h
      | ok rest =>
          have hfits := op.fits_of_encodeOperands hlen hrest
          have hbytes : op.toByte :: rest = bytes := by
            simpa [encode, hlen, hrest, bind, Except.bind, pure, Except.pure] using h
          rw [op.encodeOperands_of_fits hfits] at hrest
          cases hrest
          exact ⟨hfits, hbytes.symm⟩
    · simp [encode, hlen, throw, throwThe, MonadExceptOf.throw] at h
  · rintro ⟨hvalid, rfl⟩
    have hlen : operands.length = op.widths.length := (List.Forall₂.length_eq hvalid).symm
    have hrest := op.encodeOperands_of_fits hvalid
    simp [encode, hlen, hrest, bind, Except.bind, pure, Except.pure, Instr.bytes]

end Opcode

/-! ## Assembled code -/

/-- The bytes of a list of instructions. -/
def assemble (is : List Instr) : List UInt8 := is.flatMap Instr.bytes

/-- Length in bytes of a list of instructions. -/
def codeSize (is : List Instr) : Nat := (is.map Instr.size).sum

@[simp]
theorem assemble_nil : assemble [] = [] := rfl

@[simp]
theorem assemble_cons (i : Instr) (is : List Instr) :
    assemble (i :: is) = i.bytes ++ assemble is := rfl

@[simp]
theorem assemble_append (is js : List Instr) : assemble (is ++ js) = assemble is ++ assemble js := by
  simp [assemble]

@[simp]
theorem codeSize_nil : codeSize [] = 0 := rfl

@[simp]
theorem codeSize_cons (i : Instr) (is : List Instr) :
    codeSize (i :: is) = i.size + codeSize is := by
  simp [codeSize]

@[simp]
theorem codeSize_append (is js : List Instr) : codeSize (is ++ js) = codeSize is + codeSize js := by
  simp [codeSize]

theorem length_assemble {is : List Instr} (h : ∀ i ∈ is, i.Valid) :
    (assemble is).length = codeSize is := by
  induction is with
  | nil => rfl
  | cons i is ih =>
      have hi : i.bytes.length = i.size := (h i (by simp)).length_bytes
      have hrest := ih fun j hj => h j (by simp [hj])
      simp [hi, hrest]

/-! ## Code at a position -/

namespace Code

/-- The bytes of `is` stand in the buffer from `position` on. -/
def Holds (code : Code) (position : Nat) (is : List Instr) : Prop :=
  (∀ i ∈ is, i.Valid) ∧ assemble is <+: code.toList.drop position

namespace Holds

variable {code : Code} {position : Nat} {i : Instr} {is js : List Instr}

theorem valid (h : code.Holds position is) : ∀ i ∈ is, i.Valid := h.1

theorem left (h : code.Holds position (is ++ js)) : code.Holds position is := by
  refine ⟨fun i hi => h.1 i (by simp [hi]), ?_⟩
  have hpre : assemble is <+: assemble (is ++ js) := ⟨assemble js, by simp⟩
  exact hpre.trans h.2

theorem right (h : code.Holds position (is ++ js)) : code.Holds (position + codeSize is) js := by
  have hleft := h.left
  refine ⟨fun i hi => h.1 i (by simp [hi]), ?_⟩
  rcases h.2 with ⟨rest, hrest⟩
  refine ⟨rest, ?_⟩
  rw [← List.drop_drop, ← hrest, assemble_append, List.append_assoc,
    ← length_assemble hleft.valid, List.drop_left]

theorem tail (h : code.Holds position (i :: is)) : code.Holds (position + i.size) is := by
  have hsplit : code.Holds position ([i] ++ is) := h
  simpa using hsplit.right

/-- An assembled buffer holds its instructions from its start on. -/
theorem of_assemble (hvalid : ∀ i ∈ is, i.Valid) (hcode : code.toList = assemble is) :
    code.Holds 0 is := by
  refine ⟨hvalid, [], ?_⟩
  rw [List.drop_zero, hcode, List.append_nil]

end Holds

/-! ## Reading back -/

theorem getElem?_of_drop {code : Code} {position : Nat} {byte : UInt8} {rest : List UInt8}
    (h : byte :: rest <+: code.toList.drop position) : code[position]? = some byte := by
  rcases h with ⟨more, hmore⟩
  have hget : (code.toList.drop position)[0]? = some byte := by
    rw [← hmore]
    rfl
  rw [List.getElem?_drop] at hget
  simpa using hget

theorem drop_succ_of_drop {code : Code} {position : Nat} {byte : UInt8} {rest : List UInt8}
    (h : byte :: rest <+: code.toList.drop position) :
    rest <+: code.toList.drop (position + 1) := by
  rcases h with ⟨more, hmore⟩
  refine ⟨more, ?_⟩
  rw [← List.drop_drop, ← hmore]
  rfl

theorem read?_of_bytes {code : Code} {position n : Nat} {w : Width} {rest : List UInt8}
    (hfit : n < w.limit) (h : w.bytes n ++ rest <+: code.toList.drop position) :
    code.read? position w = some n ∧ rest <+: code.toList.drop (position + w.size) := by
  cases w with
  | byte =>
      have hlt : n < 256 := hfit
      have hget := getElem?_of_drop h
      refine ⟨?_, drop_succ_of_drop h⟩
      simp [read?, hget, Nat.mod_eq_of_lt hlt]
  | word =>
      have hlt : n < 65536 := hfit
      have hhigh := getElem?_of_drop h
      have hlow := getElem?_of_drop (drop_succ_of_drop h)
      refine ⟨?_, drop_succ_of_drop (drop_succ_of_drop h)⟩
      simp only [read?, hhigh, hlow, UInt8.toNat_ofNat']
      rw [Nat.mod_eq_of_lt (show n / 256 < 2 ^ 8 by omega)]
      exact congrArg some (by omega)

theorem readOperands_of_bytes {code : Code} {widths : List Width} {operands : List Nat}
    (hfits : List.Forall₂ (fun (w : Width) n => n < w.limit) widths operands) :
    ∀ {position : Nat} {rest : List UInt8},
      Instr.operandBytes widths operands ++ rest <+: code.toList.drop position →
      code.readOperands position widths = .ok (operands, position + Width.total widths) := by
  induction hfits with
  | nil =>
      intro position rest _
      rfl
  | @cons w n ws ns hfit _ ih =>
      intro position rest h
      have hsplit : w.bytes n ++ (Instr.operandBytes ws ns ++ rest) <+: code.toList.drop position := by
        simpa [Instr.operandBytes] using h
      rcases read?_of_bytes hfit hsplit with ⟨hread, hdrop⟩
      have hrest := ih hdrop
      simp [readOperands, hread, hrest, Width.total, Nat.add_assoc]

/-- At the start of an instruction stand its opcode and, behind it, its operands. -/
theorem Holds.fetch {code : Code} {position : Nat} {i : Instr} {is : List Instr}
    (h : code.Holds position (i :: is)) :
    code[position]? = some i.op.toByte ∧
      code.readOperands (position + 1) i.op.widths = .ok (i.operands, position + i.size) := by
  have hvalid : i.Valid := h.valid i (by simp)
  have hbytes : i.op.toByte :: (Instr.operandBytes i.op.widths i.operands ++ assemble is) <+:
      code.toList.drop position := by
    simpa [Instr.bytes] using h.2
  refine ⟨getElem?_of_drop hbytes, ?_⟩
  have hread := readOperands_of_bytes hvalid (drop_succ_of_drop hbytes)
  rw [hread, Instr.size, Opcode.instructionSize, ← Nat.add_assoc]

/-! ## Listings -/

/-- The lines of a list of instructions whose first one starts at `offset`. -/
def instructionLines (offset : Nat) : List Instr → List Line
  | [] => []
  | i :: is => .instruction offset i.op i.operands :: instructionLines (offset + i.size) is

theorem linesFrom_of_holds {code : Code} {is : List Instr} {position : Nat}
    (h : code.Holds position is) (hend : code.size = position + codeSize is) :
    code.linesFrom position = instructionLines position is := by
  induction is generalizing position with
  | nil =>
      rw [linesFrom]
      simp [instructionLines, hend]
  | cons i is ih =>
      rcases h.fetch with ⟨hbyte, hread⟩
      rcases Array.getElem?_eq_some_iff.1 hbyte with ⟨hlt, hget⟩
      have hrest := ih h.tail (by rw [hend]; simp [Nat.add_assoc])
      have hfinish : position + 1 + (position + i.size - (position + 1)) = position + i.size := by
        have := i.size_pos
        omega
      rw [linesFrom, dif_pos hlt]
      simp only [hget, Opcode.ofByte?_toByte, decodeOperands, hread, instructionLines, hfinish, hrest]

/-- The listing of an assembled buffer is the list of its instructions. -/
theorem lines_assemble {code : Code} {is : List Instr} (hvalid : ∀ i ∈ is, i.Valid)
    (hcode : code.toList = assemble is) : code.lines = instructionLines 0 is := by
  have hsize : code.size = 0 + codeSize is := by
    rw [← Array.length_toList, hcode, length_assemble hvalid, Nat.zero_add]
  exact linesFrom_of_holds (.of_assemble hvalid hcode) hsize

end Code

end MonkeyMachine
