import MonkeyMachine.Opcode

/-!
# Code buffers

A code buffer is a flat sequence of bytes. This file holds the edits a compiler makes to one
(append, overwrite in place, cut off the tail) and the reading of single operands. It does not say
which buffers are made of whole instructions: that is `MonkeyMachine.Code.Encoding`.
-/

namespace MonkeyMachine

abbrev Code := Array UInt8

namespace Code

/-! ## Edits -/

/-- Write `bytes` one after another from `position` on. -/
def write (code : Code) (position : Nat) : List UInt8 → Code
  | [] => code
  | byte :: rest => write (code.setIfInBounds position byte) (position + 1) rest

/-- Replace the bytes from `position` on. The replacement has to fit inside the buffer. -/
def overwrite? (code : Code) (position : Nat) (bytes : List UInt8) : Option Code :=
  if position + bytes.length ≤ code.size then some (code.write position bytes) else none

/-- Keep the first `length` bytes. -/
def truncate (code : Code) (length : Nat) : Code := code.shrink length

@[simp]
theorem size_write (code : Code) (position : Nat) (bytes : List UInt8) :
    (code.write position bytes).size = code.size := by
  induction bytes generalizing code position with
  | nil => rfl
  | cons byte rest ih => simp [write, ih]

@[simp]
theorem size_truncate (code : Code) (length : Nat) :
    (code.truncate length).size = min length code.size := by
  simp [truncate]

/-! ## Reading operands -/

/-- The operand of the given width that starts at `offset`. -/
def read? (code : Code) (offset : Nat) : Width → Option Nat
  | .byte => code[offset]?.map UInt8.toNat
  | .word =>
      match code[offset]?, code[offset + 1]? with
      | some high, some low => some (256 * high.toNat + low.toNat)
      | _, _ => none

end Code

end MonkeyMachine
