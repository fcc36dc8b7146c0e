import MonkeyMachine.Code
import MonkeyMachine.Diagnostic

/-!
# Encoding of instructions

An instruction is an opcode byte followed by its operands, each in the width that the opcode's
layout gives. `encode` writes one and `decodeOperands` reads the operands back; `Code.patch`
replaces the single operand of an instruction that is already in a buffer.
-/

namespace MonkeyMachine

/-- Why bytes and instructions do not correspond. -/
inductive EncodingError
  /-- The byte stands for no opcode. -/
  | unknownOpcode (byte : UInt8)
  /-- An instruction was given the wrong number of operands. -/
  | operandCount (opcode : Opcode) (got : Nat)
  /-- An operand is too large for its width. -/
  | operandOverflow (opcode : Opcode) (operand : Nat) (width : Width)
  /-- The buffer ends before the operand that starts at `offset` is complete. -/
  | truncated (opcode : Opcode) (offset : Nat)
  deriving DecidableEq

namespace EncodingError

def diagnostic : EncodingError → Diagnostic
  | unknownOpcode byte =>
      .plain "monkey::encoding::unknown_opcode" ("opcode " ++ toString byte.toNat ++ " undefined")
  | operandCount opcode got =>
      .plain "monkey::encoding::operand_count"
        (opcode.mnemonic ++ " expects " ++ toString opcode.widths.length ++ " operand(s), got " ++
          toString got)
  | operandOverflow opcode operand width =>
      .plain "monkey::encoding::operand_overflow"
        ("operand " ++ toString operand ++ " of " ++ opcode.mnemonic ++ " does not fit in " ++
          toString width.size ++ " byte(s)")
  | truncated opcode offset =>
      .plain "monkey::encoding::truncated"
        (opcode.mnemonic ++ " instruction truncated at operand offset " ++ toString offset)

def message (e : EncodingError) : String := e.diagnostic.message

end EncodingError

/-! ## Writing -/

namespace Width

/-- The bytes of an operand, high byte first. -/
def bytes : Width → Nat → List UInt8
  | byte, n => [UInt8.ofNat n]
  | word, n => [UInt8.ofNat (n / 256), UInt8.ofNat n]

@[simp]
theorem length_bytes (w : Width) (n : Nat) : (w.bytes n).length = w.size := by
  cases w <;> rfl

end Width

namespace Opcode

/-- The bytes of operands that stand against the given widths, up to the first that does not fit. -/
def encodeOperands (op : Opcode) : List Width → List Nat → Except EncodingError (List UInt8)
  | width :: widths, operand :: operands =>
      if operand < width.limit then do
        let rest ← encodeOperands op widths operands
        pure (width.bytes operand ++ rest)
      else
        throw (.operandOverflow op operand width)
  | _, _ => pure []

/-- The bytes of one instruction. -/
def encode (op : Opcode) (operands : List Nat) : Except EncodingError (List UInt8) :=
  if operands.length = op.widths.length then do
    let rest ← op.encodeOperands op.widths operands
    pure (op.toByte :: rest)
  else
    throw (.operandCount op operands.length)

end Opcode

/-! ## Reading -/

namespace Code

/-- Operands of the given widths, read one after another from `position` on, and the position just
after the last. If the buffer ends too early, the answer is where the first missing one starts. -/
def readOperands (code : Code) (position : Nat) : List Width → Except Nat (List Nat × Nat)
  | [] => .ok ([], position)
  | width :: widths =>
      match code.read? position width with
      | none => .error position
      | some operand =>
          match readOperands code (position + width.size) widths with
          | .error missing => .error missing
          | .ok (operands, finish) => .ok (operand :: operands, finish)

/-- The operands of `op` in the bytes from `start` on, and the number of bytes they take. -/
def decodeOperands (code : Code) (start : Nat) (op : Opcode) :
    Except EncodingError (List Nat × Nat) :=
  match code.readOperands start op.widths with
  | .error missing => .error (.truncated op (missing - start))
  | .ok (operands, finish) => .ok (operands, finish - start)

/-! ## Patching -/

/-- The one-operand instruction that starts at `position`, with another operand. -/
def patched (code : Code) (position operand : Nat) : Except EncodingError (List UInt8) :=
  match code[position]? with
  | none => pure []
  | some byte =>
      match Opcode.ofByte? byte with
      | none => throw (.unknownOpcode byte)
      | some op => op.encode [operand]

/-- Replace the operand of the one-operand instruction that starts at `position`. -/
def patch (code : Code) (position operand : Nat) : Except EncodingError Code := do
  let bytes ← code.patched position operand
  pure (code.write position bytes)

end Code

end MonkeyMachine
