import MonkeyMachine.Code.Encoding

/-!
# Instruction buffers

The code of one function body while it is being written. A buffer remembers where its last two
instructions start, so that the compiler can take back or change the one it has just written.
-/

namespace MonkeyMachine

/-- An instruction that was written, and where it starts. -/
structure Emitted where
  opcode : Opcode
  position : Nat
  deriving DecidableEq

structure Buffer where
  code : Code
  last : Option Emitted
  previous : Option Emitted
  deriving DecidableEq

namespace Buffer

def empty : Buffer := { code := #[], last := none, previous := none }

/-- Add an encoded instruction. -/
def append (buffer : Buffer) (op : Opcode) (bytes : List UInt8) : Buffer :=
  let position := buffer.code.size
  { code := buffer.code ++ bytes
    last := some { opcode := op, position }
    previous := buffer.last }

/-- Whether the last instruction has the given opcode. -/
def lastIs (buffer : Buffer) (op : Opcode) : Bool :=
  match buffer.last with
  | some emitted => emitted.opcode == op
  | none => false

/-- Take the last instruction back. -/
def removeLast (buffer : Buffer) : Buffer :=
  match buffer with
  | { code, last := some emitted, previous } =>
      { code := code.truncate emitted.position, last := previous, previous }
  | _ => buffer

/-- Turn the last instruction, a one-byte one, into another one-byte instruction. -/
def replaceLast (buffer : Buffer) (op : Opcode) : Buffer :=
  match buffer with
  | { code, last := some emitted, previous } =>
      { code := code.write emitted.position [op.toByte]
        last := some { emitted with opcode := op }
        previous }
  | _ => buffer

end Buffer

end MonkeyMachine
