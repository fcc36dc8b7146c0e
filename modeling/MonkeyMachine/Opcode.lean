/-!
# Opcodes

The thirty operations of the stack machine. An opcode is one byte, and its layout gives the
mnemonic and the width of each operand that follows it. Encoding, decoding and listing read this one
table. The machine does not: each of its instructions fetches the operands that it works with.
-/

namespace MonkeyMachine

/-! ## Operand widths -/

/-- Width of one operand: a single byte, or two bytes with the high one first. -/
inductive Width
  | byte
  | word
  deriving DecidableEq

namespace Width

/-- Number of bytes taken by an operand. -/
def size : Width → Nat
  | byte => 1
  | word => 2

/-- An operand fits when it is below this bound. -/
def limit (w : Width) : Nat := Nat.pow 256 w.size

/-- Number of bytes taken by operands of these widths. -/
def total (widths : List Width) : Nat := widths.foldr (fun w n => w.size + n) 0

end Width

/-! ## The table -/

inductive Opcode
  | constant
  | pop
  | pushTrue
  | pushFalse
  | pushNull
  | add
  | sub
  | mul
  | div
  | minus
  | bang
  | equal
  | notEqual
  | greaterThan
  | jump
  | jumpNotTruthy
  | setGlobal
  | getGlobal
  | setLocal
  | getLocal
  | getBuiltin
  | getFree
  | array
  | hash
  | index
  | call
  | returnValue
  | returnNull
  | closure
  | currentClosure
  deriving DecidableEq

/-- Mnemonic and operand widths of an opcode. -/
structure Layout where
  mnemonic : String
  widths : List Width
  deriving DecidableEq

namespace Opcode

def layout : Opcode → Layout
  | constant => ⟨"Constant", [.word]⟩
  | pop => ⟨"Pop", []⟩
  | pushTrue => ⟨"True", []⟩
  | pushFalse => ⟨"False", []⟩
  | pushNull => ⟨"Null", []⟩
  | add => ⟨"Add", []⟩
  | sub => ⟨"Sub", []⟩
  | mul => ⟨"Mul", []⟩
  | div => ⟨"Div", []⟩
  | minus => ⟨"Minus", []⟩
  | bang => ⟨"Bang", []⟩
  | equal => ⟨"Equal", []⟩
  | notEqual => ⟨"NotEqual", []⟩
  | greaterThan => ⟨"GreaterThan", []⟩
  | jump => ⟨"Jump", [.word]⟩
  | jumpNotTruthy => ⟨"JumpNotTruthy", [.word]⟩
  | setGlobal => ⟨"SetGlobal", [.word]⟩
  | getGlobal => ⟨"GetGlobal", [.word]⟩
  | setLocal => ⟨"SetLocal", [.byte]⟩
  | getLocal => ⟨"GetLocal", [.byte]⟩
  | getBuiltin => ⟨"GetBuiltin", [.byte]⟩
  | getFree => ⟨"GetFree", [.byte]⟩
  | array => ⟨"Array", [.word]⟩
  | hash => ⟨"Hash", [.word]⟩
  | index => ⟨"Index", []⟩
  | call => ⟨"Call", [.word]⟩
  | returnValue => ⟨"ReturnValue", []⟩
  | returnNull => ⟨"Return", []⟩
  | closure => ⟨"Closure", [.word, .byte]⟩
  | currentClosure => ⟨"CurrentClosure", []⟩

def mnemonic (op : Opcode) : String := op.layout.mnemonic

def widths (op : Opcode) : List Width := op.layout.widths

/-- Every opcode, in the order of the bytes that stand for them. -/
def all : Array Opcode :=
  #[constant, pop, pushTrue, pushFalse, pushNull, add, sub, mul, div, minus, bang, equal, notEqual,
    greaterThan, jump, jumpNotTruthy, setGlobal, getGlobal, setLocal, getLocal, getBuiltin, getFree,
    array, hash, index, call, returnValue, returnNull, closure, currentClosure]

/-- The byte that stands for an opcode. -/
def toByte : Opcode → UInt8
  | constant => 0x00
  | pop => 0x01
  | pushTrue => 0x02
  | pushFalse => 0x03
  | pushNull => 0x04
  | add => 0x05
  | sub => 0x06
  | mul => 0x07
  | div => 0x08
  | minus => 0x09
  | bang => 0x0A
  | equal => 0x0B
  | notEqual => 0x0C
  | greaterThan => 0x0D
  | jump => 0x0E
  | jumpNotTruthy => 0x0F
  | setGlobal => 0x10
  | getGlobal => 0x11
  | setLocal => 0x12
  | getLocal => 0x13
  | getBuiltin => 0x14
  | getFree => 0x15
  | array => 0x16
  | hash => 0x17
  | index => 0x18
  | call => 0x19
  | returnValue => 0x1A
  | returnNull => 0x1B
  | closure => 0x1C
  | currentClosure => 0x1D

/-- The opcode a byte stands for, if any. -/
def ofByte? (byte : UInt8) : Option Opcode := all[byte.toNat]?

/-- Length in bytes of an instruction with this opcode. -/
def instructionSize (op : Opcode) : Nat := 1 + Width.total op.widths

@[simp]
theorem ofByte?_toByte (op : Opcode) : ofByte? op.toByte = some op := by
  cases op <;> rfl

end Opcode

end MonkeyMachine
