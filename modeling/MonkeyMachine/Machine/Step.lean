import MonkeyMachine.Machine
import MonkeyMachine.Machine.Operations

/-!
# Execution

`step` fetches one instruction and executes it; `run` repeats it until the program ends, a fault is
raised or the fuel is used up. A machine can be run again after it has stopped: it goes on from the
state it was left in.
-/

namespace MonkeyMachine

/-- Whether there is more to execute. -/
inductive Progress
  | running
  | finished
  deriving DecidableEq

namespace Exec

/-! ## Calls -/

/-- Start the body of a function whose `argc` arguments lie on the stack from slot `base` on. They
become its first locals; the other locals start as null. Slots are natural numbers, so `base` and the
number of locals have a sum, and a function with more locals than there are slots runs out of stack.
In machine words the sum would overflow for a function that says it has nearly `2 ^ 64` locals. The
compiler gives a function `Compile.maxLocals` at most. -/
def enterBody (id : Identity) (body : Function) (free : List Value) (argc base : Nat) :
    Exec Unit := do
  if argc = body.numParams then
    let m ← get
    if m.callers.size + 2 ≤ m.maxFrames then
      onStack do
        Stack.clear (base + argc) (body.numLocals - argc)
        Stack.setHeight (base + body.numLocals)
      modify fun m =>
        { m with
          frame := .start id body free base
          callers := m.callers.push m.frame }
    else
      throw (.frameOverflow m.maxFrames)
  else
    throw (.wrongArgumentCount body.numParams argc)

/-- Call a builtin with the live values from slot `base` on. -/
def callBuiltin (b : Builtin) (base : Nat) : Exec Unit := do
  let args := (← get).stack.liveFrom base
  let id ← fresh
  print (b.printed args)
  match b.apply id args with
  | .error cause => throw (.builtin cause)
  | .ok v =>
      onStack (Stack.setHeight base)
      push v

/-- Call the value on top of the stack with the `argc` values below it. -/
def call (argc : Nat) : Exec Unit := do
  let callee ← pop
  let base ← onStack (Stack.below argc)
  match callee with
  | .closure id body free => enterBody id body free argc base
  | .function _ body =>
      let id ← fresh
      enterBody id body [] argc base
  | .builtin b => callBuiltin b base
  | other => throw (.notCallable other.kind)

/-- Leave the running call with a result. When the top-level program is left, the run ends. -/
def leaveBody (result : Value) : Exec Progress := do
  let m ← get
  match m.callers.back? with
  | none =>
      push result
      let _ ← pop
      return .finished
  | some caller =>
      let base := m.frame.base
      modify fun m => { m with frame := caller, callers := m.callers.pop }
      onStack (Stack.setHeight base)
      push result
      return .running

/-! ## Instructions -/

/-- Pop two values and push what `operation` makes of them. The one pushed last is the right one. -/
def binary (operation : Value → Value → Except Fault Value) : Exec Unit := do
  let right ← pop
  let left ← pop
  push (← ofResult (operation left right))

/-- Pop a value and push what `operation` makes of it. -/
def unary (operation : Value → Except Fault Value) : Exec Unit := do
  push (← ofResult (operation (← pop)))

def makeArray (count : Nat) : Exec Unit := do
  let elements ← popMany count
  push (.array (← fresh) elements.toArray)

def makeHash (count : Nat) : Exec Unit := do
  let values ← popMany count
  let entries ← ofResult (Value.addEntries [] values)
  push (.hash (← fresh) entries)

/-- Make a closure of a constant function and the topmost `count` values. -/
def makeClosure (index count : Nat) : Exec Unit := do
  match (← get).constants[index]? with
  | some (.function _ body) =>
      let free ← popMany count
      push (.closure (← fresh) body free)
  | _ => throw (.notAFunction index)

/-- Write the value on top of the stack to a global slot. -/
def setGlobal (slot : Nat) : Exec Unit := do
  let v ← pop
  onGlobals (Globals.set slot v)

/-- Write the value on top of the stack to a local slot. -/
def setLocal (slot : Nat) : Exec Unit := do
  let v ← pop
  let base := (← get).frame.base
  onStack (Stack.set (base + slot) v)

def jumpNotTruthy (target : Nat) : Exec Unit := do
  let v ← pop
  if v.truthy then pure () else jump target

/-- Push what a part of the machine holds. -/
def pushFrom (part : Machine → Except Fault Value) : Exec Unit := do
  push (← ofResult (part (← get)))

/-- A part of the machine that may be missing. -/
def orFault (fault : Fault) : Option Value → Except Fault Value
  | some v => .ok v
  | none => .error fault

/-- An act after which the run goes on with the next instruction. -/
def goOn (act : Exec Unit) : Exec Progress := do
  act
  return .running

/-- What an instruction does once its operands are read. `a` is its first operand and `b` its
second, as far as its opcode has any. -/
def execute (op : Opcode) (a b : Nat) : Exec Progress :=
  match op with
  | .constant => goOn (pushFrom fun m => orFault (.operandOutOfRange op a) m.constants[a]?)
  | .pop => goOn (do let _ ← pop)
  | .pushTrue => goOn (push (.bool true))
  | .pushFalse => goOn (push (.bool false))
  | .pushNull => goOn (push .null)
  | .add | .sub | .mul | .div => goOn (binary (Value.arithmetic op))
  | .equal | .notEqual | .greaterThan => goOn (binary (Value.comparison op))
  | .minus => goOn (unary Value.negation)
  | .bang => goOn (unary Value.inversion)
  | .jump => goOn (jump a)
  | .jumpNotTruthy => goOn (jumpNotTruthy a)
  | .setGlobal => goOn (setGlobal a)
  | .getGlobal => goOn (pushFrom fun m => m.globals.get a)
  | .setLocal => goOn (setLocal a)
  | .getLocal => goOn (pushFrom fun m =>
      orFault (.stackOverflow m.stack.capacity) (m.stack.get? (m.frame.base + a)))
  | .getBuiltin => goOn (pushFrom fun _ =>
      orFault (.operandOutOfRange op a) ((Builtin.ofIndex? a).map .builtin))
  | .getFree => goOn (pushFrom fun m => orFault (.operandOutOfRange op a) m.frame.free[a]?)
  | .array => goOn (makeArray a)
  | .hash => goOn (makeHash a)
  | .index => goOn (binary Value.indexing)
  | .call => goOn (call a)
  | .closure => goOn (makeClosure a b)
  | .currentClosure => goOn (pushFrom fun m => .ok m.frame.closure)
  | .returnValue => do leaveBody (← pop)
  | .returnNull => leaveBody .null

/-- Read the operand at the instruction pointer and move behind it. `op` is the opcode that it belongs
to. When the code ends too early, the pointer stays where the operand should start. -/
def readOperand (op : Opcode) (width : Width) : Exec Nat := do
  let frame := (← get).frame
  match frame.code.read? frame.ip width with
  | some operand =>
      jump (frame.ip + width.size)
      return operand
  | none => throw (.encoding (.truncated op frame.ip))

/-- Move behind the opcode at the instruction pointer, which is `op`, and read what it works with. -/
def fetchOperands (op : Opcode) : Exec (List Nat) := do
  jump ((← get).frame.ip + 1)
  match op with
  | .constant | .jump | .jumpNotTruthy | .setGlobal | .getGlobal | .array | .hash | .call => do
      let a ← readOperand op .word
      return [a]
  | .setLocal | .getLocal | .getBuiltin | .getFree => do
      let a ← readOperand op .byte
      return [a]
  | .closure => do
      let index ← readOperand op .word
      let count ← readOperand op .byte
      return [index, count]
  | .pop | .pushTrue | .pushFalse | .pushNull | .add | .sub | .mul | .div | .minus | .bang | .equal
  | .notEqual | .greaterThan | .index | .returnValue | .returnNull | .currentClosure => return []

/-- Execute one instruction. At the end of its code a function returns null and the top-level
program ends. -/
def step : Exec Progress := do
  let m ← get
  match m.frame.code[m.frame.ip]? with
  | none => if m.callers.isEmpty then return .finished else leaveBody .null
  | some byte =>
      match Opcode.ofByte? byte with
      | none => throw (.encoding (.unknownOpcode byte))
      | some op => do
          let operands ← fetchOperands op
          execute op (operands.getD 0 0) (operands.getD 1 0)

end Exec

/-! ## Runs -/

/-- How a run ends. -/
inductive Ending
  | finished
  | failed (fault : Fault)
  /-- The run was broken off. -/
  | outOfFuel
  deriving DecidableEq

namespace Machine

/-- Execute at most `fuel` instructions. -/
def run : Nat → Machine → Ending × Machine
  | 0, m => (.outOfFuel, m)
  | fuel + 1, m =>
      match Exec.step m with
      | .ok .running m => run fuel m
      | .ok .finished m => (.finished, m)
      | .error fault m => (.failed fault, m)

end Machine

end MonkeyMachine
