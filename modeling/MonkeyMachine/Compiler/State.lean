import MonkeyMachine.Bytecode
import MonkeyMachine.Compiler.Buffer
import MonkeyMachine.SymbolTable

/-!
# State of the compiler

What the compiler carries along, and the single acts that code generation is made of: writing an
instruction, adding a constant, opening and closing a function body, binding and loading names.

Every act either succeeds or raises a `CompileError`. An error does not roll anything back: the
state it leaves is the one in which it arose.
-/

namespace MonkeyMachine

/-- Why a program cannot be compiled. -/
inductive CompileError
  | undefinedVariable (name : String)
  | unknownOperator (operator : String)
  | tooManyLocals
  | encoding (cause : EncodingError)
  deriving DecidableEq

def CompileError.diagnostic : CompileError → Diagnostic
  | .undefinedVariable name =>
      .plain "monkey::compiler::undefined_variable" ("undefined variable " ++ name)
  | .unknownOperator operator =>
      .plain "monkey::compiler::unknown_operator" ("unknown operator " ++ operator)
  | .tooManyLocals =>
      .plain "monkey::compiler::too_many_locals"
        "too many local bindings in one function (limit: 256)"
  | .encoding cause => cause.diagnostic

structure Compiler where
  constants : Array Value
  symbols : SymbolTable
  /-- The buffer that receives instructions. -/
  buffer : Buffer
  /-- The buffers of the function bodies around it, innermost first. -/
  enclosing : List Buffer

abbrev Compile := EStateM CompileError Compiler

namespace Compiler

/-- A compiler at the start of a program, with the names and constants known so far. -/
def start (symbols : SymbolTable) (constants : Array Value) : Compiler :=
  { constants, symbols, buffer := .empty, enclosing := [] }

/-- A compiler that knows the builtins and nothing else. -/
def initial : Compiler := start .initial #[]

/-- The code of the current buffer and the constants. -/
def bytecode (c : Compiler) : Bytecode :=
  { code := c.buffer.code, constants := c.constants }

end Compiler

namespace Compile

/-- Local slots are numbered below this bound, so that a slot fits in one byte. -/
def maxLocals : Nat := 256

/-- Operand of a forward jump until its target is known. -/
def jumpPlaceholder : Nat := 9999

/-! ## Instructions -/

/-- Write an instruction and tell where it starts. -/
def emitAt (op : Opcode) (operands : List Nat) : Compile Nat :=
  match op.encode operands with
  | .error cause => throw (.encoding cause)
  | .ok bytes =>
      modifyGet fun c => (c.buffer.code.size, { c with buffer := c.buffer.append op bytes })

/-- Write an instruction. -/
def emit (op : Opcode) (operands : List Nat) : Compile Unit := do
  let _ ← emitAt op operands

/-- Where the next instruction will start. -/
def position : Compile Nat := do
  return (← get).buffer.code.size

/-- Replace the operand of the instruction that starts at `position`. -/
def patch (position operand : Nat) : Compile Unit := do
  match (← get).buffer.code.patched position operand with
  | .error cause => throw (.encoding cause)
  | .ok bytes =>
      modify fun c =>
        { c with buffer := { c.buffer with code := c.buffer.code.write position bytes } }

/-- Whether the last instruction has the given opcode. -/
def lastIs (op : Opcode) : Compile Bool := do
  return (← get).buffer.lastIs op

/-! ## Constants -/

/-- Add a constant and tell its number. -/
def addConstant (v : Value) : Compile Nat :=
  modifyGet fun c => (c.constants.size, { c with constants := c.constants.push v })

/-- Add a function. Its number is its identity. -/
def addFunction (f : Function) : Compile Nat := do
  let index := (← get).constants.size
  addConstant (.function (.constant index) f)

/-! ## Names -/

/-- Bind `name` to a new slot. -/
def define (name : String) : Compile Symbol :=
  modifyGet fun c =>
    let (symbol, symbols) := c.symbols.define name
    (symbol, { c with symbols })

/-- Bind the name of the function whose body is being compiled, if it has one. -/
def defineOwnName : Option String → Compile Unit
  | none => pure ()
  | some name => modify fun c => { c with symbols := (c.symbols.defineOwnName name).2 }

/-- Bind parameters to the first slots of a function body. -/
def defineParams : List String → Compile Unit
  | [] => pure ()
  | name :: rest => do
      let symbol ← define name
      if symbol.index < maxLocals then
        defineParams rest
      else
        throw .tooManyLocals

/-- Find the binding of a name. -/
def resolve (name : String) : Compile Symbol := do
  match (← get).symbols.resolve name with
  | none => throw (.undefinedVariable name)
  | some (symbol, symbols) =>
      modify fun c => { c with symbols }
      return symbol

/-- Push the value of a symbol. -/
def load (symbol : Symbol) : Compile Unit :=
  match symbol.storage with
  | .global => emit .getGlobal [symbol.index]
  | .local => emit .getLocal [symbol.index]
  | .builtin => emit .getBuiltin [symbol.index]
  | .free => emit .getFree [symbol.index]
  | .function => emit .currentClosure []

/-- Push the values of symbols, first to last. -/
def loadAll : List Symbol → Compile Unit
  | [] => pure ()
  | symbol :: rest => do
      load symbol
      loadAll rest

/-- Bind `name` to the value on top of the stack. -/
def bind (name : String) : Compile Unit := do
  let symbol ← define name
  if symbol.storage = .global then
    emit .setGlobal [symbol.index]
  else if symbol.index < maxLocals then
    emit .setLocal [symbol.index]
  else
    throw .tooManyLocals

/-! ## Function bodies -/

/-- Start the body of a function. -/
def enterBody : Compile Unit :=
  modify fun c =>
    { c with
      buffer := .empty
      enclosing := c.buffer :: c.enclosing
      symbols := c.symbols.enter }

/-- Finish the body of a function, going back to the code around it. -/
def leaveBody : Compile (Code × Scope) :=
  modifyGet fun c =>
    let (scope, symbols) := c.symbols.leave
    match c.enclosing with
    | [] => ((c.buffer.code, scope), { c with buffer := .empty, symbols })
    | outer :: rest => ((c.buffer.code, scope), { c with buffer := outer, enclosing := rest, symbols })

end Compile

end MonkeyMachine
