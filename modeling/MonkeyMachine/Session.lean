import MonkeyMachine.Compiler
import MonkeyMachine.Machine.Step

/-!
# Sessions

Programs evaluated one after another. The names, constants and global values of one program are
there for the next. A program that does not compile leaves no trace; one that fails while running
leaves what it had bound and assigned until then.
-/

namespace MonkeyMachine

/-- Why a program has no value. -/
inductive EvalError
  | compile (cause : CompileError)
  | runtime (cause : Fault)
  | outOfFuel
  deriving DecidableEq

def EvalError.diagnostic : EvalError → Diagnostic
  | .compile cause => cause.diagnostic
  | .runtime cause => cause.diagnostic
  | .outOfFuel => .plain "monkey::session::out_of_fuel" "the run was broken off"

/-- What evaluating a program gives: the value of its last expression statement, and what it
printed. -/
structure Evaluation where
  result : Except EvalError Value
  output : String

/-- The result of a run. -/
def Ending.result (value : Value) : Ending → Except EvalError Value
  | .finished => .ok value
  | .failed fault => .error (.runtime fault)
  | .outOfFuel => .error .outOfFuel

/-- Run bytecode on its own. -/
def Bytecode.run (fuel : Nat) (bytecode : Bytecode) : Evaluation :=
  let limits : Limits := {}
  let (ending, m) :=
    (Machine.load bytecode (.ofCapacity limits.globalsSize) limits 0 0).run fuel
  { result := ending.result m.lastPopped, output := m.output }

structure Session where
  limits : Limits
  symbols : SymbolTable
  constants : Array Value
  globals : Globals
  /-- Number of composite values made by the runs so far. -/
  created : Nat

namespace Session

def start (limits : Limits) : Session where
  limits := limits
  symbols := .initial
  constants := #[]
  globals := .ofCapacity limits.globalsSize
  created := 0

/-- Compile and run a program. -/
def eval (fuel : Nat) (program : Program) (session : Session) : Evaluation × Session :=
  match (Block.compile program).run (.start session.symbols session.constants) with
  | .error cause _ => ({ result := .error (.compile cause), output := "" }, session)
  | .ok _ c =>
      let (ending, m) :=
        (Machine.load c.bytecode session.globals session.limits 0 session.created).run fuel
      ({ result := ending.result m.lastPopped, output := m.output },
        { limits := session.limits
          symbols := c.symbols
          constants := c.constants
          globals := m.globals
          created := m.created })

end Session

end MonkeyMachine
