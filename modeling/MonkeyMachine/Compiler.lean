import MonkeyMachine.Compiler.State
import MonkeyMachine.Program

/-!
# The compiler

One pass over a program, from left to right. The code of an expression leaves its value on top of
the stack; the code of a statement leaves the stack as it was.

Two orders are worth noting. `a < b` is compiled as `b > a`, so its right side is evaluated first;
and the arguments of a call are evaluated before the function that is called.
-/

namespace MonkeyMachine

namespace Compile

/-! ## Operators -/

def unaryOpcode? (operator : String) : Option Opcode :=
  if operator = "!" then some .bang
  else if operator = "-" then some .minus
  else none

def binaryOpcode? (operator : String) : Option Opcode :=
  if operator = "+" then some .add
  else if operator = "-" then some .sub
  else if operator = "*" then some .mul
  else if operator = "/" then some .div
  else if operator = ">" then some .greaterThan
  else if operator = "==" then some .equal
  else if operator = "!=" then some .notEqual
  else none

/-! ## Constructs with a body

Each takes the code generation of its parts as an argument. -/

/-- A constant and the instruction that pushes it. -/
def literal (v : Value) : Compile Unit := do
  let index ← addConstant v
  emit .constant [index]

/-- One branch of a conditional: a block that leaves one value. The value of a last expression
statement is kept; a block that ends otherwise leaves null. -/
def branch (block : Compile Unit) : Compile Unit := do
  let start ← position
  block
  let finish ← position
  if (← lastIs .pop) && start < finish then
    modify fun c => { c with buffer := c.buffer.removeLast }
  else
    emit .pushNull []

/-- A conditional. Its code is laid out as
test, `JumpNotTruthy no`, branch, `Jump finish`, `no:` other branch, `finish:`. -/
def conditional (test yes no : Compile Unit) : Compile Unit := do
  test
  let jumpToNo ← emitAt .jumpNotTruthy [jumpPlaceholder]
  branch yes
  let jumpToFinish ← emitAt .jump [jumpPlaceholder]
  patch jumpToNo (← position)
  no
  patch jumpToFinish (← position)

/-- Let a function body end in a return. The value of a last expression statement is returned. -/
def finishBody : Compile Unit := do
  if ← lastIs .pop then
    modify fun c => { c with buffer := c.buffer.replaceLast .returnValue }
  if !(← lastIs .returnValue) then
    emit .returnNull []

/-- A function literal: its body becomes a constant. A function that captures nothing is that
constant; otherwise the captured values are pushed and a closure is made of them. -/
def functionLiteral (own : Option String) (params : List String) (body : Compile Unit) :
    Compile Unit := do
  enterBody
  defineOwnName own
  defineParams params
  body
  finishBody
  let (code, scope) ← leaveBody
  loadAll scope.captures
  let index ← addFunction
    { code, numLocals := scope.definitions, numParams := params.length }
  if scope.captures.isEmpty then
    emit .constant [index]
  else
    emit .closure [index, scope.captures.length]

end Compile

open Compile

/-! ## Statements and expressions -/

mutual

def Stmt.compile : Stmt → Compile Unit
  | .expr value => do
      Expr.compile none value
      emit .pop []
  | .bind name value => do
      Expr.compile (some name) value
      Compile.bind name
  | .ret value => do
      Expr.compile none value
      emit .returnValue []

/-- The statements of a block, one after another. -/
def Block.compile : List Stmt → Compile Unit
  | [] => pure ()
  | stmt :: rest => do
      Stmt.compile stmt
      Block.compile rest

/-- An expression. When it is about to be bound to a name, a function literal knows that name as
its `own`. -/
def Expr.compile (own : Option String) : Expr → Compile Unit
  | .ident name => do
      let symbol ← resolve name
      load symbol
  | .int n => literal (.int n)
  | .str s => literal (.str s)
  | .bool b => emit (if b then .pushTrue else .pushFalse) []
  | .unary operator operand =>
      match unaryOpcode? operator with
      | none => throw (.unknownOperator operator)
      | some op => do
          Expr.compile none operand
          emit op []
  | .binary left operator right =>
      if operator = "<" then do
        Expr.compile none right
        Expr.compile none left
        emit .greaterThan []
      else
        match binaryOpcode? operator with
        | none => throw (.unknownOperator operator)
        | some op => do
            Expr.compile none left
            Expr.compile none right
            emit op []
  | .cond test yes none =>
      conditional (Expr.compile none test) (Block.compile yes) (emit .pushNull [])
  | .cond test yes (some no) =>
      conditional (Expr.compile none test) (Block.compile yes) (branch (Block.compile no))
  | .function params body => functionLiteral own params (Block.compile body)
  | .call callee args => do
      Expr.compileList args
      Expr.compile none callee
      emit .call [args.length]
  | .array elements => do
      Expr.compileList elements
      emit .array [elements.length]
  | .hash pairs => do
      Expr.compilePairs pairs
      emit .hash [2 * pairs.length]
  | .index collection key => do
      Expr.compile none collection
      Expr.compile none key
      emit .index []

/-- Expressions, first to last. -/
def Expr.compileList : List Expr → Compile Unit
  | [] => pure ()
  | expr :: rest => do
      Expr.compile none expr
      Expr.compileList rest

/-- Keys and values in turn, first pair to last. -/
def Expr.compilePairs : List (Expr × Expr) → Compile Unit
  | [] => pure ()
  | (key, value) :: rest => do
      Expr.compile none key
      Expr.compile none value
      Expr.compilePairs rest

end

/-- Compile a program on its own. -/
def Program.compile (program : Program) : Except CompileError Bytecode :=
  match (Block.compile program).run Compiler.initial with
  | .ok _ c => .ok c.bytecode
  | .error e _ => .error e

end MonkeyMachine
