import MonkeyMachine.Assoc
import MonkeyMachine.Value

/-!
# Symbol tables

The compiler's record of which names are bound and where their values are kept. A table is a chain
of scopes, one for the top level and one for each function body around the current point.

A name bound by a function further out is not reached directly: each function between its binder
and its use captures it, and keeps it as one of its own free variables.
-/

namespace MonkeyMachine

/-- Where the value of a name is kept. -/
inductive Storage
  /-- In a slot of the global store. -/
  | global
  /-- In a stack slot of the current call. -/
  | local
  /-- Among the builtin functions. -/
  | builtin
  /-- Among the values that the running closure has captured. -/
  | free
  /-- The name is that of the running function. -/
  | function
  deriving DecidableEq

/-- Whether a value kept this way is reached from inside every function without being captured. -/
def Storage.reachable : Storage → Bool
  | .global => true
  | .builtin => true
  | .local => false
  | .free => false
  | .function => false

structure Symbol where
  name : String
  storage : Storage
  index : Nat
  deriving DecidableEq

/-! ## One scope -/

/-- The names of one function body, or of the top level. -/
structure Scope where
  bindings : List (String × Symbol)
  /-- Number of slots handed out. -/
  definitions : Nat
  /-- Symbols of the scope around this one that are captured here. The symbol at place `i` is free
  variable `i`. -/
  captures : List Symbol
  deriving DecidableEq

namespace Scope

def empty : Scope := { bindings := [], definitions := 0, captures := [] }

def find? (scope : Scope) (name : String) : Option Symbol :=
  Assoc.find? name scope.bindings

/-- Record a symbol under its own name. -/
def bind (scope : Scope) (symbol : Symbol) : Scope :=
  { scope with bindings := Assoc.insert symbol.name symbol scope.bindings }

/-- Give `name` the next slot. -/
def define (scope : Scope) (storage : Storage) (name : String) : Symbol × Scope :=
  let symbol : Symbol := { name, storage, index := scope.definitions }
  (symbol, { scope.bind symbol with definitions := scope.definitions + 1 })

/-- Make a symbol of the scope around this one a free variable. -/
def capture (scope : Scope) (symbol : Symbol) : Symbol × Scope :=
  let captured : Symbol :=
    { name := symbol.name, storage := .free, index := scope.captures.length }
  (captured, { scope.bind captured with captures := scope.captures ++ [symbol] })

end Scope

/-! ## The chain of scopes -/

inductive SymbolTable
  | global (scope : Scope)
  | nested (scope : Scope) (outer : SymbolTable)
  deriving DecidableEq

namespace SymbolTable

def empty : SymbolTable := global .empty

/-- The innermost scope. -/
def scope : SymbolTable → Scope
  | global scope => scope
  | nested scope _ => scope

/-- The same chain with another innermost scope. -/
def withScope (scope : Scope) : SymbolTable → SymbolTable
  | global _ => global scope
  | nested _ outer => nested scope outer

def isGlobal : SymbolTable → Bool
  | global _ => true
  | nested _ _ => false

/-- Number of function bodies around the current point. -/
def depth : SymbolTable → Nat
  | global _ => 0
  | nested _ outer => outer.depth + 1

@[simp]
theorem scope_withScope (scope : Scope) (table : SymbolTable) :
    (table.withScope scope).scope = scope := by
  cases table <;> rfl

@[simp]
theorem depth_withScope (scope : Scope) (table : SymbolTable) :
    (table.withScope scope).depth = table.depth := by
  cases table <;> rfl

/-- Where a name defined in this table is kept. -/
def storage (table : SymbolTable) : Storage :=
  if table.isGlobal then .global else .local

/-- Bind `name` to the next slot of the innermost scope. -/
def define (table : SymbolTable) (name : String) : Symbol × SymbolTable :=
  let (symbol, scope) := table.scope.define table.storage name
  (symbol, table.withScope scope)

/-- Bind a builtin. Builtins take no slot. -/
def defineBuiltin (table : SymbolTable) (index : Nat) (name : String) : Symbol × SymbolTable :=
  let symbol : Symbol := { name, storage := .builtin, index }
  (symbol, table.withScope (table.scope.bind symbol))

/-- Bind the name of the function whose body is the innermost scope. -/
def defineOwnName (table : SymbolTable) (name : String) : Symbol × SymbolTable :=
  let symbol : Symbol := { name, storage := .function, index := 0 }
  (symbol, table.withScope (table.scope.bind symbol))

/-- Find the nearest binding of `name`, capturing it in every function between that binding and
the innermost scope. -/
def resolve (name : String) : SymbolTable → Option (Symbol × SymbolTable)
  | global scope => (scope.find? name).map fun symbol => (symbol, global scope)
  | nested scope outer =>
      match scope.find? name with
      | some symbol => some (symbol, nested scope outer)
      | none =>
          match resolve name outer with
          | none => none
          | some (symbol, outer') =>
              if symbol.storage.reachable then
                some (symbol, nested scope outer')
              else
                let (captured, scope') := scope.capture symbol
                some (captured, nested scope' outer')

/-- Open the scope of a function body. -/
def enter (table : SymbolTable) : SymbolTable := nested .empty table

/-- Close the innermost scope. The top level cannot be closed: an empty scope stands for it. -/
def leave : SymbolTable → Scope × SymbolTable
  | global scope => (.empty, global scope)
  | nested scope outer => (scope, outer)

@[simp]
theorem leave_enter (table : SymbolTable) : table.enter.leave = (.empty, table) := rfl

/-- A table that knows the given builtins, numbered from `index` on. -/
def addBuiltins (table : SymbolTable) (index : Nat) : List Builtin → SymbolTable
  | [] => table
  | b :: rest => addBuiltins (table.defineBuiltin index b.name).2 (index + 1) rest

/-- The table of a fresh program: it knows the builtins and nothing else. -/
def initial : SymbolTable := empty.addBuiltins 0 Builtin.all

end SymbolTable

end MonkeyMachine
