import MonkeyMachine.Code

/-!
# Runtime values

The values that programs compute with: integers of 64 bits, booleans, null, strings, arrays,
hashes, functions, closures and builtins.

Arrays, hashes, functions and closures are told apart even when their contents agree. Each carries
the `Identity` it was created with, so that two values are equal as Lean terms exactly when a
program cannot tell them apart.
-/

namespace MonkeyMachine

/-- Which act of creation a composite value stems from. -/
inductive Identity
  /-- A function literal, by its place in the constant pool. -/
  | constant (index : Nat)
  /-- The top-level program of a run. -/
  | program (run : Nat)
  /-- A value made while running, or by the host, numbered in order of creation. -/
  | created (serial : Nat)
  deriving DecidableEq

/-- The keys of hashes. -/
inductive Key
  | int (n : Int64)
  | bool (b : Bool)
  | str (s : String)
  deriving DecidableEq

/-- The functions that every program can call without defining them. -/
inductive Builtin
  | len
  | puts
  | first
  | last
  | rest
  | push
  deriving DecidableEq

/-- The compiled body of a function literal. -/
structure Function where
  code : Code
  /-- Stack slots reserved by a call, those of the parameters included. -/
  numLocals : Nat
  numParams : Nat
  deriving DecidableEq

inductive Value
  | int (n : Int64)
  | bool (b : Bool)
  | null
  | str (s : String)
  | array (id : Identity) (elements : Array Value)
  | hash (id : Identity) (entries : List (Key × Value))
  | function (id : Identity) (body : Function)
  | closure (id : Identity) (body : Function) (free : List Value)
  | builtin (b : Builtin)

instance : Inhabited Value := ⟨.null⟩

/-! ## Kinds -/

/-- The classes of values that error messages speak of. -/
inductive Kind
  | integer
  | boolean
  | null
  | string
  | array
  | hash
  | compiledFunction
  | closure
  | builtin
  deriving DecidableEq

def Kind.name : Kind → String
  | .integer => "INTEGER"
  | .boolean => "BOOLEAN"
  | .null => "NULL"
  | .string => "STRING"
  | .array => "ARRAY"
  | .hash => "HASH"
  | .compiledFunction => "COMPILED_FUNCTION"
  | .closure => "CLOSURE"
  | .builtin => "BUILTIN"

namespace Value

def kind : Value → Kind
  | int _ => .integer
  | bool _ => .boolean
  | null => .null
  | str _ => .string
  | array _ _ => .array
  | hash _ _ => .hash
  | function _ _ => .compiledFunction
  | closure _ _ _ => .closure
  | builtin _ => .builtin

/-- Only `null` and `false` count as false. -/
def truthy : Value → Bool
  | null => false
  | bool b => b
  | _ => true

/-- The key that a value is as an index of a hash. -/
def key? : Value → Option Key
  | int n => some (.int n)
  | bool b => some (.bool b)
  | str s => some (.str s)
  | _ => none

/-- The text of a string value. -/
def string? : Value → Option String
  | str s => some s
  | _ => none

/-- The elements of an array value. -/
def elements? : Value → Option (Array Value)
  | array _ elements => some elements
  | _ => none

end Value

/-- The value that a key stands for. -/
def Key.value : Key → Value
  | .int n => .int n
  | .bool b => .bool b
  | .str s => .str s

@[simp]
theorem Key.key?_value (k : Key) : k.value.key? = some k := by
  cases k <;> rfl

/-! ## Builtins by name and number -/

namespace Builtin

/-- Every builtin, in the order of the numbers that stand for them in code. -/
def all : List Builtin := [len, puts, first, last, rest, push]

def name : Builtin → String
  | len => "len"
  | puts => "puts"
  | first => "first"
  | last => "last"
  | rest => "rest"
  | push => "push"

/-- The number that stands for a builtin in code. -/
def index (b : Builtin) : Nat := all.idxOf b

def ofIndex? (index : Nat) : Option Builtin := all[index]?

def ofName? (name : String) : Option Builtin := all.find? fun b => b.name == name

@[simp]
theorem ofIndex?_index (b : Builtin) : ofIndex? b.index = some b := by
  cases b <;> rfl

end Builtin

end MonkeyMachine
