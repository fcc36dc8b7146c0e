import MonkeyMachine.Value.Equality
import MonkeyMachine.Value.Text

/-!
# Bytecode

What the compiler hands to the machine: the top-level code, and the pool of constants that all
code refers to by number.
-/

namespace MonkeyMachine

structure Bytecode where
  code : Code
  constants : Array Value

namespace Bytecode

/-- Whether two units have the same code and constants of the same contents. -/
def same (a b : Bytecode) : Bool :=
  a.code == b.code && Value.sameList a.constants.toList b.constants.toList

/-! ## The dump -/

/-- The lines of a listing behind a margin. -/
def indented (margin : String) (code : Code) : List String :=
  code.lines.map fun line => margin ++ line.text

/-- The lines for one constant. A function is listed below its own line. -/
def constantLines (index : Nat) : Value → List String
  | .function _ f =>
      ("    [" ++ toString index ++ "] = fn(locals: " ++ toString f.numLocals ++ ", params: " ++
          toString f.numParams ++ ")") :: indented "          " f.code
  | v => ["    [" ++ toString index ++ "] = " ++ v.inspect]

/-- The lines for the constants, numbered from `index` on. -/
def poolLines (index : Nat) : List Value → List String
  | [] => []
  | v :: rest => constantLines index v ++ poolLines (index + 1) rest

/-- A readable form of constants and code. -/
def dump (b : Bytecode) : String :=
  let pool :=
    if b.constants.isEmpty then ["  constants: []"]
    else ["  constants: ["] ++ poolLines 0 b.constants.toList ++ ["  ]"]
  String.intercalate "\n"
    (["Bytecode \x7b"] ++ pool ++ ["  instructions:"] ++ indented "    " b.code ++ ["\x7d"])

end Bytecode

end MonkeyMachine
