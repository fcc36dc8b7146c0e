import MonkeyMachine.Code.Listing
import MonkeyMachine.Value

/-!
# Texts of values

`Value.text` is what a program prints: strings appear without quotes, and functions show that they
are functions without showing which. `Value.inspect` is the form for developers, in which every
value names its kind and strings are quoted.
-/

namespace MonkeyMachine

/-- A truth value in words. -/
def boolText : Bool → String
  | true => "true"
  | false => "false"

def Key.text : Key → String
  | .int n => toString n.toInt
  | .bool b => boolText b
  | .str s => s

namespace Value

mutual

/-- What a program prints for a value. -/
def text : Value → String
  | int n => toString n.toInt
  | bool b => boolText b
  | null => "null"
  | str s => s
  | array _ ⟨elements⟩ => "[" ++ String.intercalate ", " (texts elements) ++ "]"
  | hash _ entries => "\x7b" ++ String.intercalate ", " (entryTexts entries) ++ "\x7d"
  | function _ _ => "CompiledFunction[PTR]"
  | closure _ _ _ => "Closure[PTR]"
  | builtin b => "builtin function " ++ b.name

def texts : List Value → List String
  | [] => []
  | v :: rest => text v :: texts rest

def entryTexts : List (Key × Value) → List String
  | [] => []
  | (k, v) :: rest => (k.text ++ ": " ++ text v) :: entryTexts rest

end

end Value

/-! ## Quoted text -/

/-- How a character stands between quotes. Quotes, backslashes and control characters are escaped. -/
def quoteChar (c : Char) : String :=
  if c = '"' then "\\\""
  else if c = '\\' then "\\\\"
  else if c = '\n' then "\\n"
  else if c = '\r' then "\\r"
  else if c = '\t' then "\\t"
  else if c.toNat = 0 then "\\0"
  else if c.toNat < 0x20 ∨ c.toNat = 0x7f then
    "\\u\x7b" ++ String.ofList (Nat.toDigits 16 c.toNat) ++ "\x7d"
  else String.singleton c

/-- A text between double quotes. -/
def quote (s : String) : String :=
  "\"" ++ String.join (s.toList.map quoteChar) ++ "\""

/-! ## Developer texts -/

def Function.inspect (f : Function) : String :=
  "CompiledFunction \x7b instructions: " ++ f.code.bytesText ++ ", num_locals: " ++
    toString f.numLocals ++ ", num_parameters: " ++ toString f.numParams ++ " \x7d"

def Key.inspect : Key → String
  | .int n => "Integer(" ++ toString n.toInt ++ ")"
  | .bool b => "Boolean(" ++ boolText b ++ ")"
  | .str s => "String(" ++ quote s ++ ")"

namespace Value

mutual

/-- The text of a value for developers. -/
def inspect : Value → String
  | int n => (Key.int n).inspect
  | bool b => (Key.bool b).inspect
  | null => "Null"
  | str s => (Key.str s).inspect
  | array _ ⟨elements⟩ => "Array([" ++ String.intercalate ", " (inspects elements) ++ "])"
  | hash _ entries => "Hash(\x7b" ++ String.intercalate ", " (entryInspects entries) ++ "\x7d)"
  | function _ f => "CompiledFunction(" ++ f.inspect ++ ")"
  | closure _ f free =>
      "Closure(Closure \x7b function: " ++ f.inspect ++ ", free: [" ++
        String.intercalate ", " (inspects free) ++ "] \x7d)"
  | builtin b => "Builtin(" ++ quote b.name ++ ")"

def inspects : List Value → List String
  | [] => []
  | v :: rest => inspect v :: inspects rest

def entryInspects : List (Key × Value) → List String
  | [] => []
  | (k, v) :: rest => (k.inspect ++ ": " ++ inspect v) :: entryInspects rest

end

end Value

end MonkeyMachine
