import MonkeyMachine.Diagnostic
import MonkeyMachine.Value.Text

/-!
# Builtin functions

What each builtin returns and prints. A builtin that makes a new array is handed the identity the
array will have; printing is described apart from the result, as the text that a call adds to the
output.
-/

namespace MonkeyMachine

/-- Why a builtin refuses its arguments. -/
inductive BuiltinError
  | wrongArgumentCount (builtin : Builtin) (want got : Nat)
  /-- The builtin is not defined for arguments of this kind. -/
  | argumentNotSupported (builtin : Builtin) (got : Kind)
  /-- The builtin takes arguments of one kind only. -/
  | argumentMustBe (builtin : Builtin) (expected got : Kind)
  deriving DecidableEq

namespace BuiltinError

def diagnostic : BuiltinError → Diagnostic
  | wrongArgumentCount builtin want got =>
      .plain "monkey::builtin::argument_count"
        ("wrong number of arguments to `" ++ builtin.name ++ "`. got=" ++ toString got ++
          ", want=" ++ toString want)
  | argumentNotSupported builtin got =>
      .plain "monkey::builtin::argument_type"
        ("argument to `" ++ builtin.name ++ "` not supported, got " ++ got.name)
  | argumentMustBe builtin expected got =>
      .plain "monkey::builtin::argument_type"
        ("argument to `" ++ builtin.name ++ "` must be " ++ expected.name ++ ", got " ++ got.name)

end BuiltinError

namespace Builtin

/-- The elements of an argument that has to be an array. -/
def arrayArgument (b : Builtin) (v : Value) : Except BuiltinError (Array Value) :=
  match v.elements? with
  | some elements => pure elements
  | none => throw (.argumentMustBe b .array v.kind)

/-- Length of a string in characters, or of an array in elements. -/
def length : Value → Except BuiltinError Value
  | .str s => pure (.int (Int64.ofNat s.length))
  | .array _ elements => pure (.int (Int64.ofNat elements.size))
  | v => throw (.argumentNotSupported len v.kind)

/-- The result of a call. `fresh` is the identity of the array it makes, if it makes one. -/
def apply (fresh : Identity) : Builtin → List Value → Except BuiltinError Value
  | puts, _ => pure .null
  | len, [v] => length v
  | first, [v] => do
      let elements ← arrayArgument first v
      pure (elements.getD 0 .null)
  | last, [v] => do
      let elements ← arrayArgument last v
      pure (elements.back?.getD .null)
  | rest, [v] => do
      let elements ← arrayArgument rest v
      if elements.isEmpty then
        pure .null
      else
        pure (.array fresh (elements.extract 1 elements.size))
  | push, [v, w] => do
      let elements ← arrayArgument push v
      pure (.array fresh (elements.push w))
  | push, args => throw (.wrongArgumentCount push 2 args.length)
  | b, args => throw (.wrongArgumentCount b 1 args.length)

/-- The text that a call prints. -/
def printed : Builtin → List Value → String
  | puts, args => String.join (args.map fun v => v.text ++ "\n")
  | _, _ => ""

end Builtin

end MonkeyMachine
