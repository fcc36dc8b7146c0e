import MonkeyMachine.Builtin
import MonkeyMachine.Code.Encoding

/-!
# Faults

The ways in which a run can fail.
-/

namespace MonkeyMachine

inductive Fault
  | typeMismatch (op : Opcode) (left right : Kind)
  | unsupportedNegation (kind : Kind)
  | divisionByZero
  | stackOverflow (capacity : Nat)
  | stackUnderflow
  | frameOverflow (maxFrames : Nat)
  | operandOutOfRange (opcode : Opcode) (operand : Nat)
  | undefinedGlobal (slot : Nat)
  | globalOutOfRange (slot capacity : Nat)
  | unusableHashKey (kind : Kind)
  | indexNotSupported (collection index : Kind)
  | notCallable (kind : Kind)
  | wrongArgumentCount (want got : Nat)
  | notAFunction (constant : Nat)
  | encoding (cause : EncodingError)
  | builtin (cause : BuiltinError)
  deriving DecidableEq

namespace Fault

def diagnostic : Fault → Diagnostic
  | typeMismatch op left right =>
      .plain "monkey::vm::type_mismatch"
        ("unsupported types for " ++ op.mnemonic ++ ": " ++ left.name ++ " " ++ right.name)
  | unsupportedNegation kind =>
      .plain "monkey::vm::type_mismatch" ("unsupported type for negation: " ++ kind.name)
  | divisionByZero => .plain "monkey::vm::division_by_zero" "division by zero"
  | stackOverflow capacity =>
      .plain "monkey::vm::stack_overflow"
        ("stack overflow (capacity " ++ toString capacity ++ ")")
  | stackUnderflow => .plain "monkey::vm::stack_underflow" "stack underflow"
  | frameOverflow maxFrames =>
      { code := "monkey::vm::frame_overflow"
        message := "stack overflow: call depth exceeds " ++ toString maxFrames ++ " frames"
        help := some "look for unbounded recursion" }
  | operandOutOfRange opcode operand =>
      .plain "monkey::vm::operand_out_of_range"
        (opcode.mnemonic ++ " operand " ++ toString operand ++ " out of range")
  | undefinedGlobal slot =>
      .plain "monkey::vm::undefined_global" ("undefined global at slot " ++ toString slot)
  | globalOutOfRange slot capacity =>
      .plain "monkey::vm::global_out_of_range"
        ("global slot " ++ toString slot ++ " out of range (capacity " ++ toString capacity ++ ")")
  | unusableHashKey kind =>
      { code := "monkey::vm::unusable_hash_key"
        message := "unusable as hash key: " ++ kind.name
        help := some "only INTEGER, BOOLEAN and STRING values can be hash keys" }
  | indexNotSupported collection index =>
      .plain "monkey::vm::index_not_supported"
        ("index operator not supported: " ++ collection.name ++ "[" ++ index.name ++ "]")
  | notCallable kind => .plain "monkey::vm::not_callable" ("calling non-function: " ++ kind.name)
  | wrongArgumentCount want got =>
      .plain "monkey::vm::wrong_argument_count"
        ("wrong number of arguments: want=" ++ toString want ++ ", got=" ++ toString got)
  | notAFunction constant =>
      .plain "monkey::vm::not_a_function" ("constant " ++ toString constant ++ " is not a function")
  | encoding cause => cause.diagnostic
  | builtin cause => cause.diagnostic

end Fault

end MonkeyMachine
