import MonkeyMachine.Assoc
import MonkeyMachine.Machine.Fault
import MonkeyMachine.Value.Equality

/-!
# Operations on values

What the operators of the language compute. Each takes whole values and either answers with a value
or with the fault that the machine raises. Integer arithmetic wraps around at 64 bits.
-/

namespace MonkeyMachine

namespace Value

/-- The operator `op` is not defined for these two values. -/
def mismatch (op : Opcode) (left right : Value) : Fault :=
  .typeMismatch op left.kind right.kind

/-- Addition, subtraction, multiplication and division of integers; `add` also joins strings. -/
def arithmetic (op : Opcode) (left right : Value) : Except Fault Value :=
  match left, right with
  | int l, int r =>
      match op with
      | .add => .ok (int (l + r))
      | .sub => .ok (int (l - r))
      | .mul => .ok (int (l * r))
      | .div => if r = 0 then .error .divisionByZero else .ok (int (l / r))
      | _ => .error (mismatch op left right)
  | str l, str r => if op = .add then .ok (str (l ++ r)) else .error (mismatch op left right)
  | _, _ => .error (mismatch op left right)

/-- Comparison of two values. Any two can be told apart, only integers are ordered. -/
def comparison (op : Opcode) (left right : Value) : Except Fault Value :=
  match op with
  | .equal => .ok (bool (left.identical right))
  | .notEqual => .ok (bool (!left.identical right))
  | _ =>
      match left, right with
      | int l, int r => .ok (bool (decide (r < l)))
      | _, _ => .error (mismatch op left right)

/-- The negative of an integer. -/
def negation : Value → Except Fault Value
  | int n => .ok (int (-n))
  | v => .error (.unsupportedNegation v.kind)

/-- The opposite of a value's truth. -/
def inversion (v : Value) : Except Fault Value := .ok (bool !v.truthy)

/-- The element of an array at a place. There is null before the first and after the last. -/
def element (elements : Array Value) (place : Int64) : Value :=
  if place.toInt < 0 then null else elements.getD place.toInt.toNat null

/-- An element of an array, or the value of a hash under a key. -/
def indexing (collection place : Value) : Except Fault Value :=
  match collection with
  | hash _ entries =>
      match place.key? with
      | some key => .ok ((Assoc.find? key entries).getD null)
      | none => .error (.unusableHashKey place.kind)
  | array _ elements =>
      match place with
      | int n => .ok (element elements n)
      | _ => .error (.indexNotSupported collection.kind place.kind)
  | _ => .error (.indexNotSupported collection.kind place.kind)

/-- Add keys and values, given in turn, to the entries of a hash. A key without a value is
dropped. -/
def addEntries (entries : List (Key × Value)) : List Value → Except Fault (List (Key × Value))
  | k :: v :: rest =>
      match k.key? with
      | some key => addEntries (Assoc.insert key v entries) rest
      | none => .error (.unusableHashKey k.kind)
  | _ => .ok entries

end Value

end MonkeyMachine
