import MonkeyMachine.Machine.Fault

/-!
# The operand stack

A stack of fixed capacity that all calls of a run share. Popping only lowers its height: the slot
keeps its value until something else is written there, and the slot just above the live ones holds
the value popped last.
-/

namespace MonkeyMachine

structure Stack where
  items : Array Value
  /-- Number of live slots; the next value is pushed here. -/
  height : Nat

namespace Stack

/-- A stack of null slots, none of them live. -/
def ofCapacity (capacity : Nat) : Stack :=
  { items := Array.replicate capacity .null, height := 0 }

def capacity (stack : Stack) : Nat := stack.items.size

@[simp]
theorem capacity_ofCapacity (capacity : Nat) : (ofCapacity capacity).capacity = capacity := by
  simp [ofCapacity, Stack.capacity]

/-! ## Reading -/

/-- The value in a slot, live or not. -/
def get? (stack : Stack) (slot : Nat) : Option Value := stack.items[slot]?

/-- The topmost live value. -/
def top? (stack : Stack) : Option Value :=
  if stack.height = 0 then none else stack.items[stack.height - 1]?

/-- The value in the slot just above the live ones. -/
def lastPopped (stack : Stack) : Value := stack.items.getD stack.height .null

/-- The live values from slot `start` on, oldest first. -/
def liveFrom (stack : Stack) (start : Nat) : List Value :=
  (stack.items.extract start stack.height).toList

/-- A readable form of the live values. -/
def dump (stack : Stack) : String :=
  "Stack \x7b items: [" ++ String.intercalate ", " (Value.inspects (stack.liveFrom 0)) ++
    "], capacity: " ++ toString stack.capacity ++ " \x7d"

/-! ## Writing -/

/-- An act on a stack. A fault leaves the stack as it was when the fault arose. -/
abbrev Act := EStateM Fault Stack

def push (v : Value) : Act Unit := fun stack =>
  if stack.height < stack.items.size then
    .ok () { items := stack.items.setIfInBounds stack.height v, height := stack.height + 1 }
  else
    .error (.stackOverflow stack.items.size) stack

def pop : Act Value := fun stack =>
  if stack.height = 0 then
    .error .stackUnderflow stack
  else
    .ok (stack.items.getD (stack.height - 1) .null) { stack with height := stack.height - 1 }

/-- Write a slot. A slot that is not live becomes live once the stack grows past it. -/
def set (slot : Nat) (v : Value) : Act Unit := fun stack =>
  if slot < stack.items.size then
    .ok () { stack with items := stack.items.setIfInBounds slot v }
  else
    .error (.stackOverflow stack.items.size) stack

/-- Grow or shrink the stack. -/
def setHeight (height : Nat) : Act Unit := fun stack =>
  if height ≤ stack.items.size then
    .ok () { stack with height }
  else
    .error (.stackOverflow stack.items.size) stack

/-- Write null to `count` slots from `slot` on. -/
def clear (slot : Nat) : Nat → Act Unit
  | 0 => pure ()
  | count + 1 => do
      set slot .null
      clear (slot + 1) count

/-- The slot below which all but the topmost `count` live values lie. -/
def below (count : Nat) : Act Nat := fun stack =>
  if count ≤ stack.height then
    .ok (stack.height - count) stack
  else
    .error .stackUnderflow stack

/-- Pop `count` values at once, oldest first. -/
def popMany (count : Nat) : Act (List Value) := do
  let start ← below count
  let values := (← get).liveFrom start
  setHeight start
  return values

end Stack

end MonkeyMachine
