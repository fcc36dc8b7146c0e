import MonkeyMachine.Machine.Fault

/-!
# The global store

Numbered slots for the variables of the top level. A slot holds nothing until a program assigns it.
The store outlives a run: the next run finds the values that this one leaves.
-/

namespace MonkeyMachine

structure Globals where
  slots : Array (Option Value)

namespace Globals

/-- A store of unassigned slots. -/
def ofCapacity (capacity : Nat) : Globals :=
  { slots := Array.replicate capacity none }

def capacity (globals : Globals) : Nat := globals.slots.size

@[simp]
theorem capacity_ofCapacity (capacity : Nat) : (ofCapacity capacity).capacity = capacity := by
  simp [ofCapacity, Globals.capacity]

/-- The value of a slot. -/
def get (globals : Globals) (slot : Nat) : Except Fault Value :=
  match globals.slots[slot]? with
  | some (some v) => .ok v
  | some none => .error (.undefinedGlobal slot)
  | none => .error (.globalOutOfRange slot globals.capacity)

/-- An act on a store. -/
abbrev Act := EStateM Fault Globals

/-- Assign a slot. -/
def set (slot : Nat) (v : Value) : Act Unit := fun globals =>
  if slot < globals.slots.size then
    .ok () { slots := globals.slots.setIfInBounds slot (some v) }
  else
    .error (.globalOutOfRange slot globals.slots.size) globals

/-- The slots among `slots`, numbered from `index` on, that hold a value. -/
def assignedFrom (index : Nat) : List (Option Value) → List (Nat × Value)
  | [] => []
  | some v :: rest => (index, v) :: assignedFrom (index + 1) rest
  | none :: rest => assignedFrom (index + 1) rest

/-- The assigned slots in ascending order. -/
def assigned (globals : Globals) : List (Nat × Value) :=
  assignedFrom 0 globals.slots.toList

end Globals

end MonkeyMachine
