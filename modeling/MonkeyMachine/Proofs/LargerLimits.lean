import MonkeyMachine.Proofs.Confinement

/-!
# Runs under larger limits

A machine can be given more room: slots on its stack, slots in its global store, constants, calls in
progress. Whatever it does without running out of room, it then does just the same, for any code.
`Machine.widen` adds the room. Every act gives the same in the wider machine (`Carries`), so a step
does, so a run does; only faults that say that there was too little room are excused.
-/

namespace MonkeyMachine

/-- Faults that a machine with more room might not raise. -/
def Fault.Cramped : Fault → Prop
  | .stackOverflow _ | .frameOverflow _ | .globalOutOfRange _ _ | .notAFunction _
  | .operandOutOfRange _ _ => True
  | _ => False

/-- Runs that ended for lack of room. -/
def Ending.Cramped : Ending → Prop
  | .failed fault => fault.Cramped
  | _ => False

/-! ## Acts in a state and in its image -/

section Carries

variable {ε σ α β : Type} {image : σ → σ} {excused : ε → Prop}

/-- The first result, carried over by `image`, is the second one, unless it is an excused failure. -/
def Carries (image : σ → σ) (excused : ε → Prop) :
    EStateM.Result ε σ α → EStateM.Result ε σ α → Prop
  | .ok a s, r => r = .ok a (image s)
  | .error e s, r => excused e ∨ r = .error e (image s)

theorem Carries.bind {x y : EStateM ε σ α} {f g : α → EStateM ε σ β} {s t : σ}
    (h : Carries image excused (x s) (y t))
    (hnext : ∀ a s', x s = .ok a s' → Carries image excused (f a s') (g a (image s'))) :
    Carries image excused ((x >>= f) s) ((y >>= g) t) := by
  cases hx : x s with
  | ok a s' =>
      rw [hx] at h
      rw [act_bind_of_ok hx, act_bind_of_ok h]
      exact hnext a s' hx
  | error e s' =>
      rw [hx] at h
      rw [act_bind_of_error hx]
      rcases h with hexcused | herror
      · exact .inl hexcused
      · exact .inr (act_bind_of_error herror)

end Carries

/-! ## Stacks -/

namespace Stack

/-- The stack with more slots, which hold null. -/
def widen (slots : Nat) (stack : Stack) : Stack :=
  { stack with items := stack.items ++ Array.replicate slots .null }

variable (slots : Nat) (stack : Stack)

theorem size_widen : (stack.widen slots).items.size = stack.items.size + slots := by
  simp [widen]

/-- A slot that was missing counts as null, and so does a slot that was added. -/
theorem getD_widen (slot : Nat) :
    (stack.widen slots).items.getD slot .null = stack.items.getD slot .null := by
  simp only [widen, Array.getD_eq_getD_getElem?, Array.getElem?_append, Array.getElem?_replicate]
  by_cases hslot : slot < stack.items.size
  · rw [if_pos hslot]
  · rw [if_neg hslot, Array.getElem?_eq_none (Nat.le_of_not_lt hslot)]
    split <;> rfl

theorem getElem?_widen {slot : Nat} {v : Value} (h : stack.items[slot]? = some v) :
    (stack.widen slots).items[slot]? = some v := by
  rw [widen, Array.getElem?_append_left (Array.getElem?_eq_some_iff.1 h).1, h]

theorem lastPopped_widen : (stack.widen slots).lastPopped = stack.lastPopped :=
  getD_widen slots stack stack.height

variable {stack}

theorem liveFrom_widen {capacity : Nat} (h : stack.Fits capacity) (start : Nat) :
    (stack.widen slots).liveFrom start = stack.liveFrom start := by
  have hheight : stack.height - stack.items.size = 0 := by
    rw [h.size]
    exact Nat.sub_eq_zero_of_le h.height
  simp [widen, liveFrom, hheight]

variable (stack)

/-- An act gives the same on a wider stack, unless there is too little room on this one. -/
abbrev Carried {α : Type} (act : Act α) : Prop :=
  Carries (widen slots) Fault.Cramped (act stack) (act (stack.widen slots))

theorem push_widen (v : Value) : Carried slots stack (push v) := by
  by_cases hroom : stack.height < stack.items.size
  · have hroom' : stack.height < (stack.widen slots).items.size := by
      rw [size_widen]
      omega
    -- The slot that is written is one that the narrow stack has.
    have hpush : push v stack = .ok () ⟨stack.items.setIfInBounds stack.height v, _⟩ := if_pos hroom
    rw [Carried, hpush]
    refine (if_pos hroom').trans ?_
    show EStateM.Result.ok () (Stack.mk ((stack.items ++ _).setIfInBounds stack.height v) _) = _
    rw [Array.setIfInBounds_append_left hroom]
    rfl
  · have hpush : push v stack = .error (.stackOverflow stack.items.size) stack := if_neg hroom
    rw [Carried, hpush]
    exact .inl trivial

theorem pop_widen : Carried slots stack pop := by
  unfold Carried pop
  by_cases hempty : stack.height = 0
  · rw [if_pos hempty]
    exact .inr (if_pos hempty)
  · rw [if_neg hempty]
    refine (if_neg hempty).trans ?_
    rw [getD_widen]
    rfl

theorem set_widen (slot : Nat) (v : Value) : Carried slots stack (set slot v) := by
  by_cases hroom : slot < stack.items.size
  · have hroom' : slot < (stack.widen slots).items.size := by
      rw [size_widen]
      omega
    have hset : set slot v stack = .ok () { stack with items := stack.items.setIfInBounds slot v } :=
      if_pos hroom
    rw [Carried, hset]
    refine (if_pos hroom').trans ?_
    show EStateM.Result.ok () (Stack.mk ((stack.items ++ _).setIfInBounds slot v) _) = _
    rw [Array.setIfInBounds_append_left hroom]
    rfl
  · have hset : set slot v stack = .error (.stackOverflow stack.items.size) stack := if_neg hroom
    rw [Carried, hset]
    exact .inl trivial

theorem setHeight_widen (height : Nat) : Carried slots stack (setHeight height) := by
  by_cases hroom : height ≤ stack.items.size
  · have hroom' : height ≤ (stack.widen slots).items.size := by
      rw [size_widen]
      omega
    have hset : setHeight height stack = .ok () { stack with height } := if_pos hroom
    rw [Carried, hset]
    exact if_pos hroom'
  · have hset : setHeight height stack = .error (.stackOverflow stack.items.size) stack :=
      if_neg hroom
    rw [Carried, hset]
    exact .inl trivial

theorem clear_widen (slot count : Nat) : Carried slots stack (clear slot count) := by
  induction count generalizing slot stack with
  | zero => rfl
  | succ count ih =>
      refine (set_widen slots stack slot .null).bind ?_
      intro _ stack₁ _
      exact ih stack₁ (slot + 1)

theorem reserve_widen (slot count height : Nat) :
    Carried slots stack (reserve slot count height) := by
  refine (clear_widen slots stack slot count).bind ?_
  intro _ stack₁ _
  exact setHeight_widen slots stack₁ height

theorem below_widen (count : Nat) : Carried slots stack (below count) := by
  unfold Carried below
  by_cases hle : count ≤ stack.height
  · rw [if_pos hle]
    exact if_pos hle
  · rw [if_neg hle]
    exact .inr (if_neg hle)

variable {stack}

theorem popMany_widen {capacity : Nat} (h : stack.Fits capacity) (count : Nat) :
    Carried slots stack (popMany count) := by
  refine (below_widen slots stack count).bind ?_
  intro start stack₁ hbelow
  have h₁ := (h.below count).of_ok hbelow
  show Carries (widen slots) Fault.Cramped
    ((setHeight start >>= fun _ => pure (stack₁.liveFrom start)) stack₁)
    ((setHeight start >>= fun _ => pure ((stack₁.widen slots).liveFrom start)) (stack₁.widen slots))
  rw [liveFrom_widen slots h₁]
  refine (setHeight_widen slots stack₁ start).bind ?_
  intro _ stack₂ _
  rfl

end Stack

/-! ## Global stores -/

namespace Globals

/-- The store with more slots, which are unassigned. -/
def widen (slots : Nat) (globals : Globals) : Globals :=
  { slots := globals.slots ++ Array.replicate slots none }

variable (slots : Nat) (globals : Globals)

/-- Where a slot exists, a wider store has the same there. -/
theorem get_widen (slot : Nat) :
    (globals.widen slots).get slot = globals.get slot ∨
      globals.get slot = .error (.globalOutOfRange slot globals.capacity) := by
  by_cases hslot : slot < globals.slots.size
  · refine .inl ?_
    unfold get
    rw [show (globals.widen slots).slots[slot]? = globals.slots[slot]? from
      Array.getElem?_append_left hslot, Array.getElem?_eq_getElem hslot]
    cases globals.slots[slot] <;> rfl
  · refine .inr ?_
    unfold get
    rw [Array.getElem?_eq_none (Nat.le_of_not_lt hslot)]

theorem set_widen (slot : Nat) (v : Value) :
    Carries (widen slots) Fault.Cramped (set slot v globals) (set slot v (globals.widen slots)) := by
  by_cases hslot : slot < globals.slots.size
  · have hslot' : slot < (globals.widen slots).slots.size := by
      rw [widen, Array.size_append]
      omega
    have hset : set slot v globals = .ok () ⟨globals.slots.setIfInBounds slot (some v)⟩ :=
      if_pos hslot
    rw [hset]
    refine (if_pos hslot').trans ?_
    show EStateM.Result.ok () (Globals.mk ((globals.slots ++ _).setIfInBounds slot (some v))) = _
    rw [Array.setIfInBounds_append_left hslot]
    rfl
  · have hset : set slot v globals = .error (.globalOutOfRange slot globals.slots.size) globals :=
      if_neg hslot
    rw [hset]
    exact .inl trivial

end Globals

/-! ## Machines -/

/-- Room that a machine can be given. -/
structure Room where
  /-- More slots of the stack. -/
  slots : Nat
  /-- More slots of the global store. -/
  globals : Nat
  /-- More calls in progress. -/
  frames : Nat
  constants : Array Value

/-- The room that larger limits give, with more constants and a larger global store. -/
def Room.between (limits limits' : Limits) (more : Array Value) (extra : Nat) : Room where
  slots := limits'.stackSize - limits.stackSize
  globals := extra
  frames := limits'.maxFrames - limits.maxFrames
  constants := more

namespace Machine

/-- The machine with more room. The calls in progress and what has been printed stay. -/
def widen (room : Room) (m : Machine) : Machine :=
  { m with
    constants := m.constants ++ room.constants
    stack := m.stack.widen room.slots
    globals := m.globals.widen room.globals
    maxFrames := m.maxFrames + room.frames }

/-- An act gives the same in a wider machine, unless there is too little room in this one. -/
abbrev Carried {α : Type} (room : Room) (m : Machine) (act : Exec α) : Prop :=
  Carries (widen room) Fault.Cramped (act m) (act (m.widen room))

variable (room : Room) (m : Machine) {α : Type}

/-! ### Acts -/

theorem onStack_widen {act : Stack.Act α} (h : Stack.Carried room.slots m.stack act) :
    Carried room m (Exec.onStack act) := by
  unfold Carried
  rw [Exec.onStack_apply, Exec.onStack_apply]
  unfold Stack.Carried at h
  cases hact : act m.stack with
  | ok a stack =>
      rw [hact] at h
      rw [show act (m.widen room).stack = _ from h]
      rfl
  | error fault stack =>
      rw [hact] at h
      rcases h with hcramped | herror
      · exact .inl hcramped
      · rw [show act (m.widen room).stack = _ from herror]
        exact .inr rfl

theorem onGlobals_widen {act : Globals.Act α}
    (h : Carries (Globals.widen room.globals) Fault.Cramped (act m.globals)
      (act (m.globals.widen room.globals))) :
    Carried room m (Exec.onGlobals act) := by
  unfold Carried
  rw [Exec.onGlobals_apply, Exec.onGlobals_apply]
  cases hact : act m.globals with
  | ok a globals =>
      rw [hact] at h
      rw [show act (m.widen room).globals = _ from h]
      rfl
  | error fault globals =>
      rw [hact] at h
      rcases h with hcramped | herror
      · exact .inl hcramped
      · rw [show act (m.widen room).globals = _ from herror]
        exact .inr rfl

theorem push_widen (v : Value) : Carried room m (Exec.push v) :=
  onStack_widen room m (Stack.push_widen room.slots m.stack v)

theorem pop_widen : Carried room m Exec.pop :=
  onStack_widen room m (Stack.pop_widen room.slots m.stack)

theorem fresh_widen : Carried room m Exec.fresh := rfl

theorem print_widen (text : String) : Carried room m (Exec.print text) := rfl

theorem ofResult_widen (result : Except Fault α) : Carried room m (Exec.ofResult result) := by
  cases result with
  | ok a => rfl
  | error fault => exact .inr rfl

/-! ### Instructions -/

/-- What is read from a part of the machine is the same in a wider one, or it is missing here. -/
theorem pushFrom_widen {part : Machine → Except Fault Value}
    (h : part (m.widen room) = part m ∨ ∃ fault, fault.Cramped ∧ part m = .error fault) :
    Carried room m (Exec.pushFrom part) := by
  rcases h with hsame | ⟨fault, hcramped, hmissing⟩
  · show Carries (widen room) Fault.Cramped ((Exec.ofResult (part m) >>= Exec.push) m)
      ((Exec.ofResult (part (m.widen room)) >>= Exec.push) (m.widen room))
    rw [hsame]
    refine (ofResult_widen room m (part m)).bind ?_
    intro v m₁ _
    exact push_widen room m₁ v
  · have hpush : Exec.pushFrom part m = .error fault m := by
      show (Exec.ofResult (part m) >>= Exec.push) m = .error fault m
      rw [hmissing]
      rfl
    rw [Carried, hpush]
    exact .inl hcramped

theorem binary_widen (operation : Value → Value → Except Fault Value) :
    Carried room m (Exec.binary operation) := by
  refine (pop_widen room m).bind ?_
  intro right m₁ _
  refine (pop_widen room m₁).bind ?_
  intro left m₂ _
  refine (ofResult_widen room m₂ (operation left right)).bind ?_
  intro v m₃ _
  exact push_widen room m₃ v

theorem unary_widen (operation : Value → Except Fault Value) :
    Carried room m (Exec.unary operation) := by
  refine (pop_widen room m).bind ?_
  intro operand m₁ _
  refine (ofResult_widen room m₁ (operation operand)).bind ?_
  intro v m₂ _
  exact push_widen room m₂ v

theorem setGlobal_widen (slot : Nat) : Carried room m (Exec.setGlobal slot) := by
  refine (pop_widen room m).bind ?_
  intro v m₁ _
  exact onGlobals_widen room m₁ (Globals.set_widen room.globals m₁.globals slot v)

theorem setLocal_widen (slot : Nat) : Carried room m (Exec.setLocal slot) := by
  refine (pop_widen room m).bind ?_
  intro v m₁ _
  exact onStack_widen room m₁ (Stack.set_widen room.slots m₁.stack (m₁.frame.base + slot) v)

theorem jumpNotTruthy_widen (target : Nat) : Carried room m (Exec.jumpNotTruthy target) := by
  refine (pop_widen room m).bind ?_
  intro v m₁ _
  by_cases htruthy : v.truthy = true
  · rw [if_pos htruthy]
    rfl
  · rw [if_neg htruthy]
    rfl

theorem enterBody_widen (id : Identity) (body : Function) (free : List Value) (argc base : Nat) :
    Carried room m (Exec.enterBody id body free argc base) := by
  unfold Carried
  by_cases hcount : argc = body.numParams
  · rw [Exec.enterBody_eq id free base hcount, Exec.enterBody_eq id free base hcount]
    by_cases hlimit : m.callers.size + 2 ≤ m.maxFrames
    · -- What the narrow machine allows, the wider one allows.
      have hlimit' : (m.widen room).callers.size + 2 ≤ (m.widen room).maxFrames :=
        Nat.le_trans hlimit (Nat.le_add_right _ _)
      rw [if_pos hlimit, if_pos hlimit']
      refine (onStack_widen room m (Stack.reserve_widen room.slots m.stack _ _ _)).bind ?_
      intro _ m₁ _
      rfl
    · rw [if_neg hlimit]
      exact .inl trivial
  · rw [Exec.enterBody_of_count id free base hcount, Exec.enterBody_of_count id free base hcount]
    exact .inr rfl

theorem leaveBody_widen (result : Value) : Carried room m (Exec.leaveBody result) := by
  unfold Carried
  by_cases hcallers : m.callers = #[]
  · rw [Exec.leaveBody_of_last result hcallers,
      Exec.leaveBody_of_last result (show (m.widen room).callers = #[] from hcallers)]
    refine (push_widen room m result).bind ?_
    intro _ m₁ _
    refine (pop_widen room m₁).bind ?_
    intro _ m₂ _
    rfl
  · rcases Array.exists_push_of_ne_empty hcallers with ⟨callers, caller, hpush⟩
    rw [Exec.leaveBody_of_push result hpush,
      Exec.leaveBody_of_push result (show (m.widen room).callers = _ from hpush)]
    have hheight := Stack.setHeight_widen room.slots m.stack m.frame.base
    refine (onStack_widen room { m with frame := caller, callers } hheight).bind ?_
    intro _ m₁ _
    refine (push_widen room m₁ result).bind ?_
    intro _ m₂ _
    rfl

/-! ### Instructions that take a range of the stack

The stack must not be higher than it has slots: there the wider stack would have more to take. -/

variable {m} {limits : Limits} {cells : Nat}

theorem popMany_widen (h : m.Confined limits cells) (count : Nat) :
    Carried room m (Exec.popMany count) :=
  onStack_widen room m (Stack.popMany_widen room.slots h.stack count)

theorem makeArray_widen (h : m.Confined limits cells) (count : Nat) :
    Carried room m (Exec.makeArray count) := by
  refine (popMany_widen room h count).bind ?_
  intro elements m₁ _
  refine (fresh_widen room m₁).bind ?_
  intro id m₂ _
  exact push_widen room m₂ _

theorem makeHash_widen (h : m.Confined limits cells) (count : Nat) :
    Carried room m (Exec.makeHash count) := by
  refine (popMany_widen room h count).bind ?_
  intro values m₁ _
  refine (ofResult_widen room m₁ (Value.addEntries [] values)).bind ?_
  intro entries m₂ _
  refine (fresh_widen room m₂).bind ?_
  intro id m₃ _
  exact push_widen room m₃ _

/-- A constant that is there is the same in a wider machine. -/
theorem constant_widen {index : Nat} {v : Value} (h : m.constants[index]? = some v) :
    (m.widen room).constants[index]? = some v := by
  have hlt : index < m.constants.size := (Array.getElem?_eq_some_iff.1 h).1
  exact (Array.getElem?_append_left hlt).trans h

theorem makeClosure_widen (h : m.Confined limits cells) (index count : Nat) :
    Carried room m (Exec.makeClosure index count) := by
  unfold Carried
  by_cases hfunction : ∃ id body, m.constants[index]? = some (.function id body)
  · rcases hfunction with ⟨_, body, hget⟩
    rw [Exec.makeClosure_of_function count hget,
      Exec.makeClosure_of_function count (constant_widen room hget)]
    refine (popMany_widen room h count).bind ?_
    intro free m₁ _
    refine (fresh_widen room m₁).bind ?_
    intro id m₂ _
    exact push_widen room m₂ _
  · -- The wider machine may have a function there.
    rw [Exec.makeClosure_of_other count hfunction]
    exact .inl trivial

theorem callBuiltin_widen (h : m.Confined limits cells) (b : Builtin) (base : Nat) :
    Carried room m (Exec.callBuiltin b base) := by
  unfold Carried
  rw [Exec.callBuiltin_eq, Exec.callBuiltin_eq,
    show (m.widen room).stack.liveFrom base = _ from Stack.liveFrom_widen room.slots h.stack base]
  generalize m.stack.liveFrom base = args
  refine (fresh_widen room m).bind ?_
  intro id m₁ _
  refine (print_widen room m₁ (b.printed args)).bind ?_
  intro _ m₂ _
  refine (ofResult_widen room m₂ _).bind ?_
  intro v m₃ _
  refine (onStack_widen room m₃ (Stack.setHeight_widen room.slots m₃.stack base)).bind ?_
  intro _ m₄ _
  exact push_widen room m₄ v

theorem call_widen (h : m.Confined limits cells) (argc : Nat) : Carried room m (Exec.call argc) := by
  refine (pop_widen room m).bind ?_
  intro callee m₁ hpop
  have h₁ := (h.pop .stackUnderflow).of_ok hpop
  refine (onStack_widen room m₁ (Stack.below_widen room.slots m₁.stack argc)).bind ?_
  intro base m₂ hbelow
  have h₂ := (h₁.onStack (h₁.stack.below argc)).of_ok hbelow
  cases callee with
  | closure id body free => exact enterBody_widen room m₂ id body free argc base
  | function _ body =>
      refine (fresh_widen room m₂).bind ?_
      intro id m₃ _
      exact enterBody_widen room m₃ id body [] argc base
  | builtin b => exact callBuiltin_widen room h₂ b base
  | _ => exact .inr rfl

/-! ### Steps and runs -/

theorem goOn_widen {act : Exec Unit} (h : Carried room m act) : Carried room m (Exec.goOn act) := by
  refine h.bind ?_
  intro _ m₁ _
  rfl

/-- What may be missing from a part of the machine is the same in a wider one, once it is there. -/
theorem orFault_widen {fault fault' : Fault} {part part' : Option Value} (hfault : fault.Cramped)
    (hpart : ∀ v, part = some v → part' = some v) :
    Exec.orFault fault' part' = Exec.orFault fault part ∨
      ∃ cause, cause.Cramped ∧ Exec.orFault fault part = .error cause := by
  cases part with
  | none => exact .inr ⟨fault, hfault, rfl⟩
  | some v =>
      rw [hpart v rfl]
      exact .inl rfl

theorem execute_widen (h : m.Confined limits cells) (op : Opcode) (a b : Nat) :
    Carried room m (Exec.execute op a b) := by
  cases op with
  -- What is looked up by number may be missing here and be there in the wider machine.
  | constant =>
      refine goOn_widen room (pushFrom_widen room m (orFault_widen trivial ?_))
      intro v hv
      exact constant_widen room hv
  | getLocal =>
      refine goOn_widen room (pushFrom_widen room m (orFault_widen trivial ?_))
      intro v hv
      exact Stack.getElem?_widen room.slots m.stack hv
  | getGlobal =>
      refine goOn_widen room (pushFrom_widen room m ?_)
      rcases Globals.get_widen room.globals m.globals a with hsame | hmissing
      · exact .inl hsame
      · exact .inr ⟨.globalOutOfRange a m.globals.capacity, trivial, hmissing⟩
  | getBuiltin | getFree | currentClosure =>
      exact goOn_widen room (pushFrom_widen room m (.inl rfl))
  | pushTrue | pushFalse | pushNull => exact goOn_widen room (push_widen room m _)
  | pop =>
      refine goOn_widen room ((pop_widen room m).bind ?_)
      intro _ m₁ _
      rfl
  | add | sub | mul | div | equal | notEqual | greaterThan | index =>
      exact goOn_widen room (binary_widen room m _)
  | minus | bang => exact goOn_widen room (unary_widen room m _)
  | jump => rfl
  | jumpNotTruthy => exact goOn_widen room (jumpNotTruthy_widen room m a)
  | setGlobal => exact goOn_widen room (setGlobal_widen room m a)
  | setLocal => exact goOn_widen room (setLocal_widen room m a)
  | array => exact goOn_widen room (makeArray_widen room h a)
  | hash => exact goOn_widen room (makeHash_widen room h a)
  | call => exact goOn_widen room (call_widen room h a)
  | closure => exact goOn_widen room (makeClosure_widen room h a b)
  | returnValue =>
      refine (pop_widen room m).bind ?_
      intro v m₁ _
      exact leaveBody_widen room m₁ v
  | returnNull => exact leaveBody_widen room m .null

theorem frame_widen (m : Machine) : (m.widen room).frame = m.frame := rfl

theorem callers_widen (m : Machine) : (m.widen room).callers = m.callers := rfl

theorem fetchOperands_widen (m : Machine) (op : Opcode) :
    Carried room m (Exec.fetchOperands op) := by
  unfold Carried
  rw [Exec.fetchOperands_eq, Exec.fetchOperands_eq, frame_widen]
  cases m.frame.code.readOperands (m.frame.ip + 1) op.widths with
  | ok read => rfl
  | error missing => exact .inr rfl

/-- Whatever the code is, a step does the same in a wider machine. -/
theorem step_widen (h : m.Confined limits cells) : Carried room m Exec.step := by
  unfold Carried
  rw [Exec.step_eq, Exec.step_eq, frame_widen, callers_widen]
  cases m.frame.code[m.frame.ip]? with
  | none =>
      by_cases hcallers : m.callers.isEmpty = true
      · simp only [if_pos hcallers]
        rfl
      · simp only [if_neg hcallers]
        exact leaveBody_widen room m .null
  | some byte =>
      dsimp only
      cases Opcode.ofByte? byte with
      | none => exact .inr rfl
      | some op =>
          refine (fetchOperands_widen room m op).bind ?_
          intro operands m₁ hfetch
          exact execute_widen room ((h.fetchOperands op).of_ok hfetch) op _ _

/-- By induction on the fuel. A step keeps the machine confined, and takes the wider one to the wider
form of the next state. -/
theorem run_widen (h : m.Confined limits cells) {fuel : Nat} {ending : Ending} {m' : Machine}
    (hrun : m.run fuel = (ending, m')) (hending : ¬ ending.Cramped) :
    (m.widen room).run fuel = (ending, m'.widen room) := by
  induction fuel generalizing m with
  | zero =>
      cases hrun
      rfl
  | succ fuel ih =>
      have hwider := step_widen room h
      unfold Carried at hwider
      unfold Machine.run at hrun
      split at hrun
      · rename_i next hnext
        rw [hnext] at hwider
        rw [run_of_next hwider]
        exact ih ((h.step .stackUnderflow).of_ok hnext) hrun
      · rename_i final hfinal
        cases hrun
        rw [hfinal] at hwider
        have hends : (m.widen room).EndsAs .finished (m'.widen room) := hwider
        exact run_of_endsAs hends (by simp) fuel
      · rename_i fault final hfault
        cases hrun
        rw [hfault] at hwider
        -- A fault that is not about room is a fault of the wider machine too.
        rcases hwider with hcramped | herror
        · exact absurd hcramped hending
        · have hends : (m.widen room).EndsAs (.failed fault) (m'.widen room) := herror
          exact run_of_endsAs hends (by simp) fuel

theorem load_widen (b : Bytecode) (globals : Globals) {limits limits' : Limits} (run created : Nat)
    (more : Array Value) (extra : Nat) (hstack : limits.stackSize ≤ limits'.stackSize)
    (hframes : limits.maxFrames ≤ limits'.maxFrames) :
    load { b with constants := b.constants ++ more } (globals.widen extra) limits' run created =
      (load b globals limits run created).widen (.between limits limits' more extra) := by
  have hitems : (Array.replicate limits'.stackSize .null : Array Value) =
      Array.replicate limits.stackSize .null ++
        Array.replicate (limits'.stackSize - limits.stackSize) .null := by
    rw [Array.replicate_append_replicate, Nat.add_sub_cancel' hstack]
  have hmax : limits'.maxFrames = limits.maxFrames + (limits'.maxFrames - limits.maxFrames) :=
    (Nat.add_sub_cancel' hframes).symm
  simp only [load, widen, Room.between, Stack.widen, Stack.ofCapacity, ← hitems, ← hmax]

/-- Limits only cut runs short. A run that does not fail for lack of room is the same under larger
limits, with more constants and with more global slots: it ends in the same way and prints the same,
the same value was popped last, the globals are the same, and the additional ones stay unassigned. -/
theorem run_of_larger_limits {b : Bytecode} {globals : Globals} {limits limits' : Limits}
    {run created fuel : Nat} {ending : Ending} {m : Machine} (more : Array Value) (extra : Nat)
    (hstack : limits.stackSize ≤ limits'.stackSize) (hframes : limits.maxFrames ≤ limits'.maxFrames)
    (hrun : (load b globals limits run created).run fuel = (ending, m))
    (hending : ¬ ending.Cramped) :
    ∃ m', (load { b with constants := b.constants ++ more }
          { slots := globals.slots ++ Array.replicate extra none } limits' run created).run fuel =
        (ending, m') ∧
      m'.output = m.output ∧ m'.lastPopped = m.lastPopped ∧
      m.globals.capacity = globals.capacity ∧
      m'.globals.slots = m.globals.slots ++ Array.replicate extra none := by
  have hload := load_widen b globals run created more extra hstack hframes
  have hconfined := load_confined b globals limits run created
  -- The slots that were added come behind all others, as no run changes how many there are.
  have hcapacity := (hconfined.run fuel).globals
  rw [hrun] at hcapacity
  have hwider := run_widen (.between limits limits' more extra) hconfined hrun hending
  rw [← hload] at hwider
  exact ⟨_, hwider, rfl, Stack.lastPopped_widen _ m.stack, hcapacity, rfl⟩

/-- The run ends with its stack full. A wider stack has a slot where the value popped last would be,
and this slot holds null. -/
theorem run_of_larger_limits_of_full_stack :
    let b : Bytecode :=
      { code := (assemble [⟨.pushTrue, []⟩, ⟨.setGlobal, [0]⟩, ⟨.constant, [0]⟩, ⟨.call, [0]⟩,
          ⟨.pushTrue, []⟩]).toArray
        constants := #[.function (.constant 0)
          { code := #[Opcode.pushTrue.toByte], numLocals := 1, numParams := 0 }] }
    let small : Limits := { stackSize := 2, maxFrames := 2 }
    let large : Limits := { stackSize := 5, maxFrames := 9 }
    ∃ m m', (load b (.ofCapacity 1) small 0 0).run 8 = (.finished, m) ∧
      m.stack.height = m.stack.capacity ∧
      (load { b with constants := b.constants ++ #[.null] }
          { slots := (Globals.ofCapacity 1).slots ++ Array.replicate 3 none } large 0 0).run 8 =
        (.finished, m') ∧
      m'.lastPopped.kind = .null ∧
      m'.globals.slots = m.globals.slots ++ Array.replicate 3 none := by
  intro b small large
  have hends : ((load b (.ofCapacity 1) small 0 0).run 8).1 = .finished := by decide +kernel
  have hfull : ((load b (.ofCapacity 1) small 0 0).run 8).2.stack.height =
      ((load b (.ofCapacity 1) small 0 0).run 8).2.stack.capacity := by decide +kernel
  have hnull : ((load b (.ofCapacity 1) small 0 0).run 8).2.lastPopped.kind = .null := by
    decide +kernel
  generalize hrun : (load b (.ofCapacity 1) small 0 0).run 8 = result at hends hfull hnull
  obtain ⟨ending, m⟩ := result
  obtain rfl : ending = .finished := hends
  rcases run_of_larger_limits #[.null] 3 (show small.stackSize ≤ large.stackSize by decide)
    (show small.maxFrames ≤ large.maxFrames by decide) hrun (by rintro ⟨⟩) with
    ⟨m', hrun', -, hlast, -, hglobals⟩
  exact ⟨m, m', rfl, hfull, hrun', (congrArg Value.kind hlast).trans hnull, hglobals⟩

end Machine

end MonkeyMachine
