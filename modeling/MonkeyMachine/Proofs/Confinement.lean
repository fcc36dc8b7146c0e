import MonkeyMachine.Proofs.Execution

/-!
# Bounds that hold for every code

Code need not come from the compiler: its bytes, its constants and the numbers of locals and
parameters of its functions can be anything. A machine that executes it may raise faults, stop in the
middle of an instruction and be run again from there. `Machine.Confined` lists what holds even so: the
stack is no higher than it has slots, there are no more calls than the limit allows, and every call
started in a slot that the stack has.

That bound on the stack is what reading it rests on. `Checked.step` is a machine that looks whether a
slot exists each time it reads one, and `Confined.step` says that it never finds one missing.
-/

namespace MonkeyMachine

/-! ## Acts with the same outcome -/

section Same

variable {ε σ α β : Type} {P : σ → Prop}

/-- Two acts come to the same, and they leave a state with `P` even if they fail. -/
def Same (P : σ → Prop) (r r' : EStateM.Result ε σ α) : Prop := r = r' ∧ P (finalState r')

theorem Same.refl {r : EStateM.Result ε σ α} (h : P (finalState r)) : Same P r r := ⟨rfl, h⟩

theorem Same.of_ok {r r' : EStateM.Result ε σ α} {a : α} {s : σ} (h : Same P r r')
    (hr : r' = .ok a s) : P s := by
  subst hr
  exact h.2

theorem Same.bind {x y : EStateM ε σ α} {f g : α → EStateM ε σ β} {s : σ}
    (h : Same P (x s) (y s))
    (hnext : ∀ a s', y s = .ok a s' → P s' → Same P (f a s') (g a s')) :
    Same P ((x >>= f) s) ((y >>= g) s) := by
  rcases h with ⟨hsame, hP⟩
  cases hy : y s with
  | ok a s' =>
      rw [hy] at hsame hP
      rw [act_bind_of_ok hsame, act_bind_of_ok hy]
      exact hnext a s' hy hP
  | error e s' =>
      rw [hy] at hsame hP
      rw [act_bind_of_error hsame, act_bind_of_error hy]
      exact ⟨rfl, hP⟩

end Same

/-! ## Reading with a check -/

namespace Stack

/-- Pop a value. Where the stack has no such slot, `alarm` is raised. -/
def checkedPop (alarm : Fault) : Act Value := fun stack =>
  if stack.height = 0 then
    .error .stackUnderflow stack
  else
    match stack.items[stack.height - 1]? with
    | some v => .ok v { stack with height := stack.height - 1 }
    | none => .error alarm stack

/-- The live values from slot `start` on. Where the stack does not have all these slots, `alarm` is
raised. -/
def checkedSlice (alarm : Fault) (start : Nat) : Act (List Value) := fun stack =>
  if stack.height ≤ stack.items.size then
    .ok (stack.liveFrom start) stack
  else
    .error alarm stack

def checkedPopMany (alarm : Fault) (count : Nat) : Act (List Value) := do
  let start ← below count
  let values ← checkedSlice alarm start
  setHeight start
  return values

/-- A stack with so many slots, no higher than that. -/
structure Fits (capacity : Nat) (stack : Stack) : Prop where
  size : stack.items.size = capacity
  height : stack.height ≤ capacity

namespace Fits

variable {capacity : Nat} {stack : Stack}

theorem push (h : stack.Fits capacity) (v : Value) :
    Same (Fits capacity) (Stack.push v stack) (Stack.push v stack) := by
  refine .refl ?_
  unfold Stack.push
  split
  · rename_i hroom
    rw [h.size] at hroom
    exact ⟨by simp [finalState, h.size], hroom⟩
  · exact h

theorem checkedPop (h : stack.Fits capacity) (alarm : Fault) :
    Same (Fits capacity) (Stack.checkedPop alarm stack) (Stack.pop stack) := by
  unfold Stack.checkedPop Stack.pop
  by_cases hempty : stack.height = 0
  · rw [if_pos hempty, if_pos hempty]
    exact .refl h
  · rw [if_neg hempty, if_neg hempty]
    -- The topmost live slot exists, as no slot above the capacity is live.
    have hslot : stack.height - 1 < stack.items.size := by
      have hheight := h.height
      rw [h.size]
      omega
    rw [Array.getElem?_eq_getElem hslot]
    refine ⟨by simp [hslot], h.size, ?_⟩
    exact Nat.le_trans (Nat.sub_le _ _) h.height

theorem set (h : stack.Fits capacity) (slot : Nat) (v : Value) :
    Same (Fits capacity) (Stack.set slot v stack) (Stack.set slot v stack) := by
  refine .refl ?_
  unfold Stack.set
  split
  · exact ⟨by simp [finalState, h.size], h.height⟩
  · exact h

theorem setHeight (h : stack.Fits capacity) (height : Nat) :
    Same (Fits capacity) (Stack.setHeight height stack) (Stack.setHeight height stack) := by
  refine .refl ?_
  unfold Stack.setHeight
  split
  · rename_i hroom
    rw [h.size] at hroom
    exact ⟨h.size, hroom⟩
  · exact h

theorem clear (h : stack.Fits capacity) (slot count : Nat) :
    Same (Fits capacity) (Stack.clear slot count stack) (Stack.clear slot count stack) := by
  induction count generalizing slot stack with
  | zero => exact .refl h
  | succ count ih =>
      refine (h.set slot .null).bind ?_
      intro _ stack₁ _ h₁
      exact ih h₁ (slot + 1)

theorem reserve (h : stack.Fits capacity) (slot count height : Nat) :
    Same (Fits capacity) (Stack.reserve slot count height stack)
      (Stack.reserve slot count height stack) := by
  refine (h.clear slot count).bind ?_
  intro _ stack₁ _ h₁
  exact h₁.setHeight height

theorem below (h : stack.Fits capacity) (count : Nat) :
    Same (Fits capacity) (Stack.below count stack) (Stack.below count stack) := by
  refine .refl ?_
  unfold Stack.below
  split <;> exact h

theorem checkedSlice (h : stack.Fits capacity) (alarm : Fault) (start : Nat) :
    Stack.checkedSlice alarm start stack = .ok (stack.liveFrom start) stack := by
  refine if_pos ?_
  rw [h.size]
  exact h.height

theorem checkedPopMany (h : stack.Fits capacity) (alarm : Fault) (count : Nat) :
    Same (Fits capacity) (Stack.checkedPopMany alarm count stack) (Stack.popMany count stack) := by
  refine (h.below count).bind ?_
  intro start stack₁ _ h₁
  -- The range ends at the height, which the check compares with the capacity.
  rw [act_bind_of_ok (h₁.checkedSlice alarm start)]
  refine (h₁.setHeight start).bind ?_
  intro _ stack₂ _ h₂
  exact .refl h₂

end Fits

end Stack

/-! ## The machine with checks

Each act that reads the stack below its height does so with a check. Everything else is as in the
machine without checks. -/

namespace Checked

open Exec (push fresh print onStack onGlobals ofResult jump goOn)

variable (alarm : Fault)

def pop : Exec Value := onStack (Stack.checkedPop alarm)

def popMany (count : Nat) : Exec (List Value) := onStack (Stack.checkedPopMany alarm count)

def callBuiltin (b : Builtin) (base : Nat) : Exec Unit := do
  let args ← onStack (Stack.checkedSlice alarm base)
  let id ← fresh
  print (b.printed args)
  let v ← ofResult ((b.apply id args).mapError .builtin)
  onStack (Stack.setHeight base)
  push v

def call (argc : Nat) : Exec Unit := do
  let callee ← pop alarm
  let base ← onStack (Stack.below argc)
  match callee with
  | .closure id body free => Exec.enterBody id body free argc base
  | .function _ body =>
      let id ← fresh
      Exec.enterBody id body [] argc base
  | .builtin b => callBuiltin alarm b base
  | other => throw (.notCallable other.kind)

def leaveBody (result : Value) : Exec Progress := do
  let m ← get
  match m.callers.back? with
  | none =>
      push result
      let _ ← pop alarm
      return .finished
  -- A return to a caller writes the result and reads nothing.
  | some _ => Exec.leaveBody result

def binary (operation : Value → Value → Except Fault Value) : Exec Unit := do
  let right ← pop alarm
  let left ← pop alarm
  push (← ofResult (operation left right))

def unary (operation : Value → Except Fault Value) : Exec Unit := do
  push (← ofResult (operation (← pop alarm)))

def makeArray (count : Nat) : Exec Unit := do
  let elements ← popMany alarm count
  push (.array (← fresh) elements.toArray)

def makeHash (count : Nat) : Exec Unit := do
  let values ← popMany alarm count
  let entries ← ofResult (Value.addEntries [] values)
  push (.hash (← fresh) entries)

def makeClosure (index count : Nat) : Exec Unit := do
  match (← get).constants[index]? with
  | some (.function _ body) =>
      let free ← popMany alarm count
      push (.closure (← fresh) body free)
  | _ => throw (.notAFunction index)

def setGlobal (slot : Nat) : Exec Unit := do
  let v ← pop alarm
  onGlobals (Globals.set slot v)

def setLocal (slot : Nat) : Exec Unit := do
  let v ← pop alarm
  let base := (← get).frame.base
  onStack (Stack.set (base + slot) v)

def jumpNotTruthy (target : Nat) : Exec Unit := do
  let v ← pop alarm
  if v.truthy then pure () else jump target

def execute (op : Opcode) (a b : Nat) : Exec Progress :=
  match op with
  | .pop => goOn (do let _ ← pop alarm)
  | .add | .sub | .mul | .div => goOn (binary alarm (Value.arithmetic op))
  | .equal | .notEqual | .greaterThan => goOn (binary alarm (Value.comparison op))
  | .minus => goOn (unary alarm Value.negation)
  | .bang => goOn (unary alarm Value.inversion)
  | .jumpNotTruthy => goOn (jumpNotTruthy alarm a)
  | .setGlobal => goOn (setGlobal alarm a)
  | .setLocal => goOn (setLocal alarm a)
  | .array => goOn (makeArray alarm a)
  | .hash => goOn (makeHash alarm a)
  | .index => goOn (binary alarm Value.indexing)
  | .call => goOn (call alarm a)
  | .closure => goOn (makeClosure alarm a b)
  | .returnValue => do leaveBody alarm (← pop alarm)
  | .returnNull => leaveBody alarm .null
  -- The others only push or jump. A local is looked up by a number that is checked already.
  | .constant | .pushTrue | .pushFalse | .pushNull | .jump | .getGlobal | .getLocal | .getBuiltin
  | .getFree | .currentClosure => Exec.execute op a b

def step : Exec Progress := do
  let m ← get
  match m.frame.code[m.frame.ip]? with
  | none => if m.callers.isEmpty then return .finished else leaveBody alarm .null
  | some byte =>
      match Opcode.ofByte? byte with
      | none => throw (.encoding (.unknownOpcode byte))
      | some op => do
          let operands ← Exec.fetchOperands op
          execute alarm op (operands.getD 0 0) (operands.getD 1 0)

variable {alarm} {m : Machine}

theorem leaveBody_of_last (result : Value) (h : m.callers = #[]) :
    leaveBody alarm result m =
      (do
        push result
        let _ ← pop alarm
        return .finished : Exec Progress) m := by
  unfold leaveBody
  rw [act_bind_of_ok (show (get : Exec Machine) m = .ok m m from rfl), h]
  rfl

theorem leaveBody_of_push (result : Value) {caller : Frame} {callers : Array Frame}
    (h : m.callers = callers.push caller) : leaveBody alarm result m = Exec.leaveBody result m := by
  unfold leaveBody
  rw [act_bind_of_ok (show (get : Exec Machine) m = .ok m m from rfl), h]
  simp only [Array.back?_push]

theorem makeClosure_of_function {index : Nat} (count : Nat) {id : Identity} {body : Function}
    (h : m.constants[index]? = some (.function id body)) :
    makeClosure alarm index count m =
      (do
        let free ← popMany alarm count
        push (.closure (← fresh) body free) : Exec Unit) m := by
  unfold makeClosure
  rw [act_bind_of_ok (show (get : Exec Machine) m = .ok m m from rfl), h]

theorem makeClosure_of_other {index : Nat} (count : Nat)
    (h : ¬ ∃ id body, m.constants[index]? = some (.function id body)) :
    makeClosure alarm index count m = .error (.notAFunction index) m := by
  unfold makeClosure
  rw [act_bind_of_ok (show (get : Exec Machine) m = .ok m m from rfl)]
  generalize m.constants[index]? = constant at h ⊢
  split
  next id body => exact absurd ⟨id, body, rfl⟩ h
  next => rfl

theorem step_eq (m : Machine) :
    step alarm m =
      (match m.frame.code[m.frame.ip]? with
      | none => if m.callers.isEmpty then return .finished else leaveBody alarm .null
      | some byte =>
          match Opcode.ofByte? byte with
          | none => throw (.encoding (.unknownOpcode byte))
          | some op => do
              let operands ← Exec.fetchOperands op
              execute alarm op (operands.getD 0 0) (operands.getD 1 0) : Exec Progress) m := rfl

end Checked

/-! ## The invariant -/

/-- Calls in progress on a stack of a capacity: the outermost has its locals at the bottom, and every
other one started in a slot that exists. -/
inductive Nested (capacity : Nat) : Frame → Array Frame → Prop
  | outermost {frame : Frame} (hbase : frame.base = 0) : Nested capacity frame #[]
  | inner {frame caller : Frame} {callers : Array Frame} (hbase : frame.base < capacity)
      (h : Nested capacity caller callers) : Nested capacity frame (callers.push caller)

namespace Nested

variable {capacity : Nat} {frame caller : Frame} {callers : Array Frame}

theorem jump (h : Nested capacity frame callers) (target : Nat) :
    Nested capacity { frame with ip := target } callers := by
  cases h with
  | outermost hbase => exact .outermost hbase
  | inner hbase h => exact .inner hbase h

theorem of_push (h : Nested capacity frame (callers.push caller)) :
    frame.base < capacity ∧ Nested capacity caller callers := by
  generalize hall : callers.push caller = all at h
  cases h with
  | outermost => simp at hall
  | inner hbase h =>
      rcases Array.push_eq_push.1 hall with ⟨rfl, rfl⟩
      exact ⟨hbase, h⟩

end Nested

namespace Machine

/-- The machine keeps to its limits, and its global store has so many slots. -/
structure Confined (limits : Limits) (slots : Nat) (m : Machine) : Prop where
  stack : m.stack.Fits limits.stackSize
  globals : m.globals.capacity = slots
  maxFrames : m.maxFrames = limits.maxFrames
  calls : m.callers.size + 1 ≤ max 1 limits.maxFrames
  nested : Nested limits.stackSize m.frame m.callers

theorem load_confined (b : Bytecode) (globals : Globals) (limits : Limits) (run created : Nat) :
    (load b globals limits run created).Confined limits globals.capacity where
  stack := ⟨Stack.capacity_ofCapacity _, Nat.zero_le _⟩
  globals := rfl
  maxFrames := rfl
  calls := Nat.le_max_left _ _
  nested := .outermost rfl

namespace Confined

variable {limits : Limits} {slots : Nat} {m : Machine} {α : Type} (alarm : Fault)

theorem jump (h : m.Confined limits slots) (target : Nat) : (m.jump target).Confined limits slots :=
  { h with nested := h.nested.jump target }

/-! ### Acts -/

theorem onStack (h : m.Confined limits slots) {act act' : Stack.Act α}
    (hact : Same (Stack.Fits limits.stackSize) (act m.stack) (act' m.stack)) :
    Same (Confined limits slots) (Exec.onStack act m) (Exec.onStack act' m) := by
  rcases hact with ⟨hsame, hfits⟩
  rw [Exec.onStack_apply, Exec.onStack_apply, hsame]
  cases hact : act' m.stack with
  | ok a stack =>
      rw [hact] at hfits
      exact .refl { h with stack := hfits }
  | error fault stack =>
      rw [hact] at hfits
      exact .refl { h with stack := hfits }

theorem assign (h : m.Confined limits slots) (slot : Nat) (v : Value) :
    Same (Confined limits slots) (Exec.onGlobals (Globals.set slot v) m)
      (Exec.onGlobals (Globals.set slot v) m) := by
  refine .refl ?_
  rw [Exec.onGlobals_apply]
  unfold Globals.set
  by_cases hslot : slot < m.globals.slots.size
  · rw [if_pos hslot]
    exact { h with globals := (Array.size_setIfInBounds ..).trans h.globals }
  · rw [if_neg hslot]
    exact { h with }

theorem push (h : m.Confined limits slots) (v : Value) :
    Same (Confined limits slots) (Exec.push v m) (Exec.push v m) :=
  h.onStack (h.stack.push v)

theorem pop (h : m.Confined limits slots) :
    Same (Confined limits slots) (Checked.pop alarm m) (Exec.pop m) :=
  h.onStack (h.stack.checkedPop alarm)

theorem popMany (h : m.Confined limits slots) (count : Nat) :
    Same (Confined limits slots) (Checked.popMany alarm count m) (Exec.popMany count m) :=
  h.onStack (h.stack.checkedPopMany alarm count)

theorem fresh (h : m.Confined limits slots) :
    Same (Confined limits slots) (Exec.fresh m) (Exec.fresh m) :=
  .refl { h with }

theorem print (h : m.Confined limits slots) (text : String) :
    Same (Confined limits slots) (Exec.print text m) (Exec.print text m) :=
  .refl { h with }

theorem ofResult (h : m.Confined limits slots) (result : Except Fault α) :
    Same (Confined limits slots) (Exec.ofResult result m) (Exec.ofResult result m) := by
  cases result with
  | ok a => exact .refl h
  | error fault => exact .refl h

/-! ### Instructions -/

theorem pushFrom (h : m.Confined limits slots) (part : Machine → Except Fault Value) :
    Same (Confined limits slots) (Exec.pushFrom part m) (Exec.pushFrom part m) := by
  refine (h.ofResult (part m)).bind ?_
  intro v m₁ _ h₁
  exact h₁.push v

theorem binary (h : m.Confined limits slots) (operation : Value → Value → Except Fault Value) :
    Same (Confined limits slots) (Checked.binary alarm operation m) (Exec.binary operation m) := by
  refine (h.pop alarm).bind ?_
  intro right m₁ _ h₁
  refine (h₁.pop alarm).bind ?_
  intro left m₂ _ h₂
  refine (h₂.ofResult (operation left right)).bind ?_
  intro v m₃ _ h₃
  exact h₃.push v

theorem unary (h : m.Confined limits slots) (operation : Value → Except Fault Value) :
    Same (Confined limits slots) (Checked.unary alarm operation m) (Exec.unary operation m) := by
  refine (h.pop alarm).bind ?_
  intro operand m₁ _ h₁
  refine (h₁.ofResult (operation operand)).bind ?_
  intro v m₂ _ h₂
  exact h₂.push v

theorem makeArray (h : m.Confined limits slots) (count : Nat) :
    Same (Confined limits slots) (Checked.makeArray alarm count m) (Exec.makeArray count m) := by
  refine (h.popMany alarm count).bind ?_
  intro elements m₁ _ h₁
  refine h₁.fresh.bind ?_
  intro id m₂ _ h₂
  exact h₂.push _

theorem makeHash (h : m.Confined limits slots) (count : Nat) :
    Same (Confined limits slots) (Checked.makeHash alarm count m) (Exec.makeHash count m) := by
  refine (h.popMany alarm count).bind ?_
  intro values m₁ _ h₁
  refine (h₁.ofResult (Value.addEntries [] values)).bind ?_
  intro entries m₂ _ h₂
  refine h₂.fresh.bind ?_
  intro id m₃ _ h₃
  exact h₃.push _

theorem makeClosure (h : m.Confined limits slots) (index count : Nat) :
    Same (Confined limits slots) (Checked.makeClosure alarm index count m)
      (Exec.makeClosure index count m) := by
  by_cases hfunction : ∃ id body, m.constants[index]? = some (.function id body)
  · rcases hfunction with ⟨_, body, hget⟩
    rw [Checked.makeClosure_of_function count hget, Exec.makeClosure_of_function count hget]
    refine (h.popMany alarm count).bind ?_
    intro free m₁ _ h₁
    refine h₁.fresh.bind ?_
    intro id m₂ _ h₂
    exact h₂.push _
  · rw [Checked.makeClosure_of_other count hfunction, Exec.makeClosure_of_other count hfunction]
    exact .refl h

theorem setGlobal (h : m.Confined limits slots) (slot : Nat) :
    Same (Confined limits slots) (Checked.setGlobal alarm slot m) (Exec.setGlobal slot m) := by
  refine (h.pop alarm).bind ?_
  intro v m₁ _ h₁
  exact h₁.assign slot v

theorem setLocal (h : m.Confined limits slots) (slot : Nat) :
    Same (Confined limits slots) (Checked.setLocal alarm slot m) (Exec.setLocal slot m) := by
  refine (h.pop alarm).bind ?_
  intro v m₁ _ h₁
  exact h₁.onStack (h₁.stack.set (m₁.frame.base + slot) v)

theorem jumpNotTruthy (h : m.Confined limits slots) (target : Nat) :
    Same (Confined limits slots) (Checked.jumpNotTruthy alarm target m)
      (Exec.jumpNotTruthy target m) := by
  refine (h.pop alarm).bind ?_
  intro v m₁ _ h₁
  by_cases htruthy : v.truthy = true
  · rw [if_pos htruthy]
    exact .refl h₁
  · rw [if_neg htruthy]
    exact .refl (h₁.jump target)

/-! ### Calls and returns -/

/-- A value comes from a slot that exists, and then the stack is no higher than that slot. -/
theorem pop_cases (h : m.Confined limits slots) :
    Exec.pop m = .error .stackUnderflow m ∨
      ∃ v stack, m.stack.top? = some v ∧ Exec.pop m = .ok v { m with stack } ∧
        Confined limits slots { m with stack } ∧ stack.height < limits.stackSize := by
  have hle := h.stack.height
  have hsize := h.stack.size
  by_cases hempty : m.stack.height = 0
  · exact .inl (Exec.onStack_of_error (if_pos hempty))
  · have hslot : m.stack.height - 1 < m.stack.items.size := by omega
    have hlt : m.stack.height - 1 < limits.stackSize := by omega
    have htop : m.stack.top? = some (m.stack.items.getD (m.stack.height - 1) .null) := by
      simp [Stack.top?, hempty, hslot]
    have hfits : ({ m.stack with height := m.stack.height - 1 } : Stack).Fits limits.stackSize :=
      ⟨hsize, Nat.le_of_lt hlt⟩
    exact .inr ⟨_, _, htop, Exec.onStack_of_ok (if_neg hempty), { h with stack := hfits }, hlt⟩

theorem below_cases (m : Machine) (count : Nat) :
    Exec.onStack (Stack.below count) m = .error .stackUnderflow m ∨
      ∃ base, base ≤ m.stack.height ∧ Exec.onStack (Stack.below count) m = .ok base m := by
  by_cases hle : count ≤ m.stack.height
  · exact .inr ⟨_, Nat.sub_le _ _, Exec.onStack_of_ok (if_pos hle)⟩
  · exact .inl (Exec.onStack_of_error (if_neg hle))

theorem enterBody (h : m.Confined limits slots) (id : Identity) (body : Function)
    (free : List Value) (argc : Nat) {base : Nat} (hbase : base < limits.stackSize) :
    Same (Confined limits slots) (Exec.enterBody id body free argc base m)
      (Exec.enterBody id body free argc base m) := by
  by_cases hcount : argc = body.numParams
  · by_cases hlimit : m.callers.size + 2 ≤ m.maxFrames
    · have hfits := (h.stack.reserve (base + argc) (body.numLocals - argc) (base + body.numLocals)).2
      -- Making room can fail halfway, with some of the slots cleared.
      cases hreserve : Stack.reserve (base + argc) (body.numLocals - argc) (base + body.numLocals)
          m.stack with
      | ok _ stack =>
          rw [hreserve] at hfits
          rw [Exec.enterBody_of_ok id free base hcount hlimit hreserve]
          -- The limit counts the new call and the outermost one.
          have hcalls : (m.callers.push m.frame).size + 1 ≤ max 1 limits.maxFrames := by
            rw [h.maxFrames] at hlimit
            rw [Array.size_push]
            omega
          exact .refl ⟨hfits, h.globals, h.maxFrames, hcalls, .inner hbase h.nested⟩
      | error fault stack =>
          rw [hreserve] at hfits
          rw [Exec.enterBody_of_full id free base hcount hlimit hreserve]
          exact .refl { h with stack := hfits }
    · rw [Exec.enterBody_of_limit id free base hcount hlimit]
      exact .refl h
  · rw [Exec.enterBody_of_count id free base hcount]
    exact .refl h

theorem callBuiltin (h : m.Confined limits slots) (b : Builtin) (base : Nat) :
    Same (Confined limits slots) (Checked.callBuiltin alarm b base m)
      (Exec.callBuiltin b base m) := by
  rw [Exec.callBuiltin_eq]
  unfold Checked.callBuiltin
  rw [act_bind_of_ok (Exec.onStack_of_ok (h.stack.checkedSlice alarm base))]
  generalize m.stack.liveFrom base = args
  refine h.fresh.bind ?_
  intro id m₁ _ h₁
  refine (h₁.print (b.printed args)).bind ?_
  intro _ m₂ _ h₂
  refine (h₂.ofResult _).bind ?_
  intro v m₃ _ h₃
  refine (h₃.onStack (h₃.stack.setHeight base)).bind ?_
  intro _ m₄ _ h₄
  exact h₄.push v

theorem call (h : m.Confined limits slots) (argc : Nat) :
    Same (Confined limits slots) (Checked.call alarm argc m) (Exec.call argc m) := by
  refine (h.pop alarm).bind ?_
  intro callee m₁ hpop h₁
  have hheight : m₁.stack.height < limits.stackSize := by
    rcases h.pop_cases with hfail | ⟨v, stack, -, hok, -, hheight⟩
    · cases hfail.symm.trans hpop
    · cases hok.symm.trans hpop
      exact hheight
  refine (h₁.onStack (h₁.stack.below argc)).bind ?_
  intro base m₂ hbelow h₂
  -- The callee was above its arguments, so the slot of the first argument exists.
  have hbase : base < limits.stackSize := by
    rcases below_cases m₁ argc with hfail | ⟨slot, hslot, hok⟩
    · cases hfail.symm.trans hbelow
    · cases hok.symm.trans hbelow
      omega
  cases callee with
  | closure id body free => exact h₂.enterBody id body free argc hbase
  | function _ body =>
      refine h₂.fresh.bind ?_
      intro id m₃ _ h₃
      exact h₃.enterBody id body [] argc hbase
  | builtin b => exact h₂.callBuiltin alarm b base
  | _ => exact .refl h₂

/-- The machine that a call gives way to. -/
theorem back (h : m.Confined limits slots) {callers : Array Frame} {caller : Frame}
    (hpush : m.callers = callers.push caller) :
    m.frame.base < limits.stackSize ∧
      Confined limits slots { m with frame := caller, callers } := by
  have hnested := h.nested
  have hcalls := h.calls
  rw [hpush] at hnested hcalls
  rw [Array.size_push] at hcalls
  rcases hnested.of_push with ⟨hbase, hcaller⟩
  exact ⟨hbase, { h with calls := Nat.le_of_succ_le hcalls, nested := hcaller }⟩

theorem leaveBody (h : m.Confined limits slots) (result : Value) :
    Same (Confined limits slots) (Checked.leaveBody alarm result m) (Exec.leaveBody result m) := by
  by_cases hcallers : m.callers = #[]
  · rw [Checked.leaveBody_of_last result hcallers, Exec.leaveBody_of_last result hcallers]
    refine (h.push result).bind ?_
    intro _ m₁ _ h₁
    refine (h₁.pop alarm).bind ?_
    intro _ m₂ _ h₂
    exact .refl h₂
  · rcases Array.exists_push_of_ne_empty hcallers with ⟨callers, caller, hpush⟩
    rcases h.back hpush with ⟨-, hback⟩
    rw [Checked.leaveBody_of_push result hpush, Exec.leaveBody_of_push result hpush]
    refine (hback.onStack (hback.stack.setHeight m.frame.base)).bind ?_
    intro _ m₁ _ h₁
    refine (h₁.push result).bind ?_
    intro _ m₂ _ h₂
    exact .refl h₂

/-! ### Steps and runs -/

theorem goOn {act act' : Exec Unit} (h : Same (Confined limits slots) (act m) (act' m)) :
    Same (Confined limits slots) (Exec.goOn act m) (Exec.goOn act' m) := by
  refine h.bind ?_
  intro _ m₁ _ h₁
  exact .refl h₁

theorem execute (h : m.Confined limits slots) (op : Opcode) (a b : Nat) :
    Same (Confined limits slots) (Checked.execute alarm op a b m) (Exec.execute op a b m) := by
  cases op with
  | constant | getGlobal | getLocal | getBuiltin | getFree | currentClosure =>
      exact goOn (h.pushFrom _)
  | pushTrue | pushFalse | pushNull => exact goOn (h.push _)
  | pop =>
      refine goOn ((h.pop alarm).bind ?_)
      intro _ m₁ _ h₁
      exact .refl h₁
  | add | sub | mul | div | equal | notEqual | greaterThan | index =>
      exact goOn (h.binary alarm _)
  | minus | bang => exact goOn (h.unary alarm _)
  | jump => exact goOn (.refl (h.jump a))
  | jumpNotTruthy => exact goOn (h.jumpNotTruthy alarm a)
  | setGlobal => exact goOn (h.setGlobal alarm a)
  | setLocal => exact goOn (h.setLocal alarm a)
  | array => exact goOn (h.makeArray alarm a)
  | hash => exact goOn (h.makeHash alarm a)
  | call => exact goOn (h.call alarm a)
  | closure => exact goOn (h.makeClosure alarm a b)
  -- The two returns leave the body instead of going on.
  | returnValue =>
      refine (h.pop alarm).bind ?_
      intro v m₁ _ h₁
      exact h₁.leaveBody alarm v
  | returnNull => exact h.leaveBody alarm .null

theorem fetchOperands (h : m.Confined limits slots) (op : Opcode) :
    Same (Confined limits slots) (Exec.fetchOperands op m) (Exec.fetchOperands op m) := by
  rw [Exec.fetchOperands_eq]
  cases m.frame.code.readOperands (m.frame.ip + 1) op.widths with
  | ok read => exact .refl (h.jump read.2)
  | error missing => exact .refl (h.jump missing)

/-- No check fails, whatever the code is. -/
theorem step (h : m.Confined limits slots) :
    Same (Confined limits slots) (Checked.step alarm m) (Exec.step m) := by
  rw [Checked.step_eq, Exec.step_eq]
  cases m.frame.code[m.frame.ip]? with
  | none =>
      by_cases hcallers : m.callers.isEmpty = true
      · simp only [if_pos hcallers]
        exact .refl h
      · simp only [if_neg hcallers]
        exact h.leaveBody alarm .null
  | some byte =>
      dsimp only
      cases Opcode.ofByte? byte with
      | none => exact .refl h
      | some op =>
          refine (h.fetchOperands op).bind ?_
          intro operands m₁ _ h₁
          exact h₁.execute alarm op _ _

theorem run (h : m.Confined limits slots) (fuel : Nat) : (m.run fuel).2.Confined limits slots := by
  induction fuel generalizing m with
  | zero => exact h
  | succ fuel ih =>
      -- The state that a step leaves is confined also if it ends the run, by a fault or otherwise.
      have hstep := (h.step .stackUnderflow).2
      unfold Machine.run
      split
      · rename_i next hnext
        rw [hnext] at hstep
        exact ih hstep
      · rename_i final hfinal
        rw [hfinal] at hstep
        exact hstep
      · rename_i fault final hfault
        rw [hfault] at hstep
        exact hstep

end Confined

/-- Run the machine again and again, each time with some fuel and from where the last run stopped,
however that ended. -/
def rerun (m : Machine) (fuels : List Nat) : Machine :=
  fuels.foldl (fun m fuel => (m.run fuel).2) m

theorem Confined.rerun {limits : Limits} {slots : Nat} {m : Machine} (h : m.Confined limits slots)
    (fuels : List Nat) : (m.rerun fuels).Confined limits slots := by
  induction fuels generalizing m with
  | nil => exact h
  | cons fuel fuels ih => exact ih (h.run fuel)

/-! ## Acts that find room -/

/-- The machine is about to leave a call for its caller. -/
def Returning (m : Machine) : Prop :=
  m.callers ≠ #[] ∧
    (m.frame.code.size ≤ m.frame.ip ∨ m.frame.code.Holds m.frame.ip [⟨.returnValue, []⟩] ∨
      m.frame.code.Holds m.frame.ip [⟨.returnNull, []⟩])

/-- The machine is about to call a builtin. -/
def CallsBuiltin (m : Machine) : Prop :=
  ∃ argc b, m.frame.code.Holds m.frame.ip [⟨.call, [argc]⟩] ∧ m.stack.top? = some (.builtin b)

namespace Confined

variable {limits : Limits} {slots : Nat} {m : Machine}

/-- A slot that exists can be made the topmost live one. -/
theorem settle (h : m.Confined limits slots) {slot : Nat} (hslot : slot < limits.stackSize)
    (v : Value) :
    ∃ m₁ m₂, Exec.onStack (Stack.setHeight slot) m = .ok () m₁ ∧ Exec.push v m₁ = .ok () m₂ := by
  have hsize := h.stack.size
  have hheight : Stack.setHeight slot m.stack = .ok () { m.stack with height := slot } :=
    if_pos (by omega)
  have hpush : Stack.push v { m.stack with height := slot } =
      .ok () { items := m.stack.items.setIfInBounds slot v, height := slot + 1 } :=
    if_pos (show slot < m.stack.items.size by omega)
  exact ⟨_, _, Exec.onStack_of_ok hheight, Exec.onStack_of_ok hpush⟩

/-- The result of a call goes into the slot where the call started. -/
theorem leaveBody_of_callers (h : m.Confined limits slots) (result : Value)
    (hcallers : m.callers ≠ #[]) : ∃ m', Exec.leaveBody result m = .ok .running m' := by
  rcases Array.exists_push_of_ne_empty hcallers with ⟨callers, caller, hpush⟩
  rcases h.back hpush with ⟨hbase, hback⟩
  -- The slot where the call started lies below the capacity, so the result fits there.
  rcases hback.settle hbase result with ⟨m₁, m₂, hheight, hresult⟩
  refine ⟨m₂, ?_⟩
  rw [Exec.leaveBody_of_push result hpush, act_bind_of_ok hheight]
  exact act_bind_of_ok hresult

/-- What can go wrong at a return is that there is no value to return. -/
theorem step_of_returning (h : m.Confined limits slots) (hreturning : m.Returning) {fault : Fault}
    {m' : Machine} (hstep : Exec.step m = .error fault m') : fault = .stackUnderflow := by
  rcases hreturning with ⟨hcallers, hend | hholds | hholds⟩
  · have hnot : ¬ m.callers.isEmpty = true := by simpa using hcallers
    rw [Exec.step_eq, Array.getElem?_eq_none hend] at hstep
    simp only [if_neg hnot] at hstep
    rcases h.leaveBody_of_callers .null hcallers with ⟨m₁, hleave⟩
    cases hleave.symm.trans hstep
  · rw [Exec.step_of_holds hholds] at hstep
    have hjumped := h.jump (m.frame.ip + Instr.size ⟨.returnValue, []⟩)
    rcases hjumped.pop_cases with hfail | ⟨v, stack, -, hok, hpopped, -⟩
    · cases (act_bind_of_error hfail).symm.trans hstep
      rfl
    · rcases hpopped.leaveBody_of_callers v hcallers with ⟨m₁, hleave⟩
      cases ((act_bind_of_ok hok).trans hleave).symm.trans hstep
  · rw [Exec.step_of_holds hholds] at hstep
    have hjumped := h.jump (m.frame.ip + Instr.size ⟨.returnNull, []⟩)
    rcases hjumped.leaveBody_of_callers .null hcallers with ⟨m₁, hleave⟩
    cases hleave.symm.trans hstep

/-- The result of a builtin goes into the slot of its first argument. -/
theorem callBuiltin_of_slot (h : m.Confined limits slots) (b : Builtin) {base : Nat}
    (hbase : base < limits.stackSize) {fault : Fault} {m' : Machine}
    (hcall : Exec.callBuiltin b base m = .error fault m') : ∃ cause, fault = .builtin cause := by
  rw [Exec.callBuiltin_eq] at hcall
  generalize m.stack.liveFrom base = args at hcall
  have hfresh : Exec.fresh m = .ok (.created m.created) { m with created := m.created + 1 } := rfl
  have hprint : Exec.print (b.printed args) { m with created := m.created + 1 } =
      .ok () { m with created := m.created + 1, output := m.output ++ b.printed args } := rfl
  rw [act_bind_of_ok hfresh, act_bind_of_ok hprint] at hcall
  cases hresult : b.apply (.created m.created) args with
  | error cause =>
      rw [hresult] at hcall
      cases hcall
      exact ⟨cause, rfl⟩
  | ok v =>
      rw [hresult] at hcall
      -- By then the number has been taken and the text printed, and the stack is as it was.
      have hprinted : Confined limits slots
          { m with created := m.created + 1, output := m.output ++ b.printed args } := { h with }
      rcases hprinted.settle hbase v with ⟨m₁, m₂, hheight, hpush⟩
      cases ((act_bind_of_ok hheight).trans hpush).symm.trans hcall

theorem call_of_builtin (h : m.Confined limits slots) {b : Builtin}
    (htop : m.stack.top? = some (.builtin b)) {argc : Nat} {fault : Fault} {m' : Machine}
    (hcall : Exec.call argc m = .error fault m') :
    fault = .stackUnderflow ∨ ∃ cause, fault = .builtin cause := by
  unfold Exec.call at hcall
  rcases h.pop_cases with hfail | ⟨v, stack, hv, hpop, hpopped, hheight⟩
  · rw [act_bind_of_error hfail] at hcall
    cases hcall
    exact .inl rfl
  · obtain rfl : v = .builtin b := Option.some.inj (hv.symm.trans htop)
    rw [act_bind_of_ok hpop] at hcall
    rcases below_cases { m with stack } argc with hfail | ⟨base, hbase, hbelow⟩
    · rw [act_bind_of_error hfail] at hcall
      cases hcall
      exact .inl rfl
    · rw [act_bind_of_ok hbelow] at hcall
      exact .inr (hpopped.callBuiltin_of_slot b (Nat.lt_of_le_of_lt hbase hheight) hcall)

/-- What can go wrong at the call of a builtin is that there are too few arguments, or that the
builtin refuses them. -/
theorem step_of_callsBuiltin (h : m.Confined limits slots) (hcalls : m.CallsBuiltin) {fault : Fault}
    {m' : Machine} (hstep : Exec.step m = .error fault m') :
    fault = .stackUnderflow ∨ ∃ cause, fault = .builtin cause := by
  rcases hcalls with ⟨argc, b, hholds, htop⟩
  rw [Exec.step_of_holds hholds] at hstep
  have hjumped := h.jump (m.frame.ip + Instr.size ⟨.call, [argc]⟩)
  cases hcall : Exec.call argc (m.jump (m.frame.ip + Instr.size ⟨.call, [argc]⟩)) with
  | ok _ m₁ => cases (act_bind_of_ok hcall).symm.trans hstep
  | error cause m₁ =>
      cases (act_bind_of_error hcall).symm.trans hstep
      exact hjumped.call_of_builtin htop hcall

end Confined

/-- Every state that a machine comes to keeps to its limits: with any code, constants and globals, in
any number of runs, whatever these end in. So the stack is read only where it has slots, and there is
room for the result of a call and for that of a builtin. -/
theorem rerun_confined (b : Bytecode) (globals : Globals) (limits : Limits) (run created : Nat)
    (fuels : List Nat) :
    let m := (load b globals limits run created).rerun fuels
    m.Confined limits globals.capacity ∧ (∀ alarm, Checked.step alarm m = Exec.step m) ∧
      (m.Returning → ∀ fault m', Exec.step m = .error fault m' → fault = .stackUnderflow) ∧
      (m.CallsBuiltin → ∀ fault m', Exec.step m = .error fault m' →
        fault = .stackUnderflow ∨ ∃ cause, fault = .builtin cause) := by
  intro m
  have hm : m.Confined limits globals.capacity :=
    (load_confined b globals limits run created).rerun fuels
  refine ⟨hm, ?_, ?_, ?_⟩
  · intro alarm
    exact (hm.step alarm).1
  · intro hreturning fault m' hstep
    exact hm.step_of_returning hreturning hstep
  · intro hcalls fault m' hstep
    exact hm.step_of_callsBuiltin hcalls hstep

/-- A function with fewer locals than parameters fills the stack, and the run fails. It still returns
when the machine is run again. -/
theorem rerun_confined_of_overflow :
    let body : Function :=
      { code := #[Opcode.pushTrue.toByte, Opcode.pushTrue.toByte, Opcode.pushTrue.toByte]
        numLocals := 0
        numParams := 1 }
    let b : Bytecode :=
      { code := (assemble [⟨.pushNull, []⟩, ⟨.constant, [0]⟩, ⟨.call, [1]⟩]).toArray
        constants := #[.function (.constant 0) body] }
    let limits : Limits := { stackSize := 2, maxFrames := 2 }
    let start := load b (.ofCapacity 0) limits 0 0
    let m := start.rerun [6]
    (start.run 6).1 = .failed (.stackOverflow 2) ∧ m.stack.height = m.stack.capacity ∧
      m.Returning ∧ m.Confined limits 0 ∧
      ∀ fault m', Exec.step m = .error fault m' → fault = .stackUnderflow := by
  intro body b limits start m
  have hcallers : m.callers ≠ #[] := by
    intro hempty
    have hsize : m.callers.size = 1 := rfl
    rw [hempty] at hsize
    cases hsize
  have hreturning : m.Returning := ⟨hcallers, .inl (by decide)⟩
  rcases rerun_confined b (.ofCapacity 0) limits 0 0 [6] with ⟨hconfined, -, hreturns, -⟩
  exact ⟨by decide, by decide, hreturning, hconfined, hreturns hreturning⟩

end Machine

end MonkeyMachine
