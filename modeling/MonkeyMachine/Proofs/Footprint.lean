import MonkeyMachine.Proofs.SessionSafety

/-!
# What a step leaves alone

An instruction takes its operands from the top of the stack and puts its result there. It writes no
slot below its operands, apart from a local of its own call, and it leaves the global store alone
unless it assigns a global. A return writes its result where the call had its first local.

So no step writes below the base of the call that it is executed in, whether it succeeds or raises a
fault: `Machine.Sound.step_below`. Functions have no instruction that assigns a global, so only the
top-level program does: `Machine.Sound.step_globals`.
-/

namespace MonkeyMachine

/-! ## Stacks -/

namespace Stack

/-- Two stacks with the same values in the slots below `floor`, live or not. -/
def SameBelow (floor : Nat) (stack stack' : Stack) : Prop :=
  ∀ slot < floor, stack'.get? slot = stack.get? slot

namespace SameBelow

variable {floor : Nat} {stack stack' stack'' : Stack}

theorem refl (floor : Nat) (stack : Stack) : SameBelow floor stack stack := fun _ _ => rfl

theorem trans (h : SameBelow floor stack stack') (h' : SameBelow floor stack' stack'') :
    SameBelow floor stack stack'' := by
  intro slot hslot
  rw [h' slot hslot, h slot hslot]

theorem mono {floor' : Nat} (h : SameBelow floor stack stack') (hle : floor' ≤ floor) :
    SameBelow floor' stack stack' := by
  intro slot hslot
  exact h slot (Nat.lt_of_lt_of_le hslot hle)

/-- Writing a slot further up. -/
theorem write {slot : Nat} (hslot : floor ≤ slot) (v : Value) (height : Nat) :
    SameBelow floor stack { items := stack.items.setIfInBounds slot v, height } := by
  intro other hother
  have hne : slot ≠ other := by omega
  exact Array.getElem?_setIfInBounds_ne hne

end SameBelow

theorem set_sameBelow {floor slot : Nat} (hslot : floor ≤ slot) (v : Value) (stack : Stack) :
    SameBelow floor stack (finalState (Stack.set slot v stack)) := by
  unfold Stack.set
  split
  · exact .write hslot v stack.height
  · exact .refl floor stack

theorem clear_sameBelow {floor slot : Nat} (hslot : floor ≤ slot) (count : Nat) (stack : Stack) :
    SameBelow floor stack (finalState (clear slot count stack)) := by
  induction count generalizing slot stack with
  | zero => exact .refl floor stack
  | succ count ih =>
      refine finalState_bind (set_sameBelow hslot .null stack) ?_
      intro _ next _ hnext
      exact hnext.trans (ih (Nat.le_succ_of_le hslot) next)

theorem setHeight_sameBelow (floor height : Nat) (stack : Stack) :
    SameBelow floor stack (finalState (Stack.setHeight height stack)) := by
  unfold Stack.setHeight
  split
  · exact .refl floor stack
  · exact .refl floor stack

theorem reserve_sameBelow {floor slot : Nat} (hslot : floor ≤ slot) (count height : Nat)
    (stack : Stack) : SameBelow floor stack (finalState (Stack.reserve slot count height stack)) := by
  refine finalState_bind (clear_sameBelow hslot count stack) ?_
  intro _ next _ hnext
  exact hnext.trans (setHeight_sameBelow floor height next)

end Stack

/-! ## Acts -/

open Exec (Leaves)

namespace Machine

/-- Between `m₀` and `m` no slot below `floor` is written and no global is assigned. -/
structure Spares (floor : Nat) (m₀ m : Machine) : Prop where
  below : Stack.SameBelow floor m₀.stack m.stack
  globals : m.globals = m₀.globals

/-- Between `m₀` and `m` no slot below `floor` is written and no global but `slot` is assigned. -/
structure Assigned (floor slot : Nat) (m₀ m : Machine) : Prop where
  below : Stack.SameBelow floor m₀.stack m.stack
  others : ∀ other, other ≠ slot → m.globals.slots[other]? = m₀.globals.slots[other]?
  callers : m.callers = m₀.callers

/-- No slot below `floor` is written, no global is assigned, and the same calls wait. -/
structure Stays (floor : Nat) (m₀ m : Machine) : Prop extends Spares floor m₀ m where
  callers : m.callers = m₀.callers

/-- An act that succeeds in the same call or fails, without writing below `floor`. -/
abbrev Staying {α : Type} (floor : Nat) (m₀ : Machine) : EStateM.Result Fault Machine α → Prop :=
  Leaves (fun _ => Stays floor m₀) (fun _ => Spares floor m₀)

/-- The machine in the middle of an instruction that began in `m₀`, with at least `count` live values
from slot `floor` on. -/
structure Above (floor : Nat) (m₀ : Machine) (count : Nat) (m : Machine) : Prop
    extends Stays floor m₀ m where
  room : floor + count ≤ m.stack.height
  frame : m.frame = m₀.frame

theorem Spares.trans {floor : Nat} {m m' m'' : Machine} (h : Spares floor m m')
    (h' : Spares floor m' m'') : Spares floor m m'' :=
  ⟨h.below.trans h'.below, h'.globals.trans h.globals⟩

namespace Above

variable {floor count : Nat} {m₀ m : Machine} {α : Type}

theorem start {floor count : Nat} {m : Machine} (h : floor + count ≤ m.stack.height) :
    Above floor m count m := ⟨⟨⟨.refl floor m.stack, rfl⟩, rfl⟩, h, rfl⟩

theorem weaken (h : Above floor m₀ count m) {fewer : Nat} (hle : fewer ≤ count) :
    Above floor m₀ fewer m := { h with room := by have := h.room; omega }

theorem withStack (h : Above floor m₀ count m) {stack : Stack} {count' : Nat}
    (hbelow : Stack.SameBelow floor m.stack stack) (hroom : floor + count' ≤ stack.height) :
    Above floor m₀ count' { m with stack } :=
  { h with
    below := h.below.trans hbelow
    room := hroom }

theorem push (h : Above floor m₀ count m) (v : Value) :
    Leaves (fun _ => Above floor m₀ (count + 1)) (fun _ => Spares floor m₀) (Exec.push v m) := by
  have hheight : floor + count ≤ m.stack.height := h.room
  rw [Exec.push, Exec.onStack_apply]
  unfold Stack.push
  by_cases hlt : m.stack.height < m.stack.items.size
  · rw [if_pos hlt]
    refine h.withStack (.write ?_ v _) ?_
    · omega
    · show floor + (count + 1) ≤ m.stack.height + 1
      omega
  · rw [if_neg hlt]
    exact h.toSpares

theorem pop (h : Above floor m₀ (count + 1) m) :
    Leaves (fun _ => Above floor m₀ count) (fun _ => Spares floor m₀) (Exec.pop m) := by
  have hheight : floor + (count + 1) ≤ m.stack.height := h.room
  rw [Exec.pop, Exec.onStack_apply]
  unfold Stack.pop
  rw [if_neg (show m.stack.height ≠ 0 by omega)]
  refine h.withStack (.refl floor m.stack) ?_
  show floor + count ≤ m.stack.height - 1
  omega

theorem setHeight (h : Above floor m₀ count m) {height : Nat} (hheight : floor ≤ height) :
    Leaves (fun _ => Above floor m₀ 0) (fun _ => Spares floor m₀)
      (Exec.onStack (Stack.setHeight height) m) := by
  rw [Exec.onStack_apply]
  unfold Stack.setHeight
  by_cases hle : height ≤ m.stack.items.size
  · rw [if_pos hle]
    exact h.withStack (.refl floor m.stack) hheight
  · rw [if_neg hle]
    exact h.toSpares

theorem popMany {more : Nat} (h : Above floor m₀ (count + more) m) :
    Leaves (fun _ => Above floor m₀ count) (fun _ => Spares floor m₀) (Exec.popMany more m) := by
  have hheight : floor + (count + more) ≤ m.stack.height := h.room
  have hbelow : Stack.below more m.stack = .ok (m.stack.height - more) m.stack :=
    if_pos (by omega)
  have hact : Stack.popMany more m.stack =
      (Stack.setHeight (m.stack.height - more) >>= fun _ =>
        pure (m.stack.liveFrom (m.stack.height - more))) m.stack := act_bind_of_ok hbelow
  rw [Exec.popMany, Exec.onStack_apply, hact]
  by_cases hle : m.stack.height - more ≤ m.stack.items.size
  · have hcut : Stack.setHeight (m.stack.height - more) m.stack =
        .ok () { m.stack with height := m.stack.height - more } := if_pos hle
    rw [act_bind_of_ok hcut]
    refine h.withStack (.refl floor m.stack) ?_
    show floor + count ≤ m.stack.height - more
    omega
  · have hcut : Stack.setHeight (m.stack.height - more) m.stack =
        .error (.stackOverflow m.stack.items.size) m.stack := if_neg hle
    rw [act_bind_of_error hcut]
    exact h.toSpares

theorem fresh (h : Above floor m₀ count m) :
    Leaves (fun _ => Above floor m₀ count) (fun _ => Spares floor m₀) (Exec.fresh m) :=
  { h with }

theorem print (h : Above floor m₀ count m) (text : String) :
    Leaves (fun _ => Above floor m₀ count) (fun _ => Spares floor m₀) (Exec.print text m) :=
  { h with }

theorem ofResult (h : Above floor m₀ count m) (result : Except Fault α) :
    Leaves (fun _ => Above floor m₀ count) (fun _ => Spares floor m₀) (Exec.ofResult result m) := by
  cases result with
  | ok a => exact h
  | error fault => exact h.toSpares

theorem stays {act : Exec α} {count' : Nat}
    (h : Leaves (fun _ => Above floor m₀ count') (fun _ => Spares floor m₀) (act m)) :
    Staying floor m₀ (act m) :=
  h.mono (fun _ _ hm => hm.toStays) fun _ _ => id

theorem onStack (h : Above floor m₀ count m) {act : Stack.Act α}
    (hact : Stack.SameBelow floor m.stack (finalState (act m.stack))) :
    Leaves (fun _ m' => Stays floor m₀ m' ∧ m'.frame = m₀.frame) (fun _ => Spares floor m₀)
      (Exec.onStack act m) := by
  rw [Exec.onStack_apply]
  cases hresult : act m.stack with
  | ok a stack =>
      rw [hresult] at hact
      exact ⟨⟨⟨h.below.trans hact, h.globals⟩, h.callers⟩, h.frame⟩
  | error fault stack =>
      rw [hresult] at hact
      exact ⟨h.below.trans hact, h.globals⟩

theorem goOn {act : Exec Unit} {ok : Machine → Prop} {bad : Fault → Machine → Prop}
    (h : Leaves (fun _ => ok) bad (act m)) : Leaves (fun _ => ok) bad (Exec.goOn act m) :=
  h.bind fun _ _ hm => hm

/-! ## Instructions -/

theorem pushFrom (h : Above floor m₀ count m) (part : Machine → Except Fault Value) :
    Staying floor m₀ (Exec.pushFrom part m) := by
  show Staying floor m₀ ((Exec.ofResult (part m) >>= Exec.push) m)
  refine (h.ofResult (part m)).bind ?_
  intro v m₁ h₁
  exact stays (h₁.push v)

theorem binary (h : Above floor m₀ 2 m) (operation : Value → Value → Except Fault Value) :
    Staying floor m₀ (Exec.binary operation m) := by
  refine h.pop.bind ?_
  intro right m₁ h₁
  refine h₁.pop.bind ?_
  intro left m₂ h₂
  refine (h₂.ofResult (operation left right)).bind ?_
  intro v m₃ h₃
  exact stays (h₃.push v)

theorem unary (h : Above floor m₀ 1 m) (operation : Value → Except Fault Value) :
    Staying floor m₀ (Exec.unary operation m) := by
  refine h.pop.bind ?_
  intro operand m₁ h₁
  refine (h₁.ofResult (operation operand)).bind ?_
  intro v m₂ h₂
  exact stays (h₂.push v)

theorem makeArray (h : Above floor m₀ count m) : Staying floor m₀ (Exec.makeArray count m) := by
  have hcount : Above floor m₀ (0 + count) m := h.weaken (by omega)
  refine hcount.popMany.bind ?_
  intro elements m₁ h₁
  refine h₁.fresh.bind ?_
  intro id m₂ h₂
  exact stays (h₂.push _)

theorem makeHash (h : Above floor m₀ count m) : Staying floor m₀ (Exec.makeHash count m) := by
  have hcount : Above floor m₀ (0 + count) m := h.weaken (by omega)
  refine hcount.popMany.bind ?_
  intro values m₁ h₁
  refine (h₁.ofResult (Value.addEntries [] values)).bind ?_
  intro entries m₂ h₂
  refine h₂.fresh.bind ?_
  intro id m₃ h₃
  exact stays (h₃.push _)

theorem makeClosure (h : Above floor m₀ count m) (index : Nat) :
    Staying floor m₀ (Exec.makeClosure index count m) := by
  by_cases hfunction : ∃ id body, m.constants[index]? = some (.function id body)
  · rcases hfunction with ⟨_, body, hget⟩
    rw [Exec.makeClosure_of_function count hget]
    have hcount : Above floor m₀ (0 + count) m := h.weaken (by omega)
    refine hcount.popMany.bind ?_
    intro free m₁ h₁
    refine h₁.fresh.bind ?_
    intro id m₂ h₂
    exact stays (h₂.push _)
  · rw [Exec.makeClosure_of_other count hfunction]
    exact h.toSpares

/-- A local lies above the base of its call. -/
theorem setLocal (h : Above floor m₀ 1 m) (hbase : floor ≤ m₀.frame.base) (slot : Nat) :
    Staying floor m₀ (Exec.setLocal slot m) := by
  refine h.pop.bind ?_
  intro v m₁ h₁
  have hslot : floor ≤ m₁.frame.base + slot := by
    rw [h₁.frame]
    omega
  refine (h₁.onStack (Stack.set_sameBelow hslot v m₁.stack)).mono ?_ fun _ _ => id
  rintro _ m₂ ⟨hstays, -⟩
  exact hstays

theorem jumpNotTruthy (h : Above floor m₀ 1 m) (target : Nat) :
    Staying floor m₀ (Exec.jumpNotTruthy target m) := by
  refine h.pop.bind ?_
  intro v m₁ h₁
  by_cases htruthy : v.truthy = true
  · rw [if_pos htruthy]
    exact h₁.toStays
  · rw [if_neg htruthy]
    exact { h₁.toStays with }

/-- Assigning a global writes no slot of the stack and no other global. -/
theorem setGlobal (h : Above floor m₀ 1 m) (slot : Nat) :
    Leaves (fun _ => Assigned floor slot m₀) (fun _ => Spares floor m₀) (Exec.setGlobal slot m) := by
  refine h.pop.bind ?_
  intro v m₁ h₁
  by_cases hslot : slot < m₁.globals.slots.size
  · have hset : Globals.set slot v m₁.globals =
        .ok () { slots := m₁.globals.slots.setIfInBounds slot (some v) } := if_pos hslot
    rw [Exec.onGlobals_apply, hset]
    refine ⟨h₁.below, ?_, h₁.callers⟩
    intro other hother
    rw [← h₁.globals]
    exact Array.getElem?_setIfInBounds_ne (Ne.symm hother)
  · have hset : Globals.set slot v m₁.globals =
        .error (.globalOutOfRange slot m₁.globals.slots.size) m₁.globals := if_neg hslot
    rw [Exec.onGlobals_apply, hset]
    exact h₁.toSpares

/-- An instruction other than a call, a return or the assignment of a global. -/
theorem ordinary {i : Instr} (h : Above floor m₀ i.needs m)
    (hbase : i.op = .setLocal → floor ≤ m₀.frame.base)
    (hop : i.op ∉ [Opcode.setGlobal, .call, .returnValue, .returnNull]) :
    Staying floor m₀ (Exec.execute i.op (i.operands.getD 0 0) (i.operands.getD 1 0) m) := by
  obtain ⟨op, operands⟩ := i
  cases op with
  | constant | getGlobal | getLocal | getBuiltin | getFree | currentClosure =>
      exact goOn (h.pushFrom _)
  | pop =>
      have hone : Above floor m₀ (0 + 1) m := h
      refine goOn (hone.pop.bind ?_)
      intro _ m₁ h₁
      exact h₁.toStays
  | pushTrue | pushFalse | pushNull => exact goOn (stays (h.push _))
  | add | sub | mul | div | equal | notEqual | greaterThan | index => exact goOn (binary h _)
  | minus | bang => exact goOn (unary h _)
  | jump => exact { h.toStays with }
  | jumpNotTruthy => exact goOn (jumpNotTruthy h _)
  | setLocal => exact goOn (setLocal h (hbase rfl) _)
  | array => exact goOn (makeArray h)
  | hash => exact goOn (makeHash h)
  | closure => exact goOn (makeClosure h _)
  | setGlobal | call | returnValue | returnNull => simp at hop

/-! ## Calls and returns -/

/-- A call of a function has been started in `m₀`, with its arguments from slot `base` on. -/
structure Begins (floor : Nat) (m₀ : Machine) (argc base : Nat) (m : Machine) : Prop
    extends Spares floor m₀ m where
  callers : m.callers = m₀.callers.push m₀.frame
  base : m.frame.base = base
  params : m.frame.body.numParams = argc

theorem enterBody (h : Above floor m₀ count m) (id : Identity) (body : Function) (free : List Value)
    {argc base : Nat} (hbase : floor ≤ base) :
    Leaves (fun _ => Begins floor m₀ argc base) (fun _ => Spares floor m₀)
      (Exec.enterBody id body free argc base m) := by
  by_cases hcount : argc = body.numParams
  · rw [Exec.enterBody_eq id free base hcount]
    by_cases hlimit : m.callers.size + 2 ≤ m.maxFrames
    · rw [if_pos hlimit]
      -- The arguments stay where they are, the other locals lie above them.
      have hlocals : floor ≤ base + argc := by omega
      refine (h.onStack (Stack.reserve_sameBelow hlocals _ _ m.stack)).bind ?_
      rintro _ m₁ ⟨h₁, hframe⟩
      exact
        { h₁.toSpares with
          callers := by show m₁.callers.push m₁.frame = _; rw [h₁.callers, hframe]
          base := rfl
          params := hcount.symm }
    · rw [if_neg hlimit]
      exact h.toSpares
  · rw [Exec.enterBody_of_count id free base hcount]
    exact h.toSpares

theorem callBuiltin (h : Above floor m₀ count m) (b : Builtin) {base : Nat} (hbase : floor ≤ base) :
    Staying floor m₀ (Exec.callBuiltin b base m) := by
  rw [Exec.callBuiltin_eq]
  refine h.fresh.bind ?_
  intro id m₁ h₁
  refine (h₁.print _).bind ?_
  intro _ m₂ h₂
  refine (h₂.ofResult _).bind ?_
  intro v m₃ h₃
  refine (h₃.setHeight hbase).bind ?_
  intro _ m₄ h₄
  exact stays (h₄.push v)

/-- A call takes the callee and the arguments. It gives a result at once if the callee is built
in. -/
theorem call {argc : Nat} (h : floor + (argc + 1) ≤ m.stack.height) :
    Leaves
      (fun _ m' => Stays floor m m' ∨ Begins floor m argc (m.stack.height - (argc + 1)) m')
      (fun _ => Spares floor m) (Exec.call argc m) := by
  have hpop : Stack.pop m.stack = .ok (m.stack.items.getD (m.stack.height - 1) .null)
      { m.stack with height := m.stack.height - 1 } := if_neg (by omega)
  have hbelow : Stack.below argc { m.stack with height := m.stack.height - 1 } =
      .ok (m.stack.height - 1 - argc) { m.stack with height := m.stack.height - 1 } :=
    if_pos (by show argc ≤ m.stack.height - 1; omega)
  have hbase : floor ≤ m.stack.height - (argc + 1) := by omega
  have hsame : m.stack.height - 1 - argc = m.stack.height - (argc + 1) := by omega
  have h₁ : Above floor m 0 { m with stack := { m.stack with height := m.stack.height - 1 } } :=
    (start (show floor + 0 ≤ m.stack.height by omega)).withStack (.refl floor m.stack)
      (by show floor + 0 ≤ m.stack.height - 1; omega)
  rw [hsame] at hbelow
  have hact : Exec.pop m = .ok (m.stack.items.getD (m.stack.height - 1) .null)
      { m with stack := { m.stack with height := m.stack.height - 1 } } := Exec.onStack_of_ok hpop
  unfold Exec.call
  rw [act_bind_of_ok hact, act_bind_of_ok (Exec.onStack_of_ok hbelow)]
  cases m.stack.items.getD (m.stack.height - 1) .null with
  | closure self body free =>
      exact (h₁.enterBody self body free hbase).mono (fun _ _ => .inr) fun _ _ => id
  | function _ body =>
      refine h₁.fresh.bind ?_
      intro self m₂ h₂
      exact (h₂.enterBody self body [] hbase).mono (fun _ _ => .inr) fun _ _ => id
  | builtin b => exact (h₁.callBuiltin b hbase).mono (fun _ _ => .inl) fun _ _ => id
  | _ => exact h₁.toSpares

/-- A return writes its result to the first slot of its call. -/
theorem leaveBody (h : Above floor m₀ 0 m) (hbase : floor ≤ m₀.frame.base) (result : Value) :
    Leaves (fun _ m' => Spares floor m₀ m' ∧ m'.callers.size ≤ m₀.callers.size)
      (fun _ => Spares floor m₀) (Exec.leaveBody result m) := by
  by_cases hcallers : m.callers = #[]
  · rw [Exec.leaveBody_of_last result hcallers]
    refine (h.push result).bind ?_
    intro _ m₁ h₁
    refine h₁.pop.bind ?_
    intro _ m₂ h₂
    exact ⟨h₂.toSpares, Nat.le_of_eq (congrArg Array.size h₂.callers)⟩
  · rcases Array.exists_push_of_ne_empty hcallers with ⟨callers, caller, hpush⟩
    rw [Exec.leaveBody_of_push result hpush]
    -- The caller runs again before the stack is cut down.
    have hback : Above floor { m with frame := caller, callers } 0
        { m with frame := caller, callers } := start h.room
    have hbase' : floor ≤ m.frame.base := by
      rw [h.frame]
      exact hbase
    have hends : Staying floor { m with frame := caller, callers } ((do
        Exec.onStack (Stack.setHeight m.frame.base)
        Exec.push result
        return .running : Exec Progress) { m with frame := caller, callers }) := by
      refine (hback.setHeight hbase').bind ?_
      intro _ m₁ h₁
      refine (h₁.push result).bind ?_
      intro _ m₂ h₂
      exact h₂.toStays
    refine hends.mono ?_ ?_
    · intro _ m' hm'
      refine ⟨h.toSpares.trans ⟨hm'.below, hm'.globals⟩, ?_⟩
      rw [hm'.callers, ← h.callers, hpush, Array.size_push]
      exact Nat.le_succ _
    · intro _ m' hm'
      exact h.toSpares.trans ⟨hm'.below, hm'.globals⟩

end Above

/-! ## Steps -/

/-- The machine is about to assign a global. -/
def Assigns (m : Machine) (slot : Nat) : Prop := m.frame.code.Has m.frame.ip .setGlobal [slot]

theorem finalState_of_leaves {α : Type} {P : Machine → Prop}
    {result : EStateM.Result Fault Machine α} (h : Leaves (fun _ => P) (fun _ => P) result) :
    P (finalState result) := by
  cases result with
  | ok a m' => exact h
  | error fault m' => exact h

theorem Spares.of_jump {floor target : Nat} {m m' : Machine} (h : Spares floor (m.jump target) m') :
    Spares floor m m' := ⟨h.below, h.globals⟩

namespace About

variable {w : World} {m : Machine} {values : List Value} {pre post : List Instr} {i : Instr}

theorem above (h : m.About w values pre i post) {floor : Nat}
    (hfloor : floor + i.needs ≤ values.length) (target : Nat) :
    Above floor (m.jump target) i.needs (m.jump target) := by
  refine Above.start ?_
  show floor + i.needs ≤ m.stack.height
  rw [h.live.1]
  exact hfloor

/-- A call step starts the body of a function, or stays where it is. -/
theorem calls_function (h : m.About w values pre i post) {argc : Nat} (hi : i = ⟨.call, [argc]⟩) :
    Leaves (fun _ m' => Stays (m.stack.height - (argc + 1)) m m' ∨
        Above.Begins (m.stack.height - (argc + 1)) (m.jump (codeSize (pre ++ [i]))) argc
          (m.stack.height - (argc + 1)) m')
      (fun _ => Spares (m.stack.height - (argc + 1)) m) (Exec.step m) := by
  subst hi
  have hneeds : (m.jump (codeSize (pre ++ [⟨.call, [argc]⟩]))).stack.height -
      (argc + 1) + (argc + 1) ≤ (m.jump (codeSize (pre ++ [⟨.call, [argc]⟩]))).stack.height := by
    have hcount : (Instr.mk .call [argc]).needs = argc + 1 := rfl
    have hneeds := h.needs
    rw [← h.live.1] at hneeds
    show m.stack.height - (argc + 1) + (argc + 1) ≤ m.stack.height
    omega
  rw [h.step]
  refine (Above.goOn (Above.call hneeds)).mono ?_ fun _ _ => Spares.of_jump
  rintro _ m' (hstays | hbegins)
  · exact .inl { hstays.toSpares.of_jump with callers := hstays.callers }
  · exact .inr hbegins

/-- An instruction that assigns no global writes only above the base of its call. Only a call adds to
the calls that wait. -/
theorem spares (h : m.About w values pre i post) (hop : i.op ≠ .setGlobal) :
    Leaves
      (fun _ m' => Spares m.frame.base m m' ∧ (i.op ≠ .call → m'.callers.size ≤ m.callers.size))
      (fun _ => Spares m.frame.base m) (Exec.step m) := by
  have hneeds := h.needs
  have habove := h.above (show m.frame.base + i.needs ≤ values.length by omega)
    (codeSize (pre ++ [i]))
  by_cases hcontrol : i.op ∈ [Opcode.setGlobal, .call, .returnValue, .returnNull]
  · simp only [List.mem_cons, List.not_mem_nil, or_false] at hcontrol
    rcases hcontrol with hset | hcall | hvalue | hnull
    · exact absurd hset hop
    · obtain ⟨op, operands⟩ := i
      obtain rfl : op = .call := hcall
      obtain ⟨argc, rfl⟩ : ∃ n, operands = [n] :=
        List.length_eq_one_iff.1 (List.Forall₂.length_eq h.valid).symm
      have hcount : (Instr.mk .call [argc]).needs = argc + 1 := rfl
      -- Callee and arguments lie above the base, and so does all that the call writes.
      have hfloor : m.frame.base ≤ m.stack.height - (argc + 1) := by
        rw [h.live.1]
        omega
      refine (h.calls_function rfl).mono ?_ ?_
      · rintro _ m' (hm' | hm')
        · exact ⟨⟨hm'.below.mono hfloor, hm'.globals⟩, absurd rfl⟩
        · exact ⟨⟨hm'.below.mono hfloor, hm'.globals⟩, absurd rfl⟩
      · intro _ m' hm'
        exact ⟨hm'.below.mono hfloor, hm'.globals⟩
    · have hone : i.needs = 0 + 1 := by simp [Instr.needs, hvalue]
      rw [hone] at habove
      rw [h.step, hvalue]
      refine Leaves.mono (habove.pop.bind fun v m₁ h₁ => h₁.leaveBody (Nat.le_refl _) v) ?_ ?_
      · rintro _ m' ⟨hspares, hsize⟩
        exact ⟨hspares.of_jump, fun _ => hsize⟩
      · intro _ m' hspares
        exact hspares.of_jump
    · rw [h.step, hnull]
      refine ((habove.weaken (Nat.zero_le _)).leaveBody (Nat.le_refl _) .null).mono ?_ ?_
      · rintro _ m' ⟨hspares, hsize⟩
        exact ⟨hspares.of_jump, fun _ => hsize⟩
      · intro _ m' hspares
        exact hspares.of_jump
  · rw [h.step]
    refine (habove.ordinary (fun _ => Nat.le_refl _) hcontrol).mono ?_ ?_
    · intro _ m' hstays
      exact ⟨hstays.toSpares.of_jump, fun _ => Nat.le_of_eq (congrArg Array.size hstays.callers)⟩
    · intro _ m' hspares
      exact hspares.of_jump

theorem has (h : m.About w values pre i post) : m.frame.code.Has m.frame.ip i.op i.operands := by
  rcases h.code with ⟨_, _, -, -, hcode⟩
  exact hcode.has_iff.2 ⟨pre, post, h.instrs, h.ip⟩

theorem assigns (h : m.About w values pre i post) {slot : Nat} (hi : i = ⟨.setGlobal, [slot]⟩) :
    Leaves (fun _ => Assigned m.frame.base slot m) (fun _ => Spares m.frame.base m)
      (Exec.step m) := by
  subst hi
  have hneeds := h.needs
  have habove := h.above (show m.frame.base + _ ≤ values.length by omega)
    (codeSize (pre ++ [⟨.setGlobal, [slot]⟩]))
  rw [h.step]
  refine (Above.goOn (habove.setGlobal slot)).mono ?_ ?_
  · intro _ m' hm'
    exact ⟨hm'.below, hm'.others, hm'.callers⟩
  · intro _ m' hm'
    exact hm'.of_jump

/-- An instruction that assigns a global names its slot. -/
theorem exists_slot (h : m.About w values pre i post) (hop : i.op = .setGlobal) :
    ∃ slot, i = ⟨.setGlobal, [slot]⟩ := by
  obtain ⟨op, operands⟩ := i
  obtain rfl : op = .setGlobal := hop
  obtain ⟨slot, rfl⟩ : ∃ n, operands = [n] :=
    List.length_eq_one_iff.1 (List.Forall₂.length_eq h.valid).symm
  exact ⟨slot, rfl⟩

end About

section Steps

variable {w : World} {m : Machine}

/-- No step writes below the base of the call that it is executed in. -/
theorem Sound.step_below (h : m.Sound w) :
    Stack.SameBelow m.frame.base m.stack (finalState (Exec.step m)).stack := by
  rcases h.about with ⟨hcallers, hend⟩ | ⟨values, pre, i, post, habout⟩
  · rw [Exec.step_at_end hend hcallers]
    exact .refl _ m.stack
  · by_cases hop : i.op = .setGlobal
    · rcases habout.exists_slot hop with ⟨slot, hi⟩
      exact finalState_of_leaves
        ((habout.assigns hi).mono (fun _ _ hm => hm.below) fun _ _ hm => hm.below)
    · exact finalState_of_leaves
        ((habout.spares hop).mono (fun _ _ hm => hm.1.below) fun _ _ hm => hm.below)

/-- A step changes no global but the one that its instruction assigns. -/
theorem Sound.step_globals (h : m.Sound w) {slot : Nat} (hslot : ¬ m.Assigns slot) :
    (finalState (Exec.step m)).globals.slots[slot]? = m.globals.slots[slot]? := by
  have hsame : ∀ {m' : Machine}, m'.globals = m.globals →
      m'.globals.slots[slot]? = m.globals.slots[slot]? := fun heq => by rw [heq]
  rcases h.about with ⟨hcallers, hend⟩ | ⟨values, pre, i, post, habout⟩
  · rw [Exec.step_at_end hend hcallers]
    rfl
  · by_cases hop : i.op = .setGlobal
    · rcases habout.exists_slot hop with ⟨other, rfl⟩
      have hne : slot ≠ other := by
        rintro rfl
        exact hslot habout.has
      exact finalState_of_leaves (P := fun m' => m'.globals.slots[slot]? = m.globals.slots[slot]?)
        ((habout.assigns rfl).mono (fun _ _ hm => hm.others slot hne) fun _ _ hm => hsame hm.globals)
    · exact finalState_of_leaves (P := fun m' => m'.globals.slots[slot]? = m.globals.slots[slot]?)
        ((habout.spares hop).mono (fun _ _ hm => hsame hm.1.globals) fun _ _ hm => hsame hm.globals)

/-- Functions do not assign globals. -/
theorem Sound.callers_of_assigns (h : m.Sound w) {slot : Nat} (hassigns : m.Assigns slot) :
    m.callers = #[] := by
  rcases h.stack with ⟨values, -, -, hcalls⟩
  rcases hcalls.current with ⟨locals, pre, post, hrole, -, -, hnone, -⟩
  rcases hrole.code h.world with ⟨free, -, hcode⟩
  have hfits : locals = none ∧ slot < w.globals := hcode.fits_of_has hassigns
  have hnil := hnone.2 hfits.1
  simpa using hnil

end Steps

end Machine

end MonkeyMachine
