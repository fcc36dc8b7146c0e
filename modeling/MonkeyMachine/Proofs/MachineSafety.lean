import MonkeyMachine.Proofs.Execution
import MonkeyMachine.Proofs.ValueSoundness

/-!
# The machine never goes wrong

An invariant of machines that run compiled code, and what one step can do to them. Every call in
progress stands between two instructions of sound code and has as many values on the stack as the
text of its code says: its locals, and the depth of the point it has come to. All values in sight
are sound.

From the invariant a step goes on to a machine of the same kind, ends the run, or raises a fault
that has its cause in the program or in the limits, never one that the machine keeps for malformed
code: `Machine.Sound.step`.
-/

namespace MonkeyMachine

/-! ## The invariant -/

/-- A later world of the same run: only values have been made. -/
structure World.Grows (w w' : World) : Prop where
  pool : w'.pool = w.pool
  globals : w'.globals = w.globals
  made : w.made <+: w'.made

namespace World.Grows

variable {w w' w'' : World}

theorem refl (w : World) : w.Grows w := ⟨rfl, rfl, List.prefix_refl _⟩

theorem trans (h : w.Grows w') (h' : w'.Grows w'') : w.Grows w'' :=
  ⟨h'.pool.trans h.pool, h'.globals.trans h.globals, h.made.trans h'.made⟩

theorem make (h : w.Grows w') (v : Value) : w.Grows (w'.make v) :=
  ⟨h.pool, h.globals, h.made.trans (List.prefix_append _ _)⟩

theorem toExtends (h : w.Grows w') : w.Extends w' := by
  refine ⟨⟨[], ?_⟩, Nat.le_of_eq h.globals.symm, h.made⟩
  rw [List.append_nil, h.pool]

theorem sound (h : w.Grows w') (hw : w.Sound) : w'.Sound := by
  show Literals w'.pool w'.globals 0 w'.pool
  rw [h.pool, h.globals]
  exact hw

end World.Grows

/-- A call has come to the point between `pre` and `post` in its code. -/
structure Frame.At (frame : Frame) (pre post : List Instr) : Prop where
  instrs : frame.code.instrs = pre ++ post
  ip : frame.ip = codeSize pre

/-- What a call is: the top-level program, or the call of a closure with that many locals. -/
inductive Frame.Role (w : World) (frame : Frame) : Option Nat → Prop
  | program (hcode : frame.code.Sound ⟨w.pool, w.globals, none, 0⟩) (hbase : frame.base = 0)
      (hlocals : frame.body.numLocals = 0) (hfree : frame.free = []) : Role w frame none
  | function (hclosure : frame.closure.Sound w) : Role w frame (some frame.body.numLocals)

/-- The running call and those that wait for it, innermost first, with `height` values on the
stack. A call that waits has one value more once the result is there. -/
inductive Calls (w : World) : Frame → List Frame → Nat → Prop
  | program {frame : Frame} {pre post : List Instr} {height : Nat} (hrole : frame.Role w none)
      (hat : frame.At pre post) (hheight : (height : Int) = depth pre) : Calls w frame [] height
  | function {frame caller : Frame} {callers : List Frame} {pre post : List Instr} {height : Nat}
      (hrole : frame.Role w (some frame.body.numLocals)) (hat : frame.At pre post)
      (hpost : post ≠ []) (hheight : (height : Int) = frame.base + frame.body.numLocals + depth pre)
      (hcaller : Calls w caller callers (frame.base + 1)) : Calls w frame (caller :: callers) height

namespace Machine

/-- The part of a machine that outlives the run. -/
structure Settled (w : World) (m : Machine) : Prop where
  world : w.Sound
  pool : m.constants.toList = w.pool
  made : w.made.length = m.created
  globals : ∀ v, some v ∈ m.globals.slots → v.Sound w

/-- A machine between two instructions. -/
structure Sound (w : World) (m : Machine) : Prop extends Settled w m where
  stack : ∃ values, m.stack.Live values ∧ Value.AllSound w values ∧
    Calls w m.frame m.callers.toList.reverse values.length

/-- What a run does not change. -/
structure Kept (m m' : Machine) : Prop where
  constants : m'.constants = m.constants
  maxFrames : m'.maxFrames = m.maxFrames
  stackSize : m'.stack.capacity = m.stack.capacity
  globalsSize : m'.globals.capacity = m.globals.capacity

end Machine

/-! ## Calls -/

namespace Frame

variable {w w' : World} {frame : Frame} {locals : Option Nat}

theorem Role.mono (h : frame.Role w locals) (hw : w.Extends w') : frame.Role w' locals := by
  cases h with
  | program hcode hbase hlocals hfree =>
      exact .program (hcode.mono hw.pool hw.globals) hbase hlocals hfree
  | function hclosure => exact .function (hclosure.mono hw)

/-- The code of a call is sound, and the captured values that it asks for are there. -/
theorem Role.code (h : frame.Role w locals) (hw : w.Sound) :
    ∃ free, free ≤ frame.free.length ∧ frame.code.Sound ⟨w.pool, w.globals, locals, free⟩ := by
  cases h with
  | program hcode => exact ⟨0, Nat.zero_le _, hcode⟩
  | function hclosure =>
      rcases hclosure.of_closure with ⟨_, _, -, -, hpool, hfree, -⟩
      exact ⟨_, hfree, (hw.function hpool).2.code⟩

/-- The call at another instruction. -/
theorem Role.jump (h : frame.Role w locals) (target : Nat) :
    ({ frame with ip := target } : Frame).Role w locals := by
  cases h with
  | program hcode hbase hlocals hfree => exact .program hcode hbase hlocals hfree
  | function hclosure => exact .function hclosure

theorem Role.captured (h : frame.Role w locals) : Value.AllSound w frame.free := by
  cases h with
  | program _ _ _ hfree =>
      rw [hfree]
      exact List.forall_mem_nil _
  | function hclosure =>
      rcases hclosure.of_closure with ⟨_, _, -, -, -, -, hvalues⟩
      exact hvalues

theorem Role.locals_eq (h : frame.Role w locals) {count : Nat} (hlocals : locals = some count) :
    count = frame.body.numLocals := by
  cases h with
  | program => cases hlocals
  | function =>
      cases hlocals
      rfl

theorem Role.closure (h : frame.Role w locals) (hlocals : locals ≠ none) : frame.closure.Sound w := by
  cases h with
  | program => exact absurd rfl hlocals
  | function hclosure => exact hclosure

end Frame

namespace Calls

variable {w w' : World} {frame : Frame} {callers : List Frame} {height : Nat}

theorem mono (h : Calls w frame callers height) (hw : w.Extends w') :
    Calls w' frame callers height := by
  induction h with
  | program hrole hat hheight => exact .program (hrole.mono hw) hat hheight
  | function hrole hat hpost hheight _ ih => exact .function (hrole.mono hw) hat hpost hheight ih

/-- Where the running call stands. -/
theorem current (h : Calls w frame callers height) :
    ∃ locals pre post, frame.Role w locals ∧ frame.At pre post ∧ (callers ≠ [] → post ≠ []) ∧
      (callers = [] ↔ locals = none) ∧
      (height : Int) = frame.base + frame.body.numLocals + depth pre := by
  cases h with
  | @program _ pre post _ hrole hat hheight =>
      refine ⟨none, pre, post, hrole, hat, fun hne => absurd rfl hne, ⟨fun _ => rfl, fun _ => rfl⟩, ?_⟩
      cases hrole with
      | program _ hbase hlocals =>
          rw [hbase, hlocals]
          omega
  | @function _ _ _ pre post _ hrole hat hpost hheight =>
      exact ⟨_, pre, post, hrole, hat, fun _ => hpost, ⟨nofun, nofun⟩, hheight⟩

/-- The running call goes on to another point of its code. -/
theorem move (h : Calls w frame callers height) {pre post : List Instr} {height' : Nat}
    (hinstrs : frame.code.instrs = pre ++ post) (hpost : callers ≠ [] → post ≠ [])
    (hheight : (height' : Int) = frame.base + frame.body.numLocals + depth pre) :
    Calls w { frame with ip := codeSize pre } callers height' := by
  cases h with
  | program hrole =>
      have hdepth : (height' : Int) = depth pre := by
        cases hrole with
        | program _ hbase hlocals =>
            rw [hbase, hlocals] at hheight
            omega
      exact .program (hrole.jump _) ⟨hinstrs, rfl⟩ hdepth
  | function hrole _ _ _ hcaller =>
      exact .function (hrole.jump _) ⟨hinstrs, rfl⟩ (hpost (List.cons_ne_nil _ _)) hheight hcaller

end Calls

/-! ## Acts -/

open Exec (Leaves onStack_of_ok onStack_of_error)

namespace Machine

/-- The machine in the middle of an instruction, with `values` on the stack. The instruction began
in the machine `m₀` and the world `w₀`. -/
structure Holding (m₀ : Machine) (w₀ w : World) (values : List Value) (m : Machine) : Prop
    extends Settled w m, Kept m₀ m where
  grows : w₀.Grows w
  frame : m.frame = m₀.frame
  callers : m.callers = m₀.callers
  live : m.stack.Live values
  sound : Value.AllSound w values

/-- The instruction has raised a fault. -/
structure Broken (m₀ : Machine) (w₀ : World) (fault : Fault) (m : Machine) : Prop
    extends Kept m₀ m where
  permitted : fault.Permitted m₀.globals.capacity
  settled : ∃ w, w₀.Grows w ∧ m.Settled w

namespace Holding

variable {m₀ m : Machine} {w₀ w : World} {values more : List Value} {v : Value}

theorem broken (h : Holding m₀ w₀ w values m) {fault : Fault}
    (hfault : fault.Permitted m₀.globals.capacity) : Broken m₀ w₀ fault m :=
  { h.toKept with permitted := hfault, settled := ⟨w, h.grows, h.toSettled⟩ }

theorem withStack (h : Holding m₀ w₀ w values m) {stack : Stack} (hlive : stack.Live more)
    (hsound : Value.AllSound w more) (hsize : stack.capacity = m.stack.capacity) :
    Holding m₀ w₀ w more { m with stack } :=
  { h with
    live := hlive
    sound := hsound
    stackSize := hsize.trans h.stackSize }

theorem push (h : Holding m₀ w₀ w values m) (hv : v.Sound w) :
    Leaves (fun _ => Holding m₀ w₀ w (values ++ [v])) (Broken m₀ w₀) (Exec.push v m) := by
  by_cases hroom : values.length < m.stack.capacity
  · rcases h.live.push v hroom with ⟨stack, hpush, hlive, hsize⟩
    have hact : Exec.push v m = .ok () { m with stack } := onStack_of_ok hpush
    rw [hact]
    exact h.withStack hlive (h.sound.append (.single hv)) hsize
  · have hfull := h.live.push_full v (Nat.le_of_not_lt hroom)
    have hact : Exec.push v m = .error (.stackOverflow m.stack.capacity) m := onStack_of_error hfull
    rw [hact]
    exact h.broken trivial

theorem pop (h : Holding m₀ w₀ w (values ++ [v]) m) :
    Leaves (fun a m' => a = v ∧ Holding m₀ w₀ w values m') (Broken m₀ w₀) (Exec.pop m) := by
  rcases h.live.pop with ⟨hpop, hlive⟩
  have hact : Exec.pop m = .ok v { m with stack := { m.stack with height := values.length } } :=
    onStack_of_ok hpop
  rw [hact]
  exact ⟨rfl, h.withStack hlive h.sound.left rfl⟩

theorem popMany (h : Holding m₀ w₀ w (values ++ more) m) :
    Leaves (fun a m' => a = more ∧ Holding m₀ w₀ w values m') (Broken m₀ w₀)
      (Exec.popMany more.length m) := by
  rcases h.live.popMany with ⟨hpop, hlive⟩
  have hact : Exec.popMany more.length m =
      .ok more { m with stack := { m.stack with height := values.length } } := onStack_of_ok hpop
  rw [hact]
  exact ⟨rfl, h.withStack hlive h.sound.left rfl⟩

theorem setHeight (h : Holding m₀ w₀ w values m) {height : Nat} (hheight : height ≤ values.length) :
    Leaves (fun _ => Holding m₀ w₀ w (values.take height)) (Broken m₀ w₀)
      (Exec.onStack (Stack.setHeight height) m) := by
  rw [onStack_of_ok (h.live.setHeight hheight)]
  exact h.withStack (h.live.shrink height hheight)
    (fun u hu => h.sound u (List.mem_of_mem_take hu)) rfl

/-- The serial number that is given out next belongs to the value that is about to be made. -/
theorem fresh (h : Holding m₀ w₀ w values m) (v : Value) :
    Leaves (fun id m' => id = .created w.made.length ∧ Holding m₀ w₀ (w.make v) values m')
      (Broken m₀ w₀) (Exec.fresh m) := by
  refine ⟨by rw [h.made], ?_⟩
  exact
    { h with
      world := ((World.Grows.refl w).make v).sound h.world
      made := by simp [World.make, h.made]
      globals := fun u hu => (h.globals u hu).mono (w.extends_make v)
      grows := h.grows.make v
      sound := h.sound.mono (w.extends_make v) }

theorem print (h : Holding m₀ w₀ w values m) (text : String) :
    Leaves (fun _ => Holding m₀ w₀ w values) (Broken m₀ w₀) (Exec.print text m) :=
  { h with }

theorem ofResult (h : Holding m₀ w₀ w values m) {result : Except Fault Value}
    (hresult : Value.Answers w m₀.globals.capacity result) :
    Leaves (fun a m' => a.Sound w ∧ Holding m₀ w₀ w values m') (Broken m₀ w₀)
      (Exec.ofResult result m) := by
  cases result with
  | ok v => exact ⟨hresult, h⟩
  | error fault => exact h.broken hresult

/-- Assign a global. -/
theorem assign (h : Holding m₀ w₀ w values m) (slot : Nat) (hv : v.Sound w) :
    Leaves (fun _ => Holding m₀ w₀ w values) (Broken m₀ w₀)
      (Exec.onGlobals (Globals.set slot v) m) := by
  have hsize : m.globals.slots.size = m₀.globals.capacity := h.globalsSize
  rw [Exec.onGlobals_apply, Globals.set]
  by_cases hslot : slot < m.globals.slots.size
  · rw [if_pos hslot]
    exact
      { h with
        globals := by
          intro u hu
          rcases Array.mem_or_eq_of_mem_setIfInBounds hu with hu | hu
          · exact h.globals u hu
          · cases hu
            exact hv
        globalsSize := by
          rw [← hsize]
          exact Array.size_setIfInBounds }
  · rw [if_neg hslot]
    exact h.broken ⟨hsize, by omega⟩

end Holding

/-! ## Instructions that stay in their call -/

/-- The topmost values of a stack. -/
theorem exists_top {values : List Value} {k : Nat} (h : k ≤ values.length) :
    ∃ lower upper, values = lower ++ upper ∧ upper.length = k :=
  ⟨values.take (values.length - k), values.drop (values.length - k),
    (List.take_append_drop _ _).symm, by rw [List.length_drop]; omega⟩

/-- The topmost values give way to one. -/
theorem length_gathered (lower upper : List Value) :
    (lower ++ upper).length + 1 - upper.length = lower.length + 1 := by
  rw [List.length_append]
  omega

theorem exists_last {values : List Value} (h : 1 ≤ values.length) :
    ∃ lower v, values = lower ++ [v] := by
  rcases exists_top h with ⟨lower, upper, rfl, hone⟩
  rcases List.length_eq_one_iff.1 hone with ⟨v, rfl⟩
  exact ⟨lower, v, rfl⟩

/-- The instruction is done and there are `count` values on the stack. -/
def Yields (m₀ : Machine) (w₀ : World) (count : Nat) (m : Machine) : Prop :=
  ∃ w values, values.length = count ∧ Holding m₀ w₀ w values m

namespace Holding

variable {m₀ m : Machine} {w₀ w : World} {values more : List Value} {v : Value} {count : Nat}

theorem yields (h : Holding m₀ w₀ w values m) (hcount : values.length = count) :
    Yields m₀ w₀ count m := ⟨w, values, hcount, h⟩

/-- Push the last value that an instruction leaves. -/
theorem pushLast (h : Holding m₀ w₀ w values m) (hv : v.Sound w) :
    Leaves (fun _ => Yields m₀ w₀ (values.length + 1)) (Broken m₀ w₀) (Exec.push v m) := by
  refine (h.push hv).mono ?_ fun _ _ => id
  intro _ m' hm'
  exact hm'.yields (by simp)

theorem pushFrom (h : Holding m₀ w₀ w values m) {part : Machine → Except Fault Value}
    (hpart : Value.Answers w m₀.globals.capacity (part m)) :
    Leaves (fun _ => Yields m₀ w₀ (values.length + 1)) (Broken m₀ w₀) (Exec.pushFrom part m) := by
  show Leaves _ _ ((Exec.ofResult (part m) >>= Exec.push) m)
  refine (h.ofResult hpart).bind ?_
  rintro v m' ⟨hv, hm'⟩
  exact hm'.pushLast hv

theorem popOnly (h : Holding m₀ w₀ w values m) (hone : 1 ≤ values.length) :
    Leaves (fun _ => Yields m₀ w₀ (values.length - 1)) (Broken m₀ w₀)
      ((do let _ ← Exec.pop : Exec Unit) m) := by
  rcases exists_last hone with ⟨lower, v, rfl⟩
  refine h.pop.bind ?_
  rintro _ m₁ ⟨-, h₁⟩
  exact h₁.yields (by simp)

theorem binary (h : Holding m₀ w₀ w values m) (htwo : 2 ≤ values.length)
    {operation : Value → Value → Except Fault Value}
    (hoperation : ∀ left right, left.Sound w →
      Value.Answers w m₀.globals.capacity (operation left right)) :
    Leaves (fun _ => Yields m₀ w₀ (values.length + 1 - 2)) (Broken m₀ w₀)
      (Exec.binary operation m) := by
  rcases exists_top htwo with ⟨lower, upper, rfl, hupper⟩
  rcases List.length_eq_two.1 hupper with ⟨left, right, rfl⟩
  have hboth : Holding m₀ w₀ w (lower ++ [left] ++ [right]) m := by simpa using h
  refine hboth.pop.bind ?_
  rintro right m₁ ⟨rfl, h₁⟩
  refine h₁.pop.bind ?_
  rintro left m₂ ⟨rfl, h₂⟩
  refine (h₂.ofResult (hoperation _ _ (h₁.sound.right _ (by simp)))).bind ?_
  rintro v m₃ ⟨hv, h₃⟩
  have hcount : (lower ++ [left, right]).length + 1 - 2 = lower.length + 1 := by simp
  rw [hcount]
  exact h₃.pushLast hv

theorem unary (h : Holding m₀ w₀ w values m) (hone : 1 ≤ values.length)
    {operation : Value → Except Fault Value}
    (hoperation : ∀ operand, Value.Answers w m₀.globals.capacity (operation operand)) :
    Leaves (fun _ => Yields m₀ w₀ (values.length + 1 - 1)) (Broken m₀ w₀)
      (Exec.unary operation m) := by
  rcases exists_last hone with ⟨lower, operand, rfl⟩
  refine h.pop.bind ?_
  rintro operand m₁ ⟨rfl, h₁⟩
  refine (h₁.ofResult (hoperation _)).bind ?_
  rintro v m₂ ⟨hv, h₂⟩
  have hcount : (lower ++ [operand]).length + 1 - 1 = lower.length + 1 := by simp
  rw [hcount]
  exact h₂.pushLast hv

theorem makeArray (h : Holding m₀ w₀ w values m) (hcount : count ≤ values.length) :
    Leaves (fun _ => Yields m₀ w₀ (values.length + 1 - count)) (Broken m₀ w₀)
      (Exec.makeArray count m) := by
  rcases exists_top hcount with ⟨lower, upper, rfl, rfl⟩
  rw [length_gathered]
  refine h.popMany.bind ?_
  rintro elements m₁ ⟨rfl, h₁⟩
  refine (h₁.fresh (.array (.created w.made.length) elements.toArray)).bind ?_
  rintro _ m₂ ⟨rfl, h₂⟩
  refine h₂.pushLast (.array (w.made_make _) ?_)
  intro u hu
  exact (h.sound.right u (by simpa using hu)).mono (w.extends_make _)

theorem makeHash (h : Holding m₀ w₀ w values m) (hcount : count ≤ values.length) :
    Leaves (fun _ => Yields m₀ w₀ (values.length + 1 - count)) (Broken m₀ w₀)
      (Exec.makeHash count m) := by
  rcases exists_top hcount with ⟨lower, upper, rfl, rfl⟩
  rw [length_gathered]
  refine h.popMany.bind ?_
  rintro pairs m₁ ⟨rfl, h₁⟩
  have hentries := Value.addEntries_sound m₀.globals.capacity
    (List.forall_mem_nil fun entry : Key × Value => entry.2.Sound w) h.sound.right
  cases hresult : Value.addEntries [] pairs with
  | error fault =>
      rw [hresult] at hentries
      exact h₁.broken hentries
  | ok entries =>
      rw [hresult] at hentries
      show Leaves _ _ ((Exec.fresh >>= fun id => Exec.push (.hash id entries)) m₁)
      refine (h₁.fresh (.hash (.created w.made.length) entries)).bind ?_
      rintro _ m₂ ⟨rfl, h₂⟩
      refine h₂.pushLast (.hash (w.made_make _) ?_)
      intro entry hentry
      exact (hentries entry hentry).mono (w.extends_make _)

theorem makeClosure (h : Holding m₀ w₀ w values m) (hcount : count ≤ values.length) {index : Nat}
    (hfits : ∃ id body, w.pool[index]? = some (.function id body) ∧
      freeCount body.code.instrs ≤ count) :
    Leaves (fun _ => Yields m₀ w₀ (values.length + 1 - count)) (Broken m₀ w₀)
      (Exec.makeClosure index count m) := by
  rcases hfits with ⟨id, body, hpool, hfree⟩
  rcases exists_top hcount with ⟨lower, upper, rfl, rfl⟩
  have hget : m.constants[index]? = some (.function id body) := by
    rw [← Array.getElem?_toList, h.pool, hpool]
  obtain ⟨rfl, -⟩ := h.world.function hpool
  rw [length_gathered, Exec.makeClosure_of_function upper.length hget]
  refine h.popMany.bind ?_
  rintro free m₁ ⟨rfl, h₁⟩
  refine (h₁.fresh (.closure (.created w.made.length) body free)).bind ?_
  rintro _ m₂ ⟨rfl, h₂⟩
  refine h₂.pushLast (.closure (w.made_make _) hpool hfree ?_)
  exact h.sound.right.mono (w.extends_make _)

theorem setGlobal (h : Holding m₀ w₀ w values m) (hone : 1 ≤ values.length) (slot : Nat) :
    Leaves (fun _ => Yields m₀ w₀ (values.length - 1)) (Broken m₀ w₀) (Exec.setGlobal slot m) := by
  rcases exists_last hone with ⟨lower, v, rfl⟩
  refine h.pop.bind ?_
  rintro _ m₁ ⟨rfl, h₁⟩
  refine (h₁.assign slot (h.sound.right _ (by simp))).mono ?_ fun _ _ => id
  intro _ m₂ h₂
  exact h₂.yields (by simp)

theorem setLocal (h : Holding m₀ w₀ w values m) {slot : Nat}
    (hslot : m₀.frame.base + slot + 1 < values.length) :
    Leaves (fun _ => Yields m₀ w₀ (values.length - 1)) (Broken m₀ w₀) (Exec.setLocal slot m) := by
  rcases exists_last (Nat.lt_of_le_of_lt (Nat.zero_le _) hslot) with ⟨lower, v, rfl⟩
  refine h.pop.bind ?_
  rintro v m₁ ⟨rfl, h₁⟩
  have hlower : m₁.frame.base + slot < lower.length := by
    rw [List.length_append, List.length_singleton] at hslot
    rw [h₁.frame]
    omega
  rcases h₁.live.set v hlower with ⟨stack, hset, hlive, hsize, -⟩
  have hact : Exec.onStack (Stack.set (m₁.frame.base + slot) v) m₁ = .ok () { m₁ with stack } :=
    onStack_of_ok hset
  show Leaves _ _ (Exec.onStack (Stack.set (m₁.frame.base + slot) v) m₁)
  rw [hact]
  refine (h₁.withStack hlive ?_ hsize).yields (by simp)
  intro u hu
  rcases List.mem_or_eq_of_mem_set hu with hu | rfl
  · exact h₁.sound u hu
  · exact h.sound.right u (by simp)

end Holding

/-! ## The parts that instructions push -/

section Parts

variable {w : World} {m : Machine} {capacity : Nat}

theorem Settled.constant (h : m.Settled w) {op : Opcode} {n : Nat}
    (hfits : ∃ v, w.pool[n]? = some v ∧ v.freeCount = 0) :
    Value.Answers w capacity (Exec.orFault (.operandOutOfRange op n) m.constants[n]?) := by
  rcases hfits with ⟨v, hget, hfree⟩
  rw [← Array.getElem?_toList, h.pool, hget]
  exact h.world.constant hget hfree

theorem Settled.global (h : m.Settled w) (slot : Nat) :
    Value.Answers w m.globals.capacity (m.globals.get slot) := by
  unfold Globals.get
  split
  · rename_i v hget
    exact h.globals v (Array.mem_of_getElem? hget)
  · trivial
  · rename_i hget
    exact ⟨rfl, Array.getElem?_eq_none_iff.1 hget⟩

theorem Holding.local {m₀ : Machine} {w₀ : World} {values : List Value}
    (h : Holding m₀ w₀ w values m) {n : Nat} (hn : m₀.frame.base + n < values.length) :
    Value.Answers w capacity
      (Exec.orFault (.stackOverflow m.stack.capacity) (m.stack.get? (m.frame.base + n))) := by
  have hget := List.getElem?_eq_getElem hn
  rw [h.frame, h.live.get? hget]
  exact h.sound _ (List.getElem_mem hn)

theorem builtin_answers {op : Opcode} {n : Nat} (hn : n < Builtin.all.length) :
    Value.Answers w capacity
      (Exec.orFault (.operandOutOfRange op n) ((Builtin.ofIndex? n).map .builtin)) := by
  unfold Builtin.ofIndex?
  rw [List.getElem?_eq_getElem hn]
  exact .builtin _

theorem captured_answers {op : Opcode} {n : Nat} {free : List Value} (hn : n < free.length)
    (hfree : Value.AllSound w free) :
    Value.Answers w capacity (Exec.orFault (.operandOutOfRange op n) free[n]?) := by
  rw [List.getElem?_eq_getElem hn]
  exact hfree _ (List.getElem_mem hn)

end Parts

theorem goOn_leaves {act : Exec Unit} {m m₀ : Machine} {w₀ : World} {ok : Machine → Prop}
    (h : Leaves (fun _ => ok) (Broken m₀ w₀) (act m)) :
    Leaves (fun progress m' => progress = .running ∧ ok m') (Broken m₀ w₀) (Exec.goOn act m) := by
  refine h.bind ?_
  intro _ m' hm'
  exact ⟨rfl, hm'⟩

/-- The instructions that may leave the order of the text. -/
def control : List Opcode := [.jump, .jumpNotTruthy, .call, .returnValue, .returnNull]

/-- An instruction that only works on the values of its own call. -/
theorem Holding.ordinary {m : Machine} {w : World} {values : List Value} {i : Instr}
    {locals : Option Nat} {free : Nat} (h : Holding m w w values m) (hrole : m.frame.Role w locals)
    (hfree : free ≤ m.frame.free.length) (hvalid : i.Valid)
    (hfits : i.Fits ⟨w.pool, w.globals, locals, free⟩)
    (hneeds : m.frame.base + m.frame.body.numLocals + i.needs ≤ values.length)
    (hop : i.op ∉ control) :
    Leaves
      (fun progress m' => progress = .running ∧ Yields m w (values.length + i.gives - i.needs) m')
      (Broken m w) (Exec.execute i.op (i.operands.getD 0 0) (i.operands.getD 1 0) m) := by
  obtain ⟨op, operands⟩ := i
  have hlength : operands.length = op.widths.length := (List.Forall₂.length_eq hvalid).symm
  have hcount : (Instr.mk op operands).needs ≤ values.length := by omega
  cases op with
  | constant =>
      rcases List.length_eq_one_iff.1 hlength with ⟨n, rfl⟩
      exact goOn_leaves (h.pushFrom (h.constant hfits))
  | pop => exact goOn_leaves (h.popOnly hcount)
  | add | sub | mul | div =>
      exact goOn_leaves (h.binary hcount fun _ _ _ => Value.arithmetic_answers _ _ _)
  | pushTrue => exact goOn_leaves (h.pushLast (.bool true))
  | pushFalse => exact goOn_leaves (h.pushLast (.bool false))
  | equal | notEqual | greaterThan =>
      exact goOn_leaves (h.binary hcount fun _ _ _ => Value.comparison_answers _ _ _)
  | minus => exact goOn_leaves (h.unary hcount fun _ => Value.negation_answers _)
  | bang => exact goOn_leaves (h.unary hcount fun _ => Value.inversion_answers _)
  | pushNull => exact goOn_leaves (h.pushLast .null)
  | setGlobal => exact goOn_leaves (h.setGlobal hcount _)
  | getGlobal => exact goOn_leaves (h.pushFrom (h.global _))
  | array => exact goOn_leaves (h.makeArray hcount)
  | hash => exact goOn_leaves (h.makeHash hcount)
  | index =>
      exact goOn_leaves (h.binary hcount fun _ _ hleft => Value.indexing_answers hleft _)
  | setLocal =>
      rcases List.length_eq_one_iff.1 hlength with ⟨n, rfl⟩
      rcases hfits with ⟨count, hlocals, hn⟩
      have hnumber := hrole.locals_eq hlocals
      have hone : (Instr.mk .setLocal [n]).needs = 1 := rfl
      refine goOn_leaves (h.setLocal ?_)
      show m.frame.base + n + 1 < _
      omega
  | getLocal =>
      rcases List.length_eq_one_iff.1 hlength with ⟨n, rfl⟩
      rcases hfits with ⟨count, hlocals, hn⟩
      have hnumber := hrole.locals_eq hlocals
      have hslot : m.frame.base + n < values.length := by omega
      exact goOn_leaves (h.pushFrom (h.local hslot))
  | getBuiltin =>
      rcases List.length_eq_one_iff.1 hlength with ⟨n, rfl⟩
      exact goOn_leaves (h.pushFrom (builtin_answers hfits))
  | closure =>
      rcases List.length_eq_two.1 hlength with ⟨n, count, rfl⟩
      exact goOn_leaves (h.makeClosure hcount hfits.2)
  | getFree =>
      rcases List.length_eq_one_iff.1 hlength with ⟨n, rfl⟩
      have hn : n < m.frame.free.length := Nat.lt_of_lt_of_le hfits hfree
      exact goOn_leaves (h.pushFrom (captured_answers hn hrole.captured))
  | currentClosure => exact goOn_leaves (h.pushFrom (hrole.closure hfits))
  | jump | jumpNotTruthy | call | returnValue | returnNull => simp [control] at hop

/-! ## From one instruction to the next -/

/-- How a step changes the calls in progress. -/
inductive Moves (m m' : Machine) : Prop
  /-- The running call goes on. -/
  | on {target : Nat} (hlt : m.frame.ip < target)
      (hframe : m'.frame = { m.frame with ip := target }) (hcallers : m'.callers = m.callers)
  /-- A new call is started. -/
  | into {target : Nat} (hlt : m.frame.ip < target) (hstart : m'.frame.ip = 0)
      (hcallers : m'.callers = m.callers.push { m.frame with ip := target })
      (hlimit : m.callers.size + 2 ≤ m.maxFrames)
  /-- The running call returns. -/
  | out (hcallers : m.callers = m'.callers.push m'.frame)

/-- A step after which the run goes on. -/
structure Runs (m : Machine) (w : World) (m' : Machine) : Prop where
  kept : m.Kept m'
  moves : m.Moves m'
  sound : ∃ w', w.Grows w' ∧ m'.Sound w'

/-- A step that ends the run. -/
structure Stops (m : Machine) (w : World) (m' : Machine) : Prop where
  kept : m.Kept m'
  callers : m.callers = #[]
  settled : ∃ w', w.Grows w' ∧ m'.Settled w'

/-- What a step leaves, unless it raises a fault. -/
def Steps (m : Machine) (w : World) : Progress → Machine → Prop
  | .running => Runs m w
  | .finished => Stops m w

/-- The machine is about to execute `i`. -/
structure About (w : World) (m : Machine) (values : List Value) (pre : List Instr) (i : Instr)
    (post : List Instr) : Prop extends Settled w m where
  live : m.stack.Live values
  sound : Value.AllSound w values
  calls : Calls w m.frame m.callers.toList.reverse values.length
  instrs : m.frame.code.instrs = pre ++ i :: post
  ip : m.frame.ip = codeSize pre
  height : (values.length : Int) = m.frame.base + m.frame.body.numLocals + depth pre
  code : ∃ locals free, m.frame.Role w locals ∧ free ≤ m.frame.free.length ∧
    m.frame.code.Sound ⟨w.pool, w.globals, locals, free⟩
  /-- The last instruction of a function is a return. -/
  last : m.callers ≠ #[] → post = [] → i.op = .returnValue ∨ i.op = .returnNull

theorem Kept.refl (m : Machine) : m.Kept m := ⟨rfl, rfl, rfl, rfl⟩

theorem Kept.trans {m m' m'' : Machine} (h : m.Kept m') (h' : m'.Kept m'') : m.Kept m'' :=
  ⟨h'.constants.trans h.constants, h'.maxFrames.trans h.maxFrames,
    h'.stackSize.trans h.stackSize, h'.globalsSize.trans h.globalsSize⟩

/-- A machine between two instructions has come to the end, or to an instruction. -/
theorem Sound.about {w : World} {m : Machine} (h : m.Sound w) :
    (m.callers = #[] ∧ m.frame.code.size ≤ m.frame.ip) ∨
      ∃ values pre i post, m.About w values pre i post := by
  rcases h.stack with ⟨values, hlive, hvalues, hcalls⟩
  rcases hcalls.current with ⟨locals, pre, post, hrole, hat, hpost, hnone, hheight⟩
  rcases hrole.code h.world with ⟨free, hfree, hcode⟩
  cases post with
  | nil =>
      left
      constructor
      · by_contra hcallers
        exact hpost (by simpa using hcallers) rfl
      · rw [hcode.size_eq, hat.ip, hat.instrs, List.append_nil]
  | cons i post =>
      refine .inr ⟨values, pre, i, post, ?_⟩
      exact
        { h.toSettled with
          live := hlive
          sound := hvalues
          calls := hcalls
          instrs := hat.instrs
          ip := hat.ip
          height := hheight
          code := ⟨locals, free, hrole, hfree, hcode⟩
          last := by
            rintro hcallers rfl
            -- Only the call of a function has callers.
            cases hrole with
            | program => exact absurd (by simpa using hnone.2 rfl) hcallers
            | function hclosure =>
                rcases hclosure.of_closure with ⟨_, _, -, -, hpool, -, -⟩
                rcases (h.world.function hpool).2.ends with ⟨init, op, hinit, hop⟩
                have hsame : init ++ [⟨op, []⟩] = pre ++ [i] := hinit.symm.trans hat.instrs
                obtain rfl : ⟨op, []⟩ = i := by simpa using (List.append_inj' hsame rfl).2
                exact hop }

theorem Broken.of_jump {m m' : Machine} {w : World} {target : Nat} {fault : Fault}
    (h : Broken (m.jump target) w fault m') : Broken m w fault m' := { h with }

theorem Holding.jump {m₀ m : Machine} {w₀ w : World} {values : List Value}
    (h : Holding m₀ w₀ w values m) (target : Nat) :
    Holding (m₀.jump target) w₀ w values (m.jump target) :=
  { h with frame := by show { m.frame with ip := target } = { m₀.frame with ip := target }; rw [h.frame] }

namespace About

variable {w : World} {m : Machine} {values : List Value} {pre post : List Instr} {i : Instr}

theorem holding (h : m.About w values pre i post) (target : Nat) :
    Holding (m.jump target) w w values (m.jump target) :=
  { h.toSettled, Kept.refl m with
    grows := .refl w
    frame := rfl
    callers := rfl
    live := h.live
    sound := h.sound }

theorem valid (h : m.About w values pre i post) : i.Valid := by
  rcases h.code with ⟨_, _, -, -, hcode⟩
  exact hcode.valid i (by simp [h.instrs])

theorem needs (h : m.About w values pre i post) :
    m.frame.base + m.frame.body.numLocals + i.needs ≤ values.length := by
  rcases h.code with ⟨_, _, -, -, hcode⟩
  have hneeds := hcode.structured.needs pre i post h.instrs
  have hheight := h.height
  omega

/-- The machine executes the instruction, with the pointer already behind it. -/
theorem step (h : m.About w values pre i post) :
    Exec.step m = Exec.execute i.op (i.operands.getD 0 0) (i.operands.getD 1 0)
      (m.jump (codeSize (pre ++ [i]))) := by
  rcases h.code with ⟨_, _, -, -, hcode⟩
  have hholds : m.frame.code.Holds 0 (pre ++ i :: post) := by
    rw [← h.instrs]
    exact .of_assemble hcode.valid hcode.complete
  have hright := hholds.right
  rw [Nat.zero_add, ← h.ip] at hright
  rw [Exec.step_of_holds hright, h.ip]
  simp

/-- The depth behind the instruction. -/
theorem next_height (h : m.About w values pre i post) :
    ((values.length + i.gives - i.needs : Nat) : Int) =
      m.frame.base + m.frame.body.numLocals + depth (pre ++ [i]) := by
  have hneeds := h.needs
  have hheight := h.height
  have heffect : i.effect = i.gives - i.needs := rfl
  simp only [depth_append, depth_cons, depth_nil]
  omega

theorem next_size (i : Instr) (pre : List Instr) : codeSize pre < codeSize (pre ++ [i]) := by
  have hpos := i.size_pos
  simp only [codeSize_append, codeSize_cons, codeSize_nil]
  omega

/-- The running call comes to another point of its code. -/
theorem arrive (h : m.About w values pre i post) {w' : World} {values' : List Value}
    {pre' post' : List Instr} {m' : Machine}
    (hm : Holding (m.jump (codeSize pre')) w w' values' m')
    (hinstrs : m.frame.code.instrs = pre' ++ post') (hpost : m.callers ≠ #[] → post' ≠ [])
    (hheight : (values'.length : Int) = m.frame.base + m.frame.body.numLocals + depth pre')
    (hlt : codeSize pre < codeSize pre') : Runs m w m' := by
  have hframe : m'.frame = { m.frame with ip := codeSize pre' } := hm.frame
  have hcallers : m'.callers = m.callers := hm.callers
  refine ⟨{ hm.toKept with }, .on (h.ip ▸ hlt) hframe hcallers, w', hm.grows, ?_⟩
  refine { hm.toSettled with stack := ⟨values', hm.live, hm.sound, ?_⟩ }
  rw [hframe, hcallers]
  refine (h.calls.mono hm.grows.toExtends).move hinstrs ?_ hheight
  intro hne
  exact hpost (by simpa using hne)

/-- The running call comes to the next instruction. -/
theorem arrive_next (h : m.About w values pre i post) {m' : Machine}
    (hm : Yields (m.jump (codeSize (pre ++ [i]))) w (values.length + i.gives - i.needs) m')
    (hop : ¬ (i.op = .returnValue ∨ i.op = .returnNull)) : Runs m w m' := by
  rcases hm with ⟨w', values', hlength, hm⟩
  have hinstrs : m.frame.code.instrs = pre ++ [i] ++ post := by
    rw [h.instrs]
    simp
  refine h.arrive hm hinstrs ?_ ?_ (next_size i pre)
  · intro hcallers hpost
    exact hop (h.last hcallers hpost)
  · rw [hlength]
    exact h.next_height

theorem ordinary (h : m.About w values pre i post) (hop : i.op ∉ control) :
    Leaves (fun progress m' => progress = .running ∧ Runs m w m') (Broken m w) (Exec.step m) := by
  rcases h.code with ⟨locals, free, hrole, hfree, hcode⟩
  have hfits := hcode.fits i (by simp [h.instrs])
  rw [h.step]
  have hordinary := (h.holding (codeSize (pre ++ [i]))).ordinary (hrole.jump _) hfree h.valid hfits
    h.needs hop
  refine hordinary.mono ?_ fun _ _ => Broken.of_jump
  rintro progress m' ⟨hprogress, hm'⟩
  refine ⟨hprogress, h.arrive_next hm' ?_⟩
  rintro (hreturn | hreturn)
  · exact hop (by simp [control, hreturn])
  · exact hop (by simp [control, hreturn])

/-! ## Jumps -/

/-- A jump that is taken leads to an instruction further on. -/
theorem arrive_target (h : m.About w values pre i post) {target : Nat}
    (htarget : i.target? = some target) {w' : World} {values' : List Value} {m' : Machine}
    (hm : Holding (m.jump target) w w' values' m')
    (hheight : (values'.length : Int) =
      m.frame.base + m.frame.body.numLocals + (depth pre + i.jumpEffect)) : Runs m w m' := by
  rcases h.code with ⟨_, _, -, -, hcode⟩
  rcases hcode.structured.lands hcode.depth h.instrs htarget with
    ⟨pre', i', post', hinstrs, rfl, hforward, hdepth⟩
  rw [Nat.zero_add] at hm
  refine h.arrive hm hinstrs (fun _ => List.cons_ne_nil _ _) ?_ ?_
  · rw [hdepth]
    exact hheight
  · exact Nat.lt_of_lt_of_le (next_size i pre) hforward

theorem jump (h : m.About w values pre i post) (hop : i.op = .jump) :
    Leaves (fun progress m' => progress = .running ∧ Runs m w m') (Broken m w) (Exec.step m) := by
  obtain ⟨op, operands⟩ := i
  obtain rfl : op = .jump := hop
  obtain ⟨target, rfl⟩ : ∃ n, operands = [n] :=
    List.length_eq_one_iff.1 (List.Forall₂.length_eq h.valid).symm
  rw [h.step]
  refine ⟨rfl, ?_⟩
  refine h.arrive_target rfl (h.holding target) ?_
  have heffect : (Instr.mk .jump [target]).jumpEffect = 0 := rfl
  rw [heffect, Int.add_zero]
  exact h.height

theorem jumpNotTruthy (h : m.About w values pre i post) (hop : i.op = .jumpNotTruthy) :
    Leaves (fun progress m' => progress = .running ∧ Runs m w m') (Broken m w) (Exec.step m) := by
  obtain ⟨op, operands⟩ := i
  obtain rfl : op = .jumpNotTruthy := hop
  obtain ⟨target, rfl⟩ : ∃ n, operands = [n] :=
    List.length_eq_one_iff.1 (List.Forall₂.length_eq h.valid).symm
  have hneeds := h.needs
  have hone : (Instr.mk .jumpNotTruthy [target]).needs = 1 := rfl
  rcases exists_last (show 1 ≤ values.length by omega) with ⟨lower, v, rfl⟩
  rw [h.step]
  refine Leaves.mono (goOn_leaves ((h.holding _).pop.bind ?_)) (fun _ _ => id)
    fun _ _ => Broken.of_jump
  rintro v m' ⟨rfl, hm'⟩
  -- Either way the tested value is gone; only the place where to go on differs.
  by_cases htruthy : v.truthy = true
  · rw [if_pos htruthy]
    exact h.arrive_next (hm'.yields (by simp [hone, Instr.gives])) (by simp)
  · rw [if_neg htruthy]
    refine h.arrive_target rfl (hm'.jump target) ?_
    have hheight := h.height
    have heffect : (Instr.mk .jumpNotTruthy [target]).jumpEffect = -1 := rfl
    rw [List.length_append, List.length_singleton] at hheight
    omega

end About

/-! ## Calls -/

/-- A call of a closure has been started, with its arguments from slot `start` on. -/
structure Entered (m₀ : Machine) (w₀ : World) (start : Nat) (m : Machine) : Prop
    extends Kept m₀ m where
  limit : m₀.callers.size + 2 ≤ m₀.maxFrames
  callers : m.callers = m₀.callers.push m₀.frame
  ip : m.frame.ip = 0
  base : m.frame.base = start
  held : ∃ w values, w₀.Grows w ∧ m.Settled w ∧ m.frame.closure.Sound w ∧ m.stack.Live values ∧
    Value.AllSound w values ∧ values.length = start + m.frame.body.numLocals

namespace Holding

variable {m₀ m : Machine} {w₀ w : World} {values args : List Value}

theorem enterBody (h : Holding m₀ w₀ w (values ++ args) m) {id : Identity} {body : Function}
    {free : List Value} (hclosure : (Value.closure id body free).Sound w) :
    Leaves (fun _ => Entered m₀ w₀ values.length) (Broken m₀ w₀)
      (Exec.enterBody id body free args.length values.length m) := by
  -- The checks in the order in which they are made: arguments, depth of calls, stack.
  by_cases hcount : args.length = body.numParams
  · by_cases hlimit : m.callers.size + 2 ≤ m.maxFrames
    · rcases hclosure.of_closure with ⟨_, _, -, -, hpool, -, -⟩
      have hparams : body.numParams ≤ body.numLocals := (h.world.function hpool).2.params
      have hlength : (values ++ args).length = values.length + args.length := List.length_append
      have htotal : (values ++ args).length + (body.numLocals - args.length) =
          values.length + body.numLocals := by omega
      by_cases hroom : (values ++ args).length + (body.numLocals - args.length) ≤ m.stack.capacity
      · rcases h.live.reserve hroom with ⟨stack, hreserve, hlive, hsize⟩
        rw [htotal, hlength] at hreserve
        rw [Exec.enterBody_of_ok id free values.length hcount hlimit hreserve]
        have hlimit' : m₀.callers.size + 2 ≤ m₀.maxFrames := by
          rw [← h.callers, ← h.maxFrames]
          exact hlimit
        refine
          { h.toKept with
            stackSize := hsize.trans h.stackSize
            limit := hlimit'
            callers := by show m.callers.push m.frame = _; rw [h.callers, h.frame]
            ip := rfl
            base := rfl
            held := ⟨w, _, h.grows, { h.toSettled with }, hclosure, hlive, ?_, ?_⟩ }
        -- The cells beyond the arguments hold null.
        · refine h.sound.append ?_
          intro u hu
          rw [List.eq_of_mem_replicate hu]
          exact .null
        · rw [List.length_append, List.length_replicate]
          exact htotal
      · rcases h.live.reserve_full (Nat.lt_of_not_le hroom) with ⟨stack, hreserve, hsize⟩
        rw [hlength] at hreserve
        rw [Exec.enterBody_of_full id free values.length hcount hlimit hreserve]
        exact
          { h.toKept with
            stackSize := hsize.trans h.stackSize
            permitted := trivial
            settled := ⟨w, h.grows, { h.toSettled with }⟩ }
    · rw [Exec.enterBody_of_limit id free values.length hcount hlimit]
      exact h.broken trivial
  · rw [Exec.enterBody_of_count id free values.length hcount]
    exact h.broken trivial

theorem callBuiltin (h : Holding m₀ w₀ w (values ++ args) m) (b : Builtin) :
    Leaves (fun _ => Yields m₀ w₀ (values.length + 1)) (Broken m₀ w₀)
      (Exec.callBuiltin b values.length m) := by
  have hargs : m.stack.liveFrom values.length = args := by
    rw [h.live.liveFrom, List.drop_left]
  rw [Exec.callBuiltin_eq, hargs]
  -- The number given out belongs to the new array, if there is one.
  have hanswer := b.apply_answers (.created w.made.length) h.sound.right
  obtain ⟨made, hmade⟩ : ∃ made, ∀ v, b.apply (.created w.made.length) args = .ok v →
      v.Sound (w.make made) := by
    cases hresult : b.apply (.created w.made.length) args with
    | error cause => exact ⟨.null, nofun⟩
    | ok v =>
        rw [hresult] at hanswer
        rcases hanswer with hv | ⟨elements, rfl, helements⟩
        · refine ⟨.null, ?_⟩
          rintro _ ⟨rfl⟩
          exact hv.mono (w.extends_make _)
        · refine ⟨.array (.created w.made.length) elements, ?_⟩
          rintro _ ⟨rfl⟩
          exact .array (w.made_make _) fun u hu => (helements u hu).mono (w.extends_make _)
  refine (h.fresh made).bind ?_
  rintro _ m₁ ⟨rfl, h₁⟩
  refine (h₁.print _).bind ?_
  intro _ m₂ h₂
  cases hresult : b.apply (.created w.made.length) args with
  | error cause => exact h₂.broken trivial
  | ok v =>
      show Leaves _ _ ((Exec.onStack (Stack.setHeight values.length) >>= fun _ => Exec.push v) m₂)
      refine (h₂.setHeight (show values.length ≤ (values ++ args).length by simp)).bind ?_
      intro _ m₃ h₃
      rw [List.take_left] at h₃
      exact h₃.pushLast (hmade v hresult)

theorem call {callee : Value} (h : Holding m₀ w₀ w (values ++ args ++ [callee]) m) :
    Leaves (fun _ m' => Yields m₀ w₀ (values.length + 1) m' ∨ Entered m₀ w₀ values.length m')
      (Broken m₀ w₀) (Exec.call args.length m) := by
  refine h.pop.bind ?_
  rintro callee m₁ ⟨rfl, h₁⟩
  have hbelow := h₁.live.below (show args.length ≤ (values ++ args).length by simp)
  rw [show (values ++ args).length - args.length = values.length by simp] at hbelow
  rw [act_bind_of_ok (onStack_of_ok hbelow)]
  have hcallee : callee.Sound w := h.sound.right callee (by simp)
  cases callee with
  | closure self body free => exact (h₁.enterBody hcallee).mono (fun _ _ => .inr) fun _ _ => id
  | function self body =>
      cases hcallee with
      | @function index _ hpool hfree =>
          -- The call wraps the function in a closure of its own.
          refine (h₁.fresh (.closure (.created w.made.length) body [])).bind ?_
          rintro _ m₂ ⟨rfl, h₂⟩
          have hclosure : (Value.closure (.created w.made.length) body []).Sound
              (w.make (.closure (.created w.made.length) body [])) :=
            .closure (w.made_make _) hpool (Nat.le_of_eq hfree) (List.forall_mem_nil _)
          exact (h₂.enterBody hclosure).mono (fun _ _ => .inr) fun _ _ => id
  | builtin b => exact (h₁.callBuiltin b).mono (fun _ _ => .inl) fun _ _ => id
  | _ => exact h₁.broken trivial

end Holding

namespace About

variable {w : World} {m : Machine} {values : List Value} {pre post : List Instr} {i : Instr}

/-- A call has been started from the running one. -/
theorem arrive_entered (h : m.About w values pre i post) {start : Nat} {m' : Machine}
    (hm : Entered (m.jump (codeSize (pre ++ [i]))) w start m')
    (hstart : start + 1 = values.length + i.gives - i.needs)
    (hop : ¬ (i.op = .returnValue ∨ i.op = .returnNull)) : Runs m w m' := by
  have hcallers : m'.callers = m.callers.push { m.frame with ip := codeSize (pre ++ [i]) } :=
    hm.callers
  have hlt : m.frame.ip < codeSize (pre ++ [i]) := by
    rw [h.ip]
    exact next_size i pre
  rcases hm.held with ⟨w', values', hgrows, hsettled, hclosure, hlive, hsound, hlength⟩
  refine ⟨{ hm.toKept with }, .into hlt hm.ip hcallers hm.limit, w', hgrows, ?_⟩
  refine { hsettled with stack := ⟨values', hlive, hsound, ?_⟩ }
  have hreverse : m'.callers.toList.reverse =
      { m.frame with ip := codeSize (pre ++ [i]) } :: m.callers.toList.reverse := by
    rw [hcallers]
    simp
  rw [hreverse]
  have hinstrs : m.frame.code.instrs = pre ++ [i] ++ post := by
    rw [h.instrs]
    simp
  -- The caller waits behind the call, where it has one value more.
  have hcaller : Calls w' { m.frame with ip := codeSize (pre ++ [i]) } m.callers.toList.reverse
      (m'.frame.base + 1) := by
    rw [hm.base]
    refine (h.calls.mono hgrows.toExtends).move hinstrs ?_ ?_
    · intro hne hpost
      exact hop (h.last (by simpa using hne) hpost)
    · rw [hstart]
      exact h.next_height
  rcases hclosure.of_closure with ⟨_, _, -, -, hpool, -, -⟩
  rcases (hsettled.world.function hpool).2.ends with ⟨init, op, hinit, -⟩
  have hat : m'.frame.At [] m'.frame.code.instrs := ⟨rfl, hm.ip⟩
  refine .function (.function hclosure) hat ?_ ?_ hcaller
  · show m'.frame.body.code.instrs ≠ []
    rw [hinit]
    simp
  · rw [hlength, hm.base]
    simp

theorem call (h : m.About w values pre i post) (hop : i.op = .call) :
    Leaves (fun progress m' => progress = .running ∧ Runs m w m') (Broken m w) (Exec.step m) := by
  obtain ⟨op, operands⟩ := i
  obtain rfl : op = .call := hop
  obtain ⟨argc, rfl⟩ : ∃ n, operands = [n] :=
    List.length_eq_one_iff.1 (List.Forall₂.length_eq h.valid).symm
  have hneeds := h.needs
  have hcount : (Instr.mk .call [argc]).needs = argc + 1 := rfl
  have hgives : (Instr.mk .call [argc]).gives = 1 := rfl
  rcases exists_last (show 1 ≤ values.length by omega) with ⟨below, callee, rfl⟩
  rw [List.length_append, List.length_singleton] at hneeds
  rcases exists_top (show argc ≤ below.length by omega) with ⟨lower, args, rfl, rfl⟩
  have hlength : lower.length + 1 = (lower ++ args ++ [callee]).length +
      (Instr.mk .call [args.length]).gives - (Instr.mk .call [args.length]).needs := by
    simp only [hgives, hcount, List.length_append, List.length_singleton]
    omega
  rw [h.step]
  refine (goOn_leaves (h.holding _).call).mono ?_ fun _ _ => Broken.of_jump
  -- A builtin has answered, or a body has been entered.
  rintro progress m' ⟨hprogress, hm' | hm'⟩
  · refine ⟨hprogress, h.arrive_next ?_ (by simp)⟩
    rw [← hlength]
    exact hm'
  · exact ⟨hprogress, h.arrive_entered hm' hlength (by simp)⟩

/-! ## Returns -/

/-- The program itself is left with a result: the machine stops. -/
theorem leaveBody_last {lower : List Value} {m₁ : Machine} {result : Value} {next : Nat}
    (hm : Holding (m.jump next) w w lower m₁) (hresult : result.Sound w)
    (hcallers : m.callers = #[]) :
    Leaves (Steps m w) (Broken m w) (Exec.leaveBody result m₁) := by
  have hlast : m₁.callers = #[] := hm.callers.trans hcallers
  have hends : Leaves (Steps m w) (Broken (m.jump next) w) (Exec.leaveBody result m₁) := by
    rw [Exec.leaveBody_of_last result hlast]
    refine (hm.push hresult).bind ?_
    intro _ m₂ h₂
    refine h₂.pop.bind ?_
    rintro _ m₃ ⟨-, h₃⟩
    exact ⟨{ h₃.toKept with }, hcallers, w, .refl w, h₃.toSettled⟩
  exact hends.mono (fun _ _ => id) fun _ _ => Broken.of_jump

/-- The running call is left with a result, and its caller goes on. -/
theorem leaveBody_back (h : m.About w values pre i post) {lower : List Value} {m₁ : Machine}
    {result : Value} (hm : Holding (m.jump (codeSize (pre ++ [i]))) w w lower m₁)
    (hresult : result.Sound w) (hbase : m.frame.base ≤ lower.length) {callers : Array Frame}
    {caller : Frame} (hpush : m.callers = callers.push caller) :
    Leaves (Steps m w) (Broken m w) (Exec.leaveBody result m₁) := by
  have hcalls := h.calls
  rw [hpush, Array.toList_push, List.reverse_concat] at hcalls
  have hpush₁ : m₁.callers = callers.push caller := hm.callers.trans hpush
  have hbase₁ : m₁.frame.base = m.frame.base := by
    rw [hm.frame]
    rfl
  -- The machine with the caller running again, before the stack is cut down.
  have hback : Holding { m₁ with frame := caller, callers } w w lower
      { m₁ with frame := caller, callers } :=
    { hm.toSettled, Kept.refl _ with
      grows := .refl w
      frame := rfl
      callers := rfl
      live := hm.live
      sound := hm.sound }
  have hkept : m.Kept { m₁ with frame := caller, callers } := { hm.toKept with }
  have hends : Leaves (Steps m w) (Broken { m₁ with frame := caller, callers } w)
      (Exec.leaveBody result m₁) := by
    rw [Exec.leaveBody_of_push result hpush₁, hbase₁]
    refine (hback.setHeight hbase).bind ?_
    intro _ m₂ hcut
    refine (hcut.push hresult).bind ?_
    intro _ m₂ h₂
    have hframe : m₂.frame = caller := h₂.frame
    have hcallers₂ : m₂.callers = callers := h₂.callers
    refine ⟨hkept.trans h₂.toKept, .out ?_, w, .refl w, ?_⟩
    · rw [hframe, hcallers₂, hpush]
    · refine { h₂.toSettled with stack := ⟨_, h₂.live, h₂.sound, ?_⟩ }
      rw [hframe, hcallers₂, List.length_append, List.length_singleton, List.length_take,
        Nat.min_eq_left hbase]
      cases hcalls with
      | function _ _ _ _ hcaller => exact hcaller
  refine hends.mono (fun _ _ => id) ?_
  intro fault m' hbroken
  have hsize : m₁.globals.capacity = m.globals.capacity := hkept.globalsSize
  exact
    { hkept.trans hbroken.toKept with
      permitted := hsize ▸ hbroken.permitted
      settled := hbroken.settled }

theorem leaveBody (h : m.About w values pre i post) {lower : List Value} {m₁ : Machine}
    {result : Value} (hm : Holding (m.jump (codeSize (pre ++ [i]))) w w lower m₁)
    (hresult : result.Sound w) (hbase : m.frame.base ≤ lower.length) :
    Leaves (Steps m w) (Broken m w) (Exec.leaveBody result m₁) := by
  by_cases hcallers : m.callers = #[]
  · exact leaveBody_last hm hresult hcallers
  · rcases Array.exists_push_of_ne_empty hcallers with ⟨callers, caller, hpush⟩
    exact h.leaveBody_back hm hresult hbase hpush

theorem returns (h : m.About w values pre i post) (hop : i.op = .returnValue ∨ i.op = .returnNull) :
    Leaves (Steps m w) (Broken m w) (Exec.step m) := by
  have hneeds := h.needs
  rcases hop with hop | hop
  · have hone : i.needs = 1 := by simp [Instr.needs, hop]
    rcases exists_last (show 1 ≤ values.length by omega) with ⟨lower, v, rfl⟩
    rw [List.length_append, List.length_singleton] at hneeds
    rw [h.step, hop]
    have hends : Leaves (Steps m w) (Broken m w) ((Exec.pop >>= Exec.leaveBody)
        (m.jump (codeSize (pre ++ [i])))) := by
      refine ((h.holding _).pop.mono (fun _ _ => id) fun _ _ => Broken.of_jump).bind ?_
      rintro v m₁ ⟨rfl, h₁⟩
      exact h.leaveBody h₁ (h.sound.right v (by simp)) (by omega)
    exact hends
  · rw [h.step, hop]
    exact h.leaveBody (h.holding _) .null (by omega)

end About

/-- What one step of a machine does. -/
theorem Sound.step {w : World} {m : Machine} (h : m.Sound w) :
    Leaves (Steps m w) (Broken m w) (Exec.step m) := by
  rcases h.about with ⟨hcallers, hend⟩ | ⟨values, pre, i, post, habout⟩
  · rw [Exec.step_at_end hend hcallers]
    exact ⟨Kept.refl m, hcallers, w, .refl w, h.toSettled⟩
  · have hrunning : ∀ {result : EStateM.Result Fault Machine Progress},
        Leaves (fun progress m' => progress = .running ∧ Runs m w m') (Broken m w) result →
          Leaves (Steps m w) (Broken m w) result := by
      intro result hresult
      refine hresult.mono ?_ fun _ _ => id
      rintro _ m' ⟨rfl, hm'⟩
      exact hm'
    by_cases hop : i.op ∈ control
    · simp only [control, List.mem_cons, List.not_mem_nil, or_false] at hop
      rcases hop with hop | hop | hop | hop
      · exact hrunning (habout.jump hop)
      · exact hrunning (habout.jumpNotTruthy hop)
      · exact hrunning (habout.call hop)
      · exact habout.returns hop
    · exact hrunning (habout.ordinary hop)

end Machine

end MonkeyMachine
