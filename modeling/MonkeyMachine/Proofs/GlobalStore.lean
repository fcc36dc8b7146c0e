import MonkeyMachine.Proofs.CallingConvention
import MonkeyMachine.Proofs.LayoutInduction

/-!
# Globals are assigned once

Every binding of the top level has a slot of its own: the instructions of a program that assign
globals name the slots that come next, one after another. Jumps lead forward, so no instruction of
the top level is executed twice, and functions assign no globals. Hence an assignment always finds
its slot empty, and what a slot holds stays there for the life of the session.
-/

namespace MonkeyMachine

/-! ## The slots that code assigns -/

/-- The global that an instruction assigns. -/
def Instr.store? (i : Instr) : Option Nat :=
  match i.op with
  | .setGlobal => i.operands.head?
  | _ => none

/-- The globals that instructions assign, in the order of the text. -/
def stores (is : List Instr) : List Nat := is.filterMap Instr.store?

@[simp]
theorem stores_append (is js : List Instr) : stores (is ++ js) = stores is ++ stores js := by
  simp [stores]

theorem stores_cons_of_none {i : Instr} (h : i.store? = none) (is : List Instr) :
    stores (i :: is) = stores is := by
  simp [stores, h]

theorem Instr.Plain.store?_eq_none {i : Instr} (h : i.Plain) : i.store? = none := by
  obtain ⟨op, operands⟩ := i
  cases op with
  | setGlobal => simp [Plain] at h
  | _ => rfl

theorem stores_of_plain {is : List Instr} (h : ∀ i ∈ is, i.Plain) : stores is = [] := by
  rw [stores, List.filterMap_eq_nil_iff]
  intro i hi
  exact (h i hi).store?_eq_none

/-- At the top level the bindings of a construct take the next slots. -/
def Numbered (site : Site) (events : List Event) (layout : LayoutAt) : Prop :=
  site.body = none → ∀ start f, layout start = .ok f →
    stores f.instrs = List.range' site.globals.length (Event.binds events).length

theorem Site.globals_after_of_none {site : Site} (h : site.body = none) (events : List Event) :
    (site.after events).globals = site.globals ++ Event.binds events := by
  simp [Site.after, h]

theorem numbered_closed : LayoutClosed Numbered where
  fixed := by
    intro site events layout hplain _ start f h
    rcases hplain f h with ⟨hnone, his⟩
    rw [hnone]
    exact stores_of_plain his
  store := by
    intro site name hbody start f h
    unfold Site.store at h
    rw [hbody] at h
    rcases Fragment.emit_eq_ok_iff.1 h with ⟨-, rfl⟩
    rfl
  seq := by
    intro site xs ys first second hfirst hsecond hbody start f h
    rcases Fragment.seq_eq_ok_iff.1 h with ⟨a, ha, b, hb, rfl⟩
    have hrest := hsecond (Site.body_after_of_none hbody xs) _ b hb
    rw [Site.globals_after_of_none hbody, List.length_append] at hrest
    rw [Fragment.instrs_append, stores_append, hfirst hbody start a ha, hrest,
      Event.binds_append, List.length_append, List.range'_append_1]
  conditional := by
    intro site xs ys zs test yes no htest hyes hno hbody start f h
    rcases Fragment.conditional_eq_ok h with
      ⟨t, y, n, toNo, toFinish, ht, hy, hn, -, -, -, -, rfl⟩
    have hbody' := Site.body_after_of_none hbody xs
    have hyes' := hyes hbody' _ y hy
    have hno' := hno (Site.body_after_of_none hbody' ys) _ n hn
    rw [Site.globals_after_of_none hbody', Site.globals_after_of_none hbody] at hno'
    rw [Site.globals_after_of_none hbody] at hyes'
    simp only [List.length_append] at hyes' hno'
    rw [Fragment.instrs_append, stores_append, htest hbody start t ht,
      stores_cons_of_none rfl, stores_append, stores_cons_of_none rfl, hyes', hno']
    simp only [Event.binds_append, List.length_append, List.range'_append_1]

/-! ## Assignments in compiled code -/

theorem mem_stores {is : List Instr} {slot : Nat} (h : Instr.mk .setGlobal [slot] ∈ is) :
    slot ∈ stores is := List.mem_filterMap.2 ⟨_, h, rfl⟩

/-- If no slot is assigned twice, an assignment stands in one place only. -/
theorem stores_split_unique {is pre pre' post post' : List Instr} {slot : Nat}
    (h : (stores is).Nodup) (hsplit : is = pre ++ ⟨.setGlobal, [slot]⟩ :: post)
    (hsplit' : is = pre' ++ ⟨.setGlobal, [slot]⟩ :: post') : pre = pre' := by
  -- Whichever of the two stands first, the other one would assign the slot again.
  have hone : ∀ {xs ys : List Instr}, is = xs ++ ys → slot ∈ stores xs → slot ∈ stores ys →
      False := by
    intro xs ys his hx hy
    rw [his, stores_append] at h
    exact List.disjoint_of_nodup_append h hx hy
  have hboth := hsplit.symm.trans hsplit'
  rcases split_append hboth with ⟨more, hpre, -⟩ | ⟨more, hpre, hpost⟩
  · exact absurd (hone hsplit (mem_stores (by simp [hpre])) (mem_stores (by simp))) id
  · cases more with
    | nil =>
        rw [List.append_nil] at hpre
        exact hpre.symm
    | cons i more =>
        obtain ⟨rfl, -⟩ := List.cons.inj hpost
        exact absurd (hone hsplit' (mem_stores (by simp [hpre])) (mem_stores (by simp))) id

/-- The instructions of a buffer that assign globals. -/
structure Code.Assigning (code : Code) (first last : Nat) : Prop where
  /-- They assign the slots from `first` to `last`. -/
  slots : ∀ offset slot, code.Has offset .setGlobal [slot] → first ≤ slot ∧ slot < last
  /-- No two of them assign the same one. -/
  once : ∀ offset offset' slot, code.Has offset .setGlobal [slot] →
    code.Has offset' .setGlobal [slot] → offset = offset'

/-- A program assigns the globals that it adds, each in one place. -/
theorem Program.compile_assigning {program : Program} {symbols : SymbolTable} {site : Site}
    {constants : Array Value} {c : Compiler} (hagrees : Agrees symbols site)
    (hbody : site.body = none) (hc : constants.size = site.literals)
    (h : Block.compile program (.start symbols constants) = .ok () c) :
    c.buffer.code.Assigning symbols.scope.definitions c.symbols.scope.definitions := by
  rcases Program.compile_layout hagrees hbody hc h with ⟨f, hw, hlayout, -, -⟩
  rcases Program.compile_sound hagrees hbody hc h with ⟨f', hw', hcode', hsound⟩
  rcases hsound.code hcode' with ⟨-, hprogram⟩
  have hinstrs : c.buffer.code.instrs = f.instrs := Code.instrs_of_assemble hw.valid hw.code
  -- The stores of the code count up from the first slot that is free.
  have hstores : stores c.buffer.code.instrs =
      List.range' site.globals.length (Event.binds (Block.events program)).length := by
    rw [hinstrs]
    exact Block.layout_induction numbered_closed program .drop site hbody 0 f hlayout
  have hfirst := hagrees.definitions_eq hbody
  have hlast := hw.scanned.agrees.definitions_eq (Site.body_after_of_none hbody _)
  rw [Site.globals_after_of_none hbody, List.length_append] at hlast
  constructor
  · intro offset slot hhas
    rcases hprogram.has_iff.1 hhas with ⟨pre, post, his, -⟩
    have hmem : slot ∈ stores c.buffer.code.instrs := mem_stores (by simp [his])
    rw [hstores, List.mem_range'_1] at hmem
    omega
  · intro offset offset' slot hhas hhas'
    rcases hprogram.has_iff.1 hhas with ⟨pre, post, his, rfl⟩
    rcases hprogram.has_iff.1 hhas' with ⟨pre', post', his', rfl⟩
    have hnodup : (stores c.buffer.code.instrs).Nodup := by
      rw [hstores]
      exact List.nodup_range'
    rw [stores_split_unique hnodup his his']

/-! ## Runs -/

theorem Globals.get_eq_ok_iff {globals : Globals} {slot : Nat} {v : Value} :
    globals.get slot = .ok v ↔ globals.slots[slot]? = some (some v) := by
  unfold Globals.get
  split <;> simp_all

theorem Globals.get_congr {globals globals' : Globals} {slot : Nat}
    (h : globals'.slots[slot]? = globals.slots[slot]?) (hsize : globals'.capacity = globals.capacity) :
    globals'.get slot = globals.get slot := by
  unfold Globals.get
  rw [h, hsize]

namespace Machine

variable {w : World} {m m' : Machine}

theorem bottom_of_callers (h : m.callers = #[]) : m.bottom = m.frame := by
  rw [bottom, h]
  rfl

/-- The top-level program moves forward only, and with every step of its own. -/
theorem Moves.bottom_ip (h : m.Moves m') :
    m.bottom.ip ≤ m'.bottom.ip ∧ (m.callers = #[] → m.bottom.ip < m'.bottom.ip) := by
  cases h with
  | @on target hlt hframe hcallers =>
      rw [bottom, bottom, hframe, hcallers]
      -- While calls are in progress, the program itself waits where it is.
      cases hnone : m.callers.toList.reverse with
      | nil => exact ⟨Nat.le_of_lt hlt, fun _ => hlt⟩
      | cons caller callers =>
          refine ⟨Nat.le_refl _, fun hempty => ?_⟩
          rw [hempty] at hnone
          cases hnone
  | @into target hlt _ hcallers _ =>
      have hreverse : m'.callers.toList.reverse =
          { m.frame with ip := target } :: m.callers.toList.reverse := by
        rw [hcallers]
        simp
      rw [bottom, bottom, hreverse]
      cases hnone : m.callers.toList.reverse with
      | nil => exact ⟨Nat.le_of_lt hlt, fun _ => hlt⟩
      | cons caller callers =>
          refine ⟨Nat.le_refl _, fun hempty => ?_⟩
          rw [hempty] at hnone
          cases hnone
  | out hcallers =>
      have hreverse : m.callers.toList.reverse = m'.frame :: m'.callers.toList.reverse := by
        rw [hcallers]
        simp
      rw [bottom, bottom, hreverse]
      refine ⟨Nat.le_refl _, fun hempty => ?_⟩
      rw [hcallers] at hempty
      simp at hempty

/-- What the top-level program has still to assign is not assigned yet. -/
structure Pending (m : Machine) : Prop where
  once : ∀ offset offset' slot, m.bottom.code.Has offset .setGlobal [slot] →
    m.bottom.code.Has offset' .setGlobal [slot] → offset = offset'
  unassigned : ∀ offset slot, m.bottom.ip ≤ offset → m.bottom.code.Has offset .setGlobal [slot] →
    ∀ v, m.globals.get slot ≠ .ok v

/-- The instruction that assigns a global belongs to the top-level program. -/
theorem Sound.bottom_has (h : m.Sound w) {slot : Nat} (hassigns : m.Assigns slot) :
    m.bottom.code.Has m.bottom.ip .setGlobal [slot] := by
  rw [bottom_of_callers (h.callers_of_assigns hassigns)]
  exact hassigns

theorem Pending.not_assigned (h : m.Pending) (hm : m.Sound w) {slot : Nat}
    (hassigns : m.Assigns slot) (v : Value) : m.globals.get slot ≠ .ok v :=
  h.unassigned _ slot (Nat.le_refl _) (hm.bottom_has hassigns) v

/-- A step, whether it succeeds or not, leaves the slots that have a value as they are. -/
theorem Pending.kept (h : m.Pending) (hm : m.Sound w) {slot : Nat} {v : Value}
    (hget : m.globals.get slot = .ok v) :
    (finalState (Exec.step m)).globals.get slot = .ok v := by
  have hnot : ¬ m.Assigns slot := fun hassigns => h.not_assigned hm hassigns v hget
  rw [Globals.get_eq_ok_iff, hm.step_globals hnot]
  exact Globals.get_eq_ok_iff.1 hget

theorem Pending.next (h : m.Pending) (hm : m.Sound w) (hnext : m.Next m') : m'.Pending := by
  have hruns := hm.runs hnext
  have hcode := hruns.moves.bottom_code
  rcases hruns.moves.bottom_ip with ⟨hle, hlt⟩
  constructor
  · rw [hcode]
    exact h.once
  · rw [hcode]
    intro offset slot hoffset hhas v hget
    by_cases hassigns : m.Assigns slot
    · -- The instruction that has just been executed is the only one for this slot.
      have hsame := h.once _ _ slot hhas (hm.bottom_has hassigns)
      have hmoved := hlt (hm.callers_of_assigns hassigns)
      omega
    · have hkept := hm.step_globals hassigns
      have hstep : Exec.step m = .ok .running m' := hnext
      rw [hstep] at hkept
      have hslots : m'.globals.slots[slot]? = m.globals.slots[slot]? := hkept
      rw [Globals.get_eq_ok_iff, hslots] at hget
      exact h.unassigned offset slot (hle.trans hoffset) hhas v (Globals.get_eq_ok_iff.2 hget)

theorem Pending.reaches (h : m.Pending) (hm : m.Sound w) (hreaches : m.Reaches m') :
    m'.Pending := by
  induction hreaches with
  | refl => exact h
  | @tail m₁ m₂ hreaches hnext ih =>
      rcases hm.reaches hreaches with ⟨w₁, -, -, hsound⟩
      exact ih.next hsound hnext

/-- The final state of a run is the last one between two steps, or what its last step left. -/
theorem EndsAs.final {last : Machine} {ending : Ending} (h : last.EndsAs ending m) :
    m = last ∨ m = finalState (Exec.step last) := by
  cases ending with
  | finished =>
      have hstep : Exec.step last = .ok .finished m := h
      exact .inr (by rw [hstep]; rfl)
  | failed fault =>
      have hstep : Exec.step last = .error fault m := h
      exact .inr (by rw [hstep]; rfl)
  | outOfFuel => exact .inl h

/-- No step of a run assigns a global that the top-level program does not. -/
theorem Sound.not_assigns (h : m.Sound w) {slot : Nat}
    (hslot : ∀ offset, ¬ m.bottom.code.Has offset .setGlobal [slot]) (hreaches : m.Reaches m') :
    ¬ m'.Assigns slot := by
  intro hassigns
  rcases h.reaches hreaches with ⟨w', -, -, hsound⟩
  have hhas := hsound.bottom_has hassigns
  rw [h.reaches_bottom hreaches] at hhas
  exact hslot _ hhas

theorem Sound.reaches_globals (h : m.Sound w) {slot : Nat}
    (hslot : ∀ offset, ¬ m.bottom.code.Has offset .setGlobal [slot]) (hreaches : m.Reaches m') :
    m'.globals.slots[slot]? = m.globals.slots[slot]? := by
  induction hreaches with
  | refl => rfl
  | @tail m₁ m₂ hreaches hnext ih =>
      rcases h.reaches hreaches with ⟨w₁, -, -, hsound⟩
      have hstep : Exec.step m₁ = .ok .running m₂ := hnext
      have hkept := hsound.step_globals (h.not_assigns hslot hreaches)
      rw [hstep] at hkept
      exact Eq.trans hkept ih

theorem Sound.run_globals {fuel : Nat} {ending : Ending} (h : m.Sound w) {slot : Nat}
    (hslot : ∀ offset, ¬ m.bottom.code.Has offset .setGlobal [slot])
    (hrun : m.run fuel = (ending, m')) : m'.globals.slots[slot]? = m.globals.slots[slot]? := by
  rcases reaches_of_run hrun with ⟨last, hreaches, hends⟩
  rcases h.reaches hreaches with ⟨w₁, -, -, hsound⟩
  have hslots := h.reaches_globals hslot hreaches
  rcases hends.final with rfl | rfl
  · exact hslots
  · rw [hsound.step_globals (h.not_assigns hslot hreaches), hslots]

end Machine

/-! ## Sessions -/

namespace Session

variable {session : Session} {program : Program} {c : Compiler}

theorem Reached.assigning (h : session.Reached)
    (hc : (Block.compile program).run (.start session.symbols session.constants) = .ok () c) :
    c.buffer.code.Assigning session.symbols.scope.definitions c.symbols.scope.definitions := by
  rcases h.sound with ⟨w, hw⟩
  rcases hw.names with ⟨site, hagrees, hbody, hsize⟩
  exact Program.compile_assigning hagrees hbody hsize hc

theorem Reached.definitions_le (h : session.Reached)
    (hc : (Block.compile program).run (.start session.symbols session.constants) = .ok () c) :
    session.symbols.scope.definitions ≤ c.symbols.scope.definitions := by
  rcases h.sound with ⟨w, hw⟩
  rcases hw.compile hc with ⟨w', hcompiled⟩
  rw [hw.count, hcompiled.count]
  exact hcompiled.larger.globals

theorem Reached.machine_sound (h : session.Reached)
    (hc : (Block.compile program).run (.start session.symbols session.constants) = .ok () c) :
    ∃ w, (session.machine c).Sound w := by
  rcases h.sound with ⟨w, hw⟩
  rcases hw.compile hc with ⟨w', hcompiled⟩
  exact ⟨w', hw.load hcompiled session.limits 0⟩

/-- The slots below those that a program adds are the same after it. -/
theorem Reached.run_globals (h : session.Reached)
    (hc : (Block.compile program).run (.start session.symbols session.constants) = .ok () c)
    {fuel slot : Nat} {ending : Ending} {m : Machine}
    (hrun : (session.machine c).run fuel = (ending, m))
    (hslot : slot < session.symbols.scope.definitions ∨ c.symbols.scope.definitions ≤ slot) :
    m.globals.slots[slot]? = session.globals.slots[slot]? := by
  rcases h.machine_sound hc with ⟨w, hload⟩
  refine hload.run_globals ?_ hrun
  intro offset hhas
  have hbounds := (h.assigning hc).slots offset slot hhas
  omega

/-- Only slots that belong to names hold values. -/
theorem Reached.lt_definitions (h : session.Reached) {slot : Nat} {v : Value}
    (hget : session.globals.get slot = .ok v) : slot < session.symbols.scope.definitions := by
  induction h generalizing v with
  | start limits =>
      rw [Globals.get_eq_ok_iff] at hget
      exact absurd (Array.mem_of_getElem? hget) (Globals.not_mem_ofCapacity _ v)
  | @eval session h fuel program ih =>
      cases hc : (Block.compile program).run (.start session.symbols session.constants) with
      | error cause c =>
          have hsame : (session.eval fuel program).2 = session := by
            unfold Session.eval
            rw [hc]
          rw [hsame] at hget ⊢
          exact ih hget
      | ok _ c =>
          cases hrun : (session.machine c).run fuel with
          | mk ending m =>
              rw [eval_of_compile hc hrun] at hget ⊢
              by_contra hnot
              -- A slot beyond the names keeps what it held, and it held nothing.
              have hkept := h.run_globals hc hrun (.inr (Nat.le_of_not_lt hnot))
              rw [Globals.get_eq_ok_iff, hkept, ← Globals.get_eq_ok_iff] at hget
              exact hnot ((ih hget).trans_le (h.definitions_le hc))

theorem Reached.machine_pending (h : session.Reached)
    (hc : (Block.compile program).run (.start session.symbols session.constants) = .ok () c) :
    (session.machine c).Pending := by
  have hassigning := h.assigning hc
  refine ⟨hassigning.once, ?_⟩
  intro offset slot _ hhas v hget
  have hbounds := hassigning.slots offset slot hhas
  have hlt := h.lt_definitions hget
  omega

end Session

/-! ## The life of a session -/

/-- A moment in the life of a session: between two programs, or between two steps of the run of a
program that was compiled to `c` in `session`. -/
inductive Moment
  | idle (session : Session)
  | running (session : Session) (c : Compiler) (m : Machine)

namespace Moment

/-- The global store at a moment. -/
def globals : Moment → Globals
  | idle session => session.globals
  | running _ _ m => m.globals

/-- From one moment to the next. The run of a program may end, fail or be broken off. -/
inductive Step : Moment → Moment → Prop
  | begins {session : Session} {program : Program} {c : Compiler}
      (hc : (Block.compile program).run (.start session.symbols session.constants) = .ok () c) :
      Step (.idle session) (.running session c (session.machine c))
  | goes {session : Session} {c : Compiler} {m m' : Machine} (hnext : m.Next m') :
      Step (.running session c m) (.running session c m')
  | ends {session : Session} {c : Compiler} {m last : Machine} {ending : Ending}
      (hends : m.EndsAs ending last) :
      Step (.running session c m) (.idle
        { session with
          symbols := c.symbols
          constants := c.constants
          globals := last.globals
          created := last.created })

/-- A moment is later than another, or the same. -/
def Later : Moment → Moment → Prop := Relation.ReflTransGen Step

/-- The moments in the life of a session. -/
def Lived : Moment → Prop
  | idle session => session.Reached
  | running session c m => session.Reached ∧
      ∃ program, (Block.compile program).run (.start session.symbols session.constants) = .ok () c ∧
        (session.machine c).Reaches m

theorem Step.lived {a b : Moment} (h : Step a b) (ha : a.Lived) : b.Lived := by
  cases h with
  | begins hc => exact ⟨ha, _, hc, .refl _⟩
  | goes hnext =>
      rcases ha with ⟨hsession, program, hc, hreaches⟩
      exact ⟨hsession, program, hc, hreaches.trans hnext.reaches⟩
  | @ends session c m last ending hends =>
      rcases ha with ⟨hsession, program, hc, hreaches⟩
      -- An evaluation with just the right fuel leaves this session.
      rcases hreaches.run with ⟨steps, hsteps⟩
      obtain ⟨fuel, hrun⟩ : ∃ fuel, m.run fuel = (ending, last) := by
        by_cases hfuel : ending = .outOfFuel
        · subst hfuel
          obtain rfl : last = m := hends
          exact ⟨0, rfl⟩
        · exact ⟨1, Machine.run_of_endsAs hends hfuel 0⟩
      have heval := Session.eval_of_compile hc ((hsteps fuel).trans hrun)
      have hreached := hsession.eval (fuel + steps) program
      rw [heval] at hreached
      exact hreached

theorem Later.lived {a b : Moment} (h : Later a b) (ha : a.Lived) : b.Lived := by
  induction h with
  | refl => exact ha
  | tail _ hstep ih => exact hstep.lived ih

theorem later_of_reaches (session : Session) (c : Compiler) {m m' : Machine} (h : m.Reaches m') :
    Later (.running session c m) (.running session c m') := by
  induction h with
  | refl => exact .refl
  | tail _ hnext ih => exact ih.tail (.goes hnext)

/-- Evaluating a program leads from one moment to another, whatever comes of it. -/
theorem later_eval (session : Session) (fuel : Nat) (program : Program) :
    Later (.idle session) (.idle (session.eval fuel program).2) := by
  cases hc : (Block.compile program).run (.start session.symbols session.constants) with
  | error cause c =>
      have hsame : (session.eval fuel program).2 = session := by
        unfold Session.eval
        rw [hc]
      rw [hsame]
      exact .refl
  | ok _ c =>
      cases hrun : (session.machine c).run fuel with
      | mk ending last =>
          rw [Session.eval_of_compile hc hrun]
          rcases Machine.reaches_of_run hrun with ⟨m, hreaches, hends⟩
          have hbegins : Later (.idle session) (.running session c (session.machine c)) :=
            Relation.ReflTransGen.single (.begins hc)
          exact (hbegins.trans (later_of_reaches session c hreaches)).tail (.ends hends)

/-- What the run of a program may do to the global store. -/
theorem Lived.running {session : Session} {c : Compiler} {m : Machine}
    (h : (Moment.running session c m).Lived) : ∃ w, m.Sound w ∧ m.Pending := by
  rcases h with ⟨hsession, program, hc, hreaches⟩
  rcases hsession.machine_sound hc with ⟨w, hload⟩
  rcases hload.reaches hreaches with ⟨w', -, -, hsound⟩
  exact ⟨w', hsound, (hsession.machine_pending hc).reaches hload hreaches⟩

theorem Step.kept {a b : Moment} (h : Step a b) (ha : a.Lived) {slot : Nat} {v : Value}
    (hget : a.globals.get slot = .ok v) : b.globals.get slot = .ok v := by
  cases h with
  | begins => exact hget
  | goes hnext =>
      rcases ha.running with ⟨w, hsound, hpending⟩
      have hkept := hpending.kept hsound hget
      have hstep : Exec.step _ = .ok .running _ := hnext
      rw [hstep] at hkept
      exact hkept
  | ends hends =>
      rcases ha.running with ⟨w, hsound, hpending⟩
      rcases hends.final with rfl | rfl
      · exact hget
      · exact hpending.kept hsound hget

theorem Later.kept {a b : Moment} (h : Later a b) (ha : a.Lived) {slot : Nat} {v : Value}
    (hget : a.globals.get slot = .ok v) : b.globals.get slot = .ok v := by
  induction h with
  | refl => exact hget
  | @tail b c hlater hstep ih => exact hstep.kept (Later.lived hlater ha) ih

end Moment

/-- What a slot of the global store holds at some moment in the life of a session, it holds at every
later one; evaluating programs leads to later moments. A step that changes a slot is one of the
top-level program and finds the slot empty, and a call that returns has left the store as it was. -/
theorem Session.globals_written_once (limits : Limits) {a b : Moment}
    (ha : (Moment.idle (.start limits)).Later a) (hb : a.Later b) :
    (∀ slot v, a.globals.get slot = .ok v → b.globals.get slot = .ok v) ∧
      (∀ session, a = .idle session → ∀ fuel program,
        a.Later (.idle (session.eval fuel program).2)) ∧
      ∀ session c m, a = .running session c m →
        (∀ slot, (finalState (Exec.step m)).globals.slots[slot]? ≠ m.globals.slots[slot]? →
          m.Assigns slot ∧ m.callers = #[] ∧ ∀ v, m.globals.get slot ≠ .ok v) ∧
          ∀ entered last back, Machine.CallRun m entered last back → back.globals = m.globals := by
  have hlived : a.Lived := Moment.Later.lived ha (.start limits)
  refine ⟨fun slot v => hb.kept hlived, ?_, ?_⟩
  · rintro session rfl fuel program
    exact Moment.later_eval session fuel program
  · rintro session c m rfl
    rcases hlived.running with ⟨w, hsound, hpending⟩
    constructor
    · intro slot hchanged
      have hassigns : m.Assigns slot := by
        by_contra hnot
        exact hchanged (hsound.step_globals hnot)
      exact ⟨hassigns, hsound.callers_of_assigns hassigns, hpending.not_assigned hsound hassigns⟩
    · intro entered last back hrun
      exact (hsound.restored hrun).globals

/-- A name is bound again by a program that then fails. -/
theorem Session.globals_written_once_of_rebinding :
    ∃ first second : Session,
      first = (Session.eval 10 [.bind "x" (.int 1)]
        (.start { stackSize := 4, globalsSize := 4, maxFrames := 4 })).2 ∧
      second = (first.eval 10 [.bind "x" (.int 2), .expr (.call (.ident "x") [])]).2 ∧
      first.globals.get 0 = .ok (.int 1) ∧ second.globals.get 1 = .ok (.int 2) ∧
      second.globals.get 0 = .ok (.int 1) := by
  refine ⟨_, _, rfl, rfl, rfl, rfl, ?_⟩
  exact (Session.globals_written_once _ (Moment.later_eval _ _ _) (Moment.later_eval _ _ _)).1 0 _ rfl

end MonkeyMachine
