import MonkeyMachine.Proofs.MachineSafety
import MonkeyMachine.Proofs.WellFormed
import MonkeyMachine.Session

/-!
# Sessions never go wrong

The invariant of the machine, along whole runs and from one program of a session to the next. What
a program leaves behind, whether it ended or failed, is sound for the programs after it, because
constants are only added and globals are only assigned sound values.
-/

namespace MonkeyMachine

/-! ## Runs -/

namespace Machine

/-- What a step does that does not end the run. -/
theorem Sound.runs {w : World} {m m' : Machine} (h : m.Sound w) (hnext : m.Next m') :
    Runs m w m' := by
  have hstep := h.step
  have hnext : Exec.step m = .ok .running m' := hnext
  rw [hnext] at hstep
  exact hstep

/-- A machine that goes on has an instruction to execute. -/
theorem Sound.about_of_next {w : World} {m m' : Machine} (h : m.Sound w) (hnext : m.Next m') :
    ∃ values pre i post, m.About w values pre i post := by
  rcases h.about with ⟨hcallers, hend⟩ | habout
  · have hstep : Exec.step m = .ok .running m' := hnext
    rw [Exec.step_at_end hend hcallers] at hstep
    cases hstep
  · exact habout

theorem Sound.reaches {w : World} {m m' : Machine} (h : m.Sound w) (hreaches : m.Reaches m') :
    ∃ w', w.Grows w' ∧ m.Kept m' ∧ m'.Sound w' := by
  induction hreaches with
  | refl => exact ⟨w, .refl w, .refl m, h⟩
  | @tail m₁ m₂ _ hnext ih =>
      rcases ih with ⟨w₁, hgrows, hkept, hsound⟩
      have hruns := hsound.runs hnext
      rcases hruns.sound with ⟨w₂, hgrows₂, hsound₂⟩
      exact ⟨w₂, hgrows.trans hgrows₂, hkept.trans hruns.kept, hsound₂⟩

/-- A run leaves the globals sound however it ends, and fails for permitted reasons only. -/
theorem Sound.run {w : World} {m m' : Machine} {fuel : Nat} {ending : Ending} (h : m.Sound w)
    (hrun : m.run fuel = (ending, m')) :
    m.Kept m' ∧ (∃ w', w.Grows w' ∧ m'.Settled w') ∧
      ∀ fault, ending = .failed fault → fault.Permitted m.globals.capacity := by
  rcases reaches_of_run hrun with ⟨last, hreaches, hends⟩
  rcases h.reaches hreaches with ⟨w₁, hgrows, hkept, hsound⟩
  -- However the run has ended, its last step was that of a sound machine.
  have hstep := hsound.step
  cases ending with
  | finished =>
      have hends' : Exec.step last = .ok .finished m' := hends
      rw [hends'] at hstep
      have hstops : Stops last w₁ m' := hstep
      rcases hstops.settled with ⟨w₂, hgrows₂, hsettled⟩
      refine ⟨hkept.trans hstops.kept, ⟨w₂, hgrows.trans hgrows₂, hsettled⟩, ?_⟩
      intro fault hfault
      cases hfault
  | failed fault =>
      have hends' : Exec.step last = .error fault m' := hends
      rw [hends'] at hstep
      have hbroken : Broken last w₁ fault m' := hstep
      rcases hbroken.settled with ⟨w₂, hgrows₂, hsettled⟩
      refine ⟨hkept.trans hbroken.toKept, ⟨w₂, hgrows.trans hgrows₂, hsettled⟩, ?_⟩
      rintro _ ⟨rfl⟩
      rw [← hkept.globalsSize]
      exact hbroken.permitted
  | outOfFuel =>
      obtain rfl : m' = last := hends
      refine ⟨hkept, ⟨w₁, hgrows, hsound.toSettled⟩, ?_⟩
      intro fault hfault
      cases hfault

/-- A running function has not come to the end of its code. -/
theorem Sound.ip_lt {w : World} {m : Machine} (h : m.Sound w) (hcallers : m.callers ≠ #[]) :
    m.frame.ip < m.frame.code.size := by
  rcases h.about with ⟨hnone, -⟩ | ⟨values, pre, i, post, habout⟩
  · exact absurd hnone hcallers
  · rcases habout.code with ⟨_, _, -, -, hcode⟩
    have hpos := i.size_pos
    rw [hcode.size_eq, habout.ip, habout.instrs]
    simp only [codeSize_append, codeSize_cons]
    omega

/-- A machine about to run a program. -/
theorem load_sound {b : Bytecode} {w : World} {globals : Globals} {created : Nat} (limits : Limits)
    (run : Nat) (hworld : w.Sound) (hcode : b.code.Sound ⟨w.pool, w.globals, none, 0⟩)
    (hpool : b.constants.toList = w.pool) (hmade : w.made.length = created)
    (hglobals : ∀ v, some v ∈ globals.slots → v.Sound w) :
    (Machine.load b globals limits run created).Sound w := by
  refine { world := hworld, pool := hpool, made := hmade, globals := hglobals, stack := ?_ }
  refine ⟨[], Stack.live_ofCapacity _, List.forall_mem_nil _, ?_⟩
  have hat : (Frame.program run b.code).At [] b.code.instrs := ⟨rfl, rfl⟩
  exact .program (.program hcode rfl rfl rfl) hat rfl

end Machine

theorem Globals.not_mem_ofCapacity (capacity : Nat) (v : Value) :
    some v ∉ (ofCapacity capacity).slots := by
  intro hv
  have hnone : some v = none := (Array.mem_replicate.1 hv).2
  cases hnone

/-! ## Sessions -/

namespace Session

/-- The machine that a program of a session is run by. -/
abbrev machine (session : Session) (c : Compiler) : Machine :=
  .load c.bytecode session.globals session.limits 0 session.created

theorem eval_of_compile {session : Session} {program : Program} {c : Compiler} {fuel : Nat}
    {ending : Ending} {m : Machine}
    (hc : (Block.compile program).run (.start session.symbols session.constants) = .ok () c)
    (hrun : (session.machine c).run fuel = (ending, m)) :
    session.eval fuel program =
      ({ result := ending.result m.lastPopped, output := m.output },
        { limits := session.limits
          symbols := c.symbols
          constants := c.constants
          globals := m.globals
          created := m.created }) := by
  simp only [eval, hc, hrun]

/-- What the next program is compiled with does not depend on how the run went. -/
theorem start_eval {session : Session} {program : Program} (fuel : Nat)
    (h : program.compiles (.start session.symbols session.constants) = true) :
    let c := finalState ((Block.compile program).run (.start session.symbols session.constants))
    Compiler.start (session.eval fuel program).2.symbols (session.eval fuel program).2.constants =
      .start c.symbols c.constants := by
  rcases Program.exists_of_compiles h with ⟨c, hc⟩
  simp only [eval, hc, finalState]

/-- The sessions that come about by evaluating programs, with any limits. A program may end, fail to
compile, or fail while it runs; its run may also have been broken off. -/
inductive Reached : Session → Prop
  | start (limits : Limits) : Reached (.start limits)
  | eval {session : Session} (h : Reached session) (fuel : Nat) (program : Program) :
      Reached (session.eval fuel program).2

/-- What a session keeps between two programs. -/
structure Sound (w : World) (session : Session) : Prop where
  names : ∃ site, Agrees session.symbols site ∧ site.body = none ∧
    session.constants.size = site.literals
  world : w.Sound
  pool : session.constants.toList = w.pool
  count : session.symbols.scope.definitions = w.globals
  made : w.made.length = session.created
  globals : ∀ v, some v ∈ session.globals.slots → v.Sound w
  capacity : session.globals.capacity = session.limits.globalsSize

theorem start_sound (limits : Limits) : (start limits).Sound ⟨[], 0, []⟩ where
  names := ⟨.initial, Agrees.initial, rfl, rfl⟩
  world := .nil
  pool := rfl
  count := rfl
  made := rfl
  globals := fun v hv => absurd hv (Globals.not_mem_ofCapacity _ v)
  capacity := by simp [start]

/-- A program that compiles adds to the world, and its code is sound there. -/
structure Compiled (w w' : World) (c : Compiler) : Prop where
  names : ∃ site, Agrees c.symbols site ∧ site.body = none ∧ c.constants.size = site.literals
  larger : w.Extends w'
  made : w'.made = w.made
  world : w'.Sound
  pool : c.constants.toList = w'.pool
  count : c.symbols.scope.definitions = w'.globals
  code : c.buffer.code.Sound ⟨w'.pool, w'.globals, none, 0⟩

theorem Sound.compile {w : World} {session : Session} (h : session.Sound w) {program : Program}
    {c : Compiler}
    (hc : (Block.compile program).run (.start session.symbols session.constants) = .ok () c) :
    ∃ w', Compiled w w' c := by
  rcases h.names with ⟨site, hagrees, hbody, hsize⟩
  rcases Program.compile_sound hagrees hbody hsize hc with ⟨f, hw, hcode, hsound⟩
  have hbody' := Site.body_after_of_none hbody (Block.events program)
  have hpool : c.constants.toList = w.pool ++ f.constants := by
    rw [← h.pool]
    exact hw.constants
  have hcount : w.globals ≤ c.symbols.scope.definitions := by
    rw [← h.count, hagrees.definitions_eq hbody, hw.scanned.agrees.definitions_eq hbody']
    simp [Site.after, hbody]
  -- The new constants are sound in the larger pool, with all globals that are defined now.
  have hmore : Literals (w.pool ++ f.constants) c.symbols.scope.definitions w.pool.length
      f.constants := by
    have hconstants := hsound.constants
    rw [← hsize, ← Array.length_toList, h.pool] at hconstants
    rw [← hpool]
    exact hconstants
  refine ⟨⟨w.pool ++ f.constants, c.symbols.scope.definitions, w.made⟩, ?_⟩
  exact
    { names := ⟨_, hw.scanned.agrees, hbody', hw.literals hsize⟩
      larger := ⟨List.prefix_append _ _, hcount, List.prefix_refl _⟩
      made := rfl
      world := h.world.grow hcount hmore w.made
      pool := hpool
      count := rfl
      code := by
        have hprogram := (hsound.code hcode).2
        rw [← hpool]
        exact hprogram }

/-- The machine that runs a program of a session. -/
theorem Sound.load {w w' : World} {session : Session} {c : Compiler} (h : session.Sound w)
    (hc : Compiled w w' c) (limits : Limits) (run : Nat) :
    (Machine.load c.bytecode session.globals limits run session.created).Sound w' := by
  refine Machine.load_sound limits run hc.world hc.code hc.pool ?_ ?_
  · rw [hc.made, h.made]
  · intro v hv
    exact (h.globals v hv).mono hc.larger

/-- The program can also be run with a global store of its own. -/
theorem Compiled.load {w w' : World} {c : Compiler} (h : Compiled w w' c) (limits : Limits)
    (run capacity : Nat) :
    (Machine.load c.bytecode (.ofCapacity capacity) limits run 0).Sound { w' with made := [] } :=
  Machine.load_sound limits run h.world h.code h.pool rfl
    fun v hv => absurd hv (Globals.not_mem_ofCapacity _ v)

theorem Sound.eval {w : World} {session : Session} (h : session.Sound w) (fuel : Nat)
    (program : Program) : ∃ w', (session.eval fuel program).2.Sound w' := by
  unfold Session.eval
  split
  -- A program that does not compile leaves the session as it was.
  · exact ⟨w, h⟩
  · rename_i c hc
    rcases h.compile hc with ⟨w₁, hcompiled⟩
    cases hrun : (Machine.load c.bytecode session.globals session.limits 0 session.created).run
        fuel with
    | mk ending m =>
        rcases (h.load hcompiled session.limits 0).run hrun with
          ⟨hkept, ⟨w₂, hgrows, hsettled⟩, -⟩
        refine ⟨w₂, ?_⟩
        exact
          { names := hcompiled.names
            world := hsettled.world
            pool := hcompiled.pool.trans hgrows.pool.symm
            count := hcompiled.count.trans hgrows.globals.symm
            made := hsettled.made
            globals := hsettled.globals
            capacity := hkept.globalsSize.trans h.capacity }

theorem Reached.sound {session : Session} (h : session.Reached) : ∃ w, session.Sound w := by
  induction h with
  | start limits => exact ⟨_, start_sound limits⟩
  | eval _ fuel program ih =>
      rcases ih with ⟨w, hw⟩
      exact hw.eval fuel program

/-- Running a program of a session fails for permitted reasons only, and no function comes to the
end of its code without having returned. -/
theorem Reached.run_safe {session : Session} (h : session.Reached) {program : Program} {c : Compiler}
    (hc : (Block.compile program).run (.start session.symbols session.constants) = .ok () c) :
    (∀ fuel fault m,
      (Machine.load c.bytecode session.globals session.limits 0 session.created).run fuel =
          (.failed fault, m) →
        fault.Permitted session.limits.globalsSize) ∧
      ∀ m,
        (Machine.load c.bytecode session.globals session.limits 0 session.created).Reaches m →
          m.callers ≠ #[] → m.frame.ip < m.frame.code.size := by
  rcases h.sound with ⟨w, hw⟩
  rcases hw.compile hc with ⟨w', hcompiled⟩
  have hload := hw.load hcompiled session.limits 0
  constructor
  · intro fuel fault m hrun
    rcases hload.run hrun with ⟨-, -, hpermitted⟩
    rw [← hw.capacity]
    exact hpermitted fault rfl
  · intro m hreaches hcallers
    rcases hload.reaches hreaches with ⟨w'', -, -, hsound⟩
    exact hsound.ip_lt hcallers

/-- A function without end has used up all frames; it is called again. -/
theorem Reached.run_safe_after_overflow :
    ∃ session : Session, session.Reached ∧
      session = (Session.eval 100
        [.bind "f" (.function ["n"]
          [.expr (.call (.ident "f") [.binary (.ident "n") "+" (.int 1)])]),
        .expr (.call (.ident "f") [.int 0])]
        (.start { stackSize := 16, globalsSize := 1, maxFrames := 4 })).2 ∧
      ∃ c, (Block.compile [.expr (.call (.ident "f") [.int 7])]).run
          (.start session.symbols session.constants) = .ok () c ∧
        (∀ fuel fault m,
          (Machine.load c.bytecode session.globals session.limits 0 session.created).run fuel =
              (.failed fault, m) →
            fault.Permitted session.limits.globalsSize) ∧
          ∀ m,
            (Machine.load c.bytecode session.globals session.limits 0 session.created).Reaches m →
              m.callers ≠ #[] → m.frame.ip < m.frame.code.size := by
  refine ⟨_, .eval (.start _) _ _, rfl, ?_⟩
  refine (Program.exists_of_compiles ?_).imp fun c hc => ⟨hc, ?_⟩
  · decide +kernel
  · exact Reached.run_safe (.eval (.start _) _ _) hc

end Session

end MonkeyMachine
