import MonkeyMachine.Proofs.Footprint
import MonkeyMachine.Proofs.StackBound

/-!
# The calling convention

The calls in progress share one stack. Each has its locals from its base on and above them as many
values as the text of its code says, `Code.depthAt`; a call that waits has given its arguments to the
next one, whose base is where they begin. As no step writes below the base of its call, a call that
returns finds everything as it left it, apart from its arguments, which the result has replaced.
-/

namespace MonkeyMachine

/-! ## The depth of an offset -/

/-- The instructions that start before an offset. -/
def before : Nat → List Instr → List Instr
  | _, [] => []
  | offset, i :: is => if offset = 0 then [] else i :: before (offset - i.size) is

theorem before_append (pre post : List Instr) : before (codeSize pre) (pre ++ post) = pre := by
  induction pre with
  | nil => cases post <;> simp [before]
  | cons i pre ih =>
      have hpos := i.size_pos
      have hne : i.size + codeSize pre ≠ 0 := by omega
      simp only [List.cons_append, before, codeSize_cons, if_neg hne, Nat.add_sub_cancel_left, ih]

namespace Code

/-- The number of values that a call has above its locals when it comes to an offset of its code. -/
def depthAt (code : Code) (offset : Nat) : Nat := (depth (before offset code.instrs)).toNat

variable {s : Setting} {code : Code} {pre post : List Instr}

theorem Sound.depth_nonneg (h : code.Sound s) (hinstrs : code.instrs = pre ++ post) :
    0 ≤ MonkeyMachine.depth pre := by
  cases post with
  | nil =>
      rw [List.append_nil] at hinstrs
      rw [← hinstrs, h.depth]
  | cons i post =>
      have hneeds := h.structured.needs pre i post hinstrs
      omega

theorem Sound.depthAt_eq (h : code.Sound s) (hinstrs : code.instrs = pre ++ post) :
    (code.depthAt (codeSize pre) : Int) = MonkeyMachine.depth pre := by
  have hbefore : before (codeSize pre) code.instrs = pre := by
    rw [hinstrs]
    exact before_append pre post
  rw [Code.depthAt, hbefore]
  exact Int.toNat_of_nonneg (h.depth_nonneg hinstrs)

end Code

/-! ## Calls in progress -/

/-- A call waits for the result of another, which will stand where the arguments were. -/
def Frame.Awaited (callee caller : Frame) : Prop :=
  callee.base + 1 = caller.base + caller.body.numLocals + caller.code.depthAt caller.ip

namespace Calls

variable {w : World} {frame : Frame} {callers : List Frame} {height : Nat}

theorem height_eq (h : Calls w frame callers height) (hw : w.Sound) :
    height = frame.base + frame.body.numLocals + frame.code.depthAt frame.ip := by
  rcases h.current with ⟨locals, pre, post, hrole, hat, -, -, hheight⟩
  rcases hrole.code hw with ⟨_, -, hcode⟩
  have hdepth := hcode.depthAt_eq hat.instrs
  rw [hat.ip]
  omega

theorem awaited (h : Calls w frame callers height) (hw : w.Sound) :
    (frame :: callers).IsChain Frame.Awaited := by
  induction h with
  | program => exact .singleton _
  | function _ _ _ _ hcaller ih => exact .cons_cons (hcaller.height_eq hw) ih

/-- The outermost call is that of the top-level program. -/
theorem outermost_program (h : Calls w frame callers height) :
    (outermost frame callers).base = 0 ∧ (outermost frame callers).body.numLocals = 0 := by
  induction h with
  | program hrole =>
      cases hrole with
      | program _ hbase hlocals => exact ⟨hbase, hlocals⟩
  | function _ _ _ _ _ ih => exact ih

end Calls

namespace Machine

/-- How a machine between two instructions shares out its stack. -/
structure Framed (m : Machine) : Prop where
  height : m.stack.height =
    m.frame.base + m.frame.body.numLocals + m.frame.code.depthAt m.frame.ip
  callers : m.calls.IsChain Frame.Awaited
  bottom : m.bottom.base = 0 ∧ m.bottom.body.numLocals = 0
  /-- The next step, whether it succeeds or not, writes only above the base of its call. -/
  writes : Stack.SameBelow m.frame.base m.stack (finalState (Exec.step m)).stack

theorem Sound.framed {w : World} {m : Machine} (h : m.Sound w) : m.Framed := by
  rcases h.stack with ⟨values, hlive, -, hcalls⟩
  refine ⟨?_, hcalls.awaited h.world, hcalls.outermost_program, h.step_below⟩
  rw [hlive.1]
  exact hcalls.height_eq h.world

/-! ## From a call to its return -/

/-- A step has started the call of a function. -/
structure Enters (m m' : Machine) : Prop where
  /-- The caller will go on behind its instruction. -/
  callers : m'.callers = m.callers.push { m.frame with ip := m.frame.ip + Opcode.call.instructionSize }
  /-- The arguments, with the callee above them, have become the first locals. -/
  arguments : m'.frame.base + m'.frame.body.numParams + 1 = m.stack.height
  base : m.frame.base ≤ m'.frame.base
  spares : Spares m'.frame.base m m'

theorem Sound.next {w : World} {m m' : Machine} (h : m.Sound w) (hnext : m.Next m') :
    ∃ w', w.Grows w' ∧ m.Kept m' ∧ m'.Sound w' := h.reaches hnext.reaches

/-- Only the instruction for calls adds to the calls in progress. -/
theorem Sound.about_call {w : World} {m m' : Machine} (h : m.Sound w) (hnext : m.Next m')
    (hgrow : m.callers.size < m'.callers.size) :
    ∃ values pre argc post, m.About w values pre ⟨.call, [argc]⟩ post := by
  have hstep : Exec.step m = .ok .running m' := hnext
  rcases h.about_of_next hnext with ⟨values, pre, i, post, habout⟩
  -- Every other instruction leaves the waiting calls as they are, or takes one away.
  have hop : i.op = .call := by
    by_contra hcall
    by_cases hset : i.op = .setGlobal
    · rcases habout.exists_slot hset with ⟨slot, hi⟩
      have hassigns := habout.assigns hi
      rw [hstep] at hassigns
      have hsame : m'.callers = m.callers := hassigns.callers
      rw [hsame] at hgrow
      exact Nat.lt_irrefl _ hgrow
    · have hspares := habout.spares hset
      rw [hstep] at hspares
      exact Nat.not_lt.2 (hspares.2 hcall) hgrow
  obtain ⟨op, operands⟩ := i
  obtain rfl : op = .call := hop
  obtain ⟨argc, rfl⟩ : ∃ n, operands = [n] :=
    List.length_eq_one_iff.1 (List.Forall₂.length_eq habout.valid).symm
  exact ⟨values, pre, argc, post, habout⟩

theorem Sound.enters {w : World} {m m' : Machine} (h : m.Sound w) (hnext : m.Next m')
    (hgrow : m.callers.size < m'.callers.size) : m.Enters m' := by
  have hstep : Exec.step m = .ok .running m' := hnext
  rcases h.about_call hnext hgrow with ⟨values, pre, argc, post, habout⟩
  have hneeds := habout.needs
  have hcount : (Instr.mk .call [argc]).needs = argc + 1 := rfl
  have hsize : (Instr.mk .call [argc]).size = Opcode.call.instructionSize := rfl
  have hcalls := habout.calls_function rfl
  rw [hstep] at hcalls
  rcases hcalls with hstays | hbegins
  -- A builtin answers at once.
  · rw [hstays.callers] at hgrow
    exact absurd hgrow (Nat.lt_irrefl _)
  · have hbase := hbegins.base
    have hheight := habout.live.1
    refine ⟨?_, ?_, ?_, ?_⟩
    · rw [hbegins.callers, habout.ip]
      simp [Machine.jump, hsize]
    · rw [hbegins.params]
      omega
    · omega
    · rw [hbase]
      exact hbegins.toSpares.of_jump

theorem calls_length (m : Machine) : m.calls.length = m.callers.size + 1 := by simp [calls]

/-- A call that `caller` waits for is in progress. It and the calls inside it have their locals from
slot `base` on. -/
def Inside (caller : Frame) (callers : List Frame) (base : Nat) (m : Machine) : Prop :=
  ∃ inner, inner ≠ [] ∧ m.calls = inner ++ caller :: callers ∧ ∀ frame ∈ inner, base ≤ frame.base

namespace Inside

variable {caller : Frame} {callers : List Frame} {base : Nat} {w : World} {m m' : Machine}

theorem base_le (h : m.Inside caller callers base) : base ≤ m.frame.base := by
  rcases h with ⟨inner, hne, hcalls, hbase⟩
  cases inner with
  | nil => exact absurd rfl hne
  | cons frame inner =>
      have hframe : m.frame = frame := (List.cons.inj hcalls).1
      rw [hframe]
      exact hbase frame (by simp)

theorem size_lt (h : m.Inside caller callers base) : callers.length < m.callers.size := by
  rcases h with ⟨inner, hne, hcalls, -⟩
  have hpos := List.length_pos_of_ne_nil hne
  have hlength := congrArg List.length hcalls
  rw [calls_length, List.length_append, List.length_cons] at hlength
  omega

/-- A step goes on inside the call, or returns from it. -/
theorem next (h : m.Inside caller callers base) (hm : m.Sound w) (hnext : m.Next m') :
    m'.Inside caller callers base ∨ m'.calls = caller :: callers := by
  have hle := h.base_le
  have hruns := hm.runs hnext
  rcases h with ⟨inner, hne, hcalls, hbase⟩
  cases inner with
  | nil => exact absurd rfl hne
  | cons frame inner =>
      obtain ⟨rfl, hrest⟩ : m.frame = frame ∧ m.callers.toList.reverse = inner ++ caller :: callers :=
        List.cons.inj hcalls
      have hinner : ∀ f ∈ inner, base ≤ f.base := fun f hf => hbase f (by simp [hf])
      -- The step moves on in its frame, starts a call, or returns from one.
      cases hruns.moves with
      | @on target _ hframe hsame =>
          refine .inl ⟨{ m.frame with ip := target } :: inner, by simp, ?_, ?_⟩
          · rw [calls, hframe, hsame, hrest]
            rfl
          · intro f hf
            rcases List.mem_cons.1 hf with rfl | hmem
            · exact hle
            · exact hinner f hmem
      | @into target _ _ hpush _ =>
          have hgrow : m.callers.size < m'.callers.size := by
            rw [hpush, Array.size_push]
            exact Nat.lt_succ_self _
          have hbase' := (hm.enters hnext hgrow).base
          refine .inl ⟨m'.frame :: { m.frame with ip := target } :: inner, by simp, ?_, ?_⟩
          · rw [calls, hpush, Array.toList_push, List.reverse_concat, hrest]
            rfl
          · intro f hf
            rcases List.mem_cons.1 hf with rfl | hmem
            · exact hle.trans hbase'
            · rcases List.mem_cons.1 hmem with rfl | hmem
              · exact hle
              · exact hinner f hmem
      | out hpush =>
          have hcalls' : m'.calls = inner ++ caller :: callers := by
            rw [← hrest, hpush, calls]
            simp
          -- What returned was the call itself, or one that was made inside of it.
          cases inner with
          | nil => exact .inr hcalls'
          | cons f inner => exact .inl ⟨f :: inner, by simp, hcalls', hinner⟩

end Inside

/-- A step that is executed in a function leaves the globals alone, whether it succeeds or not. -/
theorem Sound.finalState_globals {w : World} {m : Machine} (h : m.Sound w)
    (hcallers : m.callers ≠ #[]) : (finalState (Exec.step m)).globals = m.globals := by
  have hslots : (finalState (Exec.step m)).globals.slots = m.globals.slots := by
    refine Array.ext_getElem? fun slot => h.step_globals ?_
    intro hassigns
    exact hcallers (h.callers_of_assigns hassigns)
  exact congrArg Globals.mk hslots

theorem Inside.spares {caller : Frame} {callers : List Frame} {base : Nat} {w : World}
    {m m' : Machine} (h : m.Inside caller callers base) (hm : m.Sound w) (hnext : m.Next m') :
    Spares base m m' := by
  have hcallers : m.callers ≠ #[] := by
    intro hnone
    have hlt := h.size_lt
    rw [hnone] at hlt
    exact Nat.not_lt_zero _ hlt
  have hbelow := hm.step_below
  have hglobals := hm.finalState_globals hcallers
  have hstep : Exec.step m = .ok .running m' := hnext
  rw [hstep] at hbelow hglobals
  exact ⟨hbelow.mono h.base_le, hglobals⟩

/-- A call from its start to its return: the step from `m` to `entered` starts it, and the step from
`last` to `back` is the first one after which no more calls are in progress than before. -/
structure CallRun (m entered last back : Machine) : Prop where
  starts : m.Next entered
  deeper : m.callers.size < entered.callers.size
  inside : Relation.ReflTransGen (fun a b => a.Next b ∧ m.callers.size < b.callers.size) entered last
  returns : last.Next back
  done : back.callers.size ≤ m.callers.size

/-- The machine `back` has returned from a call that was made in `m` and began in `entered`. -/
structure Restored (m entered back : Machine) : Prop where
  frame : back.frame = { m.frame with ip := m.frame.ip + Opcode.call.instructionSize }
  callers : back.callers = m.callers
  /-- The callee and the arguments lay above the slots that are kept. -/
  arguments : entered.frame.base + entered.frame.body.numParams + 1 = m.stack.height
  /-- One value has taken their place. -/
  height : back.stack.height = entered.frame.base + 1
  kept : Stack.SameBelow entered.frame.base m.stack back.stack
  globals : back.globals = m.globals

theorem Enters.inside {m m' : Machine} (h : m.Enters m') :
    m'.Inside { m.frame with ip := m.frame.ip + Opcode.call.instructionSize }
      m.callers.toList.reverse m'.frame.base := by
  refine ⟨[m'.frame], by simp, ?_, ?_⟩
  · rw [calls, h.callers]
    simp
  · intro frame hframe
    rw [List.mem_singleton.1 hframe]

/-- As long as a call is in progress, what lies below it stays as it is. -/
theorem Inside.run {caller : Frame} {callers : List Frame} {base depth : Nat} {w : World}
    {m m' : Machine} (h : m.Inside caller callers base) (hdepth : callers.length = depth)
    (hm : m.Sound w)
    (hrun : Relation.ReflTransGen (fun a b => a.Next b ∧ depth < b.callers.size) m m') :
    m'.Inside caller callers base ∧ Spares base m m' ∧ ∃ w', m'.Sound w' := by
  induction hrun with
  | refl => exact ⟨h, ⟨.refl base m.stack, rfl⟩, w, hm⟩
  | @tail m₁ m₂ _ hstep ih =>
      rcases ih with ⟨hinside, hspares, w₁, hsound⟩
      rcases hstep with ⟨hnext, hdeep⟩
      have hspares₂ : Spares base m₁ m₂ := hinside.spares hsound hnext
      rcases hsound.next hnext with ⟨w₂, -, -, hsound₂⟩
      rcases hinside.next hsound hnext with hinside₂ | hreturned
      · exact ⟨hinside₂, hspares.trans hspares₂, w₂, hsound₂⟩
      · -- A return would have left no more calls than there were before.
        have hlength := congrArg List.length hreturned
        rw [calls_length, List.length_cons] at hlength
        omega

theorem Sound.restored {w : World} {m entered last back : Machine} (h : m.Sound w)
    (hrun : CallRun m entered last back) : Restored m entered back := by
  have henters := h.enters hrun.starts hrun.deeper
  rcases h.next hrun.starts with ⟨w₁, -, -, hsound₁⟩
  rcases henters.inside.run (by simp) hsound₁ hrun.inside with ⟨hinside, hspares, w₂, hsound₂⟩
  have hback := hinside.spares hsound₂ hrun.returns
  have hall : Spares entered.frame.base m back := (henters.spares.trans hspares).trans hback
  rcases hinside.next hsound₂ hrun.returns with hdeep | hcalls
  · have hlt := hdeep.size_lt
    have hdone := hrun.done
    simp only [List.length_reverse, Array.length_toList] at hlt
    omega
  · obtain ⟨hframe, hcallers⟩ := List.cons.inj hcalls
    rcases hsound₂.next hrun.returns with ⟨w₃, -, -, hsound₃⟩
    refine ⟨hframe, by simpa using hcallers, henters.arguments, ?_, hall.below, hall.globals⟩
    -- The caller has its values and the result, where the first step left it to wait.
    have hheight := hsound₃.framed.height
    have hchain := hsound₁.framed.callers
    rw [calls, henters.callers, Array.toList_push, List.reverse_concat] at hchain
    have hawaited := (List.isChain_cons_cons.1 hchain).1
    rw [hheight, hframe]
    exact hawaited.symm

/-! ## The end of a run -/

/-- The machine is about to return from its call. -/
def AtReturn (m : Machine) : Prop :=
  m.frame.code.Has m.frame.ip .returnValue [] ∨ m.frame.code.Has m.frame.ip .returnNull []

/-- Only a return ends the run in the middle of the code. -/
theorem About.atReturn {w : World} {m last : Machine} {values : List Value} {pre post : List Instr}
    {i : Instr} (h : m.About w values pre i post) (hends : m.EndsAs .finished last) :
    m.AtReturn := by
  have hstep : Exec.step m = .ok .finished last := hends
  -- After any other instruction the machine goes on.
  have hrunning : ¬ Exec.Leaves (fun progress m' => progress = .running ∧ Runs m w m')
      (Broken m w) (Exec.step m) := by
    intro hleaves
    rw [hstep] at hleaves
    cases hleaves.1
  have hhas := h.has
  have hlength : i.operands.length = i.op.widths.length := (List.Forall₂.length_eq h.valid).symm
  by_cases hop : i.op ∈ control
  · simp only [control, List.mem_cons, List.not_mem_nil, or_false] at hop
    rcases hop with hop | hop | hop | hop | hop
    · exact absurd (h.jump hop) hrunning
    · exact absurd (h.jumpNotTruthy hop) hrunning
    · exact absurd (h.call hop) hrunning
    · rw [hop] at hhas hlength
      rw [List.length_eq_zero_iff.1 hlength] at hhas
      exact .inl hhas
    · rw [hop] at hhas hlength
      rw [List.length_eq_zero_iff.1 hlength] at hhas
      exact .inr hhas
  · exact absurd (h.ordinary hop) hrunning

/-- At the end of its code the top-level program has used up all values. -/
theorem Sound.at_end {w : World} {m : Machine} (h : m.Sound w) (hcallers : m.callers = #[])
    (hend : m.frame.code.size ≤ m.frame.ip) :
    m.frame.ip = m.frame.code.size ∧ m.stack.height = 0 := by
  rcases h.stack with ⟨values, hlive, -, hcalls⟩
  rw [hcallers] at hcalls
  rw [hlive.1]
  cases hcalls with
  | @program _ pre post _ hrole hat hheight =>
      rcases hrole.code h.world with ⟨_, -, hcode⟩
      have hsize := hcode.size_eq
      rw [hat.instrs, codeSize_append] at hsize
      rw [hat.ip] at hend ⊢
      -- No code is left, so all of it has been executed.
      have hpost : post = [] := by
        cases post with
        | nil => rfl
        | cons i post =>
            have hpos := i.size_pos
            rw [codeSize_cons] at hsize
            omega
      have hinstrs := hat.instrs
      rw [hpost, List.append_nil] at hinstrs
      have hdepth := hcode.depth
      rw [hinstrs] at hdepth
      rw [hpost, codeSize_nil] at hsize
      omega

/-- A run that comes to the end of the code has used up all values. -/
theorem Sound.drained {w : World} {m last : Machine} (h : m.Sound w)
    (hends : m.EndsAs .finished last) (hreturn : ¬ m.AtReturn) :
    m.callers = #[] ∧ m.frame.code.size ≤ m.frame.ip ∧ last = m ∧ last.stack.height = 0 := by
  rcases h.about with ⟨hcallers, hend⟩ | ⟨values, pre, i, post, habout⟩
  · have hstep : Exec.step m = .ok .finished last := hends
    rw [Exec.step_at_end hend hcallers] at hstep
    obtain rfl : m = last := by
      cases hstep
      rfl
    exact ⟨hcallers, hend, rfl, (h.at_end hcallers hend).2⟩
  · exact absurd (habout.atReturn hends) hreturn

/-- The stack discipline of a whole run. -/
structure Disciplined (start : Machine) : Prop where
  framed : ∀ m, start.Reaches m → m.Framed
  restores : ∀ m entered last back, start.Reaches m → CallRun m entered last back →
    Restored m entered back
  drained : ∀ m last, start.Reaches m → m.EndsAs .finished last → ¬ m.AtReturn →
    last.stack.height = 0

theorem Sound.disciplined {w : World} {start : Machine} (h : start.Sound w) : start.Disciplined where
  framed := by
    intro m hreaches
    rcases h.reaches hreaches with ⟨w', -, -, hsound⟩
    exact hsound.framed
  restores := by
    intro m entered last back hreaches hrun
    rcases h.reaches hreaches with ⟨w', -, -, hsound⟩
    exact hsound.restored hrun
  drained := by
    intro m last hreaches hends hreturn
    rcases h.reaches hreaches with ⟨w', -, -, hsound⟩
    exact (hsound.drained hends hreturn).2.2.2

end Machine

/-- Every run of a compiled program keeps to the stack discipline, whatever the limits are: with the
values that the session has, and with a store of its own. -/
theorem Session.Reached.run_disciplined {session : Session} (h : session.Reached)
    {program : Program} {c : Compiler}
    (hc : (Block.compile program).run (.start session.symbols session.constants) = .ok () c)
    (limits : Limits) :
    (Machine.load c.bytecode session.globals limits 0 session.created).Disciplined ∧
      (Machine.load c.bytecode (.ofCapacity limits.globalsSize) limits 0 0).Disciplined := by
  rcases h.sound with ⟨w, hw⟩
  rcases hw.compile hc with ⟨w', hcompiled⟩
  exact ⟨(hw.load hcompiled limits 0).disciplined, (hcompiled.load limits 0 _).disciplined⟩

/-- A call inside the arguments of another one, in a session that has the callee. -/
theorem Session.Reached.run_disciplined_of_nested_call :
    ∃ session : Session, session.Reached ∧
      session = (Session.eval 100
        [.bind "add" (.function ["a", "b"] [.bind "sum" (.binary (.ident "a") "+" (.ident "b")),
          .ret (.ident "sum")])] (.start {})).2 ∧
      ∃ c, (Block.compile
          [.expr (.binary (.int 1) "+"
            (.call (.ident "add") [.int 2, .call (.ident "add") [.int 3, .int 4]]))]).run
          (.start session.symbols session.constants) = .ok () c ∧
        ∀ limits : Limits,
          (Machine.load c.bytecode session.globals limits 0 session.created).Disciplined ∧
            (Machine.load c.bytecode (.ofCapacity limits.globalsSize) limits 0 0).Disciplined := by
  refine ⟨_, .eval (.start _) _ _, rfl, ?_⟩
  refine (Program.exists_of_compiles ?_).imp fun c hc => ⟨hc, ?_⟩
  · -- The run need not be evaluated to know the names.
    rw [Session.start_eval 100 (by decide +kernel)]
    decide +kernel
  · exact Session.Reached.run_disciplined (.eval (.start _) _ _) hc

end MonkeyMachine
