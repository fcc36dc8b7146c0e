import MonkeyMachine.Proofs.CallCorrectness
import MonkeyMachine.Proofs.SessionSafety

/-!
# Compiled programs do what they mean

The value that a session gives for a program, the fault that it reports and the text that it prints
are those of the interpreter, program after program. The machine falls short of the interpreter only
where its stack or its global store is too small. How large they have to be can be told from the
code.
-/

namespace MonkeyMachine

open Machine (Mirrors Returns Shares)
open Exec (onStack_of_ok)

/-! ## The top level -/

/-- The execution of the top-level program. -/
def Activation.program (g : Ground) (code : Code) : Activation where
  ground := g
  locals := none
  env := .top
  frame := .program 0 code
  callers := #[]
  lower := []

theorem Activation.program_valid (g : Ground) (code : Code) : (program g code).Valid where
  base := rfl
  free := rfl
  captured := List.forall_mem_nil _
  self := fun hlocals => absurd rfl hlocals

/-- The result of a program as sessions give it. -/
def Outcome.evaluation (outcome : Outcome) : Evaluation where
  result := (outcome.result.map Datum.value).mapError .runtime
  output := outcome.output

namespace Machine

/-- The run has ended with a result of the interpreter and with its memory. -/
structure Concludes (g : Ground) (result : Except Fault Datum) (mem : Memory) (ending : Ending)
    (m : Machine) : Prop extends Shares g mem m where
  result : ending.result m.lastPopped = (result.map Datum.value).mapError .runtime

theorem Concludes.ended {g : Ground} {result : Except Fault Datum} {mem : Memory} {ending : Ending}
    {m : Machine} (h : m.Concludes g result mem ending) : ending ≠ .outOfFuel := by
  rintro rfl
  have hresult := h.result
  cases result <;> cases hresult

theorem Concludes.of_failed {g : Ground} {result : Except Fault Datum} {mem : Memory} {fault : Fault}
    {m : Machine} (h : m.Concludes g result mem (.failed fault)) : result = .error fault := by
  have hresult := h.result
  cases result with
  | ok d => cases hresult
  | error cause =>
      cases hresult
      rfl

/-- A return statement at the top level ends the program. -/
theorem Returns.concludes {g : Ground} {code : Code} {d : Datum} {mem : Memory} {m : Machine}
    (h : m.Returns (.program g code) d mem) :
    ∃ m', m.EndsAs .finished m' ∧ m'.Concludes g (.ok d) mem .finished := by
  rcases h.leaves with ⟨m₁, upper, hstep, hshares, -, hcallers, hlive, hroom⟩
  have hroom' : ([] ++ upper).length < m₁.stack.capacity := by
    rw [hshares.stackSize]
    exact hroom rfl
  -- The result is pushed and popped again.
  rcases hlive.push d.value hroom' with ⟨stack, hpush, hlive', hsize⟩
  have hpop := onStack_of_ok (m := { m₁ with stack }) hlive'.pop.1
  have hstep' : Exec.step m = .ok .finished
      { m₁ with stack := { stack with height := ([] ++ upper).length } } := by
    rw [hstep, Exec.leaveBody_of_last _ hcallers]
    exact (act_bind_of_ok (onStack_of_ok hpush)).trans (act_bind_of_ok hpop)
  refine ⟨_, hstep', { hshares with stackSize := hsize.trans hshares.stackSize, result := ?_ }⟩
  exact congrArg Except.ok hlive'.lastPopped

end Machine

/-- The code of a program is executed as the program is evaluated. -/
theorem Program.eval_concludes {g : Ground} {code : Code} {program : Program} {site : Site}
    {f : Fragment} {mem : Memory} {m : Machine}
    (hlays : (Activation.program g code).Lays site (Block.events program)
      (Block.layout .drop site 0 program) 0 f)
    (hsize : code.size = f.size) (hm : m.IsSound) (h : m.Mirrors (.program g code) mem [] 0)
    (hlast : m.lastPopped = .null) :
    m.Arrives g fun last => ∃ ending m', last.EndsAs ending m' ∧
      m'.Concludes g (Program.eval g.limits.maxFrames site program mem).1
        (Program.eval g.limits.maxFrames site program mem).2 ending := by
  have hcall : (Activation.program g code).Handles
      (Datum.call g.limits.maxFrames (g.limits.maxFrames - 1)) :=
    Activation.handles_call _ rfl
  have hdrop : Tail.drop = .leave → (Activation.program g code).locals ≠ none := nofun
  have hperforms : m.Performs (.program g code)
      (Tail.drop.Ends (.program g code) [] (0 + f.size))
      (Block.eval (Datum.call g.limits.maxFrames (g.limits.maxFrames - 1)) .top site program
        mem) := by
    cases program with
    | nil =>
        -- Nothing has been dropped, so the machine tells what it told at the start.
        cases hlays.laid
        exact Tail.drop.onNothing_ends h (Activation.program_valid g code) hdrop hlays.code rfl
          fun _ => hlast
    | cons stmt rest =>
        exact Block.eval_realizes (stmt :: rest) (Activation.program_valid g code) hcall hdrop
          (fun _ => List.cons_ne_nil _ _) site hlays hm h
  refine Machine.Arrives.bind hperforms fun m' _ hafter => .here ?_
  unfold Program.eval
  cases hresult : Block.eval (Datum.call g.limits.maxFrames (g.limits.maxFrames - 1)) .top site
      program mem with
  | ok done mem' =>
      rw [hresult] at hafter
      rcases hafter with ⟨hmirrors, hvalue⟩
      have hend : m'.frame.code.size ≤ m'.frame.ip := by
        rw [hmirrors.frame, Nat.zero_add]
        exact Nat.le_of_eq hsize
      exact ⟨.finished, m', Exec.step_at_end hend hmirrors.callers,
        { hmirrors.toShares with result := congrArg Except.ok hvalue }⟩
  | error stop mem' =>
      rw [hresult] at hafter
      cases stop with
      | returned d =>
          have hreturns : m'.Returns (.program g code) d mem' := hafter
          exact ⟨.finished, hreturns.concludes⟩
      | failed fault =>
          rcases hafter with ⟨m'', hstep, hshares⟩
          exact ⟨.failed fault, m'', hstep, { hshares with result := rfl }⟩

/-! ## Sessions -/

/-- A session and the interpreter have come to the same point. -/
structure Session.Matches (session : Session) (ref : Reference) : Prop where
  sound : ∃ w, session.Sound w
  names : Agrees session.symbols ref.site
  top : ref.site.body = none
  literals : session.constants.size = ref.site.literals
  globals : ∀ slot < session.limits.globalsSize,
    session.globals.slots[slot]? = some ((ref.globals slot).map Datum.value)
  created : session.created = ref.created
  assigned : ∀ slot d, ref.globals slot = some d →
    d.Placed session.constants.toList session.symbols.scope.definitions

theorem Session.start_matches (limits : Limits) : (start limits).Matches .start where
  sound := ⟨_, start_sound limits⟩
  names := Agrees.initial
  top := rfl
  literals := rfl
  globals := by
    intro slot hslot
    exact (Array.getElem?_replicate).trans (if_pos hslot)
  created := rfl
  assigned := nofun

/-- What a program of a session is run with. -/
def Session.ground (session : Session) (c : Compiler) : Ground where
  pool := c.constants.toList
  globals := c.symbols.scope.definitions
  limits := session.limits

/-- The faults that tell of a machine too small for a program. -/
inductive Fault.OutOfRoom (session : Session) (c : Compiler) : Fault → Prop
  /-- The stack has become so full that the locals of a function do not fit on it. The code tells how
  large it can be without this ever happening. -/
  | stack {m : Machine} (hreaches : (session.machine c).Reaches m)
      (hfull : session.limits.stackSize ≤ m.stack.height + widest c.constants.toList)
      (hbound : session.limits.stackSize ≤ c.bytecode.stackBound session.limits) :
      OutOfRoom session c (.stackOverflow session.limits.stackSize)
  /-- There is no slot for one of the globals. -/
  | globals {slot : Nat} (hfull : session.limits.globalsSize ≤ slot)
      (hslot : slot < c.symbols.scope.definitions) :
      OutOfRoom session c (.globalOutOfRange slot session.limits.globalsSize)

namespace Session.Matches

variable {session : Session} {ref : Reference} {program : Program} {c : Compiler}

/-- A program that compiles keeps the constants and the globals that there were. -/
theorem extends_of_wrote {f : Fragment} (h : session.Matches ref)
    (hw : Wrote (.start session.symbols session.constants) ref.site (Block.events program) f c) :
    session.constants.toList <+: c.constants.toList ∧
      session.symbols.scope.definitions ≤ c.symbols.scope.definitions := by
  refine ⟨⟨f.constants, hw.constants.symm⟩, ?_⟩
  have hbody := Site.body_after_of_none h.top (Block.events program)
  rw [h.names.definitions_eq h.top, hw.scanned.agrees.definitions_eq hbody]
  simp [Site.after, h.top]

/-- The machine is loaded with what evaluation starts with. -/
theorem load (h : session.Matches ref) (hpool : session.constants.toList <+: c.constants.toList)
    (hglobals : session.symbols.scope.definitions ≤ c.symbols.scope.definitions) :
    (session.machine c).Mirrors (.program (session.ground c) c.buffer.code) ref.memory [] 0 where
  pool := rfl
  maxFrames := rfl
  stackSize := Stack.capacity_ofCapacity _
  globalsSize := by
    rcases h.sound with ⟨w, hw⟩
    exact hw.capacity
  globals := h.globals
  created := h.created
  output := rfl
  assigned := fun slot d hd => (h.assigned slot d hd).mono hpool hglobals
  frame := rfl
  callers := rfl
  live := Stack.live_ofCapacity _
  cells := rfl
  placed := List.forall_mem_nil _

theorem arrives (h : session.Matches ref)
    (hc : (Block.compile program).run (.start session.symbols session.constants) = .ok () c)
    (hm : (session.machine c).IsSound) :
    (session.machine c).Arrives (session.ground c) fun last => ∃ ending m', last.EndsAs ending m' ∧
        m'.Concludes (session.ground c)
          (Program.eval session.limits.maxFrames ref.site program ref.memory).1
          (Program.eval session.limits.maxFrames ref.site program ref.memory).2 ending := by
  rcases Program.compile_layout h.names h.top h.literals hc with
    ⟨f, hw, hlayout, hwithin, hconstants⟩
  have hcode : c.buffer.code.toList = assemble f.instrs := hw.code
  have hsize : c.buffer.code.size = f.size := by
    rw [← Array.length_toList, hcode, length_assemble hw.valid]
    rfl
  have hlays : (Activation.program (session.ground c) c.buffer.code).Lays ref.site
      (Block.events program) (Block.layout .drop ref.site 0 program) 0 f := by
    refine ⟨⟨⟨hw.valid, [], ?_⟩, hconstants⟩, hlayout, hwithin⟩
    show assemble f.instrs ++ [] = c.buffer.code.toList.drop 0
    rw [List.append_nil, hcode, List.drop_zero]
  rcases h.extends_of_wrote hw with ⟨hpool, hglobals⟩
  exact Program.eval_concludes hlays hsize hm (h.load hpool hglobals)
    (Stack.lastPopped_ofCapacity _)

/-- A run that was not broken off has ended as evaluation does, or for lack of room. -/
theorem run (h : session.Matches ref)
    (hc : (Block.compile program).run (.start session.symbols session.constants) = .ok () c)
    {fuel : Nat} {ending : Ending} {m : Machine}
    (hrun : (session.machine c).run fuel = (ending, m)) (hfuel : ending ≠ .outOfFuel) :
    m.Concludes (session.ground c)
        (Program.eval session.limits.maxFrames ref.site program ref.memory).1
        (Program.eval session.limits.maxFrames ref.site program ref.memory).2 ending ∨
      ∃ fault, ending = .failed fault ∧ fault.OutOfRoom session c := by
  rcases h.sound with ⟨w, hw⟩
  rcases hw.compile hc with ⟨w', hcompiled⟩
  have hload := hw.load hcompiled session.limits 0
  rcases h.arrives hc ⟨w', hload⟩ with ⟨last, hreaches, hconcludes | hexceeds⟩
  · rcases hconcludes with ⟨ending', m', hends, hm'⟩
    rcases Machine.run_unique hrun hfuel hreaches hends hm'.ended with ⟨rfl, rfl⟩
    exact .inl hm'
  · rcases hexceeds with ⟨fault, m', hstep, hexceeding⟩
    have hends : last.EndsAs (.failed fault) m' := hstep
    rcases Machine.run_unique hrun hfuel hreaches hends (by simp) with ⟨rfl, rfl⟩
    refine .inr ⟨fault, rfl, ?_⟩
    cases hexceeding with
    | stack hfull =>
        exact .stack hreaches hfull (hfull.trans (Machine.height_le_of_load hload hreaches))
    | globals hfull hslot => exact .globals hfull hslot

end Session.Matches

/-- The program was compiled and has come to an end, be it with a fault of its own. -/
def Evaluation.complete (evaluation : Evaluation) : Bool :=
  match evaluation.result with
  | .ok _ => true
  | .error (.runtime (.stackOverflow _)) => false
  | .error (.runtime (.globalOutOfRange _ _)) => false
  | .error (.runtime _) => true
  | .error _ => false

namespace Session

theorem eval_of_refused {session : Session} {fuel : Nat} {program : Program} {cause : CompileError}
    (h : (session.eval fuel program).1.result = .error (.compile cause)) :
    (session.eval fuel program).2 = session := by
  unfold Session.eval at h ⊢
  split at h
  · rfl
  · -- The result of a run is no compile error.
    generalize Machine.run fuel _ = final at h
    rcases final with ⟨ending | _ | _, m⟩ <;> cases h

/-- What a program leaves behind is what its evaluation leaves behind. -/
theorem Matches.eval {session : Session} {ref : Reference} (h : session.Matches ref) {fuel : Nat}
    {program : Program} (hcomplete : (session.eval fuel program).1.complete = true) :
    (session.eval fuel program).2.Matches (ref.eval session.limits.maxFrames program).2 := by
  rcases h.sound with ⟨w, hw⟩
  have hsound := hw.eval fuel program
  cases hc : (Block.compile program).run (.start session.symbols session.constants) with
  | error cause c =>
      simp only [Session.eval, hc] at hcomplete
      cases hcomplete
  | ok _ c =>
      cases hrun : (session.machine c).run fuel with
      | mk ending m =>
          rw [eval_of_compile hc hrun] at hcomplete hsound ⊢
          have hfuel : ending ≠ .outOfFuel := by
            rintro rfl
            cases hcomplete
          rcases h.run hc hrun hfuel with hconcludes | ⟨fault, rfl, hroom⟩
          · rcases Program.compile_layout h.names h.top h.literals hc with ⟨f, hw, -, -, -⟩
            exact
              { sound := hsound
                names := hw.scanned.agrees
                top := Site.body_after_of_none h.top _
                literals := hw.literals h.literals
                globals := hconcludes.globals
                created := hconcludes.created
                assigned := hconcludes.assigned }
          -- A run that ended for lack of room is not complete.
          · cases hroom <;> cases hcomplete

/-- A session and the interpreter that have been given the same programs. A program that does not
compile is ignored. After one that has run out of room, or was broken off, the two have parted. -/
inductive Interpreted : Session → Reference → Prop
  | start (limits : Limits) : Interpreted (.start limits) .start
  | eval {session : Session} {ref : Reference} (h : Interpreted session ref) (fuel : Nat)
      (program : Program) (hcomplete : (session.eval fuel program).1.complete = true) :
      Interpreted (session.eval fuel program).2 (ref.eval session.limits.maxFrames program).2
  | refused {session : Session} {ref : Reference} (h : Interpreted session ref) (fuel : Nat)
      (program : Program) (cause : CompileError)
      (hrefused : (session.eval fuel program).1.result = .error (.compile cause)) :
      Interpreted (session.eval fuel program).2 ref

namespace Interpreted

theorem toMatches {session : Session} {ref : Reference} (h : session.Interpreted ref) :
    session.Matches ref := by
  induction h with
  | start limits => exact start_matches limits
  | eval _ fuel program hcomplete ih => exact ih.eval hcomplete
  | refused _ fuel program cause hrefused ih =>
      rw [eval_of_refused hrefused]
      exact ih

/-- Sessions give the values and faults of the interpreter and print what it prints, unless they run
out of room. -/
theorem eval_correct {session : Session} {ref : Reference} (h : session.Interpreted ref)
    {program : Program} {c : Compiler}
    (hc : (Block.compile program).run (.start session.symbols session.constants) = .ok () c)
    {fuel : Nat} (hfuel : c.bytecode.bound session.limits ≤ fuel) :
    (session.eval fuel program).1 = (ref.eval session.limits.maxFrames program).1.evaluation ∨
      ∃ fault, (session.eval fuel program).1.result = .error (.runtime fault) ∧
        fault.OutOfRoom session c := by
  rcases h.toMatches.sound with ⟨w, hw⟩
  rcases hw.compile hc with ⟨w', hcompiled⟩
  rcases Machine.load_ends (hw.load hcompiled session.limits 0) with ⟨ending, m, hended, hrun⟩
  rw [eval_of_compile hc (hrun fuel hfuel)]
  rcases h.toMatches.run hc (hrun fuel hfuel) hended with hconcludes | ⟨fault, rfl, hroom⟩
  · refine .inl ?_
    rw [hconcludes.result, hconcludes.output]
    rfl
  · exact .inr ⟨fault, rfl, hroom⟩

/-- A closure that an earlier program has made is called, and a function calls itself. -/
theorem eval_correct_of_closure :
    ∃ session ref program,
      session = (Session.eval 100
        [.bind "adder" (.function ["a"] [.expr (.function ["b"]
          [.expr (.cond (.binary (.ident "b") "<" (.ident "a"))
            [.expr (.binary (.ident "a") "+" (.ident "b"))] none)])]),
        .bind "five" (.call (.ident "adder") [.int 5])]
        (.start { stackSize := 64, globalsSize := 8, maxFrames := 4 })).2 ∧
      program =
        [.expr (.call (.ident "puts") [.call (.ident "five") [.int 3]]),
        .bind "down" (.function ["n"] [.expr (.cond (.binary (.ident "n") ">" (.int 0))
          [.expr (.call (.ident "down") [.binary (.ident "n") "-" (.int 1)])]
          (some [.expr (.ident "n")]))]),
        .expr (.call (.ident "down") [.int 2])] ∧
      session.Interpreted ref ∧
      ∃ c, (Block.compile program).run (.start session.symbols session.constants) = .ok () c ∧
        ∀ fuel, c.bytecode.bound session.limits ≤ fuel →
          (session.eval fuel program).1 =
              (ref.eval session.limits.maxFrames program).1.evaluation ∨
            ∃ fault, (session.eval fuel program).1.result = .error (.runtime fault) ∧
              fault.OutOfRoom session c := by
  have hinterpreted := Interpreted.eval (.start { stackSize := 64, globalsSize := 8, maxFrames := 4 })
    100 [.bind "adder" (.function ["a"] [.expr (.function ["b"]
          [.expr (.cond (.binary (.ident "b") "<" (.ident "a"))
            [.expr (.binary (.ident "a") "+" (.ident "b"))] none)])]),
        .bind "five" (.call (.ident "adder") [.int 5])] (by decide +kernel)
  refine ⟨_, _, _, rfl, rfl, hinterpreted, ?_⟩
  refine (Program.exists_of_compiles ?_).imp fun c hc => ⟨hc, ?_⟩
  · decide +kernel
  · exact fun fuel hfuel => hinterpreted.eval_correct hc hfuel

end Interpreted

end Session

end MonkeyMachine
