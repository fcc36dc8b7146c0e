import MonkeyMachine.Proofs.Census
import MonkeyMachine.Proofs.GlobalStore

/-!
# A program disturbs only the names that it binds

A name that a program does not bind at the top level stands for the same afterwards, and what it
stands for is still there: the program assigns no slot but those of the names it binds. So evaluating
the name alone gives the same before and after the program, whether the program ended, failed to
compile or failed while it ran.
-/

namespace MonkeyMachine

/-! ## What a name stands for -/

theorem Names.lastIndex?_append_of_not_mem {name : String} (names : List String)
    {more : List String} (h : name ∉ more) :
    lastIndex? name (names ++ more) = lastIndex? name names := by
  induction names with
  | nil => rw [List.nil_append, lastIndex?_eq_none_iff.2 h, lastIndex?]
  | cons first rest ih => rw [List.cons_append, lastIndex?, ih, lastIndex?]

theorem Site.outerPlace?_after {site : Site} (hbody : site.body = none) {events : List Event}
    {name : String} (h : name ∉ Event.binds events) :
    (site.after events).outerPlace? name = site.outerPlace? name := by
  unfold Site.outerPlace?
  rw [Site.globals_after_of_none hbody, Names.lastIndex?_append_of_not_mem _ h]

theorem Site.outerPlace?_eq_some {site : Site} {name : String} {place : Place}
    (h : site.outerPlace? name = some place) :
    (∃ slot, slot < site.globals.length ∧ place = .global slot) ∨ ∃ b, place = .builtin b := by
  unfold Site.outerPlace? at h
  cases hindex : Names.lastIndex? name site.globals with
  | some slot =>
      rw [hindex] at h
      cases h
      exact .inl ⟨slot, Names.lastIndex?_lt hindex, rfl⟩
  | none =>
      rw [hindex] at h
      rcases Option.map_eq_some_iff.1 h with ⟨b, -, rfl⟩
      exact .inr ⟨b, rfl⟩

theorem Site.load_of_none {site : Site} (hbody : site.body = none) {name : String}
    (h : site.outerPlace? name = none) : site.load name = .error (.undefinedVariable name) := by
  simp [Site.load, Site.place?, hbody, h]

theorem Site.load_of_some {site : Site} (hbody : site.body = none) {name : String} {place : Place}
    (h : site.outerPlace? name = some place) : site.load name = place.load := by
  simp [Site.load, Site.place?, hbody, h]

/-! ## A program that looks up a name -/

/-- What comes of a program that pushes a value and drops it: it takes three steps and one slot of
the stack. -/
def lookUpResult (capacity : Nat) (answer : Except Fault Value) (fuel : Nat) :
    Except EvalError Value :=
  match fuel, answer with
  | 0, _ => .error .outOfFuel
  | _ + 1, .error fault => .error (.runtime fault)
  | fuel + 1, .ok v =>
      if capacity = 0 then .error (.runtime (.stackOverflow 0))
      else if fuel < 2 then .error .outOfFuel
      else .ok v

namespace Machine

section LookUp

variable {m : Machine} {i : Instr} {part : Machine → Except Fault Value}
  {answer : Except Fault Value} {v : Value}

theorem step_push (hholds : m.frame.code.Holds m.frame.ip [i, ⟨.pop, []⟩])
    (hexecute : Exec.execute i.op (i.operands.getD 0 0) (i.operands.getD 1 0) =
      Exec.goOn (Exec.pushFrom part))
    (hpart : part (m.jump (m.frame.ip + i.size)) = answer) :
    Exec.step m =
      Exec.goOn (Exec.ofResult answer >>= Exec.push) (m.jump (m.frame.ip + i.size)) := by
  rw [Exec.step_of_holds hholds, hexecute, ← hpart]
  rfl

/-- With one value on the stack, the program drops it and ends. -/
theorem run_pop (hholds : m.frame.code.Holds m.frame.ip [⟨.pop, []⟩])
    (hend : m.frame.code.size = m.frame.ip + 1) (hcallers : m.callers = #[])
    (hlive : m.stack.Live [v]) (fuel : Nat) :
    (m.run fuel).1.result (m.run fuel).2.lastPopped =
        (if fuel < 2 then .error .outOfFuel else .ok v) ∧
      (m.run fuel).2.output = m.output := by
  have hsplit : m.stack.Live ([] ++ [v]) := hlive
  rcases hsplit.pop with ⟨hpop, -⟩
  have hstep : m.Next
      { m.jump (m.frame.ip + 1) with stack := { m.stack with height := 0 } } := by
    show Exec.step m = _
    rw [Exec.step_of_holds hholds]
    exact act_bind_of_ok (act_bind_of_ok (Exec.onStack_of_ok hpop))
  match fuel with
  | 0 => exact ⟨rfl, rfl⟩
  | 1 =>
      rw [run_of_next hstep]
      exact ⟨rfl, rfl⟩
  | fuel + 2 =>
      have hlast : Exec.step { m.jump (m.frame.ip + 1) with stack := { m.stack with height := 0 } } =
          .ok .finished { m.jump (m.frame.ip + 1) with stack := { m.stack with height := 0 } } :=
        Exec.step_at_end (Nat.le_of_eq hend) hcallers
      rw [run_of_next hstep, run, hlast, if_neg (by omega)]
      exact ⟨congrArg Except.ok hsplit.lastPopped, rfl⟩

/-- A program that pushes a value and drops it. -/
theorem run_lookUp (hholds : m.frame.code.Holds m.frame.ip [i, ⟨.pop, []⟩])
    (hend : m.frame.code.size = m.frame.ip + i.size + 1) (hcallers : m.callers = #[])
    (hempty : m.stack.Live [])
    (hexecute : Exec.execute i.op (i.operands.getD 0 0) (i.operands.getD 1 0) =
      Exec.goOn (Exec.pushFrom part))
    (hpart : part (m.jump (m.frame.ip + i.size)) = answer) (fuel : Nat) :
    (m.run fuel).1.result (m.run fuel).2.lastPopped =
        lookUpResult m.stack.capacity answer fuel ∧
      (m.run fuel).2.output = m.output := by
  have hstep := step_push hholds hexecute hpart
  cases fuel with
  | zero => exact ⟨rfl, rfl⟩
  | succ fuel =>
      cases answer with
      | error fault =>
          have hends : m.EndsAs (.failed fault) (m.jump (m.frame.ip + i.size)) :=
            hstep.trans (act_bind_of_error (act_bind_of_error rfl))
          rw [run_of_endsAs hends (by simp)]
          exact ⟨rfl, rfl⟩
      | ok v =>
          -- Even a single value may be too many for the stack.
          by_cases hfull : m.stack.capacity = 0
          · have hends : m.EndsAs (.failed (.stackOverflow m.stack.capacity))
                (m.jump (m.frame.ip + i.size)) :=
              hstep.trans (act_bind_of_error ((act_bind_of_ok rfl).trans
                (Exec.onStack_of_error (hempty.push_full v (Nat.le_of_eq hfull)))))
            rw [run_of_endsAs hends (by simp), lookUpResult, if_pos hfull, hfull]
            exact ⟨rfl, rfl⟩
          · rcases hempty.push v (Nat.pos_of_ne_zero hfull) with ⟨stack, hpush, hlive, -⟩
            have hnext : m.Next { m.jump (m.frame.ip + i.size) with stack } :=
              hstep.trans (act_bind_of_ok ((act_bind_of_ok rfl).trans (Exec.onStack_of_ok hpush)))
            rw [run_of_next hnext, lookUpResult, if_neg hfull]
            exact run_pop (m := { m.jump (m.frame.ip + i.size) with stack }) hholds.tail hend
              hcallers hlive fuel

end LookUp

end Machine

namespace Session

variable {session session' : Session} {site site' : Site}

/-- What evaluating a name alone gives: the name is compiled to one instruction, that `load` says. -/
def lookUp (limits : Limits) (load : Except CompileError Fragment) (answer : Except Fault Value)
    (fuel : Nat) : Evaluation :=
  match load with
  | .error cause => { result := .error (.compile cause), output := "" }
  | .ok _ => { result := lookUpResult limits.stackSize answer fuel, output := "" }

theorem eval_of_error {program : Program} {cause : CompileError} {c : Compiler}
    (hc : (Block.compile program).run (.start session.symbols session.constants) = .error cause c)
    (fuel : Nat) :
    session.eval fuel program = ({ result := .error (.compile cause), output := "" }, session) := by
  simp only [eval, hc]

theorem eval_ident_of_error (hnames : Agrees session.symbols site) (hbody : site.body = none)
    (hliterals : session.constants.size = site.literals) {name : String} {cause : CompileError}
    (hload : site.load name = .error cause) (fuel : Nat) :
    (session.eval fuel [.expr (.ident name)]).1 =
      { result := .error (.compile cause), output := "" } := by
  have hfollows := Program.compile_follows [.expr (.ident name)] hnames hbody hliterals
  have hlayout : Block.layout .drop site 0 [.expr (.ident name)] = .error cause := by
    show Fragment.seq (site.load name) _ = _
    rw [hload]
    rfl
  rw [hlayout] at hfollows
  rcases hfollows with ⟨c, hc⟩
  rw [eval_of_error hc]

theorem eval_ident (hnames : Agrees session.symbols site) (hbody : site.body = none)
    (hliterals : session.constants.size = site.literals) {name : String} {i : Instr}
    (hload : site.load name = Fragment.emit i.op i.operands)
    {part : Machine → Except Fault Value} {answer : Except Fault Value}
    (hexecute : Exec.execute i.op (i.operands.getD 0 0) (i.operands.getD 1 0) =
      Exec.goOn (Exec.pushFrom part))
    (hpart : ∀ m, m.globals = session.globals → part m = answer) (fuel : Nat) :
    (session.eval fuel [.expr (.ident name)]).1 =
      lookUp session.limits (Fragment.emit i.op i.operands) answer fuel := by
  cases hemit : Fragment.emit i.op i.operands with
  | error cause => exact eval_ident_of_error hnames hbody hliterals (hload.trans hemit) fuel
  | ok f =>
      rcases Fragment.emit_eq_ok_iff.1 hemit with ⟨hvalid, rfl⟩
      have hfollows := Program.compile_follows [.expr (.ident name)] hnames hbody hliterals
      have hlayout : Block.layout .drop site 0 [.expr (.ident name)] =
          .ok (.ofInstrs [i, ⟨.pop, []⟩]) := by
        show Fragment.seq (site.load name) _ = _
        rw [hload, hemit]
        rfl
      rw [hlayout] at hfollows
      rcases hfollows with ⟨c, hc, hw⟩
      have hcode : c.buffer.code.toList = assemble [i, ⟨.pop, []⟩] := hw.code
      have hsize : c.buffer.code.size = 0 + i.size + 1 := by
        rw [hw.size]
        show 0 + codeSize [i, ⟨.pop, []⟩] = _
        simp [codeSize]
        rfl
      have hrun := Machine.run_lookUp (m := session.machine c) (.of_assemble hw.valid hcode)
        hsize rfl (Stack.live_ofCapacity _) hexecute (hpart _ rfl) fuel
      have hcapacity : (session.machine c).stack.capacity = session.limits.stackSize :=
        Array.size_replicate
      rw [hcapacity] at hrun
      rw [eval_of_compile hc rfl, hrun.1, hrun.2]
      rfl

/-- Sessions where a name has the same place, and the place holds the same, evaluate the name to the
same. -/
theorem eval_ident_congr (hnames : Agrees session.symbols site) (hbody : site.body = none)
    (hliterals : session.constants.size = site.literals)
    (hnames' : Agrees session'.symbols site') (hbody' : site'.body = none)
    (hliterals' : session'.constants.size = site'.literals)
    (hlimits : session'.limits = session.limits) {name : String}
    (hplace : site'.outerPlace? name = site.outerPlace? name)
    (hget : ∀ slot, site.outerPlace? name = some (.global slot) →
      session'.globals.get slot = session.globals.get slot) (fuel : Nat) :
    (session'.eval fuel [.expr (.ident name)]).1 = (session.eval fuel [.expr (.ident name)]).1 := by
  cases houter : site.outerPlace? name with
  | none =>
      rw [houter] at hplace
      rw [eval_ident_of_error hnames hbody hliterals (Site.load_of_none hbody houter),
        eval_ident_of_error hnames' hbody' hliterals' (Site.load_of_none hbody' hplace)]
  | some place =>
      rw [houter] at hplace
      have hload := Site.load_of_some hbody houter
      have hload' := Site.load_of_some hbody' hplace
      rcases Site.outerPlace?_eq_some houter with ⟨slot, -, rfl⟩ | ⟨b, rfl⟩
      · rw [eval_ident (i := ⟨.getGlobal, [slot]⟩) hnames hbody hliterals hload rfl
            (fun m hm => congrArg (Globals.get · slot) hm),
          eval_ident (i := ⟨.getGlobal, [slot]⟩) hnames' hbody' hliterals' hload' rfl
            (fun m hm => congrArg (Globals.get · slot) hm), hlimits, hget slot houter]
      · rw [eval_ident (i := ⟨.getBuiltin, [b.index]⟩) hnames hbody hliterals hload rfl
            (fun m _ => rfl),
          eval_ident (i := ⟨.getBuiltin, [b.index]⟩) hnames' hbody' hliterals' hload' rfl
            (fun m _ => rfl), hlimits]

/-- A name that a program does not bind evaluates to the same before and after the program, whatever
comes of it. -/
theorem eval_ident_of_not_bound (h : session.Reached) (program : Program) {name : String}
    (hname : name ∉ Block.lets program) (fuel fuel' : Nat) :
    ((session.eval fuel program).2.eval fuel' [.expr (.ident name)]).1 =
      (session.eval fuel' [.expr (.ident name)]).1 := by
  cases hc : (Block.compile program).run (.start session.symbols session.constants) with
  | error cause c => rw [eval_of_error hc]
  | ok _ c =>
      have hbinds : name ∉ Event.binds (Block.events program) :=
        fun hmem => hname ((Block.mem_binds_events program).1 hmem)
      rcases h.sound with ⟨w, hw⟩
      rcases hw.names with ⟨site, hnames, hbody, hliterals⟩
      rcases Program.compile_layout hnames hbody hliterals hc with ⟨f, hwrote, -, -, -⟩
      cases hrun : (session.machine c).run fuel with
      | mk ending m =>
          rw [eval_of_compile hc hrun]
          refine eval_ident_congr hnames hbody hliterals ?_
            (Site.body_after_of_none hbody (Block.events program)) ?_ ?_
            (Site.outerPlace?_after hbody hbinds) ?_ fuel'
          · exact hwrote.scanned.agrees
          · exact hwrote.literals hliterals
          · rfl
          intro slot hplace
          have hslot : slot < session.symbols.scope.definitions := by
            rcases Site.outerPlace?_eq_some hplace with ⟨slot', hlt, hglobal⟩ | ⟨b, hbuiltin⟩
            · cases hglobal
              rw [hnames.definitions_eq hbody]
              exact hlt
            · cases hbuiltin
          rcases h.machine_sound hc with ⟨w', hload⟩
          exact Globals.get_congr (h.run_globals hc hrun (.inl hslot)) (hload.run hrun).1.globalsSize

/-- The program binds a name in a branch, and another to what is no function. The array of before is
still the same object. -/
theorem eval_ident_of_not_bound_of_failure :
    ∃ (session : Session) (program : Program),
      session = (eval 20 [.bind "a" (.array [.int 1])]
        (.start { stackSize := 4, globalsSize := 4, maxFrames := 4 })).2 ∧
      program = [.expr (.cond (.bool true) [.bind "b" (.ident "a")] none),
        .bind "c" (.call (.int 2) [])] ∧
      Block.lets program = ["b", "c"] ∧
      ((session.eval 20 program).1.result matches .error (.runtime (.notCallable .integer))) ∧
      ((session.eval 20 [.expr (.ident "a")]).1.result matches .ok (.array (.created 0) #[.int 1])) ∧
      ((session.eval 20 program).2.eval 20 [.expr (.ident "a")]).1 =
        (session.eval 20 [.expr (.ident "a")]).1 := by
  refine ⟨_, _, rfl, rfl, by decide, by decide +kernel, by decide +kernel, ?_⟩
  exact eval_ident_of_not_bound (.eval (.start _) _ _) _ (by decide) _ _

end Session

end MonkeyMachine
