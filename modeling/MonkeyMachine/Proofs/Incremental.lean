import MonkeyMachine.Proofs.GlobalNames
import MonkeyMachine.Proofs.GlobalStore
import MonkeyMachine.Proofs.Lockstep
import MonkeyMachine.Proofs.NameIsolation

/-!
# Programs one at a time, and all at once

A session can be given two programs one after the other, or one program that consists of both. Unless
the first one is cut short, the result is the same: the code of the second program is the same in
both cases but for the targets of its jumps, and it finds the same names, constants and globals.
-/

namespace MonkeyMachine

/-! ## Compiling two programs -/

theorem Block.events_append (block next : List Stmt) :
    Block.events (block ++ next) = Block.events block ++ Block.events next := by
  induction block with
  | nil => rfl
  | cons stmt rest ih => rw [List.cons_append, Block.events, ih, Block.events, List.append_assoc]

/-- A statement has code. -/
theorem Stmt.layout_size_pos {site : Site} {start : Nat} {stmt : Stmt} {f : Fragment}
    (h : Stmt.layout .drop site start stmt = .ok f) : 0 < f.size := by
  cases stmt with
  | expr value =>
      rcases Fragment.seq_eq_ok_iff.1 h with ⟨a, -, b, hb, rfl⟩
      cases hb
      rw [Fragment.size_append]
      exact Nat.lt_add_left _ (Instr.size_pos ⟨.pop, []⟩)
  | bind name value =>
      rcases Fragment.seq_eq_ok_iff.1 h with ⟨a, -, b, hb, rfl⟩
      rw [show Tail.drop.onNothing = [] from rfl, Fragment.seq_nil] at hb
      rcases Site.store_eq_ok hb with ⟨op, slot, -, rfl⟩
      rw [Fragment.size_append]
      exact Nat.lt_add_left _ (Instr.size_pos ⟨op, [slot]⟩)
  | ret value =>
      rcases Fragment.seq_eq_ok_iff.1 h with ⟨a, -, b, hb, rfl⟩
      cases hb
      rw [Fragment.size_append]
      exact Nat.lt_add_left _ (Instr.size_pos ⟨.returnValue, []⟩)

theorem Block.layout_size_pos {site : Site} {start : Nat} {block : List Stmt} {f : Fragment}
    (hne : block ≠ []) (h : Block.layout .drop site start block = .ok f) : 0 < f.size := by
  cases block with
  | nil => exact absurd rfl hne
  | cons stmt rest =>
      rw [Block.layout_drop_cons] at h
      rcases Fragment.seq_eq_ok_iff.1 h with ⟨a, ha, b, -, rfl⟩
      rw [Fragment.size_append]
      exact Nat.lt_add_right _ (Stmt.layout_size_pos ha)

/-- Two programs that have been compiled one after the other, to `first` and `second`, and at once, to
`whole`. -/
structure Joined (first second whole : Compiler) : Prop where
  symbols : second.symbols = whole.symbols
  constants : second.constants = whole.constants
  known : first.constants.toList <+: whole.constants.toList
  front : whole.buffer.code.Holds 0 first.buffer.code.instrs
  back : whole.buffer.code.Holds first.buffer.code.size
    (second.buffer.code.instrs.map (Instr.shift first.buffer.code.size))
  size : whole.buffer.code.size = second.buffer.code.size + first.buffer.code.size

theorem Agrees.depth_eq_zero {table : SymbolTable} {site : Site} (h : Agrees table site)
    (hbody : site.body = none) : table.depth = 0 := by
  cases h with
  | top => rfl
  | inside hsome =>
      rw [hbody] at hsome
      cases hsome

section Compiling

variable {p q : Program} {symbols : SymbolTable} {site : Site} {constants : Array Value}
  {first whole : Compiler}

/-- Either way the same names have been entered. -/
theorem Program.compile_symbols_append {second : Compiler} (htop : symbols.depth = 0)
    (hfirst : Block.compile p (.start symbols constants) = .ok () first)
    (hsecond : Block.compile q (.start first.symbols first.constants) = .ok () second)
    (hwhole : Block.compile (p ++ q) (.start symbols constants) = .ok () whole) :
    second.symbols = whole.symbols := by
  have hbetween := Program.compile_symbols htop hfirst
  have htop' : first.symbols.depth = 0 := by
    rw [hbetween]
    rfl
  rw [Program.compile_symbols htop' hsecond, Program.compile_symbols htop hwhole, hbetween,
    Block.events_append, Event.binds_append]
  show SymbolTable.global ((symbols.base.bindAll _).bindAll _) = _
  rw [Scope.bindAll_append]

/-- If two programs compile at once, and the first one does on its own, so does the second behind
it. -/
theorem Program.compile_append (hagrees : Agrees symbols site) (hbody : site.body = none)
    (hsize : constants.size = site.literals)
    (hfirst : Block.compile p (.start symbols constants) = .ok () first)
    (hwhole : Block.compile (p ++ q) (.start symbols constants) = .ok () whole) :
    ∃ second, Block.compile q (.start first.symbols first.constants) = .ok () second ∧
      Joined first second whole ∧ (q ≠ [] → 0 < second.buffer.code.size) := by
  rcases Program.compile_layout hagrees hbody hsize hfirst with ⟨f, hwf, hlayoutf, -, -⟩
  rcases Program.compile_layout hagrees hbody hsize hwhole with ⟨g, hwg, hlayoutg, -, -⟩
  -- The layout of the whole is that of the first program, and behind it that of the second, moved.
  rw [Block.layout_append, hlayoutf] at hlayoutg
  rcases Fragment.seq_eq_ok_iff.1 hlayoutg with ⟨_, hf, b', hb', rfl⟩
  cases hf
  rcases Block.layout_relocates q .drop _ 0 f.size b' hb' with ⟨b, hb, rfl⟩
  have hb : Block.layout .drop (site.after (Block.events p)) 0 q = .ok b := hb
  have hbody' := Site.body_after_of_none hbody (Block.events p)
  have hfollows := Program.compile_follows q hwf.scanned.agrees hbody' (hwf.literals hsize)
  rw [hb] at hfollows
  rcases hfollows with ⟨second, hsecond, hwb⟩
  have hcodef : first.buffer.code.toList = assemble f.instrs := hwf.code
  have hcodeb : second.buffer.code.toList = assemble b.instrs := hwb.code
  have hcodeg : whole.buffer.code.toList = assemble (f.instrs ++ (b.shift f.size).instrs) := hwg.code
  have hsizef : first.buffer.code.size = f.size := by
    rw [← Array.length_toList, hcodef, length_assemble hwf.valid]
    rfl
  have hsizeb : second.buffer.code.size = b.size := by
    rw [← Array.length_toList, hcodeb, length_assemble hwb.valid]
    rfl
  have hheld : whole.buffer.code.Holds 0 (f.instrs ++ (b.shift f.size).instrs) :=
    .of_assemble hwg.valid hcodeg
  have hconstants : second.constants.toList = whole.constants.toList := by
    rw [hwb.constants, hwg.constants]
    show first.constants.toList ++ b.constants = constants.toList ++ (f.constants ++ b.constants)
    rw [hwf.constants, List.append_assoc]
    rfl
  refine ⟨second, hsecond, ?_, ?_⟩
  · exact
      { symbols := Program.compile_symbols_append (hagrees.depth_eq_zero hbody) hfirst hsecond hwhole
        constants := Array.toList_inj.1 hconstants
        known := ⟨b.constants, by rw [← hconstants, hwb.constants]; rfl⟩
        front := by
          rw [Code.instrs_of_assemble hwf.valid hcodef]
          exact hheld.left
        back := by
          have hright := hheld.right
          rw [Nat.zero_add] at hright
          rw [Code.instrs_of_assemble hwb.valid hcodeb, hsizef]
          exact hright
        size := by
          rw [hwg.size, hsizef, hsizeb, Fragment.size_append, Fragment.size_shift]
          show 0 + (f.size + b.size) = b.size + f.size
          omega }
  · intro hne
    rw [hsizeb]
    exact Block.layout_size_pos hne hb

end Compiling

/-! ## Running two programs -/

theorem Ending.result_ne_outOfFuel {ending : Ending} (h : ending ≠ .outOfFuel) (value : Value) :
    ending.result value ≠ .error .outOfFuel := by
  cases ending with
  | finished => nofun
  | failed fault => nofun
  | outOfFuel => exact absurd rfl h

theorem Machine.Alike.SameResult.result {ending : Ending} {m m' : Machine}
    (h : Machine.Alike.SameResult ending m m') :
    ending.result m'.lastPopped = ending.result m.lastPopped := by
  cases ending with
  | finished => exact congrArg _ (h rfl)
  | failed fault => rfl
  | outOfFuel => rfl

namespace Joined

variable {first second whole : Compiler} {session : Session}

/-- The first program as part of the whole. -/
def leading (h : Joined first second whole) : Embedding where
  part := first.buffer.code
  whole := whole.buffer.code
  offset := 0
  holds := by
    rw [Instr.map_shift_zero]
    exact h.front

/-- The second program as part of the whole. -/
def trailing (h : Joined first second whole) : Embedding where
  part := second.buffer.code
  whole := whole.buffer.code
  offset := first.buffer.code.size
  holds := h.back

theorem alike_first (h : Joined first second whole) :
    Machine.Alike h.leading "" 0 (session.machine first) (session.machine whole) where
  globals := rfl
  created := rfl
  output := rfl
  constants := h.known
  maxFrames := rfl
  stack := .refl 0 _
  calls := .outermost 0

/-- Where the first program ends, the whole goes on like the second. -/
theorem alike_second (h : Joined first second whole) {w : World} {last last' : Machine}
    (hlast : Machine.Alike h.leading "" 0 last last') (hsound : last.Sound w)
    (hcallers : last.callers = #[]) (hend : last.frame.code.size ≤ last.frame.ip)
    (hkept : (session.machine whole).Kept last') :
    Machine.Alike h.trailing last.output 0
      (Session.machine
        { session with
          symbols := first.symbols
          constants := first.constants
          globals := last.globals
          created := last.created } second) last' where
  globals := hlast.globals
  created := hlast.created
  output := by
    rw [hlast.output, String.empty_append]
    exact String.append_empty.symm
  constants := by
    rw [hkept.constants]
    show second.constants.toList <+: whole.constants.toList
    exact h.constants ▸ List.prefix_refl _
  maxFrames := hkept.maxFrames
  stack := by
    -- Between the two programs there is nothing on the stack.
    have hheight := (hsound.at_end hcallers hend).2
    refine ⟨hkept.stackSize, hlast.stack.height.trans hheight, ?_⟩
    rintro slot (hslot | hslot)
    · exact absurd hslot (Nat.not_lt_zero slot)
    · exact absurd hslot (Nat.not_lt_zero slot)
  calls := by
    have hcalls := hlast.calls
    have hip := (hsound.at_end hcallers hend).1
    rw [hcallers] at hcalls
    rcases hcalls.of_empty with ⟨hcallers', ip, hframe, hframe'⟩
    rw [hframe] at hip
    have hip : ip = first.buffer.code.size := hip
    -- In the code of the whole, the second program begins where the first one ends.
    rw [hcallers', hframe', hip]
    have hstart := Embedding.Calls.outermost (e := h.trailing) 0
    rw [Nat.zero_add] at hstart
    exact hstart

/-- The run of the whole, from those of the two programs. -/
theorem run (h : Joined first second whole) {w w₁ w₂ : World} {last final : Machine}
    (hfirst : (session.machine first).Sound w₁) (hwhole : (session.machine whole).Sound w)
    (hreaches : (session.machine first).Reaches last) (hcallers : last.callers = #[])
    (hend : last.frame.code.size ≤ last.frame.ip) {between : Session}
    (hbetween : between =
      { session with
        symbols := first.symbols
        constants := first.constants
        globals := last.globals
        created := last.created })
    (hsecond : (between.machine second).Sound w₂) (hcode : 0 < second.buffer.code.size)
    {ending : Ending} {fuel : Nat} (hrun : (between.machine second).run fuel = (ending, final))
    (hfuel : ending ≠ .outOfFuel) :
    ∃ final', Machine.Even last.output final final' ∧ Machine.Alike.SameResult ending final final' ∧
      ∀ fuel' ending' m', (session.machine whole).run fuel' = (ending', m') →
        ending' ≠ .outOfFuel → ending' = ending ∧ m' = final' := by
  rcases h.alike_first.reaches hfirst hreaches with ⟨last', hreaches', hlast⟩
  rcases hfirst.reaches hreaches with ⟨_, -, -, hsound⟩
  rcases hwhole.reaches hreaches' with ⟨_, -, hkept, -⟩
  subst hbetween
  have hnext := h.alike_second hlast hsound hcallers hend hkept
  rcases Machine.reaches_of_run hrun with ⟨stop, hstop, hends⟩
  rcases hnext.run hsecond rfl rfl hcode (Nat.le_of_eq h.size) hstop hends hfuel with
    ⟨stop', final', hstop', hends', heven, hresult⟩
  refine ⟨final', heven, hresult, ?_⟩
  intro fuel' ending' m' hrun' hfuel'
  exact Machine.run_unique hrun' hfuel' (hreaches'.trans hstop') hends' hfuel

end Joined

namespace Session

variable {session : Session} {p q : Program}

/-- The run of the program comes to a `return` of the top level. -/
def Returns (session : Session) (program : Program) : Prop :=
  ∃ c m, (Block.compile program).run (.start session.symbols session.constants) = .ok () c ∧
    (session.machine c).Reaches m ∧ m.callers = #[] ∧ m.AtReturn

/-- A program returns only by an instruction of its own code, not of that of its functions. -/
theorem Reached.not_returns (h : session.Reached)
    (hlines : ∀ line ∈ (finalState ((Block.compile p).run
        (.start session.symbols session.constants))).buffer.code.lines,
      ¬ (line matches .instruction _ .returnValue _ | .instruction _ .returnNull _)) :
    ¬ session.Returns p := by
  rintro ⟨c, m, hc, hreaches, hcallers, hat⟩
  rw [hc] at hlines
  rcases h.machine_sound hc with ⟨w, hload⟩
  have hcode : m.frame.code = c.buffer.code := by
    rw [← Machine.bottom_of_callers hcallers]
    exact hload.reaches_bottom hreaches
  rw [Machine.AtReturn, hcode] at hat
  rcases hat with hhas | hhas
  · exact hlines _ hhas rfl
  · exact hlines _ hhas rfl

/-- An evaluation that succeeds without a `return` comes to the end of its code. -/
theorem Reached.completes (h : session.Reached) {fuel : Nat} {v : Value}
    (hok : (session.eval fuel p).1.result = .ok v) (hreturn : ¬ session.Returns p) :
    ∃ c last, (Block.compile p).run (.start session.symbols session.constants) = .ok () c ∧
      (session.machine c).run fuel = (.finished, last) ∧ (session.machine c).Reaches last ∧
      last.callers = #[] ∧ last.frame.code.size ≤ last.frame.ip := by
  cases hc : (Block.compile p).run (.start session.symbols session.constants) with
  | error cause c =>
      rw [Session.eval_of_error hc] at hok
      cases hok
  | ok _ c =>
      cases hrun : (session.machine c).run fuel with
      | mk ending final =>
          rw [eval_of_compile hc hrun] at hok
          cases ending with
          | failed fault => cases hok
          | outOfFuel => cases hok
          | finished =>
              rcases h.machine_sound hc with ⟨w, hload⟩
              rcases Machine.reaches_of_run hrun with ⟨last, hreaches, hends⟩
              rcases hload.reaches hreaches with ⟨w', -, -, hsound⟩
              -- A run ends in the program itself, at its end or at a `return`.
              have hcallers : last.callers = #[] := by
                have hstep := hsound.step
                have hends : Exec.step last = .ok .finished final := hends
                rw [hends] at hstep
                exact hstep.callers
              have hnot : ¬ last.AtReturn := fun hat => hreturn ⟨c, last, hc, hreaches, hcallers, hat⟩
              obtain ⟨-, hend, rfl, -⟩ := hsound.drained hends hnot
              exact ⟨c, final, rfl, hrun, hreaches, hcallers, hend⟩

/-- Evaluating two programs one after the other is evaluating both at once, if the first one neither
fails nor returns. -/
theorem Reached.eval_append (h : session.Reached) (hq : q ≠ []) (enough : Nat) {v : Value}
    (hok : (session.eval enough p).1.result = .ok v) (hreturn : ¬ session.Returns p)
    {whole : Compiler}
    (hwhole : (Block.compile (p ++ q)).run (.start session.symbols session.constants) =
      .ok () whole) :
    ∃ bound, ∀ fuel, bound ≤ fuel →
      let first := session.eval fuel p
      let second := first.2.eval fuel q
      let both := session.eval fuel (p ++ q)
      first.1.result = .ok v ∧ second.1.result ≠ .error .outOfFuel ∧
        both.1.result = second.1.result ∧ both.1.output = first.1.output ++ second.1.output ∧
        both.2 = second.2 := by
  rcases h.completes hok hreturn with ⟨first, last, hfirst, hrun₁, hreaches, hcallers, hend⟩
  have heval₁ := fun {fuel} (hle : enough ≤ fuel) =>
    eval_of_compile hfirst (Machine.run_eq_of_le hrun₁ nofun hle)
  have hvalue : last.lastPopped = v := by
    rw [heval₁ (Nat.le_refl _)] at hok
    exact Except.ok.inj hok
  -- The session between the two programs.
  have hreached : (session.eval enough p).2.Reached := h.eval enough p
  rw [heval₁ (Nat.le_refl _)] at hreached
  generalize hbetween : Session.mk session.limits first.symbols first.constants last.globals
    last.created = between at heval₁ hreached
  have hreached : between.Reached := hreached
  rcases h.sound with ⟨_, hsound⟩
  rcases hsound.names with ⟨site, hagrees, hbody, hliterals⟩
  rcases Program.compile_append hagrees hbody hliterals hfirst hwhole with
    ⟨second, hsecond, hjoined, hpos⟩
  have hsecond : (Block.compile q).run (.start between.symbols between.constants) = .ok () second := by
    rw [← hbetween]
    exact hsecond
  rcases h.machine_sound hfirst with ⟨w₁, hload₁⟩
  rcases hreached.machine_sound hsecond with ⟨w₂, hload₂⟩
  rcases h.machine_sound hwhole with ⟨w, hload⟩
  -- Both runs come to an end, and the run of the whole has no other end than that of the second.
  rcases Machine.load_ends hload₂ with ⟨ending, final, hending, hrun₂⟩
  rcases Machine.load_ends hload with ⟨ending', final', hending', hrun⟩
  rcases hjoined.run hload₁ hload hreaches hcallers hend hbetween.symm hload₂ (hpos hq)
    (hrun₂ _ (Nat.le_refl _)) hending with ⟨_, heven, hresult, hunique⟩
  rcases hunique _ _ _ (hrun _ (Nat.le_refl _)) hending' with ⟨rfl, rfl⟩
  refine ⟨enough + second.bytecode.bound between.limits + whole.bytecode.bound session.limits, ?_⟩
  intro fuel hfuel
  have heval₂ := eval_of_compile hsecond (hrun₂ fuel (by omega))
  have heval := eval_of_compile hwhole (hrun fuel (by omega))
  simp only [heval₁ (show enough ≤ fuel by omega), heval₂, heval]
  refine ⟨congrArg _ hvalue, Ending.result_ne_outOfFuel hending _, hresult.result, heven.output, ?_⟩
  rw [← hbetween, hjoined.symbols, hjoined.constants, heven.globals, heven.created]

/-- The first program has a `return` in a function, and prints. The second has jumps, and fails in the
function of the first. -/
theorem Reached.eval_append_of_failure :
    ∃ (session : Session) (p q : Program),
      session = (Session.eval 20 [.bind "a" (.int 1)]
        (.start { stackSize := 8, globalsSize := 4, maxFrames := 4 })).2 ∧
      p = [.bind "f" (.function ["x"] [.ret (.binary (.ident "x") "+" (.ident "a"))]),
        .expr (.call (.ident "puts") [.call (.ident "f") [.int 2]])] ∧
      q = [.expr (.cond (.binary (.call (.ident "f") [.int 1]) ">" (.int 1))
        [.expr (.call (.ident "f") [.bool true])] none)] ∧
      (session.eval 50 p).1.result = .ok .null ∧ ¬ session.Returns p ∧
      ((session.eval 50 p).2.eval 50 q).1.result matches .error (.runtime (.typeMismatch ..)) ∧
      ∃ c, (Block.compile (p ++ q)).run (.start session.symbols session.constants) = .ok () c ∧
        ∃ bound, ∀ fuel, bound ≤ fuel →
          let first := session.eval fuel p
          let second := first.2.eval fuel q
          let both := session.eval fuel (p ++ q)
          first.1.result = .ok .null ∧ second.1.result ≠ .error .outOfFuel ∧
            both.1.result = second.1.result ∧ both.1.output = first.1.output ++ second.1.output ∧
            both.2 = second.2 := by
  have hnull {r : Except EvalError Value} (h : r.toOption.map Value.kind = some .null) :
      r = .ok .null := by
    cases r with
    | error cause => cases h
    | ok v =>
        cases v with
        | null => rfl
        | _ => cases h
  refine ⟨_, _, _, rfl, rfl, rfl, hnull (by decide +kernel), ?_, by decide +kernel, ?_⟩
  · exact Reached.not_returns (.eval (.start _) _ _) (by decide +kernel)
  · refine (Program.exists_of_compiles ?_).imp fun c hc => ⟨hc, ?_⟩
    · decide +kernel
    · refine Reached.eval_append (.eval (.start _) _ _) (List.cons_ne_nil _ _) 50 ?_ ?_ hc
      · exact hnull (by decide +kernel)
      · exact Reached.not_returns (.eval (.start _) _ _) (by decide +kernel)

end Session

end MonkeyMachine
