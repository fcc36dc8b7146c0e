import MonkeyMachine.Proofs.CodeCorrectness

/-!
# Calls do what they mean

What the instruction for calls does, for each kind of callee. The call of a function starts a new
activation, in which its body is executed; when the body returns, the result takes the place of the
arguments on the stack of the caller. As calls can be nested only so deep, an induction on the depth
that is left shows that the machine makes every call as the interpreter does, up to the one that
exceeds the limit on frames: `Activation.handles_call`.
-/

namespace MonkeyMachine

open Machine (Mirrors Returns)
open Exec (goOn onStack_of_ok onStack_of_error)

/-! ## Starting and ending a call -/

/-- The call of a closure with number `serial`. The caller has `temps` on its stack and goes on at
`finish`. -/
def Activation.inner (a : Activation) (mem : Memory) (temps : List Datum) (finish serial : Nat)
    (lambda : Lambda) (captured : List Datum) : Activation where
  ground := a.ground
  locals := some lambda.function.numLocals
  env := { captured, self := some (.closure serial lambda captured) }
  frame := .start (.created serial) lambda.function (captured.map Datum.value)
    (a.values mem temps).length
  callers := a.callers.push { a.frame with ip := finish }
  lower := a.values mem temps

section Inner

variable {a : Activation} {mem : Memory} {temps args captured : List Datum} {finish serial : Nat}
  {lambda : Lambda} {m m₁ : Machine}

theorem Activation.inner_valid
    (hself : (Datum.closure serial lambda captured).Placed a.ground.pool a.ground.globals) :
    (a.inner mem temps finish serial lambda captured).Valid where
  base := rfl
  free := rfl
  captured := by
    cases hself with
    | closure _ _ hvalues => exact hvalues
  self := by
    intro _
    refine ⟨_, rfl, ?_, hself⟩
    show Value.closure (.created serial) lambda.function (captured.map Datum.value) = _
    rw [Datum.value, Datum.values_eq_map]

theorem Lambda.length_cells (lambda : Lambda) (hargs : args.length = lambda.params.length) :
    (lambda.cells args).length = lambda.function.numLocals := by
  simp [Lambda.cells, Lambda.function, Fragment.function, hargs]

theorem Lambda.numLocals_eq (lambda : Lambda) (hargs : args.length = lambda.params.length) :
    lambda.function.numLocals = args.length + (Event.binds (Block.events lambda.body)).length := by
  rw [← lambda.length_cells hargs]
  simp [Lambda.cells]

/-- The machine makes room for the locals of the body, unless the stack is too small. -/
theorem Machine.Mirrors.enter (h : m₁.Mirrors a mem (temps ++ args) finish)
    (hargs : args.length = lambda.params.length)
    (hlimit : a.callers.size + 2 ≤ a.ground.limits.maxFrames)
    (hstep : Exec.step m = goOn (Exec.enterBody (.created serial) lambda.function
      (captured.map Datum.value) args.length (a.values mem temps).length) m₁)
    (hheight : m₁.stack.height ≤ m.stack.height)
    (hwide : lambda.function.numLocals ≤ widest a.ground.pool) :
    m.Arrives a.ground
      (Mirrors (a.inner mem temps finish serial lambda captured)
        { mem with cells := lambda.cells args } [] 0) := by
  have hparams : args.length = lambda.function.numParams := hargs
  have hframes : m₁.callers.size + 2 ≤ m₁.maxFrames := by
    rw [h.callers, h.maxFrames]
    exact hlimit
  -- The arguments are there already; what is missing are the cells of names.
  have hlocals := lambda.numLocals_eq hargs
  have hcount : lambda.function.numLocals - args.length =
      (Event.binds (Block.events lambda.body)).length := by
    omega
  have hlive := h.live_append
  have hlength : (a.values mem temps ++ args.map Datum.value).length =
      (a.values mem temps).length + args.length := by
    rw [List.length_append, List.length_map]
  by_cases hroom : (a.values mem temps ++ args.map Datum.value).length +
      (Event.binds (Block.events lambda.body)).length ≤ m₁.stack.capacity
  · rcases hlive.reserve hroom with ⟨stack, hreserve, hlive', hsize⟩
    rw [hlength, Nat.add_assoc, ← hlocals, ← hcount] at hreserve
    have henter := Exec.enterBody_of_ok (.created serial) (captured.map Datum.value) _ hparams
      hframes hreserve
    refine .step (hstep.trans (act_bind_of_ok henter)) (.here ?_)
    exact
      { h with
        stackSize := hsize.trans h.stackSize
        frame := rfl
        callers := by
          show m₁.callers.push m₁.frame = a.callers.push { a.frame with ip := finish }
          rw [h.callers, h.frame]
        live := by
          simpa [Activation.inner, Activation.values, Lambda.cells, Datum.value] using hlive'
        cells := lambda.length_cells hargs
        placed := by
          rw [List.append_nil]
          refine h.placed_append.2.append fun d hd => ?_
          rw [(List.mem_replicate.1 hd).2]
          exact .null }
  · rcases hlive.reserve_full (Nat.lt_of_not_le hroom) with ⟨stack, hreserve, -⟩
    rw [hlength, ← hcount] at hreserve
    have henter := Exec.enterBody_of_full (.created serial) (captured.map Datum.value) _ hparams
      hframes hreserve
    rw [h.stackSize] at henter
    refine .exceeds ⟨_, _, hstep.trans (act_bind_of_error henter), .stack ?_⟩
    have hfull := hlive.1
    rw [h.stackSize] at hroom
    omega

/-- A body that returns gives its result to the caller. -/
theorem Machine.Returns.back {d : Datum} {mem' : Memory}
    (h : m.Returns (a.inner mem temps finish serial lambda captured) d mem')
    (hroom : (a.values mem temps).length < a.ground.limits.stackSize)
    (hcells : mem.cells.length = a.locals.getD 0)
    (hplaced : Datum.AllPlaced a.ground.pool a.ground.globals (mem.cells ++ temps)) :
    m.Arrives a.ground (Mirrors a { mem' with cells := mem.cells } (temps ++ [d]) finish) := by
  rcases h.leaves with ⟨m', upper, hstep, hshares, hbase, hcallers, hlive, -⟩
  have hlower : (a.values mem temps).length ≤ (a.values mem temps ++ upper).length := by simp
  have hshrink := hlive.shrink _ hlower
  rw [Activation.inner, List.take_left] at hshrink
  -- The caller without the arguments of the call, and without its callee's locals.
  let caller : Machine :=
    { m' with
      frame := { a.frame with ip := finish }
      callers := a.callers
      stack := { m'.stack with height := (a.values mem temps).length } }
  have hcaller : caller.Mirrors a { mem' with cells := mem.cells } temps finish :=
    { hshares with
      frame := rfl
      callers := rfl
      live := hshrink
      cells := hcells
      placed := hplaced }
  rcases hcaller.push h.placed hroom with ⟨m₂, hpush, h₂⟩
  have hheight : Exec.onStack (Stack.setHeight m'.frame.base)
      { m' with frame := { a.frame with ip := finish }, callers := a.callers } = .ok () caller := by
    rw [hbase]
    exact onStack_of_ok (hlive.setHeight hlower)
  refine .step ?_ (.here h₂)
  refine hstep.trans ((Exec.leaveBody_of_push d.value hcallers).trans ?_)
  exact (act_bind_of_ok hheight).trans (act_bind_of_ok hpush)

end Inner

/-! ## Bodies -/

/-- Entering a function does what `run` does. The arguments are there, as many as the function has
parameters. -/
def Activation.Enters (a : Activation) (run : Lambda → Env → List Datum → Eval Datum) : Prop :=
  ∀ {m m₁ : Machine} {mem : Memory} {temps args captured : List Datum} {finish serial : Nat}
    {lambda : Lambda}, m.IsSound → m₁.Mirrors a mem (temps ++ args) finish →
    m₁.stack.height < a.ground.limits.stackSize → m₁.stack.height ≤ m.stack.height →
    Exec.step m = goOn (Exec.enterBody (.created serial) lambda.function
      (captured.map Datum.value) args.length (a.values mem temps).length) m₁ →
    (Datum.closure serial lambda captured).Placed a.ground.pool a.ground.globals →
    args.length = lambda.params.length → lambda.function.numLocals ≤ widest a.ground.pool →
      m.Performs a (fun d mem => Mirrors a mem (temps ++ [d]) finish)
        (run lambda { captured, self := some (.closure serial lambda captured) } args mem)

/-- A call that the limit on frames forbids. -/
theorem Activation.enters_limit {a : Activation}
    (hlimit : ¬ a.callers.size + 2 ≤ a.ground.limits.maxFrames) :
    a.Enters fun _ _ _ => throw (.failed (.frameOverflow a.ground.limits.maxFrames)) := by
  intro m m₁ mem temps args captured finish serial lambda _ h _ _ hstep _ hargs _
  have hframes : ¬ m₁.callers.size + 2 ≤ m₁.maxFrames := by
    rw [h.callers, h.maxFrames]
    exact hlimit
  have hparams : args.length = lambda.function.numParams := hargs
  have henter := Exec.enterBody_of_limit (.created serial) (captured.map Datum.value)
    (a.values mem temps).length hparams hframes
  rw [h.maxFrames] at henter
  exact h.fails (hstep.trans (act_bind_of_error henter))

theorem Lambda.run_eq (call : Datum → List Datum → Eval Datum) (lambda : Lambda) (env : Env)
    (args : List Datum) (mem : Memory) :
    Lambda.run call lambda env args mem =
      match Block.eval call env lambda.site lambda.body { mem with cells := lambda.cells args } with
      | .ok done mem' => .ok (Done.result done) { mem' with cells := mem.cells }
      | .error (.returned d) mem' => .ok d { mem' with cells := mem.cells }
      | .error (.failed fault) mem' => .error (.failed fault) mem' := by
  have hrun : Lambda.run call lambda env args mem =
      (do
        let d ← Eval.body Done.result (Block.eval call env lambda.site lambda.body)
        modify fun mem' => { mem' with cells := mem.cells }
        pure d : Eval Datum) { mem with cells := lambda.cells args } := rfl
  rw [hrun]
  cases hblock : Block.eval call env lambda.site lambda.body
      { mem with cells := lambda.cells args } with
  | ok done mem' =>
      have hbody : Eval.body Done.result (Block.eval call env lambda.site lambda.body)
          { mem with cells := lambda.cells args } = .ok (Done.result done) mem' := by
        rw [Eval.body, hblock]
      exact act_bind_of_ok hbody
  | error stop mem' =>
      cases stop with
      | returned d =>
          have hbody : Eval.body Done.result (Block.eval call env lambda.site lambda.body)
              { mem with cells := lambda.cells args } = .ok d mem' := by
            rw [Eval.body, hblock]
          exact act_bind_of_ok hbody
      | failed fault =>
          have hbody : Eval.body Done.result (Block.eval call env lambda.site lambda.body)
              { mem with cells := lambda.cells args } = .error (.failed fault) mem' := by
            rw [Eval.body, hblock]
          exact act_bind_of_error hbody

/-- A call that is made: the body is executed as an activation of its own. -/
theorem Activation.enters_body {a : Activation} {call : Datum → List Datum → Eval Datum}
    (hlimit : a.callers.size + 2 ≤ a.ground.limits.maxFrames)
    (hcalls : ∀ b : Activation, b.ground = a.ground → b.callers.size = a.callers.size + 1 →
      b.Handles call) :
    a.Enters (Lambda.run call) := by
  intro m m₁ mem temps args captured finish serial lambda hm h hroom hheight hstep hself hargs hwide
  -- Where the arguments begin, there is room for the result.
  have hlower : (a.values mem temps).length < a.ground.limits.stackSize := by
    rw [h.height, List.length_append] at hroom
    rw [a.length_values]
    omega
  have hvalid : (a.inner mem temps finish serial lambda captured).Valid := inner_valid hself
  have hhandles : (a.inner mem temps finish serial lambda captured).Handles call :=
    hcalls (a.inner mem temps finish serial lambda captured) rfl (by simp [inner])
  rcases (show lambda.Placed a.ground.pool a.ground.globals ∧
      captured.length = lambda.site.captured.length by
    cases hself with
    | closure hlambda hlength _ => exact ⟨hlambda, hlength⟩) with ⟨hlambda, hlength⟩
  have hwithin : (lambda.site.after (Block.events lambda.body)).Within
      (a.inner mem temps finish serial lambda captured).setting := by
    have hbody := hlambda.within
    rw [← hlength] at hbody
    exact hbody
  have hsound := Block.layout_sound lambda.body (fun _ => Option.some_ne_none _) _ hlambda.within
    hlambda.layout hlambda.constants (Int.le_refl 0)
  have hlays : (a.inner mem temps finish serial lambda captured).Lays lambda.site
      (Block.events lambda.body) (Block.layout .leave lambda.site 0 lambda.body) 0 lambda.code :=
    ⟨⟨.of_assemble hsound.valid rfl, hlambda.constants⟩, hlambda.layout, hwithin⟩
  have hleave : Tail.leave = .drop → lambda.body ≠ [] := nofun
  have hbody : m.Performs (a.inner mem temps finish serial lambda captured)
      (Tail.leave.Ends (a.inner mem temps finish serial lambda captured) [] (0 + lambda.code.size))
      (Block.eval call { captured, self := some (.closure serial lambda captured) } lambda.site
        lambda.body { mem with cells := lambda.cells args }) :=
    (h.enter hargs hlimit hstep hheight hwide).bind fun m₂ hreaches h₂ =>
      Block.eval_realizes lambda.body hvalid hhandles (fun _ => Option.some_ne_none _) hleave _ hlays
        (hm.reaches hreaches) h₂
  rw [Lambda.run_eq]
  cases hresult : Block.eval call { captured, self := some (.closure serial lambda captured) }
      lambda.site lambda.body { mem with cells := lambda.cells args } with
  | ok done mem' =>
      rw [hresult] at hbody
      exact Machine.Arrives.bind hbody fun m₂ _ h₂ => h₂.back hlower h.cells h.placed_append.1
  | error stop mem' =>
      rw [hresult] at hbody
      cases stop with
      | returned d =>
          exact Machine.Arrives.bind hbody fun m₂ _ h₂ => h₂.back hlower h.cells h.placed_append.1
      | failed fault => exact hbody

/-! ## Callees -/

section Callees

variable {a : Activation} {run : Lambda → Env → List Datum → Eval Datum} {mem : Memory}
  {temps args captured : List Datum} {finish serial : Nat} {lambda : Lambda} {m m₁ : Machine}

/-- The call of a closure, with any number of arguments. -/
theorem Activation.Enters.checked (hrun : a.Enters run) (hm : m.IsSound)
    (h : m₁.Mirrors a mem (temps ++ args) finish)
    (hroom : m₁.stack.height < a.ground.limits.stackSize)
    (hheight : m₁.stack.height ≤ m.stack.height)
    (hstep : Exec.step m = goOn (Exec.enterBody (.created serial) lambda.function
      (captured.map Datum.value) args.length (a.values mem temps).length) m₁)
    (hself : (Datum.closure serial lambda captured).Placed a.ground.pool a.ground.globals)
    (hwide : lambda.function.numLocals ≤ widest a.ground.pool) :
    m.Performs a (fun d mem => Mirrors a mem (temps ++ [d]) finish)
      ((if args.length = lambda.params.length then
          run lambda { captured, self := some (.closure serial lambda captured) } args
        else
          throw (.failed (.wrongArgumentCount lambda.params.length args.length)) : Eval Datum)
        mem) := by
  by_cases hargs : args.length = lambda.params.length
  · rw [if_pos hargs]
    exact hrun hm h hroom hheight hstep hself hargs hwide
  · rw [if_neg hargs]
    have hparams : args.length ≠ lambda.function.numParams := hargs
    exact h.fails (hstep.trans (act_bind_of_error (Exec.enterBody_of_count _ _ _ hparams)))

/-- A builtin takes a number for its result and prints before it answers. -/
theorem Machine.Mirrors.builtin_act (h : m₁.Mirrors a mem (temps ++ args) finish) (b : Builtin) :
    ∃ m₂, m₂.Mirrors a
        { mem with created := mem.created + 1, output := mem.output ++ b.prints args }
        (temps ++ args) finish ∧
      Exec.callBuiltin b (a.values mem temps).length m₁ =
        (do
          let v ← Exec.ofResult (((b.answer mem.created args).map Datum.value).mapError .builtin)
          Exec.onStack (Stack.setHeight (a.values mem temps).length)
          Exec.push v : Exec Unit) m₂ := by
  rcases h.fresh with ⟨m₂, hfresh, -, h₂⟩
  have hprint : Exec.print (b.printed (args.map Datum.value)) m₂ =
      .ok () { m₂ with output := m₂.output ++ b.prints args } := by
    rw [Builtin.printed_value]
    rfl
  refine ⟨{ m₂ with output := m₂.output ++ b.prints args },
    { h₂ with output := congrArg (· ++ b.prints args) h₂.output }, ?_⟩
  have hargs : m₁.stack.liveFrom (a.values mem temps).length = args.map Datum.value := by
    rw [h.live_append.liveFrom, List.drop_left]
  rw [← Builtin.apply_value]
  rw [Exec.callBuiltin_eq, hargs]
  exact (act_bind_of_ok hfresh).trans (act_bind_of_ok hprint)

theorem Datum.apply_builtin_of_ok {b : Builtin} {d : Datum}
    (h : b.answer mem.created args = .ok d) :
    Datum.apply run (.builtin b) args mem =
      .ok d { mem with created := mem.created + 1, output := mem.output ++ b.prints args } := by
  simp only [Datum.apply]
  rw [act_bind_of_ok (show Eval.fresh mem = .ok mem.created _ from rfl), h]
  rfl

theorem Datum.apply_builtin_of_error {b : Builtin} {cause : BuiltinError}
    (h : b.answer mem.created args = .error cause) :
    Datum.apply run (.builtin b) args mem = .error (.failed (.builtin cause))
      { mem with created := mem.created + 1, output := mem.output ++ b.prints args } := by
  simp only [Datum.apply]
  rw [act_bind_of_ok (show Eval.fresh mem = .ok mem.created _ from rfl), h]
  rfl

/-- The call of a builtin. Its result takes the place of the arguments. -/
theorem Machine.Mirrors.callBuiltin (h : m₁.Mirrors a mem (temps ++ args) finish) (b : Builtin)
    (hstep : Exec.step m = goOn (Exec.callBuiltin b (a.values mem temps).length) m₁)
    (hheight : m₁.stack.height ≤ m.stack.height) :
    m.Performs a (fun d mem => Mirrors a mem (temps ++ [d]) finish)
      (Datum.apply run (.builtin b) args mem) := by
  rcases h.builtin_act b with ⟨m₂, h₂, hact⟩
  have hanswer := b.answer_placed mem.created h.placed_append.2
  cases hresult : b.answer mem.created args with
  | error cause =>
      rw [Datum.apply_builtin_of_error hresult]
      rw [hresult] at hact
      exact h₂.fails (hstep.trans (act_bind_of_error hact))
  | ok d =>
      rw [Datum.apply_builtin_of_ok hresult]
      rw [hresult] at hact hanswer
      -- The arguments are cut off before the result is pushed.
      rcases h₂.cut with ⟨m₃, hcut, h₃⟩
      refine h₃.pushes ?_ hanswer ?_
      · exact hstep.trans (Exec.goOn_congr (hact.trans (act_bind_of_ok hcut)))
      · refine Nat.le_trans ?_ hheight
        rw [h₃.height, h.height]
        simp only [List.length_append]
        omega

/-- The instruction for calls takes the callee from the stack and finds the arguments below it. -/
theorem Machine.Mirrors.called {callee : Datum} {ip : Nat} {is : List Instr}
    (h : m.Mirrors a mem (temps ++ args ++ [callee]) ip)
    (hcode : a.frame.code.Holds ip (⟨.call, [args.length]⟩ :: is)) :
    ∃ m₁, m₁.Mirrors a mem (temps ++ args) (ip + 3) ∧
      m₁.stack.height < a.ground.limits.stackSize ∧ m₁.stack.height ≤ m.stack.height ∧
      Exec.step m = goOn
        (match callee.value with
        | .closure id body free =>
            Exec.enterBody id body free args.length (a.values mem temps).length
        | .function _ body => do
            let id ← Exec.fresh
            Exec.enterBody id body [] args.length (a.values mem temps).length
        | .builtin b => Exec.callBuiltin b (a.values mem temps).length
        | other => throw (.notCallable other.kind)) m₁ := by
  rcases (h.jump (ip + 3)).pop with ⟨m₁, hpop, h₁, -⟩
  have hheight : m.stack.height = m₁.stack.height + 1 := by
    rw [h.height, h₁.height]
    simp only [List.length_append, List.length_singleton]
    omega
  have hbelow : Exec.onStack (Stack.below args.length) m₁ =
      .ok (a.values mem temps).length m₁ := by
    have hcount : args.length ≤ (a.values mem temps ++ args.map Datum.value).length := by
      rw [List.length_append, List.length_map]
      exact Nat.le_add_left _ _
    refine (onStack_of_ok (h₁.live_append.below hcount)).trans ?_
    rw [List.length_append, List.length_map, Nat.add_sub_cancel]
  refine ⟨m₁, h₁, ?_, by omega, ?_⟩
  · -- There was one more value on the stack before.
    have hle := h.live.length_le
    rw [← h.live.1, h.stackSize] at hle
    omega
  · refine (h.step hcode).trans (Exec.goOn_congr ?_)
    exact (act_bind_of_ok hpop).trans (act_bind_of_ok hbelow)

/-- The instruction for calls, whatever the callee is. -/
theorem Activation.handles_apply (hrun : a.Enters run) : a.Handles (Datum.apply run) := by
  intro m mem temps args callee ip is hm h hcode
  rcases h.called hcode with ⟨m₁, h₁, hroom, hle, hcalled⟩
  rcases h.sound hm with ⟨w, hw, hsound⟩
  have hcallee := hsound callee (by simp)
  have hplaced : callee.Placed a.ground.pool a.ground.globals := h.placed callee (by simp)
  have hpool : w.pool = a.ground.pool := hw.pool.symm.trans h.pool
  cases callee with
  | closure serial lambda captured =>
      simp only [Datum.value, Datum.values_eq_map] at hcalled hcallee
      rcases hcallee.of_closure with ⟨_, index, -, -, hget, -, -⟩
      rw [hpool] at hget
      exact hrun.checked hm h₁ hroom hle hcalled hplaced (le_widest hget)
  | function lambda =>
      -- The function is wrapped into a closure with a number of its own.
      simp only [Datum.value] at hcalled hcallee
      rcases h₁.fresh with ⟨m₂, hfresh, hstack, h₂⟩
      have hwide : lambda.function.numLocals ≤ widest a.ground.pool := by
        cases hcallee with
        | function hget _ =>
            rw [hpool] at hget
            exact le_widest hget
      have hself : (Datum.closure mem.created lambda []).Placed a.ground.pool a.ground.globals := by
        cases hplaced with
        | function hlambda hnone =>
            exact .closure hlambda (congrArg List.length hnone).symm (List.forall_mem_nil _)
      have hstep : Exec.step m = goOn (Exec.enterBody (.created mem.created) lambda.function
          (([] : List Datum).map Datum.value) args.length (a.values mem temps).length) m₂ :=
        hcalled.trans (Exec.goOn_congr (act_bind_of_ok hfresh))
      rw [← hstack] at hroom hle
      exact hrun.checked hm h₂ hroom hle hstep hself hwide
  | builtin b => exact h₁.callBuiltin b hcalled hle
  | _ => exact h₁.fails hcalled

end Callees

/-- Every call is made as the interpreter makes it, if that many more can be nested. -/
theorem Activation.handles_call (depth : Nat) {a : Activation}
    (hdepth : depth = a.ground.limits.maxFrames - (a.callers.size + 1)) :
    a.Handles (Datum.call a.ground.limits.maxFrames depth) := by
  induction depth generalizing a with
  | zero => exact handles_apply (enters_limit (by omega))
  | succ depth ih =>
      refine handles_apply (enters_body (by omega) fun b hground hsize => ?_)
      rw [← hground]
      exact ih (by rw [hground, hsize]; omega)

end MonkeyMachine
