import MonkeyMachine.Proofs.Decoding
import MonkeyMachine.Session

/-!
# What a function's own name stands for

Inside a function its own name stands for the closure that the running call holds. A call of a
closure holds that closure. A function that captures nothing is no closure: each call of it wraps the
function in a new one, so there the name stands for a value that the caller never had.
`Machine.own_name_of_call` says which of the two it is, for every call and as long as it runs, and
`Session.own_name_differs` is a program that can tell.
-/

namespace MonkeyMachine

/-- The closure that runs when a value is called: a closure itself, and for a function a closure of
it with the given serial number. -/
def Value.callee? (serial : Nat) : Value → Option Value
  | .closure id body free => some (.closure id body free)
  | .function _ body => some (.closure (.created serial) body [])
  | _ => none

/-! ## What a call starts -/

namespace Exec

variable {m m' : Machine}

theorem enterBody_eq_ok {id : Identity} {body : Function} {free : List Value} {argc base : Nat}
    (h : enterBody id body free argc base m = .ok () m') :
    argc = body.numParams ∧
      ∃ stack, Stack.reserve (base + argc) (body.numLocals - argc) (base + body.numLocals) m.stack =
          .ok () stack ∧
        m' = { m with
          stack
          frame := .start id body free base
          callers := m.callers.push m.frame } := by
  by_cases hcount : argc = body.numParams
  · by_cases hlimit : m.callers.size + 2 ≤ m.maxFrames
    · cases hreserve : Stack.reserve (base + argc) (body.numLocals - argc) (base + body.numLocals)
          m.stack with
      | ok _ stack =>
          rw [enterBody_of_ok id free base hcount hlimit hreserve] at h
          cases h
          exact ⟨hcount, stack, rfl, rfl⟩
      | error fault stack =>
          rw [enterBody_of_full id free base hcount hlimit hreserve] at h
          cases h
    · rw [enterBody_of_limit id free base hcount hlimit] at h
      cases h
  · rw [enterBody_of_count id free base hcount] at h
    cases h

theorem pop_of_top {v : Value} (h : m.stack.top? = some v) :
    pop m = .ok v { m with stack := { m.stack with height := m.stack.height - 1 } } := by
  unfold Stack.top? at h
  split at h
  · cases h
  · rename_i hheight
    have hpop : Stack.pop m.stack = .ok (m.stack.items.getD (m.stack.height - 1) .null)
        { m.stack with height := m.stack.height - 1 } := if_neg hheight
    rw [Array.getD_eq_getD_getElem?, h] at hpop
    exact onStack_of_ok hpop

/-- A call that adds to the calls in progress has started the body of its callee. -/
theorem call_eq_ok {argc : Nat} {v : Value} (h : call argc m = .ok () m')
    (htop : m.stack.top? = some v) (hpushed : m.callers.size < m'.callers.size) :
    ∃ id body free m₁, v.callee? m.created = some (.closure id body free) ∧ m.SameCalls m₁ ∧
      m₁.stack = { m.stack with height := m.stack.height - 1 } ∧
      enterBody id body free argc (m.stack.height - 1 - argc) m₁ = .ok () m' := by
  unfold call at h
  rw [act_bind_of_ok (pop_of_top htop)] at h
  rcases act_bind_eq_ok h with ⟨base, m₂, hbelow, h₂⟩
  obtain ⟨rfl, rfl⟩ : base = m.stack.height - 1 - argc ∧
      m₂ = { m with stack := { m.stack with height := m.stack.height - 1 } } := by
    rw [onStack_apply, Stack.below] at hbelow
    split at hbelow
    · rename_i hbelow'
      split at hbelow'
      · cases hbelow'
        cases hbelow
        exact ⟨rfl, rfl⟩
      · cases hbelow'
    · cases hbelow
  cases v with
  | closure id body free =>
      exact ⟨id, body, free, { m with stack := { m.stack with height := m.stack.height - 1 } }, rfl,
        ⟨rfl, rfl⟩, rfl, h₂⟩
  | function _ body =>
      rcases act_bind_eq_ok h₂ with ⟨id, m₃, hfresh, h₃⟩
      cases hfresh
      exact ⟨.created m.created, body, [],
        { m with
          stack := { m.stack with height := m.stack.height - 1 }
          created := m.created + 1 }, rfl, ⟨rfl, rfl⟩, rfl, h₃⟩
  | builtin b =>
      -- A builtin answers at once, without a call of its own.
      have hstays := KeepsCalls.callBuiltin b (m.stack.height - 1 - argc)
        { m with stack := { m.stack with height := m.stack.height - 1 } }
      rw [show callBuiltin b _ _ = .ok () m' from h₂] at hstays
      have hcallers : m'.callers = m.callers := hstays.callers
      rw [hcallers] at hpushed
      exact absurd hpushed (Nat.lt_irrefl _)
  | _ => cases h₂

end Exec

/-! ## A call as long as it runs -/

namespace Machine

variable {m m' : Machine}

/-- How a step changes the calls in progress, whatever the code. -/
theorem Next.calls (h : m.Next m') :
    (∃ ip, (m.jump ip).SameCalls m') ∨ (∃ ip, m'.callers = m.callers.push (m.jump ip).frame) ∨
      m.callers = m'.callers.push m'.frame := by
  have hstep : Exec.step m = .ok .running m' := h
  cases hbyte : m.frame.code[m.frame.ip]? with
  | none =>
      -- Behind the end of its code a function returns, and the top-level program does not go on.
      rw [Exec.step_eq, hbyte] at hstep
      by_cases hcallers : m.callers = #[]
      · rw [hcallers] at hstep
        cases hstep
      · have hleave : Exec.leaveBody .null m = .ok .running m' := by
          simpa [hcallers] using hstep
        have hdiscards := Exec.leaveBody_discards .null hcallers
        rw [hleave] at hdiscards
        exact .inr (.inr hdiscards)
  | some byte =>
      cases hop : Opcode.ofByte? byte with
      | none =>
          rw [Exec.step_eq, hbyte] at hstep
          simp only [hop] at hstep
          cases hstep
      | some op =>
          rw [Exec.step_of_opcode hbyte hop] at hstep
          rcases act_bind_eq_ok hstep with ⟨operands, m₁, hfetch, hexecute⟩
          rcases Exec.fetchOperands_eq_ok hfetch with ⟨next, rfl⟩
          by_cases hjump : m.TakesJump op
          · have hjumps := Exec.execute_takes_jump (operands.getD 0 0) (operands.getD 1 0) next hjump
            rw [hexecute] at hjumps
            exact .inl ⟨_, hjumps⟩
          · by_cases hleaves : m.LeavesCall op
            · have hreturns := Exec.execute_leaves_call (operands.getD 0 0) (operands.getD 1 0) next
                hleaves
              rw [hexecute] at hreturns
              exact .inr (.inr hreturns)
            · have hgoes := Exec.execute_goes_on (operands.getD 0 0) (operands.getD 1 0) next hjump
                hleaves
              rw [hexecute] at hgoes
              rcases hgoes with hstays | ⟨-, hcalls⟩
              · exact .inl ⟨next, hstays⟩
              · exact .inr (.inl ⟨next, hcalls⟩)

/-- The closure of the call in progress that has the given number of callers. -/
def closureAt? (m : Machine) (depth : Nat) : Option Value :=
  (m.callers.push m.frame)[depth]?.map Frame.closure

theorem closureAt?_size (m : Machine) : m.closureAt? m.callers.size = some m.frame.closure := by
  simp [closureAt?]

theorem closure_push_congr {callers : Array Frame} {frame frame' : Frame}
    (h : frame'.closure = frame.closure) (depth : Nat) :
    (callers.push frame')[depth]?.map Frame.closure =
      (callers.push frame)[depth]?.map Frame.closure := by
  rw [Array.getElem?_push, Array.getElem?_push]
  split
  · exact congrArg some h
  · rfl

/-- A call that is in progress before and after a step is one of the same closure. -/
theorem Next.closureAt? (h : m.Next m') {depth : Nat} (hdepth : depth ≤ m.callers.size)
    (hdepth' : depth ≤ m'.callers.size) : m'.closureAt? depth = m.closureAt? depth := by
  unfold Machine.closureAt?
  have hmoved : ∀ ip, (m.jump ip).frame.closure = m.frame.closure := fun _ => rfl
  rcases h.calls with ⟨ip, hsame⟩ | ⟨ip, hcallers⟩ | hcallers
  · rw [hsame.frame, hsame.callers]
    exact closure_push_congr (hmoved ip) depth
  · -- The new call stands above all the others.
    have hnew : depth < (m.callers.push (m.jump ip).frame).size := by
      rw [Array.size_push]
      omega
    rw [hcallers, Array.getElem?_push_lt hnew, ← Array.getElem?_eq_getElem hnew]
    exact closure_push_congr (hmoved ip) depth
  · -- The call that has returned stood above all the others.
    have hold : depth < (m'.callers.push m'.frame).size := by
      rw [Array.size_push]
      omega
    rw [hcallers, Array.getElem?_push_lt hold, ← Array.getElem?_eq_getElem hold]

/-- The call that was running in `entered` is running in `now`, and has been in progress all the time
between the two. -/
structure SameCall (entered now : Machine) : Prop where
  run : Relation.ReflTransGen
    (fun a b => a.Next b ∧ entered.callers.size ≤ b.callers.size) entered now
  depth : now.callers.size = entered.callers.size

theorem SameCall.closure {entered now : Machine} (h : entered.SameCall now) :
    now.frame.closure = entered.frame.closure := by
  have hlater : ∀ {now}, Relation.ReflTransGen
      (fun a b => a.Next b ∧ entered.callers.size ≤ b.callers.size) entered now →
      entered.callers.size ≤ now.callers.size ∧
        now.closureAt? entered.callers.size = some entered.frame.closure := by
    intro now hrun
    induction hrun with
    | refl => exact ⟨Nat.le_refl _, entered.closureAt?_size⟩
    | tail _ hstep ih =>
        exact ⟨hstep.2, (hstep.1.closureAt? ih.1 hstep.2).trans ih.2⟩
  have hclosure := (hlater h.run).2
  rw [← h.depth, now.closureAt?_size] at hclosure
  exact Option.some.inj hclosure

/-- Every call of a value that starts the body of a function, and the own name of that function as long
as the call runs: what the name stands for is the value that was called if that is a closure, and
otherwise a closure of the same body that has captured nothing and is another value. -/
theorem own_name_of_call {m entered now : Machine} {argc : Nat} {v : Value}
    (hcall : m.frame.code.Holds m.frame.ip [⟨.call, [argc]⟩]) (htop : m.stack.top? = some v)
    (hnext : m.Next entered) (hpushed : m.callers.size < entered.callers.size)
    (hrun : entered.SameCall now)
    (hown : now.frame.code.Holds now.frame.ip [⟨.currentClosure, []⟩]) :
    ∃ u, Exec.step now = Exec.goOn (Exec.push u) (now.jump (now.frame.ip + 1)) ∧
      v.callee? m.created = some u ∧
      (u.identical v = true ↔ ∃ id body free, v = .closure id body free) := by
  have hstep : Exec.step m = .ok .running entered := hnext
  rw [Exec.step_of_holds hcall] at hstep
  rcases act_bind_eq_ok hstep with ⟨_, m₁, hentered, hgoes⟩
  cases hgoes
  rcases Exec.call_eq_ok hentered htop hpushed with ⟨id, body, free, m₁, hcallee, -, -, henter⟩
  rcases Exec.enterBody_eq_ok henter with ⟨-, stack, -, hentered⟩
  have hclosure : now.frame.closure = .closure id body free := by
    rw [hrun.closure, hentered]
    rfl
  refine ⟨.closure id body free, ?_, hcallee, ?_⟩
  · rw [Exec.step_of_holds hown, ← hclosure]
    rfl
  · rw [Value.identical_iff]
    cases v with
    | closure id' body' free' =>
        cases hcallee
        exact ⟨fun _ => ⟨_, _, _, rfl⟩, fun _ => rfl⟩
    | function id' body' => simp
    | _ => cases hcallee

/-- The body asks for its own name, and the function captures nothing. -/
theorem own_name_of_call_of_function :
    ∃ (m entered now : Machine) (v : Value), m.frame.code.Holds m.frame.ip [⟨.call, [0]⟩] ∧
      m.stack.top? = some v ∧ m.Next entered ∧ m.callers.size < entered.callers.size ∧
      entered.SameCall now ∧
      now.frame.code.Holds now.frame.ip [⟨.currentClosure, []⟩] ∧
      v = .function (.constant 0)
        { code := #[Opcode.currentClosure.toByte, Opcode.returnValue.toByte]
          numLocals := 0
          numParams := 0 } ∧
      ∃ u, Exec.step now = Exec.goOn (Exec.push u) (now.jump (now.frame.ip + 1)) ∧
        u.identical v = false := by
  let f : Function :=
    { code := #[Opcode.currentClosure.toByte, Opcode.returnValue.toByte]
      numLocals := 0
      numParams := 0 }
  let m : Machine :=
    { Machine.load { code := #[Opcode.call.toByte, 0, 0], constants := #[] } (.ofCapacity 0)
        { stackSize := 1, globalsSize := 0, maxFrames := 2 } 0 0 with
      stack := { items := #[.function (.constant 0) f], height := 1 } }
  let entered : Machine :=
    { m with
      stack := { m.stack with height := 0 }
      frame := .start (.created 0) f [] 0
      callers := #[{ m.frame with ip := 3 }]
      created := 1 }
  have hcall : m.frame.code.Holds m.frame.ip [⟨.call, [0]⟩] :=
    ⟨List.forall_mem_singleton.2 (.cons (by decide) .nil), [], rfl⟩
  have hown : entered.frame.code.Holds entered.frame.ip [⟨.currentClosure, []⟩] :=
    ⟨List.forall_mem_singleton.2 .nil, [Opcode.returnValue.toByte], rfl⟩
  have htop : m.stack.top? = some (.function (.constant 0) f) := rfl
  have hnext : m.Next entered := rfl
  have hpushed : m.callers.size < entered.callers.size := by decide
  have hrun : entered.SameCall entered := ⟨.refl, rfl⟩
  rcases own_name_of_call hcall htop hnext hpushed hrun hown with ⟨u, hstep, -, hidentical⟩
  refine ⟨m, entered, entered, .function (.constant 0) f, hcall, htop, hnext, hpushed, hrun, hown,
    rfl, u, hstep, ?_⟩
  rw [Bool.eq_false_iff]
  intro htrue
  rcases hidentical.1 htrue with ⟨_, _, _, hclosure⟩
  cases hclosure

end Machine

/-- A function that captures nothing and gives its own name is not the value it gives. -/
theorem Session.own_name_differs :
    (Session.eval 20
      [.bind "f" (.function [] [.expr (.ident "f")]),
        .expr (.binary (.call (.ident "f") []) "==" (.ident "f"))]
      (.start { stackSize := 8, globalsSize := 1, maxFrames := 2 })).1.result =
      .ok (.bool false) := by
  decide +kernel

end MonkeyMachine
