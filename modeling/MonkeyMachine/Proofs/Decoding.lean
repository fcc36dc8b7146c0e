import MonkeyMachine.Proofs.Execution
import MonkeyMachine.Proofs.RoundTrip

/-!
# Execution follows the layout table

The width of each operand is written down twice: in the layout of its opcode, which encoding and
decoding read, and in the instruction of the machine that fetches it. `step_decodes` says that the
two agree on every buffer. At a defined opcode the machine executes the operands that decoding
finds there and leaves the instruction pointer behind them; if the buffer ends too early or the byte
stands for no opcode, the step fails and changes nothing but the pointer.
-/

namespace MonkeyMachine

/-- The calls in progress of two machines are the same, and each is at the same instruction. -/
structure Machine.SameCalls (m m' : Machine) : Prop where
  frame : m'.frame = m.frame
  callers : m'.callers = m.callers

theorem Machine.SameCalls.trans {m m' m'' : Machine} (h : m.SameCalls m') (h' : m'.SameCalls m'') :
    m.SameCalls m'' :=
  ⟨h'.frame.trans h.frame, h'.callers.trans h.callers⟩

/-! ## Acts that leave the calls alone -/

namespace Exec

variable {α β : Type}

/-- The act leaves the calls in progress as they are, whether it succeeds or fails. -/
def KeepsCalls (act : Exec α) : Prop := ∀ m : Machine, m.SameCalls (finalState (act m))

namespace KeepsCalls

theorem bind {act : Exec α} {next : α → Exec β} (h : KeepsCalls act)
    (hnext : ∀ a, KeepsCalls (next a)) : KeepsCalls (act >>= next) :=
  fun m => finalState_bind (h m) fun a m' _ hm' => hm'.trans (hnext a m')

theorem pure (a : α) : KeepsCalls (Pure.pure a) := fun _ => ⟨rfl, rfl⟩

theorem throw (fault : Fault) : KeepsCalls (MonadExcept.throw fault : Exec α) := fun _ => ⟨rfl, rfl⟩

theorem get : KeepsCalls (MonadState.get : Exec Machine) := fun _ => ⟨rfl, rfl⟩

theorem onStack (act : Stack.Act α) : KeepsCalls (Exec.onStack act) := by
  intro m
  rw [onStack_apply]
  cases act m.stack <;> exact ⟨rfl, rfl⟩

theorem onGlobals (act : Globals.Act α) : KeepsCalls (Exec.onGlobals act) := by
  intro m
  rw [onGlobals_apply]
  cases act m.globals <;> exact ⟨rfl, rfl⟩

theorem push (v : Value) : KeepsCalls (Exec.push v) := onStack _

theorem pop : KeepsCalls Exec.pop := onStack _

theorem popMany (count : Nat) : KeepsCalls (Exec.popMany count) := onStack _

theorem fresh : KeepsCalls Exec.fresh := fun _ => ⟨rfl, rfl⟩

theorem print (text : String) : KeepsCalls (Exec.print text) := fun _ => ⟨rfl, rfl⟩

theorem ofResult (result : Except Fault α) : KeepsCalls (Exec.ofResult result) := by
  cases result with
  | ok a => exact pure a
  | error fault => exact throw fault

theorem pushFrom (part : Machine → Except Fault Value) : KeepsCalls (Exec.pushFrom part) :=
  get.bind fun _ => (ofResult _).bind fun _ => push _

theorem binary (operation : Value → Value → Except Fault Value) :
    KeepsCalls (Exec.binary operation) :=
  pop.bind fun _ => pop.bind fun _ => (ofResult _).bind fun _ => push _

theorem unary (operation : Value → Except Fault Value) : KeepsCalls (Exec.unary operation) :=
  pop.bind fun _ => (ofResult _).bind fun _ => push _

theorem makeArray (count : Nat) : KeepsCalls (Exec.makeArray count) :=
  (popMany count).bind fun _ => fresh.bind fun _ => push _

theorem makeHash (count : Nat) : KeepsCalls (Exec.makeHash count) :=
  (popMany count).bind fun _ => (ofResult _).bind fun _ => fresh.bind fun _ => push _

theorem makeClosure (index count : Nat) : KeepsCalls (Exec.makeClosure index count) := by
  apply get.bind
  intro m
  split
  · exact (popMany count).bind fun _ => fresh.bind fun _ => push _
  · exact throw _

theorem setGlobal (slot : Nat) : KeepsCalls (Exec.setGlobal slot) :=
  pop.bind fun _ => onGlobals _

theorem setLocal (slot : Nat) : KeepsCalls (Exec.setLocal slot) :=
  pop.bind fun _ => get.bind fun _ => onStack _

theorem callBuiltin (b : Builtin) (base : Nat) : KeepsCalls (Exec.callBuiltin b base) := by
  apply get.bind
  intro m
  apply fresh.bind
  intro id
  apply (print _).bind
  intro _
  split
  · exact throw _
  · exact (onStack _).bind fun _ => push _

theorem goOn {act : Exec Unit} (h : KeepsCalls act) : KeepsCalls (Exec.goOn act) :=
  h.bind fun _ => pure _

/-- Only jumps, calls and returns are about the calls in progress. -/
theorem execute {op : Opcode} (a b : Nat) (hjump : op ≠ .jump) (hjumpNotTruthy : op ≠ .jumpNotTruthy)
    (hcall : op ≠ .call) (hreturnValue : op ≠ .returnValue) (hreturnNull : op ≠ .returnNull) :
    KeepsCalls (Exec.execute op a b) := by
  cases op with
  | jump => exact absurd rfl hjump
  | jumpNotTruthy => exact absurd rfl hjumpNotTruthy
  | call => exact absurd rfl hcall
  | returnValue => exact absurd rfl hreturnValue
  | returnNull => exact absurd rfl hreturnNull
  | pop => exact goOn (pop.bind fun _ => pure _)
  | pushTrue | pushFalse | pushNull => exact goOn (push _)
  | constant | getGlobal | getLocal | getBuiltin | getFree | currentClosure =>
      exact goOn (pushFrom _)
  | add | sub | mul | div | equal | notEqual | greaterThan | index => exact goOn (binary _)
  | minus | bang => exact goOn (unary _)
  | setGlobal => exact goOn (setGlobal a)
  | setLocal => exact goOn (setLocal a)
  | array => exact goOn (makeArray a)
  | hash => exact goOn (makeHash a)
  | closure => exact goOn (makeClosure a b)

end KeepsCalls

/-! ## Jumps, calls and returns -/

/-- The running call waits for a new one, or goes on. -/
def CallsOrStays (m m' : Machine) : Prop := m.SameCalls m' ∨ m'.callers = m.callers.push m.frame

theorem KeepsCalls.bind_calls {act : Exec α} {next : α → Exec β} (h : KeepsCalls act)
    (hnext : ∀ a m, CallsOrStays m (finalState (next a m))) (m : Machine) :
    CallsOrStays m (finalState ((act >>= next) m)) := by
  have hact := h m
  cases hx : act m with
  | ok a m' =>
      rw [act_bind_of_ok hx]
      have hsame : m.SameCalls m' := by rwa [hx] at hact
      rcases hnext a m' with hstays | hcalls
      · exact .inl (hsame.trans hstays)
      · rw [hsame.frame, hsame.callers] at hcalls
        exact .inr hcalls
  | error fault m' =>
      rw [hx] at hact
      rw [act_bind_of_error hx]
      exact .inl hact

theorem enterBody_calls (id : Identity) (body : Function) (free : List Value) (argc base : Nat)
    (m : Machine) : CallsOrStays m (finalState (enterBody id body free argc base m)) := by
  by_cases hcount : argc = body.numParams
  · by_cases hlimit : m.callers.size + 2 ≤ m.maxFrames
    · cases hreserve : Stack.reserve (base + argc) (body.numLocals - argc) (base + body.numLocals)
          m.stack with
      | ok _ stack =>
          rw [enterBody_of_ok id free base hcount hlimit hreserve]
          exact .inr rfl
      | error fault stack =>
          rw [enterBody_of_full id free base hcount hlimit hreserve]
          exact .inl ⟨rfl, rfl⟩
    · rw [enterBody_of_limit id free base hcount hlimit]
      exact .inl ⟨rfl, rfl⟩
  · rw [enterBody_of_count id free base hcount]
    exact .inl ⟨rfl, rfl⟩

theorem call_calls (argc : Nat) (m : Machine) : CallsOrStays m (finalState (call argc m)) := by
  refine KeepsCalls.pop.bind_calls (fun callee => ?_) m
  refine (KeepsCalls.onStack _).bind_calls fun base => ?_
  cases callee with
  | closure id body free => exact enterBody_calls id body free argc base
  | function _ body => exact KeepsCalls.fresh.bind_calls fun id => enterBody_calls id body [] argc base
  | builtin b => exact fun m => .inl (KeepsCalls.callBuiltin b base m)
  | _ => exact fun m => .inl (KeepsCalls.throw _ m)

theorem goOn_calls {act : Exec Unit} (h : ∀ m, CallsOrStays m (finalState (act m))) (m : Machine) :
    CallsOrStays m (finalState (goOn act m)) := by
  apply finalState_bind (h m)
  intro _ m' _ hm'
  exact hm'

/-- A call that nobody waits for is not discarded when it returns. -/
theorem leaveBody_same {m : Machine} (result : Value) (h : m.callers = #[]) :
    m.SameCalls (finalState (leaveBody result m)) := by
  rw [leaveBody_of_last result h]
  exact ((KeepsCalls.push result).bind fun _ => KeepsCalls.pop.bind fun _ => .pure _) m

/-- The caller goes on where it was, also if there is no room for the result. -/
theorem leaveBody_discards {m : Machine} (result : Value) (h : m.callers ≠ #[]) :
    m.callers = (finalState (leaveBody result m)).callers.push
      (finalState (leaveBody result m)).frame := by
  rcases Array.exists_push_of_ne_empty h with ⟨callers, caller, hpush⟩
  rw [leaveBody_of_push result hpush]
  have hback : KeepsCalls (do
      onStack (Stack.setHeight m.frame.base)
      push result
      return .running : Exec Progress) :=
    (KeepsCalls.onStack _).bind fun _ => (KeepsCalls.push result).bind fun _ => .pure _
  rw [(hback _).frame, (hback _).callers]
  exact hpush

end Exec

/-! ## Steps -/

namespace Machine

/-- The instruction is a jump that is taken: one without a condition, or one whose condition does not
count as true. -/
def TakesJump (m : Machine) (op : Opcode) : Prop :=
  op = .jump ∨
    op = .jumpNotTruthy ∧ ∃ v stack, Stack.pop m.stack = .ok v stack ∧ v.truthy = false

/-- The instruction leaves the running call for its caller. -/
def LeavesCall (m : Machine) (op : Opcode) : Prop :=
  m.callers ≠ #[] ∧
    (op = .returnNull ∨ op = .returnValue ∧ ∃ v stack, Stack.pop m.stack = .ok v stack)

/-- The step executes an instruction with these operands, where `next` is the position behind it. What
becomes of the running call is said of the state that the step leaves, also if the instruction
fails. -/
structure Executes (m : Machine) (op : Opcode) (operands : List Nat) (next : Nat) : Prop where
  step : Exec.step m = Exec.execute op (operands.getD 0 0) (operands.getD 1 0) (m.jump next)
  length : operands.length = op.widths.length
  jumps : m.TakesJump op → (m.jump (operands.getD 0 0)).SameCalls (finalState (Exec.step m))
  returns : m.LeavesCall op →
    m.callers = (finalState (Exec.step m)).callers.push (finalState (Exec.step m)).frame
  goesOn : ¬ m.TakesJump op → ¬ m.LeavesCall op →
    (m.jump next).SameCalls (finalState (Exec.step m)) ∨
      op = .call ∧ (finalState (Exec.step m)).callers = m.callers.push (m.jump next).frame

end Machine

namespace Code

variable {code : Code} {start : Nat} {op : Opcode}

theorem readOperands_of_decode {operands : List Nat} {n : Nat}
    (h : code.decodeOperands start op = .ok (operands, n)) :
    code.readOperands start op.widths = .ok (operands, start + n) := by
  unfold decodeOperands at h
  split at h
  · cases h
  · rename_i finish hread
    cases h
    rcases drop_of_readOperands hread with ⟨-, hle, -⟩
    rw [hread, Nat.add_sub_cancel' hle]

theorem le_of_readOperands_error {widths : List Width} {missing : Nat}
    (h : code.readOperands start widths = .error missing) : start ≤ missing := by
  induction widths generalizing start with
  | nil => cases h
  | cons width widths ih =>
      unfold readOperands at h
      split at h
      · cases h
        exact Nat.le_refl _
      · split at h
        · rename_i hrest
          cases h
          exact Nat.le_of_add_right_le (ih hrest)
        · cases h

/-- Decoding of operands fails for one reason only. -/
theorem readOperands_of_decode_error {cause : EncodingError}
    (h : code.decodeOperands start op = .error cause) :
    ∃ offset, cause = .truncated op offset ∧
      code.readOperands start op.widths = .error (start + offset) := by
  unfold decodeOperands at h
  split at h
  · rename_i missing hread
    cases h
    refine ⟨missing - start, rfl, ?_⟩
    rw [hread, Nat.add_sub_cancel' (le_of_readOperands_error hread)]
  · cases h

end Code

namespace Exec

variable {m : Machine} {byte : UInt8} {op : Opcode}

theorem step_of_opcode (hbyte : m.frame.code[m.frame.ip]? = some byte)
    (hop : Opcode.ofByte? byte = some op) :
    step m =
      (do
        let operands ← fetchOperands op
        execute op (operands.getD 0 0) (operands.getD 1 0) : Exec Progress) m := by
  rw [step_eq, hbyte]
  simp only [hop]

/-- Fetching operands moves the instruction pointer and nothing else. -/
theorem fetchOperands_eq_ok {operands : List Nat} {m' : Machine}
    (h : fetchOperands op m = .ok operands m') : ∃ next, m' = m.jump next := by
  rw [fetchOperands_eq] at h
  cases hread : m.frame.code.readOperands (m.frame.ip + 1) op.widths with
  | error missing =>
      rw [hread] at h
      cases h
  | ok result =>
      rw [hread] at h
      cases h
      exact ⟨_, rfl⟩

theorem execute_takes_jump (a b next : Nat) (h : m.TakesJump op) :
    (m.jump a).SameCalls (finalState (execute op a b (m.jump next))) := by
  rcases h with rfl | ⟨rfl, v, stack, hpop, hfalse⟩
  · exact ⟨rfl, rfl⟩
  · have hact : jumpNotTruthy a (m.jump next) = .ok () { m.jump a with stack } := by
      apply (act_bind_of_ok (onStack_of_ok (m := m.jump next) hpop)).trans
      rw [hfalse]
      rfl
    have hexecute : execute .jumpNotTruthy a b (m.jump next) = .ok .running { m.jump a with stack } :=
      act_bind_of_ok hact
    rw [hexecute]
    exact ⟨rfl, rfl⟩

theorem execute_returnValue_of_pop (a b next : Nat) {v : Value} {stack : Stack}
    (h : Stack.pop m.stack = .ok v stack) :
    execute .returnValue a b (m.jump next) = leaveBody v { m.jump next with stack } :=
  act_bind_of_ok (onStack_of_ok (m := m.jump next) h)

theorem execute_leaves_call (a b next : Nat) (h : m.LeavesCall op) :
    m.callers = (finalState (execute op a b (m.jump next))).callers.push
      (finalState (execute op a b (m.jump next))).frame := by
  rcases h with ⟨hcallers, rfl | ⟨rfl, v, stack, hpop⟩⟩
  · exact leaveBody_discards (m := m.jump next) .null hcallers
  · rw [execute_returnValue_of_pop a b next hpop]
    exact leaveBody_discards (m := { m.jump next with stack := stack }) v hcallers

/-- A conditional jump that is not taken, or fails for want of a value. -/
theorem jumpNotTruthy_same (a b next : Nat) (hjump : ¬ m.TakesJump .jumpNotTruthy) :
    (m.jump next).SameCalls (finalState (execute .jumpNotTruthy a b (m.jump next))) := by
  cases hpop : Stack.pop m.stack with
  | error fault stack =>
      have hexecute : execute .jumpNotTruthy a b (m.jump next) =
          .error fault { m.jump next with stack } :=
        act_bind_of_error (act_bind_of_error (onStack_of_error (m := m.jump next) hpop))
      rw [hexecute]
      exact ⟨rfl, rfl⟩
  | ok v stack =>
      -- Any other value would have made the machine jump.
      have htrue : v.truthy = true := by
        by_contra hfalse
        exact hjump (.inr ⟨rfl, v, stack, hpop, Bool.eq_false_of_not_eq_true hfalse⟩)
      have hact : jumpNotTruthy a (m.jump next) = .ok () { m.jump next with stack } := by
        apply (act_bind_of_ok (onStack_of_ok (m := m.jump next) hpop)).trans
        rw [htrue]
        rfl
      have hexecute : execute .jumpNotTruthy a b (m.jump next) =
          .ok .running { m.jump next with stack } := act_bind_of_ok hact
      rw [hexecute]
      exact ⟨rfl, rfl⟩

/-- A return from the program itself, or one that fails for want of a value. -/
theorem returnValue_same (a b next : Nat) (hleaves : ¬ m.LeavesCall .returnValue) :
    (m.jump next).SameCalls (finalState (execute .returnValue a b (m.jump next))) := by
  cases hpop : Stack.pop m.stack with
  | error fault stack =>
      have hexecute : execute .returnValue a b (m.jump next) =
          .error fault { m.jump next with stack } :=
        act_bind_of_error (onStack_of_error (m := m.jump next) hpop)
      rw [hexecute]
      exact ⟨rfl, rfl⟩
  | ok v stack =>
      -- With a caller waiting, the machine would have left the call.
      have hcallers : m.callers = #[] := by
        by_contra hsome
        exact hleaves ⟨hsome, .inr ⟨rfl, v, stack, hpop⟩⟩
      rw [execute_returnValue_of_pop a b next hpop]
      have hsame := leaveBody_same (m := { m.jump next with stack := stack }) v hcallers
      exact ⟨hsame.frame, hsame.callers⟩

theorem execute_goes_on (a b next : Nat) (hjump : ¬ m.TakesJump op)
    (hleaves : ¬ m.LeavesCall op) :
    (m.jump next).SameCalls (finalState (execute op a b (m.jump next))) ∨
      op = .call ∧ (finalState (execute op a b (m.jump next))).callers =
        m.callers.push (m.jump next).frame := by
  cases op with
  | jump => exact absurd (.inl rfl) hjump
  | jumpNotTruthy => exact .inl (jumpNotTruthy_same a b next hjump)
  | call =>
      rcases goOn_calls (call_calls a) (m.jump next) with hstays | hcalls
      · exact .inl hstays
      · exact .inr ⟨rfl, hcalls⟩
  | returnValue => exact .inl (returnValue_same a b next hleaves)
  | returnNull =>
      left
      have hcallers : m.callers = #[] := by
        by_contra hsome
        exact hleaves ⟨hsome, .inl rfl⟩
      exact leaveBody_same (m := m.jump next) .null hcallers
  | _ =>
      left
      apply KeepsCalls.execute <;> decide

end Exec

/-- Every step does with the instruction at the pointer what decoding says of the bytes there. -/
theorem Machine.step_decodes (m : Machine) {byte : UInt8}
    (hbyte : m.frame.code[m.frame.ip]? = some byte) :
    (∀ op, Opcode.ofByte? byte = some op →
      (∀ operands n, m.frame.code.decodeOperands (m.frame.ip + 1) op = .ok (operands, n) →
        m.Executes op operands (m.frame.ip + 1 + n)) ∧
      (∀ cause, m.frame.code.decodeOperands (m.frame.ip + 1) op = .error cause →
        ∃ offset, cause = .truncated op offset ∧
          Exec.step m = .error (.encoding (.truncated op (m.frame.ip + 1 + offset)))
            (m.jump (m.frame.ip + 1 + offset)))) ∧
    (Opcode.ofByte? byte = none → Exec.step m = .error (.encoding (.unknownOpcode byte)) m) := by
  refine ⟨fun op hop => ⟨fun operands n hdecode => ?_, fun cause hdecode => ?_⟩, fun hop => ?_⟩
  · have hread := Code.readOperands_of_decode hdecode
    have hfetch : Exec.fetchOperands op m = .ok operands (m.jump (m.frame.ip + 1 + n)) := by
      rw [Exec.fetchOperands_eq, hread]
      rfl
    have hstep := (Exec.step_of_opcode hbyte hop).trans (act_bind_of_ok hfetch)
    rcases Code.drop_of_readOperands hread with ⟨hfits, -, -⟩
    refine ⟨hstep, hfits.length_eq.symm, ?_, ?_, ?_⟩
    · intro hjump
      rw [hstep]
      exact Exec.execute_takes_jump _ _ _ hjump
    · intro hleaves
      rw [hstep]
      exact Exec.execute_leaves_call _ _ _ hleaves
    · intro hjump hleaves
      rw [hstep]
      exact Exec.execute_goes_on _ _ _ hjump hleaves
  · rcases Code.readOperands_of_decode_error hdecode with ⟨offset, rfl, hread⟩
    refine ⟨offset, rfl, ?_⟩
    have hfetch : Exec.fetchOperands op m =
        .error (.encoding (.truncated op (m.frame.ip + 1 + offset)))
          (m.jump (m.frame.ip + 1 + offset)) := by
      rw [Exec.fetchOperands_eq, hread]
      rfl
    exact (Exec.step_of_opcode hbyte hop).trans (act_bind_of_error hfetch)
  · rw [Exec.step_eq, hbyte]
    simp only [hop]
    rfl

/-- Two closure instructions, the second of which lacks its last operand. -/
theorem Machine.step_decodes_of_cut_closure :
    ∃ m : Machine, m.frame.code = #[Opcode.closure.toByte, 1, 2, 3, Opcode.closure.toByte, 1, 2] ∧
      m.frame.ip = 0 ∧ m.Executes .closure [258, 3] 4 ∧
      Exec.step (m.jump 4) = .error (.encoding (.truncated .closure 7)) (m.jump 7) := by
  let m : Machine := .load
    { code := #[Opcode.closure.toByte, 1, 2, 3, Opcode.closure.toByte, 1, 2], constants := #[] }
    (.ofCapacity 0) {} 0 0
  have hwhole : m.frame.code[m.frame.ip]? = some Opcode.closure.toByte := rfl
  have hcut : (m.jump 4).frame.code[(m.jump 4).frame.ip]? = some Opcode.closure.toByte := rfl
  refine ⟨m, rfl, rfl, ?_, ?_⟩
  · exact ((m.step_decodes hwhole).1 .closure rfl).1 [258, 3] 3 rfl
  · rcases (((m.jump 4).step_decodes hcut).1 .closure rfl).2 (.truncated .closure 2) rfl with
      ⟨offset, hoffset, hstep⟩
    cases hoffset
    exact hstep

end MonkeyMachine
