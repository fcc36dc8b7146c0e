import Mathlib.Logic.Relation
import MonkeyMachine.Machine.Step
import MonkeyMachine.Proofs.Acts
import MonkeyMachine.Proofs.Instructions

/-!
# Execution, one act at a time

A run as a sequence of steps, and what the acts of the machine do to the values that are live on its
stack. `Stack.Live stack values` lists these values, oldest first. Slots above them hold what was
popped earlier; none of the statements here speaks about those, apart from the one popped last.
-/

namespace MonkeyMachine

/-! ## Runs -/

namespace Machine

/-- The machine executes one instruction and goes on. -/
def Next (m m' : Machine) : Prop := Exec.step m = .ok .running m'

/-- The machine comes to another state by executing instructions. -/
def Reaches : Machine → Machine → Prop := Relation.ReflTransGen Next

/-- How a run whose last state is `last` ends. -/
def EndsAs (last : Machine) : Ending → Machine → Prop
  | .finished, m => Exec.step last = .ok .finished m
  | .failed fault, m => Exec.step last = .error fault m
  | .outOfFuel, m => m = last

theorem Reaches.refl (m : Machine) : Reaches m m := Relation.ReflTransGen.refl

theorem Reaches.trans {a b c : Machine} (h : Reaches a b) (h' : Reaches b c) : Reaches a c :=
  Relation.ReflTransGen.trans h h'

theorem Next.reaches {m m' : Machine} (h : Next m m') : Reaches m m' :=
  Relation.ReflTransGen.single h

theorem run_of_next {m m' : Machine} (h : Next m m') (fuel : Nat) :
    m.run (fuel + 1) = m'.run fuel := by
  have hstep : Exec.step m = .ok .running m' := h
  simp only [run, hstep]

/-- A run passes through the states that the machine reaches. -/
theorem Reaches.run {m m' : Machine} (h : Reaches m m') :
    ∃ steps, ∀ fuel, m.run (fuel + steps) = m'.run fuel := by
  induction h using Relation.ReflTransGen.head_induction_on with
  | refl => exact ⟨0, fun _ => rfl⟩
  | head hnext _ ih =>
      rcases ih with ⟨steps, hsteps⟩
      refine ⟨steps + 1, fun fuel => ?_⟩
      rw [← Nat.add_assoc, run_of_next hnext, hsteps]

theorem run_of_endsAs {last m : Machine} {ending : Ending} (h : last.EndsAs ending m)
    (hfuel : ending ≠ .outOfFuel) (fuel : Nat) : last.run (fuel + 1) = (ending, m) := by
  cases ending with
  | finished =>
      have hstep : Exec.step last = .ok .finished m := h
      simp only [run, hstep]
  | failed fault =>
      have hstep : Exec.step last = .error fault m := h
      simp only [run, hstep]
  | outOfFuel => exact absurd rfl hfuel

/-- A run ends in a state that the machine reaches. -/
theorem reaches_of_run {fuel : Nat} {m m' : Machine} {ending : Ending}
    (h : m.run fuel = (ending, m')) : ∃ last, Reaches m last ∧ last.EndsAs ending m' := by
  induction fuel generalizing m with
  | zero =>
      cases h
      exact ⟨m', .refl m', rfl⟩
  | succ fuel ih =>
      unfold run at h
      split at h
      · rename_i next hstep
        rcases ih h with ⟨last, hreaches, hends⟩
        exact ⟨last, (Next.reaches hstep).trans hreaches, hends⟩
      · rename_i hstep
        cases h
        exact ⟨m, .refl m, hstep⟩
      · rename_i hstep
        cases h
        exact ⟨m, .refl m, hstep⟩

/-- Once a run has ended, more fuel changes nothing. -/
theorem run_eq_of_le {fuel more : Nat} {m m' : Machine} {ending : Ending}
    (h : m.run fuel = (ending, m')) (hfuel : ending ≠ .outOfFuel) (hle : fuel ≤ more) :
    m.run more = (ending, m') := by
  induction fuel generalizing m more with
  | zero =>
      cases h
      exact absurd rfl hfuel
  | succ fuel ih =>
      -- The run has made a step, so there is fuel for one here too.
      obtain ⟨more, rfl⟩ : ∃ n, more = n + 1 := ⟨more - 1, by omega⟩
      unfold run at h
      split at h
      · rename_i hstep
        rw [run_of_next hstep]
        exact ih h (by omega)
      · rename_i hstep
        cases h
        have hends : m.EndsAs .finished m' := hstep
        exact run_of_endsAs hends hfuel more
      · rename_i fault _ hstep
        cases h
        have hends : m.EndsAs (.failed fault) m' := hstep
        exact run_of_endsAs hends hfuel more

/-- All runs that end do so in the same way. -/
theorem run_unique {fuel : Nat} {m m' last final : Machine} {ending ending' : Ending}
    (h : m.run fuel = (ending, m')) (hfuel : ending ≠ .outOfFuel) (hreaches : m.Reaches last)
    (hends : last.EndsAs ending' final) (hfuel' : ending' ≠ .outOfFuel) :
    ending = ending' ∧ m' = final := by
  rcases hreaches.run with ⟨steps, hsteps⟩
  have hrun : m.run (fuel + 1 + steps) = (ending', final) := by
    rw [hsteps, run_of_endsAs hends hfuel']
  rw [run_eq_of_le h hfuel (by omega)] at hrun
  exact Prod.mk.inj hrun

end Machine

/-! ## Outcomes of acts -/

namespace Exec

variable {α β : Type}

/-- What an act leaves: `ok` holds if it succeeds, `bad` if it raises a fault. -/
def Leaves (ok : α → Machine → Prop) (bad : Fault → Machine → Prop) :
    EStateM.Result Fault Machine α → Prop
  | .ok a m => ok a m
  | .error fault m => bad fault m

theorem Leaves.bind {ok : α → Machine → Prop} {ok' : β → Machine → Prop}
    {bad : Fault → Machine → Prop} {act : Exec α} {next : α → Exec β} {m : Machine}
    (h : Leaves ok bad (act m)) (hnext : ∀ a m', ok a m' → Leaves ok' bad (next a m')) :
    Leaves ok' bad ((act >>= next) m) := by
  cases hact : act m with
  | ok a m' =>
      rw [hact] at h
      rw [act_bind_of_ok hact]
      exact hnext a m' h
  | error fault m' =>
      rw [hact] at h
      rw [act_bind_of_error hact]
      exact h

theorem Leaves.mono {ok ok' : α → Machine → Prop} {bad bad' : Fault → Machine → Prop}
    {result : EStateM.Result Fault Machine α} (h : Leaves ok bad result)
    (hok : ∀ a m, ok a m → ok' a m) (hbad : ∀ fault m, bad fault m → bad' fault m) :
    Leaves ok' bad' result := by
  cases result with
  | ok a m => exact hok a m h
  | error fault m => exact hbad fault m h

theorem onStack_of_ok {act : Stack.Act α} {m : Machine} {a : α} {stack : Stack}
    (h : act m.stack = .ok a stack) : onStack act m = .ok a { m with stack } := by
  rw [onStack_apply, h]

theorem onStack_of_error {act : Stack.Act α} {m : Machine} {fault : Fault} {stack : Stack}
    (h : act m.stack = .error fault stack) : onStack act m = .error fault { m with stack } := by
  rw [onStack_apply, h]

theorem step_eq (m : Machine) :
    step m =
      (match m.frame.code[m.frame.ip]? with
      | none => if m.callers.isEmpty then return .finished else leaveBody .null
      | some byte =>
          match Opcode.ofByte? byte with
          | none => throw (.encoding (.unknownOpcode byte))
          | some op => do
              let operands ← fetchOperands op
              execute op (operands.getD 0 0) (operands.getD 1 0) : Exec Progress) m := rfl

section Operands

variable {op : Opcode} {m : Machine}

theorem readOperand_eq (op : Opcode) (width : Width) (m : Machine) :
    readOperand op width m =
      (match m.frame.code.read? m.frame.ip width with
      | some operand => do
          jump (m.frame.ip + width.size)
          return operand
      | none => throw (.encoding (.truncated op m.frame.ip)) : Exec Nat) m := rfl

theorem readOperand_of_some {width : Width} {operand : Nat}
    (h : m.frame.code.read? m.frame.ip width = some operand) :
    readOperand op width m = .ok operand (m.jump (m.frame.ip + width.size)) := by
  rw [readOperand_eq, h]
  rfl

/-- Operands of the given widths, fetched one after another. -/
def readAll (op : Opcode) : List Width → Exec (List Nat)
  | [] => return []
  | width :: widths => do
      let operand ← readOperand op width
      let operands ← readAll op widths
      return operand :: operands

theorem readAll_of_ok {widths : List Width} {operands : List Nat} {finish : Nat}
    (h : m.frame.code.readOperands m.frame.ip widths = .ok (operands, finish)) :
    readAll op widths m = .ok operands (m.jump finish) := by
  induction widths generalizing m operands with
  | nil =>
      cases h
      rfl
  | cons width widths ih =>
      rw [Code.readOperands] at h
      split at h
      · cases h
      · rename_i operand hread
        rw [readAll, act_bind_of_ok (readOperand_of_some hread)]
        split at h
        · cases h
        · rename_i hrest
          cases h
          -- The other operands are read where the first one has left the pointer.
          exact act_bind_of_ok (ih (m := m.jump (m.frame.ip + width.size)) hrest)

theorem readAll_of_error {widths : List Width} {missing : Nat}
    (h : m.frame.code.readOperands m.frame.ip widths = .error missing) :
    readAll op widths m = .error (.encoding (.truncated op missing)) (m.jump missing) := by
  induction widths generalizing m with
  | nil => cases h
  | cons width widths ih =>
      rw [Code.readOperands] at h
      split at h
      -- This operand is the one that is cut off.
      · rename_i hread
        cases h
        apply act_bind_of_error
        rw [readOperand_eq, hread]
        rfl
      -- This one is whole, so one behind it is cut off.
      · rename_i operand hread
        rw [readAll, act_bind_of_ok (readOperand_of_some hread)]
        split at h
        · rename_i hrest
          cases h
          exact act_bind_of_error (ih (m := m.jump (m.frame.ip + width.size)) hrest)
        · cases h

/-- Each opcode fetches operands of the widths that its layout lists. -/
theorem fetchOperands_eq_readAll (op : Opcode) (m : Machine) :
    fetchOperands op m = readAll op op.widths (m.jump (m.frame.ip + 1)) := by
  cases op with
  | closure =>
      show (do
        let index ← readOperand .closure .word
        let count ← readOperand .closure .byte
        return [index, count] : Exec (List Nat)) (m.jump (m.frame.ip + 1)) =
          readAll .closure [.word, .byte] (m.jump (m.frame.ip + 1))
      simp only [readAll, bind_assoc, pure_bind]
  | _ => rfl

theorem fetchOperands_eq (op : Opcode) (m : Machine) :
    fetchOperands op m =
      (match m.frame.code.readOperands (m.frame.ip + 1) op.widths with
      | .ok (operands, finish) => do
          jump finish
          return operands
      | .error missing => do
          jump missing
          throw (.encoding (.truncated op missing)) : Exec (List Nat)) m := by
  rw [fetchOperands_eq_readAll]
  cases hread : m.frame.code.readOperands (m.frame.ip + 1) op.widths with
  | ok result => exact readAll_of_ok (m := m.jump (m.frame.ip + 1)) hread
  | error missing => exact readAll_of_error (m := m.jump (m.frame.ip + 1)) hread

end Operands

/-- At the start of an instruction the machine executes it, with the pointer already behind it. -/
theorem step_of_holds {m : Machine} {i : Instr} {is : List Instr}
    (h : m.frame.code.Holds m.frame.ip (i :: is)) :
    step m = execute i.op (i.operands.getD 0 0) (i.operands.getD 1 0)
      (m.jump (m.frame.ip + i.size)) := by
  rcases h.fetch with ⟨hbyte, hread⟩
  have hfetch : fetchOperands i.op m = .ok i.operands (m.jump (m.frame.ip + i.size)) := by
    rw [fetchOperands_eq, hread]
    rfl
  rw [step_eq, hbyte]
  simp only [Opcode.ofByte?_toByte]
  exact act_bind_of_ok hfetch

/-- At the end of its code the top-level program ends. -/
theorem step_at_end {m : Machine} (h : m.frame.code.size ≤ m.frame.ip) (hcallers : m.callers = #[]) :
    step m = .ok .finished m := by
  rw [step_eq, Array.getElem?_eq_none h, hcallers]
  rfl

end Exec

/-! ## Live values -/

namespace Stack

/-- The live values of a stack, oldest first. -/
def Live (stack : Stack) (values : List Value) : Prop :=
  stack.height = values.length ∧ values <+: stack.items.toList

variable {stack : Stack} {values : List Value} {v : Value}

theorem capacity_eq (stack : Stack) : stack.capacity = stack.items.toList.length := by
  simp [capacity]

/-- Writing the slot just above some values adds to them. -/
theorem prefix_set_next {items : Array Value} (h : values <+: items.toList) (v : Value)
    (hroom : values.length < items.size) :
    values ++ [v] <+: (items.setIfInBounds values.length v).toList := by
  rcases h with ⟨dead, hdead⟩
  cases dead with
  | nil =>
      have hsize : items.size = values.length := by
        rw [← Array.length_toList, ← hdead, List.append_nil]
      omega
  | cons old dead =>
      refine ⟨dead, ?_⟩
      rw [Array.toList_setIfInBounds, ← hdead, List.set_append_right _ _ (Nat.le_refl _)]
      simp

theorem lastPopped_ofCapacity (capacity : Nat) : (ofCapacity capacity).lastPopped = .null := by
  cases capacity <;> simp [ofCapacity, Stack.lastPopped]

theorem live_ofCapacity (capacity : Nat) : (ofCapacity capacity).Live [] :=
  ⟨rfl, List.nil_prefix⟩

namespace Live

theorem length_le (h : stack.Live values) : values.length ≤ stack.capacity := by
  rw [capacity_eq]
  exact h.2.length_le

theorem unique {values' : List Value} (h : stack.Live values) (h' : stack.Live values') :
    values = values' := by
  have hlength : values.length = values'.length := h.1.symm.trans h'.1
  have hle := List.prefix_of_prefix_length_le h.2 h'.2 (Nat.le_of_eq hlength)
  exact hle.eq_of_length hlength

/-- A live value stands in its slot. -/
theorem get? (h : stack.Live values) {slot : Nat} (hget : values[slot]? = some v) :
    stack.get? slot = some v := by
  rcases h.2 with ⟨dead, hdead⟩
  have hlt : slot < values.length := (List.getElem?_eq_some_iff.1 hget).1
  show stack.items[slot]? = some v
  rw [← Array.getElem?_toList, ← hdead, List.getElem?_append_left hlt, hget]

theorem liveFrom (h : stack.Live values) (start : Nat) :
    stack.liveFrom start = values.drop start := by
  rcases h.2 with ⟨dead, hdead⟩
  unfold Stack.liveFrom
  rw [Array.toList_extract, h.1, ← hdead, List.extract_eq_take_drop, ← List.drop_take,
    List.take_left]

theorem below (h : stack.Live values) {count : Nat} (hcount : count ≤ values.length) :
    Stack.below count stack = .ok (values.length - count) stack := by
  unfold Stack.below
  rw [h.1, if_pos hcount]

theorem push (h : stack.Live values) (v : Value) (hroom : values.length < stack.capacity) :
    ∃ stack', Stack.push v stack = .ok () stack' ∧ stack'.Live (values ++ [v]) ∧
      stack'.capacity = stack.capacity := by
  have hlt : stack.height < stack.items.size := by
    rw [h.1]
    exact hroom
  refine ⟨_, if_pos hlt, ⟨?_, ?_⟩, ?_⟩
  · simp [h.1]
  · rw [h.1]
    exact prefix_set_next h.2 v hroom
  · simp [capacity]

theorem push_full (h : stack.Live values) (v : Value) (hfull : stack.capacity ≤ values.length) :
    Stack.push v stack = .error (.stackOverflow stack.capacity) stack := by
  have hnot : ¬ stack.height < stack.items.size := by
    rw [h.1]
    exact Nat.not_lt.2 hfull
  exact if_neg hnot

/-- A live stack of fewer values. -/
theorem shrink (h : stack.Live values) (n : Nat) (hn : n ≤ values.length) :
    ({ stack with height := n } : Stack).Live (values.take n) := by
  refine ⟨?_, (List.take_prefix n values).trans h.2⟩
  rw [List.length_take]
  exact (Nat.min_eq_left hn).symm

theorem pop (h : stack.Live (values ++ [v])) :
    Stack.pop stack = .ok v { stack with height := values.length } ∧
      ({ stack with height := values.length } : Stack).Live values := by
  have hget : stack.items[values.length]? = some v := h.get? (by simp)
  have hheight : stack.height = values.length + 1 := by simpa using h.1
  constructor
  · unfold Stack.pop
    rw [hheight, if_neg (Nat.succ_ne_zero _)]
    simp [hget]
  · have hshrink := h.shrink values.length (by simp)
    rwa [List.take_left] at hshrink

/-- The value popped last can still be read. -/
theorem lastPopped (h : stack.Live (values ++ [v])) :
    ({ stack with height := values.length } : Stack).lastPopped = v := by
  have hget : stack.items[values.length]? = some v := h.get? (by simp)
  simp [Stack.lastPopped, hget]

theorem setHeight (h : stack.Live values) {n : Nat} (hn : n ≤ values.length) :
    Stack.setHeight n stack = .ok () { stack with height := n } := by
  have hle : n ≤ stack.items.size := Nat.le_trans hn h.length_le
  exact if_pos hle

theorem set (h : stack.Live values) (v : Value) {slot : Nat} (hslot : slot < values.length) :
    ∃ stack', Stack.set slot v stack = .ok () stack' ∧ stack'.Live (values.set slot v) ∧
      stack'.capacity = stack.capacity ∧ stack'.lastPopped = stack.lastPopped := by
  have hlt : slot < stack.items.size := Nat.lt_of_lt_of_le hslot h.length_le
  refine ⟨_, if_pos hlt, ⟨?_, ?_⟩, ?_, ?_⟩
  · simp [h.1]
  · rcases h.2 with ⟨dead, hdead⟩
    refine ⟨dead, ?_⟩
    rw [Array.toList_setIfInBounds, ← hdead, List.set_append_left _ _ hslot]
  · simp [capacity]
  · -- The value popped last lies above all live ones.
    have hne : slot ≠ stack.height := by
      rw [h.1]
      exact Nat.ne_of_lt hslot
    simp [Stack.lastPopped, hne]

theorem popMany {more : List Value} (h : stack.Live (values ++ more)) :
    Stack.popMany more.length stack = .ok more { stack with height := values.length } ∧
      ({ stack with height := values.length } : Stack).Live values := by
  have hstart : (values ++ more).length - more.length = values.length := by simp
  have hbelow := h.below (show more.length ≤ (values ++ more).length by simp)
  have hvalues : stack.liveFrom values.length = more := by
    rw [h.liveFrom, List.drop_left]
  have hheight := h.setHeight (show values.length ≤ (values ++ more).length by simp)
  constructor
  · rw [hstart] at hbelow
    refine (act_bind_of_ok hbelow).trans ?_
    refine (act_bind_of_ok hheight).trans ?_
    show EStateM.Result.ok (stack.liveFrom values.length) _ = _
    rw [hvalues]
  · have hshrink := h.shrink values.length (by simp)
    rwa [List.take_left] at hshrink

end Live

/-! ## The locals of a call -/

/-- Clearing slots from the first dead one on succeeds if there are that many. -/
theorem clear_of_room {count : Nat} (h : values <+: stack.items.toList)
    (hroom : values.length + count ≤ stack.capacity) :
    ∃ stack', clear values.length count stack = .ok () stack' ∧
      values ++ List.replicate count .null <+: stack'.items.toList ∧
      stack'.capacity = stack.capacity := by
  induction count generalizing stack values with
  | zero => exact ⟨stack, rfl, by simpa using h, rfl⟩
  | succ count ih =>
      have hlt : values.length < stack.items.size := by
        have hcapacity : stack.capacity = stack.items.size := rfl
        omega
      have hset : Stack.set values.length .null stack =
          .ok () { stack with items := stack.items.setIfInBounds values.length .null } := if_pos hlt
      -- The cleared slot becomes one of the values that the rest of the loop starts above.
      have hnext := prefix_set_next h .null hlt
      have hroom' : (values ++ [Value.null]).length + count ≤
          ({ stack with items := stack.items.setIfInBounds values.length .null } : Stack).capacity := by
        simp only [capacity, Array.size_setIfInBounds, List.length_append, List.length_singleton]
        have hcapacity : stack.capacity = stack.items.size := rfl
        omega
      rcases ih hnext hroom' with ⟨stack', hclear, hall, hsame⟩
      refine ⟨stack', ?_, ?_, ?_⟩
      · refine (act_bind_of_ok hset).trans ?_
        simpa using hclear
      · rw [List.replicate_succ]
        simpa using hall
      · rw [hsame]
        simp [capacity]

/-- Clearing more slots than there are fails. -/
theorem clear_full {slot count : Nat} (hslot : slot ≤ stack.capacity)
    (hfull : stack.capacity < slot + count) :
    ∃ stack', clear slot count stack = .error (.stackOverflow stack.capacity) stack' ∧
      stack'.capacity = stack.capacity := by
  induction count generalizing stack slot with
  | zero => omega
  | succ count ih =>
      -- The slots that are there are cleared before the first missing one is reached.
      by_cases hlt : slot < stack.items.size
      · have hset : Stack.set slot .null stack =
            .ok () { stack with items := stack.items.setIfInBounds slot .null } := if_pos hlt
        have hcapacity : ({ stack with items := stack.items.setIfInBounds slot .null } :
            Stack).capacity = stack.capacity := by
          simp [capacity]
        have hslot' : slot + 1 ≤ ({ stack with items := stack.items.setIfInBounds slot .null } :
            Stack).capacity := by
          rw [hcapacity]
          exact hlt
        rcases ih hslot' (by omega) with ⟨stack', hclear, hsame⟩
        rw [hcapacity] at hclear hsame
        exact ⟨stack', (act_bind_of_ok hset).trans hclear, hsame⟩
      · have hset : Stack.set slot .null stack = .error (.stackOverflow stack.capacity) stack :=
          if_neg hlt
        exact ⟨stack, act_bind_of_error hset, rfl⟩

/-- Make room for the locals of a call above its arguments. -/
def reserve (slot count height : Nat) : Act Unit := do
  clear slot count
  setHeight height

theorem Live.reserve (h : stack.Live values) {count : Nat}
    (hroom : values.length + count ≤ stack.capacity) :
    ∃ stack', Stack.reserve values.length count (values.length + count) stack = .ok () stack' ∧
      stack'.Live (values ++ List.replicate count .null) ∧ stack'.capacity = stack.capacity := by
  rcases clear_of_room h.2 hroom with ⟨cleared, hclear, hall, hsame⟩
  have hheight : Stack.setHeight (values.length + count) cleared =
      .ok () { cleared with height := values.length + count } := by
    refine if_pos ?_
    rw [← hsame] at hroom
    exact hroom
  refine ⟨{ cleared with height := values.length + count }, ?_, ⟨?_, hall⟩, hsame⟩
  · exact (act_bind_of_ok hclear).trans hheight
  · simp

theorem Live.reserve_full (h : stack.Live values) {count height : Nat}
    (hfull : stack.capacity < values.length + count) :
    ∃ stack', Stack.reserve values.length count height stack =
      .error (.stackOverflow stack.capacity) stack' ∧ stack'.capacity = stack.capacity := by
  rcases clear_full h.length_le hfull with ⟨stack', hclear, hsame⟩
  exact ⟨stack', act_bind_of_error hclear, hsame⟩

end Stack

namespace Exec

section Calls

variable (id : Identity) {body : Function} (free : List Value) {argc : Nat} (base : Nat)
  {m : Machine} {stack : Stack} {fault : Fault}

theorem enterBody_eq (h : argc = body.numParams) :
    enterBody id body free argc base m =
      (if m.callers.size + 2 ≤ m.maxFrames then do
        onStack (Stack.reserve (base + argc) (body.numLocals - argc) (base + body.numLocals))
        modify fun m =>
          { m with
            frame := .start id body free base
            callers := m.callers.push m.frame }
      else throw (.frameOverflow m.maxFrames) : Exec Unit) m := by
  unfold enterBody
  rw [if_pos h]
  rfl

theorem enterBody_of_count (h : argc ≠ body.numParams) :
    enterBody id body free argc base m = .error (.wrongArgumentCount body.numParams argc) m := by
  unfold enterBody
  rw [if_neg h]
  rfl

theorem enterBody_of_limit (h : argc = body.numParams) (hlimit : ¬ m.callers.size + 2 ≤ m.maxFrames) :
    enterBody id body free argc base m = .error (.frameOverflow m.maxFrames) m := by
  rw [enterBody_eq id free base h, if_neg hlimit]
  rfl

theorem enterBody_of_ok (h : argc = body.numParams) (hlimit : m.callers.size + 2 ≤ m.maxFrames)
    (hstack : Stack.reserve (base + argc) (body.numLocals - argc) (base + body.numLocals) m.stack =
      .ok () stack) :
    enterBody id body free argc base m =
      .ok () { m with
        stack
        frame := .start id body free base
        callers := m.callers.push m.frame } := by
  rw [enterBody_eq id free base h, if_pos hlimit]
  exact act_bind_of_ok (onStack_of_ok hstack)

theorem enterBody_of_full (h : argc = body.numParams) (hlimit : m.callers.size + 2 ≤ m.maxFrames)
    (hstack : Stack.reserve (base + argc) (body.numLocals - argc) (base + body.numLocals) m.stack =
      .error fault stack) :
    enterBody id body free argc base m = .error fault { m with stack } := by
  rw [enterBody_eq id free base h, if_pos hlimit]
  exact act_bind_of_error (onStack_of_error hstack)

/-- The top-level program ends with its result just above the live values. -/
theorem leaveBody_of_last (result : Value) (h : m.callers = #[]) :
    leaveBody result m =
      (do
        push result
        let _ ← pop
        return .finished : Exec Progress) m := by
  unfold leaveBody
  rw [act_bind_of_ok (show (get : Exec Machine) m = .ok m m from rfl), h]
  rfl

/-- The result of a call takes the place of its arguments and locals. -/
theorem leaveBody_of_push (result : Value) {caller : Frame} {callers : Array Frame}
    (h : m.callers = callers.push caller) :
    leaveBody result m =
      (do
        onStack (Stack.setHeight m.frame.base)
        push result
        return .running : Exec Progress) { m with frame := caller, callers } := by
  unfold leaveBody
  rw [act_bind_of_ok (show (get : Exec Machine) m = .ok m m from rfl)]
  obtain ⟨constants, stack, globals, frame, _, maxFrames, created, output⟩ := m
  obtain rfl : _ = callers.push caller := h
  simp only [Array.back?_push]
  show (do
        onStack (Stack.setHeight frame.base)
        push result
        return .running : Exec Progress) _ = _
  simp only [Array.pop_push]

theorem callBuiltin_eq (b : Builtin) (base : Nat) :
    callBuiltin b base m =
      (do
        let id ← fresh
        print (b.printed (m.stack.liveFrom base))
        let v ← ofResult ((b.apply id (m.stack.liveFrom base)).mapError .builtin)
        onStack (Stack.setHeight base)
        push v : Exec Unit) m := by
  unfold callBuiltin
  rw [act_bind_of_ok (show (get : Exec Machine) m = .ok m m from rfl)]
  refine congrFun (bind_congr fun id => bind_congr fun _ => ?_) m
  cases b.apply id (m.stack.liveFrom base) with
  | error cause => rfl
  | ok v => rfl

end Calls

section Closures

variable {index : Nat} (count : Nat) {m : Machine}

theorem makeClosure_of_function {id : Identity} {body : Function}
    (h : m.constants[index]? = some (.function id body)) :
    makeClosure index count m =
      (do
        let free ← popMany count
        push (.closure (← fresh) body free) : Exec Unit) m := by
  unfold makeClosure
  rw [act_bind_of_ok (show (get : Exec Machine) m = .ok m m from rfl), h]

theorem makeClosure_of_other (h : ¬ ∃ id body, m.constants[index]? = some (.function id body)) :
    makeClosure index count m = .error (.notAFunction index) m := by
  unfold makeClosure
  rw [act_bind_of_ok (show (get : Exec Machine) m = .ok m m from rfl)]
  generalize m.constants[index]? = constant at h ⊢
  split
  next id body => exact absurd ⟨id, body, rfl⟩ h
  next => rfl

end Closures

end Exec

end MonkeyMachine
