import MonkeyMachine.Proofs.Representation
import MonkeyMachine.Proofs.StackBound

/-!
# The machine keeps step with evaluation

How the state of the machine in the middle of a call corresponds to the memory of the interpreter,
and what the single instructions do to the two.

The stack of a call lies above the values of the calls that wait for it. It holds the cells of the
call and, on top of them, the data that evaluation has at hand: `Machine.Mirrors`. The interpreter
knows no limit but that on nested calls. Whenever the machine finds its stack or its global store
too small it gives up: `Machine.Exceeds`. Everything else it does like the interpreter.
-/

namespace MonkeyMachine

/-! ## Correspondence -/

/-- What the calls of a run have in common. -/
structure Ground where
  pool : List Value
  /-- Number of globals that code may name. -/
  globals : Nat
  limits : Limits

/-- A call in progress, as far as its code cannot change it. -/
structure Activation where
  ground : Ground
  /-- Number of cells; none for the top-level program. -/
  locals : Option Nat
  env : Env
  /-- The call as the machine knows it. Its instruction pointer counts for nothing. -/
  frame : Frame
  callers : Array Frame
  /-- The values on the stack that belong to the callers. -/
  lower : List Value

namespace Activation

/-- What the code of the call may refer to. -/
def setting (a : Activation) : Setting where
  pool := a.ground.pool
  globals := a.ground.globals
  locals := a.locals
  free := a.env.captured.length

/-- The values on the stack while the call has `temps` at hand. -/
def values (a : Activation) (mem : Memory) (temps : List Datum) : List Value :=
  a.lower ++ (mem.cells ++ temps).map Datum.value

theorem values_append (a : Activation) (mem : Memory) (temps ds : List Datum) :
    a.values mem (temps ++ ds) = a.values mem temps ++ ds.map Datum.value := by
  simp [values]

@[simp]
theorem length_values (a : Activation) (mem : Memory) (temps : List Datum) :
    (a.values mem temps).length = a.lower.length + (mem.cells.length + temps.length) := by
  simp [values]

/-- The cells lie above the values of the callers. -/
theorem getElem?_values (a : Activation) {mem : Memory} (temps : List Datum) {index : Nat}
    (h : index < mem.cells.length) :
    (a.values mem temps)[a.lower.length + index]? = some (mem.cells.getD index .null).value := by
  rw [values, List.getElem?_append_right (Nat.le_add_right _ _), Nat.add_sub_cancel_left,
    List.getElem?_map, List.getElem?_append_left h, List.getElem?_eq_getElem h]
  simp [h]

theorem set_values (a : Activation) {mem : Memory} (temps : List Datum) {index : Nat} (d : Datum)
    (h : index < mem.cells.length) :
    (a.values mem temps).set (a.lower.length + index) d.value =
      a.values { mem with cells := mem.cells.set index d } temps := by
  have hmap : index < (mem.cells.map Datum.value).length := by simpa using h
  rw [values, values, List.set_append_right _ _ (Nat.le_add_right _ _), Nat.add_sub_cancel_left,
    List.map_append, List.map_append, List.map_set, List.set_append_left _ _ hmap]

/-- The machine has the environment of the call. -/
structure Valid (a : Activation) : Prop where
  base : a.frame.base = a.lower.length
  free : a.frame.free = a.env.captured.map Datum.value
  captured : Datum.AllPlaced a.ground.pool a.ground.globals a.env.captured
  self : a.locals ≠ none → ∃ d, a.env.self = some d ∧ a.frame.closure = d.value ∧
    d.Placed a.ground.pool a.ground.globals

end Activation

namespace Machine

/-- The machine has what the memory holds outside of the cells of calls. -/
structure Shares (g : Ground) (mem : Memory) (m : Machine) : Prop where
  pool : m.constants.toList = g.pool
  maxFrames : m.maxFrames = g.limits.maxFrames
  stackSize : m.stack.capacity = g.limits.stackSize
  globalsSize : m.globals.capacity = g.limits.globalsSize
  globals : ∀ slot < g.limits.globalsSize,
    m.globals.slots[slot]? = some ((mem.globals slot).map Datum.value)
  created : m.created = mem.created
  output : m.output = mem.output
  assigned : ∀ slot d, mem.globals slot = some d → d.Placed g.pool g.globals

/-- The machine executes the call `a` at position `ip` of its code. It has the cells of the call and
the data `temps` on the stack. -/
structure Mirrors (a : Activation) (mem : Memory) (temps : List Datum) (ip : Nat) (m : Machine) :
    Prop extends Shares a.ground mem m where
  frame : m.frame = { a.frame with ip }
  callers : m.callers = a.callers
  live : m.stack.Live (a.values mem temps)
  cells : mem.cells.length = a.locals.getD 0
  placed : Datum.AllPlaced a.ground.pool a.ground.globals (mem.cells ++ temps)

end Machine

/-! ## Limits -/

/-- A fault that tells of a limit, and why the limit is reached if there are `height` values on the
stack. -/
inductive Fault.Exceeding (g : Ground) (height : Nat) : Fault → Prop
  | stack (hfull : g.limits.stackSize ≤ height + widest g.pool) :
      Exceeding g height (.stackOverflow g.limits.stackSize)
  | globals {slot : Nat} (hfull : g.limits.globalsSize ≤ slot) (hslot : slot < g.globals) :
      Exceeding g height (.globalOutOfRange slot g.limits.globalsSize)

namespace Machine

/-- The next instruction needs more than there is. -/
def Exceeds (g : Ground) (m : Machine) : Prop :=
  ∃ fault m', Exec.step m = .error fault m' ∧ fault.Exceeding g m.stack.height

/-- The machine comes to a state as wanted, or to the limits. -/
def Arrives (g : Ground) (goal : Machine → Prop) (m : Machine) : Prop :=
  ∃ m', m.Reaches m' ∧ (goal m' ∨ m'.Exceeds g)

/-- The next instruction leaves the call with a result. -/
structure Returns (a : Activation) (d : Datum) (mem : Memory) (m : Machine) : Prop where
  placed : d.Placed a.ground.pool a.ground.globals
  leaves : ∃ m' upper, Exec.step m = Exec.leaveBody d.value m' ∧ m'.Shares a.ground mem ∧
    m'.frame.base = a.lower.length ∧ m'.callers = a.callers ∧
    m'.stack.Live (a.lower ++ upper) ∧
    (a.locals = none → (a.lower ++ upper).length < a.ground.limits.stackSize)

/-- The next instruction raises a fault. -/
def Fails (g : Ground) (fault : Fault) (mem : Memory) (m : Machine) : Prop :=
  ∃ m', Exec.step m = .error fault m' ∧ m'.Shares g mem

/-- How the machine is left by evaluation. `ok` says it for the case that there is a result. -/
def After {α : Type} (a : Activation) (ok : α → Memory → Machine → Prop) :
    EStateM.Result Stop Memory α → Machine → Prop
  | .ok x mem => ok x mem
  | .error (.returned d) mem => Returns a d mem
  | .error (.failed fault) mem => Fails a.ground fault mem

/-- The machine does what evaluation does. -/
def Performs {α : Type} (a : Activation) (ok : α → Memory → Machine → Prop)
    (result : EStateM.Result Stop Memory α) (m : Machine) : Prop :=
  m.Arrives a.ground (After a ok result)

/-- The machine runs compiled code. -/
def IsSound (m : Machine) : Prop := ∃ w, m.Sound w

theorem IsSound.reaches {m m' : Machine} (h : m.IsSound) (hreaches : m.Reaches m') : m'.IsSound := by
  rcases h with ⟨w, hw⟩
  rcases hw.reaches hreaches with ⟨w', -, -, hw'⟩
  exact ⟨w', hw'⟩

namespace Arrives

variable {g : Ground} {goal goal' : Machine → Prop} {m m' : Machine}

theorem here (h : goal m) : m.Arrives g goal := ⟨m, .refl m, .inl h⟩

theorem exceeds (h : m.Exceeds g) : m.Arrives g goal := ⟨m, .refl m, .inr h⟩

theorem step (hnext : m.Next m') (h : m'.Arrives g goal) : m.Arrives g goal := by
  rcases h with ⟨m'', hreaches, hgoal⟩
  exact ⟨m'', hnext.reaches.trans hreaches, hgoal⟩

theorem bind (h : m.Arrives g goal) (hnext : ∀ m', m.Reaches m' → goal m' → m'.Arrives g goal') :
    m.Arrives g goal' := by
  rcases h with ⟨m₁, hreaches, hgoal | hexceeds⟩
  · rcases hnext m₁ hreaches hgoal with ⟨m₂, hreaches', hgoal'⟩
    exact ⟨m₂, hreaches.trans hreaches', hgoal'⟩
  · exact ⟨m₁, hreaches, .inr hexceeds⟩

end Arrives

namespace Performs

variable {α β : Type} {a : Activation} {ok : α → Memory → Machine → Prop}
  {ok' : β → Memory → Machine → Prop} {m : Machine} {mem : Memory}

/-- Evaluation in sequence: the machine does the second part from where the first one has left it. -/
theorem bind {x : Eval α} {f : α → Eval β} (h : m.Performs a ok (x mem)) (hm : m.IsSound)
    (hnext : ∀ y mem' m', m'.IsSound → ok y mem' m' → m'.Performs a ok' (f y mem')) :
    m.Performs a ok' ((x >>= f) mem) := by
  cases hx : x mem with
  | ok y mem' =>
      rw [hx] at h
      rw [act_bind_of_ok hx]
      exact Arrives.bind h fun m' hreaches hok => hnext y mem' m' (hm.reaches hreaches) hok
  | error stop mem' =>
      -- Evaluation stops here, and so does the machine.
      rw [hx] at h
      rw [act_bind_of_error hx]
      cases stop <;> exact h

/-- More instructions are executed once there is a result. -/
theorem extend {ok'' : α → Memory → Machine → Prop} {result : EStateM.Result Stop Memory α}
    (h : m.Performs a ok result)
    (hmore : ∀ x mem m', ok x mem m' → m'.Arrives a.ground (ok'' x mem)) :
    m.Performs a ok'' result := by
  cases result with
  | ok x mem => exact Arrives.bind h fun m' _ hx => hmore x mem m' hx
  | error stop mem => cases stop <;> exact h

end Performs

end Machine

/-! ## Acts -/

open Exec (onStack_of_ok onStack_of_error goOn)

/-- An instruction does what its act does. -/
theorem Exec.goOn_congr {act act' : Exec Unit} {m m' : Machine} (h : act m = act' m') :
    goOn act m = goOn act' m' := by
  unfold goOn
  cases hact : act' m' with
  | ok _ _ => rw [act_bind_of_ok (h.trans hact), act_bind_of_ok hact]
  | error _ _ => rw [act_bind_of_error (h.trans hact), act_bind_of_error hact]

namespace Machine.Mirrors

variable {a : Activation} {mem : Memory} {temps temps' : List Datum} {ip : Nat} {m : Machine}
  {d : Datum}

theorem height (h : m.Mirrors a mem temps ip) :
    m.stack.height = a.lower.length + (mem.cells.length + temps.length) := by
  rw [h.live.1, a.length_values]

theorem live_append {ds : List Datum} (h : m.Mirrors a mem (temps ++ ds) ip) :
    m.stack.Live (a.values mem temps ++ ds.map Datum.value) := by
  rw [← a.values_append]
  exact h.live

theorem placed_append {ds : List Datum} (h : m.Mirrors a mem (temps ++ ds) ip) :
    Datum.AllPlaced a.ground.pool a.ground.globals (mem.cells ++ temps) ∧
      Datum.AllPlaced a.ground.pool a.ground.globals ds := by
  have hall := h.placed
  rw [← List.append_assoc] at hall
  exact ⟨hall.left, hall.right⟩

theorem withStack (h : m.Mirrors a mem temps ip) {stack : Stack}
    (hlive : stack.Live (a.values mem temps'))
    (hsize : stack.capacity = m.stack.capacity)
    (hplaced : Datum.AllPlaced a.ground.pool a.ground.globals (mem.cells ++ temps')) :
    ({ m with stack } : Machine).Mirrors a mem temps' ip :=
  { h with
    stackSize := hsize.trans h.stackSize
    live := hlive
    placed := hplaced }

theorem push (h : m.Mirrors a mem temps ip) (hd : d.Placed a.ground.pool a.ground.globals)
    (hroom : m.stack.height < a.ground.limits.stackSize) :
    ∃ m', Exec.push d.value m = .ok () m' ∧ m'.Mirrors a mem (temps ++ [d]) ip := by
  rw [← h.stackSize, h.live.1] at hroom
  rcases h.live.push d.value hroom with ⟨stack, hpush, hlive, hsize⟩
  refine ⟨{ m with stack }, onStack_of_ok hpush, h.withStack ?_ hsize ?_⟩
  · rw [a.values_append]
    exact hlive
  · rw [← List.append_assoc]
    exact h.placed.append (.single hd)

theorem push_full (h : m.Mirrors a mem temps ip) (v : Value)
    (hfull : a.ground.limits.stackSize ≤ m.stack.height) :
    Exec.push v m = .error (.stackOverflow a.ground.limits.stackSize) m := by
  rw [← h.stackSize, h.live.1] at hfull
  rw [← h.stackSize]
  exact onStack_of_error (h.live.push_full v hfull)

theorem pop (h : m.Mirrors a mem (temps ++ [d]) ip) :
    ∃ m', Exec.pop m = .ok d.value m' ∧ m'.Mirrors a mem temps ip ∧ m'.lastPopped = d.value := by
  have hlive : m.stack.Live (a.values mem temps ++ [d.value]) := h.live_append
  rcases hlive.pop with ⟨hpop, hless⟩
  exact ⟨_, onStack_of_ok hpop, h.withStack hless rfl h.placed_append.1, hlive.lastPopped⟩

theorem popMany {ds : List Datum} (h : m.Mirrors a mem (temps ++ ds) ip) :
    ∃ m', Exec.popMany ds.length m = .ok (ds.map Datum.value) m' ∧ m'.Mirrors a mem temps ip := by
  rcases h.live_append.popMany with ⟨hpop, hless⟩
  rw [List.length_map] at hpop
  exact ⟨_, onStack_of_ok hpop, h.withStack hless rfl h.placed_append.1⟩

/-- The topmost data are given up all at once. -/
theorem cut {ds : List Datum} (h : m.Mirrors a mem (temps ++ ds) ip) :
    ∃ m', Exec.onStack (Stack.setHeight (a.values mem temps).length) m = .ok () m' ∧
      m'.Mirrors a mem temps ip := by
  have hle : (a.values mem temps).length ≤ (a.values mem temps ++ ds.map Datum.value).length := by
    simp
  have hless := h.live_append.shrink _ hle
  rw [List.take_left] at hless
  refine ⟨_, onStack_of_ok (h.live_append.setHeight hle), h.withStack hless rfl ?_⟩
  exact h.placed_append.1

theorem fresh (h : m.Mirrors a mem temps ip) :
    ∃ m', Exec.fresh m = .ok (.created mem.created) m' ∧ m'.stack = m.stack ∧
      m'.Mirrors a { mem with created := mem.created + 1 } temps ip := by
  refine ⟨{ m with created := m.created + 1 }, ?_, rfl, ?_⟩
  · rw [← h.created]
    rfl
  · exact { h with created := congrArg (· + 1) h.created }

theorem jump (h : m.Mirrors a mem temps ip) (target : Nat) :
    (m.jump target).Mirrors a mem temps target :=
  { h with frame := by rw [Machine.jump, h.frame] }

/-- The data on the stack have sound values. -/
theorem sound (h : m.Mirrors a mem temps ip) (hm : m.IsSound) :
    ∃ w, m.Sound w ∧ ∀ d ∈ temps, d.value.Sound w := by
  rcases hm with ⟨w, hw⟩
  rcases hw.stack with ⟨values, hlive, hsound, -⟩
  obtain rfl := hlive.unique h.live
  refine ⟨w, hw, fun d hd => Value.AllSound.right hsound _ (List.mem_map_of_mem ?_)⟩
  exact List.mem_append_right _ hd

/-- The next instruction is executed with the pointer already behind it. -/
theorem step (h : m.Mirrors a mem temps ip) {i : Instr} {is : List Instr}
    (hcode : a.frame.code.Holds ip (i :: is)) :
    Exec.step m = Exec.execute i.op (i.operands.getD 0 0) (i.operands.getD 1 0)
      (m.jump (ip + i.size)) := by
  have hholds : m.frame.code.Holds m.frame.ip (i :: is) := by
    rw [h.frame]
    exact hcode
  rw [Exec.step_of_holds hholds, h.frame]

/-- An instruction that comes down to a push. -/
theorem pushes {m' : Machine} (h : m'.Mirrors a mem temps ip)
    (hstep : Exec.step m = goOn (Exec.push d.value) m')
    (hd : d.Placed a.ground.pool a.ground.globals) (hheight : m'.stack.height ≤ m.stack.height) :
    m.Arrives a.ground (Mirrors a mem (temps ++ [d]) ip) := by
  by_cases hroom : m'.stack.height < a.ground.limits.stackSize
  · rcases h.push hd hroom with ⟨m₁, hpush, h₁⟩
    have hnext : m.Next m₁ := hstep.trans (act_bind_of_ok hpush)
    exact .step hnext (.here h₁)
  · have hfull := h.push_full d.value (Nat.le_of_not_lt hroom)
    refine .exceeds ⟨_, m', hstep.trans (act_bind_of_error hfull), .stack ?_⟩
    omega

/-- An instruction that pushes the answer of an operation, or raises the fault that it answers
with. -/
theorem answers {m' : Machine} (h : m'.Mirrors a mem temps ip) {result : Except Fault Datum}
    (hstep : Exec.step m =
      goOn (Exec.ofResult (result.map Datum.value) >>= Exec.push) m')
    (hresult : Datum.Answers a.ground.pool a.ground.globals result)
    (hheight : m'.stack.height ≤ m.stack.height) :
    m.Performs a (fun d mem => Mirrors a mem (temps ++ [d]) ip) (Eval.ofResult result mem) := by
  cases result with
  | ok d => exact h.pushes (m := m) hstep hresult hheight
  | error fault => exact .here ⟨m', hstep, h.toShares⟩

/-- The fault that an instruction raises. -/
theorem fails {m' : Machine} (h : m'.Mirrors a mem temps ip) {fault : Fault}
    (hstep : Exec.step m = .error fault m') : m.Arrives a.ground (Fails a.ground fault mem) :=
  .here ⟨m', hstep, h.toShares⟩

/-! ## Instructions that read -/

/-- What an instruction does that pushes a part of the machine. -/
theorem step_pushFrom (h : m.Mirrors a mem temps ip) {i : Instr} {is : List Instr}
    {part : Machine → Except Fault Value} (hcode : a.frame.code.Holds ip (i :: is))
    (hop : Exec.execute i.op (i.operands.getD 0 0) (i.operands.getD 1 0) = goOn (Exec.pushFrom part)) :
    Exec.step m = goOn (Exec.ofResult (part (m.jump (ip + i.size))) >>= Exec.push)
      (m.jump (ip + i.size)) := by
  rw [h.step hcode, hop]
  exact Exec.goOn_congr rfl

theorem pushFrom (h : m.Mirrors a mem temps ip) {i : Instr} {is : List Instr}
    {part : Machine → Except Fault Value} (hcode : a.frame.code.Holds ip (i :: is))
    (hop : Exec.execute i.op (i.operands.getD 0 0) (i.operands.getD 1 0) = goOn (Exec.pushFrom part))
    (hpart : part (m.jump (ip + i.size)) = .ok d.value)
    (hd : d.Placed a.ground.pool a.ground.globals) :
    m.Arrives a.ground (Mirrors a mem (temps ++ [d]) (ip + i.size)) := by
  have hstep := h.step_pushFrom hcode hop
  rw [hpart] at hstep
  exact (h.jump (ip + i.size)).pushes hstep hd (Nat.le_refl _)

/-- An instruction that pushes what it is named after. -/
theorem plain (h : m.Mirrors a mem temps ip) {op : Opcode} {is : List Instr}
    (hcode : a.frame.code.Holds ip (⟨op, []⟩ :: is))
    (hop : Exec.execute op 0 0 = goOn (Exec.push d.value))
    (hd : d.Placed a.ground.pool a.ground.globals) :
    m.Arrives a.ground (Mirrors a mem (temps ++ [d]) (ip + (Instr.mk op []).size)) := by
  refine (h.jump _).pushes ((h.step hcode).trans ?_) hd (Nat.le_refl _)
  show Exec.execute op 0 0 _ = _
  rw [hop]

/-- A constant of the pool. -/
theorem constant (h : m.Mirrors a mem temps ip) {n : Nat} {is : List Instr}
    (hcode : a.frame.code.Holds ip (⟨.constant, [n]⟩ :: is))
    (hget : a.ground.pool[n]? = some d.value) (hd : d.Placed a.ground.pool a.ground.globals) :
    m.Arrives a.ground (Mirrors a mem (temps ++ [d]) (ip + 3)) := by
  refine h.pushFrom hcode rfl ?_ hd
  have hconstant : m.constants[n]? = some d.value := by
    rw [← Array.getElem?_toList, h.pool, hget]
  show Exec.orFault _ m.constants[n]? = _
  rw [hconstant]
  rfl

/-- A global, if it is assigned and the store is large enough. -/
theorem getGlobal (h : m.Mirrors a mem temps ip) {slot : Nat} {is : List Instr}
    (hcode : a.frame.code.Holds ip (⟨.getGlobal, [slot]⟩ :: is)) (hslot : slot < a.ground.globals) :
    m.Performs a (fun d mem => Mirrors a mem (temps ++ [d]) (ip + 3))
      (a.env.read (.global slot) mem) := by
  by_cases hroom : slot < a.ground.limits.globalsSize
  · have hget := h.globals slot hroom
    cases hd : mem.globals slot with
    | some d =>
        rw [Env.read_global_of_some hd]
        refine h.pushFrom hcode rfl ?_ (h.assigned slot d hd)
        show m.globals.get slot = _
        rw [hd] at hget
        rw [Globals.get, hget]
        rfl
    | none =>
        rw [Env.read_global_of_none hd]
        refine (h.jump (ip + 3)).fails ((h.step_pushFrom hcode rfl).trans ?_)
        have hundefined : m.globals.get slot = .error (.undefinedGlobal slot) := by
          rw [hd] at hget
          rw [Globals.get, hget]
          rfl
        show goOn (Exec.ofResult (m.globals.get slot) >>= Exec.push) _ = _
        rw [hundefined]
        rfl
  -- The store has no such slot, though the program has such a global: a lack of room.
  · have hsize := h.globalsSize
    have hmissing : m.globals.get slot =
        .error (.globalOutOfRange slot a.ground.limits.globalsSize) := by
      have hnone : m.globals.slots[slot]? = none := by
        refine Array.getElem?_eq_none ?_
        have hcapacity : m.globals.capacity = m.globals.slots.size := rfl
        omega
      rw [Globals.get, hnone, hsize]
    refine .exceeds ⟨_, m.jump (ip + 3), (h.step_pushFrom hcode rfl).trans ?_,
      .globals (Nat.le_of_not_lt hroom) hslot⟩
    show goOn (Exec.ofResult (m.globals.get slot) >>= Exec.push) _ = _
    rw [hmissing]
    rfl

/-- What a name stands for. -/
theorem load (h : m.Mirrors a mem temps ip) (ha : a.Valid) {place : Place} {f : Fragment}
    (hload : place.load = .ok f) (hfits : place.Fits a.setting)
    (hcode : a.frame.code.Holds ip f.instrs) :
    m.Performs a (fun d mem => Mirrors a mem (temps ++ [d]) (ip + f.size))
      (a.env.read place mem) := by
  cases place with
  | global slot =>
      rcases Fragment.emit_eq_ok_iff.1 hload with ⟨-, rfl⟩
      exact h.getGlobal hcode hfits
  | cell index =>
      rcases Fragment.emit_eq_ok_iff.1 hload with ⟨-, rfl⟩
      rcases hfits with ⟨count, hcount, hindex⟩
      have hlocals : a.locals = some count := hcount
      have hlt : index < mem.cells.length := by
        rw [h.cells, hlocals]
        exact hindex
      -- The cells lie on the stack, right above what the callers have there.
      refine h.pushFrom hcode rfl ?_ (Datum.AllPlaced.getD h.placed.left index)
      show Exec.orFault _ (m.stack.get? (m.frame.base + index)) = _
      rw [h.frame, ha.base, h.live.get? (a.getElem?_values temps hlt)]
      rfl
  | captured index =>
      rcases Fragment.emit_eq_ok_iff.1 hload with ⟨-, rfl⟩
      have hlt : index < a.env.captured.length := hfits
      refine h.pushFrom hcode rfl ?_ (Datum.AllPlaced.getD ha.captured index)
      show Exec.orFault _ m.frame.free[index]? = _
      rw [h.frame, ha.free, List.getElem?_map, List.getElem?_eq_getElem hlt]
      simp [hlt, Exec.orFault]
  | self =>
      have hemit : Fragment.emit .currentClosure [] = .ok f := hload
      rcases Fragment.emit_eq_ok_iff.1 hemit with ⟨-, rfl⟩
      rcases ha.self hfits with ⟨d, hself, hclosure, hd⟩
      have hread : a.env.read .self mem = .ok d mem := by
        show EStateM.Result.ok (a.env.self.getD .null) mem = _
        rw [hself]
        rfl
      rw [hread]
      refine h.pushFrom hcode rfl ?_ hd
      show Except.ok m.frame.closure = _
      rw [h.frame, ← hclosure]
      rfl
  | builtin b =>
      rcases Fragment.emit_eq_ok_iff.1 hload with ⟨-, rfl⟩
      refine h.pushFrom hcode rfl ?_ (.builtin b)
      show Exec.orFault _ ((Builtin.ofIndex? b.index).map .builtin) = _
      rw [Builtin.ofIndex?_index]
      rfl

theorem lookup (h : m.Mirrors a mem temps ip) (ha : a.Valid) {site : Site} {name : String}
    {f : Fragment} (hload : site.load name = .ok f) (hwithin : site.Within a.setting)
    (hcode : a.frame.code.Holds ip f.instrs) :
    m.Performs a (fun d mem => Mirrors a mem (temps ++ [d]) (ip + f.size))
      (a.env.lookup site name mem) := by
  unfold Site.load at hload
  unfold Env.lookup
  cases hplace : site.place? name with
  | none =>
      rw [hplace] at hload
      cases hload
  | some place =>
      rw [hplace] at hload
      exact h.load ha hload (hwithin.place_fits hplace) hcode

theorem lookupAll (h : m.Mirrors a mem temps ip) (hm : m.IsSound) (ha : a.Valid) {site : Site}
    {names : List String} {f : Fragment} (hload : site.loadAll names = .ok f)
    (hwithin : site.Within a.setting) (hcode : a.frame.code.Holds ip f.instrs) :
    m.Performs a
      (fun ds mem m => m.Mirrors a mem (temps ++ ds) (ip + f.size) ∧ ds.length = names.length)
      (a.env.lookupAll site names mem) := by
  induction names generalizing mem temps ip m f with
  | nil =>
      cases hload
      exact .here ⟨by simpa using h, rfl⟩
  | cons name rest ih =>
      rcases Fragment.seq_eq_ok_iff.1 hload with ⟨first, hfirst, others, hothers, rfl⟩
      refine (h.lookup ha hfirst hwithin hcode.left).bind hm fun d mem₁ m₁ hm₁ h₁ => ?_
      refine (ih h₁ hm₁ hothers hcode.right).bind hm₁ fun ds mem₂ m₂ _ h₂ => .here ⟨?_, ?_⟩
      · have hall := h₂.1
        rw [List.append_assoc, Nat.add_assoc] at hall
        rw [Fragment.size_append]
        exact hall
      · rw [List.length_cons, List.length_cons, h₂.2]

/-! ## Instructions that compute -/

/-- Operations on two data. -/
theorem binary {e : Datum} (h : m.Mirrors a mem (temps ++ [d] ++ [e]) ip) {i : Instr}
    {is : List Instr} {operation : Value → Value → Except Fault Value} {result : Except Fault Datum}
    (hcode : a.frame.code.Holds ip (i :: is))
    (hop : Exec.execute i.op (i.operands.getD 0 0) (i.operands.getD 1 0) =
      goOn (Exec.binary operation))
    (hoperation : operation d.value e.value = result.map Datum.value)
    (hresult : Datum.Answers a.ground.pool a.ground.globals result) :
    m.Performs a (fun d mem => Mirrors a mem (temps ++ [d]) (ip + i.size))
      (Eval.ofResult result mem) := by
  rcases (h.jump (ip + i.size)).pop with ⟨m₁, hpop₁, h₁, -⟩
  rcases h₁.pop with ⟨m₂, hpop₂, h₂, -⟩
  refine h₂.answers ?_ hresult ?_
  · rw [h.step hcode, hop]
    refine Exec.goOn_congr ?_
    refine (act_bind_of_ok hpop₁).trans ((act_bind_of_ok hpop₂).trans ?_)
    rw [hoperation]
  · rw [h₂.height, h.height]
    simp only [List.length_append]
    omega

/-- Operations on one datum. -/
theorem unary (h : m.Mirrors a mem (temps ++ [d]) ip) {i : Instr} {is : List Instr}
    {operation : Value → Except Fault Value} {result : Except Fault Datum}
    (hcode : a.frame.code.Holds ip (i :: is))
    (hop : Exec.execute i.op (i.operands.getD 0 0) (i.operands.getD 1 0) =
      goOn (Exec.unary operation))
    (hoperation : operation d.value = result.map Datum.value)
    (hresult : Datum.Answers a.ground.pool a.ground.globals result) :
    m.Performs a (fun d mem => Mirrors a mem (temps ++ [d]) (ip + i.size))
      (Eval.ofResult result mem) := by
  rcases (h.jump (ip + i.size)).pop with ⟨m₁, hpop, h₁, -⟩
  refine h₁.answers ?_ hresult ?_
  · rw [h.step hcode, hop]
    refine Exec.goOn_congr ?_
    refine (act_bind_of_ok hpop).trans ?_
    rw [hoperation]
  · rw [h₁.height, h.height]
    simp only [List.length_append]
    omega

/-- A new datum is made of the topmost ones. -/
theorem makes {m' : Machine} {ds : List Datum} {target : Nat} {build : Identity → Value}
    {make : Nat → Datum} (h : m.Mirrors a mem (temps ++ ds) ip) (h' : m'.Mirrors a mem temps target)
    (hstep : Exec.step m = goOn (do Exec.push (build (← Exec.fresh))) m')
    (hbuild : ∀ serial, build (.created serial) = (make serial).value)
    (hmake : ∀ serial, (make serial).Placed a.ground.pool a.ground.globals) :
    m.Performs a (fun d mem => Mirrors a mem (temps ++ [d]) target)
      ((do
        let serial ← Eval.fresh
        pure (make serial) : Eval Datum) mem) := by
  rcases h'.fresh with ⟨m₁, hfresh, hstack, h₁⟩
  refine h₁.pushes ?_ (hmake mem.created) ?_
  · rw [hstep, ← hbuild]
    exact Exec.goOn_congr (act_bind_of_ok hfresh)
  · rw [hstack, h'.height, h.height]
    simp only [List.length_append]
    omega

theorem array {ds : List Datum} {is : List Instr} (h : m.Mirrors a mem (temps ++ ds) ip)
    (hcode : a.frame.code.Holds ip (⟨.array, [ds.length]⟩ :: is)) :
    m.Performs a (fun d mem => Mirrors a mem (temps ++ [d]) (ip + 3))
      ((do
        let serial ← Eval.fresh
        pure (.array serial ds) : Eval Datum) mem) := by
  rcases (h.jump (ip + 3)).popMany with ⟨m₁, hpop, h₁⟩
  have hstep : Exec.step m =
      goOn (do Exec.push (.array (← Exec.fresh) (ds.map Datum.value).toArray)) m₁ :=
    (h.step hcode).trans (Exec.goOn_congr (act_bind_of_ok hpop))
  refine h.makes h₁ hstep (fun serial => ?_) fun serial => .array h.placed_append.2
  rw [Datum.value, Datum.values_eq_map]

theorem hash {pairs : List (Datum × Datum)} {is : List Instr}
    (h : m.Mirrors a mem (temps ++ Datum.flatten pairs) ip)
    (hcode : a.frame.code.Holds ip (⟨.hash, [2 * pairs.length]⟩ :: is)) :
    m.Performs a (fun d mem => Mirrors a mem (temps ++ [d]) (ip + 3))
      ((do
        let entries ← Eval.ofResult (Datum.addPairs [] pairs)
        let serial ← Eval.fresh
        pure (.hash serial entries) : Eval Datum) mem) := by
  rcases (h.jump (ip + 3)).popMany with ⟨m₁, hpop, h₁⟩
  rw [Datum.length_flatten] at hpop
  have hentries := Datum.addPairs_value [] pairs
  have hstep : Exec.step m = goOn (do
      let entries ← Exec.ofResult (Value.addEntries [] ((Datum.flatten pairs).map Datum.value))
      Exec.push (.hash (← Exec.fresh) entries)) m₁ :=
    (h.step hcode).trans (Exec.goOn_congr (act_bind_of_ok hpop))
  have hnil : Datum.entryValues [] = [] := rfl
  rw [hnil] at hentries
  rw [hentries] at hstep
  -- A key of the wrong kind is found only now, with the pairs off the stack.
  cases hadd : Datum.addPairs [] pairs with
  | error fault =>
      rw [hadd] at hstep
      exact h₁.fails hstep
  | ok entries =>
      rw [hadd] at hstep
      have hpush : Exec.step m =
          goOn (do Exec.push (.hash (← Exec.fresh) (Datum.entryValues entries))) m₁ :=
        hstep
      have hmade : ∀ serial,
          (Datum.hash serial entries).Placed a.ground.pool a.ground.globals := fun _ =>
        .hash (Datum.addPairs_placed (List.forall_mem_nil _) h.placed_append.2 hadd)
      refine h.makes h₁ hpush ?_ hmade
      intro serial
      rfl

/-- A closure of a function of the pool. -/
theorem closure {lambda : Lambda} {ds : List Datum} {is : List Instr}
    (h : m.Mirrors a mem (temps ++ ds) ip)
    (hcode : a.frame.code.Holds ip (⟨.closure, [lambda.index, ds.length]⟩ :: is))
    (hget : a.ground.pool[lambda.index]? =
      some (.function (.constant lambda.index) lambda.function))
    (hlambda : lambda.Placed a.ground.pool a.ground.globals)
    (hlength : ds.length = lambda.site.captured.length) :
    m.Performs a (fun d mem => Mirrors a mem (temps ++ [d]) (ip + 4))
      ((do
        let serial ← Eval.fresh
        pure (.closure serial lambda ds) : Eval Datum) mem) := by
  rcases (h.jump (ip + 4)).popMany with ⟨m₁, hpop, h₁⟩
  have hconstant : m.constants[lambda.index]? =
      some (.function (.constant lambda.index) lambda.function) := by
    rw [← Array.getElem?_toList, h.pool, hget]
  have hstep : Exec.step m =
      goOn (do Exec.push (.closure (← Exec.fresh) lambda.function (ds.map Datum.value))) m₁ := by
    refine (h.step hcode).trans (Exec.goOn_congr ?_)
    have hact := Exec.makeClosure_of_function (m := m.jump (ip + 4)) ds.length hconstant
    exact hact.trans (act_bind_of_ok hpop)
  refine h.makes h₁ hstep (fun serial => ?_) fun serial => .closure hlambda hlength h.placed_append.2
  rw [Datum.value, Datum.values_eq_map]

/-! ## Statements -/

theorem drop (h : m.Mirrors a mem (temps ++ [d]) ip) {is : List Instr}
    (hcode : a.frame.code.Holds ip (⟨.pop, []⟩ :: is)) :
    m.Arrives a.ground fun m => m.Mirrors a mem temps (ip + 1) ∧ m.lastPopped = d.value := by
  rcases (h.jump (ip + 1)).pop with ⟨m₁, hpop, h₁, hlast⟩
  have hnext : m.Next m₁ := by
    refine (h.step hcode).trans ?_
    exact (Exec.goOn_congr (act_bind_of_ok hpop)).trans rfl
  exact .step hnext (.here ⟨h₁, hlast⟩)

/-- The store of the machine and that of the memory are assigned alike. -/
theorem assign (h : m.Mirrors a mem temps ip) {slot : Nat}
    (hroom : slot < a.ground.limits.globalsSize) (hd : d.Placed a.ground.pool a.ground.globals) :
    Mirrors a { mem with globals := fun other => if other = slot then some d else mem.globals other }
      temps ip
      { m with globals := { slots := m.globals.slots.setIfInBounds slot (some d.value) } } := by
  have hsize : m.globals.slots.size = a.ground.limits.globalsSize := h.globalsSize
  exact
    { h with
      globalsSize := by
        rw [← hsize]
        exact Array.size_setIfInBounds
      globals := by
        intro other hother
        show (m.globals.slots.setIfInBounds slot (some d.value))[other]? = _
        rw [Array.getElem?_setIfInBounds]
        by_cases heq : slot = other
        · subst heq
          simp [hsize, hroom]
        · rw [if_neg heq, h.globals other hother]
          simp [Ne.symm heq]
      assigned := by
        intro other e he
        by_cases heq : other = slot
        · simp only [heq, if_true] at he
          cases he
          exact hd
        · simp only [heq, if_false] at he
          exact h.assigned other e he }

theorem setGlobal (h : m.Mirrors a mem (temps ++ [d]) ip) {slot : Nat} {is : List Instr}
    (hcode : a.frame.code.Holds ip (⟨.setGlobal, [slot]⟩ :: is)) (hslot : slot < a.ground.globals) :
    m.Arrives a.ground fun m =>
      m.Mirrors a
          { mem with globals := fun other => if other = slot then some d else mem.globals other }
          temps (ip + 3) ∧
        m.lastPopped = d.value := by
  rcases (h.jump (ip + 3)).pop with ⟨m₁, hpop, h₁, hlast⟩
  have hstep : Exec.step m = goOn (Exec.onGlobals (Globals.set slot d.value)) m₁ :=
    (h.step hcode).trans (Exec.goOn_congr (act_bind_of_ok hpop))
  have hsize : m₁.globals.slots.size = a.ground.limits.globalsSize := h₁.globalsSize
  by_cases hroom : slot < a.ground.limits.globalsSize
  · have hset : Globals.set slot d.value m₁.globals =
        .ok () { slots := m₁.globals.slots.setIfInBounds slot (some d.value) } :=
      if_pos (hsize.symm ▸ hroom)
    have hact : Exec.onGlobals (Globals.set slot d.value) m₁ = .ok () { m₁ with
        globals := { slots := m₁.globals.slots.setIfInBounds slot (some d.value) } } := by
      rw [Exec.onGlobals_apply, hset]
    exact .step (hstep.trans (act_bind_of_ok hact))
      (.here ⟨h₁.assign hroom (h.placed d (by simp)), hlast⟩)
  · have hset : Globals.set slot d.value m₁.globals =
        .error (.globalOutOfRange slot m₁.globals.slots.size) m₁.globals :=
      if_neg (hsize.symm ▸ hroom)
    have hact : Exec.onGlobals (Globals.set slot d.value) m₁ =
        .error (.globalOutOfRange slot a.ground.limits.globalsSize) m₁ := by
      rw [Exec.onGlobals_apply, hset, hsize]
    exact .exceeds ⟨_, m₁, hstep.trans (act_bind_of_error hact),
      .globals (Nat.le_of_not_lt hroom) hslot⟩

theorem setLocal (h : m.Mirrors a mem (temps ++ [d]) ip) (ha : a.Valid) {index : Nat}
    {is : List Instr} (hcode : a.frame.code.Holds ip (⟨.setLocal, [index]⟩ :: is))
    (hindex : index < mem.cells.length) :
    m.Arrives a.ground fun m =>
      m.Mirrors a { mem with cells := mem.cells.set index d } temps (ip + 2) ∧
        m.lastPopped = d.value := by
  rcases (h.jump (ip + 2)).pop with ⟨m₁, hpop, h₁, hlast⟩
  have hd : d.Placed a.ground.pool a.ground.globals := h.placed d (by simp)
  have hslot : a.lower.length + index < (a.values mem temps).length := by
    rw [a.length_values]
    omega
  rcases h₁.live.set d.value hslot with ⟨stack, hset, hlive, hsize, hsame⟩
  have hact : Exec.onStack (Stack.set (m₁.frame.base + index) d.value) m₁ =
      .ok () { m₁ with stack } := by
    have hbase : m₁.frame.base = a.lower.length := by
      rw [h₁.frame]
      exact ha.base
    rw [hbase]
    exact onStack_of_ok hset
  have hnext : m.Next { m₁ with stack } := by
    refine (h.step hcode).trans ((Exec.goOn_congr (act_bind_of_ok hpop)).trans ?_)
    exact act_bind_of_ok hact
  refine .step hnext (.here ⟨?_, ?_⟩)
  -- The slot is one of the cells, so what lies below and above them stays.
  · rw [a.set_values temps d hindex] at hlive
    exact
      { h₁ with
        stackSize := hsize.trans h₁.stackSize
        live := hlive
        cells := by simpa using h₁.cells
        placed := by
          refine Datum.AllPlaced.append ?_ h₁.placed.right
          intro e he
          rcases List.mem_or_eq_of_mem_set he with he | rfl
          · exact h₁.placed.left e he
          · exact hd }
  · exact hsame.trans hlast

/-- Bind a name. -/
theorem store (h : m.Mirrors a mem (temps ++ [d]) ip) (ha : a.Valid) {site : Site} {name : String}
    {f : Fragment} (hstore : site.store = .ok f)
    (hwithin : (site.after [.bind name]).Within a.setting)
    (hcode : a.frame.code.Holds ip f.instrs) :
    m.Performs a
      (fun _ mem m => m.Mirrors a mem temps (ip + f.size) ∧ m.lastPopped = d.value)
      (site.assign d mem) := by
  obtain ⟨globals, literals, body⟩ := site
  cases body with
  | none =>
      rcases Fragment.emit_eq_ok_iff.1 hstore with ⟨-, rfl⟩
      have hglobals := hwithin.globals
      simp only [Site.after, Event.binds, List.length_append, List.length_singleton] at hglobals
      exact h.setGlobal hcode hglobals
  | some locals =>
      rcases hwithin.inside _ rfl with ⟨count, hcount, hnames, -⟩
      have hlocals : a.locals = some count := hcount
      have hindex : locals.names.length < mem.cells.length := by
        rw [h.cells, hlocals]
        exact Nat.lt_of_succ_le (by simpa [Event.binds] using hnames)
      simp only [Site.store] at hstore
      split at hstore
      · rcases Fragment.emit_eq_ok_iff.1 hstore with ⟨-, rfl⟩
        exact h.setLocal ha hcode hindex
      · cases hstore

/-! ## Jumps -/

theorem goTo (h : m.Mirrors a mem temps ip) {target : Nat} {is : List Instr}
    (hcode : a.frame.code.Holds ip (⟨.jump, [target]⟩ :: is)) :
    m.Arrives a.ground (Mirrors a mem temps target) :=
  .step (h.step hcode) (.here ((h.jump (ip + 3)).jump target))

/-- A jump that is made only if the test has failed. -/
theorem branch (h : m.Mirrors a mem (temps ++ [d]) ip) {target : Nat} {is : List Instr}
    (hcode : a.frame.code.Holds ip (⟨.jumpNotTruthy, [target]⟩ :: is)) :
    m.Arrives a.ground (Mirrors a mem temps (if d.truthy then ip + 3 else target)) := by
  rcases (h.jump (ip + 3)).pop with ⟨m₁, hpop, h₁, -⟩
  have hstep : Exec.step m =
      goOn (if d.value.truthy then pure () else Exec.jump target) m₁ :=
    (h.step hcode).trans (Exec.goOn_congr (act_bind_of_ok hpop))
  rw [Datum.truthy_value] at hstep
  cases htruthy : d.truthy with
  | true =>
      rw [htruthy] at hstep
      exact .step hstep (.here h₁)
  | false =>
      rw [htruthy] at hstep
      exact .step hstep (.here (h₁.jump target))

/-! ## Returns -/

theorem returnValue (h : m.Mirrors a mem (temps ++ [d]) ip) (ha : a.Valid) {is : List Instr}
    (hcode : a.frame.code.Holds ip (⟨.returnValue, []⟩ :: is)) : m.Returns a d mem := by
  rcases (h.jump (ip + 1)).pop with ⟨m₁, hpop, h₁, -⟩
  refine ⟨h.placed d (by simp), m₁, _, ?_, h₁.toShares, ?_, h₁.callers, h₁.live, fun _ => ?_⟩
  · exact (h.step hcode).trans (act_bind_of_ok hpop)
  · rw [h₁.frame]
    exact ha.base
  · -- The value has just been popped, so there is room for one.
    have hlength := h.live.length_le
    rw [h.stackSize, a.values_append, List.length_append, List.length_map] at hlength
    exact Nat.lt_of_succ_le hlength

theorem returnNull (h : m.Mirrors a mem temps ip) (ha : a.Valid) (hlocals : a.locals ≠ none)
    {is : List Instr} (hcode : a.frame.code.Holds ip (⟨.returnNull, []⟩ :: is)) :
    m.Returns a .null mem := by
  have h₁ := h.jump (ip + 1)
  refine ⟨.null, m.jump (ip + 1), _, h.step hcode, h₁.toShares, ?_, h₁.callers, h₁.live,
    fun hnone => absurd hnone hlocals⟩
  rw [h₁.frame]
  exact ha.base

end Machine.Mirrors

end MonkeyMachine
