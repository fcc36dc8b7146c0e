import MonkeyMachine.Proofs.CallingConvention
import MonkeyMachine.Proofs.Relocation

/-!
# Two machines in lockstep

A program may be part of a larger one, further on in its code. While the larger program executes that
part, it does what the smaller one does on its own: the same instructions, with the targets of jumps
moved, on the same values. The two machines may differ in the slots of the stack that are not live,
in constants that the smaller program does not know, and in what was printed earlier.

`Machine.Alike` relates the two. One step keeps it (`Alike.step`), so a whole run does
(`Alike.reaches`), and the two runs end in the same way (`Alike.ends`).
-/

namespace MonkeyMachine

/-! ## Acts that do the same -/

section Both

variable {ε σ α β : Type} {ok : α → σ → σ → Prop} {ok' : β → σ → σ → Prop} {bad : σ → σ → Prop}

/-- Two acts that do the same: both succeed with the same value or both fail with the same error. The
states that they leave are related by `ok` or `bad`. -/
def Both (ok : α → σ → σ → Prop) (bad : σ → σ → Prop) :
    EStateM.Result ε σ α → EStateM.Result ε σ α → Prop
  | .ok a s, .ok b t => b = a ∧ ok a s t
  | .error e s, .error f t => f = e ∧ bad s t
  | _, _ => False

namespace Both

theorem bind {x y : EStateM ε σ α} {f g : α → EStateM ε σ β} {s t : σ}
    (h : Both ok bad (x s) (y t))
    (hnext : ∀ a s' t', ok a s' t' → Both ok' bad (f a s') (g a t')) :
    Both ok' bad ((x >>= f) s) ((y >>= g) t) := by
  cases hx : x s with
  | ok a s' =>
      cases hy : y t with
      | ok b t' =>
          rw [hx, hy] at h
          obtain ⟨rfl, hok⟩ := h
          rw [act_bind_of_ok hx, act_bind_of_ok hy]
          exact hnext b s' t' hok
      | error e t' =>
          rw [hx, hy] at h
          exact h.elim
  | error e s' =>
      cases hy : y t with
      | ok b t' =>
          rw [hx, hy] at h
          exact h.elim
      | error e' t' =>
          rw [hx, hy] at h
          rw [act_bind_of_error hx, act_bind_of_error hy]
          exact h

theorem mono {ok' : α → σ → σ → Prop} {bad' : σ → σ → Prop} {r r' : EStateM.Result ε σ α}
    (h : Both ok bad r r') (hok : ∀ a s t, ok a s t → ok' a s t)
    (hbad : ∀ s t, bad s t → bad' s t) : Both ok' bad' r r' := by
  cases r with
  | ok a s =>
      cases r' with
      | ok b t => exact ⟨h.1, hok a s t h.2⟩
      | error e t => exact h
  | error e s =>
      cases r' with
      | ok b t => exact h
      | error e' t => exact ⟨h.1, hbad s t h.2⟩

theorem of_ok {r r' : EStateM.Result ε σ α} {a : α} {s : σ} (h : Both ok bad r r')
    (hr : r = .ok a s) : ∃ t, r' = .ok a t ∧ ok a s t := by
  subst hr
  cases r' with
  | ok b t =>
      obtain ⟨rfl, hok⟩ := h
      exact ⟨t, rfl, hok⟩
  | error e t => exact h.elim

theorem of_error {r r' : EStateM.Result ε σ α} {e : ε} {s : σ} (h : Both ok bad r r')
    (hr : r = .error e s) : ∃ t, r' = .error e t ∧ bad s t := by
  subst hr
  cases r' with
  | ok b t => exact h.elim
  | error e' t =>
      obtain ⟨rfl, hbad⟩ := h
      exact ⟨t, rfl, hbad⟩

end Both

end Both

/-! ## Stacks -/

namespace Stack

/-- Two stacks of the same capacity and height, with the same values in the live slots and in those
below `known`. -/
structure Agree (known : Nat) (stack stack' : Stack) : Prop where
  capacity : stack'.items.size = stack.items.size
  height : stack'.height = stack.height
  slots : ∀ slot, slot < known ∨ slot < stack.height → stack'.items[slot]? = stack.items[slot]?

namespace Agree

variable {known : Nat} {stack stack' : Stack}

theorem refl (known : Nat) (stack : Stack) : Agree known stack stack :=
  ⟨rfl, rfl, fun _ _ => rfl⟩

/-- Live slots count as known from now on. -/
theorem learn (h : Agree known stack stack') {more : Nat}
    (hmore : more ≤ known ∨ more ≤ stack.height) : Agree more stack stack' := by
  refine ⟨h.capacity, h.height, ?_⟩
  intro slot hslot
  exact h.slots slot (by omega)

theorem setHeight_eq (h : Agree known stack stack') {height : Nat}
    (hheight : height ≤ known ∨ height ≤ stack.height) :
    Agree known { stack with height } { stack' with height } := by
  refine ⟨h.capacity, rfl, ?_⟩
  intro slot hslot
  have hslot : slot < known ∨ slot < height := hslot
  exact h.slots slot (by omega)

theorem write (h : Agree known stack stack') (slot : Nat) (v : Value) :
    Agree known { stack with items := stack.items.setIfInBounds slot v }
      { stack' with items := stack'.items.setIfInBounds slot v } := by
  refine ⟨by simp [h.capacity], h.height, ?_⟩
  intro other hother
  by_cases hsame : slot = other
  · subst hsame
    simp [Array.getElem?_setIfInBounds_self, h.capacity]
  · rw [Array.getElem?_setIfInBounds_ne hsame, Array.getElem?_setIfInBounds_ne hsame]
    exact h.slots other hother

/-- The slot that is written is known from now on. -/
theorem write_known (h : Agree known stack stack') {slot : Nat} (v : Value)
    (hslot : slot ≤ known ∨ slot ≤ stack.height) :
    Agree (max known (slot + 1)) { stack with items := stack.items.setIfInBounds slot v }
      { stack' with items := stack'.items.setIfInBounds slot v } := by
  refine ⟨(h.write slot v).capacity, h.height, ?_⟩
  intro other hother
  by_cases hsame : slot = other
  · subst hsame
    simp [Array.getElem?_setIfInBounds_self, h.capacity]
  · have hother : other < max known (slot + 1) ∨ other < stack.height := hother
    have hknown : other < known ∨ other < stack.height := by omega
    exact (h.write slot v).slots other hknown

theorem getD_eq (h : Agree known stack stack') {slot : Nat} (hslot : slot < known ∨ slot < stack.height) :
    stack'.items.getD slot .null = stack.items.getD slot .null := by
  simp only [Array.getD_eq_getD_getElem?, h.slots slot hslot]

theorem liveFrom_eq (h : Agree known stack stack') (start : Nat) :
    stack'.liveFrom start = stack.liveFrom start := by
  unfold liveFrom
  congr 1
  apply Array.ext_getElem?
  intro i
  rw [Array.getElem?_extract, Array.getElem?_extract, h.capacity, h.height]
  by_cases hi : i < min stack.height stack.items.size - start
  · have hslot : start + i < stack.height := by omega
    rw [if_pos hi, if_pos hi, h.slots _ (.inr hslot)]
  · rw [if_neg hi, if_neg hi]

/-! Two stacks that agree take acts alike. -/

/-- What is left of two stacks when both raise a fault does not matter. -/
abbrev Keeps {α : Type} (known : Nat) :
    EStateM.Result Fault Stack α → EStateM.Result Fault Stack α → Prop :=
  Both (fun _ => Agree known) fun _ _ => True

theorem push (h : Agree known stack stack') (v : Value) :
    Keeps known (Stack.push v stack) (Stack.push v stack') := by
  unfold Stack.push
  rw [h.capacity, h.height]
  by_cases hroom : stack.height < stack.items.size
  · rw [if_pos hroom, if_pos hroom]
    have hwritten := h.write_known v (.inr (Nat.le_refl stack.height))
    have hgrown := hwritten.setHeight_eq (.inl (Nat.le_max_right known (stack.height + 1)))
    exact ⟨rfl, hgrown.learn (.inl (Nat.le_max_left _ _))⟩
  · rw [if_neg hroom, if_neg hroom]
    exact ⟨rfl, trivial⟩

/-- The value popped last is known, though its slot is no longer live. -/
theorem pop (h : Agree known stack stack') :
    Both (fun _ s s' => Agree known s s' ∧ s'.lastPopped = s.lastPopped ∧
        s.height + 1 = stack.height) (fun _ _ => True) (Stack.pop stack) (Stack.pop stack') := by
  unfold Stack.pop
  rw [h.height]
  by_cases hempty : stack.height = 0
  · rw [if_pos hempty, if_pos hempty]
    exact ⟨rfl, trivial⟩
  · rw [if_neg hempty, if_neg hempty]
    have hlive : stack.height - 1 < stack.height := by omega
    refine ⟨h.getD_eq (.inr hlive), h.setHeight_eq (.inr (Nat.le_of_lt hlive)), ?_, ?_⟩
    · exact h.getD_eq (.inr hlive)
    · exact Nat.sub_add_cancel (Nat.one_le_iff_ne_zero.2 hempty)

theorem setHeight (h : Agree known stack stack') {height : Nat}
    (hheight : height ≤ known ∨ height ≤ stack.height) :
    Keeps known (Stack.setHeight height stack) (Stack.setHeight height stack') := by
  unfold Stack.setHeight
  rw [h.capacity]
  by_cases hroom : height ≤ stack.items.size
  · rw [if_pos hroom, if_pos hroom]
    exact ⟨rfl, h.setHeight_eq hheight⟩
  · rw [if_neg hroom, if_neg hroom]
    exact ⟨rfl, trivial⟩

theorem set_of_write (h : Agree known stack stack') {slot more : Nat} {v : Value}
    (hwrite : Agree more { stack with items := stack.items.setIfInBounds slot v }
      { stack' with items := stack'.items.setIfInBounds slot v }) :
    Keeps more (Stack.set slot v stack) (Stack.set slot v stack') := by
  unfold Stack.set
  rw [h.capacity]
  by_cases hroom : slot < stack.items.size
  · rw [if_pos hroom, if_pos hroom]
    exact ⟨rfl, hwrite⟩
  · rw [if_neg hroom, if_neg hroom]
    exact ⟨rfl, trivial⟩

theorem set (h : Agree known stack stack') (slot : Nat) (v : Value) :
    Keeps known (Stack.set slot v stack) (Stack.set slot v stack') :=
  h.set_of_write (h.write slot v)

/-- The slots that are cleared are known from now on. -/
theorem clear (h : Agree known stack stack') {slot : Nat} (count : Nat)
    (hslot : slot ≤ known ∨ slot ≤ stack.height) :
    Keeps (max known (slot + count)) (Stack.clear slot count stack)
      (Stack.clear slot count stack') := by
  induction count generalizing slot known stack stack' with
  | zero =>
      refine ⟨rfl, ⟨h.capacity, h.height, ?_⟩⟩
      intro other hother
      exact h.slots other (by omega)
  | succ count ih =>
      refine (h.set_of_write (h.write_known .null hslot)).bind ?_
      intro _ s s' hs
      refine (ih hs (.inl (Nat.le_max_right _ _))).mono ?_ fun _ _ => id
      intro _ t t' ht
      exact ht.learn (.inl (by omega))

theorem reserve (h : Agree known stack stack') {slot count height : Nat}
    (hslot : slot ≤ stack.height) (hheight : height ≤ slot + count) :
    Keeps known (Stack.reserve slot count height stack)
      (Stack.reserve slot count height stack') := by
  refine (h.clear count (.inr hslot)).bind ?_
  intro _ s s' hs
  refine (hs.setHeight (.inl (by omega))).mono ?_ fun _ _ => id
  intro _ t t' ht
  exact ht.learn (.inl (Nat.le_max_left _ _))

theorem below (h : Agree known stack stack') (count : Nat) :
    Both (fun base s s' => Agree known s s' ∧ base + count = s.height) (fun _ _ => True)
      (Stack.below count stack) (Stack.below count stack') := by
  unfold Stack.below
  rw [h.height]
  by_cases hle : count ≤ stack.height
  · rw [if_pos hle, if_pos hle]
    exact ⟨rfl, h, Nat.sub_add_cancel hle⟩
  · rw [if_neg hle, if_neg hle]
    exact ⟨rfl, trivial⟩

theorem popMany (h : Agree known stack stack') (count : Nat) :
    Keeps known (Stack.popMany count stack) (Stack.popMany count stack') := by
  refine (h.below count).bind ?_
  rintro start s s' ⟨hs, hstart⟩
  show Keeps known
    ((Stack.setHeight start >>= fun _ => pure (s.liveFrom start)) s)
    ((Stack.setHeight start >>= fun _ => pure (s'.liveFrom start)) s')
  rw [hs.liveFrom_eq start]
  refine (hs.setHeight (.inr (by omega))).bind ?_
  intro _ t t' ht
  exact ⟨rfl, ht⟩

end Agree

end Stack

/-! ## Calls in progress -/

/-- The top-level program, at some position of its code. -/
def Frame.programAt (code : Code) (ip : Nat) : Frame := { Frame.program 0 code with ip }

namespace Embedding

variable (e : Embedding)

/-- The calls in progress in two machines: the first runs the part and the second the whole. All
calls of functions are the same. -/
inductive Calls : Frame → Array Frame → Frame → Array Frame → Prop
  | outermost (ip : Nat) :
      Calls (.programAt e.part ip) #[] (.programAt e.whole (ip + e.offset)) #[]
  | inner {frame caller caller' : Frame} {callers callers' : Array Frame}
      (h : Calls caller callers caller' callers') :
      Calls frame (callers.push caller) frame (callers'.push caller')

/-- How much further on the second machine is in the code of the running call. -/
def lag (callers : Array Frame) : Nat := if callers.isEmpty then e.offset else 0

theorem lag_push (callers : Array Frame) (caller : Frame) : e.lag (callers.push caller) = 0 := by
  simp [lag]

namespace Calls

variable {e : Embedding} {frame frame' : Frame} {callers callers' : Array Frame}

theorem base_eq (h : e.Calls frame callers frame' callers') : frame'.base = frame.base := by
  cases h with
  | outermost | inner => rfl

theorem free_eq (h : e.Calls frame callers frame' callers') : frame'.free = frame.free := by
  cases h with
  | outermost | inner => rfl

theorem size_eq (h : e.Calls frame callers frame' callers') : callers'.size = callers.size := by
  induction h with
  | outermost => rfl
  | inner _ ih => simp [ih]

/-- Only the top-level programs differ. -/
theorem frame_eq (h : e.Calls frame callers frame' callers') (hcallers : callers ≠ #[]) :
    frame' = frame := by
  cases h with
  | outermost => exact absurd rfl hcallers
  | inner => rfl

theorem of_empty (h : e.Calls frame #[] frame' callers') :
    callers' = #[] ∧ ∃ ip, frame = .programAt e.part ip ∧ frame' = .programAt e.whole (ip + e.offset) := by
  generalize hcallers : (#[] : Array Frame) = callers at h
  cases h with
  | outermost ip => exact ⟨rfl, ip, rfl, rfl⟩
  | inner => simp at hcallers

theorem of_push {caller : Frame} (h : e.Calls frame (callers.push caller) frame' callers') :
    ∃ caller' rest, callers' = rest.push caller' ∧ frame' = frame ∧
      e.Calls caller callers caller' rest := by
  generalize hcallers : callers.push caller = all at h
  cases h with
  | outermost ip => simp at hcallers
  | inner h =>
      rcases Array.push_eq_push.1 hcallers with ⟨rfl, rfl⟩
      exact ⟨_, _, rfl, rfl, h⟩

theorem jump (h : e.Calls frame callers frame' callers') (target : Nat) :
    e.Calls { frame with ip := target } callers { frame' with ip := target + e.lag callers }
      callers' := by
  cases h with
  | outermost ip => exact .outermost target
  | inner h =>
      rw [lag_push]
      exact .inner h

end Calls

end Embedding

/-! ## Machines -/

namespace Machine

/-- The parts of two machines that outlive the run are the same, but for what the second one printed
before the first one started. -/
structure Even (before : String) (m m' : Machine) : Prop where
  globals : m'.globals = m.globals
  created : m'.created = m.created
  output : m'.output = before ++ m.output

/-- Two machines of which the first runs a program and the second runs the same as a part of a larger
one. -/
structure Alike (e : Embedding) (before : String) (known : Nat) (m m' : Machine) : Prop
    extends Even before m m' where
  constants : m.constants.toList <+: m'.constants.toList
  maxFrames : m'.maxFrames = m.maxFrames
  stack : m.stack.Agree known m'.stack
  calls : e.Calls m.frame m.callers m'.frame m'.callers

namespace Alike

variable {e : Embedding} {before : String} {known : Nat} {m m' : Machine} {α : Type}

/-- Acts of two machines that do the same and keep the machines alike. -/
abbrev Keeps (e : Embedding) (before : String) (known : Nat) :
    EStateM.Result Fault Machine α → EStateM.Result Fault Machine α → Prop :=
  Both (fun _ => Alike e before known) (Even before)

theorem withStack (h : Alike e before known m m') {stack stack' : Stack}
    (hstack : stack.Agree known stack') :
    Alike e before known { m with stack } { m' with stack := stack' } := { h with stack := hstack }

theorem jump (h : Alike e before known m m') (target : Nat) :
    Alike e before known (m.jump target) (m'.jump (target + e.lag m.callers)) :=
  { h with calls := h.calls.jump target }

/-! ### Acts -/

theorem onStack {ok : α → Stack → Stack → Prop} (h : Alike e before known m m') {act : Stack.Act α}
    (hact : Both ok (fun _ _ => True) (act m.stack) (act m'.stack)) :
    Both (fun a n n' => ∃ stack stack', ok a stack stack' ∧ n = { m with stack } ∧
        n' = { m' with stack := stack' }) (Even before)
      (Exec.onStack act m) (Exec.onStack act m') := by
  rw [Exec.onStack_apply, Exec.onStack_apply]
  cases hm : act m.stack with
  | ok a stack =>
      rcases hact.of_ok hm with ⟨stack', hm', hok⟩
      rw [hm']
      exact ⟨rfl, stack, stack', hok, rfl, rfl⟩
  | error fault stack =>
      rcases hact.of_error hm with ⟨stack', hm', -⟩
      rw [hm']
      exact ⟨rfl, { h.toEven with }⟩

theorem onStack_keeps (h : Alike e before known m m') {act : Stack.Act α}
    (hact : Stack.Agree.Keeps known (act m.stack) (act m'.stack)) :
    Keeps e before known (Exec.onStack act m) (Exec.onStack act m') := by
  refine (h.onStack hact).mono ?_ fun _ _ => id
  rintro _ _ _ ⟨stack, stack', hstack, rfl, rfl⟩
  exact h.withStack hstack

theorem push (h : Alike e before known m m') (v : Value) :
    Keeps e before known (Exec.push v m) (Exec.push v m') :=
  h.onStack_keeps (h.stack.push v)

theorem popMany (h : Alike e before known m m') (count : Nat) :
    Keeps e before known (Exec.popMany count m) (Exec.popMany count m') :=
  h.onStack_keeps (h.stack.popMany count)

theorem pop_last (h : Alike e before known m m') :
    Both (fun _ n n' => Alike e before known n n' ∧ n'.lastPopped = n.lastPopped) (Even before)
      (Exec.pop m) (Exec.pop m') := by
  refine (h.onStack h.stack.pop).mono ?_ fun _ _ => id
  rintro _ _ _ ⟨stack, stack', ⟨hstack, hlast, -⟩, rfl, rfl⟩
  exact ⟨h.withStack hstack, hlast⟩

theorem pop (h : Alike e before known m m') :
    Keeps e before known (Exec.pop m) (Exec.pop m') :=
  h.pop_last.mono (fun _ _ _ hn => hn.1) fun _ _ => id

theorem fresh_on (h : Alike e before known m m') :
    Both (fun _ n n' => Alike e before known n n' ∧ n.stack = m.stack) (Even before)
      (Exec.fresh m) (Exec.fresh m') := by
  refine ⟨?_, { h with created := congrArg (· + 1) h.created }, rfl⟩
  show Identity.created m'.created = Identity.created m.created
  rw [h.created]

theorem fresh (h : Alike e before known m m') :
    Keeps e before known (Exec.fresh m) (Exec.fresh m') :=
  h.fresh_on.mono (fun _ _ _ hn => hn.1) fun _ _ => id

theorem print (h : Alike e before known m m') (text : String) :
    Both (fun _ n n' => Alike e before known n n' ∧ n.stack = m.stack) (Even before)
      (Exec.print text m) (Exec.print text m') := by
  refine ⟨rfl, { h with output := ?_ }, rfl⟩
  show m'.output ++ text = before ++ (m.output ++ text)
  rw [h.output, String.append_assoc]

theorem ofResult (h : Alike e before known m m') (result : Except Fault α) :
    Keeps e before known (Exec.ofResult result m) (Exec.ofResult result m') := by
  cases result with
  | ok a => exact ⟨rfl, h⟩
  | error fault => exact ⟨rfl, h.toEven⟩

theorem setHeight (h : Alike e before known m m') {height : Nat} (hheight : height ≤ m.stack.height) :
    Keeps e before known (Exec.onStack (Stack.setHeight height) m)
      (Exec.onStack (Stack.setHeight height) m') :=
  h.onStack_keeps (h.stack.setHeight (.inr hheight))

/-! ### Instructions -/

theorem pushFrom (h : Alike e before known m m') {part : Machine → Except Fault Value}
    (hpart : part m' = part m) :
    Keeps e before known (Exec.pushFrom part m) (Exec.pushFrom part m') := by
  show Keeps e before known ((Exec.ofResult (part m) >>= Exec.push) m)
    ((Exec.ofResult (part m') >>= Exec.push) m')
  rw [hpart]
  refine (h.ofResult (part m)).bind ?_
  intro v m₁ m₁' h₁
  exact h₁.push v

theorem binary (h : Alike e before known m m') (operation : Value → Value → Except Fault Value) :
    Keeps e before known (Exec.binary operation m) (Exec.binary operation m') := by
  refine h.pop.bind ?_
  intro right m₁ m₁' h₁
  refine h₁.pop.bind ?_
  intro left m₂ m₂' h₂
  refine (h₂.ofResult (operation left right)).bind ?_
  intro v m₃ m₃' h₃
  exact h₃.push v

theorem unary (h : Alike e before known m m') (operation : Value → Except Fault Value) :
    Keeps e before known (Exec.unary operation m) (Exec.unary operation m') := by
  refine h.pop.bind ?_
  intro operand m₁ m₁' h₁
  refine (h₁.ofResult (operation operand)).bind ?_
  intro v m₂ m₂' h₂
  exact h₂.push v

theorem makeArray (h : Alike e before known m m') (count : Nat) :
    Keeps e before known (Exec.makeArray count m) (Exec.makeArray count m') := by
  refine (h.popMany count).bind ?_
  intro elements m₁ m₁' h₁
  refine h₁.fresh.bind ?_
  intro id m₂ m₂' h₂
  exact h₂.push _

theorem makeHash (h : Alike e before known m m') (count : Nat) :
    Keeps e before known (Exec.makeHash count m) (Exec.makeHash count m') := by
  refine (h.popMany count).bind ?_
  intro values m₁ m₁' h₁
  refine (h₁.ofResult (Value.addEntries [] values)).bind ?_
  intro entries m₂ m₂' h₂
  refine h₂.fresh.bind ?_
  intro id m₃ m₃' h₃
  exact h₃.push _

theorem makeClosure (h : Alike e before known m m') {index : Nat} (count : Nat)
    (hconstant : m'.constants[index]? = m.constants[index]?) :
    Keeps e before known (Exec.makeClosure index count m) (Exec.makeClosure index count m') := by
  by_cases hfunction : ∃ id body, m.constants[index]? = some (.function id body)
  · rcases hfunction with ⟨_, body, hget⟩
    rw [Exec.makeClosure_of_function count hget,
      Exec.makeClosure_of_function count (hconstant.trans hget)]
    refine (h.popMany count).bind ?_
    intro free m₁ m₁' h₁
    refine h₁.fresh.bind ?_
    intro id m₂ m₂' h₂
    exact h₂.push _
  · rw [Exec.makeClosure_of_other count hfunction]
    rw [← hconstant] at hfunction
    rw [Exec.makeClosure_of_other count hfunction]
    exact ⟨rfl, h.toEven⟩

theorem setGlobal (h : Alike e before known m m') (slot : Nat) :
    Keeps e before known (Exec.setGlobal slot m) (Exec.setGlobal slot m') := by
  refine h.pop.bind ?_
  intro v m₁ m₁' h₁
  rw [Exec.onGlobals_apply, Exec.onGlobals_apply, h₁.globals]
  cases Globals.set slot v m₁.globals with
  | ok _ globals => exact ⟨rfl, { h₁ with globals := rfl }⟩
  | error fault globals => exact ⟨rfl, { h₁.toEven with globals := rfl }⟩

theorem setLocal (h : Alike e before known m m') (slot : Nat) :
    Keeps e before known (Exec.setLocal slot m) (Exec.setLocal slot m') := by
  refine h.pop.bind ?_
  intro v m₁ m₁' h₁
  show Keeps e before known (Exec.onStack (Stack.set (m₁.frame.base + slot) v) m₁)
    (Exec.onStack (Stack.set (m₁'.frame.base + slot) v) m₁')
  rw [h₁.calls.base_eq]
  exact h₁.onStack_keeps (h₁.stack.set _ v)

theorem jumpNotTruthy (h : Alike e before known m m') (target : Nat) :
    Keeps e before known (Exec.jumpNotTruthy target m)
      (Exec.jumpNotTruthy (target + e.lag m.callers) m') := by
  refine (h.onStack h.stack.pop).bind ?_
  rintro v _ _ ⟨stack, stack', ⟨hstack, -⟩, rfl, rfl⟩
  have h₁ := h.withStack hstack
  by_cases htruthy : v.truthy = true
  · rw [if_pos htruthy, if_pos htruthy]
    exact ⟨rfl, h₁⟩
  · rw [if_neg htruthy, if_neg htruthy]
    exact ⟨rfl, h₁.jump target⟩

/-! ### Calls and returns -/

theorem enterBody (h : Alike e before known m m') (id : Identity) (body : Function)
    (free : List Value) {argc base : Nat} (hbase : base + argc = m.stack.height) :
    Keeps e before known (Exec.enterBody id body free argc base m)
      (Exec.enterBody id body free argc base m') := by
  by_cases hcount : argc = body.numParams
  · rw [Exec.enterBody_eq id free base hcount, Exec.enterBody_eq id free base hcount,
      h.calls.size_eq, h.maxFrames]
    by_cases hlimit : m.callers.size + 2 ≤ m.maxFrames
    · rw [if_pos hlimit]
      -- The locals beyond the arguments are cleared in both stacks, whatever was there.
      have hreserve := h.stack.reserve (Nat.le_of_eq hbase)
        (show base + body.numLocals ≤ base + argc + (body.numLocals - argc) by omega)
      refine (h.onStack_keeps hreserve).bind ?_
      intro _ m₁ m₁' h₁
      exact ⟨rfl, { h₁ with calls := .inner h₁.calls }⟩
    · rw [if_neg hlimit]
      exact ⟨rfl, h.toEven⟩
  · rw [Exec.enterBody_of_count id free base hcount, Exec.enterBody_of_count id free base hcount]
    exact ⟨rfl, h.toEven⟩

theorem callBuiltin (h : Alike e before known m m') (b : Builtin) {base : Nat}
    (hbase : base ≤ m.stack.height) :
    Keeps e before known (Exec.callBuiltin b base m) (Exec.callBuiltin b base m') := by
  rw [Exec.callBuiltin_eq, Exec.callBuiltin_eq, h.stack.liveFrom_eq]
  generalize m.stack.liveFrom base = args
  refine h.fresh_on.bind ?_
  rintro id m₁ m₁' ⟨h₁, hstack₁⟩
  refine (h₁.print (b.printed args)).bind ?_
  rintro _ m₂ m₂' ⟨h₂, hstack₂⟩
  cases b.apply id args with
  | error cause => exact ⟨rfl, h₂.toEven⟩
  | ok v =>
      have hheight : base ≤ m₂.stack.height := by
        rw [hstack₂, hstack₁]
        exact hbase
      refine (h₂.setHeight hheight).bind ?_
      intro _ m₃ m₃' h₃
      exact h₃.push v

theorem call (h : Alike e before known m m') (argc : Nat) :
    Keeps e before known (Exec.call argc m) (Exec.call argc m') := by
  refine h.pop.bind ?_
  intro callee m₁ m₁' h₁
  refine (h₁.onStack (h₁.stack.below argc)).bind ?_
  rintro base _ _ ⟨stack, stack', ⟨hstack, hbase⟩, rfl, rfl⟩
  have h₂ := h₁.withStack hstack
  cases callee with
  | closure id body free => exact h₂.enterBody id body free hbase
  | function _ body =>
      refine h₂.fresh_on.bind ?_
      rintro id m₃ m₃' ⟨h₃, hsame⟩
      exact h₃.enterBody id body [] (by rw [hsame]; exact hbase)
  | builtin b => exact h₂.callBuiltin b (hbase ▸ Nat.le_add_right base argc)
  | _ => exact ⟨rfl, h₂.toEven⟩

/-- What two machines are like after a step. -/
def After (e : Embedding) (before : String) (known : Nat) : Progress → Machine → Machine → Prop
  | .running, m, m' => Alike e before known m m'
  | .finished, m, m' => Even before m m' ∧ m'.lastPopped = m.lastPopped

theorem goOn {act act' : Exec Unit} (h : Keeps e before known (act m) (act' m')) :
    Both (After e before known) (Even before) (Exec.goOn act m) (Exec.goOn act' m') := by
  refine h.bind ?_
  intro _ m₁ m₁' h₁
  exact ⟨rfl, h₁⟩

theorem leaveBody (h : Alike e before known m m') (hbase : m.frame.base ≤ m.stack.height)
    (result : Value) :
    Both (After e before known) (Even before) (Exec.leaveBody result m)
      (Exec.leaveBody result m') := by
  have hcalls := h.calls
  by_cases hcallers : m.callers = #[]
  · -- The result is left just above the live values.
    rw [hcallers] at hcalls
    rw [Exec.leaveBody_of_last result hcallers, Exec.leaveBody_of_last result hcalls.of_empty.1]
    refine (h.push result).bind ?_
    intro _ m₁ m₁' h₁
    refine h₁.pop_last.bind ?_
    rintro _ m₂ m₂' ⟨h₂, hlast⟩
    exact ⟨rfl, h₂.toEven, hlast⟩
  · rcases Array.exists_push_of_ne_empty hcallers with ⟨callers, caller, hpush⟩
    rw [hpush] at hcalls
    rcases hcalls.of_push with ⟨caller', callers', hpush', hframe, hrest⟩
    rw [Exec.leaveBody_of_push result hpush, Exec.leaveBody_of_push result hpush', hframe]
    have hback : Alike e before known { m with frame := caller, callers }
        { m' with frame := caller', callers := callers' } := { h with calls := hrest }
    refine (hback.setHeight hbase).bind ?_
    intro _ m₁ m₁' h₁
    refine (h₁.push result).bind ?_
    intro _ m₂ m₂' h₂
    exact ⟨rfl, h₂⟩

/-! ### Steps -/

/-- An instruction without a target that stays in its call or starts another one. -/
theorem execute (h : Alike e before known m m') {op : Opcode} {a b : Nat}
    (hop : op ∉ [Opcode.jump, .jumpNotTruthy, .returnValue, .returnNull])
    (hconstant : op = .constant ∨ op = .closure → m'.constants[a]? = m.constants[a]?)
    (hlocal : op = .getLocal → m.frame.base + a < m.stack.height)
    (hself : op = .currentClosure → m'.frame = m.frame) :
    Both (After e before known) (Even before) (Exec.execute op a b m) (Exec.execute op a b m') := by
  cases op with
  | constant =>
      refine goOn (h.pushFrom ?_)
      show Exec.orFault _ m'.constants[a]? = Exec.orFault _ m.constants[a]?
      rw [hconstant (.inl rfl)]
  | pop =>
      refine goOn (h.pop.bind ?_)
      intro _ m₁ m₁' h₁
      exact ⟨rfl, h₁⟩
  | pushTrue | pushFalse | pushNull => exact goOn (h.push _)
  | add | sub | mul | div | equal | notEqual | greaterThan | index => exact goOn (h.binary _)
  | minus | bang => exact goOn (h.unary _)
  | setGlobal => exact goOn (h.setGlobal a)
  | getGlobal =>
      refine goOn (h.pushFrom ?_)
      show m'.globals.get a = m.globals.get a
      rw [h.globals]
  | setLocal => exact goOn (h.setLocal a)
  | getLocal =>
      refine goOn (h.pushFrom ?_)
      have hslot := h.stack.slots _ (.inr (hlocal rfl))
      show Exec.orFault (.stackOverflow m'.stack.items.size) m'.stack.items[m'.frame.base + a]? =
        Exec.orFault (.stackOverflow m.stack.items.size) m.stack.items[m.frame.base + a]?
      rw [h.calls.base_eq, h.stack.capacity, hslot]
  | getBuiltin => exact goOn (h.pushFrom rfl)
  | getFree =>
      refine goOn (h.pushFrom ?_)
      show Exec.orFault _ m'.frame.free[a]? = Exec.orFault _ m.frame.free[a]?
      rw [h.calls.free_eq]
  | array => exact goOn (h.makeArray a)
  | hash => exact goOn (h.makeHash a)
  | call => exact goOn (h.call a)
  | closure => exact goOn (h.makeClosure b (hconstant (.inr rfl)))
  | currentClosure =>
      refine goOn (h.pushFrom ?_)
      show Except.ok m'.frame.closure = Except.ok m.frame.closure
      rw [hself rfl]
  | jump | jumpNotTruthy | returnValue | returnNull => simp at hop

end Alike

namespace About

variable {w : World} {m : Machine} {values : List Value} {pre post : List Instr} {i : Instr}

theorem holds (h : m.About w values pre i post) : m.frame.code.Holds m.frame.ip [i] := by
  rcases h.code with ⟨_, _, -, -, hcode⟩
  have hholds : m.frame.code.Holds 0 (pre ++ ([i] ++ post)) := by
    have hassembled := Code.Holds.of_assemble hcode.valid hcode.complete
    rw [h.instrs] at hassembled
    exact hassembled
  have hright := hholds.right
  rw [Nat.zero_add, ← h.ip] at hright
  exact hright.left

theorem fits (h : m.About w values pre i post) :
    ∃ locals free, m.frame.Role w locals ∧ (m.callers = #[] → locals = none) ∧
      i.Fits ⟨w.pool, w.globals, locals, free⟩ := by
  rcases h.calls.current with ⟨locals, _, _, hrole, -, -, hnone, -⟩
  rcases hrole.code h.world with ⟨free, -, hcode⟩
  refine ⟨locals, free, hrole, ?_, hcode.fits i (by simp [h.instrs])⟩
  intro hcallers
  exact hnone.1 (by simp [hcallers])

/-- The constant of an instruction is there. -/
theorem constant_lt (h : m.About w values pre i post) (hop : i.op = .constant ∨ i.op = .closure) :
    i.operands.getD 0 0 < m.constants.size := by
  rcases h.fits with ⟨locals, free, -, -, hfits⟩
  have hvalid := h.valid
  obtain ⟨op, operands⟩ := i
  have hlength : operands.length = op.widths.length := (List.Forall₂.length_eq hvalid).symm
  have hsize : m.constants.size = w.pool.length := by
    rw [← h.pool, Array.length_toList]
  rw [hsize]
  rcases hop with rfl | rfl
  · obtain ⟨n, rfl⟩ : ∃ n, operands = [n] := List.length_eq_one_iff.1 hlength
    rcases hfits with ⟨v, hget, -⟩
    exact (List.getElem?_eq_some_iff.1 hget).1
  · obtain ⟨n, count, rfl⟩ : ∃ n count, operands = [n, count] := List.length_eq_two.1 hlength
    rcases hfits with ⟨-, id, f, hget, -⟩
    exact (List.getElem?_eq_some_iff.1 hget).1

/-- The local of an instruction is live. -/
theorem local_lt (h : m.About w values pre i post) (hop : i.op = .getLocal) :
    m.frame.base + i.operands.getD 0 0 < m.stack.height := by
  rcases h.fits with ⟨locals, free, hrole, -, hfits⟩
  have hvalid := h.valid
  have hneeds := h.needs
  obtain ⟨op, operands⟩ := i
  obtain rfl : op = .getLocal := hop
  obtain ⟨n, rfl⟩ : ∃ n, operands = [n] :=
    List.length_eq_one_iff.1 (List.Forall₂.length_eq hvalid).symm
  rcases hfits with ⟨count, hlocals, hlt⟩
  rw [hrole.locals_eq hlocals] at hlt
  rw [h.live.1]
  show m.frame.base + n < values.length
  omega

/-- Some instructions stand in functions only. -/
theorem callers_ne (h : m.About w values pre i post)
    (hop : i.op = .currentClosure ∨ i.op = .returnNull) : m.callers ≠ #[] := by
  rcases h.fits with ⟨locals, free, -, hnone, hfits⟩
  obtain ⟨op, operands⟩ := i
  intro hcallers
  rcases hop with rfl | rfl
  · exact hfits (hnone hcallers)
  · exact hfits (hnone hcallers)

/-- With nothing on the stack, the top-level program begins by pushing a value. -/
theorem pushes (h : m.About w values pre i post) (hcallers : m.callers = #[])
    (hheight : m.stack.height = 0) {next : Machine} (hnext : m.Next next) :
    0 < next.stack.height := by
  have hstep : Exec.step m = .ok .running next := hnext
  have hempty : values.length = 0 := by rw [← h.live.1, hheight]
  have hneeds : i.needs = 0 := by
    have hneeds := h.needs
    omega
  -- Instructions of control need a value on the stack, or a call to return from.
  have hop : i.op ∉ control := by
    intro hop
    simp only [control, List.mem_cons, List.not_mem_nil, or_false] at hop
    rcases hop with hop | hop | hop | hop | hop
    · simp [Instr.needs, hop] at hneeds
    · simp [Instr.needs, hop] at hneeds
    · simp [Instr.needs, hop] at hneeds
    · simp [Instr.needs, hop] at hneeds
    · exact h.callers_ne (.inr hop) hcallers
  have hgives : i.gives = 1 := by
    obtain ⟨op, operands⟩ := i
    cases op <;> simp_all [Instr.gives, Instr.needs, control]
  rcases h.code with ⟨locals, free, hrole, hfree, hcode⟩
  have hfits := hcode.fits i (by simp [h.instrs])
  have hyields := (h.holding (codeSize (pre ++ [i]))).ordinary (hrole.jump _) hfree h.valid hfits
    h.needs hop
  rw [← h.step, hstep] at hyields
  rcases hyields.2 with ⟨w', values', hlength, hm⟩
  rw [hm.live.1, hlength, hgives]
  omega

end About

namespace Alike

variable {e : Embedding} {before : String} {known : Nat} {m m' : Machine} {w : World}
  {values : List Value} {pre post : List Instr} {i : Instr}

/-- The second machine is at the same instruction, with its target moved. -/
theorem holds (h : Alike e before known m m') (habout : m.About w values pre i post) :
    m'.frame.ip = m.frame.ip + e.lag m.callers ∧
      m'.frame.code.Holds m'.frame.ip [i.shift (e.lag m.callers)] := by
  by_cases hcallers : m.callers = #[]
  · have hcalls := h.calls
    have hinstrs := habout.instrs
    have hip := habout.ip
    rw [hcallers] at hcalls ⊢
    rcases hcalls.of_empty with ⟨-, ip, hframe, hframe'⟩
    rw [hframe] at hinstrs hip ⊢
    rw [hframe']
    have hip : ip = codeSize pre := hip
    rw [hip]
    exact ⟨rfl, e.holds_at hinstrs⟩
  · rcases Array.exists_push_of_ne_empty hcallers with ⟨callers, caller, hpush⟩
    rw [h.calls.frame_eq hcallers, hpush, e.lag_push, Instr.shift_zero]
    exact ⟨rfl, habout.holds⟩

theorem step_eq (h : Alike e before known m m') (habout : m.About w values pre i post) :
    Exec.step m' = Exec.execute i.op ((i.shift (e.lag m.callers)).operands.getD 0 0)
      ((i.shift (e.lag m.callers)).operands.getD 1 0)
      (m'.jump (codeSize (pre ++ [i]) + e.lag m.callers)) := by
  rcases h.holds habout with ⟨hip, hholds⟩
  have hnext : m'.frame.ip + (i.shift (e.lag m.callers)).size =
      codeSize (pre ++ [i]) + e.lag m.callers := by
    rw [hip, habout.ip, Instr.size_shift, codeSize_append, codeSize_cons, codeSize_nil]
    omega
  rw [Exec.step_of_holds hholds, hnext, Instr.op_shift]

/-- Two machines that are alike take steps alike. -/
theorem step (h : Alike e before known m m') (habout : m.About w values pre i post) :
    Both (After e before known) (Even before) (Exec.step m) (Exec.step m') := by
  have hjumped := h.jump (codeSize (pre ++ [i]))
  have hvalid := habout.valid
  rw [habout.step, h.step_eq habout]
  by_cases hop : i.op ∈ [Opcode.jump, .jumpNotTruthy, .returnValue, .returnNull]
  · obtain ⟨op, operands⟩ := i
    have hlength : operands.length = op.widths.length := (List.Forall₂.length_eq hvalid).symm
    simp only [List.mem_cons, List.not_mem_nil, or_false] at hop
    rcases hop with rfl | rfl | rfl | rfl
    · obtain ⟨target, rfl⟩ : ∃ n, operands = [n] := List.length_eq_one_iff.1 hlength
      exact ⟨rfl, h.jump target⟩
    · obtain ⟨target, rfl⟩ : ∃ n, operands = [n] := List.length_eq_one_iff.1 hlength
      exact goOn (hjumped.jumpNotTruthy target)
    · have hneeds : m.frame.base + m.frame.body.numLocals + 1 ≤ values.length := habout.needs
      rw [← habout.live.1] at hneeds
      refine (hjumped.onStack hjumped.stack.pop).bind ?_
      rintro v _ _ ⟨stack, stack', ⟨hstack, -, hheight⟩, rfl, rfl⟩
      have hheight : stack.height + 1 = m.stack.height := hheight
      refine (hjumped.withStack hstack).leaveBody ?_ v
      show m.frame.base ≤ stack.height
      omega
    · have hneeds : m.frame.base + m.frame.body.numLocals + 0 ≤ values.length := habout.needs
      rw [← habout.live.1] at hneeds
      refine hjumped.leaveBody ?_ .null
      show m.frame.base ≤ m.stack.height
      omega
  -- Only targets of jumps are moved, so this instruction is the same on both sides.
  · have hunmoved : i.shift (e.lag m.callers) = i := by
      refine Instr.shift_of_target ?_ ?_
      · intro hjump
        exact hop (by simp [hjump])
      · intro hjump
        exact hop (by simp [hjump])
    rw [hunmoved]
    refine hjumped.execute hop ?_ ?_ ?_
    -- The second pool begins with the first one.
    · intro hconstant
      have hlt := habout.constant_lt hconstant
      rcases h.constants with ⟨more, hmore⟩
      show m'.constants[i.operands.getD 0 0]? = m.constants[i.operands.getD 0 0]?
      rw [← Array.getElem?_toList, ← Array.getElem?_toList, ← hmore]
      exact List.getElem?_append_left hlt
    · intro hlocal
      exact habout.local_lt hlocal
    · intro hself
      have hcallers := habout.callers_ne (.inl hself)
      exact hjumped.calls.frame_eq hcallers

theorem next (h : Alike e before known m m') (hsound : m.Sound w) {n : Machine} (hnext : m.Next n) :
    ∃ n', m'.Next n' ∧ Alike e before known n n' := by
  rcases hsound.about_of_next hnext with ⟨values, pre, i, post, habout⟩
  exact (h.step habout).of_ok hnext

/-- Two machines that are alike run alike. -/
theorem reaches (h : Alike e before known m m') (hsound : m.Sound w) {last : Machine}
    (hreaches : m.Reaches last) : ∃ last', m'.Reaches last' ∧ Alike e before known last last' := by
  induction hreaches with
  | refl => exact ⟨m', .refl m', h⟩
  | @tail mid last hmid hnext ih =>
      rcases ih with ⟨mid', hmid', halike⟩
      rcases hsound.reaches hmid with ⟨w', -, -, hsound'⟩
      rcases halike.next hsound' hnext with ⟨last', hnext', hlast⟩
      exact ⟨last', hmid'.trans hnext'.reaches, hlast⟩

/-- The value that a run leaves. -/
def SameResult (ending : Ending) (m m' : Machine) : Prop :=
  ending = .finished → m'.lastPopped = m.lastPopped

/-- Two runs end alike in the middle of the code. -/
theorem ends_at (h : Alike e before known m m') (habout : m.About w values pre i post)
    {ending : Ending} {final : Machine} (hends : m.EndsAs ending final)
    (hfuel : ending ≠ .outOfFuel) :
    ∃ final', m'.EndsAs ending final' ∧ Even before final final' ∧
      SameResult ending final final' := by
  cases ending with
  | finished =>
      rcases (h.step habout).of_ok hends with ⟨final', hends', heven, hlast⟩
      exact ⟨final', hends', heven, fun _ => hlast⟩
  | failed fault =>
      rcases (h.step habout).of_error hends with ⟨final', hends', heven⟩
      exact ⟨final', hends', heven, nofun⟩
  | outOfFuel => exact absurd rfl hfuel

/-- Two runs end alike, if the part is the last one of the whole and the slot of the last value is
known. -/
theorem ends (h : Alike e before (known + 1) m m') (hsound : m.Sound w)
    (hsize : e.whole.size ≤ e.part.size + e.offset) {ending : Ending} {final : Machine}
    (hends : m.EndsAs ending final) (hfuel : ending ≠ .outOfFuel) :
    ∃ final', m'.EndsAs ending final' ∧ Even before final final' ∧
      SameResult ending final final' := by
  rcases hsound.about with ⟨hcallers, hend⟩ | ⟨values, pre, i, post, habout⟩
  · have hcalls := h.calls
    rw [hcallers] at hcalls
    rcases hcalls.of_empty with ⟨hcallers', ip, hframe, hframe'⟩
    have hend' : m'.frame.code.size ≤ m'.frame.ip := by
      rw [hframe] at hend
      rw [hframe']
      have hend : e.part.size ≤ ip := hend
      show e.whole.size ≤ ip + e.offset
      omega
    have hstep := Exec.step_at_end hend hcallers
    have hstep' := Exec.step_at_end hend' hcallers'
    cases ending with
    | finished =>
        have hends : Exec.step m = .ok .finished final := hends
        rw [hstep] at hends
        cases hends
        refine ⟨m', hstep', h.toEven, fun _ => ?_⟩
        -- Nothing is live, so the last value is in the first slot.
        have hheight := (hsound.at_end hcallers hend).2
        have hheight' := h.stack.height
        show m'.stack.items.getD m'.stack.height .null = m.stack.items.getD m.stack.height .null
        rw [hheight', hheight]
        exact h.stack.getD_eq (.inl (Nat.succ_pos known))
    | failed fault =>
        have hends : Exec.step m = .error fault final := hends
        rw [hstep] at hends
        cases hends
    | outOfFuel => exact absurd rfl hfuel
  · exact h.ends_at habout hends hfuel

/-- A program that is the last part of another one runs in it as it does on its own. -/
theorem run (h : Alike e before 0 m m') (hsound : m.Sound w) (hcallers : m.callers = #[])
    (hheight : m.stack.height = 0) (hcode : m.frame.ip < m.frame.code.size)
    (hsize : e.whole.size ≤ e.part.size + e.offset) {ending : Ending} {last final : Machine}
    (hreaches : m.Reaches last) (hends : last.EndsAs ending final) (hfuel : ending ≠ .outOfFuel) :
    ∃ last' final', m'.Reaches last' ∧ last'.EndsAs ending final' ∧ Even before final final' ∧
      SameResult ending final final' := by
  obtain ⟨values, pre, i, post, habout⟩ : ∃ values pre i post, m.About w values pre i post := by
    rcases hsound.about with ⟨-, hend⟩ | habout
    · omega
    · exact habout
  rcases Relation.ReflTransGen.cases_head hreaches with rfl | ⟨n, hnext, hrest⟩
  · rcases h.ends_at habout hends hfuel with ⟨final', hends', hfinal⟩
    exact ⟨m', final', .refl m', hends', hfinal⟩
  · -- The first step pushes a value, so the first slot is known from then on.
    rcases h.next hsound hnext with ⟨n', hnext', hn⟩
    have hpushed := habout.pushes hcallers hheight hnext
    have hknown : Alike e before (0 + 1) n n' := { hn with stack := hn.stack.learn (.inr hpushed) }
    rcases hsound.reaches hnext.reaches with ⟨w₁, -, -, hsound₁⟩
    rcases hknown.reaches hsound₁ hrest with ⟨last', hrest', hlast⟩
    rcases hsound₁.reaches hrest with ⟨w₂, -, -, hsound₂⟩
    rcases hlast.ends hsound₂ hsize hends hfuel with ⟨final', hends', hfinal⟩
    exact ⟨last', final', hnext'.reaches.trans hrest', hends', hfinal⟩

end Alike

end Machine

end MonkeyMachine
