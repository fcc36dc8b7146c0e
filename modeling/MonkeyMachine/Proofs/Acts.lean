/-!
# Sequences of acts

The compiler and the machine are both written as acts on a state that can fail. What two acts in
sequence do follows from what the first one does.
-/

namespace MonkeyMachine

section Acts

variable {ε σ α β : Type} {x : EStateM ε σ α} {f : α → EStateM ε σ β} {s s' : σ}

theorem act_bind_of_ok {a : α} (h : x s = .ok a s') : (x >>= f) s = f a s' := by
  show EStateM.bind x f s = f a s'
  simp [EStateM.bind, h]

theorem act_bind_of_error {e : ε} (h : x s = .error e s') : (x >>= f) s = .error e s' := by
  show EStateM.bind x f s = .error e s'
  simp [EStateM.bind, h]

theorem act_bind_eq_ok {b : β} {s'' : σ} (h : (x >>= f) s = .ok b s'') :
    ∃ a s', x s = .ok a s' ∧ f a s' = .ok b s'' := by
  cases hx : x s with
  | ok a s' =>
      rw [act_bind_of_ok hx] at h
      exact ⟨a, s', rfl, h⟩
  | error e s' =>
      rw [act_bind_of_error hx] at h
      cases h

/-- The state that an act leaves, whether it succeeds or fails. -/
def finalState : EStateM.Result ε σ α → σ
  | .ok _ s => s
  | .error _ s => s

theorem finalState_bind {P : σ → Prop} (h : P (finalState (x s)))
    (hnext : ∀ a s', x s = .ok a s' → P s' → P (finalState (f a s'))) :
    P (finalState ((x >>= f) s)) := by
  cases hx : x s with
  | ok a s' =>
      rw [hx] at h
      rw [act_bind_of_ok hx]
      exact hnext a s' hx h
  | error e s' =>
      rw [hx] at h
      rw [act_bind_of_error hx]
      exact h

end Acts

end MonkeyMachine
