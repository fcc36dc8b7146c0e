/-!
# Ordered associations

Association lists kept in the order in which their keys were first inserted. Inserting a key again
replaces its value and keeps its place. Hash values and symbol tables are both kept this way.
-/

namespace MonkeyMachine

namespace Assoc

variable {κ ν : Type} [DecidableEq κ]

/-- Bind `key` to `value`, in the place of an earlier binding of `key` if there is one. -/
def insert (key : κ) (value : ν) : List (κ × ν) → List (κ × ν)
  | [] => [(key, value)]
  | (k, v) :: rest => if k = key then (key, value) :: rest else (k, v) :: insert key value rest

/-- The value bound to `key`. -/
def find? (key : κ) : List (κ × ν) → Option ν
  | [] => none
  | (k, v) :: rest => if k = key then some v else find? key rest

@[simp]
theorem find?_insert_self (key : κ) (value : ν) (entries : List (κ × ν)) :
    find? key (insert key value entries) = some value := by
  induction entries with
  | nil => simp [insert, find?]
  | cons entry rest ih =>
      obtain ⟨k, v⟩ := entry
      by_cases h : k = key
      · simp [insert, find?, h]
      · simp [insert, find?, h, ih]

theorem find?_insert_of_ne {key other : κ} (h : other ≠ key) (value : ν)
    (entries : List (κ × ν)) :
    find? other (insert key value entries) = find? other entries := by
  induction entries with
  | nil => simp [insert, find?, Ne.symm h]
  | cons entry rest ih =>
      obtain ⟨k, v⟩ := entry
      by_cases hk : k = key
      · simp [insert, find?, hk, Ne.symm h]
      · simp [insert, find?, hk, ih]

theorem mem_of_find? {key : κ} {value : ν} {entries : List (κ × ν)}
    (h : find? key entries = some value) : (key, value) ∈ entries := by
  induction entries with
  | nil => cases h
  | cons entry rest ih =>
      by_cases hkey : entry.1 = key
      · have hvalue : entry.2 = value := by simpa [find?, hkey] using h
        rw [← hkey, ← hvalue]
        exact List.mem_cons_self
      · exact List.mem_cons_of_mem _ (ih (by simpa [find?, hkey] using h))

/-- What holds of the new value and of the old ones holds of every value. -/
theorem forall_insert {P : ν → Prop} {value : ν} {entries : List (κ × ν)}
    (h : ∀ entry ∈ entries, P entry.2) (hvalue : P value) (key : κ) :
    ∀ entry ∈ insert key value entries, P entry.2 := by
  induction entries with
  | nil =>
      intro entry hentry
      rw [List.mem_singleton.1 hentry]
      exact hvalue
  | cons first rest ih =>
      have hrest := fun other hother => h other (List.mem_cons_of_mem first hother)
      unfold insert
      split
      · intro entry hentry
        rcases List.mem_cons.1 hentry with rfl | hentry
        · exact hvalue
        · exact hrest entry hentry
      · intro entry hentry
        rcases List.mem_cons.1 hentry with rfl | hentry
        · exact h _ List.mem_cons_self
        · exact ih hrest entry hentry

end Assoc

end MonkeyMachine
