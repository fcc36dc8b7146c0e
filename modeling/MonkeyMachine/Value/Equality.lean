import MonkeyMachine.Assoc
import MonkeyMachine.Value

/-!
# Two equalities of values

`Value.identical` is equality of values, identities included: what the language's own `==` tells.
`Value.same` is equality of contents: it forgets identities, and the order of the entries of a
hash.

Values share their parts freely: one array may stand twice in a second, and that one twice in a
third. Deciding equality does not walk what is shared again and again. Parts that are one object in
memory are equal at once, and composite values of different identities differ whatever they hold.
-/

namespace MonkeyMachine

/-- Decides a statement that splits in two. The second half is looked at only when the first one
holds. -/
def decideBoth {p q r : Prop} (split : r ↔ p ∧ q) (first : Decidable p)
    (second : Unit → Decidable q) : Decidable r :=
  match first with
  | isFalse hp => isFalse fun hr => hp (split.1 hr).1
  | isTrue hp =>
      match second () with
      | isFalse hq => isFalse fun hr => hq (split.1 hr).2
      | isTrue hq => isTrue (split.2 ⟨hp, hq⟩)

namespace Value

/-! ## Identity -/

mutual

/-- Decides whether two values are equal. -/
def decEq : (v w : Value) → Decidable (v = w)
  | int a, w => by
      cases w with
      | int b => exact decidable_of_iff (a = b) (by simp)
      | _ => exact isFalse nofun
  | bool a, w => by
      cases w with
      | bool b => exact decidable_of_iff (a = b) (by simp)
      | _ => exact isFalse nofun
  | null, w => by
      cases w with
      | null => exact isTrue rfl
      | _ => exact isFalse nofun
  | str a, w => by
      cases w with
      | str b => exact decidable_of_iff (a = b) (by simp)
      | _ => exact isFalse nofun
  | array i xs, w => by
      cases w with
      | array j ys =>
          exact decideBoth (by simp) (inferInstance : Decidable (i = j)) fun _ => decEqArray xs ys
      | _ => exact isFalse nofun
  | hash i xs, w => by
      cases w with
      | hash j ys =>
          exact decideBoth (by simp) (inferInstance : Decidable (i = j)) fun _ => decEqEntries xs ys
      | _ => exact isFalse nofun
  | function i f, w => by
      cases w with
      | function j g =>
          exact decideBoth (by simp) (inferInstance : Decidable (i = j)) fun _ =>
            withPtrEqDecEq f g fun _ => inferInstance
      | _ => exact isFalse nofun
  | closure i f xs, w => by
      cases w with
      | closure j g ys =>
          exact decideBoth (by simp) (inferInstance : Decidable (i = j)) fun _ =>
            decideBoth Iff.rfl (withPtrEqDecEq f g fun _ => inferInstance) fun _ => decEqList xs ys
      | _ => exact isFalse nofun
  | builtin a, w => by
      cases w with
      | builtin b => exact decidable_of_iff (a = b) (by simp)
      | _ => exact isFalse nofun
termination_by structural v => v

def decEqArray : (xs ys : Array Value) → Decidable (xs = ys)
  | ⟨xs⟩, ⟨ys⟩ =>
      have := decEqList xs ys
      decidable_of_iff (xs = ys) (by simp)
termination_by structural xs => xs

def decEqList : (xs ys : List Value) → Decidable (xs = ys)
  | [], [] => isTrue rfl
  | [], _ :: _ => isFalse nofun
  | _ :: _, [] => isFalse nofun
  | x :: xs, y :: ys =>
      decideBoth List.cons_eq_cons (withPtrEqDecEq x y fun _ => decEq x y) fun _ => decEqList xs ys
termination_by structural xs => xs

def decEqEntries : (xs ys : List (Key × Value)) → Decidable (xs = ys)
  | [], [] => isTrue rfl
  | [], _ :: _ => isFalse nofun
  | _ :: _, [] => isFalse nofun
  | (k, x) :: xs, (l, y) :: ys =>
      decideBoth (by simp [and_assoc]) (inferInstance : Decidable (k = l)) fun _ =>
        decideBoth Iff.rfl (withPtrEqDecEq x y fun _ => decEq x y) fun _ => decEqEntries xs ys
termination_by structural xs => xs

end

instance : DecidableEq Value := fun v w => withPtrEqDecEq v w fun _ => decEq v w

/-- Whether two values are one and the same. Scalars and strings are when they agree, composite
values only when they stem from one act of creation. -/
def identical (v w : Value) : Bool := decide (v = w)

@[simp]
theorem identical_iff (v w : Value) : identical v w = true ↔ v = w := by
  simp [identical]

/-! ## Contents -/

mutual

/-- Whether two values have the same contents. -/
def same : Value → Value → Bool
  | array _ ⟨xs⟩, array _ ⟨ys⟩ => sameList xs ys
  | hash _ xs, hash _ ys => xs.length == ys.length && sameEntries xs ys
  | function _ f, function _ g => f == g
  | closure _ f xs, closure _ g ys => f == g && sameList xs ys
  | v, w => identical v w

def sameList : List Value → List Value → Bool
  | [], [] => true
  | x :: xs, y :: ys => same x y && sameList xs ys
  | _, _ => false

/-- Whether every entry of the first hash has an entry of the same contents in the second. -/
def sameEntries : List (Key × Value) → List (Key × Value) → Bool
  | [], _ => true
  | (k, x) :: xs, ys =>
      (match Assoc.find? k ys with
        | some y => same x y
        | none => false) && sameEntries xs ys

end

end Value

end MonkeyMachine
