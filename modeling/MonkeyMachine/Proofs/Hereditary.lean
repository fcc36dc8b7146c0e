import MonkeyMachine.Proofs.Reference

/-!
# What operators and builtins make of data

Operators and builtins compute plain data, take data out of containers and put data into new ones.
They make no functions, and none of their faults is about a global. So they keep every property that
plain data have and that a container has exactly if all its contents do: a `Datum.Hereditary` one.
-/

namespace MonkeyMachine

/-- The answer has the property `P` if there is one, and the error has the property `E` if not. -/
def Yields {ε α : Type} (P : α → Prop) (E : ε → Prop) : Except ε α → Prop
  | .ok a => P a
  | .error e => E e

/-- The fault is another one than a global without a value. -/
def Fault.NotUndefined : Fault → Prop
  | .undefinedGlobal _ => False
  | _ => True

namespace Datum

/-- A property that plain data have, and that a container has exactly if all its contents do. It may
say anything about functions. -/
structure Hereditary (P : Datum → Prop) : Prop where
  int : ∀ n, P (.int n)
  bool : ∀ b, P (.bool b)
  null : P .null
  str : ∀ s, P (.str s)
  builtin : ∀ b, P (.builtin b)
  array : ∀ {serial : Nat} {elements : List Datum},
    P (.array serial elements) ↔ ∀ d ∈ elements, P d
  hash : ∀ {serial : Nat} {entries : List (Key × Datum)},
    P (.hash serial entries) ↔ ∀ entry ∈ entries, P entry.2

namespace Hereditary

variable {P : Datum → Prop} (hP : Hereditary P)

include hP

theorem getD {ds : List Datum} (h : ∀ d ∈ ds, P d) (n : Nat) : P (ds.getD n .null) := by
  rw [List.getD_eq_getElem?_getD]
  cases hget : ds[n]? with
  | none => exact hP.null
  | some d => exact h d (List.mem_of_getElem? hget)

/-! ## Operators -/

omit hP in
theorem onInts {op : Opcode} {f : Int64 → Int64 → Except Fault Datum}
    (hf : ∀ l r, Yields P Fault.NotUndefined (f l r)) (d e : Datum) :
    Yields P Fault.NotUndefined (onInts op f d e) := by
  unfold Datum.onInts
  split
  · exact hf _ _
  · trivial

theorem greater (d e : Datum) : Yields P Fault.NotUndefined (greater d e) := by
  refine onInts (fun l r => ?_) d e
  exact hP.bool _

theorem binary (operator : String) (d e : Datum) :
    Yields P Fault.NotUndefined (binary operator d e) := by
  unfold Datum.binary
  repeat' split
  -- `+`
  · unfold plus
    split
    · exact hP.str _
    · refine onInts (fun l r => ?_) d e
      exact hP.int _
  -- `-` and `*`
  · refine onInts (fun l r => ?_) d e
    exact hP.int _
  · refine onInts (fun l r => ?_) d e
    exact hP.int _
  -- `/`, which may fail on integers too
  · refine onInts (fun l r => ?_) d e
    split
    · trivial
    · exact hP.int _
  -- `>`, `==` and `!=`
  · exact hP.greater d e
  · exact hP.bool _
  · exact hP.bool _
  · exact hP.null

theorem unary (operator : String) (d : Datum) :
    Yields P Fault.NotUndefined (unary operator d) := by
  unfold Datum.unary
  repeat' split
  · exact hP.bool _
  · cases d with
    | int n => exact hP.int _
    | _ => trivial
  · exact hP.null

/-! ## Containers -/

theorem indexed {d : Datum} (h : P d) (e : Datum) :
    Yields P Fault.NotUndefined (indexed d e) := by
  cases d with
  | hash serial entries =>
      simp only [Datum.indexed]
      split
      · rename_i key _
        cases hget : Assoc.find? key entries with
        | none => exact hP.null
        | some d => exact hP.hash.1 h _ (Assoc.mem_of_find? hget)
      · trivial
  | array serial elements =>
      cases e with
      | int n =>
          simp only [Datum.indexed]
          split
          · exact hP.null
          · exact hP.getD (hP.array.1 h) _
      | _ => trivial
  | _ => trivial

omit hP in
theorem addPairs {entries : List (Key × Datum)} {pairs : List (Datum × Datum)}
    (h : ∀ entry ∈ entries, P entry.2) (hpairs : ∀ pair ∈ pairs, P pair.2) :
    Yields (fun result => ∀ entry ∈ result, P entry.2) Fault.NotUndefined
      (addPairs entries pairs) := by
  induction pairs generalizing entries with
  | nil => exact h
  | cons pair rest ih =>
      obtain ⟨k, d⟩ := pair
      unfold Datum.addPairs
      split
      · have hinsert := Assoc.forall_insert h (hpairs (k, d) List.mem_cons_self)
        refine ih (hinsert _) fun pair hpair => ?_
        exact hpairs pair (List.mem_cons_of_mem _ hpair)
      · trivial

/-- An argument that a builtin takes apart is an array, or the builtin refuses it. -/
theorem elementsOf {b : Builtin} {d : Datum} {g : List Datum → Except BuiltinError Datum} (hd : P d)
    (hg : ∀ elements, (∀ e ∈ elements, P e) → Yields P (fun _ => True) (g elements)) :
    Yields P (fun _ => True) (b.elementsOf d >>= g) := by
  cases d with
  | array serial elements => exact hg _ (hP.array.1 hd)
  | _ => trivial

theorem answer (b : Builtin) (serial : Nat) {args : List Datum} (h : ∀ d ∈ args, P d) :
    Yields P (fun _ => True) (b.answer serial args) := by
  unfold Builtin.answer
  split
  -- `puts`
  · exact hP.null
  -- `len`
  · rename_i d
    cases d with
    | str s => exact hP.int _
    | array => exact hP.int _
    | _ => trivial
  -- `first`
  · refine hP.elementsOf (h _ (by simp)) fun elements hall => ?_
    cases elements with
    | nil => exact hP.null
    | cons d rest => exact hall d List.mem_cons_self
  -- `last`
  · refine hP.elementsOf (h _ (by simp)) fun elements hall => ?_
    show P (elements.getLast?.getD .null)
    cases hlast : elements.getLast? with
    | none => exact hP.null
    | some d => exact hall d (List.mem_of_getLast? hlast)
  -- `rest`
  · refine hP.elementsOf (h _ (by simp)) fun elements hall => ?_
    cases elements with
    | nil => exact hP.null
    | cons d rest => exact hP.array.2 fun e he => hall e (List.mem_cons_of_mem _ he)
  -- `push`
  · rename_i d e
    refine hP.elementsOf (h d (by simp)) fun elements hall => ?_
    refine hP.array.2 fun f hf => ?_
    rcases List.mem_append.1 hf with hf | hf
    · exact hall f hf
    · rw [List.mem_singleton.1 hf]
      exact h e (by simp)
  · trivial
  · trivial

end Hereditary

end Datum

end MonkeyMachine
