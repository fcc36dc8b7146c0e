import Mathlib.Data.List.Perm.Subperm
import MonkeyMachine.Proofs.OrderedMaps
import MonkeyMachine.Value.Equality

/-!
# Equality of contents

`Value.same` is an equivalence on the values that programs and hosts can build. A hash is compared in
one direction only, entry by entry of the first one, after a look at the lengths. That is enough,
because no key stands twice in a hash that was built by inserts: `Value.Built`.

The parts of an array or a closure are values under numbers, and those of a hash are values under
keys. Two of them have the same contents if they have the same contents under each number or key
(`Value.Alike`), so what is true of the parts carries over to the whole in one way for all three.
-/

namespace MonkeyMachine

/-- In an association without double keys, as many keys as in another that has all of them are all
the keys of the other. -/
theorem Assoc.keys_subset_of_length_eq {κ ν : Type} {xs ys : List (κ × ν)} (hnodup : (keys xs).Nodup)
    (hlength : xs.length = ys.length) (hsubset : keys xs ⊆ keys ys) : keys ys ⊆ keys xs := by
  have hle : (keys ys).length ≤ (keys xs).length := by
    rw [length_keys, length_keys, hlength]
  exact ((hnodup.subperm hsubset).perm_of_length_le hle).symm.subset

namespace Value

/-! ## Values that can be built -/

/-- A value without parts and without an identity of its own. -/
def Plain : Value → Prop
  | array _ _ | hash _ _ | function _ _ | closure _ _ _ => False
  | _ => True

/-- The value holds no hash but those that inserts into an empty one lead to, at whatever depth. -/
inductive Built : Value → Prop
  | plain {v : Value} (h : v.Plain) : Built v
  | function (id : Identity) (body : Function) : Built (.function id body)
  | array {id : Identity} {elements : Array Value} (helements : ∀ v ∈ elements, Built v) :
      Built (.array id elements)
  | hash {id : Identity} {inserts : List (Key × Value)} (hvalues : ∀ i ∈ inserts, Built i.2) :
      Built (.hash id (Assoc.insertAll [] inserts))
  | closure {id : Identity} {body : Function} {free : List Value} (hfree : ∀ v ∈ free, Built v) :
      Built (.closure id body free)

namespace Built

theorem of_array {id : Identity} {elements : Array Value} (h : (Value.array id elements).Built) :
    ∀ v ∈ elements.toList, v.Built := by
  cases h with
  | plain h => exact h.elim
  | array helements => simpa using helements

theorem of_hash {id : Identity} {entries : List (Key × Value)} (h : (Value.hash id entries).Built) :
    ∃ inserts, entries = Assoc.insertAll [] inserts ∧ ∀ i ∈ inserts, i.2.Built := by
  cases h with
  | plain h => exact h.elim
  | hash hvalues => exact ⟨_, rfl, hvalues⟩

theorem of_closure {id : Identity} {body : Function} {free : List Value}
    (h : (Value.closure id body free).Built) : ∀ v ∈ free, v.Built := by
  cases h with
  | plain h => exact h.elim
  | closure hfree => exact hfree

end Built

end Value

/-- What is found under a key was inserted. -/
theorem Assoc.mem_of_find?_insertAll {κ ν : Type} [DecidableEq κ] {inserts : List (κ × ν)} {key : κ}
    {value : ν} (h : find? key (insertAll [] inserts) = some value) : (key, value) ∈ inserts := by
  rw [(ordered_insertAll inserts).find?, last?] at h
  rcases Option.map_eq_some_iff.1 h with ⟨i, hlast, rfl⟩
  have hmem := List.mem_filter.1 (List.mem_of_getLast? hlast)
  have hkey : i.1 = key := by simpa using hmem.2
  rw [← hkey]
  exact hmem.1

namespace Value

/-! ## Contents, part by part -/

abbrev Same (v w : Value) : Prop := same v w = true

/-- The same indices are in use, with the same contents under each of them. -/
structure Alike {ι : Type} (f g : ι → Option Value) : Prop where
  none_iff : ∀ i, f i = none ↔ g i = none
  same : ∀ i v w, f i = some v → g i = some w → Same v w

namespace Alike

variable {ι : Type} {f g k : ι → Option Value}

theorem exists_of_some (h : Alike f g) {i : ι} {v : Value} (hf : f i = some v) :
    ∃ w, g i = some w ∧ Same v w := by
  cases hg : g i with
  | none =>
      rw [(h.none_iff i).2 hg] at hf
      cases hf
  | some w => exact ⟨w, rfl, h.same i v w hf hg⟩

theorem refl (h : ∀ i v, f i = some v → Same v v) : Alike f f where
  none_iff _ := Iff.rfl
  same i v w hv hw := by
    rw [hv] at hw
    cases hw
    exact h i v hv

theorem symm (hfg : Alike f g)
    (h : ∀ i v w, f i = some v → g i = some w → Same v w → Same w v) : Alike g f where
  none_iff i := (hfg.none_iff i).symm
  same i w v hw hv := h i v w hv hw (hfg.same i v w hv hw)

theorem trans (hfg : Alike f g) (hgk : Alike g k)
    (h : ∀ i u v w, f i = some u → g i = some v → k i = some w → Same u v → Same v w → Same u w) :
    Alike f k where
  none_iff i := (hfg.none_iff i).trans (hgk.none_iff i)
  same i u w hu hw := by
    rcases hfg.exists_of_some hu with ⟨v, hv, huv⟩
    exact h i u v w hu hv hw huv (hgk.same i v w hv hw)

end Alike

/-- The values of a list, by number. -/
def nth (vs : List Value) : Nat → Option Value := fun n => vs[n]?

theorem sameList_iff {xs ys : List Value} : sameList xs ys = true ↔ Alike (nth xs) (nth ys) := by
  induction xs generalizing ys with
  | nil =>
      cases ys with
      | nil => simp [sameList, Alike.refl, nth]
      | cons y ys =>
          refine ⟨fun h => ?_, fun h => ?_⟩
          · cases h
          · cases (h.none_iff 0).1 rfl
  | cons x xs ih =>
      cases ys with
      | nil =>
          refine ⟨fun h => ?_, fun h => ?_⟩
          · cases h
          · cases (h.none_iff 0).2 rfl
      | cons y ys =>
          rw [sameList, Bool.and_eq_true, ih]
          constructor
          -- What holds at `n + 1` of the longer lists is what holds at `n` of their tails.
          · rintro ⟨hhead, htail⟩
            refine ⟨fun n => ?_, fun n v w hv hw => ?_⟩
            · cases n with
              | zero => simp [nth]
              | succ n => exact htail.none_iff n
            · cases n with
              | zero =>
                  cases hv
                  cases hw
                  exact hhead
              | succ n => exact htail.same n v w hv hw
          · intro h
            refine ⟨h.same 0 x y rfl rfl, fun n => h.none_iff (n + 1), ?_⟩
            exact fun n => h.same (n + 1)

theorem sameEntries_iff {xs ys : List (Key × Value)} :
    sameEntries xs ys = true ↔
      ∀ key v, (key, v) ∈ xs → ∃ w, Assoc.find? key ys = some w ∧ Same v w := by
  induction xs with
  | nil => simp [sameEntries]
  | cons entry xs ih =>
      obtain ⟨k, x⟩ := entry
      have hsplit : sameEntries ((k, x) :: xs) ys = true ↔
          (∃ w, Assoc.find? k ys = some w ∧ Same x w) ∧ sameEntries xs ys = true := by
        cases hfind : Assoc.find? k ys <;> simp [sameEntries, hfind]
      rw [hsplit, ih]
      constructor
      · rintro ⟨hx, hrest⟩ key v hmem
        rcases List.mem_cons.1 hmem with heq | hmem
        · cases heq
          exact hx
        · exact hrest key v hmem
      · intro h
        exact ⟨h k x List.mem_cons_self, fun key v hmem => h key v (List.mem_cons_of_mem _ hmem)⟩

/-- The values of a hash, by key. -/
def under (entries : List (Key × Value)) : Key → Option Value := fun key => Assoc.find? key entries

/-- The same keys are in use if the same keys are found. -/
theorem under_none_iff {xs ys : List (Key × Value)} :
    (∀ key, under xs key = none ↔ under ys key = none) ↔
      ∀ key, key ∈ Assoc.keys xs ↔ key ∈ Assoc.keys ys :=
  forall_congr' fun _ => not_iff_not.symm.trans
    (iff_congr Assoc.find?_ne_none_iff Assoc.find?_ne_none_iff)

/-- Two hashes have the same contents if they have the same keys, with the same contents under
each. -/
theorem same_hashes_iff {i j : Identity} {xs ys : List (Key × Value)} (hxs : (Assoc.keys xs).Nodup)
    (hys : (Assoc.keys ys).Nodup) :
    Same (hash i xs) (hash j ys) ↔ Alike (under xs) (under ys) := by
  rw [Same, same, Bool.and_eq_true, beq_iff_eq, sameEntries_iff]
  constructor
  · rintro ⟨hlength, hentries⟩
    have hsubset : Assoc.keys xs ⊆ Assoc.keys ys := by
      intro key hmem
      rcases List.mem_map.1 hmem with ⟨⟨k, v⟩, hentry, rfl⟩
      rcases hentries k v hentry with ⟨w, hfind, -⟩
      exact Assoc.find?_ne_none_iff.1 (hfind ▸ Option.some_ne_none w)
    -- The second hash has all keys of the first one, and as it is no longer, it has no others.
    have hkeys : ∀ key, key ∈ Assoc.keys xs ↔ key ∈ Assoc.keys ys := fun key =>
      ⟨fun hmem => hsubset hmem,
        fun hmem => Assoc.keys_subset_of_length_eq hxs hlength hsubset hmem⟩
    refine ⟨under_none_iff.2 hkeys, ?_⟩
    intro key v w hv hw
    rcases hentries key v (Assoc.mem_of_find? hv) with ⟨w', hw', hsame⟩
    have heq : w = w' := Option.some.inj (hw.symm.trans hw')
    rw [heq]
    exact hsame
  · intro h
    have hperm := (List.perm_ext_iff_of_nodup hxs hys).2 (under_none_iff.1 h.none_iff)
    refine ⟨by simpa using hperm.length_eq, ?_⟩
    intro key v hmem
    exact h.exists_of_some (Assoc.find?_of_mem hxs hmem)

theorem Built.of_under {id : Identity} {entries : List (Key × Value)}
    (h : (Value.hash id entries).Built) {key : Key} {v : Value} (hfind : under entries key = some v) :
    v.Built := by
  rcases h.of_hash with ⟨inserts, rfl, hvalues⟩
  exact hvalues _ (Assoc.mem_of_find?_insertAll hfind)

theorem mem_of_nth {vs : List Value} {n : Nat} {v : Value} (h : nth vs n = some v) : v ∈ vs :=
  List.mem_of_getElem? h

/-! ## Kind by kind -/

theorem same_iff_of_plain {v w : Value} (h : v.Plain) : Same v w ↔ v = w := by
  cases v with
  | array _ _ => exact h.elim
  | hash _ _ => exact h.elim
  | function _ _ => exact h.elim
  | closure _ _ _ => exact h.elim
  | _ => simp [Same, same]

theorem same_function_iff {id : Identity} {f : Function} {w : Value} :
    Same (function id f) w ↔ ∃ j, w = function j f := by
  cases w with
  | function j g => simp [Same, same, @eq_comm _ f g]
  | _ => simp [Same, same]

theorem same_array_iff {id : Identity} {xs : Array Value} {w : Value} :
    Same (array id xs) w ↔ ∃ j ys, w = array j ys ∧ Alike (nth xs.toList) (nth ys.toList) := by
  cases w with
  | array j ys => simp [Same, same, sameList_iff]
  | _ => simp [Same, same]

theorem same_closure_iff {id : Identity} {f : Function} {xs : List Value} {w : Value} :
    Same (closure id f xs) w ↔ ∃ j ys, w = closure j f ys ∧ Alike (nth xs) (nth ys) := by
  cases w with
  | closure j g ys => simp [Same, same, sameList_iff, @eq_comm _ f g]
  | _ => simp [Same, same]

theorem same_hash_iff {id : Identity} {xs : List (Key × Value)} {w : Value}
    (hw : w.Built) :
    Same (hash id (Assoc.insertAll [] xs)) w ↔ ∃ j ys, w = hash j (Assoc.insertAll [] ys) ∧
      Alike (under (Assoc.insertAll [] xs)) (under (Assoc.insertAll [] ys)) := by
  have hxs := (Assoc.ordered_insertAll xs).nodup
  constructor
  · intro h
    cases w with
    | hash j entries =>
        rcases hw.of_hash with ⟨ys, rfl, -⟩
        exact ⟨j, ys, rfl, (same_hashes_iff hxs (Assoc.ordered_insertAll ys).nodup).1 h⟩
    | _ => simp [Same, same] at h
  · rintro ⟨j, ys, rfl, h⟩
    exact (same_hashes_iff hxs (Assoc.ordered_insertAll ys).nodup).2 h

/-! ## An equivalence -/

theorem Same.refl {v : Value} (hv : v.Built) : Same v v := by
  induction hv with
  | plain h => exact (same_iff_of_plain h).2 rfl
  | function id body => exact same_function_iff.2 ⟨id, rfl⟩
  | array _ ih =>
      refine same_array_iff.2 ⟨_, _, rfl, .refl fun n v hv => ?_⟩
      exact ih v (Array.mem_toList_iff.1 (mem_of_nth hv))
  | hash hvalues ih =>
      refine (same_hash_iff (.hash hvalues)).2 ⟨_, _, rfl, .refl fun key v hv => ?_⟩
      exact ih (key, v) (Assoc.mem_of_find?_insertAll hv)
  | closure _ ih =>
      exact same_closure_iff.2 ⟨_, _, rfl, .refl fun n v hv => ih v (mem_of_nth hv)⟩

theorem Same.symm {v w : Value} (hv : v.Built) (hw : w.Built) (h : Same v w) : Same w v := by
  induction hv generalizing w with
  | plain hplain =>
      obtain rfl := (same_iff_of_plain hplain).1 h
      exact h
  | function id body =>
      rcases same_function_iff.1 h with ⟨j, rfl⟩
      exact same_function_iff.2 ⟨id, rfl⟩
  | array _ ih =>
      rcases same_array_iff.1 h with ⟨j, ys, rfl, halike⟩
      refine same_array_iff.2 ⟨_, _, rfl, halike.symm fun n x y hx hy => ?_⟩
      exact ih x (Array.mem_toList_iff.1 (mem_of_nth hx)) (hw.of_array y (mem_of_nth hy))
  | hash hvalues ih =>
      rcases (same_hash_iff hw).1 h with ⟨j, ys, rfl, halike⟩
      refine (same_hash_iff (.hash hvalues)).2 ⟨_, _, rfl, halike.symm fun key x y hx hy => ?_⟩
      exact ih (key, x) (Assoc.mem_of_find?_insertAll hx) (hw.of_under hy)
  | closure _ ih =>
      rcases same_closure_iff.1 h with ⟨j, ys, rfl, halike⟩
      refine same_closure_iff.2 ⟨_, _, rfl, halike.symm fun n x y hx hy => ?_⟩
      exact ih x (mem_of_nth hx) (hw.of_closure y (mem_of_nth hy))

theorem Same.trans {u v w : Value} (hu : u.Built) (hv : v.Built) (hw : w.Built) (huv : Same u v)
    (hvw : Same v w) : Same u w := by
  induction hu generalizing v w with
  | plain hplain =>
      obtain rfl := (same_iff_of_plain hplain).1 huv
      exact hvw
  | function id body =>
      rcases same_function_iff.1 huv with ⟨j, rfl⟩
      exact same_function_iff.2 (same_function_iff.1 hvw)
  | array _ ih =>
      rcases same_array_iff.1 huv with ⟨j, ys, rfl, hxy⟩
      rcases same_array_iff.1 hvw with ⟨k, zs, rfl, hyz⟩
      refine same_array_iff.2 ⟨_, _, rfl, hxy.trans hyz fun n x y z hx hy hz => ?_⟩
      exact ih x (Array.mem_toList_iff.1 (mem_of_nth hx)) (hv.of_array y (mem_of_nth hy))
        (hw.of_array z (mem_of_nth hz))
  | hash hvalues ih =>
      rcases (same_hash_iff hv).1 huv with ⟨j, ys, rfl, hxy⟩
      rcases (same_hash_iff hw).1 hvw with ⟨k, zs, rfl, hyz⟩
      refine (same_hash_iff hw).2 ⟨_, _, rfl, hxy.trans hyz fun key x y z hx hy hz => ?_⟩
      exact ih (key, x) (Assoc.mem_of_find?_insertAll hx) (hv.of_under hy) (hw.of_under hz)
  | closure _ ih =>
      rcases same_closure_iff.1 huv with ⟨j, ys, rfl, hxy⟩
      rcases same_closure_iff.1 hvw with ⟨k, zs, rfl, hyz⟩
      refine same_closure_iff.2 ⟨_, _, rfl, hxy.trans hyz fun n x y z hx hy hz => ?_⟩
      exact ih x (mem_of_nth hx) (hv.of_closure y (mem_of_nth hy)) (hw.of_closure z (mem_of_nth hz))

/-! ## Keys -/

theorem eq_value_of_key? {v : Value} {key : Key} (h : v.key? = some key) : v = key.value := by
  cases v with
  | int n =>
      cases h
      rfl
  | bool b =>
      cases h
      rfl
  | str s =>
      cases h
      rfl
  | _ => cases h

theorem same_iff_eq_of_key? {v w : Value} (hv : v.key? ≠ none) : Same v w ↔ v = w := by
  cases v with
  | int n => exact same_iff_of_plain trivial
  | bool b => exact same_iff_of_plain trivial
  | str s => exact same_iff_of_plain trivial
  | _ => exact absurd rfl hv

/-- Values that are keys have the same contents if they are the same key. -/
theorem same_iff_key?_eq {v w : Value} (hv : v.key? ≠ none) : Same v w ↔ v.key? = w.key? := by
  rw [same_iff_eq_of_key? hv]
  constructor
  · rintro rfl
    rfl
  · intro heq
    cases hkey : v.key? with
    | none => exact absurd hkey hv
    | some key => rw [eq_value_of_key? hkey, eq_value_of_key? (heq.symm.trans hkey)]

/-- Equality of contents is an equivalence, and identical values are equal. Hashes are equal exactly
if they have the same keys and equal values under each, in whatever order they were built. Values
that can be keys are equal exactly if they are identical, and exactly if they are the same key. -/
theorem same_equivalence :
    (Equivalence fun v w : { v : Value // v.Built } => same v.1 w.1 = true) ∧
      (∀ v w : Value, v.Built → identical v w = true → same v w = true) ∧
      (∀ (i j : Identity) (inserts others : List (Key × Value)) (xs ys : List (Key × Value)),
        xs = Assoc.insertAll [] inserts → ys = Assoc.insertAll [] others →
          (same (hash i xs) (hash j ys) = true ↔
            (∀ key, key ∈ Assoc.keys xs ↔ key ∈ Assoc.keys ys) ∧
              ∀ key x y, Assoc.find? key xs = some x → Assoc.find? key ys = some y →
                same x y = true)) ∧
      ∀ v w : Value, v.key? ≠ none → w.key? ≠ none →
        (same v w = true ↔ identical v w = true) ∧ (same v w = true ↔ v.key? = w.key?) := by
  refine ⟨?_, ?_, ?_, ?_⟩
  · exact
      { refl := fun v => Same.refl v.2
        symm := fun {v w} => Same.symm v.2 w.2
        trans := fun {u v w} => Same.trans u.2 v.2 w.2 }
  · intro v w hv hidentical
    rw [← (identical_iff v w).1 hidentical]
    exact Same.refl hv
  · rintro i j inserts others _ _ rfl rfl
    have halike := same_hashes_iff (i := i) (j := j) (Assoc.ordered_insertAll inserts).nodup
      (Assoc.ordered_insertAll others).nodup
    rw [← under_none_iff]
    exact halike.trans ⟨fun h => ⟨h.none_iff, h.same⟩, fun h => ⟨h.1, h.2⟩⟩
  · intro v w hv _
    rw [identical_iff]
    exact ⟨same_iff_eq_of_key? hv, same_iff_key?_eq hv⟩

/-- Two hashes that were built in different orders, one of them with an insert that another one
replaces, around arrays and closures of their own. They have the same keys, and the keys of a number
and of its digits differ. -/
theorem same_equivalence_of_reordered :
    ∃ (inserts others : List (Key × Value)) (v w : Value),
      inserts = [(.int 1, null), (.str "1", array (.created 1) #[bool true]),
        (.int 1, closure (.created 2) ⟨#[], 0, 0⟩ [int 5])] ∧
      others = [(.str "1", array (.created 4) #[bool true]),
        (.int 1, closure (.created 5) ⟨#[], 0, 0⟩ [int 5])] ∧
      v = hash (.created 0) (Assoc.insertAll [] inserts) ∧
      w = hash (.created 3) (Assoc.insertAll [] others) ∧
      v.Built ∧ w.Built ∧ identical v w = false ∧ same v w = true ∧ same w v = true ∧
      identical v v = true ∧ same v v = true ∧
      (∀ key, key ∈ Assoc.keys (Assoc.insertAll [] inserts) ↔
        key ∈ Assoc.keys (Assoc.insertAll [] others)) ∧
      (int 1).key? ≠ (str "1").key? ∧ same (int 1) (str "1") ≠ true := by
  have htrue : (bool true).Built := .plain trivial
  have hfive : (int 5).Built := .plain trivial
  have harray (id : Identity) : (array id #[bool true]).Built := .array (by simpa using htrue)
  have hclosure (id : Identity) : (closure id ⟨#[], 0, 0⟩ [int 5]).Built :=
    .closure (by simpa using hfive)
  have hv : (hash (.created 0) (Assoc.insertAll [] [(.int 1, null),
      (.str "1", array (.created 1) #[bool true]),
      (.int 1, closure (.created 2) ⟨#[], 0, 0⟩ [int 5])])).Built := .hash (by
    simpa using ⟨Built.plain trivial, harray _, hclosure _⟩)
  have hw : (hash (.created 3) (Assoc.insertAll [] [(.str "1", array (.created 4) #[bool true]),
      (.int 1, closure (.created 5) ⟨#[], 0, 0⟩ [int 5])])).Built := .hash (by
    simpa using ⟨harray _, hclosure _⟩)
  have hsame : same (hash (.created 0) (Assoc.insertAll [] [(.int 1, null),
      (.str "1", array (.created 1) #[bool true]),
      (.int 1, closure (.created 2) ⟨#[], 0, 0⟩ [int 5])]))
      (hash (.created 3) (Assoc.insertAll [] [(.str "1", array (.created 4) #[bool true]),
        (.int 1, closure (.created 5) ⟨#[], 0, 0⟩ [int 5])])) = true := by decide +kernel
  have hidentical := (identical_iff _ _).2 (rfl : hash (.created 0) (Assoc.insertAll [] [(.int 1, null),
    (.str "1", array (.created 1) #[bool true]),
    (.int 1, closure (.created 2) ⟨#[], 0, 0⟩ [int 5])]) = _)
  have hkeys : (int 1).key? ≠ (str "1").key? := by decide
  rcases same_equivalence with ⟨hequivalence, hrefines, hhashes, hplain⟩
  refine ⟨_, _, _, _, rfl, rfl, rfl, rfl, hv, hw, by decide +kernel, hsame, ?_, hidentical,
    hrefines _ _ hv hidentical, ((hhashes _ _ _ _ _ _ rfl rfl).1 hsame).1, hkeys, ?_⟩
  · exact hequivalence.symm (x := ⟨_, hv⟩) (y := ⟨_, hw⟩) hsame
  · intro hequal
    exact hkeys ((hplain (int 1) (str "1") (by decide) (by decide)).2.1 hequal)

end Value

end MonkeyMachine
