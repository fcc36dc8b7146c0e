import MonkeyMachine.Machine.Step
import MonkeyMachine.Proofs.Acts
import MonkeyMachine.Proofs.ValueEquality

/-!
# Hash literals

What the instruction for a hash literal makes of the keys and values that lie on the stack, and what
is found in the hash afterwards. The keys are looked at from the first to the last, and the first that
cannot be a key is reported. If there is none, the pairs are inserted one after another, so that the
last pair with a key counts and the first one gives the place.
-/

namespace MonkeyMachine

namespace Value

/-! ## Pairs -/

/-- The complete pairs of keys and values that are given in turn. -/
def pairs : List Value → List (Value × Value)
  | k :: v :: rest => (k, v) :: pairs rest
  | _ => []

/-- The pairs whose keys can be keys, as inserts. -/
def inserts (ps : List (Value × Value)) : List (Key × Value) :=
  ps.filterMap fun p => p.1.key?.map fun key => (key, p.2)

/-- Every key can be a key. -/
def Usable (ps : List (Value × Value)) : Prop := ∀ p ∈ ps, p.1.key? ≠ none

/-- The first key that cannot be a key is of the given kind. -/
def FirstUnusable (ps : List (Value × Value)) (kind : Kind) : Prop :=
  ∃ before k v after, ps = before ++ (k, v) :: after ∧ Usable before ∧ k.key? = none ∧ k.kind = kind

theorem addEntries_of_short (entries : List (Key × Value)) {values : List Value}
    (h : ∀ k v rest, values ≠ k :: v :: rest) : addEntries entries values = .ok entries := by
  rcases values with _ | ⟨k, _ | ⟨v, rest⟩⟩
  · rfl
  · rfl
  · exact absurd rfl (h k v rest)

theorem addEntries_of_usable (entries : List (Key × Value)) {values : List Value}
    (h : Usable (pairs values)) :
    addEntries entries values = .ok (Assoc.insertAll entries (inserts (pairs values))) := by
  fun_induction pairs values generalizing entries with
  | case1 k v rest ih =>
      cases hkey : k.key? with
      | none => exact absurd hkey (h (k, v) List.mem_cons_self)
      | some key =>
          have hrest := ih (Assoc.insert key v entries) fun p hp => h p (List.mem_cons_of_mem _ hp)
          simp [addEntries, hkey, hrest, inserts, Assoc.insertAll]
  | case2 values hshort => exact addEntries_of_short entries hshort

theorem addEntries_of_unusable (entries : List (Key × Value)) {values : List Value} {kind : Kind}
    (h : FirstUnusable (pairs values) kind) :
    addEntries entries values = .error (.unusableHashKey kind) := by
  fun_induction pairs values generalizing entries with
  | case1 k v rest ih =>
      rcases h with ⟨before, k', v', after, heq, hbefore, hnone, hkind⟩
      cases before with
      | nil =>
          cases heq
          simp [addEntries, hnone, hkind]
      | cons first before =>
          rcases List.cons_eq_cons.1 heq with ⟨rfl, hrest⟩
          cases hkey : k.key? with
          | none => exact absurd hkey (hbefore (k, v) List.mem_cons_self)
          | some key =>
              simp only [addEntries, hkey]
              refine ih _ ⟨before, k', v', after, hrest, ?_, hnone, hkind⟩
              exact fun p hp => hbefore p (List.mem_cons_of_mem _ hp)
  | case2 values hshort =>
      rcases h with ⟨before, k, v, after, heq, -⟩
      simp at heq

/-- Either all keys can be keys or there is a first one that cannot. -/
theorem usable_or_firstUnusable (ps : List (Value × Value)) :
    Usable ps ∨ ∃ kind, FirstUnusable ps kind := by
  cases hfind : ps.find? fun p => p.1.key?.isNone with
  | none => exact .inl fun p hp => by simpa using List.find?_eq_none.1 hfind p hp
  | some p =>
      rcases List.find?_eq_some_iff_append.1 hfind with ⟨hnone, before, after, heq, hbefore⟩
      refine .inr ⟨p.1.kind, before, p.1, p.2, after, heq, ?_, by simpa using hnone, rfl⟩
      intro q hq
      simpa [Option.ne_none_iff_isSome] using hbefore q hq

/-! ## Finding -/

/-- The value of the last pair whose key has the contents of `k`. -/
def lastUnder (k : Value) (ps : List (Value × Value)) : Option Value :=
  (ps.filter fun p => same p.1 k).getLast?.map Prod.snd

theorem last?_inserts {ps : List (Value × Value)} {k : Value} {key : Key} (h : Usable ps)
    (hk : k.key? = some key) : Assoc.last? key (inserts ps) = lastUnder k ps := by
  induction ps using List.reverseRecOn with
  | nil => rfl
  | append_singleton ps p ih =>
      have hrest := ih fun q hq => h q (List.mem_append_left _ hq)
      have hp := h p (by simp)
      cases hkey : p.1.key? with
      | none => exact absurd hkey hp
      | some key' =>
          have hsplit : inserts (ps ++ [p]) = inserts ps ++ [(key', p.2)] := by
            simp [inserts, hkey]
          -- Keys are equal exactly if the values that they stand for are.
          have hsame : same p.1 k = true ↔ key' = key :=
            (same_iff_key?_eq hp).trans (by rw [hkey, hk, Option.some.injEq])
          rw [hsplit, Assoc.last?_concat, hrest]
          by_cases heq : key' = key
          · simp [lastUnder, heq, hsame.2 heq]
          · have hdiffers : same p.1 k = false := by
              simpa [heq] using hsame
            simp [lastUnder, heq, hdiffers]

theorem indexing_insertAll {ps : List (Value × Value)} {k : Value} (h : Usable ps)
    (hk : k.key? ≠ none) (id : Identity) :
    indexing (hash id (Assoc.insertAll [] (inserts ps))) k = .ok ((lastUnder k ps).getD null) := by
  cases hkey : k.key? with
  | none => exact absurd hkey hk
  | some key =>
      rw [← last?_inserts h hkey, ← (Assoc.ordered_insertAll (inserts ps)).find?]
      simp [indexing, hkey]

end Value

/-! ## The instruction -/

namespace Exec

variable {m m₁ : Machine} {count : Nat} {values : List Value}

theorem makeHash_of_usable (h : popMany count m = .ok values m₁)
    (husable : Value.Usable (Value.pairs values)) :
    makeHash count m =
      push (.hash (.created m₁.created)
        (Assoc.insertAll [] (Value.inserts (Value.pairs values))))
        { m₁ with created := m₁.created + 1 } := by
  rw [makeHash, act_bind_of_ok h, Value.addEntries_of_usable [] husable]
  rfl

theorem makeHash_of_unusable (h : popMany count m = .ok values m₁) {kind : Kind}
    (hfirst : Value.FirstUnusable (Value.pairs values) kind) :
    makeHash count m = .error (.unusableHashKey kind) m₁ := by
  rw [makeHash, act_bind_of_ok h, Value.addEntries_of_unusable [] hfirst]
  rfl

theorem push_ne_unusableHashKey (v : Value) (m m' : Machine) (kind : Kind) :
    push v m ≠ .error (.unusableHashKey kind) m' := by
  by_cases hroom : m.stack.height < m.stack.items.size
  · simp [push, onStack_apply, Stack.push, hroom]
  · simp [push, onStack_apply, Stack.push, hroom]

/-- The instruction reports the first key that cannot be a key, and no other. -/
theorem makeHash_eq_error_iff (h : popMany count m = .ok values m₁) (kind : Kind) :
    makeHash count m = .error (.unusableHashKey kind) m₁ ↔
      Value.FirstUnusable (Value.pairs values) kind := by
  constructor
  · intro herror
    rcases Value.usable_or_firstUnusable (Value.pairs values) with husable | ⟨kind', hfirst⟩
    · rw [makeHash_of_usable h husable] at herror
      exact absurd herror (push_ne_unusableHashKey _ _ _ _)
    · rw [makeHash_of_unusable h hfirst] at herror
      cases herror
      exact hfirst
  · exact makeHash_of_unusable h

end Exec

/-- Hashes are maps that keep the order of inserts, whatever is kept under their keys. Positions are
places of entries, and different keys have different ones. There are as many entries as keys were
inserted, in the order of their first inserts, each with the value of its last insert. So a hash
literal fails exactly if one of its keys cannot be a key, with the kind of the first such one, and
otherwise a key finds the value of the last pair whose key equals it, or null. -/
theorem Value.hash_ordered :
    (∀ (ν : Type) (inserts entries : List (Key × ν)) (table : Assoc.Indexed Key ν),
      entries = Assoc.insertAll [] inserts → table = .ofInserts inserts →
        table.entries = entries ∧
        (∀ key position, table.positions key = some position → position < entries.length) ∧
        (∀ k l position, table.positions k = some position → table.positions l = some position →
          k = l) ∧
        entries.length = (Assoc.keys inserts).toFinset.card ∧
        (∀ key, table.get? key = Assoc.last? key inserts ∧
          Assoc.find? key entries = Assoc.last? key inserts) ∧
        (∀ key v, (key, v) ∈ entries ↔ Assoc.last? key inserts = some v) ∧
        (Assoc.keys entries).Pairwise fun k l =>
          (Assoc.keys inserts).idxOf k < (Assoc.keys inserts).idxOf l) ∧
    ∀ (m m₁ : Machine) (count : Nat) (values : List Value),
      Exec.popMany count m = .ok values m₁ →
        (∀ kind, Exec.makeHash count m = .error (.unusableHashKey kind) m₁ ↔
          FirstUnusable (pairs values) kind) ∧
        (Usable (pairs values) → ∃ entries,
          Exec.makeHash count m =
            Exec.push (hash (.created m₁.created) entries) { m₁ with created := m₁.created + 1 } ∧
          ∀ id k, k.key? ≠ none →
            indexing (hash id entries) k = .ok ((lastUnder k (pairs values)).getD null)) := by
  refine ⟨?_, ?_⟩
  · rintro ν inserts _ _ rfl rfl
    have hordered := Assoc.ordered_insertAll inserts
    rcases Assoc.Indexed.ofInserts_coherent inserts with ⟨hcoherent, hentries⟩
    refine ⟨hentries, ?_, fun _ _ _ => hcoherent.key_unique, hordered.length, ?_, hordered.mem_iff,
      hordered.order⟩
    · intro key position hposition
      rw [← hentries]
      exact hcoherent.lt_length hposition
    · intro key
      rw [hcoherent.get?_eq, hentries]
      exact ⟨hordered.find? key, hordered.find? key⟩
  · intro m m₁ count values hpop
    refine ⟨Exec.makeHash_eq_error_iff hpop, fun husable => ?_⟩
    exact ⟨_, Exec.makeHash_of_usable hpop husable, fun id k hk => indexing_insertAll husable hk id⟩

/-- Keys of three types that read alike, one of them twice, and at the end a key without a value. -/
theorem Value.hash_ordered_of_repeated_key :
    ∃ (m m₁ : Machine) (values : List Value) (entries : List (Key × Value)),
      values = [int 1, str "a", bool true, str "b", str "1", str "c", int 1, str "d", null] ∧
      Exec.popMany 9 m = .ok values m₁ ∧ Usable (pairs values) ∧
      Exec.makeHash 9 m =
        Exec.push (hash (.created m₁.created) entries) { m₁ with created := m₁.created + 1 } ∧
      indexing (hash (.created 0) entries) (int 1) = .ok (str "d") ∧
      indexing (hash (.created 0) entries) (bool true) = .ok (str "b") ∧
      indexing (hash (.created 0) entries) (int 2) = .ok null ∧
      ¬ ∃ kind, Exec.makeHash 9 m = .error (.unusableHashKey kind) m₁ := by
  have hpop : Exec.popMany 9
      { Machine.load ⟨#[], #[]⟩ (.ofCapacity 0) {} 0 0 with
        stack := ⟨#[int 1, str "a", bool true, str "b", str "1", str "c", int 1, str "d", null], 9⟩ } =
      .ok [int 1, str "a", bool true, str "b", str "1", str "c", int 1, str "d", null]
        { Machine.load ⟨#[], #[]⟩ (.ofCapacity 0) {} 0 0 with
          stack := ⟨#[int 1, str "a", bool true, str "b", str "1", str "c", int 1, str "d", null], 0⟩ } := by
    rfl
  have husable : Usable (pairs [int 1, str "a", bool true, str "b", str "1", str "c", int 1, str "d",
      null]) := by
    simp [Usable, pairs, key?]
  rcases hash_ordered.2 _ _ _ _ hpop with ⟨hfails, hfinds⟩
  rcases hfinds husable with ⟨entries, hmake, hindex⟩
  refine ⟨_, _, _, entries, rfl, hpop, husable, hmake, ?_, ?_, ?_, ?_⟩
  · rw [hindex _ (int 1) (by decide)]
    decide +kernel
  · rw [hindex _ (bool true) (by decide)]
    decide +kernel
  · rw [hindex _ (int 2) (by decide)]
    decide +kernel
  · rintro ⟨kind, hfailed⟩
    rcases (hfails kind).1 hfailed with ⟨before, k, v, after, heq, -, hnone, -⟩
    exact husable (k, v) (by rw [heq]; simp) hnone

end MonkeyMachine
