import Mathlib.Data.Finset.Card
import MonkeyMachine.Assoc

/-!
# Associations as ordered maps

What a sequence of inserts into an empty association leaves. `Assoc.Ordered inserts entries` says it
without running them: `entries` has the keys that were inserted, in the order of their first inserts,
each with the value of its last insert. One insert keeps this (`Ordered.insert`), so it is true of any
number of them (`ordered_insertAll`).

An association can also be kept in two containers, the entries in order and beside them the position
of each key, so that no search is needed. `Indexed` is that form. Its containers stay in step
(`Indexed.Coherent`), and its entries are those of the plain association.
-/

namespace MonkeyMachine

namespace Assoc

variable {κ ν : Type}

/-- The keys, in the order of the entries. -/
def keys (entries : List (κ × ν)) : List κ := entries.map Prod.fst

@[simp]
theorem keys_cons (entry : κ × ν) (entries : List (κ × ν)) :
    keys (entry :: entries) = entry.1 :: keys entries := rfl

@[simp]
theorem keys_append (entries more : List (κ × ν)) :
    keys (entries ++ more) = keys entries ++ keys more := List.map_append

@[simp]
theorem length_keys (entries : List (κ × ν)) : (keys entries).length = entries.length :=
  List.length_map ..

theorem mem_keys_of_mem {entry : κ × ν} {entries : List (κ × ν)} (h : entry ∈ entries) :
    entry.1 ∈ keys entries := List.mem_map_of_mem h

variable [DecidableEq κ]

/-! ## Finding and inserting -/

theorem find?_ne_none_iff {key : κ} {entries : List (κ × ν)} :
    find? key entries ≠ none ↔ key ∈ entries.map Prod.fst := by
  induction entries with
  | nil => simp [find?]
  | cons entry rest ih =>
      by_cases h : entry.1 = key
      · simp [find?, h]
      · simp [find?, h, Ne.symm h, ih]

/-- When no key stands twice, every entry is found. -/
theorem find?_of_mem {key : κ} {value : ν} {entries : List (κ × ν)} (hnodup : (keys entries).Nodup)
    (h : (key, value) ∈ entries) : find? key entries = some value := by
  induction entries with
  | nil => cases h
  | cons entry rest ih =>
      rcases List.nodup_cons.1 hnodup with ⟨hfresh, hrest⟩
      rcases List.mem_cons.1 h with rfl | h
      · simp [find?]
      · have hkey : key ∈ keys rest := mem_keys_of_mem h
        have hne : entry.1 ≠ key := fun heq => hfresh (heq ▸ hkey)
        simp [find?, hne, ih hrest h]

theorem insert_of_not_mem {key : κ} {entries : List (κ × ν)} (h : key ∉ keys entries) (value : ν) :
    insert key value entries = entries ++ [(key, value)] := by
  induction entries with
  | nil => rfl
  | cons entry rest ih =>
      have hne : entry.1 ≠ key := by
        rintro rfl
        exact h List.mem_cons_self
      simp [insert, hne, ih fun hrest => h (List.mem_cons_of_mem _ hrest)]

theorem insert_of_getElem? {key : κ} {entries : List (κ × ν)} {position : Nat}
    (hnodup : (keys entries).Nodup) (h : (keys entries)[position]? = some key) (value : ν) :
    insert key value entries = entries.set position (key, value) := by
  induction entries generalizing position with
  | nil => cases h
  | cons entry rest ih =>
      rcases List.nodup_cons.1 hnodup with ⟨hfresh, hrest⟩
      cases position with
      | zero =>
          have hkey : entry.1 = key := by simpa using h
          simp [insert, hkey]
      | succ position =>
          have hne : entry.1 ≠ key := by
            rintro rfl
            exact hfresh (List.mem_of_getElem? h)
          simp [insert, hne, ih hrest h]

theorem keys_insert_of_mem {key : κ} {entries : List (κ × ν)} (h : key ∈ keys entries) (value : ν) :
    keys (insert key value entries) = keys entries := by
  induction entries with
  | nil => cases h
  | cons entry rest ih =>
      by_cases hkey : entry.1 = key
      · simp [insert, hkey]
      · have hrest : key ∈ keys rest := by simpa [Ne.symm hkey] using h
        simpa [insert, hkey] using ih hrest

/-! ## Sequences of inserts -/

/-- Inserts one after another. -/
def insertAll (entries inserts : List (κ × ν)) : List (κ × ν) :=
  inserts.foldl (fun entries i => insert i.1 i.2 entries) entries

theorem insertAll_concat (entries inserts : List (κ × ν)) (i : κ × ν) :
    insertAll entries (inserts ++ [i]) = insert i.1 i.2 (insertAll entries inserts) := by
  simp [insertAll]

/-- The value of the last insert with the key. -/
def last? (key : κ) (inserts : List (κ × ν)) : Option ν :=
  (inserts.filter fun i => i.1 = key).getLast?.map Prod.snd

theorem last?_concat (key : κ) (inserts : List (κ × ν)) (i : κ × ν) :
    last? key (inserts ++ [i]) = if i.1 = key then some i.2 else last? key inserts := by
  by_cases h : i.1 = key
  · simp [last?, h]
  · simp [last?, h]

/-- The entries are those that the inserts make of an empty association. -/
structure Ordered (inserts entries : List (κ × ν)) : Prop where
  /-- A key has an entry exactly if it was inserted. -/
  mem_keys : ∀ key, key ∈ keys entries ↔ key ∈ keys inserts
  /-- The key that was first inserted earlier has the earlier entry. -/
  order : (keys entries).Pairwise fun k l => (keys inserts).idxOf k < (keys inserts).idxOf l
  find? : ∀ key, find? key entries = last? key inserts

namespace Ordered

variable {inserts entries : List (κ × ν)}

theorem nodup (h : Ordered inserts entries) : (keys entries).Nodup :=
  h.order.imp fun hlt heq => by
    rw [heq] at hlt
    exact Nat.lt_irrefl _ hlt

/-- There are as many entries as different keys. -/
theorem length (h : Ordered inserts entries) : entries.length = (keys inserts).toFinset.card := by
  have hkeys : (keys inserts).toFinset = (keys entries).toFinset := by
    ext key
    simpa using (h.mem_keys key).symm
  rw [hkeys, List.toFinset_card_of_nodup h.nodup, length_keys]

/-- There is one entry for each key, with the value of the last insert. -/
theorem mem_iff (h : Ordered inserts entries) (key : κ) (value : ν) :
    (key, value) ∈ entries ↔ last? key inserts = some value := by
  rw [← h.find? key]
  exact ⟨find?_of_mem h.nodup, mem_of_find?⟩

/-- One more insert. -/
theorem insert (h : Ordered inserts entries) (key : κ) (value : ν) :
    Ordered (inserts ++ [(key, value)]) (Assoc.insert key value entries) := by
  -- Places in the old sequence are places in the new one.
  have hplace : ∀ k ∈ keys entries,
      (keys (inserts ++ [(key, value)])).idxOf k = (keys inserts).idxOf k := by
    intro k hk
    rw [keys_append]
    exact List.idxOf_append_of_mem ((h.mem_keys k).1 hk)
  have hold : (keys entries).Pairwise fun k l =>
      (keys (inserts ++ [(key, value)])).idxOf k < (keys (inserts ++ [(key, value)])).idxOf l := by
    refine h.order.imp_of_mem ?_
    intro k l hk hl hlt
    rw [hplace k hk, hplace l hl]
    exact hlt
  have hfind : ∀ other, Assoc.find? other (Assoc.insert key value entries) =
      last? other (inserts ++ [(key, value)]) := by
    intro other
    rw [last?_concat]
    by_cases hother : key = other
    · subst hother
      simp
    · rw [if_neg hother, find?_insert_of_ne (Ne.symm hother), h.find?]
  by_cases hkey : key ∈ keys entries
  · have hkeys := keys_insert_of_mem hkey value
    refine ⟨?_, ?_, hfind⟩
    · intro k
      have hinserted := (h.mem_keys key).1 hkey
      rw [hkeys, h.mem_keys, keys_append, List.mem_append]
      constructor
      · exact .inl
      · rintro (hk | hk)
        · exact hk
        · rw [List.mem_singleton.1 hk]
          exact hinserted
    · rw [hkeys]
      exact hold
  · have hkeys : keys (Assoc.insert key value entries) = keys entries ++ [key] := by
      rw [insert_of_not_mem hkey, keys_append]
      rfl
    refine ⟨?_, ?_, hfind⟩
    · intro k
      rw [hkeys, keys_append, List.mem_append, List.mem_append, h.mem_keys]
      rfl
    · rw [hkeys]
      refine List.pairwise_append.2 ⟨hold, List.pairwise_singleton .., ?_⟩
      intro k hk l hl
      rw [List.mem_singleton.1 hl, hplace k hk, keys_append,
        List.idxOf_append_of_notMem fun hmem => hkey ((h.mem_keys key).2 hmem)]
      exact Nat.lt_add_right _ (List.idxOf_lt_length_of_mem ((h.mem_keys k).1 hk))

end Ordered

theorem ordered_insertAll (inserts : List (κ × ν)) : Ordered inserts (insertAll [] inserts) := by
  induction inserts using List.reverseRecOn with
  | nil => exact ⟨fun _ => Iff.rfl, .nil, fun _ => rfl⟩
  | append_singleton inserts i ih =>
      rw [insertAll_concat]
      exact ih.insert i.1 i.2

/-! ## Positions -/

/-- An association in two containers. -/
structure Indexed (κ ν : Type) where
  /-- Where the entry of a key stands. -/
  positions : κ → Option Nat
  entries : List (κ × ν)

namespace Indexed

def empty : Indexed κ ν := { positions := fun _ => none, entries := [] }

/-- Put an entry in the place of the earlier one with the same key, or behind all others. -/
def insert (key : κ) (value : ν) (table : Indexed κ ν) : Indexed κ ν :=
  match table.positions key with
  | some position => { table with entries := table.entries.set position (key, value) }
  | none =>
      { positions := fun k => if k = key then some table.entries.length else table.positions k
        entries := table.entries ++ [(key, value)] }

/-- The value in the entry that the position of the key points to. -/
def get? (key : κ) (table : Indexed κ ν) : Option ν :=
  (table.positions key).bind fun position => table.entries[position]?.map Prod.snd

/-- Inserts one after another into an empty table. -/
def ofInserts (inserts : List (κ × ν)) : Indexed κ ν :=
  inserts.foldl (fun table i => table.insert i.1 i.2) empty

/-- The positions are those of the keys in the entries. -/
def Coherent (table : Indexed κ ν) : Prop :=
  ∀ key position, table.positions key = some position ↔ (keys table.entries)[position]? = some key

namespace Coherent

variable {table : Indexed κ ν}

omit [DecidableEq κ] in
theorem lt_length (h : table.Coherent) {key : κ} {position : Nat}
    (hposition : table.positions key = some position) : position < table.entries.length := by
  have hget := (h key position).1 hposition
  simpa using (List.getElem?_eq_some_iff.1 hget).1

omit [DecidableEq κ] in
theorem key_unique (h : table.Coherent) {k l : κ} {position : Nat}
    (hk : table.positions k = some position) (hl : table.positions l = some position) : k = l := by
  have hget := (h k position).1 hk
  rw [(h l position).1 hl] at hget
  exact (Option.some.inj hget).symm

omit [DecidableEq κ] in
theorem nodup (h : table.Coherent) : (keys table.entries).Nodup := by
  refine List.nodup_iff_getElem?_ne_getElem?.2 ?_
  intro p q hlt hlength heq
  have hq := List.getElem?_eq_getElem hlength
  -- One key would have both positions.
  have hboth := (h _ p).2 (heq.trans hq)
  rw [(h _ q).2 hq] at hboth
  exact Nat.ne_of_lt hlt (Option.some.inj hboth).symm

omit [DecidableEq κ] in
theorem not_mem_of_none (h : table.Coherent) {key : κ} (hnone : table.positions key = none) :
    key ∉ keys table.entries := by
  intro hmem
  rcases List.mem_iff_getElem?.1 hmem with ⟨position, hget⟩
  rw [(h key position).2 hget] at hnone
  cases hnone

theorem entries_insert (h : table.Coherent) (key : κ) (value : ν) :
    (table.insert key value).entries = Assoc.insert key value table.entries := by
  unfold Indexed.insert
  cases hposition : table.positions key with
  | some position =>
      exact (insert_of_getElem? h.nodup ((h key position).1 hposition) value).symm
  | none => exact (insert_of_not_mem (h.not_mem_of_none hposition) value).symm

theorem insert (h : table.Coherent) (key : κ) (value : ν) : (table.insert key value).Coherent := by
  intro k q
  rw [h.entries_insert]
  unfold Indexed.insert
  cases hposition : table.positions key with
  | some position =>
      have hmem : key ∈ keys table.entries := List.mem_of_getElem? ((h key position).1 hposition)
      rw [keys_insert_of_mem hmem]
      exact h k q
  | none =>
      have hfresh := h.not_mem_of_none hposition
      rw [insert_of_not_mem hfresh, keys_append]
      show (if k = key then some table.entries.length else table.positions k) = some q ↔
        (keys table.entries ++ [key])[q]? = some k
      rcases Nat.lt_trichotomy q table.entries.length with hlt | rfl | hgt
      · -- An old place. No old key is the new one.
        rw [List.getElem?_append_left ((length_keys _).symm ▸ hlt), ← h k q]
        by_cases hk : k = key
        · simp [hk, Nat.ne_of_gt hlt, hposition]
        · rw [if_neg hk]
      · -- The new place, where no old entry stands.
        have hold : table.positions k ≠ some table.entries.length := fun hk =>
          Nat.lt_irrefl _ (h.lt_length hk)
        rw [← length_keys, List.getElem?_concat_length]
        by_cases hk : k = key
        · simp [hk]
        · simp [hk, hold, Ne.symm hk]
      · have hold : table.positions k ≠ some q := fun hk =>
          Nat.lt_asymm hgt (h.lt_length hk)
        rw [List.getElem?_eq_none (by simpa using Nat.succ_le_of_lt hgt)]
        by_cases hk : k = key
        · simp [hk, Nat.ne_of_lt hgt]
        · simp [hk, hold]

theorem get?_eq (h : table.Coherent) (key : κ) : table.get? key = find? key table.entries := by
  unfold get?
  cases hposition : table.positions key with
  | none =>
      have hnone : find? key table.entries = none := by
        by_contra hfound
        exact h.not_mem_of_none hposition (find?_ne_none_iff.1 hfound)
      rw [hnone]
      rfl
  | some position =>
      have hget := (h key position).1 hposition
      rw [keys, List.getElem?_map] at hget
      rcases Option.map_eq_some_iff.1 hget with ⟨⟨k, value⟩, hentry, rfl⟩
      rw [find?_of_mem h.nodup (List.mem_of_getElem? hentry)]
      simp [hentry]

end Coherent

/-- The two containers stay in step, and the entries are those of the plain association. -/
theorem ofInserts_coherent (inserts : List (κ × ν)) :
    (ofInserts inserts).Coherent ∧ (ofInserts inserts).entries = insertAll [] inserts := by
  induction inserts using List.reverseRecOn with
  | nil => exact ⟨fun key position => by simp [ofInserts, empty], rfl⟩
  | append_singleton inserts i ih =>
      rcases ih with ⟨hcoherent, hentries⟩
      have hconcat : ofInserts (inserts ++ [i]) = (ofInserts inserts).insert i.1 i.2 := by
        simp [ofInserts]
      rw [hconcat]
      refine ⟨hcoherent.insert i.1 i.2, ?_⟩
      rw [hcoherent.entries_insert, hentries, insertAll_concat]

end Indexed

end Assoc

end MonkeyMachine
