import MonkeyMachine.Machine.Operations
import MonkeyMachine.Proofs.CodeSoundness

/-!
# Sound values

What can be said of every value that a machine ever holds. Its functions are those of the constant
pool, with sound code and with at least as many captured values as that code asks for. And it stems
from one act of creation: a `World` keeps, for each serial number, the value that took it, so two
composite values with the same identity are the same value.

A world only grows, within a run as well as from one program of a session to the next, and a value
that is sound stays so.
-/

namespace MonkeyMachine

/-! ## Worlds -/

/-- What the values of a machine refer to. -/
structure World where
  /-- The constants. -/
  pool : List Value
  /-- Number of globals that code may name. -/
  globals : Nat
  /-- The values made so far, by serial number. There is null for a number that no value took. -/
  made : List Value

/-- A later world. -/
structure World.Extends (w w' : World) : Prop where
  pool : w.pool <+: w'.pool
  globals : w.globals ≤ w'.globals
  made : w.made <+: w'.made

namespace World

/-- The world after one more serial number has been given out. -/
def make (w : World) (v : Value) : World := { w with made := w.made ++ [v] }

theorem extends_make (w : World) (v : Value) : w.Extends (w.make v) :=
  ⟨List.prefix_refl _, Nat.le_refl _, List.prefix_append _ _⟩

theorem made_make (w : World) (v : Value) : (w.make v).made[w.made.length]? = some v := by
  simp [make]

end World

theorem getElem?_extend {α : Type} {xs ys : List α} (h : xs <+: ys) {n : Nat} {x : α}
    (hget : xs[n]? = some x) : ys[n]? = some x := by
  rcases h with ⟨more, rfl⟩
  rw [List.getElem?_append_left (List.getElem?_eq_some_iff.1 hget).1, hget]

/-! ## Values -/

inductive Value.Sound (w : World) : Value → Prop
  | int (n : Int64) : Sound w (.int n)
  | bool (b : Bool) : Sound w (.bool b)
  | null : Sound w .null
  | str (s : String) : Sound w (.str s)
  | builtin (b : Builtin) : Sound w (.builtin b)
  | array {serial : Nat} {elements : Array Value}
      (hmade : w.made[serial]? = some (.array (.created serial) elements))
      (helements : ∀ v ∈ elements, Sound w v) : Sound w (.array (.created serial) elements)
  | hash {serial : Nat} {entries : List (Key × Value)}
      (hmade : w.made[serial]? = some (.hash (.created serial) entries))
      (hentries : ∀ entry ∈ entries, Sound w entry.2) : Sound w (.hash (.created serial) entries)
  | function {index : Nat} {body : Function}
      (hpool : w.pool[index]? = some (.function (.constant index) body))
      (hfree : MonkeyMachine.freeCount body.code.instrs = 0) : Sound w (.function (.constant index) body)
  | closure {serial index : Nat} {body : Function} {free : List Value}
      (hmade : w.made[serial]? = some (.closure (.created serial) body free))
      (hpool : w.pool[index]? = some (.function (.constant index) body))
      (hfree : MonkeyMachine.freeCount body.code.instrs ≤ free.length)
      (hvalues : ∀ v ∈ free, Sound w v) : Sound w (.closure (.created serial) body free)

namespace Value

variable {w w' : World}

/-- Constants and values that have been made stay what they are. How many globals there are does not
matter to a value. -/
theorem Sound.extend {v : Value} (h : v.Sound w) (hpool : w.pool <+: w'.pool)
    (hmade : w.made <+: w'.made) : v.Sound w' := by
  induction h with
  | int n => exact .int n
  | bool b => exact .bool b
  | null => exact .null
  | str s => exact .str s
  | builtin b => exact .builtin b
  | array hserial _ ih => exact .array (getElem?_extend hmade hserial) ih
  | hash hserial _ ih => exact .hash (getElem?_extend hmade hserial) ih
  | function hindex hfree => exact .function (getElem?_extend hpool hindex) hfree
  | closure hserial hindex hfree _ ih =>
      exact .closure (getElem?_extend hmade hserial) (getElem?_extend hpool hindex) hfree ih

theorem Sound.mono {v : Value} (h : v.Sound w) (hw : w.Extends w') : v.Sound w' :=
  h.extend hw.pool hw.made

/-- A closure is made of a constant function and of enough sound values. -/
theorem Sound.of_closure {id : Identity} {body : Function} {free : List Value}
    (h : (Value.closure id body free).Sound w) :
    ∃ serial index : Nat, id = .created serial ∧ w.made[serial]? = some (.closure id body free) ∧
      w.pool[index]? = some (.function (.constant index) body) ∧
      MonkeyMachine.freeCount body.code.instrs ≤ free.length ∧ ∀ v ∈ free, v.Sound w := by
  cases h with
  | closure hmade hpool hfree hvalues => exact ⟨_, _, rfl, hmade, hpool, hfree, hvalues⟩

/-- Every value of a list is sound. -/
def AllSound (w : World) (vs : List Value) : Prop := ∀ v ∈ vs, v.Sound w

theorem AllSound.mono {vs : List Value} (h : AllSound w vs) (hw : w.Extends w') : AllSound w' vs :=
  fun v hv => (h v hv).mono hw

theorem AllSound.append {vs ws : List Value} (h : AllSound w vs) (h' : AllSound w ws) :
    AllSound w (vs ++ ws) := by
  intro v hv
  rcases List.mem_append.1 hv with hv | hv
  · exact h v hv
  · exact h' v hv

theorem AllSound.left {vs ws : List Value} (h : AllSound w (vs ++ ws)) : AllSound w vs :=
  fun v hv => h v (List.mem_append_left _ hv)

theorem AllSound.right {vs ws : List Value} (h : AllSound w (vs ++ ws)) : AllSound w ws :=
  fun v hv => h v (List.mem_append_right _ hv)

theorem AllSound.single {v : Value} (h : v.Sound w) : AllSound w [v] := by
  intro u hu
  rw [List.mem_singleton.1 hu]
  exact h

end Value

/-! ## Constants -/

section Pools

variable {pool pool' : List Value} {globals globals' : Nat}

theorem Instr.Fits.mono {i : Instr} {locals : Option Nat} {free : Nat} (hpool : pool <+: pool')
    (hglobals : globals ≤ globals') (h : i.Fits ⟨pool, globals, locals, free⟩) :
    i.Fits ⟨pool', globals', locals, free⟩ := by
  unfold Instr.Fits at h ⊢
  split at h
  · rcases h with ⟨v, hget, hfree⟩
    exact ⟨v, getElem?_extend hpool hget, hfree⟩
  · rcases h with ⟨hpos, id, f, hget, hfree⟩
    exact ⟨hpos, id, f, getElem?_extend hpool hget, hfree⟩
  · exact h
  · exact h
  · exact Nat.lt_of_lt_of_le h hglobals
  · exact ⟨h.1, Nat.lt_of_lt_of_le h.2 hglobals⟩
  all_goals exact h

theorem Code.Sound.mono {code : Code} {locals : Option Nat} {free : Nat} (hpool : pool <+: pool')
    (hglobals : globals ≤ globals') (h : code.Sound ⟨pool, globals, locals, free⟩) :
    code.Sound ⟨pool', globals', locals, free⟩ :=
  { h with fits := fun i hi => (h.fits i hi).mono hpool hglobals }

theorem Function.Sound.mono {f : Function} (hpool : pool <+: pool') (hglobals : globals ≤ globals')
    (h : f.Sound pool globals) : f.Sound pool' globals' :=
  { h with code := h.code.mono hpool hglobals }

theorem Literals.mono {first : Nat} {vs : List Value} (hpool : pool <+: pool')
    (hglobals : globals ≤ globals') (h : Literals pool globals first vs) :
    Literals pool' globals' first vs := by
  intro n v hget
  have hliteral := h n v hget
  cases v with
  | int => trivial
  | str => trivial
  | function id f => exact ⟨hliteral.1, hliteral.2.mono hpool hglobals⟩
  | _ => exact hliteral

end Pools

/-- The constants of a world are those of literals. -/
def World.Sound (w : World) : Prop := Literals w.pool w.globals 0 w.pool

namespace World.Sound

variable {w : World}

theorem function (h : w.Sound) {index : Nat} {id : Identity} {body : Function}
    (hget : w.pool[index]? = some (.function id body)) :
    id = .constant index ∧ body.Sound w.pool w.globals := by
  have hliteral := h index _ hget
  rw [Nat.zero_add] at hliteral
  exact hliteral

/-- A constant that captures nothing is a value as it stands. -/
theorem constant (h : w.Sound) {index : Nat} {v : Value} (hget : w.pool[index]? = some v)
    (hfree : v.freeCount = 0) : v.Sound w := by
  have hliteral := h index v hget
  cases v with
  | int n => exact .int n
  | str s => exact .str s
  | function id body =>
      obtain ⟨rfl, -⟩ := h.function hget
      exact .function hget hfree
  | _ => exact absurd hliteral id

/-- More literals are compiled. -/
theorem grow (h : w.Sound) {more : List Value} {globals : Nat} (hglobals : w.globals ≤ globals)
    (hmore : Literals (w.pool ++ more) globals w.pool.length more) (made : List Value) :
    World.Sound ⟨w.pool ++ more, globals, made⟩ := by
  refine (Literals.mono (List.prefix_append _ _) hglobals h).append ?_
  rwa [Nat.zero_add]

end World.Sound

/-! ## Faults -/

/-- The faults that compiled code can raise if the global store has `capacity` slots. -/
def Fault.Permitted (capacity : Nat) : Fault → Prop
  | .typeMismatch _ _ _ | .unsupportedNegation _ | .divisionByZero => True
  | .stackOverflow _ | .frameOverflow _ => True
  | .undefinedGlobal _ => True
  | .globalOutOfRange slot size => size = capacity ∧ capacity ≤ slot
  | .unusableHashKey _ | .indexNotSupported _ _ => True
  | .notCallable _ | .wrongArgumentCount _ _ | .builtin _ => True
  | .stackUnderflow | .encoding _ | .operandOutOfRange _ _ | .notAFunction _ => False

/-- An operation answers with a sound value or with a permitted fault. -/
def Value.Answers (w : World) (capacity : Nat) : Except Fault Value → Prop
  | .ok v => v.Sound w
  | .error fault => fault.Permitted capacity

/-! ## Operations -/

namespace Value

variable {w : World} {capacity : Nat}

theorem arithmetic_answers (op : Opcode) (left right : Value) :
    Answers w capacity (arithmetic op left right) := by
  unfold arithmetic
  split
  · split
    · exact .int _
    · exact .int _
    · exact .int _
    · split
      · trivial
      · exact .int _
    · trivial
  · split
    · exact .str _
    · trivial
  · trivial

theorem comparison_answers (op : Opcode) (left right : Value) :
    Answers w capacity (comparison op left right) := by
  unfold comparison
  split
  · exact .bool _
  · exact .bool _
  · split
    · exact .bool _
    · trivial

theorem negation_answers (v : Value) : Answers w capacity (negation v) := by
  unfold negation
  split
  · exact .int _
  · trivial

theorem inversion_answers (v : Value) : Answers w capacity (inversion v) := Sound.bool _

theorem element_sound {elements : Array Value} (h : ∀ v ∈ elements, v.Sound w) (place : Int64) :
    (element elements place).Sound w := by
  unfold element
  split
  · exact .null
  · rw [Array.getD_eq_getD_getElem?]
    cases hget : elements[place.toInt.toNat]? with
    | none => exact .null
    | some v => exact h v (Array.mem_of_getElem? hget)

theorem indexing_answers {collection : Value} (h : collection.Sound w) (place : Value) :
    Answers w capacity (indexing collection place) := by
  unfold indexing
  split
  · rename_i entries
    split
    · rename_i key _
      show ((Assoc.find? key entries).getD null).Sound w
      cases hfind : Assoc.find? key entries with
      | none => exact .null
      | some v =>
          cases h with
          | hash _ hentries => exact hentries _ (Assoc.mem_of_find? hfind)
    · trivial
  · split
    · cases h with
      | array _ helements => exact element_sound helements _
    · trivial
  · trivial

/-- A hash is made of sound values, or a key is refused. -/
theorem addEntries_sound (capacity : Nat) {entries : List (Key × Value)} {vs : List Value}
    (hentries : ∀ entry ∈ entries, entry.2.Sound w) (hvs : AllSound w vs) :
    match addEntries entries vs with
    | .ok entries' => ∀ entry ∈ entries', entry.2.Sound w
    | .error fault => fault.Permitted capacity := by
  fun_induction addEntries entries vs with
  | case1 entries k v rest key hkey ih =>
      refine ih (Assoc.forall_insert hentries (hvs v (by simp)) key) ?_
      intro u hu
      exact hvs u (by simp [hu])
  | case2 => trivial
  | case3 => exact hentries

end Value

/-! ## Builtins -/

/-- What a builtin answers is sound already, or it is a new array of sound values. -/
def Builtin.Answers (w : World) (id : Identity) : Except BuiltinError Value → Prop
  | .ok v => v.Sound w ∨ ∃ elements, v = .array id elements ∧ ∀ u ∈ elements, u.Sound w
  | .error _ => True

namespace Builtin

variable {w : World} {id : Identity}

/-- A builtin that looks into an array finds sound values there. -/
theorem answers_of_array {b : Builtin} {v : Value} {next : Array Value → Except BuiltinError Value}
    (hv : v.Sound w)
    (hnext : ∀ elements, (∀ u ∈ elements, u.Sound w) → Answers w id (next elements)) :
    Answers w id (arrayArgument b v >>= next) := by
  cases hv with
  | array _ helements => exact hnext _ helements
  | _ => trivial

theorem apply_answers (id : Identity) (b : Builtin) {args : List Value}
    (hargs : Value.AllSound w args) : Answers w id (b.apply id args) := by
  unfold apply
  split
  -- `puts`
  · exact .inl .null
  -- `len`
  · unfold length
    split
    · exact .inl (.int _)
    · exact .inl (.int _)
    · trivial
  -- `first`
  · refine answers_of_array (hargs _ (by simp)) fun elements helements => ?_
    rw [Array.getD_eq_getD_getElem?]
    cases hget : elements[0]? with
    | none => exact .inl .null
    | some u => exact .inl (helements u (Array.mem_of_getElem? hget))
  -- `last`
  · refine answers_of_array (hargs _ (by simp)) fun elements helements => ?_
    cases hget : elements.back? with
    | none => exact .inl .null
    | some u => exact .inl (helements u (Array.mem_of_back? hget))
  -- `rest`
  · refine answers_of_array (hargs _ (by simp)) fun elements helements => ?_
    split
    · exact .inl .null
    · refine .inr ⟨_, rfl, fun u hu => helements u ?_⟩
      rw [← Array.mem_toList_iff, Array.toList_extract] at hu
      rw [← Array.mem_toList_iff]
      exact List.mem_of_mem_drop (List.mem_of_mem_take hu)
  -- `push`
  · rename_i v u
    refine answers_of_array (hargs v (by simp)) fun elements helements => ?_
    refine .inr ⟨_, rfl, fun x hx => ?_⟩
    rcases Array.mem_push.1 hx with hx | rfl
    · exact helements x hx
    · exact hargs x (by simp)
  · trivial
  · trivial

end Builtin

end MonkeyMachine
