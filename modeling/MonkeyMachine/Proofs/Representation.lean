import MonkeyMachine.Builtin
import MonkeyMachine.Proofs.Hereditary
import MonkeyMachine.Proofs.Layout
import MonkeyMachine.Proofs.ValueSoundness

/-!
# How the machine represents data

Every datum of the interpreter has its value in the machine: a function literal is represented by
its code, everything else by its own kind. The operators and builtins of the two sides answer alike,
faults included. Only `==` asks for more: it compares numbers on one side and whole values on the
other, so the values have to be sound.
-/

namespace MonkeyMachine

/-! ## Values of data -/

/-- The code of the body of a function literal. There is none for a body that does not compile. -/
def Lambda.code (lambda : Lambda) : Fragment :=
  match Block.layout .leave lambda.site 0 lambda.body with
  | .ok code => code
  | .error _ => .ofInstrs []

/-- The function that a function literal compiles to. -/
def Lambda.function (lambda : Lambda) : Function :=
  Fragment.function lambda.params (Block.events lambda.body) lambda.code

namespace Datum

mutual

/-- The value that stands for a datum. -/
def value : Datum → Value
  | int n => .int n
  | bool b => .bool b
  | null => .null
  | str s => .str s
  | array serial elements => .array (.created serial) (values elements).toArray
  | hash serial entries => .hash (.created serial) (entryValues entries)
  | function lambda => .function (.constant lambda.index) lambda.function
  | closure serial lambda captured => .closure (.created serial) lambda.function (values captured)
  | builtin b => .builtin b

def values : List Datum → List Value
  | [] => []
  | d :: rest => value d :: values rest

def entryValues : List (Key × Datum) → List (Key × Value)
  | [] => []
  | (k, d) :: rest => (k, value d) :: entryValues rest

end

@[simp]
theorem values_eq_map (ds : List Datum) : values ds = ds.map value := by
  induction ds with
  | nil => rfl
  | cons d rest ih => rw [values, ih, List.map_cons]

@[simp]
theorem entryValues_eq_map (entries : List (Key × Datum)) :
    entryValues entries = entries.map fun entry => (entry.1, entry.2.value) := by
  induction entries with
  | nil => rfl
  | cons entry rest ih =>
      obtain ⟨k, d⟩ := entry
      rw [entryValues, ih, List.map_cons]

@[simp]
theorem kind_value (d : Datum) : d.value.kind = d.kind := by
  cases d <;> rfl

@[simp]
theorem truthy_value (d : Datum) : d.value.truthy = d.truthy := by
  cases d <;> rfl

@[simp]
theorem key?_value (d : Datum) : d.value.key? = d.key? := by
  cases d <;> rfl

theorem elements?_value (d : Datum) :
    d.value.elements? = d.elements?.map fun elements => (elements.map value).toArray := by
  cases d with
  | array serial elements =>
      show some (values elements).toArray = _
      rw [values_eq_map]
      rfl
  | _ => rfl

mutual

/-- A datum and its value are printed alike. -/
theorem text_value (d : Datum) : d.value.text = d.text := by
  cases d with
  | array serial elements =>
      exact congrArg (fun lines => "[" ++ String.intercalate ", " lines ++ "]")
        (texts_value elements)
  | hash serial entries =>
      exact congrArg (fun lines => "\x7b" ++ String.intercalate ", " lines ++ "\x7d")
        (entryTexts_value entries)
  | _ => rfl

theorem texts_value (ds : List Datum) : Value.texts (values ds) = texts ds := by
  match ds with
  | [] => rfl
  | d :: rest => rw [values, Value.texts, texts, text_value d, texts_value rest]

theorem entryTexts_value (entries : List (Key × Datum)) :
    Value.entryTexts (entryValues entries) = entryTexts entries := by
  match entries with
  | [] => rfl
  | (k, d) :: rest =>
      rw [entryValues, Value.entryTexts, entryTexts, text_value d, entryTexts_value rest]

end

end Datum

/-! ## Identity -/

/-- The identity of a composite value. -/
def Value.identity? : Value → Option Identity
  | .array id _ | .hash id _ | .function id _ | .closure id _ _ => some id
  | _ => none

/-- An act of creation has made one value. -/
theorem Value.Sound.eq_of_identity {w : World} {v v' : Value} {id : Identity} (h : v.Sound w)
    (h' : v'.Sound w) (hv : v.identity? = some id) (hv' : v'.identity? = some id) : v = v' := by
  -- A created value stands in `made` under its serial number, a function in the pool.
  have hfound : ∀ {u : Value}, u.Sound w → u.identity? = some id →
      (∀ serial, id = .created serial → w.made[serial]? = some u) ∧
        ∀ index, id = .constant index → w.pool[index]? = some u := by
    intro u hu hid
    cases hu with
    | array hmade | hash hmade | closure hmade =>
        cases hid
        refine ⟨?_, nofun⟩
        rintro _ ⟨rfl⟩
        exact hmade
    | function hpool =>
        cases hid
        refine ⟨nofun, ?_⟩
        rintro _ ⟨rfl⟩
        exact hpool
    | _ => cases hid
  cases id with
  | created serial =>
      exact Option.some.inj (((hfound h hv).1 serial rfl).symm.trans ((hfound h' hv').1 serial rfl))
  | constant index =>
      exact Option.some.inj (((hfound h hv).2 index rfl).symm.trans ((hfound h' hv').2 index rfl))
  | program run =>
      cases h with
      | array | hash | closure | function => cases hv
      | _ => cases hv

/-- Sound values are one and the same exactly if the data are: if they have the same number. -/
theorem Datum.identical_value {w : World} {d e : Datum} (hd : d.value.Sound w)
    (he : e.value.Sound w) : d.value.identical e.value = d.identical e := by
  rw [Bool.eq_iff_iff, Value.identical_iff]
  -- Two sound values of one identity are equal in all their parts.
  have hsame : ∀ {id : Identity}, d.value.identity? = some id → e.value.identity? = some id →
      d.value = e.value := fun hid hid' => hd.eq_of_identity he hid hid'
  cases d with
  | array i elements =>
      cases e with
      | array j elements' =>
          refine ⟨fun h => ?_, fun h => ?_⟩
          · simp only [value, Value.array.injEq, Identity.created.injEq] at h
            exact beq_iff_eq.2 h.1
          · obtain rfl : i = j := beq_iff_eq.1 h
            exact hsame rfl rfl
      | _ => exact ⟨nofun, nofun⟩
  | hash i entries =>
      cases e with
      | hash j entries' =>
          refine ⟨fun h => ?_, fun h => ?_⟩
          · simp only [value, Value.hash.injEq, Identity.created.injEq] at h
            exact beq_iff_eq.2 h.1
          · obtain rfl : i = j := beq_iff_eq.1 h
            exact hsame rfl rfl
      | _ => exact ⟨nofun, nofun⟩
  | function f =>
      cases e with
      | function g =>
          refine ⟨fun h => ?_, fun h => ?_⟩
          · simp only [value, Value.function.injEq, Identity.constant.injEq] at h
            exact beq_iff_eq.2 h.1
          · have hindex : f.index = g.index := beq_iff_eq.1 h
            have hid : (function f).value.identity? = some (.constant g.index) := by
              rw [← hindex]
              rfl
            exact hsame hid rfl
      | _ => exact ⟨nofun, nofun⟩
  | closure i f captured =>
      cases e with
      | closure j g captured' =>
          refine ⟨fun h => ?_, fun h => ?_⟩
          · simp only [value, Value.closure.injEq, Identity.created.injEq] at h
            exact beq_iff_eq.2 h.1
          · obtain rfl : i = j := beq_iff_eq.1 h
            exact hsame rfl rfl
      | _ => exact ⟨nofun, nofun⟩
  | _ => cases e <;> simp [value, identical]

/-! ## Operators -/

/-- What the instruction of a binary operator computes. -/
def Value.operation (op : Opcode) : Value → Value → Except Fault Value :=
  match op with
  | .add | .sub | .mul | .div => arithmetic op
  | _ => comparison op

namespace Datum

/-- An operator on integers. Other data it refuses. -/
theorem onInts_value {op : Opcode} {f : Int64 → Int64 → Except Fault Datum}
    (hop : op ∈ [Opcode.sub, .mul, .div, .greaterThan])
    (hf : ∀ l r, Value.operation op (.int l) (.int r) = (f l r).map value) (d e : Datum) :
    Value.operation op d.value e.value = (onInts op f d e).map value := by
  have hmismatch : ∀ l r : Value, l.kind ≠ .integer ∨ r.kind ≠ .integer →
      Value.operation op l r = .error (.typeMismatch op l.kind r.kind) := by
    intro l r hkind
    simp only [List.mem_cons, List.not_mem_nil, or_false] at hop
    rcases hop with rfl | rfl | rfl | rfl
    all_goals
      cases l with
      | int =>
          cases r with
          | int => simp [Value.kind] at hkind
          | _ => rfl
      | str => cases r <;> rfl
      | _ => rfl
  cases d with
  | int l =>
      cases e with
      | int r => exact hf l r
      | _ => exact hmismatch _ _ (.inr fun hkind => by cases hkind)
  | _ => cases e <;> exact hmismatch _ _ (.inl fun hkind => by cases hkind)

theorem plus_value (d e : Datum) :
    Value.operation .add d.value e.value = (plus d e).map value := by
  cases d <;> cases e <;> rfl

theorem greater_value (d e : Datum) :
    Value.operation .greaterThan d.value e.value = (greater d e).map value :=
  onInts_value (by decide) (fun _ _ => rfl) d e

theorem divided_value (d e : Datum) :
    Value.operation .div d.value e.value = (divided d e).map value := by
  refine onInts_value (by decide) (fun l r => ?_) d e
  show (if r = 0 then Except.error Fault.divisionByZero else .ok (Value.int (l / r))) = _
  split <;> rfl

/-- The instruction of an operator computes what the operator means. -/
theorem binary_value {w : World} {operator : String} {op : Opcode} {d e : Datum}
    (h : Compile.binaryOpcode? operator = some op) (hd : d.value.Sound w) (he : e.value.Sound w) :
    Value.operation op d.value e.value = (binary operator d e).map value := by
  unfold Compile.binaryOpcode? at h
  unfold binary
  repeat' split at h
  all_goals cases h
  all_goals simp only [*, if_true]
  · exact plus_value d e
  · exact onInts_value (by decide) (fun _ _ => rfl) d e
  · exact onInts_value (by decide) (fun _ _ => rfl) d e
  · exact divided_value d e
  · exact greater_value d e
  · show Except.ok (Value.bool (d.value.identical e.value)) = _
    rw [identical_value hd he]
    rfl
  · show Except.ok (Value.bool !d.value.identical e.value) = _
    rw [identical_value hd he]
    rfl

theorem unary_value {operator : String} {op : Opcode}
    (h : Compile.unaryOpcode? operator = some op) (d : Datum) :
    (op = .bang ∧ Value.inversion d.value = (unary operator d).map value) ∨
      (op = .minus ∧ Value.negation d.value = (unary operator d).map value) := by
  unfold Compile.unaryOpcode? at h
  unfold unary
  repeat' split at h
  all_goals cases h
  · rename_i hbang
    refine .inl ⟨rfl, ?_⟩
    rw [if_pos hbang, Value.inversion, truthy_value]
    rfl
  · rename_i hbang hminus
    refine .inr ⟨rfl, ?_⟩
    rw [if_neg hbang, if_pos hminus]
    cases d <;> rfl

end Datum

/-! ## Arrays and hashes -/

namespace Assoc

variable {κ ν ν' : Type} [DecidableEq κ]

theorem find?_map (f : ν → ν') (key : κ) (entries : List (κ × ν)) :
    find? key (entries.map fun entry => (entry.1, f entry.2)) = (find? key entries).map f := by
  induction entries with
  | nil => rfl
  | cons entry rest ih =>
      by_cases h : entry.1 = key
      · simp [find?, h]
      · simp [find?, h, ih]

theorem insert_map (f : ν → ν') (key : κ) (v : ν) (entries : List (κ × ν)) :
    insert key (f v) (entries.map fun entry => (entry.1, f entry.2)) =
      (insert key v entries).map fun entry => (entry.1, f entry.2) := by
  induction entries with
  | nil => rfl
  | cons entry rest ih =>
      by_cases h : entry.1 = key
      · simp [insert, h]
      · simp [insert, h, ih]

end Assoc

namespace Datum

theorem indexed_value (d e : Datum) :
    Value.indexing d.value e.value = (indexed d e).map value := by
  cases d with
  | hash serial entries =>
      simp only [value, Value.indexing, indexed, key?_value, kind_value]
      cases e.key? with
      | none => rfl
      | some key =>
          simp only [entryValues_eq_map, Assoc.find?_map]
          cases Assoc.find? key entries <;> rfl
  | array serial elements =>
      cases e with
      | int n =>
          simp only [value, Value.indexing, indexed, Value.element, values_eq_map, Except.map]
          split
          · rfl
          · cases h : elements[n.toInt.toNat]? <;> simp_all [value]
      | _ => rfl
  | _ =>
      simp only [value, Value.indexing, indexed, kind_value]
      rfl

/-- The operands of a hash literal, in the order in which they are pushed. -/
def flatten (pairs : List (Datum × Datum)) : List Datum :=
  pairs.flatMap fun pair => [pair.1, pair.2]

theorem length_flatten (pairs : List (Datum × Datum)) : (flatten pairs).length = 2 * pairs.length := by
  induction pairs with
  | nil => rfl
  | cons pair rest ih =>
      show (flatten rest).length + 1 + 1 = _
      rw [ih, List.length_cons]
      omega

theorem addPairs_value (entries : List (Key × Datum)) (pairs : List (Datum × Datum)) :
    Value.addEntries (entryValues entries) ((flatten pairs).map value) =
      (addPairs entries pairs).map entryValues := by
  induction pairs generalizing entries with
  | nil => rfl
  | cons pair rest ih =>
      obtain ⟨k, d⟩ := pair
      show Value.addEntries (entryValues entries) (k.value :: d.value :: (flatten rest).map value) = _
      rw [Value.addEntries, addPairs, key?_value, kind_value]
      cases k.key? with
      | none => rfl
      | some key =>
          have hinsert : Assoc.insert key d.value (entryValues entries) =
              entryValues (Assoc.insert key d entries) := by
            rw [entryValues_eq_map, entryValues_eq_map, Assoc.insert_map]
          simp only [hinsert]
          exact ih (Assoc.insert key d entries)

end Datum

/-! ## Builtins -/

namespace Builtin

theorem arrayArgument_value (b : Builtin) (d : Datum) :
    arrayArgument b d.value =
      (elementsOf b d).map fun elements => (elements.map Datum.value).toArray := by
  unfold arrayArgument elementsOf
  rw [Datum.elements?_value, Datum.kind_value]
  cases d.elements? <;> rfl

theorem length_value (d : Datum) : length d.value = (lengthOf d).map Datum.value := by
  cases d with
  | array serial elements => simp [length, lengthOf, Datum.value, Except.map, pure, Except.pure]
  | _ => rfl

/-- A builtin that goes on with the elements of its argument. -/
theorem elements_value {b : Builtin} {d : Datum} {f : Array Value → Except BuiltinError Value}
    {g : List Datum → Except BuiltinError Datum}
    (h : ∀ elements : List Datum, f (elements.map Datum.value).toArray = (g elements).map Datum.value) :
    (arrayArgument b d.value >>= f) = (elementsOf b d >>= g).map Datum.value := by
  rw [arrayArgument_value]
  cases elementsOf b d with
  | error cause => rfl
  | ok elements => exact h elements

/-- A builtin answers with the value of the datum that it should answer with. -/
theorem apply_value (b : Builtin) (serial : Nat) (args : List Datum) :
    b.apply (.created serial) (args.map Datum.value) = (b.answer serial args).map Datum.value := by
  -- All but `puts` look at the number of arguments first.
  cases b with
  | puts => rfl
  | len =>
      match args with
      | [] => rfl
      | [d] => exact length_value d
      | _ :: _ :: _ => simp [apply, answer, Except.map, throw, throwThe, MonadExceptOf.throw]
  | first =>
      match args with
      | [] => rfl
      | [d] =>
          refine elements_value fun elements => ?_
          cases elements <;> rfl
      | _ :: _ :: _ => simp [apply, answer, Except.map, throw, throwThe, MonadExceptOf.throw]
  | last =>
      match args with
      | [] => rfl
      | [d] =>
          refine elements_value fun elements => ?_
          cases h : elements.getLast? <;> simp [h, Except.map, pure, Except.pure, Datum.value]
      | _ :: _ :: _ => simp [apply, answer, Except.map, throw, throwThe, MonadExceptOf.throw]
  | rest =>
      match args with
      | [] => rfl
      | [d] =>
          refine elements_value fun elements => ?_
          cases elements <;> simp [Except.map, pure, Except.pure, Datum.value]
      | _ :: _ :: _ => simp [apply, answer, Except.map, throw, throwThe, MonadExceptOf.throw]
  | push =>
      match args with
      | [] => rfl
      | [_] => rfl
      | [d, e] =>
          refine elements_value fun elements => ?_
          simp [Except.map, pure, Except.pure, Datum.value]
      | _ :: _ :: _ :: _ => simp [apply, answer, Except.map, throw, throwThe, MonadExceptOf.throw]

theorem printed_value (b : Builtin) (args : List Datum) :
    b.printed (args.map Datum.value) = b.prints args := by
  cases b with
  | puts => simp [printed, prints, Function.comp_def, Datum.text_value]
  | _ => rfl

end Builtin

/-! ## Placed data -/

/-- A function literal that has been compiled: its code is laid out, and the constants that this code
refers to stand in the pool. -/
structure Lambda.Placed (pool : List Value) (globals : Nat) (lambda : Lambda) : Prop where
  layout : Block.layout .leave lambda.site 0 lambda.body = .ok lambda.code
  constants : lambda.code.constants <+: pool.drop lambda.site.literals
  globals : lambda.site.globals.length ≤ globals
  locals : ∃ own captured, lambda.site.body = some { own, captured, names := lambda.params }

/-- A datum all of whose functions have been compiled. A closure has as many values as its body
captures. -/
inductive Datum.Placed (pool : List Value) (globals : Nat) : Datum → Prop
  | int (n : Int64) : Placed pool globals (.int n)
  | bool (b : Bool) : Placed pool globals (.bool b)
  | null : Placed pool globals .null
  | str (s : String) : Placed pool globals (.str s)
  | builtin (b : Builtin) : Placed pool globals (.builtin b)
  | array {serial : Nat} {elements : List Datum}
      (helements : ∀ d ∈ elements, Placed pool globals d) :
      Placed pool globals (.array serial elements)
  | hash {serial : Nat} {entries : List (Key × Datum)}
      (hentries : ∀ entry ∈ entries, Placed pool globals entry.2) :
      Placed pool globals (.hash serial entries)
  | function {lambda : Lambda} (hlambda : lambda.Placed pool globals)
      (hcaptured : lambda.site.captured = []) : Placed pool globals (.function lambda)
  | closure {serial : Nat} {lambda : Lambda} {captured : List Datum}
      (hlambda : lambda.Placed pool globals)
      (hcaptured : captured.length = lambda.site.captured.length)
      (hvalues : ∀ d ∈ captured, Placed pool globals d) :
      Placed pool globals (.closure serial lambda captured)

section Placed

variable {pool pool' : List Value} {globals globals' : Nat}

theorem Lambda.Placed.mono {lambda : Lambda} (h : lambda.Placed pool globals)
    (hpool : pool <+: pool') (hglobals : globals ≤ globals') : lambda.Placed pool' globals' := by
  rcases hpool with ⟨more, rfl⟩
  refine ⟨h.layout, ?_, Nat.le_trans h.globals hglobals, h.locals⟩
  rw [List.drop_append]
  exact h.constants.trans (List.prefix_append _ _)

/-- What the body of a function literal names is there in each of its calls. -/
theorem Lambda.Placed.within {lambda : Lambda} (h : lambda.Placed pool globals) :
    (lambda.site.after (Block.events lambda.body)).Within
      { pool, globals, locals := some lambda.function.numLocals
        free := lambda.site.captured.length } := by
  rcases h.locals with ⟨own, captured, hbody⟩
  have hcaptured : lambda.site.captured = captured := by simp [Site.captured, hbody]
  refine ⟨?_, ?_, ?_⟩
  · simpa [Site.after, hbody] using h.globals
  · intro hnone
    rw [Site.body_after_of_some hbody] at hnone
    cases hnone
  · intro locals hlocals
    rw [Site.body_after_of_some hbody] at hlocals
    cases hlocals
    refine ⟨_, rfl, ?_, ?_⟩
    · simp [Lambda.function, Fragment.function]
    · rw [hcaptured]

namespace Datum

theorem Placed.mono {d : Datum} (h : d.Placed pool globals) (hpool : pool <+: pool')
    (hglobals : globals ≤ globals') : d.Placed pool' globals' := by
  induction h with
  | int n => exact .int n
  | bool b => exact .bool b
  | null => exact .null
  | str s => exact .str s
  | builtin b => exact .builtin b
  | array _ ih => exact .array ih
  | hash _ ih => exact .hash ih
  | function hlambda hcaptured => exact .function (hlambda.mono hpool hglobals) hcaptured
  | closure hlambda hcaptured _ ih => exact .closure (hlambda.mono hpool hglobals) hcaptured ih

/-- All data of a list are placed. -/
def AllPlaced (pool : List Value) (globals : Nat) (ds : List Datum) : Prop :=
  ∀ d ∈ ds, d.Placed pool globals

theorem AllPlaced.append {ds es : List Datum} (h : AllPlaced pool globals ds)
    (h' : AllPlaced pool globals es) : AllPlaced pool globals (ds ++ es) := by
  intro d hd
  rcases List.mem_append.1 hd with hd | hd
  · exact h d hd
  · exact h' d hd

theorem AllPlaced.left {ds es : List Datum} (h : AllPlaced pool globals (ds ++ es)) :
    AllPlaced pool globals ds := fun d hd => h d (List.mem_append_left _ hd)

theorem AllPlaced.right {ds es : List Datum} (h : AllPlaced pool globals (ds ++ es)) :
    AllPlaced pool globals es := fun d hd => h d (List.mem_append_right _ hd)

theorem AllPlaced.single {d : Datum} (h : d.Placed pool globals) : AllPlaced pool globals [d] := by
  intro e he
  rw [List.mem_singleton.1 he]
  exact h

theorem placed_hereditary : Hereditary (Placed pool globals) where
  int := .int
  bool := .bool
  null := .null
  str := .str
  builtin := .builtin
  array := ⟨fun h => by cases h; assumption, .array⟩
  hash := ⟨fun h => by cases h; assumption, .hash⟩

theorem AllPlaced.getD {ds : List Datum} (h : AllPlaced pool globals ds) (n : Nat) :
    (ds.getD n .null).Placed pool globals := placed_hereditary.getD h n

/-- If there is an answer, it is placed. -/
def Answers {ε : Type} (pool : List Value) (globals : Nat) : Except ε Datum → Prop
  | .ok d => d.Placed pool globals
  | .error _ => True

theorem Answers.of_yields {ε : Type} {E : ε → Prop} {result : Except ε Datum}
    (h : Yields (Placed pool globals) E result) : Answers pool globals result := by
  cases result with
  | ok d => exact h
  | error e => trivial

theorem greater_placed (d e : Datum) : Answers pool globals (greater d e) :=
  .of_yields (placed_hereditary.greater d e)

theorem binary_placed (operator : String) (d e : Datum) :
    Answers pool globals (binary operator d e) :=
  .of_yields (placed_hereditary.binary operator d e)

theorem unary_placed (operator : String) (d : Datum) : Answers pool globals (unary operator d) :=
  .of_yields (placed_hereditary.unary operator d)

theorem indexed_placed {d : Datum} (h : d.Placed pool globals) (e : Datum) :
    Answers pool globals (indexed d e) :=
  .of_yields (placed_hereditary.indexed h e)

theorem addPairs_placed {entries result : List (Key × Datum)} {pairs : List (Datum × Datum)}
    (h : ∀ entry ∈ entries, entry.2.Placed pool globals) (hpairs : AllPlaced pool globals (flatten pairs))
    (hresult : addPairs entries pairs = .ok result) :
    ∀ entry ∈ result, entry.2.Placed pool globals := by
  have hvalues : ∀ pair ∈ pairs, pair.2.Placed pool globals := fun pair hpair =>
    hpairs pair.2 (List.mem_flatMap.2 ⟨pair, hpair, by simp⟩)
  have hyields := Hereditary.addPairs h hvalues
  rw [hresult] at hyields
  exact hyields

end Datum

/-- What a builtin answers with is placed if its arguments are. -/
theorem Builtin.answer_placed (b : Builtin) (serial : Nat) {args : List Datum}
    (h : Datum.AllPlaced pool globals args) : Datum.Answers pool globals (b.answer serial args) :=
  .of_yields (Datum.placed_hereditary.answer b serial h)

end Placed

end MonkeyMachine
