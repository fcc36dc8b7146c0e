import Mathlib.Data.Finset.Card
import MonkeyMachine.Proofs.Census
import MonkeyMachine.Proofs.WellFormed

/-!
# Resources of functions

How many constants a program has, how many cells its functions use and how many values its closures
capture, counted in the text and found again in the bytecode. The compiler comes to these numbers
while it resolves names, function by function; in the text they are a matter of free names and of
`let` statements.

A site knows the names that its function has captured, not all that the functions around it have
bound. For what is looked up behind it the two are the same: `Site.Charted`.
-/

namespace MonkeyMachine

open Compile (maxLocals)

/-! ## Cells -/

/-- How many cells the function around a site has given names to. At the top level there are none. -/
def Site.slots (site : Site) : Nat :=
  match site.body with
  | none => 0
  | some locals => locals.names.length

namespace Site

theorem slots_after_of_none {site : Site} (h : site.body = none) (events : List Event) :
    (site.after events).slots = 0 := by
  simp [slots, body_after_of_none h]

theorem slots_after_of_some {site : Site} {locals : Locals} (h : site.body = some locals)
    (events : List Event) : (site.after events).slots = site.slots + (Event.binds events).length := by
  simp [slots, body_after_of_some h, h]

theorem slots_le_after (site : Site) (events : List Event) :
    site.slots ≤ (site.after events).slots := by
  cases hbody : site.body with
  | none => simp [slots, hbody]
  | some locals =>
      rw [slots_after_of_some hbody]
      exact Nat.le_add_right _ _

theorem slots_after_of_binds (site : Site) {events : List Event} (h : Event.binds events = []) :
    (site.after events).slots = site.slots := by
  cases hbody : site.body with
  | none => simp [slots, hbody, body_after_of_none hbody]
  | some locals => rw [slots_after_of_some hbody, h, List.length_nil, Nat.add_zero]

/-- At the end of a function body there are cells for the parameters and the `let` statements. -/
theorem slots_enter_after (site : Site) (own : Option String) (params : List String)
    (body : List Stmt) :
    ((site.enter own params (Block.events body)).after (Block.events body)).slots =
      params.length + (Block.lets body).length := by
  have hbody : (site.enter own params (Block.events body)).body =
      some { own, captured := site.captures own params (Block.events body), names := params } := rfl
  rw [slots_after_of_some hbody, (Block.binds_events_perm body).length_eq]
  rfl

end Site

/-! ## Captures -/

theorem Names.nodup_addAll {names xs : List String} (h : names.Nodup) : (addAll names xs).Nodup := by
  induction xs generalizing names with
  | nil => exact h
  | cons x xs ih =>
      refine ih ?_
      unfold add
      split
      · exact h
      · exact h.append (List.nodup_singleton x) (by simpa using ‹x ∉ names›)

theorem Around.after_eq_none {around : Around} {lets : List String} :
    around.after lets = none ↔ around = none := Option.map_eq_none_iff

theorem Around.mem_names_after {around : Around} {lets : List String} {name : String} :
    name ∈ (around.after lets).names ↔ name ∈ around.names ∨ (around ≠ none ∧ name ∈ lets) := by
  cases around with
  | none => simp [Around.after, Around.names]
  | some names => simp [Around.after, Around.names]

theorem Site.body_after_eq_none {site : Site} {events : List Event} :
    (site.after events).body = none ↔ site.body = none := by
  cases hbody : site.body with
  | none => simp [Site.body_after_of_none hbody]
  | some locals => simp [Site.body_after_of_some hbody]

theorem Site.mem_visible_after {site : Site} {events : List Event} {name : String} :
    name ∈ (site.after events).visible ↔
      name ∈ site.visible ∨ (site.body ≠ none ∧ name ∈ Event.binds events) := by
  cases hbody : site.body with
  | none => simp [Site.visible, Site.body_after_of_none hbody, hbody]
  | some locals =>
      simp only [Site.visible, Site.body_after_of_some hbody, hbody, List.mem_append]
      tauto

/-- The chart of a program, `all`, has the literals of what comes next, and a name that is looked up
next and that a function around has bound is either bound or captured by the current function. -/
structure Site.Charted (all : List Literal) (around : Around) (events : List Event)
    (literals : List Literal) (site : Site) : Prop where
  placed : literals <+: all.drop site.literals
  top : site.body = none ↔ around = none
  visible : ∀ name ∈ site.visible, name ∈ around.names
  captured : ∀ name ∈ Event.uses site.bound events, name ∈ around.names → name ∈ site.captured

namespace Site.Charted

variable {all literals l l' : List Literal} {around : Around} {xs ys : List Event} {site : Site}

theorem left (h : site.Charted all around (xs ++ ys) (l ++ l')) : site.Charted all around xs l where
  placed := (List.prefix_append _ _).trans h.placed
  top := h.top
  visible := h.visible
  captured := fun name hname => h.captured name (by
    rw [Event.uses_append]
    exact List.mem_append_left _ hname)

/-- Behind `xs` the names that `xs` binds are bound by the current function, on both sides. So they are
no longer among those that are looked up in functions around. -/
theorem right (h : site.Charted all around (xs ++ ys) (l ++ l'))
    (hlength : l.length = Event.literals xs) {lets : List String}
    (hlets : ∀ name, name ∈ Event.binds xs ↔ name ∈ lets) :
    (site.after xs).Charted all (around.after lets) ys l' where
  placed := by
    rw [Site.literals_after, ← hlength]
    exact placed_right h.placed
  top := by
    rw [Site.body_after_eq_none, Around.after_eq_none]
    exact h.top
  visible := by
    intro name hname
    rw [Around.mem_names_after, ← hlets]
    rcases Site.mem_visible_after.1 hname with hname | ⟨hbody, hname⟩
    · exact .inl (h.visible name hname)
    · exact .inr ⟨mt h.top.2 hbody, hname⟩
  captured := by
    intro name huse hname
    rw [Site.bound_after] at huse
    have hnot : name ∉ Event.binds xs := fun hmem =>
      (Event.mem_uses_iff.1 huse).2 (List.mem_append_right _ hmem)
    rw [Around.mem_names_after, ← hlets] at hname
    rw [Site.captured_after]
    refine h.captured name ?_ (hname.resolve_right fun hbound => hnot hbound.2)
    rw [Event.uses_append]
    exact List.mem_append_right _ huse

/-- A function literal captures what it looks up and functions around it have bound. -/
theorem mem_captures {own : Option String} {params : List String} {body : List Event}
    (h : site.Charted all around (Event.ofFunction own params body) literals) {name : String} :
    name ∈ site.captures own params body ↔
      name ∈ Event.uses (own.toList ++ params) body ∧ name ∈ around.names := by
  rw [Site.mem_captures]
  refine and_congr_right fun huse => ⟨h.visible name, fun hname => ?_⟩
  -- At the top level no function has bound anything, so there is a current function.
  have hsome : site.body ≠ none := by
    intro hbody
    rw [h.top.1 hbody] at hname
    exact absurd hname (Finset.notMem_empty name)
  obtain ⟨locals, hbody⟩ := Option.ne_none_iff_exists'.1 hsome
  by_cases hbound : name ∈ site.bound
  · simp only [Site.bound, hbody] at hbound
    simp only [Site.visible, hbody]
    exact List.mem_append_left _ hbound
  · have huse' : name ∈ Event.uses site.bound (Event.ofFunction own params body) :=
      Event.mem_uses_iff.2 ⟨Event.mem_uses_ofFunction.2 (Event.mem_uses_iff.1 huse), hbound⟩
    have hcaptured := h.captured name huse' hname
    simp only [Site.captured, hbody] at hcaptured
    simp only [Site.visible, hbody]
    exact List.mem_append_right _ hcaptured

/-- The number of captures is that of the names which the text looks up in functions around. -/
theorem length_captures {own : Option String} {params : List String} {body : List Stmt}
    (h : site.Charted all around (Event.ofFunction own params (Block.events body)) literals) :
    (site.captures own params (Block.events body)).length =
      (FunctionText.mk own params body around.names).captured.card := by
  have hnodup : (site.captures own params (Block.events body)).Nodup :=
    Names.nodup_addAll List.nodup_nil
  rw [← List.toFinset_card_of_nodup hnodup]
  congr 1
  ext name
  rw [List.mem_toFinset, h.mem_captures, FunctionText.captured, Finset.mem_inter, Expr.mem_free,
    Expr.events, Event.mem_uses_ofFunction, Event.mem_uses_iff]

theorem enter {own : Option String} {params : List String} {body : List Event}
    (h : site.Charted all around (Event.ofFunction own params body) (l ++ l')) :
    (site.enter own params body).Charted all (around.enter own params) body l where
  placed := (List.prefix_append _ _).trans h.placed
  top := iff_of_false (Option.some_ne_none _) (Option.some_ne_none _)
  visible := by
    intro name hname
    have hsplit : name ∈ own.toList ++ params ∨ name ∈ site.captures own params body :=
      List.mem_append.1 hname
    show name ∈ around.names ∪ (own.toList ++ params).toFinset
    rw [Finset.mem_union, List.mem_toFinset]
    exact hsplit.symm.imp_left fun hcapture => (h.mem_captures.1 hcapture).2
  captured := by
    intro name huse hname
    have huse' : name ∈ Event.uses (own.toList ++ params) body := huse
    have hname' : name ∈ around.names ∪ (own.toList ++ params).toFinset := hname
    rw [Finset.mem_union, List.mem_toFinset] at hname'
    have hnot := (Event.mem_uses_iff.1 huse').2
    exact h.mem_captures.2 ⟨huse', hname'.resolve_right hnot⟩

end Site.Charted

/-! ## Code and literals -/

/-- The constant of a literal. A function records how many parameters and cells it has. -/
def Literal.Records : Literal → Value → Prop
  | .int n, v => v = .int n
  | .str s, v => v = .str s
  | .function text, v => ∃ id f, v = .function id f ∧ f.numParams = text.params.length ∧
      f.numLocals = text.slots ∧ text.slots ≤ maxLocals

/-- An instruction that makes a closure says how many values it captures. If there are none, the
function is pushed as it is. -/
def Instr.Counts (all : List Literal) (i : Instr) : Prop :=
  match i with
  | ⟨.closure, [n, count]⟩ =>
      ∃ text, all[n]? = some (.function text) ∧ count = text.captured.card ∧ 0 < count
  | ⟨.constant, [n]⟩ => ∀ text, all[n]? = some (.function text) → text.captured = ∅
  | _ => True

theorem Instr.counts_of_op {all : List Literal} {op : Opcode} {operands : List Nat}
    (h : op ∉ [Opcode.constant, .closure]) : (Instr.mk op operands).Counts all := by
  unfold Instr.Counts
  split
  · simp_all
  · simp_all
  · trivial

/-- The instructions of a value: those of a function. -/
def Value.instrs : Value → List Instr
  | .function _ f => f.code.instrs
  | _ => []

/-- The code of a part of a program with the given literals. -/
structure Fragment.Accounts (all literals : List Literal) (f : Fragment) : Prop where
  records : List.Forall₂ Literal.Records literals f.constants
  instrs : ∀ i ∈ f.instrs, i.Valid ∧ i.Counts all
  inner : ∀ v ∈ f.constants, ∀ i ∈ v.instrs, i.Valid ∧ i.Counts all

/-- The layout of a part of a program, with its events and literals. There are cells for all names in
the code that it prescribes, and it complains about them only if there are too many. -/
def Reckons (all : List Literal) (site : Site) (events : List Event) (literals : List Literal) :
    Except CompileError Fragment → Prop
  | .ok f => f.Accounts all literals ∧
      (site.slots ≤ maxLocals → (site.after events).slots ≤ maxLocals)
  | .error .tooManyLocals => (∃ text, .function text ∈ literals ∧ maxLocals < text.slots) ∨
      maxLocals < (site.after events).slots
  | .error _ => True

theorem Fragment.Accounts.append {all l l' : List Literal} {f g : Fragment} (h : f.Accounts all l)
    (h' : g.Accounts all l') : (f ++ g).Accounts all (l ++ l') where
  records := List.rel_append h.records h'.records
  instrs := List.forall_mem_append.2 ⟨h.instrs, h'.instrs⟩
  inner := List.forall_mem_append.2 ⟨h.inner, h'.inner⟩

namespace Reckons

variable {all l l' l'' : List Literal} {site : Site} {xs ys zs : List Event}
  {layout : Except CompileError Fragment}

/-- A complaint about a part is one about the whole. -/
theorem error {e : CompileError} (h : Reckons all site xs l (.error e)) {site' : Site}
    (hliterals : l ⊆ l') (hslots : (site.after xs).slots ≤ (site'.after ys).slots) :
    Reckons all site' ys l' (.error e) := by
  cases e with
  | tooManyLocals =>
      rcases h with ⟨text, hmem, hmany⟩ | hmany
      · exact .inl ⟨text, hliterals hmem, hmany⟩
      · exact .inr (Nat.lt_of_lt_of_le hmany hslots)
  | _ => trivial

/-- Events that bind no cell make no difference. -/
theorem at_events (h : Reckons all site [] l layout)
    (hslots : (site.after xs).slots = site.slots) : Reckons all site xs l layout := by
  have hsame : (site.after []).slots = (site.after xs).slots := by rw [Site.after_nil, hslots]
  cases layout with
  | ok f =>
      refine ⟨h.1, ?_⟩
      rw [hslots]
      exact id
  | error e => exact h.error (List.Subset.refl _) (Nat.le_of_eq hsame)

theorem code {is : List Instr} (his : ∀ i ∈ is, i.Valid ∧ i.Counts all) :
    Reckons all site [] [] (.ok (.ofInstrs is)) := by
  refine ⟨⟨.nil, his, List.forall_mem_nil _⟩, ?_⟩
  rw [Site.after_nil]
  exact id

theorem emit {op : Opcode} {operands : List Nat} (hcounts : (Instr.mk op operands).Counts all) :
    Reckons all site [] [] (Fragment.emit op operands) := by
  cases hemit : Fragment.emit op operands with
  | ok f =>
      rcases Fragment.emit_eq_ok_iff.1 hemit with ⟨hvalid, rfl⟩
      exact code (List.forall_mem_singleton.2 ⟨hvalid, hcounts⟩)
  | error e =>
      unfold Fragment.emit at hemit
      split at hemit
      · cases hemit
      · cases hemit
        trivial

theorem seq {second : Fragment → Except CompileError Fragment} (h : Reckons all site xs l layout)
    (hnext : ∀ f, Reckons all (site.after xs) ys l' (second f)) :
    Reckons all site (xs ++ ys) (l ++ l') (Fragment.seq layout second) := by
  cases layout with
  | error e =>
      refine h.error (List.subset_append_left _ _) ?_
      rw [Site.after_append]
      exact Site.slots_le_after _ _
  | ok f =>
      have hrest := hnext f
      cases hsecond : second f with
      | error e =>
          rw [hsecond] at hrest
          rw [Fragment.seq_of_error hsecond]
          refine hrest.error (List.subset_append_right _ _) ?_
          rw [Site.after_append]
      | ok g =>
          rw [hsecond] at hrest
          rw [Fragment.seq_of_ok hsecond]
          refine ⟨h.1.append hrest.1, fun hroom => ?_⟩
          rw [Site.after_append]
          exact hrest.2 (h.2 hroom)

/-- A last instruction behind other code. -/
theorem seq_emit (h : Reckons all site xs l layout) {op : Opcode} {operands : List Nat}
    (hcounts : (Instr.mk op operands).Counts all) :
    Reckons all site xs l (Fragment.seq layout fun _ => Fragment.emit op operands) := by
  have hlast : Reckons all (site.after xs) [] [] (Fragment.emit op operands) := emit hcounts
  have hseq := h.seq fun _ => hlast
  rw [List.append_nil, List.append_nil] at hseq
  exact hseq

theorem seq_code (h : Reckons all site xs l layout) {is : List Instr}
    (his : ∀ i ∈ is, i.Valid ∧ i.Counts all) :
    Reckons all site xs l (Fragment.seq layout fun _ => .ok (.ofInstrs is)) := by
  have hlast : Reckons all (site.after xs) [] [] (.ok (.ofInstrs is)) := code his
  have hseq := h.seq fun _ => hlast
  rw [List.append_nil, List.append_nil] at hseq
  exact hseq

/-- The jumps of a conditional stand between its parts. Where they lead to is known behind them. -/
theorem conditional (start : Nat) {yes no : Nat → Except CompileError Fragment}
    (htest : Reckons all site xs l layout)
    (hyes : ∀ here, Reckons all (site.after xs) ys l' (yes here))
    (hno : ∀ here, Reckons all ((site.after xs).after ys) zs l'' (no here)) :
    Reckons all site (xs ++ (ys ++ zs)) (l ++ (l' ++ l''))
      (Fragment.conditional start layout yes no) := by
  -- A jump that cannot be encoded is no complaint about locals.
  have hjump : ∀ {op : Opcode} (target : Nat), op = .jump ∨ op = .jumpNotTruthy →
      Reckons all site [] [] (Fragment.emit op [target]) := by
    rintro op target (rfl | rfl) <;> exact emit (Instr.counts_of_op (by decide))
  have hwhole : site.slots ≤ (site.after (xs ++ (ys ++ zs))).slots := Site.slots_le_after _ _
  unfold Fragment.conditional
  cases layout with
  | error e =>
      refine htest.error (List.subset_append_left _ _) ?_
      rw [Site.after_append]
      exact Site.slots_le_after _ _
  | ok t =>
  have hy := hyes (start + t.size + 3)
  cases hyes' : yes (start + t.size + 3) with
  | error e =>
      rw [hyes'] at hy
      simp only [bind, Except.bind, hyes']
      refine hy.error (List.subset_append_of_subset_right _ (List.subset_append_left _ _)) ?_
      rw [Site.after_append, Site.after_append]
      exact Site.slots_le_after _ _
  | ok y =>
  rw [hyes'] at hy
  have htoNo := hjump (start + t.size + 3 + y.size + 3) (.inr rfl)
  cases hto : Fragment.emit .jumpNotTruthy [start + t.size + 3 + y.size + 3] with
  | error e =>
      rw [hto] at htoNo
      simp only [bind, Except.bind, hyes', hto]
      refine htoNo.error (List.nil_subset _) ?_
      rw [Site.after_nil]
      exact hwhole
  | ok toNo =>
  rw [hto] at htoNo
  have hn := hno (start + t.size + 3 + y.size + 3)
  cases hno' : no (start + t.size + 3 + y.size + 3) with
  | error e =>
      rw [hno'] at hn
      simp only [bind, Except.bind, hyes', hto, hno']
      refine hn.error (List.subset_append_of_subset_right _ (List.subset_append_right _ _)) ?_
      rw [Site.after_append, Site.after_append]
  | ok n =>
  rw [hno'] at hn
  have htoFinish := hjump (start + t.size + 3 + y.size + 3 + n.size) (.inl rfl)
  cases hfinish : Fragment.emit .jump [start + t.size + 3 + y.size + 3 + n.size] with
  | error e =>
      rw [hfinish] at htoFinish
      simp only [bind, Except.bind, hyes', hto, hno', hfinish]
      refine htoFinish.error (List.nil_subset _) ?_
      rw [Site.after_nil]
      exact hwhole
  | ok toFinish =>
      rw [hfinish] at htoFinish
      simp only [bind, Except.bind, hyes', hto, hno', hfinish, pure, Except.pure]
      refine ⟨?_, fun hroom => ?_⟩
      · exact htest.1.append (htoNo.1.append (hy.1.append (htoFinish.1.append hn.1)))
      · rw [Site.after_append, Site.after_append]
        exact hn.2 (hy.2 (htest.2 hroom))

/-! ## Names and literals -/

theorem load (name : String) : Reckons all site [] [] (site.load name) := by
  unfold Site.load
  cases site.place? name with
  | none => trivial
  | some place =>
      cases place with
      | global | cell | captured | self | builtin =>
          unfold Place.load
          exact emit (Instr.counts_of_op (by decide))

theorem loadAll (names : List String) : Reckons all site [] [] (site.loadAll names) := by
  induction names with
  | nil => exact code (List.forall_mem_nil _)
  | cons name rest ih =>
      have hrest : Reckons all (site.after []) [] [] (site.loadAll rest) := by
        rw [Site.after_nil]
        exact ih
      exact (load name).seq fun _ => hrest

/-- A name that is bound in a function needs a cell. -/
theorem store (name : String) : Reckons all site [.bind name] [] site.store := by
  unfold Site.store
  cases hbody : site.body with
  | none =>
      refine (emit (Instr.counts_of_op (by decide))).at_events ?_
      rw [Site.slots_after_of_none hbody, Site.slots, hbody]
  | some locals =>
      have hnext : (site.after [.bind name]).slots = locals.names.length + 1 := by
        rw [Site.slots_after_of_some hbody, Site.slots, hbody]
        rfl
      by_cases hroom : locals.names.length < maxLocals
      · simp only [if_pos hroom]
        have hemit : Reckons all site [] [] (Fragment.emit .setLocal [locals.names.length]) :=
          emit (Instr.counts_of_op (by decide))
        cases hresult : Fragment.emit .setLocal [locals.names.length] with
        | ok f =>
            rw [hresult] at hemit
            refine ⟨hemit.1, fun _ => ?_⟩
            rw [hnext]
            exact hroom
        | error e =>
            rw [hresult] at hemit
            refine hemit.error (List.nil_subset _) ?_
            rw [Site.after_nil]
            exact Site.slots_le_after _ _
      -- The bound is reached, and this name is one too many.
      · simp only [if_neg hroom]
        refine .inr ?_
        rw [hnext]
        exact Nat.lt_succ_of_le (Nat.le_of_not_lt hroom)

/-- An integer or a string. -/
theorem literal {lit : Literal} {v : Value} (hplaced : [lit] <+: all.drop site.literals)
    (hrecords : lit.Records v) (hplain : ∀ text, lit ≠ .function text) (hinstrs : v.instrs = []) :
    Reckons all site [.literal] [lit] (Fragment.literal site v) := by
  have hsplit : [] ++ lit :: [] <+: all.drop site.literals := hplaced
  have hget : all[site.literals + 0]? = some lit := getElem?_of_placed hsplit
  have hcounts : (Instr.mk .constant [site.literals]).Counts all := by
    intro text htext
    rw [Nat.add_zero, htext] at hget
    exact absurd (Option.some.inj hget).symm (hplain text)
  have hemit : Reckons all site [] [] (Fragment.emit .constant [site.literals]) := emit hcounts
  have hslots : (site.after [.literal]).slots = site.slots := site.slots_after_of_binds rfl
  unfold Fragment.literal
  cases hresult : Fragment.emit .constant [site.literals] with
  | error e =>
      rw [hresult] at hemit
      refine hemit.error (List.nil_subset _) ?_
      rw [Site.after_nil, hslots]
  | ok push =>
      rw [hresult] at hemit
      refine ⟨⟨.cons hrecords .nil, hemit.1.instrs, ?_⟩, ?_⟩
      · refine List.forall_mem_singleton.2 ?_
        rw [hinstrs]
        exact List.forall_mem_nil _
      · rw [hslots]
        exact id

section Function

variable {own : Option String} {params : List String} {body : List Stmt} {around : Around}

/-- The function is pushed as it is, or as a closure of what it captures. -/
theorem make
    (h : site.Charted all around (Event.ofFunction own params (Block.events body))
      (l ++ [.function ⟨own, params, body, around.names⟩]))
    (hlength : l.length = Event.literals (Block.events body)) :
    Reckons all site [] [] (Fragment.make (site.literals + Event.literals (Block.events body))
      (site.captures own params (Block.events body)).length) := by
  have hget : all[site.literals + Event.literals (Block.events body)]? =
      some (.function ⟨own, params, body, around.names⟩) := by
    rw [← hlength]
    exact getElem?_of_placed h.placed
  rw [h.length_captures]
  unfold Fragment.make
  split
  -- The function is a constant only if it captures nothing.
  · rename_i hnone
    refine emit fun text htext => ?_
    rw [hget] at htext
    cases htext
    exact Finset.card_eq_zero.1 hnone
  · rename_i hsome
    exact emit ⟨_, hget, rfl, Nat.pos_of_ne_zero hsome⟩

/-- What follows the body: its constant, which records the parameters and the cells that the body
needs, and the code that makes the function. -/
theorem closing {b : Fragment}
    (h : site.Charted all around (Event.ofFunction own params (Block.events body))
      (l ++ [.function ⟨own, params, body, around.names⟩]))
    (hlength : l.length = Event.literals (Block.events body)) (hb : b.Accounts all l)
    (hfits : params.length + (Block.lets body).length ≤ maxLocals) :
    Reckons all site [] (l ++ [.function ⟨own, params, body, around.names⟩])
      (Fragment.closing site own params (Block.events body) b) := by
  have hloads : Reckons all site [] [] (site.loadAll (site.captures own params (Block.events body))) :=
    loadAll _
  have hpush := make h hlength
  have hinstrs : (Fragment.function params (Block.events body) b).code.instrs = b.instrs :=
    Code.instrs_of_assemble (fun i hi => (hb.instrs i hi).1) rfl
  have hrecords : (Literal.function ⟨own, params, body, around.names⟩).Records
      (.function (.constant (site.literals + Event.literals (Block.events body)))
        (Fragment.function params (Block.events body) b)) := by
    refine ⟨_, _, rfl, rfl, ?_, hfits⟩
    exact congrArg (params.length + ·) (Block.binds_events_perm body).length_eq
  unfold Fragment.closing
  simp only [bind, Except.bind]
  cases hl : site.loadAll (site.captures own params (Block.events body)) with
  | error e =>
      rw [hl] at hloads
      exact hloads.error (List.nil_subset _) (Nat.le_refl _)
  | ok loads =>
  rw [hl] at hloads
  cases hp : Fragment.make (site.literals + Event.literals (Block.events body))
      (site.captures own params (Block.events body)).length with
  | error e =>
      rw [hp] at hpush
      exact hpush.error (List.nil_subset _) (Nat.le_refl _)
  | ok push =>
      rw [hp] at hpush
      refine ⟨⟨?_, ?_, ?_⟩, hpush.2⟩
      -- The function comes behind the literals of its body, and so does its constant.
      · exact List.rel_append hb.records (.cons hrecords .nil)
      · exact List.forall_mem_append.2 ⟨hloads.1.instrs, hpush.1.instrs⟩
      · refine List.forall_mem_append.2 ⟨hb.inner, List.forall_mem_singleton.2 ?_⟩
        show ∀ i ∈ (Fragment.function params (Block.events body) b).code.instrs, _
        rw [hinstrs]
        exact hb.instrs

theorem function
    (h : site.Charted all around (Event.ofFunction own params (Block.events body))
      (l ++ [.function ⟨own, params, body, around.names⟩]))
    (hlength : l.length = Event.literals (Block.events body))
    (hbody : Reckons all (site.enter own params (Block.events body)) (Block.events body) l layout) :
    Reckons all site (Event.ofFunction own params (Block.events body))
      (l ++ [.function ⟨own, params, body, around.names⟩])
      (Fragment.functionLiteral site own params (Block.events body) layout) := by
  have hslots := site.slots_enter_after own params body
  have hself : (.function ⟨own, params, body, around.names⟩ : Literal) ∈
      l ++ [.function ⟨own, params, body, around.names⟩] := by simp
  have hsame : (site.after (Event.ofFunction own params (Block.events body))).slots = site.slots :=
    site.slots_after_of_binds (by simp [Event.ofFunction])
  unfold Fragment.functionLiteral
  -- The parameters alone may be too many.
  by_cases hmany : maxLocals < params.length
  · rw [if_pos hmany]
    exact .inl ⟨_, hself, Nat.lt_of_lt_of_le hmany (Nat.le_add_right _ _)⟩
  rw [if_neg hmany]
  cases layout with
  | error e =>
      cases e with
      | tooManyLocals =>
          -- The body complains about a function inside it, or about its own cells.
          rcases hbody with ⟨text, hmem, htext⟩ | hcells
          · exact .inl ⟨text, List.mem_append_left _ hmem, htext⟩
          · rw [hslots] at hcells
            exact .inl ⟨_, hself, hcells⟩
      | _ => trivial
  | ok b =>
      have hfits : params.length + (Block.lets body).length ≤ maxLocals := by
        rw [← hslots]
        exact hbody.2 (Nat.le_of_not_lt hmany)
      exact (closing h hlength hbody.1 hfits).at_events hsame

end Function

end Reckons

/-! ## Statements and expressions -/

section Trees

variable {all : List Literal}

theorem Tail.counts (tail : Tail) :
    (∀ i ∈ tail.onValue, i.Valid ∧ i.Counts all) ∧ (∀ i ∈ tail.onNothing, i.Valid ∧ i.Counts all) ∧
      ∀ i ∈ Instr.mk .returnValue [] :: tail.onReturn, i.Valid ∧ i.Counts all := by
  have hplain : ∀ {op : Opcode}, op ∈ [Opcode.pop, .pushNull, .returnValue, .returnNull] →
      (Instr.mk op []).Valid ∧ (Instr.mk op []).Counts all := by
    intro op hop
    simp only [List.mem_cons, List.not_mem_nil, or_false] at hop
    rcases hop with rfl | rfl | rfl | rfl <;> exact ⟨.nil, Instr.counts_of_op (by decide)⟩
  cases tail <;>
    simp [Tail.onValue, Tail.onNothing, Tail.onReturn, hplain]

mutual

theorem Stmt.layout_reckons (stmt : Stmt) {around : Around} {site : Site} (tail : Tail) (start : Nat)
    (h : site.Charted all around (Stmt.events stmt) (Stmt.literals around stmt)) :
    Reckons all site (Stmt.events stmt) (Stmt.literals around stmt)
      (Stmt.layout tail site start stmt) := by
  cases stmt with
  | expr value =>
      unfold Stmt.layout
      exact (Expr.layout_reckons none value start h).seq_code tail.counts.1
  | bind name value =>
      unfold Stmt.layout
      have hparts : site.Charted all around (Expr.events (some name) value ++ [.bind name])
          (Expr.literals (some name) around value ++ []) := by
        rw [List.append_nil]
        exact h
      have hseq := (Expr.layout_reckons (some name) value start hparts.left).seq fun _ =>
        (Reckons.store name).seq_code tail.counts.2.1
      rw [List.append_nil] at hseq
      exact hseq
  | ret value =>
      unfold Stmt.layout
      exact (Expr.layout_reckons none value start h).seq_code tail.counts.2.2

theorem Block.layout_reckons (block : List Stmt) {around : Around} {site : Site} (tail : Tail)
    (start : Nat) (h : site.Charted all around (Block.events block) (Block.literals around block)) :
    Reckons all site (Block.events block) (Block.literals around block)
      (Block.layout tail site start block) := by
  cases block with
  | nil => exact .code tail.counts.2.1
  | cons stmt rest =>
      unfold Block.events Block.literals at h ⊢
      cases rest with
      | nil =>
          simp only [Block.events, Block.literals, List.append_nil] at h ⊢
          exact Stmt.layout_reckons stmt tail start h
      | cons next rest =>
          unfold Block.layout
          refine (Stmt.layout_reckons stmt .drop start h.left).seq fun f => ?_
          exact Block.layout_reckons (next :: rest) tail _
            (h.right (Stmt.length_literals around stmt) fun _ => Stmt.mem_binds_events stmt)

theorem Expr.layout_reckons (own : Option String) (expr : Expr) {around : Around} {site : Site}
    (start : Nat)
    (h : site.Charted all around (Expr.events own expr) (Expr.literals own around expr)) :
    Reckons all site (Expr.events own expr) (Expr.literals own around expr)
      (Expr.layout own site start expr) := by
  cases expr with
  | ident name => exact (Reckons.load name).at_events (site.slots_after_of_binds rfl)
  | int n =>
      exact .literal h.placed rfl (fun text htext => by cases htext) rfl
  | str t =>
      exact .literal h.placed rfl (fun text htext => by cases htext) rfl
  | bool b =>
      unfold Expr.layout
      cases b <;> exact .emit (Instr.counts_of_op (by decide))
  | unary operator operand =>
      unfold Expr.events Expr.literals at h ⊢
      unfold Expr.layout
      cases hop : Compile.unaryOpcode? operator with
      | none => trivial
      | some op =>
          refine (Expr.layout_reckons none operand start h).seq_emit (Instr.counts_of_op ?_)
          have hmem := Compile.unaryOpcode?_mem hop
          simp only [List.mem_cons, List.not_mem_nil, or_false] at hmem
          rcases hmem with rfl | rfl <;> decide
  | binary left operator right =>
      unfold Expr.events Expr.literals at h ⊢
      unfold Expr.layout
      by_cases hless : operator = "<"
      · simp only [if_pos hless] at h ⊢
        -- The right side is laid out first, so the left one comes behind its events.
        refine (Expr.layout_reckons none right start h.left).seq fun f => ?_
        refine (Expr.layout_reckons none left _ (h.right (Expr.length_literals none around right)
          fun _ => Expr.mem_binds_events none right)).seq_emit (Instr.counts_of_op (by decide))
      · simp only [if_neg hless] at h ⊢
        cases hop : Compile.binaryOpcode? operator with
        | none => trivial
        | some op =>
            refine (Expr.layout_reckons none left start h.left).seq fun f => ?_
            refine (Expr.layout_reckons none right _ (h.right (Expr.length_literals none around left)
              fun _ => Expr.mem_binds_events none left)).seq_emit (Instr.counts_of_op ?_)
            have hmem := Compile.binaryOpcode?_mem hop
            simp only [List.mem_cons, List.not_mem_nil, or_false] at hmem
            rcases hmem with rfl | rfl | rfl | rfl | rfl | rfl | rfl <;> decide
  | cond test yes no =>
      cases no with
      | none =>
          unfold Expr.events Expr.literals at h ⊢
          unfold Expr.layout
          have hyes := h.right (Expr.length_literals none around test)
            fun _ => Expr.mem_binds_events none test
          have hcond := Reckons.conditional start
            (Expr.layout_reckons none test start h.left)
            (fun here => Block.layout_reckons yes .keep here hyes)
            (fun _ => .code Tail.keep.counts.2.1)
          -- Where there is no other branch, it has neither events nor literals.
          rw [List.append_nil, List.append_nil] at hcond
          exact hcond
      | some no =>
          unfold Expr.events Expr.literals at h ⊢
          unfold Expr.layout
          have hbranches := h.right (Expr.length_literals none around test)
            fun _ => Expr.mem_binds_events none test
          have hno := hbranches.right (Block.length_literals _ yes)
            fun _ => Block.mem_binds_events yes
          exact Reckons.conditional start (Expr.layout_reckons none test start h.left)
            (fun here => Block.layout_reckons yes .keep here hbranches.left)
            (fun here => Block.layout_reckons no .keep here hno)
  | function params body =>
      unfold Expr.events Expr.literals at h ⊢
      unfold Expr.layout
      exact .function h (Block.length_literals _ body) (Block.layout_reckons body .leave 0 h.enter)
  | call callee args =>
      unfold Expr.events Expr.literals at h ⊢
      unfold Expr.layout
      refine (Expr.layoutList_reckons args start h.left).seq fun f => ?_
      exact (Expr.layout_reckons none callee _ (h.right (Expr.length_literalsList around args)
        fun _ => Expr.mem_binds_eventsList args)).seq_emit (Instr.counts_of_op (by decide))
  | array elements =>
      unfold Expr.events Expr.literals at h ⊢
      unfold Expr.layout
      exact (Expr.layoutList_reckons elements start h).seq_emit (Instr.counts_of_op (by decide))
  | hash pairs =>
      unfold Expr.events Expr.literals at h ⊢
      unfold Expr.layout
      exact (Expr.layoutPairs_reckons pairs start h).seq_emit (Instr.counts_of_op (by decide))
  | index collection key =>
      unfold Expr.events Expr.literals at h ⊢
      unfold Expr.layout
      refine (Expr.layout_reckons none collection start h.left).seq fun f => ?_
      exact (Expr.layout_reckons none key _ (h.right (Expr.length_literals none around collection)
        fun _ => Expr.mem_binds_events none collection)).seq_emit (Instr.counts_of_op (by decide))

theorem Expr.layoutList_reckons (exprs : List Expr) {around : Around} {site : Site} (start : Nat)
    (h : site.Charted all around (Expr.eventsList exprs) (Expr.literalsList around exprs)) :
    Reckons all site (Expr.eventsList exprs) (Expr.literalsList around exprs)
      (Expr.layoutList site start exprs) := by
  cases exprs with
  | nil => exact .code (List.forall_mem_nil _)
  | cons expr rest =>
      unfold Expr.eventsList Expr.literalsList at h ⊢
      unfold Expr.layoutList
      refine (Expr.layout_reckons none expr start h.left).seq fun f => ?_
      exact Expr.layoutList_reckons rest _
        (h.right (Expr.length_literals none around expr) fun _ => Expr.mem_binds_events none expr)

theorem Expr.layoutPairs_reckons (pairs : List (Expr × Expr)) {around : Around} {site : Site}
    (start : Nat)
    (h : site.Charted all around (Expr.eventsPairs pairs) (Expr.literalsPairs around pairs)) :
    Reckons all site (Expr.eventsPairs pairs) (Expr.literalsPairs around pairs)
      (Expr.layoutPairs site start pairs) := by
  cases pairs with
  | nil => exact .code (List.forall_mem_nil _)
  | cons pair rest =>
      obtain ⟨key, value⟩ := pair
      unfold Expr.eventsPairs Expr.literalsPairs at h ⊢
      unfold Expr.layoutPairs
      have hvalue := h.right (Expr.length_literals none around key)
        fun _ => Expr.mem_binds_events none key
      have hrest := hvalue.right (Expr.length_literals none _ value)
        fun _ => Expr.mem_binds_events none value
      refine (Expr.layout_reckons none key start h.left).seq fun f => ?_
      refine (Expr.layout_reckons none value _ hvalue.left).seq fun g => ?_
      exact Expr.layoutPairs_reckons rest _ hrest

end

end Trees

/-! ## Programs -/

namespace Bytecode

/-- A buffer of bytecode: the program, or the body of a function. -/
def HasBuffer (b : Bytecode) (code : Code) : Prop :=
  code = b.code ∨ ∃ id f, .function id f ∈ b.constants ∧ code = f.code

/-- The resources that bytecode names are those of the literals in its program. -/
structure Reckoned (literals : List Literal) (b : Bytecode) : Prop where
  /-- There is one constant for each literal. -/
  size : b.constants.size = literals.length
  size_le : b.constants.size ≤ 65536
  functions : ∀ (n : Nat) text, literals[n]? = some (.function text) →
    ∃ id f, b.constants[n]? = some (.function id f) ∧ f.numParams = text.params.length ∧
      f.numLocals = text.params.length + (Block.lets text.body).length ∧ f.numLocals ≤ 256
  closures : ∀ code, b.HasBuffer code → ∀ offset n count, code.Has offset .closure [n, count] →
    ∃ text, literals[n]? = some (.function text) ∧ count = text.captured.card ∧
      0 < count ∧ count ≤ 255
  /-- A function that is not made into a closure has nothing to capture. -/
  constants : ∀ code, b.HasBuffer code → ∀ offset n, code.Has offset .constant [n] →
    ∀ text, literals[n]? = some (.function text) → text.captured = ∅

end Bytecode

/-- A program before its first statement. -/
theorem Program.charted (program : Program) :
    Site.initial.Charted program.literals none (Block.events program) program.literals where
  placed := List.prefix_refl _
  top := ⟨fun _ => rfl, fun _ => rfl⟩
  visible := List.forall_mem_nil _
  captured := fun name _ hname => absurd hname (Finset.notMem_empty name)

/-- An instruction names a constant in two bytes. -/
theorem Instr.Valid.reference_lt {i : Instr} (h : i.Valid) {n : Nat} (hn : i.reference? = some n) :
    n < 65536 := by
  obtain ⟨op, operands⟩ := i
  have hword : ∀ {widths : List Width},
      List.Forall₂ (fun (w : Width) n => n < w.limit) (.word :: widths) operands →
        operands.head? = some n → n < 65536 := by
    intro widths hvalid hhead
    rcases List.forall₂_cons_left_iff.1 hvalid with ⟨m, rest, hm, -, rfl⟩
    cases hhead
    exact hm
  unfold Instr.reference? at hn
  split at hn
  · rename_i hop
    subst hop
    exact hword h hn
  · rename_i hop
    subst hop
    exact hword h hn
  · cases hn

/-- A closure counts what it captures in one byte. -/
theorem Instr.Valid.count_lt {n count : Nat} (h : (Instr.mk .closure [n, count]).Valid) :
    count < 256 := by
  rcases List.forall₂_cons.1 h with ⟨-, hrest⟩
  exact (List.forall₂_cons.1 hrest).1

theorem Fragment.Accounts.reference_lt {all literals : List Literal} {f : Fragment}
    (h : f.Accounts all literals) {n : Nat} (hn : n ∈ f.allReferences) : n < 65536 := by
  rcases List.mem_append.1 hn with hn | hn
  · rcases List.mem_filterMap.1 hn with ⟨i, hi, href⟩
    exact (h.instrs i hi).1.reference_lt href
  · rcases List.mem_flatMap.1 hn with ⟨v, hv, hn⟩
    cases v with
    | function id g =>
        rcases List.mem_filterMap.1 hn with ⟨i, hi, href⟩
        exact (h.inner _ hv i hi).1.reference_lt href
    | _ => exact absurd hn (List.not_mem_nil)

theorem Literal.Records.getElem? {literals : List Literal} {values : List Value}
    (h : List.Forall₂ Literal.Records literals values) {n : Nat} {lit : Literal}
    (hget : literals[n]? = some lit) : ∃ v, values[n]? = some v ∧ lit.Records v := by
  induction h generalizing n with
  | nil => cases hget
  | cons hrecords _ ih =>
      cases n with
      | zero =>
          cases hget
          exact ⟨_, rfl, hrecords⟩
      | succ n => exact ih hget

/-- Bytecode with the code and the constants of a fragment that accounts for the literals. -/
theorem Fragment.Accounts.reckoned {literals : List Literal} {f : Fragment} {b : Bytecode}
    (h : f.Accounts literals literals) (hinstrs : b.code.instrs = f.instrs)
    (hconstants : b.constants.toList = f.constants)
    (hreferences : ∀ n < f.constants.length, n ∈ f.allReferences) : b.Reckoned literals := by
  have hbuffer : ∀ code, b.HasBuffer code → ∀ i ∈ code.instrs, i.Valid ∧ i.Counts literals := by
    rintro code (rfl | ⟨id, g, hmem, rfl⟩)
    · rw [hinstrs]
      exact h.instrs
    · rw [← Array.mem_toList_iff, hconstants] at hmem
      exact h.inner _ hmem
  have hsize : b.constants.size = f.constants.length := by
    rw [← Array.length_toList, hconstants]
  exact
    { size := by rw [hsize, h.records.length_eq]
      size_le := by
        -- The last constant is referred to, too.
        rcases Nat.eq_zero_or_pos f.constants.length with hzero | hpos
        · omega
        · have hlast := h.reference_lt (hreferences (f.constants.length - 1) (by omega))
          omega
      functions := by
        intro n text hget
        rcases Literal.Records.getElem? h.records hget with ⟨v, hv, hrecords⟩
        rcases hrecords with ⟨id, g, rfl, hparams, hlocals, hroom⟩
        refine ⟨id, g, ?_, hparams, hlocals, ?_⟩
        · rw [← Array.getElem?_toList, hconstants]
          exact hv
        · rw [hlocals]
          exact hroom
      closures := by
        intro code hcode offset n count hhas
        rcases hbuffer code hcode _ (Code.mem_instrs_of_has hhas) with ⟨hvalid, hcounts⟩
        rcases hcounts with ⟨text, hget, hcount, hpos⟩
        exact ⟨text, hget, hcount, hpos, Nat.le_of_lt_succ hvalid.count_lt⟩
      constants := by
        intro code hcode offset n hhas
        exact (hbuffer code hcode _ (Code.mem_instrs_of_has hhas)).2 }

/-- The number of constants, the numbers that functions record and those of the closures are read off
the text of a program that compiles. A program with too many locals has a function with too many. -/
theorem Program.compile_counts (program : Program) :
    (∀ bytecode, program.compile = .ok bytecode → bytecode.Reckoned program.literals) ∧
      (program.compile = .error .tooManyLocals →
        ∃ text, .function text ∈ program.literals ∧
          256 < text.params.length + (Block.lets text.body).length) := by
  have hreckons := Block.layout_reckons program .drop 0 program.charted
  constructor
  · intro bytecode hcompile
    rcases Program.exists_of_compile hcompile with ⟨c, hc, rfl⟩
    rcases Program.compile_layout Agrees.initial rfl rfl hc with ⟨f, hw, hlayout, hwithin, hpool⟩
    have hsound := Block.layout_sound program (fun hdrop => by cases hdrop) _ hwithin hlayout hpool
      (Int.le_refl 0)
    rw [hlayout] at hreckons
    refine hreckons.1.reckoned (Code.instrs_of_assemble hsound.valid hw.code) hw.constants ?_
    intro n hn
    rw [hsound.references.mem_iff, List.mem_range'_1]
    rw [hsound.length] at hn
    exact ⟨Nat.zero_le n, hn.trans_eq (Nat.zero_add _).symm⟩
  · intro hcompile
    rw [Program.compile_eq_error_iff.1 hcompile] at hreckons
    rcases hreckons with hmany | hcells
    · exact hmany
    · -- The top level has no cells.
      rw [Site.slots_after_of_none rfl] at hcells
      exact absurd hcells (Nat.not_lt_zero _)

/-- The innermost function captures a parameter of the one around it, and through it a `let` in a
branch of the outermost function and the own name of that. Both closures are made, each with as many
captured values as there are such names. A function with 257 parameters is refused. -/
theorem Program.compile_counts_of_nested :
    (∃ (program : Program) (bytecode : Bytecode),
      program =
        [.bind "f" (.function ["a", "b"]
          [.expr (.cond (.binary (.ident "a") "<" (.ident "b")) [.bind "b" (.ident "a")] none),
          .expr (.function ["x"] [.expr (.function []
            [.expr (.call (.ident "f") [.ident "b", .ident "x"])])])])] ∧
      program.compile = .ok bytecode ∧ bytecode.constants.size = 3 ∧
      (∃ id f, bytecode.constants[2]? = some (.function id f) ∧ f.numParams = 2 ∧ f.numLocals = 3) ∧
      (∃ code, bytecode.HasBuffer code ∧ code.Has 6 .closure [0, 3]) ∧
      (∃ code, bytecode.HasBuffer code ∧ code.Has 21 .closure [1, 2]) ∧
      (∀ code, bytecode.HasBuffer code → ∀ offset count,
        (code.Has offset .closure [0, count] → count = 3) ∧
          (code.Has offset .closure [1, count] → count = 2))) ∧
    ∃ program : Program, program = [.expr (.function (List.replicate 257 "p") [])] ∧
      program.compile = .error .tooManyLocals ∧
      ∃ text, .function text ∈ program.literals ∧
        256 < text.params.length + (Block.lets text.body).length := by
  constructor
  · obtain ⟨program, hprogram⟩ : ∃ program : Program, program =
        [.bind "f" (.function ["a", "b"]
          [.expr (.cond (.binary (.ident "a") "<" (.ident "b")) [.bind "b" (.ident "a")] none),
          .expr (.function ["x"] [.expr (.function []
            [.expr (.call (.ident "f") [.ident "b", .ident "x"])])])])] := ⟨_, rfl⟩
    have hcompiles : program.compiles .initial = true := by
      rw [hprogram]
      decide +kernel
    have hcompile := Program.compile_of_compiles hcompiles
    have hreckoned := (Program.compile_counts program).1 _ hcompile
    -- The two functions in whose code closures are made.
    have hmiddle : (finalState ((Block.compile program).run .initial)).constants[1]? =
        some (.function (.constant 1)
          { code := (assemble ([⟨.getFree, [0]⟩, ⟨.getLocal, [0]⟩, ⟨.getFree, [1]⟩] ++
              ⟨.closure, [0, 3]⟩ :: [⟨.returnValue, []⟩])).toArray
            numLocals := 1
            numParams := 1 }) := by
      rw [hprogram]
      decide +kernel
    have houter : (finalState ((Block.compile program).run .initial)).constants[2]? =
        some (.function (.constant 2)
          { code := (assemble ([⟨.getLocal, [1]⟩, ⟨.getLocal, [0]⟩, ⟨.greaterThan, []⟩,
              ⟨.jumpNotTruthy, [16]⟩, ⟨.getLocal, [0]⟩, ⟨.setLocal, [2]⟩, ⟨.pushNull, []⟩,
              ⟨.jump, [17]⟩, ⟨.pushNull, []⟩, ⟨.pop, []⟩, ⟨.getLocal, [2]⟩,
              ⟨.currentClosure, []⟩] ++ ⟨.closure, [1, 2]⟩ :: [⟨.returnValue, []⟩])).toArray
            numLocals := 3
            numParams := 2 }) := by
      rw [hprogram]
      decide +kernel
    have hcaptured : ∀ {n : Nat} {text : FunctionText},
        program.literals[n]? = some (.function text) →
          (n = 0 → text.captured.card = 3) ∧ (n = 1 → text.captured.card = 2) := by
      rw [hprogram]
      intro n text hget
      refine ⟨?_, ?_⟩
      · rintro rfl
        cases hget
        decide
      · rintro rfl
        cases hget
        decide
    refine ⟨program, _, hprogram, hcompile, ?_, ?_,
      ⟨_, .inr ⟨_, _, Array.mem_of_getElem? hmiddle, rfl⟩, ?_⟩,
      ⟨_, .inr ⟨_, _, Array.mem_of_getElem? houter, rfl⟩, ?_⟩, ?_⟩
    · rw [hreckoned.size, hprogram]
      decide
    · have hget : ∃ text, program.literals[2]? = some (.function text) ∧ text.params.length = 2 ∧
          (Block.lets text.body).length = 1 := by
        rw [hprogram]
        exact ⟨_, rfl, by decide, by decide⟩
      rcases hget with ⟨text, hget, hparams, hlets⟩
      rcases hreckoned.functions 2 text hget with ⟨id, f, hf, hnumParams, hnumLocals, -⟩
      rw [hparams] at hnumParams
      rw [hparams, hlets] at hnumLocals
      exact ⟨id, f, hf, hnumParams, hnumLocals⟩
    · exact Code.has_of_assemble (by decide) rfl
    · exact Code.has_of_assemble (by decide) rfl
    · intro code hcode offset count
      constructor
      · intro hhas
        rcases hreckoned.closures code hcode _ _ _ hhas with ⟨text, hget, hcount, -⟩
        exact hcount.trans ((hcaptured hget).1 rfl)
      · intro hhas
        rcases hreckoned.closures code hcode _ _ _ hhas with ⟨text, hget, hcount, -⟩
        exact hcount.trans ((hcaptured hget).2 rfl)
  · have hrefused : Program.compile [.expr (.function (List.replicate 257 "p") [])] =
        .error .tooManyLocals := by
      have hmany : maxLocals < (List.replicate 257 "p").length := by
        rw [List.length_replicate]
        decide
      refine Program.compile_eq_error_iff.2 ?_
      rw [Block.layout, Stmt.layout, Expr.layout, Fragment.functionLiteral, if_pos hmany]
      rfl
    exact ⟨_, rfl, hrefused, (Program.compile_counts _).2 hrefused⟩

end MonkeyMachine
