import MonkeyMachine.Proofs.CaptureChains

/-!
# Lexical lookup

Looking a name up is lexical: the nearest scope that binds the name decides what it stands for. A
name of the top level or of a builtin is reached from everywhere, and nothing changes. Any other
name is captured by each scope on the way out, and by no other: `Scope.Gained` says that a scope has
gained one capture and is otherwise as it was.

A scope that is around the current one can therefore change in one way only until it is the current
one again. `Scope.Kept` says what it keeps, and `During table later` that everything from `table` to
`later` has happened in scopes further in.
-/

namespace MonkeyMachine

/-! ## One scope -/

namespace Scope

/-- The scope has captured `name`, as its last capture, and is otherwise as it was. -/
structure Gained (name : String) (old new : Scope) : Prop where
  definitions : new.definitions = old.definitions
  captures : ∃ original : Symbol, original.name = name ∧ new.captures = old.captures ++ [original]
  found : new.find? name = some ⟨name, .free, old.captures.length⟩
  others : ∀ other, other ≠ name → new.find? other = old.find? other

theorem gained_capture (scope : Scope) (original : Symbol) :
    Gained original.name scope (scope.capture original).2 where
  definitions := rfl
  captures := ⟨original, rfl, rfl⟩
  found := by rw [find?_capture, if_pos rfl]
  others := by
    intro other hne
    rw [find?_capture, if_neg hne]

/-- The scope has kept what it had. What it knows in addition are captures. -/
structure Kept (old new : Scope) : Prop where
  definitions : new.definitions = old.definitions
  captures : old.captures <+: new.captures
  bindings : ∀ name symbol, old.find? name = some symbol → new.find? name = some symbol
  added : ∀ name symbol, old.find? name = none → new.find? name = some symbol →
    symbol.storage = .free

namespace Kept

variable {first second third : Scope}

theorem refl (scope : Scope) : Kept scope scope where
  definitions := rfl
  captures := List.prefix_refl _
  bindings := fun _ _ h => h
  added := by
    intro name symbol hnone hsome
    rw [hnone] at hsome
    cases hsome

theorem trans (h : Kept first second) (h' : Kept second third) : Kept first third where
  definitions := h'.definitions.trans h.definitions
  captures := h.captures.trans h'.captures
  bindings := fun name symbol hfind => h'.bindings name symbol (h.bindings name symbol hfind)
  added := by
    intro name symbol hnone hsome
    cases hsecond : second.find? name with
    | none => exact h'.added name symbol hsecond hsome
    | some between =>
        have hthird := h'.bindings name between hsecond
        rw [hthird] at hsome
        cases hsome
        exact h.added name symbol hnone hsecond

end Kept

theorem Gained.kept {name : String} {old new : Scope} (h : Gained name old new)
    (hnone : old.find? name = none) : Kept old new where
  definitions := h.definitions
  captures := by
    rcases h.captures with ⟨original, -, hcaptures⟩
    exact ⟨[original], hcaptures.symm⟩
  bindings := by
    intro other symbol hfind
    -- What `old` knows is not the name that was gained.
    have hne : other ≠ name := by
      rintro rfl
      rw [hnone] at hfind
      cases hfind
    rw [h.others other hne]
    exact hfind
  added := by
    intro other symbol hother hfind
    by_cases heq : other = name
    · rw [heq, h.found] at hfind
      cases hfind
      rfl
    · rw [h.others other heq, hother] at hfind
      cases hfind

end Scope

namespace SymbolTable

/-! ## Finding the nearest binding -/

theorem resolve_eq_none_iff {table : SymbolTable} {name : String} :
    table.resolve name = none ↔ ∀ scope ∈ table.scopes, scope.find? name = none := by
  induction table with
  | global scope => simp [resolve, scopes]
  | nested scope outer ih =>
      rw [scopes, List.forall_mem_cons, ← ih]
      cases hfind : scope.find? name with
      | some symbol => simp [resolve, hfind]
      | none =>
          cases hres : outer.resolve name with
          | none => simp [resolve, hfind, hres]
          | some found =>
              obtain ⟨symbol, outer'⟩ := found
              cases hreach : symbol.storage.reachable <;> simp [resolve, hfind, hres, hreach]

variable {table table' : SymbolTable} {ledgers : List Ledger} {name : String}
  {inner outer : List Scope} {scope : Scope} {symbol : Symbol}

theorem scope_of_scopes (h : table.scopes = scope :: outer) : table.scope = scope := by
  cases table with
  | global _ => exact (List.cons.inj h).1
  | nested _ _ => exact (List.cons.inj h).1

/-- A name of the top level, or of a builtin, is found and nothing else happens. -/
theorem finds_of_reachable (hscopes : table.scopes = inner ++ scope :: outer)
    (hinner : ∀ s ∈ inner, s.find? name = none) (hfind : scope.find? name = some symbol)
    (hreach : symbol.storage.reachable = true) : Finds name table symbol table := by
  induction inner generalizing table with
  | nil =>
      rw [← scope_of_scopes hscopes] at hfind
      exact .here hfind
  | cons innermost inner ih =>
      cases table with
      | global _ => simp [scopes] at hscopes
      | nested innermost' around =>
          obtain ⟨rfl, hrest⟩ := List.cons.inj hscopes
          have hnone := hinner _ List.mem_cons_self
          exact .past hnone (ih hrest fun s hs => hinner s (List.mem_cons_of_mem _ hs)) hreach

/-- Any other name is captured by every scope inside of the one that binds it. -/
theorem Named.finds_of_captured (h : table.Named)
    (hscopes : table.scopes = inner ++ scope :: outer)
    (hinner : ∀ s ∈ inner, s.find? name = none) (hfind : scope.find? name = some symbol)
    (hreach : symbol.storage.reachable = false) :
    ∃ found table' inner', Finds name table found table' ∧ found.storage.reachable = false ∧
      (inner ≠ [] → found.storage = .free) ∧ table'.scopes = inner' ++ scope :: outer ∧
      List.Forall₂ (Scope.Gained name) inner inner' := by
  induction inner generalizing table with
  | nil =>
      rw [← scope_of_scopes hscopes] at hfind
      exact ⟨symbol, table, [], .here hfind, hreach, by simp, hscopes, .nil⟩
  | cons innermost inner ih =>
      cases table with
      | global _ => simp [scopes] at hscopes
      | nested innermost' around =>
          obtain ⟨rfl, hrest⟩ := List.cons.inj hscopes
          have hnone := hinner _ List.mem_cons_self
          rcases ih h.outer hrest fun s hs => hinner s (List.mem_cons_of_mem _ hs) with
            ⟨original, around', inner', hfinds, horiginal, -, hscopes', hgained⟩
          -- What the scope around finds becomes the last capture of this one.
          have hname := hfinds.name_eq h.outer
          subst hname
          refine ⟨_, _, (innermost'.capture original).2 :: inner',
            .captured hnone hfinds horiginal, rfl, fun _ => rfl, ?_, ?_⟩
          · show (innermost'.capture original).2 :: around'.scopes = _
            rw [hscopes']
            rfl
          · exact .cons (innermost'.gained_capture original) hgained

/-- A name that was found is found again, in the same place. -/
theorem Finds.again (h : Finds name table symbol table') (hnamed : symbol.name = name) :
    Finds name table' symbol table' := by
  induction h with
  | here hfind => exact .here hfind
  | past hscope _ hreach ih => exact .past hscope (ih hnamed) hreach
  | captured hscope houter hreach _ =>
      exact .here ((Finds.captured hscope houter hreach).stored hnamed rfl)

/-! ## What stays as it was -/

/-- Two chains with equally many scopes, related scope by scope. -/
inductive Levels (R : Scope → Scope → Prop) : SymbolTable → SymbolTable → Prop
  | global {old new : Scope} (h : R old new) : Levels R (global old) (global new)
  | nested {old new : Scope} {outer outer' : SymbolTable} (h : R old new)
      (houter : Levels R outer outer') : Levels R (nested old outer) (nested new outer')

namespace Levels

variable {R : Scope → Scope → Prop} {first second third : SymbolTable}

theorem refl (hrefl : ∀ scope, R scope scope) (table : SymbolTable) : Levels R table table := by
  induction table with
  | global scope => exact .global (hrefl scope)
  | nested scope outer ih => exact .nested (hrefl scope) ih

theorem trans (htrans : ∀ {a b c : Scope}, R a b → R b c → R a c) (h : Levels R first second)
    (h' : Levels R second third) : Levels R first third := by
  induction h generalizing third with
  | global h =>
      cases h' with
      | global h' => exact .global (htrans h h')
  | nested h _ ih =>
      cases h' with
      | nested h' houter' => exact .nested (htrans h h') (ih houter')

theorem depth (h : Levels R first second) : second.depth = first.depth := by
  induction h with
  | global _ => rfl
  | nested _ _ ih => exact congrArg (· + 1) ih

end Levels

/-- Looking a name up leaves every scope what it had. -/
theorem Finds.levels_kept (h : Finds name table symbol table') (hnamed : table.Named) :
    Levels Scope.Kept table table' := by
  induction h with
  | here _ => exact .refl Scope.Kept.refl _
  | @past scope _ _ _ _ _ _ ih => exact .nested (.refl scope) (ih hnamed.outer)
  | @captured scope _ _ original hscope houter _ ih =>
      have hname := houter.name_eq hnamed.outer
      subst hname
      exact .nested ((scope.gained_capture original).kept hscope) (ih hnamed.outer)

theorem Named.use_kept (h : table.Named) (name : String) :
    Levels Scope.Kept table (table.use name) := by
  unfold SymbolTable.use
  cases hres : table.resolve name with
  | none => exact .refl Scope.Kept.refl table
  | some found => exact (finds_of_resolve hres).levels_kept h

/-- `later` has come about by entering a scope from `table` and by operations that did not leave
that scope. -/
inductive During (table : SymbolTable) : SymbolTable → Prop
  | enter : During table table.enter
  | perform {current : SymbolTable} (h : During table current) (operation : Operation)
      (hinside : table.depth < (current.perform operation).depth) :
      During table (current.perform operation)

/-- Some scopes have been opened inside of `table`, and those of `table` have kept what they had. -/
inductive Opened (table : SymbolTable) : SymbolTable → Prop
  | base (scope : Scope) {kept : SymbolTable} (h : Levels Scope.Kept table kept) :
      Opened table (nested scope kept)
  | inner (scope : Scope) {current : SymbolTable} (h : Opened table current) :
      Opened table (nested scope current)

namespace Opened

variable {current later : SymbolTable}

theorem depth_lt (h : Opened table current) : table.depth < current.depth := by
  induction h with
  | base scope h => exact Nat.lt_succ_of_le (Nat.le_of_eq h.depth.symm)
  | inner scope _ ih => exact Nat.lt_succ_of_lt ih

theorem withScope (h : Opened table current) (scope : Scope) :
    Opened table (current.withScope scope) := by
  cases h with
  | base _ h => exact .base scope h
  | inner _ h => exact .inner scope h

theorem of_kept (h : Opened table current) (hkept : Levels Scope.Kept current later) :
    Opened table later := by
  induction h generalizing later with
  | base _ h =>
      cases hkept with
      | nested _ houter => exact .base _ (h.trans Scope.Kept.trans houter)
  | inner _ _ ih =>
      cases hkept with
      | nested _ houter => exact .inner _ (ih houter)

/-- One more operation, unless it leaves the first scope that was opened. -/
theorem perform (h : Opened table current) (hnamed : current.Named)
    (operation : Operation) (hinside : table.depth < (current.perform operation).depth) :
    Opened table (current.perform operation) := by
  cases operation with
  | define name => exact h.withScope _
  | defineBuiltin index name => exact h.withScope _
  | defineOwnName name => exact h.withScope _
  | resolve name => exact h.of_kept (hnamed.use_kept name)
  | enter => exact .inner .empty h
  | leave =>
      cases h with
      | @base _ kept h =>
          have hlt : table.depth < kept.depth := hinside
          rw [h.depth] at hlt
          exact absurd hlt (Nat.lt_irrefl _)
      | inner _ h => exact h

/-- Leaving the one scope that is open leads back to `table`. -/
theorem leave (h : Opened table current) (hdepth : current.depth = table.depth + 1) :
    Levels Scope.Kept table (current.perform .leave) := by
  cases h with
  | base _ h => exact h
  | inner scope h =>
      have hlt := h.depth_lt
      have hsame : _ = table.depth := Nat.succ.inj hdepth
      rw [hsame] at hlt
      exact absurd hlt (Nat.lt_irrefl _)

end Opened

theorem During.opened {later : SymbolTable} (hchained : Chained table ledgers)
    (h : During table later) : Opened table later ∧ ∃ ledgers', Chained later ledgers' := by
  induction h with
  | enter => exact ⟨.base .empty (.refl Scope.Kept.refl table), _, hchained.perform .enter⟩
  | perform _ operation hinside ih =>
      rcases ih with ⟨hopened, ledgers', hcurrent⟩
      exact ⟨hopened.perform hcurrent.named operation hinside, _, hcurrent.perform operation⟩

/-- Looking a name up is lexical, and changes nothing but the captures that it needs. It fails where
no scope binds the name. The nearest scope that binds it decides: a symbol of that scope itself, of
the top level or of a builtin is the answer and all scopes stay as they are; for any other symbol
the scopes inside of that one, and only they, gain one capture. Asking again gives the same answer
and changes nothing. A scope that is left again restores what was around it. -/
theorem Reached.resolve_lexical (h : Reached table ledgers) (name : String) :
    (table.resolve name = none ↔ ∀ scope ∈ table.scopes, scope.find? name = none) ∧
      (table.resolve name = none → table.perform (.resolve name) = table) ∧
      (∀ inner scope outer symbol, table.scopes = inner ++ scope :: outer →
        (∀ s ∈ inner, s.find? name = none) → scope.find? name = some symbol →
          (inner = [] ∨ symbol.storage = .global ∨ symbol.storage = .builtin →
            table.resolve name = some (symbol, table)) ∧
          (inner ≠ [] ∧ symbol.storage ≠ .global ∧ symbol.storage ≠ .builtin →
            ∃ captured table' inner', table.resolve name = some (captured, table') ∧
              captured.storage = .free ∧ table'.scope.find? name = some captured ∧
              table'.scopes = inner' ++ scope :: outer ∧
              List.Forall₂ (Scope.Gained name) inner inner')) ∧
      (∀ symbol table', table.resolve name = some (symbol, table') →
        table'.resolve name = some (symbol, table')) ∧
      ∀ later, During table later → later.depth = table.depth + 1 →
        Levels Scope.Kept table (later.perform .leave) := by
  have hchained := h.chained
  refine ⟨resolve_eq_none_iff, ?_, ?_, ?_, ?_⟩
  · intro hnone
    simp [SymbolTable.perform, use, hnone]
  · intro inner scope outer symbol hscopes hinner hfind
    constructor
    · rintro (rfl | hstorage)
      · rw [← scope_of_scopes hscopes] at hfind
        exact resolve_of_find table hfind
      · have hreach : symbol.storage.reachable = true := by
          rcases hstorage with hglobal | hbuiltin
          · rw [hglobal]
            rfl
          · rw [hbuiltin]
            rfl
        exact (finds_of_reachable hscopes hinner hfind hreach).resolve
    · rintro ⟨hne, hglobal, hbuiltin⟩
      have hreach : symbol.storage.reachable = false := by
        cases hstorage : symbol.storage <;> simp_all [Storage.reachable]
      rcases hchained.named.finds_of_captured hscopes hinner hfind hreach with
        ⟨captured, table', inner', hfinds, hcaptured, hfree, hscopes', hgained⟩
      exact ⟨captured, table', inner', hfinds.resolve, hfree hne,
        hfinds.stored (hfinds.name_eq hchained.named) hcaptured, hscopes', hgained⟩
  · intro symbol table' hres
    have hfinds := finds_of_resolve hres
    exact (hfinds.again (hfinds.name_eq hchained.named)).resolve
  · intro later hduring hdepth
    exact (hduring.opened hchained).1.leave hdepth

/-- A parameter is looked up two functions further in, and once more from a scope that is left
again. -/
theorem Reached.resolve_lexical_of_parameter :
    ∃ (table : SymbolTable) (ledgers : List Ledger), Reached table ledgers ∧
      table.scopes.map (·.find? "x") = [none, none, some ⟨"x", .local, 0⟩, none] ∧
      (∃ captured table' inner', table.resolve "x" = some (captured, table') ∧
        captured.storage = .free ∧ table'.scope.find? "x" = some captured ∧
        table'.scopes = inner' ++ table.scopes.drop 2 ∧
        List.Forall₂ (Scope.Gained "x") (table.scopes.take 2) inner') ∧
      Levels Scope.Kept table ((table.enter.perform (.resolve "x")).perform .leave) := by
  have h := Reached.initial |>.perform .enter |>.perform (.define "x")
    |>.perform .enter |>.perform .enter
  have hlexical := h.resolve_lexical "x"
  refine ⟨_, _, h, by decide +kernel, ?_, ?_⟩
  · have hnearest := hlexical.2.2.1 [.empty, .empty] (Scope.empty.define .local "x").2
      [SymbolTable.initial.scope] ⟨"x", .local, 0⟩ rfl (by decide) (by decide)
    exact hnearest.2 (by decide)
  · exact hlexical.2.2.2.2 _ (.perform .enter (.resolve "x") (by decide +kernel))
      (by decide +kernel)

end SymbolTable

end MonkeyMachine
