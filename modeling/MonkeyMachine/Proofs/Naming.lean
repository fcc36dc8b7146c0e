import Mathlib.Data.List.Forall2
import MonkeyMachine.Proofs.Sites

/-!
# Symbol tables and sites

A symbol table is built up while a program is compiled: definitions are entered one by one, and
looking a name up may enter captures in several scopes at once. A site says what the names mean
from the text alone. This file shows that the two agree.

`Agrees table site` is the invariant. `Ready table site events` adds what is known in advance about
the names that `events` will look up, and `Scanned table site events table'` is what the table
looks like behind them. Looking a name up, binding one, and a whole function body each lead from
the first to the second.
-/

namespace MonkeyMachine

/-! ## One scope -/

namespace Scope

theorem find?_bind (scope : Scope) (symbol : Symbol) (name : String) :
    (scope.bind symbol).find? name =
      if name = symbol.name then some symbol else scope.find? name := by
  by_cases h : name = symbol.name
  · subst h
    simp [bind, find?]
  · simp [bind, find?, h, Assoc.find?_insert_of_ne h]

theorem find?_define (scope : Scope) (storage : Storage) (name other : String) :
    (scope.define storage name).2.find? other =
      if other = name then some ⟨name, storage, scope.definitions⟩ else scope.find? other :=
  find?_bind scope ⟨name, storage, scope.definitions⟩ other

theorem find?_capture (scope : Scope) (symbol : Symbol) (other : String) :
    (scope.capture symbol).2.find? other =
      if other = symbol.name then some ⟨symbol.name, .free, scope.captures.length⟩
      else scope.find? other :=
  find?_bind scope ⟨symbol.name, .free, scope.captures.length⟩ other

end Scope

/-! ## The chain of scopes -/

namespace SymbolTable

/-- The scope of the top level. -/
def base : SymbolTable → Scope
  | global scope => scope
  | nested _ outer => outer.base

/-- The chain without its innermost scope. -/
def outer? : SymbolTable → Option SymbolTable
  | global _ => none
  | nested _ outer => some outer

/-- Some function around the current point has a symbol for the name. -/
def Visible (name : String) : SymbolTable → Prop
  | global _ => False
  | nested scope outer => scope.find? name ≠ none ∨ outer.Visible name

/-- Symbols stand under their own names. Those of functions have to be captured, those of the top
level have not. -/
def Layered : SymbolTable → Prop
  | global scope =>
      ∀ name symbol, scope.find? name = some symbol →
        symbol.name = name ∧ symbol.storage.reachable = true
  | nested scope outer =>
      (∀ name symbol, scope.find? name = some symbol →
        symbol.name = name ∧ symbol.storage.reachable = false) ∧ outer.Layered

/-- The table after a name has been looked up. -/
def use (table : SymbolTable) (name : String) : SymbolTable :=
  match table.resolve name with
  | none => table
  | some (_, table') => table'

def useAll (table : SymbolTable) (names : List String) : SymbolTable := names.foldl use table

/-- The names that the innermost function has captured so far. -/
def capturedNames (table : SymbolTable) : List String := table.scope.captures.map Symbol.name

/-- What looking up a name gives and what it leaves of the table. -/
structure Resolved (table : SymbolTable) (name : String) (symbol : Symbol)
    (table' : SymbolTable) : Prop where
  name_eq : symbol.name = name
  unchanged : symbol.storage.reachable = true → table' = table
  captured_iff : symbol.storage.reachable = false ↔ table.Visible name
  stored : symbol.storage.reachable = false → table'.scope.find? name = some symbol
  layered : table'.Layered
  base_eq : table'.base = table.base
  visible_iff : ∀ other, table'.Visible other ↔ table.Visible other
  kept : ∀ other s, table.scope.find? other = some s → table'.scope.find? other = some s

namespace Resolved

variable {table outer outer' : SymbolTable} {scope : Scope} {name : String} {symbol : Symbol}

/-- The innermost scope has a symbol for the name. -/
theorem here (hl : table.Layered) (h : table.scope.find? name = some symbol) :
    Resolved table name symbol table := by
  have hsymbol : symbol.name = name ∧ (symbol.storage.reachable = false ↔ table.Visible name) := by
    cases table with
    | global scope =>
        rcases hl name symbol h with ⟨hname, hreach⟩
        exact ⟨hname, by simp [Visible, hreach]⟩
    | nested scope outer =>
        have hfind : scope.find? name = some symbol := h
        rcases hl.1 name symbol hfind with ⟨hname, hreach⟩
        exact ⟨hname, by simp [Visible, hreach, hfind]⟩
  exact
    { name_eq := hsymbol.1
      unchanged := fun _ => rfl
      captured_iff := hsymbol.2
      stored := fun _ => h
      layered := hl
      base_eq := rfl
      visible_iff := fun _ => Iff.rfl
      kept := fun _ _ hs => hs }

/-- A symbol of the top level is found through a function, and no scope changes. -/
theorem through (hl : (nested scope outer).Layered) (hfind : scope.find? name = none)
    (h : Resolved outer name symbol outer') (hreach : symbol.storage.reachable = true) :
    Resolved (nested scope outer) name symbol (nested scope outer') := by
  obtain rfl := h.unchanged hreach
  have hnot : ¬ outer'.Visible name := by
    intro hvisible
    have hfalse := h.captured_iff.2 hvisible
    simp [hreach] at hfalse
  exact
    { name_eq := h.name_eq
      unchanged := fun _ => rfl
      captured_iff := by simp [Visible, hreach, hfind, hnot]
      stored := by simp [hreach]
      layered := hl
      base_eq := rfl
      visible_iff := fun _ => Iff.rfl
      kept := fun _ _ hs => hs }

/-- A symbol of a function further out becomes a free variable of this one. -/
theorem capture (hl : (nested scope outer).Layered) (hfind : scope.find? name = none)
    (h : Resolved outer name symbol outer') (hreach : symbol.storage.reachable = false) :
    Resolved (nested scope outer) name (scope.capture symbol).1
      (nested (scope.capture symbol).2 outer') := by
  have hvisible : outer.Visible name := h.captured_iff.1 hreach
  obtain rfl := h.name_eq
  exact
    { name_eq := rfl
      unchanged := by simp [Scope.capture, Storage.reachable]
      captured_iff := by simp [Scope.capture, Storage.reachable, Visible, hvisible]
      stored := by
        intro _
        show (scope.capture symbol).2.find? symbol.name = _
        rw [Scope.find?_capture, if_pos rfl]
        rfl
      layered := by
        refine ⟨?_, h.layered⟩
        intro other found hother
        rw [Scope.find?_capture] at hother
        split at hother
        · cases hother
          exact ⟨by simp [*], rfl⟩
        · exact hl.1 other found hother
      base_eq := h.base_eq
      visible_iff := by
        intro other
        show ((scope.capture symbol).2.find? other ≠ none ∨ outer'.Visible other) ↔
          (scope.find? other ≠ none ∨ outer.Visible other)
        rw [Scope.find?_capture, h.visible_iff]
        -- The new free variable was visible before, from further out.
        by_cases hother : other = symbol.name
        · subst hother
          simp [hvisible]
        · simp [hother]
      kept := by
        intro other found hother
        show (scope.capture symbol).2.find? other = some found
        have hother : scope.find? other = some found := hother
        have hne : other ≠ symbol.name := by
          rintro rfl
          rw [hfind] at hother
          cases hother
        rw [Scope.find?_capture, if_neg hne]
        exact hother }

end Resolved

theorem resolved_of_resolve {table table' : SymbolTable} {name : String} {symbol : Symbol}
    (hl : table.Layered) (h : table.resolve name = some (symbol, table')) :
    Resolved table name symbol table' := by
  induction table generalizing table' symbol with
  | global scope =>
      rcases Option.map_eq_some_iff.1 h with ⟨found, hfind, heq⟩
      cases heq
      exact .here hl hfind
  | nested scope outer ih =>
      cases hfind : scope.find? name with
      | some found =>
          obtain ⟨rfl, rfl⟩ : found = symbol ∧ nested scope outer = table' := by
            simpa [resolve, hfind] using h
          exact .here hl hfind
      -- The enclosing scopes are searched only if this one has no symbol.
      | none =>
          cases hres : outer.resolve name with
          | none => simp [resolve, hfind, hres] at h
          | some answer =>
              obtain ⟨found, outer'⟩ := answer
              have houter := ih hl.2 hres
              by_cases hreach : found.storage.reachable = true
              · obtain ⟨rfl, rfl⟩ : found = symbol ∧ nested scope outer' = table' := by
                  simpa [resolve, hfind, hres, hreach] using h
                exact houter.through hl hfind hreach
              · have hfalse : found.storage.reachable = false := by simpa using hreach
                obtain ⟨rfl, rfl⟩ : (scope.capture found).1 = symbol ∧
                    nested (scope.capture found).2 outer' = table' := by
                  simpa [resolve, hfind, hres, hfalse] using h
                exact houter.capture hl hfind hfalse

/-- A name that no function around has a symbol for is one of the top level. -/
theorem resolve_of_not_visible {table : SymbolTable} {name : String} (hl : table.Layered)
    (h : ¬ table.Visible name) :
    table.resolve name = (table.base.find? name).map fun symbol => (symbol, table) := by
  induction table with
  | global scope => rfl
  | nested scope outer ih =>
      have hfind : scope.find? name = none := by
        by_contra hne
        exact h (Or.inl hne)
      have hout := ih hl.2 fun hv => h (Or.inr hv)
      cases hbase : outer.base.find? name with
      | none =>
          rw [hbase] at hout
          simp [resolve, hfind, hout, base, hbase]
      | some symbol =>
          rw [hbase] at hout
          have hr := resolved_of_resolve hl.2 hout
          -- A symbol that had to be captured would make the name visible.
          have hreach : symbol.storage.reachable = true := by
            by_contra hne
            exact h (Or.inr (hr.captured_iff.1 (by simpa using hne)))
          simp [resolve, hfind, hout, base, hbase, hreach]

theorem use_of_not_visible {table : SymbolTable} {name : String} (hl : table.Layered)
    (h : ¬ table.Visible name) : table.use name = table := by
  unfold use
  rw [resolve_of_not_visible hl h]
  cases table.base.find? name <;> rfl

theorem resolve_of_find (table : SymbolTable) {name : String} {symbol : Symbol}
    (h : table.scope.find? name = some symbol) :
    table.resolve name = some (symbol, table) := by
  cases table with
  | global scope =>
      have hscope : scope.find? name = some symbol := h
      simp [resolve, hscope]
  | nested scope outer =>
      have hscope : scope.find? name = some symbol := h
      simp [resolve, hscope]

theorem use_of_find (table : SymbolTable) {name : String} {symbol : Symbol}
    (h : table.scope.find? name = some symbol) : table.use name = table := by
  simp [use, resolve_of_find table h]

theorem layered_use {table : SymbolTable} (hl : table.Layered) (name : String) :
    (table.use name).Layered ∧ (table.use name).base = table.base ∧
      (∀ other, (table.use name).Visible other ↔ table.Visible other) ∧
      ∀ other s, table.scope.find? other = some s →
        (table.use name).scope.find? other = some s := by
  unfold use
  cases hres : table.resolve name with
  | none => exact ⟨hl, rfl, fun _ => Iff.rfl, fun _ _ hs => hs⟩
  | some found =>
      obtain ⟨symbol, table'⟩ := found
      have hr := resolved_of_resolve hl hres
      exact ⟨hr.layered, hr.base_eq, hr.visible_iff, hr.kept⟩

theorem layered_useAll {table : SymbolTable} (hl : table.Layered) (names : List String) :
    (table.useAll names).Layered ∧ (table.useAll names).base = table.base ∧
      (∀ other, (table.useAll names).Visible other ↔ table.Visible other) ∧
      ∀ other s, table.scope.find? other = some s →
        (table.useAll names).scope.find? other = some s := by
  induction names generalizing table with
  | nil => exact ⟨hl, rfl, fun _ => Iff.rfl, fun _ _ hs => hs⟩
  | cons name rest ih =>
      rcases layered_use hl name with ⟨hl', hbase, hvis, hkept⟩
      rcases ih hl' with ⟨hl'', hbase', hvis', hkept'⟩
      refine ⟨hl'', hbase'.trans hbase, fun other => (hvis' other).trans (hvis other), ?_⟩
      intro other s hs
      exact hkept' other s (hkept other s hs)

theorem useAll_append (table : SymbolTable) (xs ys : List String) :
    table.useAll (xs ++ ys) = (table.useAll xs).useAll ys := by
  simp [useAll]

end SymbolTable

/-! ## Agreement -/

/-- The symbol of a name that stands for `place`. -/
def Place.symbol (name : String) : Place → Symbol
  | .global slot => ⟨name, .global, slot⟩
  | .cell index => ⟨name, .local, index⟩
  | .captured index => ⟨name, .free, index⟩
  | .self => ⟨name, .function, 0⟩
  | .builtin b => ⟨name, .builtin, b.index⟩

theorem Place.symbol_name (name : String) (place : Place) : (place.symbol name).name = name := by
  cases place <;> rfl

/-- The table says of every name what the site says, as far as captures have been made. -/
inductive Agrees : SymbolTable → Site → Prop
  | top {scope : Scope} {site : Site} (hbody : site.body = none)
      (hdefs : scope.definitions = site.globals.length) (hcaps : scope.captures = [])
      (hfind : ∀ name, scope.find? name = (site.outerPlace? name).map (Place.symbol name)) :
      Agrees (.global scope) site
  | inside {scope : Scope} {outer : SymbolTable} {site : Site} {locals : Locals}
      (hbody : site.body = some locals) (hdefs : scope.definitions = locals.names.length)
      (hcaps : ∀ s ∈ scope.captures, outer.scope.find? s.name = some s)
      (hfind : ∀ name, scope.find? name =
        (({ locals with captured := scope.captures.map Symbol.name } : Locals).place? name).map
          (Place.symbol name))
      (houter : outer.Layered)
      (hbase : ∀ name, outer.base.find? name =
        (site.outerPlace? name).map (Place.symbol name)) :
      Agrees (.nested scope outer) site

/-- Some function further out has a symbol for the name. -/
def SymbolTable.OuterVisible (table : SymbolTable) (name : String) : Prop :=
  ∃ outer, table.outer? = some outer ∧ outer.Visible name

/-- The table agrees with the site, and what `events` will capture is what the site says. -/
structure Ready (table : SymbolTable) (site : Site) (events : List Event) : Prop where
  agrees : Agrees table site
  known : ∀ name ∈ Event.uses site.bound events,
    (name ∈ site.captured ↔ table.OuterVisible name)
  fits : Names.addAll table.capturedNames
    ((Event.uses site.bound events).filter (· ∈ site.captured)) <+: site.captured

/-- What the table is behind `events`. -/
structure Scanned (table : SymbolTable) (site : Site) (events : List Event)
    (table' : SymbolTable) : Prop where
  agrees : Agrees table' (site.after events)
  captured : table'.capturedNames = Names.addAll table.capturedNames
    ((Event.uses site.bound events).filter (· ∈ site.captured))
  outer : table'.outer? = table.outer?.map (·.useAll (Event.uses site.bound events))

theorem Locals.place?_storage {locals : Locals} {name : String} {place : Place}
    (h : locals.place? name = some place) : (place.symbol name).storage.reachable = false := by
  unfold place? at h
  split at h
  · cases h
    rfl
  · split at h
    · cases h
      rfl
    · split at h
      · cases h
        rfl
      · cases h

theorem Site.outerPlace?_storage {site : Site} {name : String} {place : Place}
    (h : site.outerPlace? name = some place) :
    (place.symbol name).storage.reachable = true := by
  unfold outerPlace? at h
  split at h
  · cases h
    rfl
  · rcases Option.map_eq_some_iff.1 h with ⟨b, _, rfl⟩
    rfl

namespace Agrees

theorem layered {table : SymbolTable} {site : Site} (h : Agrees table site) : table.Layered := by
  cases h with
  | top hbody hdefs hcaps hfind =>
      intro name symbol hs
      rw [hfind] at hs
      rcases Option.map_eq_some_iff.1 hs with ⟨place, hplace, rfl⟩
      exact ⟨place.symbol_name name, Site.outerPlace?_storage hplace⟩
  | inside hbody hdefs hcaps hfind houter hbase =>
      refine ⟨?_, houter⟩
      intro name symbol hs
      rw [hfind] at hs
      rcases Option.map_eq_some_iff.1 hs with ⟨place, hplace, rfl⟩
      exact ⟨place.symbol_name name, Locals.place?_storage hplace⟩

theorem base_find {table : SymbolTable} {site : Site} (h : Agrees table site) (name : String) :
    table.base.find? name = (site.outerPlace? name).map (Place.symbol name) := by
  cases h with
  | top _ _ _ hfind => exact hfind name
  | inside _ _ _ _ _ hbase => exact hbase name

end Agrees

/-! ## Sequences of events -/

theorem SymbolTable.outerVisible_of_scanned {table table' : SymbolTable} {site : Site}
    {events : List Event} (ha : Agrees table site) (h : Scanned table site events table')
    (name : String) : table'.OuterVisible name ↔ table.OuterVisible name := by
  unfold OuterVisible
  rw [h.outer]
  cases ha with
  | top => simp [outer?]
  | inside _ _ _ _ houter _ =>
      have hvis := (layered_useAll houter (Event.uses site.bound events)).2.2.1 name
      simp [outer?, hvis]

theorem Ready.left {table : SymbolTable} {site : Site} {xs ys : List Event}
    (h : Ready table site (xs ++ ys)) : Ready table site xs := by
  refine ⟨h.agrees, ?_, ?_⟩
  · intro name hname
    exact h.known name (by simp [Event.uses_append, hname])
  · have hfits := h.fits
    rw [Event.uses_append, List.filter_append, Names.addAll_append] at hfits
    exact (Names.prefix_addAll _ _).trans hfits

theorem Ready.right {table table' : SymbolTable} {site : Site} {xs ys : List Event}
    (h : Ready table site (xs ++ ys)) (hs : Scanned table site xs table') :
    Ready table' (site.after xs) ys := by
  refine ⟨hs.agrees, ?_, ?_⟩
  · intro name hname
    rw [Site.bound_after] at hname
    rw [Site.captured_after, SymbolTable.outerVisible_of_scanned h.agrees hs]
    exact h.known name (by simp [Event.uses_append, hname])
  · have hfits := h.fits
    rw [Event.uses_append, List.filter_append, Names.addAll_append] at hfits
    rw [hs.captured, Site.bound_after, Site.captured_after]
    exact hfits

theorem Scanned.trans {table table' table'' : SymbolTable} {site : Site} {xs ys : List Event}
    (h : Scanned table site xs table') (h' : Scanned table' (site.after xs) ys table'') :
    Scanned table site (xs ++ ys) table'' := by
  refine ⟨?_, ?_, ?_⟩
  · rw [Site.after_append]
    exact h'.agrees
  · rw [h'.captured, h.captured, Site.bound_after, Site.captured_after, Event.uses_append,
      List.filter_append, Names.addAll_append]
  · rw [h'.outer, h.outer, Site.bound_after, Event.uses_append]
    simp [SymbolTable.useAll_append, Function.comp_def]

theorem Scanned.nil {table : SymbolTable} {site : Site} (h : Agrees table site) :
    Scanned table site [] table := by
  refine ⟨by simpa using h, by simp [Event.uses], ?_⟩
  simp [Event.uses, SymbolTable.useAll]

/-! ## Looking names up -/

theorem Names.idxOf_of_prefix {xs ys : List String} {name : String} (h : xs <+: ys)
    (hmem : name ∈ xs) : ys.idxOf name = xs.idxOf name := by
  rcases h with ⟨zs, rfl⟩
  exact List.idxOf_append_of_mem hmem

namespace Locals

/-- A name that the body binds stands for the same with any captures. -/
theorem place?_of_bound {locals : Locals} {name : String} (captured : List String)
    (h : name ∈ locals.own.toList ++ locals.names) :
    ({ locals with captured } : Locals).place? name = locals.place? name ∧
      locals.place? name ≠ none := by
  cases hlast : Names.lastIndex? name locals.names with
  | some index => simp [place?, hlast]
  | none =>
      have hnot : name ∉ locals.names := Names.lastIndex?_eq_none_iff.1 hlast
      have hown : locals.own = some name := by
        rcases List.mem_append.1 h with hmem | hmem
        · simpa [eq_comm] using hmem
        · exact absurd hmem hnot
      simp [place?, hlast, hown]

/-- A name that the body does not bind stands for a capture or for nothing. -/
theorem place?_of_not_bound (locals : Locals) {name : String}
    (h : name ∉ locals.own.toList ++ locals.names) :
    locals.place? name =
      if name ∈ locals.captured then some (.captured (locals.captured.idxOf name)) else none := by
  have hnames : name ∉ locals.names := fun hmem => h (List.mem_append.2 (Or.inr hmem))
  have hown : locals.own ≠ some name := by
    intro heq
    exact h (by simp [heq])
  simp [place?, Names.lastIndex?_eq_none_iff.2 hnames, hown]

/-- One more capture changes nothing for other names. -/
theorem place?_append_captured (locals : Locals) {name other : String} {captured : List String}
    (h : other ≠ name) :
    ({ locals with captured } : Locals).place? other =
      ({ locals with captured := captured ++ [name] } : Locals).place? other := by
  simp only [place?, List.mem_append, List.mem_singleton, h, or_false]
  split
  · rfl
  · split
    · rfl
    · split
      · rename_i hmem
        rw [List.idxOf_append_of_mem hmem]
      · rfl

end Locals

/-- Looking a name up leads to no other site. -/
theorem Site.after_use (site : Site) (name : String) : site.after [.use name] = site := by
  obtain ⟨globals, literals, _ | locals⟩ := site <;>
    simp [after, Event.binds, Event.literals]

/-- In a function, a name that it does not bind is captured or one of the top level. -/
theorem Site.place?_of_not_bound {site : Site} {name : String} (hinside : site.body ≠ none)
    (h : name ∉ site.bound) :
    site.place? name =
      if name ∈ site.captured then some (.captured (site.captured.idxOf name))
      else site.outerPlace? name := by
  rcases Option.ne_none_iff_exists'.1 hinside with ⟨locals, hbody⟩
  simp only [bound, hbody] at h
  simp only [place?, captured, hbody, locals.place?_of_not_bound h]
  split <;> simp

theorem SymbolTable.exists_resolve_of_visible {table : SymbolTable} {name : String}
    (h : table.Visible name) : ∃ symbol table', table.resolve name = some (symbol, table') := by
  induction table with
  | global scope => exact absurd h id
  | nested scope outer ih =>
      cases hfind : scope.find? name with
      | some symbol => exact ⟨symbol, .nested scope outer, by simp [resolve, hfind]⟩
      | none =>
          have hvis : outer.Visible name := by
            rcases h with hne | hv
            · exact absurd hfind hne
            · exact hv
          rcases ih hvis with ⟨symbol, outer', hres⟩
          by_cases hreach : symbol.storage.reachable = true
          · exact ⟨symbol, .nested scope outer', by simp [resolve, hfind, hres, hreach]⟩
          · have hfalse : symbol.storage.reachable = false := by simpa using hreach
            exact ⟨(scope.capture symbol).1, .nested (scope.capture symbol).2 outer',
              by simp [resolve, hfind, hres, hfalse]⟩

/-- A look-up as the site describes it. -/
structure LooksUp (table : SymbolTable) (site : Site) (name : String) : Prop where
  missing : site.place? name = none → table.resolve name = none
  found : ∀ place, site.place? name = some place →
    table.resolve name = some (place.symbol name, table.use name)
  scanned : Scanned table site [.use name] (table.use name)

/-- A look-up that leaves the table as it is. -/
theorem LooksUp.of_unchanged {table : SymbolTable} {site : Site} {name : String}
    (ha : Agrees table site)
    (hres : table.resolve name =
      (site.place? name).map fun place => (place.symbol name, table))
    (hcaptured : Names.addAll table.capturedNames
      ((Event.uses site.bound [.use name]).filter (· ∈ site.captured)) = table.capturedNames)
    (houter : table.outer?.map (·.useAll (Event.uses site.bound [.use name])) = table.outer?) :
    LooksUp table site name := by
  have huse : table.use name = table := by
    unfold SymbolTable.use
    rw [hres]
    cases site.place? name <;> rfl
  have hafter : Agrees table (site.after [.use name]) := by
    rw [Site.after_use]
    exact ha
  refine ⟨?_, ?_, ?_⟩
  · intro hnone
    simp [hres, hnone]
  · intro place hplace
    simp [hres, hplace, huse]
  · rw [huse]
    exact ⟨hafter, hcaptured.symm, houter.symm⟩

section Inside

variable {scope : Scope} {outer outer' : SymbolTable} {site : Site} {name : String}

theorem Agrees.body_ne_none (h : Agrees (.nested scope outer) site) : site.body ≠ none := by
  cases h with
  | inside hbody => simp [hbody]

/-- The scope of a function has the symbol of each name that the function binds. -/
theorem Agrees.find?_of_bound (h : Agrees (.nested scope outer) site) (hbound : name ∈ site.bound) :
    ∃ place, site.place? name = some place ∧ scope.find? name = some (place.symbol name) := by
  cases h with
  | @inside _ _ _ locals hbody hdefs hcaps hfind houter hbase =>
      have hmem : name ∈ locals.own.toList ++ locals.names := by
        simpa [Site.bound, hbody] using hbound
      rcases Locals.place?_of_bound (scope.captures.map Symbol.name) hmem with ⟨hsame, hne⟩
      rcases Option.ne_none_iff_exists'.1 hne with ⟨place, hplace⟩
      refine ⟨place, by simp [Site.place?, hbody, hplace], ?_⟩
      rw [hfind, hsame, hplace]
      rfl

/-- What the scope of a function has for a name that the function does not bind: its free variable
of that name, if it has one. -/
theorem Agrees.find?_of_not_bound (h : Agrees (.nested scope outer) site)
    (hbound : name ∉ site.bound) :
    scope.find? name =
      if name ∈ scope.captures.map Symbol.name then
        some ⟨name, .free, (scope.captures.map Symbol.name).idxOf name⟩
      else none := by
  cases h with
  | @inside _ _ _ locals hbody hdefs hcaps hfind houter hbase =>
      have hmem : name ∉ locals.own.toList ++ locals.names := by
        simpa [Site.bound, hbody] using hbound
      rw [hfind, Locals.place?_of_not_bound
        { locals with captured := scope.captures.map Symbol.name } hmem]
      split <;> rfl

/-- The function binds the name itself. -/
theorem LooksUp.of_bound (h : Agrees (.nested scope outer) site) (hbound : name ∈ site.bound) :
    LooksUp (.nested scope outer) site name := by
  have huses : Event.uses site.bound [.use name] = [] := by simp [Event.uses, hbound]
  rcases h.find?_of_bound hbound with ⟨place, hplace, hsymbol⟩
  refine .of_unchanged h ?_ (by simp [huses]) (by simp [huses, SymbolTable.useAll])
  rw [SymbolTable.resolve_of_find (.nested scope outer) hsymbol, hplace]
  rfl

/-- The function has captured the name before, and so have those around it. -/
theorem LooksUp.of_captured (h : Agrees (.nested scope outer) site) (hbound : name ∉ site.bound)
    (hplanned : scope.captures.map Symbol.name <+: site.captured)
    (hname : name ∈ scope.captures.map Symbol.name) : LooksUp (.nested scope outer) site name := by
  have huses : Event.uses site.bound [.use name] = [name] := by simp [Event.uses, hbound]
  have hcaptured : name ∈ site.captured := hplanned.subset hname
  have hsymbol := h.find?_of_not_bound hbound
  rw [if_pos hname] at hsymbol
  refine .of_unchanged h ?_ ?_ ?_
  · rw [SymbolTable.resolve_of_find (.nested scope outer) hsymbol,
      Site.place?_of_not_bound h.body_ne_none hbound, if_pos hcaptured,
      Names.idxOf_of_prefix hplanned hname]
    rfl
  · simp [huses, hcaptured, SymbolTable.capturedNames, SymbolTable.scope, Names.add, hname]
  · cases h with
    | inside hbody hdefs hcaps hfind houter hbase =>
        rcases List.mem_map.1 hname with ⟨s, hs, rfl⟩
        have hsame := SymbolTable.use_of_find outer (hcaps s hs)
        simp [huses, SymbolTable.outer?, SymbolTable.useAll, hsame]

/-- The name belongs to the top level. -/
theorem LooksUp.of_outer (h : Agrees (.nested scope outer) site) (hbound : name ∉ site.bound)
    (hplanned : scope.captures.map Symbol.name <+: site.captured) (hname : name ∉ site.captured)
    (hvisible : ¬ outer.Visible name) : LooksUp (.nested scope outer) site name := by
  have huses : Event.uses site.bound [.use name] = [name] := by simp [Event.uses, hbound]
  have hnone := h.find?_of_not_bound hbound
  rw [if_neg fun hmem => hname (hplanned.subset hmem)] at hnone
  have hvisible' : ¬ (SymbolTable.nested scope outer).Visible name := by
    rintro (hne | houter)
    · exact hne hnone
    · exact hvisible houter
  refine .of_unchanged h ?_ ?_ ?_
  · rw [SymbolTable.resolve_of_not_visible h.layered hvisible', h.base_find,
      Site.place?_of_not_bound h.body_ne_none hbound, if_neg hname]
    simp [Option.map_map, Function.comp_def]
  · simp [huses, hname]
  · simp [huses, SymbolTable.outer?, SymbolTable.useAll,
      SymbolTable.use_of_not_visible h.layered.2 hvisible]

/-- A scope that has captured one more name, which a function further out binds, still agrees with the
site. -/
theorem Agrees.capture {s : Symbol} (h : Agrees (.nested scope outer) site)
    (hbound : name ∉ site.bound) (hname : name ∉ scope.captures.map Symbol.name)
    (hresolved : SymbolTable.Resolved outer name s outer')
    (hreach : s.storage.reachable = false) :
    Agrees (.nested (scope.capture s).2 outer') site := by
  obtain rfl := hresolved.name_eq
  cases h with
  | @inside _ _ _ locals hbody hdefs hcaps hfind houter hbase =>
      have hmem : s.name ∉ locals.own.toList ++ locals.names := by
        simpa [Site.bound, hbody] using hbound
      refine .inside hbody hdefs ?_ ?_ hresolved.layered ?_
      -- The look-up further out keeps what was captured from there before.
      · intro t ht
        have ht' : t ∈ scope.captures ∨ t = s := by
          simpa [Scope.capture, Scope.bind] using ht
        rcases ht' with hold | rfl
        · exact hresolved.kept _ _ (hcaps t hold)
        · exact hresolved.stored hreach
      · intro other
        have hnames : (scope.capture s).2.captures.map Symbol.name =
            scope.captures.map Symbol.name ++ [s.name] := by
          simp [Scope.capture, Scope.bind]
        rw [Scope.find?_capture, hnames]
        by_cases hother : other = s.name
        · subst hother
          rw [if_pos rfl, Locals.place?_of_not_bound
            { locals with captured := scope.captures.map Symbol.name ++ [s.name] } hmem]
          simp [List.idxOf_append_of_notMem hname, Place.symbol]
        -- The new capture is the last one, so the others keep their numbers.
        · rw [if_neg hother, hfind]
          congr 1
          exact Locals.place?_append_captured _ hother
      · intro other
        rw [hresolved.base_eq]
        exact hbase other

/-- The function captures the name now, and so do those between it and the one that binds the
name. -/
theorem LooksUp.of_capture (h : Agrees (.nested scope outer) site) (hbound : name ∉ site.bound)
    (hname : name ∉ scope.captures.map Symbol.name)
    (hplanned : scope.captures.map Symbol.name ++ [name] <+: site.captured)
    (hvisible : outer.Visible name) : LooksUp (.nested scope outer) site name := by
  -- The functions further out find the name first, and capture it where they must.
  rcases SymbolTable.exists_resolve_of_visible hvisible with ⟨s, outer', hres⟩
  have hresolved := SymbolTable.resolved_of_resolve h.layered.2 hres
  have hreach : s.storage.reachable = false := hresolved.captured_iff.2 hvisible
  have hnone := h.find?_of_not_bound hbound
  rw [if_neg hname] at hnone
  have hcaptured : name ∈ site.captured := hplanned.subset (by simp)
  -- The captures so far are the first of those planned, so this one is next in turn.
  have hindex : site.captured.idxOf name = scope.captures.length := by
    rw [Names.idxOf_of_prefix hplanned (by simp), List.idxOf_append_of_notMem hname]
    simp
  have hplace : site.place? name = some (.captured (site.captured.idxOf name)) := by
    rw [Site.place?_of_not_bound h.body_ne_none hbound, if_pos hcaptured]
  have hresolve : (SymbolTable.nested scope outer).resolve name =
      some (Place.symbol name (.captured (site.captured.idxOf name)),
        .nested (scope.capture s).2 outer') := by
    simp only [SymbolTable.resolve, hnone, hres, hreach]
    simp [Scope.capture, Place.symbol, hindex, hresolved.name_eq]
  have huse : (SymbolTable.nested scope outer).use name =
      .nested (scope.capture s).2 outer' := by
    simp [SymbolTable.use, hresolve]
  have huses : Event.uses site.bound [.use name] = [name] := by simp [Event.uses, hbound]
  refine ⟨fun hmissing => by simp [hplace] at hmissing, ?_, ?_⟩
  · intro place hfound
    rw [hplace] at hfound
    cases hfound
    rw [huse]
    exact hresolve
  · rw [huse]
    refine ⟨?_, ?_, ?_⟩
    · rw [Site.after_use]
      exact h.capture hbound hname hresolved hreach
    · have hadd : Names.add (scope.captures.map Symbol.name) name =
          scope.captures.map Symbol.name ++ [name] := by
        simp only [Names.add, if_neg hname]
      rw [huses]
      simp [SymbolTable.capturedNames, SymbolTable.scope, Scope.capture, Scope.bind, hcaptured,
        hadd, hresolved.name_eq]
    -- The enclosing scopes change as they would for a use of their own.
    · have houter : outer.use name = outer' := by simp [SymbolTable.use, hres]
      rw [huses]
      simp [SymbolTable.outer?, SymbolTable.useAll, houter]

end Inside

theorem LooksUp.of_ready {table : SymbolTable} {site : Site} {name : String}
    (h : Ready table site [.use name]) : LooksUp table site name := by
  obtain ⟨hagrees, hknown, hfits⟩ := h
  cases table with
  | global scope =>
      cases hagrees with
      | top hbody hdefs hcaps hfind =>
          refine .of_unchanged (.top hbody hdefs hcaps hfind) ?_ ?_ rfl
          · simp only [SymbolTable.resolve, hfind, Site.place?, hbody, Option.map_map]
            rfl
          · simp [Site.captured, hbody]
  | nested scope outer =>
      by_cases hbound : name ∈ site.bound
      · exact .of_bound hagrees hbound
      · have huses : Event.uses site.bound [.use name] = [name] := by simp [Event.uses, hbound]
        have hvisible : name ∈ site.captured ↔ outer.Visible name := by
          have hiff := hknown name (by simp [huses])
          simpa [SymbolTable.OuterVisible, SymbolTable.outer?] using hiff
        rw [huses] at hfits
        -- A name to be captured is one of a function further out, any other one of the top level.
        by_cases hcaptured : name ∈ site.captured
        · have hadd : Names.add (scope.captures.map Symbol.name) name <+: site.captured := by
            simpa [hcaptured, SymbolTable.capturedNames, SymbolTable.scope] using hfits
          by_cases hname : name ∈ scope.captures.map Symbol.name
          · exact .of_captured hagrees hbound ((Names.prefix_add _ _).trans hadd) hname
          · rw [Names.add, if_neg hname] at hadd
            exact .of_capture hagrees hbound hname hadd (hvisible.1 hcaptured)
        · have hplanned : scope.captures.map Symbol.name <+: site.captured := by
            simpa [hcaptured, SymbolTable.capturedNames, SymbolTable.scope] using hfits
          exact .of_outer hagrees hbound hplanned hcaptured fun hv => hcaptured (hvisible.2 hv)

theorem Scanned.useAll {table : SymbolTable} {site : Site} {names : List String}
    (h : Ready table site (names.map .use)) :
    Scanned table site (names.map .use) (table.useAll names) := by
  induction names generalizing table site with
  | nil => exact .nil h.agrees
  | cons name rest ih =>
      have hsplit : Ready table site ([.use name] ++ rest.map .use) := h
      have hfirst := (LooksUp.of_ready hsplit.left).scanned
      exact hfirst.trans (ih (hsplit.right hfirst))

/-! ## Binding names -/

/-- Where the next name that is bound will be kept. -/
def Site.next (site : Site) : Place :=
  match site.body with
  | none => .global site.globals.length
  | some locals => .cell locals.names.length

theorem Agrees.define {table : SymbolTable} {site : Site} (h : Agrees table site) (name : String) :
    (table.define name).1 = site.next.symbol name ∧
      Scanned table site [.bind name] (table.define name).2 := by
  cases h with
  | @top scope _ hbody hdefs hcaps hfind =>
      have hafter : site.after [.bind name] =
          { site with globals := site.globals ++ [name] } := by
        simp [Site.after, hbody, Event.binds, Event.literals]
      refine ⟨?_, ?_, ?_, rfl⟩
      · simp [SymbolTable.define, Scope.define, SymbolTable.scope, SymbolTable.storage,
          SymbolTable.isGlobal, Site.next, hbody, Place.symbol, hdefs]
      · rw [hafter]
        refine .top hbody (by simp [SymbolTable.scope, hdefs]) hcaps ?_
        intro other
        show (scope.define .global name).2.find? other = _
        rw [Scope.find?_define, hfind]
        simp only [Site.outerPlace?, Names.lastIndex?_append_singleton]
        -- The new binding hides older ones of the same name.
        by_cases heq : other = name
        · subst heq
          simp [Place.symbol, hdefs]
        · simp [heq, Ne.symm heq]
      · simp [SymbolTable.capturedNames, SymbolTable.define, Scope.define, Scope.bind,
          SymbolTable.scope, SymbolTable.withScope, Event.uses]
  | @inside scope outer _ locals hbody hdefs hcaps hfind houter hbase =>
      have hafter : site.after [.bind name] =
          { site with body := some { locals with names := locals.names ++ [name] } } := by
        simp [Site.after, hbody, Event.binds, Event.literals]
      refine ⟨?_, ?_, ?_, ?_⟩
      · simp [SymbolTable.define, Scope.define, SymbolTable.scope, SymbolTable.storage,
          SymbolTable.isGlobal, Site.next, hbody, Place.symbol, hdefs]
      · rw [hafter]
        refine .inside rfl (by simp [SymbolTable.scope, hdefs]) hcaps ?_ houter hbase
        intro other
        show (scope.define .local name).2.find? other = _
        rw [Scope.find?_define, hfind]
        simp only [Locals.place?, Names.lastIndex?_append_singleton]
        by_cases heq : other = name
        · subst heq
          simp [Place.symbol, hdefs]
        · simp only [heq, Ne.symm heq, if_false]
          rfl
      · simp [SymbolTable.capturedNames, SymbolTable.define, Scope.define, Scope.bind,
          SymbolTable.scope, SymbolTable.withScope, Event.uses]
      · simp [SymbolTable.define, SymbolTable.withScope, SymbolTable.outer?, Event.uses,
          SymbolTable.useAll]

theorem Agrees.after_literals {table : SymbolTable} {site : Site} (h : Agrees table site) (n : Nat) :
    Agrees table (site.after (List.replicate n .literal)) := by
  cases h with
  | top hbody hdefs hcaps hfind =>
      refine .top (Site.body_after_of_none hbody _) ?_ hcaps ?_
      · simpa [Site.after, hbody] using hdefs
      · simpa [Site.after, hbody, Site.outerPlace?] using hfind
  | inside hbody hdefs hcaps hfind houter hbase =>
      refine .inside (Site.body_after_of_some hbody _) ?_ hcaps ?_ houter ?_
      · simpa using hdefs
      · simpa using hfind
      · simpa [Site.after, hbody, Site.outerPlace?] using hbase

theorem Scanned.literals {table : SymbolTable} {site : Site} (h : Agrees table site) (n : Nat) :
    Scanned table site (List.replicate n .literal) table := by
  refine ⟨h.after_literals n, by simp, ?_⟩
  simp [SymbolTable.useAll]

/-! ## Function bodies -/

namespace SymbolTable

/-- The table at the start of the body of a function that may have a name of its own. -/
def enterNamed (table : SymbolTable) : Option String → SymbolTable
  | none => table.enter
  | some own => (table.enter.defineOwnName own).2

def defineAll (table : SymbolTable) (names : List String) : SymbolTable :=
  names.foldl (fun t name => (t.define name).2) table

end SymbolTable

/-- Where the site and the table agree, both see the same names from further out. -/
theorem Agrees.visible_iff {table : SymbolTable} {site : Site} (h : Agrees table site)
    (hpre : table.capturedNames <+: site.captured) {name : String}
    (hknown : name ∉ site.bound → (name ∈ site.captured ↔ table.OuterVisible name)) :
    name ∈ site.visible ↔ table.Visible name := by
  cases table with
  | global scope =>
      cases h with
      | top hbody => simp [Site.visible, hbody, SymbolTable.Visible]
  | nested scope outer =>
      have hvisible : name ∈ site.visible ↔ name ∈ site.bound ∨ name ∈ site.captured := by
        rcases Option.ne_none_iff_exists'.1 h.body_ne_none with ⟨locals, hbody⟩
        simp [Site.visible, Site.bound, Site.captured, hbody, or_assoc]
      by_cases hmem : name ∈ site.bound
      · rcases h.find?_of_bound hmem with ⟨place, -, hfind⟩
        simp [hvisible, hmem, SymbolTable.Visible, hfind]
      · have hout : name ∈ site.captured ↔ outer.Visible name := by
          simpa [SymbolTable.OuterVisible, SymbolTable.outer?] using hknown hmem
        simp only [hvisible, hmem, false_or, SymbolTable.Visible, h.find?_of_not_bound hmem, ← hout]
        constructor
        · exact Or.inr
        · rintro (hne | hin)
          -- What has been captured so far was planned to be.
          · by_cases hin : name ∈ scope.captures.map Symbol.name
            · exact hpre.subset hin
            · simp [hin] at hne
          · exact hin

theorem Agrees.defineAll {table : SymbolTable} {site : Site} (h : Agrees table site)
    (names : List String) :
    Scanned table site (names.map .bind) (table.defineAll names) := by
  induction names generalizing table site with
  | nil => exact .nil h
  | cons name rest ih =>
      have hfirst := (h.define name).2
      exact hfirst.trans (ih hfirst.agrees)

theorem Event.uses_map_bind (bound names : List String) : uses bound (names.map bind) = [] := by
  induction names generalizing bound with
  | nil => rfl
  | cons name rest ih => simp [uses, ih]

theorem Event.binds_map_bind (names : List String) : binds (names.map bind) = names := by
  induction names with
  | nil => rfl
  | cons name rest ih => simp [binds, ih]

theorem Event.literals_map_bind (names : List String) : literals (names.map bind) = 0 := by
  induction names with
  | nil => rfl
  | cons name rest ih => simp [literals, ih]

/-- At the start of a function body the table agrees with the site, with nothing captured yet. -/
theorem Agrees.enter {table : SymbolTable} {site : Site} (h : Agrees table site)
    (own : Option String) (params : List String) (body : List Event) :
    Agrees ((table.enterNamed own).defineAll params) (site.enter own params body) ∧
      ((table.enterNamed own).defineAll params).capturedNames = [] ∧
      ((table.enterNamed own).defineAll params).outer? = some table := by
  -- The same point before the parameters are bound.
  let bare : Site :=
    { site with body := some { own, captured := site.captures own params body, names := [] } }
  have hplace : ∀ name,
      ({ own, captured := [], names := [] } : Locals).place? name =
        if own = some name then some .self else none := by
    intro name
    simp [Locals.place?, Names.lastIndex?]
  have hbare : Agrees (table.enterNamed own) bare ∧ (table.enterNamed own).capturedNames = [] ∧
      (table.enterNamed own).outer? = some table := by
    cases own with
    | none =>
        refine ⟨.inside rfl rfl (by simp [Scope.empty]) ?_ h.layered h.base_find, rfl, rfl⟩
        intro name
        have := hplace name
        simp_all [Scope.empty, Scope.find?, Assoc.find?]
    | some own =>
        refine ⟨.inside rfl rfl (by simp [Scope.empty, Scope.bind, SymbolTable.scope,
          SymbolTable.enter]) ?_ h.layered h.base_find, rfl, rfl⟩
        intro name
        show (Scope.empty.bind ⟨own, .function, 0⟩).find? name =
          (({ own := some own, captured := [], names := [] } : Locals).place? name).map _
        rw [Scope.find?_bind, hplace]
        by_cases heq : name = own
        · subst heq
          simp [Place.symbol]
        · simp [heq, Ne.symm heq, Scope.empty, Scope.find?, Assoc.find?]
  rcases hbare with ⟨hagrees, hcaptured, houter⟩
  have hs := hagrees.defineAll params
  have hafter : bare.after (params.map .bind) = site.enter own params body := by
    simp [bare, Site.after, Site.enter, Event.binds_map_bind, Event.literals_map_bind]
  refine ⟨hafter ▸ hs.agrees, ?_, ?_⟩
  · rw [hs.captured, hcaptured, Event.uses_map_bind]
    rfl
  · rw [hs.outer, houter, Event.uses_map_bind]
    rfl

theorem Ready.capturedNames_prefix {table : SymbolTable} {site : Site} {events : List Event}
    (h : Ready table site events) : table.capturedNames <+: site.captured :=
  (Names.prefix_addAll _ _).trans h.fits

theorem Ready.enter {table : SymbolTable} {site : Site} {own : Option String}
    {params : List String} {body : List Event}
    (h : Ready table site (Event.ofFunction own params body)) :
    Ready ((table.enterNamed own).defineAll params) (site.enter own params body) body := by
  rcases h.agrees.enter own params body with ⟨hagrees, hcaptured, houter⟩
  have hbound : (site.enter own params body).bound = own.toList ++ params := rfl
  have hcaptures : (site.enter own params body).captured = site.captures own params body := rfl
  -- What the body uses from outside, the function literal uses.
  have hvisible : ∀ name ∈ Event.uses (own.toList ++ params) body,
      (name ∈ site.visible ↔ table.Visible name) := by
    intro name hname
    refine h.agrees.visible_iff h.capturedNames_prefix fun hnot => h.known name ?_
    rw [Event.ofFunction, Event.uses_append, Event.uses_map_use]
    simp [hname, hnot]
  refine ⟨hagrees, ?_, ?_⟩
  · intro name hname
    rw [hbound] at hname
    rw [hcaptures, Site.mem_captures]
    simp [hname, hvisible name hname, SymbolTable.OuterVisible, houter]
  · rw [hcaptured, hbound, hcaptures]
    -- Every name that the body uses and that is seen here is to be captured.
    have hfilter : (Event.uses (own.toList ++ params) body).filter
          (· ∈ site.captures own params body) =
        (Event.uses (own.toList ++ params) body).filter (· ∈ site.visible) := by
      refine List.filter_congr fun name hname => ?_
      simp [Site.mem_captures, hname]
    rw [hfilter]
    exact List.prefix_refl _

/-- A symbol of the innermost scope is the one of the place that the name stands for. -/
theorem Agrees.place_of_find {table : SymbolTable} {site : Site} (h : Agrees table site)
    (hpre : table.capturedNames <+: site.captured) {name : String} {symbol : Symbol}
    (hfind : table.scope.find? name = some symbol) :
    ∃ place, site.place? name = some place ∧ symbol = place.symbol name := by
  cases table with
  | global scope =>
      cases h with
      | top hbody _ _ htop =>
          have hsymbol := htop name
          rw [show scope.find? name = some symbol from hfind] at hsymbol
          rcases Option.map_eq_some_iff.1 hsymbol.symm with ⟨place, hplace, rfl⟩
          exact ⟨place, by simp [Site.place?, hbody, hplace], rfl⟩
  | nested scope outer =>
      have hfind : scope.find? name = some symbol := hfind
      by_cases hbound : name ∈ site.bound
      · rcases h.find?_of_bound hbound with ⟨place, hplace, hsymbol⟩
        exact ⟨place, hplace, Option.some.inj (hfind.symm.trans hsymbol)⟩
      · have hsymbol := h.find?_of_not_bound hbound
        rw [hfind] at hsymbol
        split at hsymbol
        · rename_i hmem
          cases hsymbol
          -- Captures so far have the numbers that were planned for them.
          refine ⟨.captured ((scope.captures.map Symbol.name).idxOf name), ?_, rfl⟩
          rw [Site.place?_of_not_bound h.body_ne_none hbound, if_pos (hpre.subset hmem),
            Names.idxOf_of_prefix hpre hmem]
          rfl
        · cases hsymbol

/-- What is left of a function body once it is closed. -/
structure Closed (table : SymbolTable) (site : Site) (own : Option String) (params : List String)
    (body : List Event) (scope : Scope) (table' : SymbolTable) : Prop where
  definitions : scope.definitions = params.length + (Event.binds body).length
  captures : List.Forall₂
    (fun name symbol => ∃ place, site.place? name = some place ∧ symbol = place.symbol name)
    (site.captures own params body) scope.captures
  scanned : Scanned table site (Event.ofFunction own params body) table'

theorem Scanned.leave {table inner : SymbolTable} {site : Site} {own : Option String}
    {params : List String} {body : List Event}
    (h : Ready table site (Event.ofFunction own params body))
    (hs : Scanned ((table.enterNamed own).defineAll params) (site.enter own params body) body
      inner) :
    Closed table site own params body inner.leave.1 inner.leave.2 := by
  rcases h.agrees.enter own params body with ⟨-, hcaptured, houter⟩
  have hout : inner.outer? = some (table.useAll (Event.uses (own.toList ++ params) body)) := by
    rw [hs.outer, houter]
    rfl
  have hall : Names.addAll [] ((Event.uses (own.toList ++ params) body).filter
      (· ∈ (site.enter own params body).captured)) = site.captures own params body := by
    unfold Site.captures
    congr 1
    refine List.filter_congr fun name hname => ?_
    have hmem : name ∈ (site.enter own params body).captured ↔
        name ∈ Event.uses (own.toList ++ params) body ∧ name ∈ site.visible := Site.mem_captures
    simp [hmem, hname]
  have hnames : inner.capturedNames = site.captures own params body := by
    rw [hs.captured, hcaptured]
    exact hall
  -- Around the body the names it uses have been looked up, and nothing else has happened.
  have hscanned : Scanned table site (Event.ofFunction own params body)
      (table.useAll (Event.uses (own.toList ++ params) body)) := by
    have huse := Scanned.useAll h.left
    exact huse.trans (.literals huse.agrees _)
  have hagrees := hs.agrees
  cases hagrees with
  | top => simp [SymbolTable.outer?] at hout
  | @inside scope outer _ locals hbody hdefs hcaps hfind _ _ =>
      obtain rfl : outer = table.useAll (Event.uses (own.toList ++ params) body) := by
        simpa [SymbolTable.outer?] using hout
      refine ⟨?_, ?_, hscanned⟩
      · have hbody' : (site.enter own params body).body =
            some { own, captured := site.captures own params body, names := params } := rfl
        rw [Site.body_after_of_some hbody'] at hbody
        cases hbody
        show scope.definitions = _
        simpa using hdefs
      · have hafter := hscanned.agrees
        have hpre : (table.useAll (Event.uses (own.toList ++ params) body)).capturedNames <+:
            (site.after (Event.ofFunction own params body)).captured := by
          rw [hscanned.captured, Site.captured_after]
          exact h.fits
        have hplace : ∀ name, (site.after (Event.ofFunction own params body)).place? name =
            site.place? name := by
          intro name
          obtain ⟨globals, literals, _ | locals⟩ := site <;>
            simp [Site.after, Site.place?, Site.outerPlace?, Event.ofFunction]
        have hcaptures : List.Forall₂ (fun name (symbol : Symbol) => symbol.name = name ∧
            symbol ∈ scope.captures) (scope.captures.map Symbol.name) scope.captures := by
          rw [List.forall₂_map_left_iff, List.forall₂_same]
          exact fun symbol hmem => ⟨rfl, hmem⟩
        have hscope : scope.captures.map Symbol.name = site.captures own params body := hnames
        rw [hscope] at hcaptures
        refine hcaptures.imp ?_
        rintro name symbol ⟨rfl, hmem⟩
        have hplaced := hafter.place_of_find hpre (hcaps symbol hmem)
        rwa [hplace] at hplaced

end MonkeyMachine
