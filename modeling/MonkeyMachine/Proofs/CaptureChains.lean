import MonkeyMachine.Proofs.Naming

/-!
# Chains of captures

A name that a function further out binds is passed on from function to function: each captures it
from the one around it and knows it under a number of its own. This file shows that these numbers
can be trusted, whatever has been done with the table before.

`Reached table ledgers` says that some sequence of operations leads to `table`. What the operations
did in each scope is kept in `ledgers`, beside the table and in plain words: the slots that were
handed out and the names that were bound there. `Chained table ledgers` is the invariant; it is
stated for one scope and the scope around it. `Reached.captures_consistent` is what follows for the
whole chain.
-/

namespace MonkeyMachine

theorem Storage.reachable_eq_false_iff {storage : Storage} :
    storage.reachable = false ↔ storage = .local ∨ storage = .free ∨ storage = .function := by
  cases storage <;> simp [reachable]

/-- Every symbol stands under its own name. -/
def Scope.Named (scope : Scope) : Prop :=
  ∀ name symbol, scope.find? name = some symbol → symbol.name = name

namespace Scope.Named

variable {scope : Scope}

theorem empty : Scope.empty.Named := by
  intro name symbol h
  cases h

theorem bind (h : scope.Named) (symbol : Symbol) : (scope.bind symbol).Named := by
  intro name found hfound
  rw [find?_bind] at hfound
  split at hfound
  · rename_i hname
    cases hfound
    exact hname.symm
  · exact h name found hfound

theorem capture (h : scope.Named) (original : Symbol) : (scope.capture original).2.Named :=
  h.bind ⟨original.name, .free, scope.captures.length⟩

end Scope.Named

namespace SymbolTable

/-! ## What looking a name up does -/

/-- The scopes of the chain, innermost first. -/
def scopes : SymbolTable → List Scope
  | global scope => [scope]
  | nested scope outer => scope :: outer.scopes

def Named (table : SymbolTable) : Prop := ∀ scope ∈ table.scopes, scope.Named

theorem scope_mem_scopes (table : SymbolTable) : table.scope ∈ table.scopes := by
  cases table with
  | global _ => exact List.mem_cons_self
  | nested _ _ => exact List.mem_cons_self

theorem Named.outer {scope : Scope} {outer : SymbolTable} (h : (nested scope outer).Named) :
    outer.Named := fun s hs => h s (List.mem_cons_of_mem _ hs)

/-- The chain as it is seen from each of its scopes, innermost first. -/
def tables : SymbolTable → List SymbolTable
  | global scope => [global scope]
  | nested scope outer => nested scope outer :: outer.tables

/-- `name` stands for `symbol`, and looking it up turns the first table into the second. -/
inductive Finds (name : String) : SymbolTable → Symbol → SymbolTable → Prop
  | here {table : SymbolTable} {symbol : Symbol} (h : table.scope.find? name = some symbol) :
      Finds name table symbol table
  | past {scope : Scope} {outer outer' : SymbolTable} {symbol : Symbol}
      (hscope : scope.find? name = none) (houter : Finds name outer symbol outer')
      (hreach : symbol.storage.reachable = true) :
      Finds name (nested scope outer) symbol (nested scope outer')
  | captured {scope : Scope} {outer outer' : SymbolTable} {symbol : Symbol}
      (hscope : scope.find? name = none) (houter : Finds name outer symbol outer')
      (hreach : symbol.storage.reachable = false) :
      Finds name (nested scope outer) (scope.capture symbol).1
        (nested (scope.capture symbol).2 outer')

theorem finds_of_resolve {name : String} {table table' : SymbolTable} {symbol : Symbol}
    (h : table.resolve name = some (symbol, table')) : Finds name table symbol table' := by
  induction table generalizing symbol table' with
  | global scope =>
      rcases Option.map_eq_some_iff.1 h with ⟨found, hfind, hpair⟩
      cases hpair
      exact .here hfind
  | nested scope outer ih =>
      cases hfind : scope.find? name with
      | some found =>
          rw [resolve_of_find (nested scope outer) hfind] at h
          cases h
          exact .here hfind
      | none =>
          cases hres : outer.resolve name with
          | none => simp [resolve, hfind, hres] at h
          | some found =>
              obtain ⟨original, outer'⟩ := found
              have houter := ih hres
              cases hreach : original.storage.reachable with
              | true =>
                  simp only [resolve, hfind, hres, hreach, if_true] at h
                  cases h
                  exact .past hfind houter hreach
              | false =>
                  simp only [resolve, hfind, hres, hreach, Bool.false_eq_true, if_false] at h
                  cases h
                  exact .captured hfind houter hreach

namespace Finds

variable {name : String} {table table' : SymbolTable} {symbol : Symbol}

theorem resolve (h : Finds name table symbol table') :
    table.resolve name = some (symbol, table') := by
  induction h with
  | here hfind => exact resolve_of_find _ hfind
  | past hscope _ hreach ih => simp [SymbolTable.resolve, hscope, ih, hreach]
  | captured hscope _ hreach ih => simp [SymbolTable.resolve, hscope, ih, hreach]

theorem name_eq (h : Finds name table symbol table') (hnamed : table.Named) :
    symbol.name = name := by
  induction h with
  | @here table symbol hfind => exact hnamed _ table.scope_mem_scopes name symbol hfind
  | past _ _ _ ih => exact ih hnamed.outer
  | captured _ _ _ ih => exact ih hnamed.outer

/-- What the innermost scope knew it still knows. -/
theorem kept (h : Finds name table symbol table')
    (hnamed : symbol.name = name) {other : String} {known : Symbol}
    (hother : table.scope.find? other = some known) : table'.scope.find? other = some known := by
  cases h with
  | here hfind => exact hother
  | past hscope houter hreach => exact hother
  | @captured scope outer outer' original hscope houter hreach =>
      have hname : original.name = name := hnamed
      have hne : other ≠ original.name := by
        rintro rfl
        have hsome : scope.find? original.name = some known := hother
        rw [hname, hscope] at hsome
        cases hsome
      show (scope.capture original).2.find? other = some known
      rw [Scope.find?_capture, if_neg hne]
      exact hother

/-- A symbol that has to be captured stands in the innermost scope afterwards. -/
theorem stored (h : Finds name table symbol table') (hnamed : symbol.name = name)
    (hreach : symbol.storage.reachable = false) : table'.scope.find? name = some symbol := by
  cases h with
  | here hfind => exact hfind
  | past _ _ htrue =>
      rw [hreach] at htrue
      cases htrue
  | @captured scope outer outer' original hscope houter horiginal =>
      have hname : original.name = name := hnamed
      show (scope.capture original).2.find? name = _
      rw [Scope.find?_capture, if_pos hname.symm]
      rfl

end Finds

/-! ## Operations and what they leave behind -/

/-- What can be done with a table. -/
inductive Operation
  | define (name : String)
  | defineBuiltin (index : Nat) (name : String)
  | defineOwnName (name : String)
  | resolve (name : String)
  | enter
  | leave

/-- The table that an operation leaves. A name that is not found leaves it as it is. -/
def perform (table : SymbolTable) : Operation → SymbolTable
  | .define name => (table.define name).2
  | .defineBuiltin index name => (table.defineBuiltin index name).2
  | .defineOwnName name => (table.defineOwnName name).2
  | .resolve name => table.use name
  | .enter => table.enter
  | .leave => table.leave.2

/-- What has been done in one scope. -/
structure Ledger where
  /-- The slots that were handed out, first to last. -/
  slots : List Nat
  /-- The names that were bound here. A name that is only captured here is not among them. -/
  bound : List String

def Ledger.empty : Ledger := { slots := [], bound := [] }

def Ledger.bind (ledger : Ledger) (name : String) : Ledger :=
  { ledger with bound := ledger.bound ++ [name] }

/-- The ledgers of a chain, innermost first, after one more operation on `table`. -/
def record (table : SymbolTable) : Operation → List Ledger → List Ledger
  | .define name, ledger :: rest =>
      { slots := ledger.slots ++ [(table.define name).1.index]
        bound := ledger.bound ++ [name] } :: rest
  | .defineBuiltin _ name, ledger :: rest => ledger.bind name :: rest
  | .defineOwnName name, ledger :: rest => ledger.bind name :: rest
  | .enter, ledgers => .empty :: ledgers
  | .leave, _ :: outer :: rest => outer :: rest
  | _, ledgers => ledgers

/-- The tables that operations lead to, from an empty table or from that of a fresh program. -/
inductive Reached : SymbolTable → List Ledger → Prop
  | empty : Reached .empty [.empty]
  | initial : Reached .initial [{ slots := [], bound := Builtin.all.map Builtin.name }]
  | perform {table : SymbolTable} {ledgers : List Ledger} (h : Reached table ledgers)
      (operation : Operation) : Reached (table.perform operation) (table.record operation ledgers)

/-! ## The invariant -/

/-- The ledger tells what the scope has bound, and the captures are numbered as the scope says. -/
structure Ledger.Describes (ledger : Ledger) (scope : Scope) : Prop where
  named : scope.Named
  slots : ledger.slots = List.range scope.definitions
  own : ∀ name, name ∈ ledger.bound ↔
    ∃ symbol, scope.find? name = some symbol ∧ symbol.storage ≠ .free
  distinct : (scope.captures.map Symbol.name).Nodup
  numbered : ∀ name symbol, scope.find? name = some symbol → symbol.storage = .free →
    ∃ original, scope.captures[symbol.index]? = some original ∧ original.name = name
  /-- A name that was captured is never forgotten, so it is not captured again. -/
  remembered : ∀ original ∈ scope.captures, scope.find? original.name ≠ none

namespace Ledger.Describes

variable {ledger : Ledger} {scope : Scope}

theorem empty : Ledger.empty.Describes .empty where
  named := .empty
  slots := rfl
  own := by simp [Ledger.empty, Scope.empty, Scope.find?, Assoc.find?]
  distinct := List.nodup_nil
  numbered := by simp [Scope.empty, Scope.find?, Assoc.find?]
  remembered := by simp [Scope.empty]

/-- Binding a name hides what it stood for, be that a capture or not. -/
theorem bind (h : ledger.Describes scope) (symbol : Symbol) (hown : symbol.storage ≠ .free) :
    (ledger.bind symbol.name).Describes (scope.bind symbol) where
  named := h.named.bind symbol
  slots := h.slots
  own := by
    intro name
    have hmem : name ∈ (ledger.bind symbol.name).bound ↔
        name ∈ ledger.bound ∨ name = symbol.name := by
      simp [Ledger.bind]
    rw [hmem, Scope.find?_bind]
    by_cases hname : name = symbol.name
    · simp [hname, hown]
    · simp [hname, h.own]
  distinct := h.distinct
  numbered := by
    intro name found hfound hfree
    rw [Scope.find?_bind] at hfound
    split at hfound
    · cases hfound
      exact absurd hfree hown
    · exact h.numbered name found hfound hfree
  remembered := by
    intro original hmem
    rw [Scope.find?_bind]
    split
    · simp
    · exact h.remembered original hmem

theorem define (h : ledger.Describes scope) {storage : Storage} (hown : storage ≠ .free)
    (name : String) :
    ({ slots := ledger.slots ++ [(scope.define storage name).1.index]
       bound := ledger.bound ++ [name] } : Ledger).Describes (scope.define storage name).2 := by
  have hbound := h.bind ⟨name, storage, scope.definitions⟩ hown
  refine { hbound with slots := ?_ }
  show ledger.slots ++ [scope.definitions] = List.range (scope.definitions + 1)
  rw [h.slots, List.range_succ]

/-- A name that the scope does not know yet becomes its next free variable. -/
theorem capture (h : ledger.Describes scope) {original : Symbol}
    (hnew : scope.find? original.name = none) :
    ledger.Describes (scope.capture original).2 := by
  have hcaptures : (scope.capture original).2.captures = scope.captures ++ [original] := rfl
  refine ⟨h.named.capture original, h.slots, ?_, ?_, ?_, ?_⟩
  · intro name
    rw [Scope.find?_capture, h.own]
    by_cases hname : name = original.name
    · simp [hname, hnew]
    · simp [hname]
  · rw [hcaptures, List.map_append, List.nodup_append]
    refine ⟨h.distinct, by simp, ?_⟩
    -- An earlier capture of this name would still be known.
    intro name hname other hother heq
    rcases List.mem_map.1 hname with ⟨earlier, hmem, rfl⟩
    have hsame : earlier.name = original.name := by simpa [heq] using hother
    exact h.remembered earlier hmem (hsame ▸ hnew)
  · intro name found hfound hfree
    rw [Scope.find?_capture] at hfound
    rw [hcaptures]
    split at hfound
    · rename_i hname
      cases hfound
      exact ⟨original, by simp, hname.symm⟩
    -- Earlier captures keep their numbers.
    · rcases h.numbered name found hfound hfree with ⟨earlier, hget, hname⟩
      have hlt := (List.getElem?_eq_some_iff.1 hget).1
      exact ⟨earlier, (List.getElem?_append_left hlt).trans hget, hname⟩
  · intro earlier hmem
    rw [Scope.find?_capture]
    split
    · simp
    · rename_i hname
      rw [hcaptures] at hmem
      rcases List.mem_append.1 hmem with hmem | hmem
      · exact h.remembered earlier hmem
      · exact absurd (congrArg Symbol.name (List.mem_singleton.1 hmem)) hname

end Ledger.Describes

/-- Every scope of the chain is as its ledger describes it, and it captures from the scope around it
what stands there. -/
inductive Chained : SymbolTable → List Ledger → Prop
  | global {scope : Scope} {ledger : Ledger} (h : ledger.Describes scope)
      (hnone : scope.captures = []) : Chained (global scope) [ledger]
  | nested {scope : Scope} {outer : SymbolTable} {ledger : Ledger} {ledgers : List Ledger}
      (h : ledger.Describes scope)
      (hfrom : ∀ original ∈ scope.captures,
        original.storage.reachable = false ∧ outer.scope.find? original.name = some original)
      (houter : Chained outer ledgers) : Chained (nested scope outer) (ledger :: ledgers)

namespace Chained

variable {table table' : SymbolTable} {ledgers : List Ledger}

/-- The innermost scope may be replaced by one that has captured the same. -/
theorem withScope {ledger ledger' : Ledger} {scope : Scope} (h : Chained table (ledger :: ledgers))
    (hscope : ledger.Describes table.scope → ledger'.Describes scope)
    (hcaptures : scope.captures = table.scope.captures) :
    Chained (table.withScope scope) (ledger' :: ledgers) := by
  cases h with
  | global hdescribes hnone => exact .global (hscope hdescribes) (hcaptures.trans hnone)
  | nested hdescribes hfrom houter =>
      refine .nested (hscope hdescribes) ?_ houter
      rw [hcaptures]
      exact hfrom

theorem named (h : Chained table ledgers) : table.Named := by
  induction h with
  | global hdescribes _ =>
      intro s hs
      rw [List.mem_singleton.1 hs]
      exact hdescribes.named
  | nested hdescribes _ _ ih =>
      intro s hs
      rcases List.mem_cons.1 hs with rfl | hs
      · exact hdescribes.named
      · exact ih s hs

/-- Looking a name up binds nothing: the ledgers stay as they are. -/
theorem finds (h : Chained table ledgers) {name : String} {symbol : Symbol}
    (hfinds : Finds name table symbol table') : Chained table' ledgers := by
  induction hfinds generalizing ledgers with
  | here _ => exact h
  | past _ houterFinds _ ih =>
      cases h with
      | nested hdescribes hfrom houter =>
          have hname := houterFinds.name_eq houter.named
          refine .nested hdescribes ?_ (ih houter)
          intro original hmem
          rcases hfrom original hmem with ⟨hreach, hfind⟩
          exact ⟨hreach, houterFinds.kept hname hfind⟩
  | captured hscope houterFinds hreach ih =>
      cases h with
      | nested hdescribes hfrom houter =>
          have hname := houterFinds.name_eq houter.named
          subst hname
          refine .nested (hdescribes.capture hscope) ?_ (ih houter)
          intro original hmem
          rcases List.mem_append.1 hmem with hmem | hmem
          · rcases hfrom original hmem with ⟨hold, hfind⟩
            exact ⟨hold, houterFinds.kept rfl hfind⟩
          · rw [List.mem_singleton.1 hmem]
            exact ⟨hreach, houterFinds.stored rfl hreach⟩

theorem use (h : Chained table ledgers) (name : String) : Chained (table.use name) ledgers := by
  unfold SymbolTable.use
  cases hres : table.resolve name with
  | none => exact h
  | some found => exact h.finds (finds_of_resolve hres)

theorem bind {ledger : Ledger} (h : Chained table (ledger :: ledgers)) (symbol : Symbol)
    (hown : symbol.storage ≠ .free) :
    Chained (table.withScope (table.scope.bind symbol)) (ledger.bind symbol.name :: ledgers) :=
  h.withScope (fun hdescribes => hdescribes.bind symbol hown) rfl

theorem ne_nil (h : Chained table ledgers) : ∃ ledger rest, ledgers = ledger :: rest := by
  cases h with
  | global => exact ⟨_, _, rfl⟩
  | nested => exact ⟨_, _, rfl⟩

/-- One more operation. -/
theorem perform (h : Chained table ledgers) (operation : Operation) :
    Chained (table.perform operation) (table.record operation ledgers) := by
  rcases h.ne_nil with ⟨ledger, rest, rfl⟩
  cases operation with
  | define name =>
      have hown : table.storage ≠ .free := by
        cases table <;> simp [storage, isGlobal]
      exact h.withScope (fun hdescribes => hdescribes.define hown name) rfl
  | defineBuiltin index name => exact h.bind ⟨name, .builtin, index⟩ (by simp)
  | defineOwnName name => exact h.bind ⟨name, .function, 0⟩ (by simp)
  | resolve name => exact h.use name
  | enter => exact .nested .empty (by simp [Scope.empty]) h
  | leave =>
      cases h with
      | global hdescribes hnone => exact .global hdescribes hnone
      | nested _ _ houter =>
          rcases houter.ne_nil with ⟨outer, outermost, rfl⟩
          exact houter

theorem addBuiltins {ledger : Ledger} (h : Chained table (ledger :: ledgers)) (index : Nat)
    (builtins : List Builtin) :
    Chained (table.addBuiltins index builtins)
      ({ ledger with bound := ledger.bound ++ builtins.map Builtin.name } :: ledgers) := by
  induction builtins generalizing table ledger index with
  | nil =>
      rw [List.map_nil, List.append_nil]
      exact h
  | cons b rest ih =>
      have hnext := ih (h.bind ⟨b.name, .builtin, index⟩ (by simp)) (index + 1)
      rw [List.map_cons, List.append_cons]
      exact hnext

end Chained

theorem Reached.chained {table : SymbolTable} {ledgers : List Ledger} (h : Reached table ledgers) :
    Chained table ledgers := by
  have hempty : Chained .empty [.empty] := .global .empty rfl
  induction h with
  | empty => exact hempty
  | initial => exact hempty.addBuiltins 0 Builtin.all
  | perform _ operation ih => exact ih.perform operation

/-! ## Following a capture outwards -/

/-- Where a symbol of the innermost scope comes from: the table and the symbol there. A free
variable is the capture of its number, which is a symbol of the scope around. -/
def follow : SymbolTable → Symbol → Option (SymbolTable × Symbol)
  | global scope, symbol =>
      if symbol.storage = .free then none else some (global scope, symbol)
  | nested scope outer, symbol =>
      if symbol.storage = .free then
        match scope.captures[symbol.index]? with
        | none => none
        | some original => outer.follow original
      else
        some (nested scope outer, symbol)

/-- What holds of a table of a chain. `ledger` tells what has been done in its innermost scope, and
`around` are the tables further out with their ledgers. -/
structure Consistent (table : SymbolTable) (ledger : Ledger)
    (around : List (SymbolTable × Ledger)) : Prop where
  /-- Slots are numbered as they are handed out, and counted. -/
  slots : ledger.slots = List.range table.scope.definitions
  distinct : (table.scope.captures.map Symbol.name).Nodup
  /-- A free variable is the capture of its number. -/
  numbered : ∀ name symbol, table.scope.find? name = some symbol → symbol.storage = .free →
    ∃ original, table.scope.captures[symbol.index]? = some original ∧ original.name = name
  /-- A capture is what stands in the scope around. -/
  captured : ∀ original ∈ table.scope.captures,
    (original.storage = .local ∨ original.storage = .free ∨ original.storage = .function) ∧
      ∃ outer, table.outer? = some outer ∧ outer.scope.find? original.name = some original
  /-- A free variable leads to the nearest table further out that binds the name itself. -/
  origin : ∀ name symbol, table.scope.find? name = some symbol → symbol.storage = .free →
    ∃ between binder own beyond found,
      around = between ++ (binder, own) :: beyond ∧
        name ∉ ledger.bound ∧ (∀ level ∈ between, name ∉ level.2.bound) ∧ name ∈ own.bound ∧
        table.follow symbol = some (binder, found) ∧ binder.scope.find? name = some found ∧
        (found.storage = .local ∨ found.storage = .function)

namespace Chained

variable {table : SymbolTable} {ledger : Ledger} {ledgers : List Ledger}

theorem describes (h : Chained table (ledger :: ledgers)) : ledger.Describes table.scope := by
  cases h with
  | global hdescribes => exact hdescribes
  | nested hdescribes => exact hdescribes

theorem tables_zip (h : Chained table (ledger :: ledgers)) :
    table.tables.zip (ledger :: ledgers) = (table, ledger) :: table.tables.tail.zip ledgers := by
  cases h with
  | global => rfl
  | nested => rfl

theorem length_tables (h : Chained table ledgers) : ledgers.length = table.tables.length := by
  induction h with
  | global => rfl
  | nested _ _ _ ih => simp [tables, ih]

/-- A symbol that has to be captured leads outwards to a table that binds the name itself. -/
theorem leads (h : Chained table ledgers) {name : String} {symbol : Symbol}
    (hfind : table.scope.find? name = some symbol) (hreach : symbol.storage.reachable = false) :
    ∃ between binder own beyond found,
      table.tables.zip ledgers = between ++ (binder, own) :: beyond ∧
        (∀ level ∈ between, name ∉ level.2.bound) ∧ name ∈ own.bound ∧
        table.follow symbol = some (binder, found) ∧ binder.scope.find? name = some found ∧
        (found.storage = .local ∨ found.storage = .function) := by
  induction h generalizing symbol with
  | @global scope ledger hdescribes hnone =>
      -- At the top level nothing is captured, so the symbol is one that was bound there.
      have hown : symbol.storage ≠ .free := by
        intro hfree
        rcases hdescribes.numbered name symbol hfind hfree with ⟨original, hget, -⟩
        rw [hnone] at hget
        cases hget
      refine ⟨[], .global scope, ledger, [], symbol, rfl, by simp,
        (hdescribes.own name).2 ⟨symbol, hfind, hown⟩, by simp [follow, hown], hfind, ?_⟩
      rcases Storage.reachable_eq_false_iff.1 hreach with hlocal | hfree | hfunction
      · exact .inl hlocal
      · exact absurd hfree hown
      · exact .inr hfunction
  | @nested scope outer ledger ledgers hdescribes hfrom houter ih =>
      by_cases hfree : symbol.storage = .free
      · -- The search goes on in the scope around, with the symbol that was captured from there.
        rcases hdescribes.numbered name symbol hfind hfree with ⟨original, hget, rfl⟩
        rcases hfrom original (List.mem_of_getElem? hget) with ⟨horiginal, hstands⟩
        rcases ih hstands horiginal with
          ⟨between, binder, own, beyond, found, hzip, hbetween, hbound, hfollow, hbinder⟩
        refine ⟨(.nested scope outer, ledger) :: between, binder, own, beyond, found,
          ?_, ?_, hbound, ?_, hbinder⟩
        · show (_ : SymbolTable × Ledger) :: outer.tables.zip ledgers = _
          rw [hzip]
          rfl
        · intro level hlevel
          rcases List.mem_cons.1 hlevel with rfl | hlevel
          · rw [hdescribes.own]
            rintro ⟨other, hother, hne⟩
            have hsame : scope.find? original.name = some symbol := hfind
            rw [hsame] at hother
            cases hother
            exact hne hfree
          · exact hbetween level hlevel
        · simp only [follow, hfree, if_true, hget]
          exact hfollow
      · refine ⟨[], .nested scope outer, ledger, outer.tables.zip ledgers, symbol, rfl, by simp,
          (hdescribes.own name).2 ⟨symbol, hfind, hfree⟩, by simp [follow, hfree], hfind, ?_⟩
        rcases Storage.reachable_eq_false_iff.1 hreach with hlocal | hfree' | hfunction
        · exact .inl hlocal
        · exact absurd hfree' hfree
        · exact .inr hfunction

theorem consistent (h : Chained table (ledger :: ledgers)) :
    table.Consistent ledger (table.tables.tail.zip ledgers) where
  slots := h.describes.slots
  distinct := h.describes.distinct
  numbered := h.describes.numbered
  captured := by
    intro original hmem
    cases h with
    | @global scope _ _ hnone =>
        have hmem' : original ∈ scope.captures := hmem
        rw [hnone] at hmem'
        cases hmem'
    | nested _ hfrom _ =>
        rcases hfrom original hmem with ⟨hreach, hstands⟩
        exact ⟨Storage.reachable_eq_false_iff.1 hreach, _, rfl, hstands⟩
  origin := by
    intro name symbol hfind hfree
    have hnot : name ∉ ledger.bound := by
      rw [h.describes.own]
      rintro ⟨other, hother, hne⟩
      rw [hfind] at hother
      cases hother
      exact hne hfree
    have hreach : symbol.storage.reachable = false :=
      Storage.reachable_eq_false_iff.2 (.inr (.inl hfree))
    rcases h.leads hfind hreach with
      ⟨between, binder, own, beyond, found, hzip, hbetween, hbound, hfound⟩
    rw [h.tables_zip] at hzip
    -- The table itself does not bind the name, so the binder is further out.
    cases between with
    | nil =>
        cases hzip
        exact absurd hbound hnot
    | cons level between =>
        rw [List.cons_append] at hzip
        exact ⟨between, binder, own, beyond, found, (List.cons.inj hzip).2, hnot,
          fun level hlevel => hbetween level (List.mem_cons_of_mem _ hlevel), hbound, hfound⟩

end Chained

/-- Whatever has been done with a table: in every scope of the chain slots are handed out in order,
no name is captured twice, free variables and captures go by the same numbers, and a capture is what
stands in the scope around. So a free variable leads to the binding that is meant. -/
theorem Reached.captures_consistent {table : SymbolTable} {ledgers : List Ledger}
    (h : Reached table ledgers) :
    ledgers.length = table.tables.length ∧
      ∀ inner table' ledger around,
        table.tables.zip ledgers = inner ++ (table', ledger) :: around →
          table'.Consistent ledger around := by
  have hchained := h.chained
  refine ⟨hchained.length_tables, ?_⟩
  intro inner table' ledger around hzip
  clear h
  -- Each scope on the way in is taken off the chain, until the table in question is left.
  induction inner generalizing table ledgers with
  | nil =>
      rcases hchained.ne_nil with ⟨innermost, rest, rfl⟩
      rw [hchained.tables_zip, List.nil_append] at hzip
      cases hzip
      exact hchained.consistent
  | cons level inner ih =>
      cases hchained with
      | global _ _ => simp [tables] at hzip
      | nested _ _ houter => exact ih houter (List.cons.inj hzip).2

/-- A parameter is captured, then bound anew in the function that captured it; one more function
further in captures the new binding, and the own name of the outermost one through both. -/
theorem Reached.captures_consistent_of_shadowing :
    ∃ (table : SymbolTable) (ledgers : List Ledger), Reached table ledgers ∧
      table.scopes.map Scope.captures =
        [[⟨"x", .local, 0⟩, ⟨"f", .free, 1⟩], [⟨"x", .local, 0⟩, ⟨"f", .function, 0⟩], [], []] ∧
      ledgers.length = table.tables.length ∧
      ∀ inner table' ledger around,
        table.tables.zip ledgers = inner ++ (table', ledger) :: around →
          table'.Consistent ledger around := by
  have h := Reached.initial
    |>.perform .enter |>.perform (.defineOwnName "f") |>.perform (.define "x")
    |>.perform .enter |>.perform (.resolve "x") |>.perform (.define "x")
    |>.perform .enter |>.perform (.resolve "x") |>.perform (.resolve "f")
  exact ⟨_, _, h, by decide +kernel, h.captures_consistent⟩

end SymbolTable

end MonkeyMachine
