import Mathlib.Data.Finset.Insert
import MonkeyMachine.Proofs.GlobalNames
import MonkeyMachine.Proofs.LexicalLookup
import MonkeyMachine.Proofs.OrderedMaps
import MonkeyMachine.Proofs.SessionSafety

/-!
# Well-scoped programs

Which programs does the compiler refuse, apart from those that are too large for the instruction
set? Those that use a name nobody has bound, or an operator that does not exist. `Block.check` finds
them without writing any code: it goes over a program in the order of evaluation and carries along
the names that are bound, one set for each function body around and one for the top level.

The compiler keeps its names in symbol tables, which gain captures while names are looked up.
`Knows sets table` says that the sets and the table have the same names all the same, and
`Checks act check` that an act of the compiler and a check keep it so and object to the same things.
-/

namespace MonkeyMachine

/-! ## The checker -/

/-- What is wrong with a program that is not well-scoped. -/
inductive ScopeFault
  | undefinedVariable (name : String)
  | unknownOperator (operator : String)

/-- A check of a part of a program. The sets of bound names are those of the function bodies around
the current point, innermost first, and of the top level. -/
abbrev Check := EStateM ScopeFault (List (Finset String))

namespace Check

def unaryOperators : List String := ["!", "-"]

/-- The binary operators whose left side is evaluated first: all but `<`. -/
def binaryOperators : List String := ["+", "-", "*", "/", ">", "==", "!="]

/-- A name is used. -/
def look (name : String) : Check Unit := do
  if ∃ names ∈ (← get), name ∈ names then
    pure ()
  else
    throw (.undefinedVariable name)

theorem look_eq (name : String) (sets : List (Finset String)) :
    look name sets =
      if ∃ names ∈ sets, name ∈ names then .ok () sets
      else .error (.undefinedVariable name) sets := by
  rw [look, act_bind_of_ok (show (get : Check (List (Finset String))) sets = .ok sets sets from rfl)]
  split
  · rfl
  · rfl

/-- A name is bound where we are. -/
def bind (name : String) : Check Unit :=
  modify fun
    | [] => []
    | names :: outer => insert name names :: outer

def bindAll : List String → Check Unit
  | [] => pure ()
  | name :: rest => do
      bind name
      bindAll rest

/-- A function body begins. -/
def enter : Check Unit := modify (∅ :: ·)

/-- A function body ends. The top level does not end. -/
def leave : Check Unit :=
  modify fun
    | _ :: outer :: rest => outer :: rest
    | sets => sets

end Check

open Check

mutual

def Stmt.check : Stmt → Check Unit
  | .expr value => Expr.check none value
  | .bind name value => do
      Expr.check (some name) value
      Check.bind name
  | .ret value => Expr.check none value

/-- The names that a block binds stay bound behind it. -/
def Block.check : List Stmt → Check Unit
  | [] => pure ()
  | stmt :: rest => do
      Stmt.check stmt
      Block.check rest

/-- An operator is looked at before its operands. -/
def Expr.check (own : Option String) : Expr → Check Unit
  | .ident name => look name
  | .int _ => pure ()
  | .str _ => pure ()
  | .bool _ => pure ()
  | .unary operator operand =>
      if operator ∈ unaryOperators then
        Expr.check none operand
      else
        throw (.unknownOperator operator)
  | .binary left operator right =>
      if operator = "<" then do
        Expr.check none right
        Expr.check none left
      else if operator ∈ binaryOperators then do
        Expr.check none left
        Expr.check none right
      else
        throw (.unknownOperator operator)
  | .cond test yes none => do
      Expr.check none test
      Block.check yes
  | .cond test yes (some no) => do
      Expr.check none test
      Block.check yes
      Block.check no
  | .function params body => do
      enter
      bindAll own.toList
      bindAll params
      Block.check body
      leave
  | .call callee args => do
      Expr.checkList args
      Expr.check none callee
  | .array elements => Expr.checkList elements
  | .hash pairs => Expr.checkPairs pairs
  | .index collection key => do
      Expr.check none collection
      Expr.check none key

def Expr.checkList : List Expr → Check Unit
  | [] => pure ()
  | expr :: rest => do
      Expr.check none expr
      Expr.checkList rest

def Expr.checkPairs : List (Expr × Expr) → Check Unit
  | [] => pure ()
  | (key, value) :: rest => do
      Expr.check none key
      Expr.check none value
      Expr.checkPairs rest

end

/-! ## Sets of names and symbol tables -/

def Scope.names (scope : Scope) : Finset String := (scope.bindings.map Prod.fst).toFinset

theorem Scope.mem_names {scope : Scope} {name : String} :
    name ∈ scope.names ↔ scope.find? name ≠ none := by
  rw [names, List.mem_toFinset, find?, Assoc.find?_ne_none_iff]

namespace SymbolTable

/-- Some scope of the chain has a symbol for the name. -/
def Binds (table : SymbolTable) (name : String) : Prop :=
  ∃ scope ∈ table.scopes, scope.find? name ≠ none

theorem binds_nested {scope : Scope} {outer : SymbolTable} {name : String} :
    (nested scope outer).Binds name ↔ scope.find? name ≠ none ∨ outer.Binds name := by
  simp [Binds, scopes]

theorem resolve_eq_none_iff_not_binds {table : SymbolTable} {name : String} :
    table.resolve name = none ↔ ¬ table.Binds name := by
  rw [resolve_eq_none_iff]
  simp [Binds]

/-- Looking a name up does not change which names are bound. -/
theorem Finds.binds_iff {name : String} {table table' : SymbolTable} {symbol : Symbol}
    (h : Finds name table symbol table') (hnamed : table.Named) (other : String) :
    table'.Binds other ↔ table.Binds other := by
  induction h with
  | here _ => exact Iff.rfl
  | past _ _ _ ih => rw [binds_nested, binds_nested, ih hnamed.outer]
  | @captured scope outer outer' original hscope houter _ ih =>
      have hname := houter.name_eq hnamed.outer
      subst hname
      have hbinds : outer.Binds original.name := by
        by_contra hnot
        rw [← resolve_eq_none_iff_not_binds, houter.resolve] at hnot
        cases hnot
      rw [binds_nested, binds_nested, ih hnamed.outer, Scope.find?_capture]
      by_cases hother : other = original.name
      · simp [hother, hbinds]
      · simp [hother]

/-- Scope by scope, the sets hold the names that are bound in the scope or further out. A captured
name is bound further out, so it may be in the scope and not in its set. -/
inductive Knows : List (Finset String) → SymbolTable → Prop
  | global {names : Finset String} {scope : Scope} (hnamed : scope.Named)
      (hnames : ∀ name, name ∈ names ↔ scope.find? name ≠ none) :
      Knows [names] (global scope)
  | nested {names : Finset String} {sets : List (Finset String)} {scope : Scope}
      {outer : SymbolTable} (hnamed : scope.Named)
      (hnames : ∀ name, name ∈ names ∨ outer.Binds name ↔
        scope.find? name ≠ none ∨ outer.Binds name)
      (houter : Knows sets outer) : Knows (names :: sets) (nested scope outer)

namespace Knows

variable {names : Finset String} {sets : List (Finset String)} {table table' : SymbolTable}
  {name : String} {symbol : Symbol}

theorem binds_iff (h : Knows sets table) (name : String) :
    (∃ names ∈ sets, name ∈ names) ↔ table.Binds name := by
  induction h with
  | global _ hnames => simp [Binds, scopes, hnames]
  | nested _ hnames _ ih =>
      rw [binds_nested, ← hnames, ← ih]
      simp

theorem named (h : Knows sets table) : table.Named := by
  induction h with
  | global hnamed _ =>
      intro s hs
      rw [List.mem_singleton.1 hs]
      exact hnamed
  | nested hnamed _ _ ih =>
      intro s hs
      rcases List.mem_cons.1 hs with rfl | hs
      · exact hnamed
      · exact ih s hs

/-- The sets do not tell whether a name has been captured. -/
theorem finds (h : Knows sets table) (hfinds : Finds name table symbol table') :
    Knows sets table' := by
  have hnamed := h.named
  induction hfinds generalizing sets with
  | here _ => exact h
  | past _ houterFinds _ ih =>
      cases h with
      | nested hscope hnames houter =>
          refine .nested hscope ?_ (ih houter houter.named)
          intro other
          rw [houterFinds.binds_iff houter.named]
          exact hnames other
  | @captured scope outer outer' original hnone houterFinds hreach ih =>
      cases h with
      | nested hscope hnames houter =>
          refine .nested (hscope.capture original) ?_ (ih houter houter.named)
          intro other
          -- The scope knows one name more, which the scopes further out have known before.
          have hnew := (Finds.captured hnone houterFinds hreach).binds_iff hnamed other
          rw [binds_nested, binds_nested] at hnew
          rw [hnew, ← hnames other, houterFinds.binds_iff houter.named]

/-- One more name is bound in the innermost scope. How many slots it has does not matter. -/
theorem bind (h : Knows (names :: sets) table) (symbol : Symbol) (definitions : Nat) :
    Knows (insert symbol.name names :: sets)
      (table.withScope { table.scope.bind symbol with definitions }) := by
  have hfind : ∀ other, Scope.find? { table.scope.bind symbol with definitions } other =
      if other = symbol.name then some symbol else table.scope.find? other :=
    fun other => table.scope.find?_bind symbol other
  cases h with
  | @global _ scope hnamed hnames =>
      refine .global (hnamed.bind symbol) ?_
      intro other
      rw [Finset.mem_insert, hnames, hfind]
      by_cases hother : other = symbol.name
      · simp [hother]
      · simp [hother, SymbolTable.scope]
  | @nested _ _ scope outer hnamed hnames houter =>
      refine .nested (hnamed.bind symbol) ?_ houter
      intro other
      rw [Finset.mem_insert, or_assoc, hnames, hfind]
      by_cases hother : other = symbol.name
      · simp [hother]
      · simp [hother, SymbolTable.scope]

theorem enter (h : Knows sets table) : Knows (∅ :: sets) table.enter :=
  .nested .empty (by simp [Scope.empty, Scope.find?, Assoc.find?]) h

/-- At the top level there is one set, that of all bound names. -/
theorem sets_eq {scope : Scope} (h : Knows sets (.global scope)) : sets = [scope.names] := by
  cases h with
  | @global names _ _ hnames =>
      have hsame : names = scope.names := by
        ext name
        rw [hnames, Scope.mem_names]
      rw [hsame]

theorem ne_nil (h : Knows sets table) : ∃ names rest, sets = names :: rest := by
  cases h with
  | global => exact ⟨_, _, rfl⟩
  | nested => exact ⟨_, _, rfl⟩

end Knows

end SymbolTable

/-! ## Acts of the compiler -/

/-- What the checker would report of the error. Programs that are too large are none of its
concerns. -/
def CompileError.fault? : CompileError → Option ScopeFault
  | .undefinedVariable name => some (.undefinedVariable name)
  | .unknownOperator operator => some (.unknownOperator operator)
  | .tooManyLocals => none
  | .encoding _ => none

/-- Where the sets have the names of the table: if the act succeeds, so does the check, and they
have them again; if the act objects to a name or an operator, the check does so too. -/
def Checks {α : Type} (act : Compile α) (check : Check Unit) : Prop :=
  ∀ c sets, SymbolTable.Knows sets c.symbols →
    match act c with
    | .ok _ c' => ∃ sets', check sets = .ok () sets' ∧ SymbolTable.Knows sets' c'.symbols
    | .error e _ => ∀ fault, e.fault? = some fault → ∃ sets', check sets = .error fault sets'

namespace Checks

variable {α β : Type} {act : Compile α} {next : α → Compile β} {check check' : Check Unit}

theorem bind (h : Checks act check) (hnext : ∀ a, Checks (next a) check') :
    Checks (act >>= next) (check >>= fun _ => check') := by
  intro c sets hknows
  have hact := h c sets hknows
  cases hc : act c with
  | ok a c' =>
      rw [hc] at hact
      rcases hact with ⟨sets', hcheck, hknows'⟩
      rw [act_bind_of_ok hc, act_bind_of_ok hcheck]
      exact hnext a c' sets' hknows'
  | error e c' =>
      rw [hc] at hact
      rw [act_bind_of_error hc]
      intro fault hfault
      rcases hact fault hfault with ⟨sets', hcheck⟩
      exact ⟨sets', act_bind_of_error hcheck⟩

/-- An act in front that has nothing to do with names. -/
theorem before (h : Checks act (pure ())) (hnext : ∀ a, Checks (next a) check) :
    Checks (act >>= next) check := h.bind hnext

/-- An act behind that has nothing to do with names. -/
theorem behind (h : Checks act check) (hnext : ∀ a, Checks (next a) (pure ())) :
    Checks (act >>= next) check := by
  have hboth := h.bind hnext
  rw [bind_pure_unit] at hboth
  exact hboth

theorem throw (e : CompileError)
    (h : ∀ fault, e.fault? = some fault → check = MonadExcept.throw fault) :
    Checks (MonadExcept.throw e : Compile α) check := by
  intro c sets _ fault hfault
  rw [h fault hfault]
  exact ⟨sets, rfl⟩

/-! ### Acts that leave names alone -/

theorem of_symbols (hok : ∀ c a c', act c = .ok a c' → c'.symbols = c.symbols)
    (herror : ∀ c e c', act c = .error e c' → e.fault? = none) : Checks act (pure ()) := by
  intro c sets hknows
  cases hc : act c with
  | ok a c' =>
      refine ⟨sets, rfl, ?_⟩
      rw [hok c a c' hc]
      exact hknows
  | error e c' =>
      intro fault hfault
      rw [herror c e c' hc] at hfault
      cases hfault

theorem nothing : Checks (pure () : Compile Unit) (pure ()) :=
  fun _ sets hknows => ⟨sets, rfl, hknows⟩

theorem onState (f : Compiler → α × Compiler) (h : ∀ c, (f c).2.symbols = c.symbols) :
    Checks (modifyGet f : Compile α) (pure ()) := by
  refine of_symbols ?_ ?_
  · intro c a c' hact
    cases hact
    exact h c
  · intro c e c' hact
    cases hact

theorem emitAt (op : Opcode) (operands : List Nat) :
    Checks (Compile.emitAt op operands) (pure ()) := by
  unfold Compile.emitAt
  cases op.encode operands with
  | error cause =>
      refine throw _ ?_
      intro fault hfault
      cases hfault
  | ok bytes => exact onState _ fun _ => rfl

theorem emit (op : Opcode) (operands : List Nat) : Checks (Compile.emit op operands) (pure ()) :=
  (emitAt op operands).before fun _ => nothing

theorem position : Checks Compile.position (pure ()) := fun _ sets hknows => ⟨sets, rfl, hknows⟩

theorem lastIs (op : Opcode) : Checks (Compile.lastIs op) (pure ()) :=
  fun _ sets hknows => ⟨sets, rfl, hknows⟩

theorem patch (position operand : Nat) : Checks (Compile.patch position operand) (pure ()) := by
  refine of_symbols ?_ ?_
  · intro c a c' hact
    cases hpatched : c.buffer.code.patched position operand with
    | error cause =>
        rw [Compile.patch_of_error hpatched] at hact
        cases hact
    | ok bytes =>
        rw [Compile.patch_of_ok hpatched] at hact
        cases hact
        rfl
  · intro c e c' hact
    cases hpatched : c.buffer.code.patched position operand with
    | error cause =>
        rw [Compile.patch_of_error hpatched] at hact
        cases hact
        rfl
    | ok bytes =>
        rw [Compile.patch_of_ok hpatched] at hact
        cases hact

theorem onBuffer (change : Buffer → Buffer) :
    Checks (modify fun c : Compiler => { c with buffer := change c.buffer } : Compile Unit)
      (pure ()) := fun _ sets hknows => ⟨sets, rfl, hknows⟩

theorem addFunction (f : Function) : Checks (Compile.addFunction f) (pure ()) :=
  fun _ sets hknows => ⟨sets, rfl, hknows⟩

theorem literal (v : Value) : Checks (Compile.literal v) (pure ()) := by
  refine before ?_ fun index => emit _ _
  exact onState _ fun _ => rfl

theorem load (symbol : Symbol) : Checks (Compile.load symbol) (pure ()) := by
  unfold Compile.load
  cases symbol.storage <;> exact emit _ _

theorem loadAll (symbols : List Symbol) : Checks (Compile.loadAll symbols) (pure ()) := by
  induction symbols with
  | nil => exact nothing
  | cons symbol rest ih => exact (load symbol).before fun _ => ih

theorem finishBody : Checks Compile.finishBody (pure ()) := by
  have hends : Checks (do
      if !(← Compile.lastIs .returnValue) then
        Compile.emit .returnNull [] : Compile Unit) (pure ()) := by
    refine (lastIs .returnValue).before fun last => ?_
    split
    · exact emit _ _
    · exact nothing
  refine (lastIs .pop).before fun last => ?_
  split
  · exact (onBuffer (·.replaceLast .returnValue)).before fun _ => hends
  · exact hends

/-! ### Acts on names -/

theorem define (name : String) : Checks (Compile.define name) (Check.bind name) := by
  intro c sets hknows
  rcases hknows.ne_nil with ⟨names, outer, rfl⟩
  exact ⟨_, rfl, hknows.bind ⟨name, _, _⟩ _⟩

theorem defineOwnName (own : Option String) :
    Checks (Compile.defineOwnName own) (Check.bindAll own.toList) := by
  cases own with
  | none => exact nothing
  | some name =>
      intro c sets hknows
      rcases hknows.ne_nil with ⟨names, outer, rfl⟩
      exact ⟨_, rfl, hknows.bind ⟨name, .function, 0⟩ _⟩

theorem defineParams (params : List String) :
    Checks (Compile.defineParams params) (Check.bindAll params) := by
  induction params with
  | nil => exact nothing
  | cons name rest ih =>
      refine (define name).bind fun symbol => ?_
      split
      · exact ih
      · refine throw _ ?_
        intro fault hfault
        cases hfault

theorem bindName (name : String) : Checks (Compile.bind name) (Check.bind name) := by
  refine (define name).behind fun symbol => ?_
  split
  · exact emit _ _
  · split
    · exact emit _ _
    · refine throw _ ?_
      intro fault hfault
      cases hfault

/-- A name is known to the sets where the table can resolve it. -/
theorem resolve (name : String) : Checks (Compile.resolve name) (Check.look name) := by
  intro c sets hknows
  unfold Compile.resolve
  rw [act_bind_of_ok (show (get : Compile Compiler) c = .ok c c from rfl)]
  cases hres : c.symbols.resolve name with
  | none =>
      have hnot : ¬ ∃ names ∈ sets, name ∈ names := by
        rw [hknows.binds_iff, ← SymbolTable.resolve_eq_none_iff_not_binds]
        exact hres
      intro fault hfault
      cases hfault
      refine ⟨sets, ?_⟩
      rw [Check.look_eq, if_neg hnot]
  | some found =>
      obtain ⟨symbol, symbols⟩ := found
      have hbinds : ∃ names ∈ sets, name ∈ names := by
        rw [hknows.binds_iff]
        by_contra hnot
        rw [← SymbolTable.resolve_eq_none_iff_not_binds, hres] at hnot
        cases hnot
      refine ⟨sets, ?_, hknows.finds (SymbolTable.finds_of_resolve hres)⟩
      rw [Check.look_eq, if_pos hbinds]

/-! ### Constructs with a body -/

theorem branch {block : Compile Unit} (h : Checks block check) :
    Checks (Compile.branch block) check := by
  refine position.before fun start => h.behind fun _ => position.before fun finish => ?_
  refine (lastIs .pop).before fun last => ?_
  split
  · exact onBuffer Buffer.removeLast
  · exact emit _ _

theorem conditional {test yes no : Compile Unit} {check'' : Check Unit} (htest : Checks test check)
    (hyes : Checks yes check') (hno : Checks no check'') :
    Checks (Compile.conditional test yes no) (do check; check'; check'') := by
  refine htest.bind fun _ => (emitAt _ _).before fun toNo => ?_
  refine (branch hyes).bind fun _ => (emitAt _ _).before fun toFinish => ?_
  refine position.before fun _ => (patch _ _).before fun _ => ?_
  exact hno.behind fun _ => position.before fun _ => patch _ _

theorem enterBody : Checks Compile.enterBody Check.enter :=
  fun _ _ hknows => ⟨_, rfl, hknows.enter⟩

theorem leaveBody : Checks Compile.leaveBody Check.leave := by
  intro c sets hknows
  obtain ⟨constants, symbols, buffer, enclosing⟩ := c
  have hleft : ∃ sets', Check.leave sets = .ok () sets' ∧
      SymbolTable.Knows sets' symbols.leave.2 := by
    cases hknows with
    | global hnamed hnames => exact ⟨_, rfl, .global hnamed hnames⟩
    | nested _ _ houter =>
        rcases houter.ne_nil with ⟨names, outer, rfl⟩
        exact ⟨_, rfl, houter⟩
  cases enclosing with
  | nil => exact hleft
  | cons outer rest => exact hleft

theorem functionLiteral (own : Option String) (params : List String) {body : Compile Unit}
    (h : Checks body check) :
    Checks (Compile.functionLiteral own params body)
      (do Check.enter; Check.bindAll own.toList; Check.bindAll params; check; Check.leave) := by
  refine enterBody.bind fun _ => (defineOwnName own).bind fun _ => ?_
  refine (defineParams params).bind fun _ => h.bind fun _ => finishBody.before fun _ => ?_
  refine leaveBody.behind ?_
  rintro ⟨code, scope⟩
  -- What is left writes the closure into the code around.
  refine (loadAll scope.captures).before fun _ => (addFunction _).before fun index => ?_
  split
  · exact emit _ _
  · exact emit _ _

end Checks

/-! ## Programs -/

theorem Compile.unaryOpcode?_eq_none_iff {operator : String} :
    Compile.unaryOpcode? operator = none ↔ operator ∉ Check.unaryOperators := by
  unfold Compile.unaryOpcode? Check.unaryOperators
  split_ifs <;> simp_all

theorem Compile.binaryOpcode?_eq_none_iff {operator : String} :
    Compile.binaryOpcode? operator = none ↔ operator ∉ Check.binaryOperators := by
  unfold Compile.binaryOpcode? Check.binaryOperators
  split_ifs <;> simp_all

theorem Checks.unknownOperator {α : Type} (operator : String) :
    Checks (MonadExcept.throw (.unknownOperator operator) : Compile α)
      (MonadExcept.throw (.unknownOperator operator)) := by
  refine .throw _ ?_
  intro fault hfault
  cases hfault
  rfl

mutual

theorem Stmt.compile_checks (stmt : Stmt) : Checks (Stmt.compile stmt) (Stmt.check stmt) := by
  cases stmt with
  | expr value => exact (Expr.compile_checks none value).behind fun _ => .emit _ _
  | bind name value => exact (Expr.compile_checks (some name) value).bind fun _ => .bindName name
  | ret value => exact (Expr.compile_checks none value).behind fun _ => .emit _ _

theorem Block.compile_checks (block : List Stmt) :
    Checks (Block.compile block) (Block.check block) := by
  cases block with
  | nil => exact .nothing
  | cons stmt rest => exact (Stmt.compile_checks stmt).bind fun _ => Block.compile_checks rest

theorem Expr.compile_checks (own : Option String) (expr : Expr) :
    Checks (Expr.compile own expr) (Expr.check own expr) := by
  cases expr with
  | ident name => exact (Checks.resolve name).behind fun symbol => .load symbol
  | int n => exact .literal _
  | str s => exact .literal _
  | bool b => exact .emit _ _
  | unary operator operand =>
      unfold Expr.compile Expr.check
      cases hop : Compile.unaryOpcode? operator with
      | none =>
          rw [if_neg (Compile.unaryOpcode?_eq_none_iff.1 hop)]
          exact .unknownOperator operator
      | some op =>
          have hmem : operator ∈ Check.unaryOperators := by
            by_contra hnot
            rw [Compile.unaryOpcode?_eq_none_iff.2 hnot] at hop
            cases hop
          rw [if_pos hmem]
          exact (Expr.compile_checks none operand).behind fun _ => .emit _ _
  | binary left operator right =>
      have hleft := Expr.compile_checks none left
      have hright := Expr.compile_checks none right
      unfold Expr.compile Expr.check
      by_cases hless : operator = "<"
      · rw [if_pos hless, if_pos hless]
        exact hright.bind fun _ => hleft.behind fun _ => .emit _ _
      · rw [if_neg hless, if_neg hless]
        cases hop : Compile.binaryOpcode? operator with
        | none =>
            rw [if_neg (Compile.binaryOpcode?_eq_none_iff.1 hop)]
            exact .unknownOperator operator
        | some op =>
            have hmem : operator ∈ Check.binaryOperators := by
              by_contra hnot
              rw [Compile.binaryOpcode?_eq_none_iff.2 hnot] at hop
              cases hop
            rw [if_pos hmem]
            exact hleft.bind fun _ => hright.behind fun _ => .emit _ _
  | cond test yes no =>
      have htest := Expr.compile_checks none test
      have hyes := Block.compile_checks yes
      cases no with
      | none =>
          have hcond := Checks.conditional htest hyes (.emit .pushNull [])
          rw [bind_pure_unit] at hcond
          exact hcond
      | some no => exact Checks.conditional htest hyes (.branch (Block.compile_checks no))
  | function params body => exact .functionLiteral own params (Block.compile_checks body)
  | call callee args =>
      exact (Expr.compileList_checks args).bind fun _ =>
        (Expr.compile_checks none callee).behind fun _ => .emit _ _
  | array elements => exact (Expr.compileList_checks elements).behind fun _ => .emit _ _
  | hash pairs => exact (Expr.compilePairs_checks pairs).behind fun _ => .emit _ _
  | index collection key =>
      exact (Expr.compile_checks none collection).bind fun _ =>
        (Expr.compile_checks none key).behind fun _ => .emit _ _

theorem Expr.compileList_checks (exprs : List Expr) :
    Checks (Expr.compileList exprs) (Expr.checkList exprs) := by
  cases exprs with
  | nil => exact .nothing
  | cons expr rest =>
      exact (Expr.compile_checks none expr).bind fun _ => Expr.compileList_checks rest

theorem Expr.compilePairs_checks (pairs : List (Expr × Expr)) :
    Checks (Expr.compilePairs pairs) (Expr.checkPairs pairs) := by
  cases pairs with
  | nil => exact .nothing
  | cons pair rest =>
      rcases pair with ⟨key, value⟩
      exact (Expr.compile_checks none key).bind fun _ =>
        (Expr.compile_checks none value).bind fun _ => Expr.compilePairs_checks rest

end

/-- The error that a program is refused with, if it is. -/
def Program.refusal? (start : Compiler) (program : Program) : Option CompileError :=
  match (Block.compile program).run start with
  | .ok _ _ => none
  | .error e _ => some e

theorem Program.exists_of_refusal {start : Compiler} {program : Program} {e : CompileError}
    (h : program.refusal? start = some e) :
    ∃ c, (Block.compile program).run start = .error e c := by
  unfold Program.refusal? at h
  split at h
  · cases h
  · cases h
    exact ⟨_, by assumption⟩

namespace Session

/-- The outcome of compiling a program of a session. -/
abbrev compile (session : Session) (program : Program) :
    EStateM.Result CompileError Compiler Unit :=
  (Block.compile program).run (.start session.symbols session.constants)

/-- The outcome of checking a program of a session, from the names that are bound there. -/
abbrev check (session : Session) (program : Program) :
    EStateM.Result ScopeFault (List (Finset String)) Unit :=
  (Block.check program).run [session.symbols.scope.names]

theorem Reached.exists_global {session : Session} (h : session.Reached) :
    ∃ scope, session.symbols = .global scope ∧ scope.Named := by
  rcases h.sound with ⟨w, hw⟩
  rcases hw.names with ⟨site, hagrees, hbody, -⟩
  have hlayered := hagrees.layered
  cases hsymbols : session.symbols with
  | global scope =>
      rw [hsymbols] at hlayered
      exact ⟨scope, rfl, fun name symbol hfind => (hlayered name symbol hfind).1⟩
  | nested scope outer =>
      rw [hsymbols] at hagrees
      cases hagrees with
      | inside hinside =>
          rw [hbody] at hinside
          cases hinside

/-- The compiler refuses a program for its names or operators exactly where the checker does, and
for the same reason. If the program compiles, the checker finds no fault, and the names that are
bound in the end are those that it has noted. If the compiler reports a name or an operator, that is
the first fault that the checker finds. And a program in which the checker finds a fault does not
compile. -/
theorem Reached.compile_scoped {session : Session} (h : session.Reached) (program : Program) :
    (∀ c, session.compile program = .ok () c →
      session.check program = .ok () [c.symbols.scope.names]) ∧
      (∀ name c, session.compile program = .error (.undefinedVariable name) c →
        ∃ sets, session.check program = .error (.undefinedVariable name) sets) ∧
      (∀ operator c, session.compile program = .error (.unknownOperator operator) c →
        ∃ sets, session.check program = .error (.unknownOperator operator) sets) ∧
      ∀ fault sets, session.check program = .error fault sets →
        ∀ c, session.compile program ≠ .ok () c := by
  rcases h.exists_global with ⟨scope, hsymbols, hnamed⟩
  have hknows : SymbolTable.Knows [session.symbols.scope.names]
      (Compiler.start session.symbols session.constants).symbols := by
    show SymbolTable.Knows [session.symbols.scope.names] session.symbols
    rw [hsymbols]
    exact .global hnamed fun name => Scope.mem_names
  have hchecks := Block.compile_checks program _ _ hknows
  have hok : ∀ c, session.compile program = .ok () c →
      session.check program = .ok () [c.symbols.scope.names] := by
    intro c hc
    have hcompile : Block.compile program (.start session.symbols session.constants) =
      .ok () c := hc
    rw [hcompile] at hchecks
    rcases hchecks with ⟨sets, hcheck, hknows'⟩
    -- The program has left the table at the top level.
    have htop := Program.compile_symbols (by rw [hsymbols]; rfl) hcompile
    rw [htop] at hknows' ⊢
    rw [hknows'.sets_eq] at hcheck
    exact hcheck
  have herror : ∀ e fault c, session.compile program = .error e c → e.fault? = some fault →
      ∃ sets, session.check program = .error fault sets := by
    intro e fault c hc hfault
    have hcompile : Block.compile program (.start session.symbols session.constants) =
      .error e c := hc
    rw [hcompile] at hchecks
    exact hchecks fault hfault
  refine ⟨hok, ?_, ?_, ?_⟩
  · intro name c hc
    exact herror _ _ c hc rfl
  · intro operator c hc
    exact herror _ _ c hc rfl
  · intro fault sets hcheck c hc
    rw [hok c hc] at hcheck
    cases hcheck

/-- A name that is bound in a branch is known behind it, in a function too. Of the four faults in
the second program the call's last argument is met first, since it stands on the right of `<`. -/
theorem Reached.compile_scoped_of_branch :
    ∃ (session : Session) (accepted refused : Program), session.Reached ∧
      accepted = [.expr (.cond (.bool true) [.bind "y" (.int 1)] none),
        .expr (.function ["z"] [.expr (.call (.ident "f") [.ident "y", .ident "z"])])] ∧
      refused = [.expr (.cond (.bool true) [.bind "y" (.int 1)] none),
        .expr (.function ["z"] [.expr (.binary (.ident "u") "<"
          (.call (.ident "f") [.ident "y", .ident "z", .ident "w"]))]),
        .expr (.unary "~" (.ident "v"))] ∧
      (∃ c, session.compile accepted = .ok () c ∧
        session.check accepted = .ok () [c.symbols.scope.names]) ∧
      ∃ c, session.compile refused = .error (.undefinedVariable "w") c ∧
        ∃ sets, session.check refused = .error (.undefinedVariable "w") sets := by
  have h := (Reached.start { stackSize := 4, globalsSize := 2, maxFrames := 1 }).eval 9
    [.bind "f" (.function ["x"] [.expr (.ident "x")])]
  refine ⟨_, _, _, h, rfl, rfl, ?_, ?_⟩
  · refine (Program.exists_of_compiles ?_).imp fun c hc => ⟨hc, (h.compile_scoped _).1 c hc⟩
    decide +kernel
  · refine (Program.exists_of_refusal ?_).imp fun c hc => ⟨hc, (h.compile_scoped _).2.1 "w" c hc⟩
    decide +kernel

end Session

end MonkeyMachine
