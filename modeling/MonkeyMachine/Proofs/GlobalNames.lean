import MonkeyMachine.Compiler
import MonkeyMachine.Proofs.Emission

/-!
# The names of the top level

What a program does to the scope of the top level can be read off its text: the names that it binds
there are entered one after another, and nothing else happens. Looking a name up changes only the
scopes of functions, and those are closed again before the function literal ends.

So the table that a program leaves depends on the table before it and on the names that it binds,
and not on the code around it: `Program.compile_symbols`.
-/

namespace MonkeyMachine

/-! ## Tables -/

/-- The scope of the top level after some names have been bound. -/
def Scope.bindAll (scope : Scope) (names : List String) : Scope :=
  names.foldl (fun s name => (s.define .global name).2) scope

theorem Scope.bindAll_append (scope : Scope) (names more : List String) :
    scope.bindAll (names ++ more) = (scope.bindAll names).bindAll more := List.foldl_append

namespace SymbolTable

/-- What binding `names` at the current point does to a table, as far as the top level is
concerned. -/
structure Grown (names : List String) (table table' : SymbolTable) : Prop where
  depth : table'.depth = table.depth
  base : table'.base = if table.depth = 0 then table.base.bindAll names else table.base

namespace Grown

variable {names more : List String} {table table' table'' : SymbolTable}

theorem refl (table : SymbolTable) : Grown [] table table := by
  refine ⟨rfl, ?_⟩
  split
  · rfl
  · rfl

theorem trans (h : Grown names table table') (h' : Grown more table' table'') :
    Grown (names ++ more) table table'' := by
  refine ⟨h'.depth.trans h.depth, ?_⟩
  rw [h'.base, h.depth, h.base]
  by_cases htop : table.depth = 0
  · rw [if_pos htop, if_pos htop, if_pos htop, Scope.bindAll_append]
  · rw [if_neg htop, if_neg htop, if_neg htop]

/-- Inside of functions the top level does not change. -/
theorem of_inside (hdepth : table'.depth = table.depth) (hbase : table'.base = table.base)
    (hinside : table.depth ≠ 0) : Grown names table table' := by
  refine ⟨hdepth, ?_⟩
  rw [if_neg hinside]
  exact hbase

theorem base_of_inside (h : Grown names table table') (hinside : table.depth ≠ 0) :
    table'.base = table.base := by
  rw [h.base, if_neg hinside]

theorem define (table : SymbolTable) (name : String) : Grown [name] table (table.define name).2 := by
  cases table with
  | global scope => exact ⟨rfl, rfl⟩
  | nested scope outer => exact .of_inside rfl rfl (Nat.succ_ne_zero _)

theorem defineOwnName (hinside : table.depth ≠ 0) (name : String) :
    Grown [] table (table.defineOwnName name).2 := by
  cases table with
  | global scope => exact absurd rfl hinside
  | nested scope outer => exact .of_inside rfl rfl (Nat.succ_ne_zero _)

/-- The body of a function is compiled in a scope of its own, which is closed again. -/
theorem closed (h : Grown names table.enter table') : Grown [] table table'.leave.2 := by
  cases table' with
  | global scope =>
      have hdepth : 0 = table.depth + 1 := h.depth
      omega
  | nested scope outer =>
      have hdepth : outer.depth + 1 = table.depth + 1 := h.depth
      have hbase : outer.base = table.base := h.base_of_inside (Nat.succ_ne_zero _)
      refine ⟨Nat.succ.inj hdepth, ?_⟩
      split
      · exact hbase
      · exact hbase

/-- Looking a name up does not change the top level. -/
theorem resolve {name : String} {symbol : Symbol}
    (h : table.resolve name = some (symbol, table')) : Grown [] table table' := by
  have hkept : table'.depth = table.depth ∧ table'.base = table.base := by
    induction table generalizing table' symbol with
    | global scope =>
        rcases Option.map_eq_some_iff.1 h with ⟨s, -, hpair⟩
        cases hpair
        exact ⟨rfl, rfl⟩
    | nested scope outer ih =>
        unfold SymbolTable.resolve at h
        split at h
        · cases h
          exact ⟨rfl, rfl⟩
        · split at h
          · cases h
          · rename_i s outer' hres
            have houter := ih hres
            split at h
            · cases h
              exact ⟨congrArg (· + 1) houter.1, houter.2⟩
            · cases h
              exact ⟨congrArg (· + 1) houter.1, houter.2⟩
  refine ⟨hkept.1, ?_⟩
  split
  · exact hkept.2
  · exact hkept.2

end Grown

end SymbolTable

/-! ## Acts of the compiler -/

namespace Compile

variable {α β : Type} {names more : List String}

/-- The act binds `names`, one after another. -/
def Binds (names : List String) (act : Compile α) : Prop :=
  ∀ c a c', act c = .ok a c' → c.symbols.Grown names c'.symbols

namespace Binds

theorem bind {act : Compile α} {next : α → Compile β} (h : Binds names act)
    (hnext : ∀ a, Binds more (next a)) : Binds (names ++ more) (act >>= next) := by
  intro c b c'' hbind
  rcases act_bind_eq_ok hbind with ⟨a, c', hact, hrest⟩
  exact (h c a c' hact).trans (hnext a c' b c'' hrest)

/-- An act in front that binds nothing. -/
theorem before {act : Compile α} {next : α → Compile β} (h : Binds [] act)
    (hnext : ∀ a, Binds names (next a)) : Binds names (act >>= next) := h.bind hnext

/-- An act behind that binds nothing. -/
theorem behind {act : Compile α} {next : α → Compile β} (h : Binds names act)
    (hnext : ∀ a, Binds [] (next a)) : Binds names (act >>= next) := by
  have hboth := h.bind hnext
  rw [List.append_nil] at hboth
  exact hboth

theorem error (e : CompileError) : Binds names (throw e : Compile α) := by
  intro c a c' h
  cases h

/-- An act that leaves the table alone. -/
theorem of_symbols {act : Compile α} (h : ∀ c a c', act c = .ok a c' → c'.symbols = c.symbols) :
    Binds [] act := by
  intro c a c' hact
  rw [h c a c' hact]
  exact .refl _

theorem nothing : Binds [] (pure () : Compile Unit) := by
  apply of_symbols
  intro c a c' h
  cases h
  rfl

theorem emitAt (op : Opcode) (operands : List Nat) : Binds [] (Compile.emitAt op operands) := by
  unfold Compile.emitAt
  cases op.encode operands with
  | error cause => exact .error _
  | ok bytes =>
      apply of_symbols
      intro c a c' h
      cases h
      rfl

theorem emit (op : Opcode) (operands : List Nat) : Binds [] (Compile.emit op operands) :=
  (emitAt op operands).bind fun _ => .nothing

theorem position : Binds [] Compile.position := by
  apply of_symbols
  intro c a c' h
  cases h
  rfl

theorem lastIs (op : Opcode) : Binds [] (Compile.lastIs op) := by
  apply of_symbols
  intro c a c' h
  cases h
  rfl

theorem patch (position operand : Nat) : Binds [] (Compile.patch position operand) := by
  apply of_symbols
  intro c a c' h
  cases hpatched : c.buffer.code.patched position operand with
  | error cause =>
      rw [Compile.patch_of_error hpatched] at h
      cases h
  | ok bytes =>
      rw [Compile.patch_of_ok hpatched] at h
      cases h
      rfl

theorem onBuffer (change : Buffer → Buffer) :
    Binds [] (modify fun c : Compiler => { c with buffer := change c.buffer } : Compile Unit) := by
  apply of_symbols
  intro c a c' h
  cases h
  rfl

theorem addConstant (v : Value) : Binds [] (Compile.addConstant v) := by
  apply of_symbols
  intro c a c' h
  cases h
  rfl

theorem addFunction (f : Function) : Binds [] (Compile.addFunction f) := by
  apply of_symbols
  intro c a c' h
  cases h
  rfl

theorem load (symbol : Symbol) : Binds [] (Compile.load symbol) := by
  unfold Compile.load
  split
  all_goals exact emit _ _

theorem loadAll (symbols : List Symbol) : Binds [] (Compile.loadAll symbols) := by
  induction symbols with
  | nil => exact .nothing
  | cons symbol rest ih => exact (load symbol).bind fun _ => ih

theorem define (name : String) : Binds [name] (Compile.define name) := by
  intro c a c' h
  cases h
  exact .define c.symbols name

theorem resolve (name : String) : Binds [] (Compile.resolve name) := by
  intro c a c' h
  unfold Compile.resolve at h
  rw [act_bind_of_ok (show (get : Compile Compiler) c = .ok c c from rfl)] at h
  cases hresolve : c.symbols.resolve name with
  | none =>
      rw [hresolve] at h
      cases h
  | some found =>
      obtain ⟨symbol, symbols⟩ := found
      rw [hresolve] at h
      cases h
      exact .resolve hresolve

theorem bindName (name : String) : Binds [name] (Compile.bind name) := by
  refine (define name).behind ?_
  intro symbol
  split
  · exact emit _ _
  · split
    · exact emit _ _
    · exact .error _

theorem defineParams (params : List String) : Binds params (Compile.defineParams params) := by
  induction params with
  | nil => exact .nothing
  | cons name rest ih =>
      refine (define name).bind ?_
      intro symbol
      split
      · exact ih
      · exact .error _

theorem literal (v : Value) : Binds [] (Compile.literal v) :=
  (addConstant v).bind fun _ => emit _ _

theorem branch {block : Compile Unit} (h : Binds names block) : Binds names (Compile.branch block) := by
  refine position.before fun start => h.behind fun _ => position.before fun finish => ?_
  refine (lastIs .pop).before fun last => ?_
  split
  · exact onBuffer Buffer.removeLast
  · exact emit _ _

theorem conditional {xs ys zs : List String} {test yes no : Compile Unit} (htest : Binds xs test)
    (hyes : Binds ys yes) (hno : Binds zs no) :
    Binds (xs ++ (ys ++ zs)) (Compile.conditional test yes no) := by
  refine htest.bind fun _ => (emitAt _ _).before fun toNo => ?_
  refine (branch hyes).bind fun _ => (emitAt _ _).before fun toFinish => ?_
  refine position.before fun _ => (patch _ _).before fun _ => ?_
  exact hno.behind fun _ => position.before fun _ => patch _ _

theorem finishBody : Binds [] Compile.finishBody := by
  have hends : Binds [] (do
      if !(← Compile.lastIs .returnValue) then
        Compile.emit .returnNull [] : Compile Unit) := by
    refine (lastIs .returnValue).before fun last => ?_
    split
    · exact emit _ _
    · exact .nothing
  refine (lastIs .pop).before fun last => ?_
  split
  · exact (onBuffer (·.replaceLast .returnValue)).before fun _ => hends
  · exact hends

theorem leaveBody_symbols {c c' : Compiler} {found : Code × Scope}
    (h : Compile.leaveBody c = .ok found c') : c'.symbols = c.symbols.leave.2 := by
  obtain ⟨constants, symbols, buffer, enclosing⟩ := c
  cases enclosing with
  | nil =>
      cases h
      rfl
  | cons outer rest =>
      cases h
      rfl

/-- The names that a function binds are its own. -/
theorem functionLiteral {body : Compile Unit} (own : Option String) (params : List String)
    (h : Binds names body) : Binds [] (Compile.functionLiteral own params body) := by
  intro c a c' hact
  rcases act_bind_eq_ok hact with ⟨_, c₁, henter, hact⟩
  rcases act_bind_eq_ok hact with ⟨_, c₂, hown, hact⟩
  rcases act_bind_eq_ok hact with ⟨_, c₃, hparams, hact⟩
  rcases act_bind_eq_ok hact with ⟨_, c₄, hbody, hact⟩
  rcases act_bind_eq_ok hact with ⟨_, c₅, hfinish, hact⟩
  rcases act_bind_eq_ok hact with ⟨⟨code, scope⟩, c₆, hleave, hact⟩
  have hentered : c₁.symbols = c.symbols.enter := by
    cases henter
    rfl
  have hinside : c.symbols.enter.depth ≠ 0 := Nat.succ_ne_zero _
  have hnamed : c.symbols.enter.Grown [] c₂.symbols := by
    rw [← hentered] at hinside ⊢
    cases own with
    | none =>
        cases hown
        exact .refl _
    | some name =>
        cases hown
        exact .defineOwnName hinside name
  have hleft := leaveBody_symbols hleave
  -- What the body binds is bound inside, and that scope is left again.
  have hgrown := ((hnamed.trans (defineParams params c₂ _ c₃ hparams)).trans
    (h c₃ _ c₄ hbody)).trans (finishBody c₄ _ c₅ hfinish)
  have hclosed := hgrown.closed
  rw [← hleft] at hclosed
  refine hclosed.trans ?_
  refine Binds.before (loadAll scope.captures) (fun _ => ?_) c₆ a c' hact
  refine (addFunction _).before fun index => ?_
  split
  · exact emit _ _
  · exact emit _ _

end Binds

end Compile

/-! ## Programs -/

open Compile (Binds)

mutual

theorem Stmt.compile_binds (stmt : Stmt) :
    Binds (Event.binds (Stmt.events stmt)) (Stmt.compile stmt) := by
  cases stmt with
  | expr value => exact (Expr.compile_binds none value).behind fun _ => .emit _ _
  | bind name value =>
      rw [Stmt.events, Event.binds_append]
      exact (Expr.compile_binds (some name) value).bind fun _ => .bindName name
  | ret value => exact (Expr.compile_binds none value).behind fun _ => .emit _ _

/-- A block binds the names that its scan meets. -/
theorem Block.compile_binds (block : List Stmt) :
    Binds (Event.binds (Block.events block)) (Block.compile block) := by
  cases block with
  | nil => exact .nothing
  | cons stmt rest =>
      rw [Block.events, Event.binds_append]
      exact (Stmt.compile_binds stmt).bind fun _ => Block.compile_binds rest

theorem Expr.compile_binds (own : Option String) (expr : Expr) :
    Binds (Event.binds (Expr.events own expr)) (Expr.compile own expr) := by
  cases expr with
  | ident name => exact (Binds.resolve name).behind fun symbol => .load symbol
  | int n => exact .literal _
  | str s => exact .literal _
  | bool b => exact .emit _ _
  | unary operator operand =>
      unfold Expr.compile
      cases Compile.unaryOpcode? operator with
      | none => exact .error _
      | some op => exact (Expr.compile_binds none operand).behind fun _ => .emit _ _
  | binary left operator right =>
      have hleft := Expr.compile_binds none left
      have hright := Expr.compile_binds none right
      unfold Expr.compile Expr.events
      by_cases hless : operator = "<"
      · rw [if_pos hless, if_pos hless, Event.binds_append]
        exact hright.bind fun _ => hleft.behind fun _ => .emit _ _
      · rw [if_neg hless, if_neg hless, Event.binds_append]
        cases Compile.binaryOpcode? operator with
        | none => exact .error _
        | some op => exact hleft.bind fun _ => hright.behind fun _ => .emit _ _
  | cond test yes no =>
      have htest := Expr.compile_binds none test
      have hyes := Block.compile_binds yes
      cases no with
      | none =>
          have hcond := Binds.conditional htest hyes (.emit .pushNull [])
          rw [List.append_nil, ← Event.binds_append] at hcond
          exact hcond
      | some no =>
          have hcond := Binds.conditional htest hyes (.branch (Block.compile_binds no))
          rw [← Event.binds_append, ← Event.binds_append] at hcond
          exact hcond
  | function params body =>
      have hnone : Event.binds (Expr.events own (.function params body)) = [] := by
        simp [Expr.events, Event.ofFunction]
      rw [hnone]
      exact .functionLiteral own params (Block.compile_binds body)
  | call callee args =>
      rw [Expr.events, Event.binds_append]
      exact (Expr.compileList_binds args).bind fun _ =>
        (Expr.compile_binds none callee).behind fun _ => .emit _ _
  | array elements => exact (Expr.compileList_binds elements).behind fun _ => .emit _ _
  | hash pairs => exact (Expr.compilePairs_binds pairs).behind fun _ => .emit _ _
  | index collection key =>
      rw [Expr.events, Event.binds_append]
      exact (Expr.compile_binds none collection).bind fun _ =>
        (Expr.compile_binds none key).behind fun _ => .emit _ _

theorem Expr.compileList_binds (exprs : List Expr) :
    Binds (Event.binds (Expr.eventsList exprs)) (Expr.compileList exprs) := by
  cases exprs with
  | nil => exact .nothing
  | cons expr rest =>
      rw [Expr.eventsList, Event.binds_append]
      exact (Expr.compile_binds none expr).bind fun _ => Expr.compileList_binds rest

theorem Expr.compilePairs_binds (pairs : List (Expr × Expr)) :
    Binds (Event.binds (Expr.eventsPairs pairs)) (Expr.compilePairs pairs) := by
  cases pairs with
  | nil => exact .nothing
  | cons pair rest =>
      rcases pair with ⟨key, value⟩
      rw [Expr.eventsPairs, Event.binds_append, Event.binds_append]
      exact (Expr.compile_binds none key).bind fun _ =>
        (Expr.compile_binds none value).bind fun _ => Expr.compilePairs_binds rest

end

/-- The table that a program leaves: the names that it binds at the top level have been entered. -/
theorem Program.compile_symbols {program : Program} {symbols : SymbolTable} {constants : Array Value}
    {c : Compiler} (htop : symbols.depth = 0)
    (h : Block.compile program (.start symbols constants) = .ok () c) :
    c.symbols = .global (symbols.base.bindAll (Event.binds (Block.events program))) := by
  have hgrown := Block.compile_binds program _ _ _ h
  have hdepth : c.symbols.depth = 0 := hgrown.depth.trans htop
  have hbase : c.symbols.base = symbols.base.bindAll (Event.binds (Block.events program)) :=
    hgrown.base.trans (if_pos htop)
  cases hsymbols : c.symbols with
  | global scope =>
      rw [hsymbols] at hbase
      exact congrArg SymbolTable.global hbase
  | nested scope outer =>
      rw [hsymbols] at hdepth
      exact absurd hdepth (Nat.succ_ne_zero _)

end MonkeyMachine
