import Mathlib.Logic.Equiv.Basic
import MonkeyMachine.Compiler
import MonkeyMachine.Proofs.Acts

/-!
# The spelling of names does not matter

A program compiles to the same bytecode when its names are replaced by others, as long as different
names stay different and the builtins keep theirs. A program that does not compile is refused for
the same reason, told of in the new names.

Two compilers run side by side, one on the program and one on the renamed program. Their states
differ in the names that are written in the symbol table and in nothing else, and every act of the
compiler keeps it so: `Compile.Commutes`. The compiler looks at names in two ways only. It tells
them apart when it searches a scope, and it repeats them when it reports one as undefined.
-/

namespace MonkeyMachine

/-! ## Renaming -/

mutual

def Stmt.rename (r : String → String) : Stmt → Stmt
  | .expr value => .expr (Expr.rename r value)
  | .bind name value => .bind (r name) (Expr.rename r value)
  | .ret value => .ret (Expr.rename r value)

/-- The block with every name `x`, whether it is bound or used, replaced by `r x`. -/
def Block.rename (r : String → String) : List Stmt → List Stmt
  | [] => []
  | stmt :: rest => Stmt.rename r stmt :: Block.rename r rest

/-- Operators and string literals are not names. -/
def Expr.rename (r : String → String) : Expr → Expr
  | .ident name => .ident (r name)
  | .int n => .int n
  | .str s => .str s
  | .bool b => .bool b
  | .unary operator operand => .unary operator (Expr.rename r operand)
  | .binary left operator right => .binary (Expr.rename r left) operator (Expr.rename r right)
  | .cond test yes none => .cond (Expr.rename r test) (Block.rename r yes) none
  | .cond test yes (some no) =>
      .cond (Expr.rename r test) (Block.rename r yes) (some (Block.rename r no))
  | .function params body => .function (params.map r) (Block.rename r body)
  | .call callee args => .call (Expr.rename r callee) (Expr.renameList r args)
  | .array elements => .array (Expr.renameList r elements)
  | .hash pairs => .hash (Expr.renamePairs r pairs)
  | .index collection key => .index (Expr.rename r collection) (Expr.rename r key)

def Expr.renameList (r : String → String) : List Expr → List Expr
  | [] => []
  | expr :: rest => Expr.rename r expr :: Expr.renameList r rest

def Expr.renamePairs (r : String → String) : List (Expr × Expr) → List (Expr × Expr)
  | [] => []
  | (key, value) :: rest => (Expr.rename r key, Expr.rename r value) :: Expr.renamePairs r rest

end

@[simp]
theorem Expr.length_renameList (r : String → String) (exprs : List Expr) :
    (Expr.renameList r exprs).length = exprs.length := by
  induction exprs with
  | nil => rfl
  | cons expr rest ih => simp [Expr.renameList, ih]

@[simp]
theorem Expr.length_renamePairs (r : String → String) (pairs : List (Expr × Expr)) :
    (Expr.renamePairs r pairs).length = pairs.length := by
  induction pairs with
  | nil => rfl
  | cons pair rest ih => simp [Expr.renamePairs, ih]

/-- The error about the renamed program. Only an undefined variable is told of by name. -/
def CompileError.rename (r : String → String) : CompileError → CompileError
  | .undefinedVariable name => .undefinedVariable (r name)
  | .unknownOperator operator => .unknownOperator operator
  | .tooManyLocals => .tooManyLocals
  | .encoding cause => .encoding cause

def Symbol.rename (r : String → String) (symbol : Symbol) : Symbol :=
  { symbol with name := r symbol.name }

def Scope.rename (r : String → String) (scope : Scope) : Scope where
  bindings := scope.bindings.map fun entry => (r entry.1, entry.2.rename r)
  definitions := scope.definitions
  captures := scope.captures.map (Symbol.rename r)

def SymbolTable.rename (r : String → String) : SymbolTable → SymbolTable
  | global scope => global (scope.rename r)
  | nested scope outer => nested (scope.rename r) (outer.rename r)

/-- Names occur in the symbol table only: neither code nor constants mention them. -/
def Compiler.rename (r : String → String) (c : Compiler) : Compiler :=
  { c with symbols := c.symbols.rename r }

/-! ## Scopes -/

namespace Assoc

variable {ν μ : Type} {r : String → String}

theorem find?_rename (hr : Function.Injective r) (f : ν → μ) (key : String)
    (entries : List (String × ν)) :
    find? (r key) (entries.map fun entry => (r entry.1, f entry.2)) =
      (find? key entries).map f := by
  induction entries with
  | nil => rfl
  | cons entry rest ih =>
      -- The search stops at the same entry, because `r` keeps different keys apart.
      by_cases h : entry.1 = key
      · simp [find?, h]
      · have hne : r entry.1 ≠ r key := fun heq => h (hr heq)
        simp [find?, h, hne, ih]

theorem insert_rename (hr : Function.Injective r) (f : ν → μ) (key : String) (value : ν)
    (entries : List (String × ν)) :
    insert (r key) (f value) (entries.map fun entry => (r entry.1, f entry.2)) =
      (insert key value entries).map fun entry => (r entry.1, f entry.2) := by
  induction entries with
  | nil => rfl
  | cons entry rest ih =>
      by_cases h : entry.1 = key
      · simp [insert, h]
      · have hne : r entry.1 ≠ r key := fun heq => h (hr heq)
        simp [insert, h, hne, ih]

end Assoc

section Tables

variable {r : String → String} (hr : Function.Injective r)

include hr

theorem Scope.find?_rename (scope : Scope) (name : String) :
    (scope.rename r).find? (r name) = (scope.find? name).map (Symbol.rename r) :=
  Assoc.find?_rename hr (Symbol.rename r) name scope.bindings

theorem Scope.bind_rename (scope : Scope) (symbol : Symbol) :
    (scope.rename r).bind (symbol.rename r) = (scope.bind symbol).rename r := by
  have hinsert := Assoc.insert_rename hr (Symbol.rename r) symbol.name symbol scope.bindings
  exact congrArg (fun bindings => { scope.rename r with bindings }) hinsert

theorem Scope.define_rename (scope : Scope) (storage : Storage) (name : String) :
    (scope.rename r).define storage (r name) =
      ((scope.define storage name).1.rename r, (scope.define storage name).2.rename r) := by
  have hbind := scope.bind_rename hr { name, storage, index := scope.definitions }
  exact congrArg (fun bound : Scope =>
    (({ name := r name, storage, index := scope.definitions } : Symbol),
      { bound with definitions := scope.definitions + 1 })) hbind

theorem Scope.capture_rename (scope : Scope) (symbol : Symbol) :
    (scope.rename r).capture (symbol.rename r) =
      ((scope.capture symbol).1.rename r, (scope.capture symbol).2.rename r) := by
  have hinsert := Assoc.insert_rename hr (Symbol.rename r) symbol.name
    { name := symbol.name, storage := .free, index := scope.captures.length } scope.bindings
  simp only [Scope.capture, Scope.bind, Scope.rename, List.length_map, List.map_append, List.map_cons,
    List.map_nil]
  exact congrArg (fun bindings => (_, { scope.rename r with
    bindings, captures := scope.captures.map (Symbol.rename r) ++ [symbol.rename r] })) hinsert

end Tables

namespace SymbolTable

variable {r : String → String}

theorem scope_rename (table : SymbolTable) : (table.rename r).scope = table.scope.rename r := by
  cases table <;> rfl

theorem withScope_rename (scope : Scope) (table : SymbolTable) :
    (table.rename r).withScope (scope.rename r) = (table.withScope scope).rename r := by
  cases table <;> rfl

theorem storage_rename (table : SymbolTable) : (table.rename r).storage = table.storage := by
  cases table <;> rfl

theorem define_rename (hr : Function.Injective r) (table : SymbolTable) (name : String) :
    (table.rename r).define (r name) =
      ((table.define name).1.rename r, (table.define name).2.rename r) := by
  unfold define
  rw [scope_rename, storage_rename, Scope.define_rename hr]
  exact Prod.ext rfl (withScope_rename _ table)

theorem defineOwnName_rename (hr : Function.Injective r) (table : SymbolTable) (name : String) :
    ((table.rename r).defineOwnName (r name)).2 = (table.defineOwnName name).2.rename r := by
  have hbind := table.scope.bind_rename hr { name, storage := .function, index := 0 }
  calc ((table.rename r).defineOwnName (r name)).2
      = (table.rename r).withScope
          ((table.scope.rename r).bind ⟨r name, .function, 0⟩) := by
        rw [defineOwnName, scope_rename]
    _ = (table.rename r).withScope ((table.scope.bind ⟨name, .function, 0⟩).rename r) :=
        congrArg (withScope · (table.rename r)) hbind
    _ = (table.defineOwnName name).2.rename r := withScope_rename _ table

/-- A name is found in the same scope, and the same functions capture it. -/
theorem resolve_rename (hr : Function.Injective r) (name : String) (table : SymbolTable) :
    (table.rename r).resolve (r name) =
      (table.resolve name).map fun found => (found.1.rename r, found.2.rename r) := by
  induction table with
  | global scope =>
      simp only [rename, resolve, Scope.find?_rename hr, Option.map_map]
      rfl
  | nested scope outer ih =>
      simp only [rename, resolve, Scope.find?_rename hr]
      cases hfind : scope.find? name with
      | some symbol => rfl
      | none =>
          rw [ih]
          cases hresolve : outer.resolve name with
          | none => rfl
          | some found =>
              obtain ⟨symbol, outer'⟩ := found
              -- Whether the name has to be captured is told from its storage, not from the name.
              have hstorage : (symbol.rename r).storage = symbol.storage := rfl
              simp only [Option.map_none, Option.map_some, hstorage, Scope.capture_rename hr]
              cases symbol.storage.reachable <;> rfl

theorem addBuiltins_rename (hr : Function.Injective r) (hfixed : ∀ b : Builtin, r b.name = b.name)
    (builtins : List Builtin) (table : SymbolTable) (index : Nat) :
    (table.addBuiltins index builtins).rename r = (table.rename r).addBuiltins index builtins := by
  induction builtins generalizing table index with
  | nil => rfl
  | cons b rest ih =>
      have hbind := table.scope.bind_rename hr { name := b.name, storage := .builtin, index }
      have hb : (table.defineBuiltin index b.name).2.rename r =
          ((table.rename r).defineBuiltin index b.name).2 := by
        calc (table.defineBuiltin index b.name).2.rename r
            = (table.rename r).withScope
                ((table.scope.bind ⟨b.name, .builtin, index⟩).rename r) :=
              (withScope_rename _ table).symm
          _ = (table.rename r).withScope
                ((table.scope.rename r).bind ⟨r b.name, .builtin, index⟩) :=
              congrArg (withScope · (table.rename r)) hbind.symm
          _ = ((table.rename r).defineBuiltin index b.name).2 := by
              rw [hfixed, ← scope_rename]
              rfl
      rw [addBuiltins, addBuiltins, ih, hb]

/-- A fresh table knows the builtins and nothing else, so it is its own renaming. -/
theorem initial_rename (hr : Function.Injective r) (hfixed : ∀ b : Builtin, r b.name = b.name) :
    initial.rename r = initial :=
  addBuiltins_rename hr hfixed Builtin.all empty 0

end SymbolTable

/-! ## Acts of the compiler -/

namespace Compile

variable {r : String → String} {α β γ δ : Type}

/-- The outcome of an act, told in the new names. `f` does so for its result. -/
def renameOutcome (r : String → String) (f : α → β) :
    EStateM.Result CompileError Compiler α → EStateM.Result CompileError Compiler β
  | .ok a c => .ok (f a) (c.rename r)
  | .error e c => .error (e.rename r) (c.rename r)

/-- From a renamed state, `act'` does what `act` does from the state itself. -/
def Commutes (r : String → String) (f : α → β) (act : Compile α) (act' : Compile β) : Prop :=
  ∀ c, act' (c.rename r) = renameOutcome r f (act c)

namespace Commutes

theorem pure (f : α → β) (a : α) : Commutes r f (Pure.pure a) (Pure.pure (f a)) := fun _ => rfl

theorem throw (f : α → β) (e : CompileError) :
    Commutes r f (MonadExcept.throw e) (MonadExcept.throw (e.rename r)) := fun _ => rfl

theorem bind {f : α → β} {g : γ → δ} {act : Compile α} {act' : Compile β} {next : α → Compile γ}
    {next' : β → Compile δ} (h : Commutes r f act act')
    (hnext : ∀ a, Commutes r g (next a) (next' (f a))) :
    Commutes r g (act >>= next) (act' >>= next') := by
  intro c
  have hc := h c
  cases hact : act c with
  | ok a c₁ =>
      rw [hact] at hc
      rw [act_bind_of_ok hact, act_bind_of_ok hc]
      exact hnext a c₁
  | error e c₁ =>
      rw [hact] at hc
      rw [act_bind_of_error hact, act_bind_of_error hc]
      rfl

/-! ### Acts that leave names alone -/

theorem emitAt (op : Opcode) (operands : List Nat) :
    Commutes r id (Compile.emitAt op operands) (Compile.emitAt op operands) := by
  intro c
  unfold Compile.emitAt
  cases op.encode operands <;> rfl

theorem emit (op : Opcode) (operands : List Nat) :
    Commutes r id (Compile.emit op operands) (Compile.emit op operands) :=
  (emitAt op operands).bind fun _ => pure id ()

theorem position : Commutes r id Compile.position Compile.position := fun _ => rfl

theorem lastIs (op : Opcode) : Commutes r id (Compile.lastIs op) (Compile.lastIs op) := fun _ => rfl

theorem editBuffer (edit : Buffer → Buffer) :
    Commutes r id (modify fun c => { c with buffer := edit c.buffer })
      (modify fun c => { c with buffer := edit c.buffer }) := fun _ => rfl

theorem patch (position operand : Nat) :
    Commutes r id (Compile.patch position operand) (Compile.patch position operand) := by
  intro c
  have hget : ∀ c : Compiler, (get : Compile Compiler) c = .ok c c := fun _ => rfl
  unfold Compile.patch
  rw [act_bind_of_ok (hget c), act_bind_of_ok (hget (c.rename r))]
  show _ = renameOutcome r id _
  have hcode : (c.rename r).buffer.code = c.buffer.code := rfl
  rw [hcode]
  cases c.buffer.code.patched position operand <;> rfl

theorem addConstant (v : Value) :
    Commutes r id (Compile.addConstant v) (Compile.addConstant v) := fun _ => rfl

theorem addFunction (f : Function) :
    Commutes r id (Compile.addFunction f) (Compile.addFunction f) := fun _ => rfl

theorem literal (v : Value) : Commutes r id (Compile.literal v) (Compile.literal v) :=
  (addConstant v).bind fun index => emit .constant [index]

theorem branch {block block' : Compile Unit} (h : Commutes r id block block') :
    Commutes r id (Compile.branch block) (Compile.branch block') := by
  refine position.bind fun start => h.bind fun _ => position.bind fun finish => ?_
  refine (lastIs .pop).bind fun isPop => ?_
  show Commutes r id (if isPop && start < finish then _ else _) (if isPop && start < finish then _ else _)
  split
  · exact editBuffer Buffer.removeLast
  · exact emit .pushNull []

theorem conditional {test test' yes yes' no no' : Compile Unit} (htest : Commutes r id test test')
    (hyes : Commutes r id yes yes') (hno : Commutes r id no no') :
    Commutes r id (Compile.conditional test yes no) (Compile.conditional test' yes' no') := by
  refine htest.bind fun _ => (emitAt .jumpNotTruthy _).bind fun jumpToNo => ?_
  refine (branch hyes).bind fun _ => (emitAt .jump _).bind fun jumpToFinish => ?_
  refine position.bind fun toNo => (patch jumpToNo toNo).bind fun _ => hno.bind fun _ => ?_
  exact position.bind fun toFinish => patch jumpToFinish toFinish

theorem finishBody : Commutes r id Compile.finishBody Compile.finishBody := by
  have hend : Commutes r id
      (do if !(← Compile.lastIs .returnValue) then Compile.emit .returnNull [])
      (do if !(← Compile.lastIs .returnValue) then Compile.emit .returnNull []) := by
    refine (lastIs .returnValue).bind fun isReturn => ?_
    show Commutes r id (if !isReturn then _ else _) (if !isReturn then _ else _)
    split
    · exact emit .returnNull []
    · exact pure id ()
  refine (lastIs .pop).bind fun isPop => ?_
  cases isPop with
  | true => exact bind (editBuffer (Buffer.replaceLast · .returnValue)) fun _ => hend
  | false => exact hend

theorem load (symbol : Symbol) :
    Commutes r id (Compile.load symbol) (Compile.load (symbol.rename r)) := by
  have hstorage : (symbol.rename r).storage = symbol.storage := rfl
  have hindex : (symbol.rename r).index = symbol.index := rfl
  unfold Compile.load
  rw [hstorage, hindex]
  cases symbol.storage <;> exact emit _ _

theorem loadAll (symbols : List Symbol) :
    Commutes r id (Compile.loadAll symbols) (Compile.loadAll (symbols.map (Symbol.rename r))) := by
  induction symbols with
  | nil => exact pure id ()
  | cons symbol rest ih => exact (load symbol).bind fun _ => ih

theorem enterBody : Commutes r id Compile.enterBody Compile.enterBody := fun _ => rfl

theorem leaveBody :
    Commutes r (fun closed => (closed.1, closed.2.rename r)) Compile.leaveBody
      Compile.leaveBody := by
  intro c
  obtain ⟨constants, symbols, buffer, enclosing⟩ := c
  cases symbols <;> cases enclosing <;> rfl

/-! ### Acts on names -/

section Names

variable (hr : Function.Injective r)

include hr

theorem define (name : String) :
    Commutes r (Symbol.rename r) (Compile.define name) (Compile.define (r name)) := by
  intro c
  have hdefine := c.symbols.define_rename hr name
  exact congrArg (fun (found : Symbol × SymbolTable) =>
    EStateM.Result.ok found.1 { c with symbols := found.2 }) hdefine

theorem defineOwnName (own : Option String) :
    Commutes r id (Compile.defineOwnName own) (Compile.defineOwnName (own.map r)) := by
  cases own with
  | none => exact pure id ()
  | some name =>
      intro c
      have hdefine := c.symbols.defineOwnName_rename hr name
      exact congrArg (fun symbols => EStateM.Result.ok () { c with symbols }) hdefine

theorem defineParams (params : List String) :
    Commutes r id (Compile.defineParams params) (Compile.defineParams (params.map r)) := by
  induction params with
  | nil => exact pure id ()
  | cons name rest ih =>
      refine (define hr name).bind fun symbol => ?_
      have hindex : (symbol.rename r).index = symbol.index := rfl
      rw [hindex]
      split
      · exact ih
      · exact throw id .tooManyLocals

theorem resolve (name : String) :
    Commutes r (Symbol.rename r) (Compile.resolve name) (Compile.resolve (r name)) := by
  intro c
  have hresolve := c.symbols.resolve_rename hr name
  have hget : ∀ c : Compiler, (get : Compile Compiler) c = .ok c c := fun _ => rfl
  have hsymbols : (c.rename r).symbols = c.symbols.rename r := rfl
  unfold Compile.resolve
  rw [act_bind_of_ok (hget c), act_bind_of_ok (hget (c.rename r)), hsymbols, hresolve]
  -- The one place where a name is repeated.
  cases c.symbols.resolve name <;> rfl

theorem bind_name (name : String) :
    Commutes r id (Compile.bind name) (Compile.bind (r name)) := by
  refine (define hr name).bind fun symbol => ?_
  have hstorage : (symbol.rename r).storage = symbol.storage := rfl
  have hindex : (symbol.rename r).index = symbol.index := rfl
  rw [hstorage, hindex]
  split
  · exact emit .setGlobal [symbol.index]
  · split
    · exact emit .setLocal [symbol.index]
    · exact throw id .tooManyLocals

theorem functionLiteral (own : Option String) (params : List String) {body body' : Compile Unit}
    (h : Commutes r id body body') :
    Commutes r id (Compile.functionLiteral own params body)
      (Compile.functionLiteral (own.map r) (params.map r) body') := by
  refine enterBody.bind fun _ => (defineOwnName hr own).bind fun _ => ?_
  refine (defineParams hr params).bind fun _ => h.bind fun _ => finishBody.bind fun _ => ?_
  refine leaveBody.bind ?_
  rintro ⟨code, scope⟩
  refine (loadAll scope.captures).bind fun _ => ?_
  -- The function has as many parameters and captures as before.
  have hparams : (params.map r).length = params.length := List.length_map r
  have hcount : (scope.rename r).captures.length = scope.captures.length := List.length_map _
  have hnone : (scope.rename r).captures.isEmpty = scope.captures.isEmpty := List.isEmpty_map
  rw [hparams, hcount, hnone]
  refine (addFunction _).bind fun index => ?_
  show Commutes r id (if scope.captures.isEmpty then _ else _)
    (if scope.captures.isEmpty then _ else _)
  split
  · exact emit .constant [index]
  · exact emit .closure [index, scope.captures.length]

end Names

end Commutes

end Compile

/-! ## Programs -/

section Programs

open Compile (Commutes unaryOpcode? binaryOpcode?)

variable {r : String → String}

mutual

theorem Stmt.compile_commutes (hr : Function.Injective r) (stmt : Stmt) :
    Commutes r id (Stmt.compile stmt) (Stmt.compile (Stmt.rename r stmt)) := by
  cases stmt with
  | expr value =>
      simp only [Stmt.rename, Stmt.compile]
      exact (Expr.compile_commutes hr none value).bind fun _ => .emit .pop []
  | bind name value =>
      simp only [Stmt.rename, Stmt.compile]
      exact (Expr.compile_commutes hr (some name) value).bind fun _ => .bind_name hr name
  | ret value =>
      simp only [Stmt.rename, Stmt.compile]
      exact (Expr.compile_commutes hr none value).bind fun _ => .emit .returnValue []

theorem Block.compile_commutes (hr : Function.Injective r) (block : List Stmt) :
    Commutes r id (Block.compile block) (Block.compile (Block.rename r block)) := by
  cases block with
  | nil =>
      simp only [Block.rename, Block.compile]
      exact .pure id ()
  | cons stmt rest =>
      simp only [Block.rename, Block.compile]
      exact (Stmt.compile_commutes hr stmt).bind fun _ => Block.compile_commutes hr rest

theorem Expr.compile_commutes (hr : Function.Injective r) (own : Option String) (expr : Expr) :
    Commutes r id (Expr.compile own expr) (Expr.compile (own.map r) (Expr.rename r expr)) := by
  cases expr with
  | ident name =>
      simp only [Expr.rename, Expr.compile]
      exact (Commutes.resolve hr name).bind fun symbol => .load symbol
  | int n =>
      simp only [Expr.rename, Expr.compile]
      exact .literal _
  | str s =>
      simp only [Expr.rename, Expr.compile]
      exact .literal _
  | bool b =>
      simp only [Expr.rename, Expr.compile]
      exact .emit _ []
  | unary operator operand =>
      simp only [Expr.rename, Expr.compile]
      cases unaryOpcode? operator with
      | none => exact .throw id (.unknownOperator operator)
      | some op => exact (Expr.compile_commutes hr none operand).bind fun _ => .emit op []
  | binary left operator right =>
      simp only [Expr.rename, Expr.compile]
      split
      · exact (Expr.compile_commutes hr none right).bind fun _ =>
          (Expr.compile_commutes hr none left).bind fun _ => .emit .greaterThan []
      · cases binaryOpcode? operator with
        | none => exact .throw id (.unknownOperator operator)
        | some op =>
            exact (Expr.compile_commutes hr none left).bind fun _ =>
              (Expr.compile_commutes hr none right).bind fun _ => .emit op []
  | cond test yes no =>
      cases no with
      | none =>
          simp only [Expr.rename, Expr.compile]
          exact .conditional (Expr.compile_commutes hr none test) (Block.compile_commutes hr yes)
            (.emit .pushNull [])
      | some no =>
          simp only [Expr.rename, Expr.compile]
          exact .conditional (Expr.compile_commutes hr none test) (Block.compile_commutes hr yes)
            (.branch (Block.compile_commutes hr no))
  | function params body =>
      simp only [Expr.rename, Expr.compile]
      exact .functionLiteral hr own params (Block.compile_commutes hr body)
  | call callee args =>
      simp only [Expr.rename, Expr.compile, Expr.length_renameList]
      exact (Expr.compileList_commutes hr args).bind fun _ =>
        (Expr.compile_commutes hr none callee).bind fun _ => .emit .call [args.length]
  | array elements =>
      simp only [Expr.rename, Expr.compile, Expr.length_renameList]
      exact (Expr.compileList_commutes hr elements).bind fun _ => .emit .array [elements.length]
  | hash pairs =>
      simp only [Expr.rename, Expr.compile, Expr.length_renamePairs]
      exact (Expr.compilePairs_commutes hr pairs).bind fun _ => .emit .hash [2 * pairs.length]
  | index collection key =>
      simp only [Expr.rename, Expr.compile]
      exact (Expr.compile_commutes hr none collection).bind fun _ =>
        (Expr.compile_commutes hr none key).bind fun _ => .emit .index []

theorem Expr.compileList_commutes (hr : Function.Injective r) (exprs : List Expr) :
    Commutes r id (Expr.compileList exprs) (Expr.compileList (Expr.renameList r exprs)) := by
  cases exprs with
  | nil =>
      simp only [Expr.renameList, Expr.compileList]
      exact .pure id ()
  | cons expr rest =>
      simp only [Expr.renameList, Expr.compileList]
      exact (Expr.compile_commutes hr none expr).bind fun _ => Expr.compileList_commutes hr rest

theorem Expr.compilePairs_commutes (hr : Function.Injective r) (pairs : List (Expr × Expr)) :
    Commutes r id (Expr.compilePairs pairs) (Expr.compilePairs (Expr.renamePairs r pairs)) := by
  cases pairs with
  | nil =>
      simp only [Expr.renamePairs, Expr.compilePairs]
      exact .pure id ()
  | cons pair rest =>
      obtain ⟨key, value⟩ := pair
      simp only [Expr.renamePairs, Expr.compilePairs]
      exact (Expr.compile_commutes hr none key).bind fun _ =>
        (Expr.compile_commutes hr none value).bind fun _ => Expr.compilePairs_commutes hr rest

end

end Programs

/-- A renaming that keeps different names apart, and the builtins as they are, changes nothing about
what a program compiles to. If the program is refused, so is the renamed one, for the same reason. -/
theorem Program.compile_rename {r : String → String} (hr : Function.Injective r)
    (hfixed : ∀ b : Builtin, r b.name = b.name) (program : Program) :
    Program.compile (Block.rename r program) =
      (Program.compile program).mapError (CompileError.rename r) := by
  have hinitial : Compiler.initial.rename r = .initial :=
    congrArg (fun symbols => { Compiler.initial with symbols }) (SymbolTable.initial_rename hr hfixed)
  have hcommutes := Block.compile_commutes hr program Compiler.initial
  rw [hinitial] at hcommutes
  unfold Program.compile EStateM.run
  rw [hcommutes]
  cases Block.compile program Compiler.initial <;> rfl

/-- A parameter and a local that trade names, in a function that uses its own name, around one that
captures both; and a variable that nobody binds. -/
theorem Program.compile_rename_of_swap :
    ∃ (r : String → String) (program renamed : Program),
      Function.Injective r ∧ (∀ b : Builtin, r b.name = b.name) ∧
      program =
        [.bind "f" (.function ["x"] [.bind "y" (.call (.ident "len") [.ident "x"]),
          .expr (.function [] [.expr (.call (.ident "f") [.ident "y", .ident "x"])])])] ∧
      renamed =
        [.bind "f" (.function ["y"] [.bind "x" (.call (.ident "len") [.ident "y"]),
          .expr (.function [] [.expr (.call (.ident "f") [.ident "x", .ident "y"])])])] ∧
      Program.compile renamed = (Program.compile program).mapError (CompileError.rename r) ∧
      Program.compile [.expr (.ident "y")] =
        (Program.compile [.expr (.ident "x")]).mapError (CompileError.rename r) := by
  have hfixed : ∀ b : Builtin, Equiv.swap "x" "y" b.name = b.name := by
    intro b
    cases b <;> rfl
  have hinjective := (Equiv.swap "x" "y").injective
  refine ⟨Equiv.swap "x" "y", _, Block.rename (Equiv.swap "x" "y") _, hinjective, hfixed, rfl, ?_,
    Program.compile_rename hinjective hfixed _, ?_⟩
  · decide +kernel
  · exact Program.compile_rename hinjective hfixed [.expr (.ident "x")]

end MonkeyMachine
