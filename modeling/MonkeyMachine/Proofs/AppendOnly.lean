import MonkeyMachine.Proofs.LexicalLookup
import MonkeyMachine.Proofs.WellFormed

/-!
# Compilation only appends

The compiler takes instructions back, changes operands of earlier ones and swaps buffers, and an
error can stop it anywhere, with function bodies half done. This file shows that nothing it does
reaches back behind the point where it started.

`Buffer.Appended old is new` says that `new` is `old` with the instructions `is` behind it.
`Compiler.Extends c is c'` says the same of a whole compiler that is back where it was, and
`Compiler.Leaves c c'` says where an error may have left it: behind some code, or behind some code
and inside of a function body, and so on. Every act of the compiler leads to the one or the other
(`Compile.Leads`), so the same is true of the compilers that are `Reached` by one program after
another, also where programs were refused in between.
-/

namespace MonkeyMachine

/-! ## Buffers -/

namespace Buffer

/-- `new` is `old` with the instructions `is` behind it, and it remembers the last of them. -/
structure Appended (old : Buffer) (is : List Instr) (new : Buffer) : Prop where
  valid : ∀ i ∈ is, i.Valid
  code : new.code.toList = old.code.toList ++ assemble is
  last : ∀ init i, is = init ++ [i] → new.last = some ⟨i.op, old.code.size + codeSize init⟩
  same : is = [] → new.last = old.last

namespace Appended

variable {a b c : Buffer} {is js : List Instr}

theorem refl (b : Buffer) : Appended b [] b where
  valid := by simp
  code := by simp
  last := by simp
  same := fun _ => rfl

theorem size (h : Appended a is b) : b.code.size = a.code.size + codeSize is := by
  rw [← Array.length_toList, h.code, List.length_append, length_assemble h.valid,
    Array.length_toList]

theorem trans (h : Appended a is b) (h' : Appended b js c) : Appended a (is ++ js) c where
  valid := by
    intro i hi
    rcases List.mem_append.1 hi with hi | hi
    · exact h.valid i hi
    · exact h'.valid i hi
  code := by simp [h'.code, h.code]
  last := by
    intro init i heq
    -- The last instruction is one of the second part, unless that is empty.
    rcases List.eq_nil_or_concat js with rfl | ⟨before, j, rfl⟩
    · rw [h'.same rfl]
      exact h.last init i (by simpa using heq)
    · rw [List.concat_eq_append, ← List.append_assoc] at heq
      rcases List.append_inj' heq rfl with ⟨rfl, hlast⟩
      cases hlast
      rw [h'.last before i (List.concat_eq_append ..), h.size, codeSize_append, Nat.add_assoc]
  same := by
    intro heq
    rcases List.append_eq_nil_iff.1 heq with ⟨his, hjs⟩
    exact (h'.same hjs).trans (h.same his)

/-- One more instruction. -/
theorem append (h : Appended a is b) {i : Instr} (hi : i.Valid) :
    Appended a (is ++ [i]) (b.append i.op i.bytes) := by
  refine h.trans ⟨by simpa using hi, by simp [Buffer.append], ?_, by simp⟩
  intro init j heq
  have hsnoc : [] ++ [i] = init ++ [j] := heq
  rcases List.append_inj' hsnoc rfl with ⟨rfl, hlast⟩
  cases hlast
  rfl

/-- The last instruction is taken back. -/
theorem removeLast (h : Appended a is b) (i : Instr) :
    Appended a is (b.append i.op i.bytes).removeLast where
  valid := h.valid
  code := by
    rw [← h.code]
    have happend : (b.append i.op i.bytes).code.toList = b.code.toList ++ i.bytes := by
      simp [Buffer.append]
    exact Code.toList_truncate happend (Array.length_toList ..)
  last := h.last
  same := h.same

/-- The last instruction is replaced by another one without operands. -/
theorem replaceLast {old new : Opcode} (h : Appended a (is ++ [⟨old, []⟩]) b)
    (hold : old.widths = []) (hnew : new.widths = []) :
    Appended a (is ++ [⟨new, []⟩]) (b.replaceLast new) := by
  have hlast := h.last is ⟨old, []⟩ rfl
  have his : ∀ i ∈ is, i.Valid := fun i hi => h.valid i (List.mem_append_left _ hi)
  have hvalid : (Instr.mk new []).Valid := by
    unfold Instr.Valid
    rw [hnew]
    exact .nil
  have hcode : b.code.toList = (a.code.toList ++ assemble is) ++ ([old.toByte] ++ []) := by
    rw [h.code]
    simp [Instr.bytes, Instr.operandBytes, hold]
  have hposition : (a.code.toList ++ assemble is).length = a.code.size + codeSize is := by
    rw [List.length_append, length_assemble his, Array.length_toList]
  obtain ⟨code, last, previous⟩ := b
  subst hlast
  have hwritten : (code.write (a.code.size + codeSize is) [new.toByte]).toList =
      (a.code.toList ++ assemble is) ++ ([new.toByte] ++ []) :=
    Code.toList_write hcode hposition rfl
  refine ⟨?_, ?_, ?_, by simp⟩
  · intro i hi
    rcases List.mem_append.1 hi with hi | hi
    · exact his i hi
    · rw [List.mem_singleton.1 hi]
      exact hvalid
  · show (code.write (a.code.size + codeSize is) [new.toByte]).toList = _
    rw [hwritten]
    simp [Instr.bytes, Instr.operandBytes, hnew]
  · intro init i heq
    rcases List.append_inj' heq rfl with ⟨rfl, hlast⟩
    cases hlast
    rfl

/-- An instruction with one operand gets another operand. All instructions stay where they are. -/
theorem patch {op : Opcode} {placeholder operand : Nat} {code : Code}
    (h : Appended a (is ++ ⟨op, [placeholder]⟩ :: js) b) (hvalid : (Instr.mk op [operand]).Valid)
    (hcode : code.toList = (a.code.toList ++ assemble is) ++
      ((Instr.mk op [operand]).bytes ++ assemble js)) :
    Appended a (is ++ ⟨op, [operand]⟩ :: js) { b with code } where
  valid := by
    intro i hi
    rcases List.mem_append.1 hi with hi | hi
    · exact h.valid i (List.mem_append_left _ hi)
    · rcases List.mem_cons.1 hi with rfl | hi
      · exact hvalid
      · exact h.valid i (List.mem_append_right _ (List.mem_cons_of_mem _ hi))
  code := by
    show code.toList = _
    rw [hcode]
    simp
  last := by
    intro init i heq
    show b.last = _
    -- The instruction that gets its operand may itself be the last one.
    rcases List.eq_nil_or_concat js with rfl | ⟨before, j, rfl⟩
    · rcases List.append_inj' heq rfl with ⟨rfl, hlast⟩
      cases hlast
      exact h.last is ⟨op, [placeholder]⟩ rfl
    · rw [List.concat_eq_append, ← List.cons_append, ← List.append_assoc] at heq
      rcases List.append_inj' heq rfl with ⟨rfl, hlast⟩
      cases hlast
      have hbefore := h.last (is ++ ⟨op, [placeholder]⟩ :: before) i (by simp)
      have hsize : (Instr.mk op [placeholder]).size = (Instr.mk op [operand]).size := rfl
      rw [hbefore, codeSize_append, codeSize_append, codeSize_cons, codeSize_cons, hsize]
  same := by simp

/-- In a buffer that started out empty, the memory of the last instruction can be trusted. -/
theorem exists_of_lastIs {op : Opcode} (h : Appended a is b) (hnone : a.last = none)
    (hlast : b.lastIs op = true) : ∃ init i, is = init ++ [i] ∧ i.op = op := by
  rcases List.eq_nil_or_concat is with rfl | ⟨init, i, rfl⟩
  · rw [Buffer.lastIs, h.same rfl, hnone] at hlast
    cases hlast
  · rw [Buffer.lastIs, h.last init i (List.concat_eq_append ..)] at hlast
    exact ⟨init, i, List.concat_eq_append .., by simpa using hlast⟩

end Appended

end Buffer

/-! ## Captures -/

/-- The captures of the scope are still there. -/
def Scope.KeepsCaptures (old new : Scope) : Prop := old.captures <+: new.captures

theorem Scope.KeepsCaptures.refl (scope : Scope) : KeepsCaptures scope scope := List.prefix_refl _

theorem Scope.KeepsCaptures.trans {first second third : Scope} (h : KeepsCaptures first second)
    (h' : KeepsCaptures second third) : KeepsCaptures first third := List.IsPrefix.trans h h'

namespace SymbolTable

theorem levels_withScope (table : SymbolTable) {scope : Scope}
    (h : Scope.KeepsCaptures table.scope scope) :
    Levels Scope.KeepsCaptures table (table.withScope scope) := by
  cases table with
  | global _ => exact .global h
  | nested _ outer => exact .nested h (.refl .refl outer)

theorem Finds.levels_captures {name : String} {table table' : SymbolTable} {symbol : Symbol}
    (h : Finds name table symbol table') : Levels Scope.KeepsCaptures table table' := by
  induction h with
  | here _ => exact .refl .refl _
  | past _ _ _ ih => exact .nested (.refl _) ih
  | captured _ _ _ ih => exact .nested (List.prefix_append _ _) ih

end SymbolTable

/-! ## Compilers -/

namespace Compiler

/-- The way from `c` to `c'` wrote `is` into the buffer of `c`, and `c'` is in the same function
body as `c`. -/
structure Extends (c : Compiler) (is : List Instr) (c' : Compiler) : Prop where
  buffer : c.buffer.Appended is c'.buffer
  enclosing : c'.enclosing = c.enclosing
  constants : c.constants.toList <+: c'.constants.toList
  symbols : SymbolTable.Levels Scope.KeepsCaptures c.symbols c'.symbols

namespace Extends

variable {c c' c'' : Compiler} {is js : List Instr}

theorem refl (c : Compiler) : c.Extends [] c where
  buffer := .refl _
  enclosing := rfl
  constants := List.prefix_refl _
  symbols := .refl .refl _

theorem trans (h : c.Extends is c') (h' : c'.Extends js c'') : c.Extends (is ++ js) c'' where
  buffer := h.buffer.trans h'.buffer
  enclosing := h'.enclosing.trans h.enclosing
  constants := h.constants.trans h'.constants
  symbols := h.symbols.trans .trans h'.symbols

/-- The code has changed and nothing else. -/
theorem withBuffer (h : c.Extends is c') {buffer : Buffer} (hbuffer : c.buffer.Appended js buffer) :
    c.Extends js { c' with buffer } := { h with buffer := hbuffer }

theorem written (h : c.Extends is c') {i : Instr} (hi : i.Valid) :
    c.Extends (is ++ [i]) (Compile.written c' i) := h.withBuffer (h.buffer.append hi)

/-- An instruction that was written in between gets its operand, if the operand fits. -/
theorem patch (operand : Nat) {op : Opcode} {placeholder : Nat}
    (h : c.Extends (is ++ ⟨op, [placeholder]⟩ :: js) c') :
    (∃ e, Compile.patch (c.buffer.code.size + codeSize is) operand c' = .error e c') ∨
      ∃ c'', Compile.patch (c.buffer.code.size + codeSize is) operand c' = .ok () c'' ∧
        c.Extends (is ++ ⟨op, [operand]⟩ :: js) c'' := by
  have hvalid : (Instr.mk op [placeholder]).Valid := h.buffer.valid _ (by simp)
  have hcode : c'.buffer.code.toList = (c.buffer.code.toList ++ assemble is) ++
      ((Instr.mk op [placeholder]).bytes ++ assemble js) := by
    rw [h.buffer.code]
    simp
  have hlength : (c.buffer.code.toList ++ assemble is).length =
      c.buffer.code.size + codeSize is := by
    rw [List.length_append, Array.length_toList,
      length_assemble fun i hi => h.buffer.valid i (List.mem_append_left _ hi)]
  have hpatch := Compile.patch_follows operand hvalid hcode
  rw [hlength] at hpatch
  cases hemit : Fragment.emit op [operand] with
  | error e =>
      rw [hemit] at hpatch
      exact .inl ⟨e, hpatch⟩
  | ok f =>
      rw [hemit] at hpatch
      rcases hpatch with ⟨code, hpatched, hvalid', rfl, hact⟩
      exact .inr ⟨_, hact, h.withBuffer (h.buffer.patch hvalid' (by simpa using hpatched))⟩

end Extends

/-- The compiler at the start of a function body. -/
def opened (c : Compiler) : Compiler :=
  { c with
    buffer := .empty
    enclosing := c.buffer :: c.enclosing
    symbols := c.symbols.enter }

/-- Where an act that started in `c` may stop: behind what it has written, or else in a function
body that begins there, and in that again at some such place. -/
inductive Leaves : Compiler → Compiler → Prop
  | stopped {c c' : Compiler} {is : List Instr} (h : c.Extends is c') : Leaves c c'
  | inside {c c₁ c' : Compiler} {is : List Instr} (h : c.Extends is c₁)
      (hinner : Leaves c₁.opened c') : Leaves c c'

theorem Extends.leaves {c c₁ c' : Compiler} {is : List Instr} (h : c.Extends is c₁)
    (h' : c₁.Leaves c') : c.Leaves c' := by
  cases h' with
  | stopped h' => exact .stopped (h.trans h')
  | inside h' hinner => exact .inside (h.trans h') hinner

/-- Some code was written. -/
def Grows (c c' : Compiler) : Prop := ∃ is, c.Extends is c'

/-- Some code was written, and its last instruction was the last thing that happened. -/
def Ends (c c' : Compiler) : Prop :=
  ∃ is before i, c.Extends is before ∧ i.Valid ∧ c' = Compile.written before i

/-- Nothing happened, or something that ends in an instruction. -/
def Settles (c c' : Compiler) : Prop := c' = c ∨ c.Ends c'

section

variable {c c₁ c' : Compiler}

theorem Grows.refl (c : Compiler) : c.Grows c := ⟨[], .refl c⟩

theorem Grows.trans (h : c.Grows c₁) (h' : c₁.Grows c') : c.Grows c' := by
  rcases h with ⟨is, h⟩
  rcases h' with ⟨js, h'⟩
  exact ⟨is ++ js, h.trans h'⟩

theorem Grows.ends (h : c.Grows c₁) (h' : c₁.Ends c') : c.Ends c' := by
  rcases h with ⟨is, h⟩
  rcases h' with ⟨js, before, i, h', hi, rfl⟩
  exact ⟨is ++ js, before, i, h.trans h', hi, rfl⟩

theorem Ends.grows (h : c.Ends c') : c.Grows c' := by
  rcases h with ⟨is, before, i, h, hi, rfl⟩
  exact ⟨is ++ [i], h.written hi⟩

theorem Ends.settles (h : c.Ends c₁) (h' : c₁.Settles c') : c.Settles c' := by
  rcases h' with rfl | h'
  · exact .inr h
  · exact .inr (h.grows.ends h')

theorem Settles.grows (h : c.Settles c') : c.Grows c' := by
  rcases h with rfl | h
  · exact .refl c'
  · exact h.grows

end

end Compiler

/-! ## Acts -/

namespace Compile

/-- What became of an act that started in `c`: it led to where `post` says, or it failed and left
the compiler behind its start. -/
def Came {α : Type} (post : Compiler → Compiler → Prop) (c : Compiler) :
    EStateM.Result CompileError Compiler α → Prop
  | .ok _ c' => post c c'
  | .error _ c' => c.Leaves c'

theorem Came.after {α : Type} {c c₁ : Compiler} {is : List Instr}
    {result : EStateM.Result CompileError Compiler α} (hextends : c.Extends is c₁)
    (h : Came Compiler.Grows c₁ result) : Came Compiler.Grows c result := by
  cases result with
  | ok a c' => exact Compiler.Grows.trans ⟨is, hextends⟩ h
  | error e c' => exact hextends.leaves h

/-- Wherever the act starts, it leads to where `post` says or fails. -/
def Leads {α : Type} (post : Compiler → Compiler → Prop) (act : Compile α) : Prop :=
  ∀ c, Came post c (act c)

namespace Leads

open Compiler (Extends Grows Ends Settles)

variable {α β : Type} {P Q R : Compiler → Compiler → Prop} {act : Compile α} {next : α → Compile β}

theorem of_ok (h : ∀ c, ∃ a c', act c = .ok a c' ∧ P c c') : Leads P act := by
  intro c
  rcases h c with ⟨a, c', hact, hpost⟩
  rw [hact]
  exact hpost

theorem mono (h : Leads P act) (hmono : ∀ c c', P c c' → Q c c') : Leads Q act := by
  intro c
  have hc := h c
  cases hact : act c with
  | ok a c' =>
      rw [hact] at hc
      exact hmono c c' hc
  | error e c' =>
      rw [hact] at hc
      exact hc

/-- One act after another. -/
theorem seq (h : Leads P act) (hnext : ∀ a, Leads Q (next a))
    (hgrows : ∀ c c', P c c' → c.Grows c') (hseq : ∀ c c₁ c', P c c₁ → Q c₁ c' → R c c') :
    Leads R (act >>= next) := by
  intro c
  have hc := h c
  cases hact : act c with
  | error e c' =>
      rw [hact] at hc
      rw [act_bind_of_error hact]
      exact hc
  | ok a c₁ =>
      rw [hact] at hc
      rw [act_bind_of_ok hact]
      have hc₁ := hnext a c₁
      rcases hgrows c c₁ hc with ⟨is, hextends⟩
      cases hact' : next a c₁ with
      | ok b c' =>
          rw [hact'] at hc₁
          exact hseq c c₁ c' hc hc₁
      | error e c' =>
          rw [hact'] at hc₁
          -- The second act has failed, but above all that the first one wrote.
          exact hextends.leaves hc₁

theorem bind (h : Leads Grows act) (hnext : ∀ a, Leads Grows (next a)) :
    Leads Grows (act >>= next) := h.seq hnext (fun _ _ h => h) fun _ _ _ => .trans

theorem ends (h : Leads Grows act) (hnext : ∀ a, Leads Ends (next a)) :
    Leads Ends (act >>= next) := h.seq hnext (fun _ _ h => h) fun _ _ _ => Grows.ends

theorem settles {next : Compile β} (h : Leads Ends act) (hnext : Leads Settles next) :
    Leads Settles (act >>= fun _ => next) :=
  h.seq (fun _ => hnext) (fun _ _ h => h.grows) fun _ _ _ => Ends.settles

theorem throw (e : CompileError) : Leads P (MonadExcept.throw e : Compile α) :=
  fun c => .stopped (.refl c)

theorem nothing : Leads Grows (pure () : Compile Unit) := fun c => .refl c

/-! ### Instructions, constants, names -/

theorem emit (op : Opcode) (operands : List Nat) : Leads Ends (Compile.emit op operands) := by
  cases hencode : op.encode operands with
  | error cause =>
      intro c
      rw [emit_of_error hencode]
      exact .stopped (.refl c)
  | ok bytes =>
      have hvalid := ((op.encode_eq_ok_iff operands bytes).1 hencode).1
      exact .of_ok fun c => ⟨(), _, emit_of_valid hvalid c, [], c, _, .refl c, hvalid, rfl⟩

theorem emits (op : Opcode) (operands : List Nat) : Leads Grows (Compile.emit op operands) :=
  (emit op operands).mono fun _ _ => Ends.grows

theorem addConstant (v : Value) : Leads Grows (Compile.addConstant v) := by
  refine .of_ok fun c => ⟨_, _, rfl, [], ?_⟩
  exact { Extends.refl c with constants := by simp }

theorem addFunction (f : Function) : Leads Grows (Compile.addFunction f) :=
  fun c => addConstant (.function (.constant c.constants.size) f) c

/-- Changes of the innermost scope that leave its captures alone. -/
theorem onScope {a : Compiler → α} {scope : Compiler → Scope}
    (hact : ∀ c, act c = .ok (a c) { c with symbols := c.symbols.withScope (scope c) })
    (hkeeps : ∀ c, Scope.KeepsCaptures c.symbols.scope (scope c)) : Leads Grows act :=
  .of_ok fun c => ⟨_, _, hact c, [],
    { Extends.refl c with symbols := c.symbols.levels_withScope (hkeeps c) }⟩

theorem define (name : String) : Leads Grows (Compile.define name) :=
  .onScope (fun _ => rfl) fun _ => List.prefix_refl _

theorem defineOwnName (own : Option String) : Leads Grows (Compile.defineOwnName own) := by
  cases own with
  | none => exact nothing
  | some name => exact .onScope (fun _ => rfl) fun _ => List.prefix_refl _

theorem defineParams (params : List String) : Leads Grows (Compile.defineParams params) := by
  induction params with
  | nil => exact nothing
  | cons name rest ih =>
      refine (define name).bind fun symbol => ?_
      split
      · exact ih
      · exact throw _

theorem bindName (name : String) : Leads Ends (Compile.bind name) := by
  refine (define name).ends fun symbol => ?_
  split
  · exact emit _ _
  · split
    · exact emit _ _
    · exact throw _

theorem resolve (name : String) : Leads Grows (Compile.resolve name) := by
  intro c
  unfold Compile.resolve
  rw [act_bind_of_ok (show (get : Compile Compiler) c = .ok c c from rfl)]
  cases hres : c.symbols.resolve name with
  | none => exact .stopped (.refl c)
  | some found =>
      have hlevels := (SymbolTable.finds_of_resolve hres).levels_captures
      exact ⟨[], { Extends.refl c with symbols := hlevels }⟩

theorem load (symbol : Symbol) : Leads Grows (Compile.load symbol) := by
  unfold Compile.load
  cases symbol.storage <;> exact emits _ _

theorem loadAll (symbols : List Symbol) : Leads Grows (Compile.loadAll symbols) := by
  induction symbols with
  | nil => exact nothing
  | cons symbol rest ih => exact (load symbol).bind fun _ => ih

theorem literal (v : Value) : Leads Grows (Compile.literal v) :=
  (addConstant v).bind fun _ => emits _ _

/-! ### Branches -/

/-- Only an instruction of the block itself is taken back. -/
theorem branch {block : Compile Unit} (h : Leads Settles block) :
    Leads Grows (Compile.branch block) := by
  intro c
  have hc := h c
  rw [Compile.branch_eq]
  cases hact : block c with
  | error e c' =>
      rw [hact] at hc
      rw [act_bind_of_error hact]
      exact hc
  | ok a c' =>
      rw [hact] at hc
      rw [act_bind_of_ok hact, endBranch_eq]
      have hnull : (Instr.mk .pushNull []).Valid := .nil
      rcases hc with rfl | ⟨is, before, i, hextends, hi, rfl⟩
      -- An empty block. The last instruction is one from before, and the positions tell.
      · rw [if_neg (by simp)]
        exact ⟨_, (Extends.refl c').written hnull⟩
      · by_cases hpop : (Compile.written before i).buffer.lastIs .pop &&
            decide (c.buffer.code.size < (Compile.written before i).buffer.code.size)
        · rw [if_pos hpop]
          exact ⟨is, hextends.withBuffer (hextends.buffer.removeLast i)⟩
        · rw [if_neg hpop]
          exact ⟨_, (hextends.written hi).written hnull⟩

/-- An act behind code that is already there. -/
theorem andThen {c c₁ : Compiler} {is : List Instr} (h : Leads Grows act)
    (hextends : c.Extends is c₁)
    (hnext : ∀ a js c₂, c.Extends (is ++ js) c₂ → Came Grows c (next a c₂)) :
    Came Grows c ((act >>= next) c₁) := by
  have hc₁ := h c₁
  cases hact : act c₁ with
  | error e c' =>
      rw [hact] at hc₁
      rw [act_bind_of_error hact]
      exact hextends.leaves hc₁
  | ok a c₂ =>
      rw [hact] at hc₁
      rw [act_bind_of_ok hact]
      rcases hc₁ with ⟨js, hstep⟩
      exact hnext a js c₂ (hextends.trans hstep)

/-- Both jumps are in code that the conditional itself has written. -/
theorem conditional {test yes no : Compile Unit} (htest : Leads Grows test)
    (hyes : Leads Settles yes) (hno : Leads Grows no) :
    Leads Grows (Compile.conditional test yes no) := by
  intro c
  have hjumpNot : (Instr.mk .jumpNotTruthy [jumpPlaceholder]).Valid := .cons (by decide) .nil
  have hjump : (Instr.mk .jump [jumpPlaceholder]).Valid := .cons (by decide) .nil
  refine htest.andThen (.refl c) fun _ ts c₁ h₁ => ?_
  rw [act_bind_of_ok (emitAt_of_valid hjumpNot c₁), h₁.buffer.size]
  refine (branch hyes).andThen (h₁.written hjumpNot) fun _ ys c₂ h₂ => ?_
  rw [act_bind_of_ok (emitAt_of_valid hjump c₂), h₂.buffer.size]
  have h₃ := h₂.written hjump
  -- The list of instructions is split at the jump that gets its target.
  have hcode : [] ++ ts ++ [⟨.jumpNotTruthy, [jumpPlaceholder]⟩] ++ ys ++
      [⟨.jump, [jumpPlaceholder]⟩] = ([] ++ ts) ++ ⟨.jumpNotTruthy, [jumpPlaceholder]⟩ ::
        (ys ++ [⟨.jump, [jumpPlaceholder]⟩]) := by
    simp
  rw [hcode] at h₃
  generalize written c₂ ⟨.jump, [jumpPlaceholder]⟩ = c₃ at h₃
  rw [act_bind_of_ok (show Compile.position c₃ = .ok _ c₃ from rfl)]
  rcases h₃.patch c₃.buffer.code.size with ⟨e, herror⟩ | ⟨c₄, hpatch, h₄⟩
  · rw [act_bind_of_error herror]
    exact .stopped h₃
  rw [act_bind_of_ok hpatch]
  refine hno.andThen h₄ fun _ ns c₅ h₅ => ?_
  rw [act_bind_of_ok (show Compile.position c₅ = .ok _ c₅ from rfl)]
  -- The same once more for the second jump. The first one has changed, but not its size.
  have hcode' : ([] ++ ts) ++ ⟨.jumpNotTruthy, [c₃.buffer.code.size]⟩ ::
      (ys ++ [⟨.jump, [jumpPlaceholder]⟩]) ++ ns =
        (([] ++ ts) ++ ⟨.jumpNotTruthy, [c₃.buffer.code.size]⟩ :: ys) ++
          ⟨.jump, [jumpPlaceholder]⟩ :: ns := by
    simp
  have hsize : codeSize ([] ++ ts ++ [⟨.jumpNotTruthy, [jumpPlaceholder]⟩] ++ ys) =
      codeSize (([] ++ ts) ++ ⟨.jumpNotTruthy, [c₃.buffer.code.size]⟩ :: ys) := by
    simp [Instr.size]
  rw [hcode'] at h₅
  rw [hsize]
  rcases h₅.patch c₅.buffer.code.size with ⟨e, herror⟩ | ⟨c₆, hpatch, h₆⟩
  · rw [herror]
    exact .stopped h₅
  · rw [hpatch]
    exact ⟨_, h₆⟩

end Leads

end Compile

/-! ## Function bodies -/

namespace Compile

/-- A body that was written from its start on can be finished. -/
theorem finishBody_of_extends {c c₁ : Compiler} {is : List Instr} (h : c.Extends is c₁)
    (hnone : c.buffer.last = none) :
    ∃ c₂, finishBody c₁ = .ok () c₂ ∧ c.Grows c₂ := by
  rw [finishBody_eq]
  split
  · rename_i hpop
    -- The buffer was empty at the start of the body, so the last instruction is one of the body.
    rcases h.buffer.exists_of_lastIs hnone hpop with ⟨init, ⟨op, operands⟩, rfl, rfl⟩
    have hoperands : operands = [] := by
      have hvalid := h.buffer.valid ⟨.pop, operands⟩ (by simp)
      cases hvalid
      rfl
    subst hoperands
    exact ⟨_, rfl, _, h.withBuffer (h.buffer.replaceLast rfl rfl)⟩
  · split
    · exact ⟨c₁, rfl, is, h⟩
    · exact ⟨_, rfl, _, h.written .nil⟩

/-- Leaving a body leads back to where it began. -/
theorem leaveBody_of_extends {c c₁ : Compiler} {is : List Instr} (h : c.opened.Extends is c₁) :
    ∃ found c₂, leaveBody c₁ = .ok found c₂ ∧ c.Grows c₂ := by
  obtain ⟨constants, symbols, buffer, enclosing⟩ := c₁
  have henclosing : enclosing = c.buffer :: c.enclosing := h.enclosing
  subst henclosing
  have hlevels := h.symbols
  cases hlevels with
  | nested _ houter =>
      refine ⟨_, _, rfl, [], ?_⟩
      exact
        { buffer := .refl _
          enclosing := rfl
          constants := h.constants
          symbols := houter }

open Compiler (Grows)

theorem Leads.functionLiteral (own : Option String) (params : List String) {body : Compile Unit}
    (h : Leads Grows body) : Leads Grows (Compile.functionLiteral own params body) := by
  intro c
  obtain ⟨inner, hinner, hliteral⟩ : ∃ inner : Compile Unit, Leads Grows inner ∧
      Compile.functionLiteral own params body c =
        (inner >>= fun _ => do finishBody; closeBody params.length) c.opened := by
    refine ⟨do Compile.defineOwnName own; Compile.defineParams params; body, ?_, ?_⟩
    · exact (defineOwnName own).bind fun _ => (defineParams params).bind fun _ => h
    · rw [functionLiteral_eq, act_bind_of_ok (show enterBody c = .ok () c.opened from rfl)]
      simp only [bind_assoc]
  have hc := hinner c.opened
  rw [hliteral]
  cases hact : inner c.opened with
  | error e c' =>
      -- The body is left open.
      rw [hact] at hc
      rw [act_bind_of_error hact]
      exact .inside (.refl c) hc
  | ok a c₁ =>
      rw [hact] at hc
      rw [act_bind_of_ok hact]
      rcases hc with ⟨is, h₁⟩
      -- From here on nothing fails inside of the body, and what follows is written around it.
      rcases finishBody_of_extends h₁ rfl with ⟨c₂, hfinish, js, h₂⟩
      rcases leaveBody_of_extends h₂ with ⟨⟨code, scope⟩, c₃, hleave, ks, h₃⟩
      rw [act_bind_of_ok hfinish, closeBody, act_bind_of_ok hleave]
      refine .after h₃ ?_
      refine (loadAll scope.captures).bind (fun _ => (addFunction _).bind fun index => ?_) c₃
      split
      · exact emits _ _
      · exact emits _ _

end Compile

/-! ## Programs -/

open Compile (Leads)
open Compiler (Grows Ends Settles)

mutual

theorem Stmt.compile_leads (stmt : Stmt) : Leads Ends (Stmt.compile stmt) := by
  cases stmt with
  | expr value => exact (Expr.compile_leads none value).ends fun _ => .emit _ _
  | bind name value => exact (Expr.compile_leads (some name) value).ends fun _ => .bindName name
  | ret value => exact (Expr.compile_leads none value).ends fun _ => .emit _ _

theorem Block.compile_leads (block : List Stmt) : Leads Settles (Block.compile block) := by
  cases block with
  | nil => exact fun c => .inl rfl
  | cons stmt rest => exact (Stmt.compile_leads stmt).settles (Block.compile_leads rest)

theorem Expr.compile_leads (own : Option String) (expr : Expr) :
    Leads Grows (Expr.compile own expr) := by
  cases expr with
  | ident name =>
      unfold Expr.compile
      exact (Leads.resolve name).bind .load
  | int n => exact .literal _
  | str s => exact .literal _
  | bool b => exact .emits _ _
  | unary operator operand =>
      unfold Expr.compile
      cases Compile.unaryOpcode? operator with
      | none => exact .throw _
      | some op => exact (Expr.compile_leads none operand).bind fun _ => .emits _ _
  | binary left operator right =>
      have hleft := Expr.compile_leads none left
      have hright := Expr.compile_leads none right
      unfold Expr.compile
      by_cases hless : operator = "<"
      · rw [if_pos hless]
        exact hright.bind fun _ => hleft.bind fun _ => .emits _ _
      · rw [if_neg hless]
        cases Compile.binaryOpcode? operator with
        | none => exact .throw _
        | some op => exact hleft.bind fun _ => hright.bind fun _ => .emits _ _
  | cond test yes no =>
      have htest := Expr.compile_leads none test
      have hyes := Block.compile_leads yes
      cases no with
      | none => exact .conditional htest hyes (.emits _ _)
      | some no => exact .conditional htest hyes (.branch (Block.compile_leads no))
  | function params body =>
      exact .functionLiteral own params
        ((Block.compile_leads body).mono fun _ _ => Settles.grows)
  | call callee args =>
      exact (Expr.compileList_leads args).bind fun _ =>
        (Expr.compile_leads none callee).bind fun _ => .emits _ _
  | array elements => exact (Expr.compileList_leads elements).bind fun _ => .emits _ _
  | hash pairs => exact (Expr.compilePairs_leads pairs).bind fun _ => .emits _ _
  | index collection key =>
      exact (Expr.compile_leads none collection).bind fun _ =>
        (Expr.compile_leads none key).bind fun _ => .emits _ _

theorem Expr.compileList_leads (exprs : List Expr) : Leads Grows (Expr.compileList exprs) := by
  cases exprs with
  | nil => exact .nothing
  | cons expr rest =>
      exact (Expr.compile_leads none expr).bind fun _ => Expr.compileList_leads rest

theorem Expr.compilePairs_leads (pairs : List (Expr × Expr)) :
    Leads Grows (Expr.compilePairs pairs) := by
  cases pairs with
  | nil => exact .nothing
  | cons pair rest =>
      obtain ⟨key, value⟩ := pair
      exact (Expr.compile_leads none key).bind fun _ =>
        (Expr.compile_leads none value).bind fun _ => Expr.compilePairs_leads rest

end

namespace Compiler

/-- What `c` had is still there in `c'`. There may be more function bodies open, with buffers and
scopes of their own. -/
structure Kept (c c' : Compiler) : Prop where
  constants : c.constants.toList <+: c'.constants.toList
  buffers : ∃ inner current, c'.buffer :: c'.enclosing = inner ++ current :: c.enclosing ∧
    c.buffer.code.toList <+: current.code.toList
  depth : c.symbols.depth ≤ c'.symbols.depth
  captures : ∃ inner kept, c'.symbols.scopes = inner ++ kept.scopes ∧
    SymbolTable.Levels Scope.KeepsCaptures c.symbols kept

section

variable {c c₁ c' : Compiler} {is : List Instr}

theorem Extends.code_kept (h : c.Extends is c') :
    c.buffer.code.toList <+: c'.buffer.code.toList := ⟨assemble is, h.buffer.code.symm⟩

theorem Extends.kept (h : c.Extends is c') : c.Kept c' where
  constants := h.constants
  buffers := ⟨[], c'.buffer, by rw [h.enclosing]; rfl, h.code_kept⟩
  depth := Nat.le_of_eq h.symbols.depth.symm
  captures := ⟨[], c'.symbols, rfl, h.symbols⟩

/-- What is kept inside of a body is kept around it. -/
theorem Extends.kept_inside (h : c.Extends is c₁) (hinner : c₁.opened.Kept c') : c.Kept c' where
  constants := h.constants.trans hinner.constants
  buffers := by
    rcases hinner.buffers with ⟨inner, current, hbuffers, -⟩
    refine ⟨inner ++ [current], c₁.buffer, ?_, h.code_kept⟩
    rw [hbuffers, ← h.enclosing, List.append_assoc]
    rfl
  depth := by
    have hopened : c₁.symbols.depth + 1 ≤ c'.symbols.depth := hinner.depth
    rw [h.symbols.depth] at hopened
    exact Nat.le_of_succ_le hopened
  captures := by
    rcases hinner.captures with ⟨inner, kept, hscopes, hlevels⟩
    cases hlevels with
    | @nested _ body _ outer _ houter =>
        refine ⟨inner ++ [body], outer, ?_, h.symbols.trans .trans houter⟩
        rw [hscopes, List.append_assoc]
        rfl

theorem Leaves.kept (h : c.Leaves c') : c.Kept c' := by
  induction h with
  | stopped h => exact h.kept
  | inside h _ ih => exact h.kept_inside ih

/-- Buffers and scopes are opened and closed together. -/
theorem Leaves.lockstep (h : c.Leaves c') (hc : c.symbols.depth = c.enclosing.length) :
    c'.symbols.depth = c'.enclosing.length := by
  induction h with
  | stopped h => rw [h.symbols.depth, h.enclosing, hc]
  | @inside c c₁ c' is h _ ih =>
      have hopened : c₁.opened.symbols.depth = c₁.opened.enclosing.length := by
        show c₁.symbols.depth + 1 = c₁.enclosing.length + 1
        rw [h.symbols.depth, h.enclosing, hc]
      exact ih hopened

end

/-- The compilers that compiling one program after another leads to, from one at the top level. A
program that is refused counts too: the next one starts where it has stopped. -/
inductive Reached : Compiler → Prop
  | start {symbols : SymbolTable} (htop : symbols.depth = 0) (constants : Array Value) :
      Reached (.start symbols constants)
  | compile {c : Compiler} (h : Reached c) (program : Program) :
      Reached (finalState ((Block.compile program).run c))

theorem leaves_compile (c : Compiler) (program : Program) :
    c.Leaves (finalState ((Block.compile program).run c)) := by
  have hc := Block.compile_leads program c
  show c.Leaves (finalState (Block.compile program c))
  cases hact : Block.compile program c with
  | ok a c' =>
      rw [hact] at hc
      rcases Settles.grows hc with ⟨is, h⟩
      exact .stopped h
  | error e c' =>
      rw [hact] at hc
      exact hc

theorem Reached.lockstep {c : Compiler} (h : c.Reached) : c.symbols.depth = c.enclosing.length := by
  induction h with
  | start htop constants => exact htop
  | @compile c _ program ih => exact (c.leaves_compile program).lockstep ih

/-- Compilation only appends. As many scopes are open as buffers. A program that is compiled leads
back to the same body, behind the code that was there. Whether it is compiled or refused, constants,
code and captures that were there stay where they were. -/
theorem Reached.compile_appends {c : Compiler} (h : c.Reached) (program : Program) :
    c.symbols.depth = c.enclosing.length ∧
      (∀ c', (Block.compile program).run c = .ok () c' →
        c'.symbols.depth = c.symbols.depth ∧ c'.enclosing = c.enclosing ∧
          c.buffer.code.toList <+: c'.buffer.code.toList) ∧
      c.Kept (finalState ((Block.compile program).run c)) := by
  refine ⟨h.lockstep, ?_, (c.leaves_compile program).kept⟩
  intro c' hok
  have hact : Block.compile program c = .ok () c' := hok
  have hc := Block.compile_leads program c
  rw [hact] at hc
  rcases Settles.grows hc with ⟨is, hextends⟩
  exact ⟨hextends.symbols.depth, hextends.enclosing, hextends.code_kept⟩

/-- The first program is refused two functions deep, and both stay open. The second one is compiled
there: it captures one more variable and closes the function that it opens itself. -/
theorem Reached.compile_appends_of_unfinished :
    ∃ (c : Compiler) (refused accepted : Program),
      refused = [.expr (.function ["a", "b"]
        [.expr (.function [] [.expr (.ident "a"), .expr (.ident "missing")])])] ∧
      accepted = [.expr (.function [] [.expr (.ident "b")])] ∧
      c = finalState ((Block.compile refused).run .initial) ∧ c.Reached ∧
      c.symbols.depth = 2 ∧ c.symbols.depth = c.enclosing.length ∧
      ∃ c', (Block.compile accepted).run c = .ok () c' ∧
        c'.symbols.depth = c.symbols.depth ∧ c'.enclosing = c.enclosing ∧
        c.buffer.code.toList <+: c'.buffer.code.toList ∧
        c.Kept (finalState ((Block.compile accepted).run c)) := by
  have h : Reached (finalState ((Block.compile [.expr (.function ["a", "b"]
      [.expr (.function [] [.expr (.ident "a"), .expr (.ident "missing")])])]).run .initial)) :=
    (Reached.start (by decide) #[]).compile _
  have happends := h.compile_appends [.expr (.function [] [.expr (.ident "b")])]
  refine ⟨_, _, _, rfl, rfl, rfl, h, by decide +kernel, happends.1, ?_⟩
  refine (Program.exists_of_compiles ?_).imp fun c' hok => ⟨hok, ?_⟩
  · decide +kernel
  · rcases happends.2.1 c' hok with ⟨hdepth, henclosing, hcode⟩
    exact ⟨hdepth, henclosing, hcode, happends.2.2⟩

end Compiler

end MonkeyMachine
