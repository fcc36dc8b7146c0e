import Mathlib.Data.List.Nodup
import MonkeyMachine.Proofs.CodeSoundness
import MonkeyMachine.Proofs.CompilerLayout

/-!
# Well-formed bytecode

What can be read off the listings of compiled bytecode, without running it. Every buffer is a
sequence of whole instructions; jumps lead forward to instructions of the same buffer; operands name
constants, locals, globals and builtins that exist; and every constant is referred to by one
instruction of one buffer.

The statements here speak of lines of a listing only. They follow from the soundness of layouts,
which speaks of lists of instructions.
-/

namespace MonkeyMachine

/-! ## Reading listings -/

namespace Code

/-- An instruction with the given opcode and operands starts at `offset`. -/
def Has (code : Code) (offset : Nat) (op : Opcode) (operands : List Nat) : Prop :=
  .instruction offset op operands ∈ code.lines

theorem mem_instructionLines {line : Line} {start : Nat} {is : List Instr} :
    line ∈ instructionLines start is ↔ ∃ pre i post, is = pre ++ i :: post ∧
      line = .instruction (start + codeSize pre) i.op i.operands := by
  induction is generalizing start with
  | nil => simp [instructionLines]
  | cons i is ih =>
      rw [instructionLines, List.mem_cons, ih]
      constructor
      · rintro (rfl | ⟨pre, j, post, rfl, rfl⟩)
        · exact ⟨[], i, is, rfl, by simp⟩
        · exact ⟨i :: pre, j, post, rfl, by simp [Nat.add_assoc]⟩
      · rintro ⟨pre, j, post, his, rfl⟩
        rcases split_cons his with ⟨rfl, rfl⟩ | ⟨pre, rfl, hrest⟩
        · exact .inl (by simp)
        · exact .inr ⟨pre, j, post, hrest, by simp [Nat.add_assoc]⟩

theorem has_of_assemble {code : Code} {pre post : List Instr} {i : Instr}
    (hvalid : ∀ j ∈ pre ++ i :: post, j.Valid) (hcode : code.toList = assemble (pre ++ i :: post)) :
    code.Has (codeSize pre) i.op i.operands := by
  rw [Has, lines_assemble hvalid hcode, mem_instructionLines]
  exact ⟨pre, i, post, rfl, by rw [Nat.zero_add]⟩

theorem Sound.lines_eq {s : Setting} {code : Code} (h : code.Sound s) :
    code.lines = instructionLines 0 code.instrs :=
  lines_assemble h.valid h.complete

/-- The instructions of a sound buffer and the lines of its listing. -/
theorem Sound.has_iff {s : Setting} {code : Code} (h : code.Sound s) {offset : Nat} {op : Opcode}
    {operands : List Nat} :
    code.Has offset op operands ↔ ∃ pre post,
      code.instrs = pre ++ ⟨op, operands⟩ :: post ∧ offset = codeSize pre := by
  rw [Has, h.lines_eq, mem_instructionLines]
  constructor
  · rintro ⟨pre, i, post, his, hline⟩
    simp only [Line.instruction.injEq, Nat.zero_add] at hline
    rcases hline with ⟨rfl, rfl, rfl⟩
    exact ⟨pre, post, his, rfl⟩
  · rintro ⟨pre, post, his, rfl⟩
    exact ⟨pre, _, post, his, by simp⟩

theorem Sound.fits_of_has {s : Setting} {code : Code} (h : code.Sound s) {offset : Nat}
    {op : Opcode} {operands : List Nat} (hhas : code.Has offset op operands) :
    (Instr.mk op operands).Fits s := by
  rcases h.has_iff.1 hhas with ⟨pre, post, his, -⟩
  exact h.fits _ (by simp [his])

theorem mem_instrs_of_has {code : Code} {offset : Nat} {op : Opcode} {operands : List Nat}
    (h : code.Has offset op operands) : Instr.mk op operands ∈ code.instrs := by
  rw [instrs, List.mem_filterMap]
  exact ⟨_, h, rfl⟩

/-- A captured value that the code asks for is one of those it needs. -/
theorem lt_freeCount_of_has {code : Code} {offset n : Nat} (h : code.Has offset .getFree [n]) :
    n < freeCount code.instrs :=
  le_freeCount (mem_instrs_of_has h)

end Code

/-! ## Well-formed buffers -/

/-- The listing of a buffer. `locals` is the number of locals of a function, and none for the code of
the top level. -/
structure Code.WellFormed (pool : Array Value) (globals : Nat) (locals : Option Nat)
    (code : Code) : Prop where
  /-- The buffer is decoded from its start to its end, instruction by instruction. -/
  complete : code.toList = assemble code.instrs ∧
    ∀ line ∈ code.lines, ∃ offset op operands, line = .instruction offset op operands ∧
      operands.length = op.widths.length
  jumps : ∀ offset op target, code.Has offset op [target] → op = .jump ∨ op = .jumpNotTruthy →
    offset < target ∧ target < code.size ∧ ∃ op' operands, code.Has target op' operands
  constants : ∀ offset n, code.Has offset .constant [n] →
    ∃ v, pool[n]? = some v ∧
      ∀ id f, v = .function id f → ∀ offset' k, ¬ f.code.Has offset' .getFree [k]
  closures : ∀ offset n count, code.Has offset .closure [n, count] →
    0 < count ∧ ∃ id f, pool[n]? = some (.function id f) ∧
      ∀ offset' k, f.code.Has offset' .getFree [k] → k < count
  slots : ∀ offset op n, code.Has offset op [n] → op = .getLocal ∨ op = .setLocal →
    ∃ count, locals = some count ∧ n < count
  stores : ∀ offset n, code.Has offset .setGlobal [n] → locals = none ∧ n < globals
  loads : ∀ offset n, code.Has offset .getGlobal [n] → n < globals
  builtins : ∀ offset n, code.Has offset .getBuiltin [n] → n < Builtin.all.length
  hashes : ∀ offset n, code.Has offset .hash [n] → 2 ∣ n
  inside : ∀ offset op operands, code.Has offset op operands →
    op = .getFree ∨ op = .currentClosure ∨ op = .returnNull → locals ≠ none

theorem Code.Sound.wellFormed {pool : Array Value} {globals free : Nat} {locals : Option Nat}
    {code : Code} (h : code.Sound ⟨pool.toList, globals, locals, free⟩)
    (hfree : locals = none → free = 0) : code.WellFormed pool globals locals where
  complete := by
    refine ⟨h.complete, fun line hline => ?_⟩
    rw [h.lines_eq, mem_instructionLines] at hline
    rcases hline with ⟨pre, i, post, his, rfl⟩
    have hvalid : i.Valid := h.valid i (by simp [his])
    exact ⟨_, _, _, rfl, (List.Forall₂.length_eq hvalid).symm⟩
  jumps := by
    intro offset op target hhas hop
    rcases h.has_iff.1 hhas with ⟨pre, post, his, rfl⟩
    have htarget : (Instr.mk op [target]).target? = some target := by
      rcases hop with rfl | rfl <;> rfl
    have hpos := (Instr.mk op [target]).size_pos
    rcases h.structured.lands h.depth his htarget with ⟨pre', i', post', his', rfl, hforward, -⟩
    have hpos' := i'.size_pos
    simp only [codeSize_append, codeSize_cons, codeSize_nil] at hforward
    refine ⟨by omega, ?_, i'.op, i'.operands, h.has_iff.2 ⟨pre', post', his', by simp⟩⟩
    rw [h.size_eq, his']
    simp only [codeSize_append, codeSize_cons]
    omega
  constants := by
    intro offset n hhas
    have hfits : ∃ v, pool.toList[n]? = some v ∧ v.freeCount = 0 := h.fits_of_has hhas
    rcases hfits with ⟨v, hget, hzero⟩
    refine ⟨v, by simpa using hget, ?_⟩
    rintro id f rfl offset' k hfree'
    have hlt := Code.lt_freeCount_of_has hfree'
    have hnone : freeCount f.code.instrs = 0 := hzero
    omega
  closures := by
    intro offset n count hhas
    have hfits : 0 < count ∧ ∃ id f, pool.toList[n]? = some (.function id f) ∧
        freeCount f.code.instrs ≤ count := h.fits_of_has hhas
    rcases hfits with ⟨hpos, id, f, hget, hcount⟩
    refine ⟨hpos, id, f, by simpa using hget, fun offset' k hfree' => ?_⟩
    exact (Code.lt_freeCount_of_has hfree').trans_le hcount
  slots := by
    rintro offset op n hhas (rfl | rfl)
    · exact h.fits_of_has hhas
    · exact h.fits_of_has hhas
  stores := fun _ _ hhas => h.fits_of_has hhas
  loads := fun _ _ hhas => h.fits_of_has hhas
  builtins := fun _ _ hhas => h.fits_of_has hhas
  hashes := fun _ _ hhas => h.fits_of_has hhas
  inside := by
    rintro offset op operands hhas (rfl | rfl | rfl)
    -- Outside of functions nothing is captured, so no instruction needs a captured value.
    · rcases h.has_iff.1 hhas with ⟨pre, post, his, -⟩
      have hmem : (Instr.mk .getFree operands) ∈ code.instrs := by simp [his]
      have hle := (h.fits _ hmem).freeNeeded_le (h.valid _ hmem)
      simp only [Instr.freeNeeded] at hle
      intro hnone
      have := hfree hnone
      omega
    · exact h.fits_of_has hhas
    · exact h.fits_of_has hhas

/-! ## Well-formed bytecode -/

namespace Bytecode

/-- The constants that the instructions of all buffers refer to. -/
def references (b : Bytecode) : List Nat :=
  MonkeyMachine.references b.code.instrs ++ b.constants.toList.flatMap Value.references

/-- Bytecode for a top level with the given number of globals. -/
structure WellFormed (b : Bytecode) (globals : Nat) : Prop where
  program : b.code.WellFormed b.constants globals none
  functions : ∀ (n : Nat) id f, b.constants[n]? = some (Value.function id f) →
    f.code.WellFormed b.constants globals (some f.numLocals)
  /-- The last instruction of a function is a return. -/
  returns : ∀ (n : Nat) id f, b.constants[n]? = some (Value.function id f) →
    ∃ offset op, f.code.Has offset op [] ∧ offset + 1 = f.code.size ∧
      (op = .returnValue ∨ op = .returnNull)
  params : ∀ (n : Nat) id f, b.constants[n]? = some (Value.function id f) → f.numParams ≤ f.numLocals
  /-- Every constant is referred to by one instruction of one buffer. -/
  once : ∀ n < b.constants.size, b.references.count n = 1

end Bytecode

/-! ## Compiled programs -/

theorem Agrees.definitions_eq {table : SymbolTable} {site : Site} (h : Agrees table site)
    (hbody : site.body = none) : table.scope.definitions = site.globals.length := by
  cases h with
  | top _ hdefs => exact hdefs
  | inside hsome =>
      rw [hbody] at hsome
      cases hsome

/-- Whether a program compiles, with what `start` knows. -/
def Program.compiles (start : Compiler) (program : Program) : Bool :=
  match (Block.compile program).run start with
  | .ok _ _ => true
  | .error _ _ => false

theorem Program.run_of_compiles {start : Compiler} {program : Program}
    (h : program.compiles start = true) : (Block.compile program).run start =
      .ok () (finalState ((Block.compile program).run start)) := by
  unfold Program.compiles at h
  split at h
  · rename_i c hc
    rw [hc]
    rfl
  · cases h

theorem Program.exists_of_compiles {start : Compiler} {program : Program}
    (h : program.compiles start = true) : ∃ c, (Block.compile program).run start = .ok () c :=
  ⟨_, Program.run_of_compiles h⟩

theorem Program.compile_of_compiles {program : Program} (h : program.compiles .initial = true) :
    program.compile = .ok (finalState ((Block.compile program).run .initial)).bytecode := by
  unfold Program.compile
  rw [Program.run_of_compiles h]
  rfl

theorem Program.exists_bytecode_of_compiles {program : Program}
    (h : program.compiles .initial = true) : ∃ bytecode, program.compile = .ok bytecode :=
  ⟨_, Program.compile_of_compiles h⟩

/-- What a program is compiled to on its own, by a compiler that has finished it. -/
theorem Program.exists_of_compile {program : Program} {bytecode : Bytecode}
    (h : program.compile = .ok bytecode) :
    ∃ c, Block.compile program (.start .initial #[]) = .ok () c ∧ c.bytecode = bytecode := by
  have hrun : (Block.compile program).run .initial =
      Block.compile program (.start .initial #[]) := rfl
  unfold Program.compile at h
  rw [hrun] at h
  cases hc : Block.compile program (.start .initial #[]) with
  | ok _ c =>
      rw [hc] at h
      exact ⟨c, rfl, Except.ok.inj h⟩
  | error e c =>
      rw [hc] at h
      cases h

/-- A program is refused for what is wrong with its layout. -/
theorem Program.compile_eq_error_iff {program : Program} {cause : CompileError} :
    program.compile = .error cause ↔ Block.layout .drop .initial 0 program = .error cause := by
  have hfollows : Follows (Block.compile program) (.start .initial #[]) .initial
      (Block.events program) (Block.layout .drop .initial 0 program) :=
    Program.compile_follows program Agrees.initial rfl rfl
  have hrun : (Block.compile program).run .initial =
      Block.compile program (.start .initial #[]) := rfl
  unfold Program.compile
  rw [hrun]
  cases hlayout : Block.layout .drop .initial 0 program with
  | ok f =>
      rw [hlayout] at hfollows
      rcases hfollows with ⟨c, hc, -⟩
      rw [hc]
      exact iff_of_false (fun h => by cases h) (fun h => by cases h)
  | error e =>
      rw [hlayout] at hfollows
      rcases hfollows with ⟨c, hc⟩
      rw [hc]
      exact ⟨fun h => congrArg _ (Except.error.inj h), fun h => congrArg _ (Except.error.inj h)⟩

/-- What the code of the top level may refer to once a program is compiled. -/
def Compiler.setting (c : Compiler) : Setting where
  pool := c.constants.toList
  globals := c.symbols.scope.definitions
  locals := none
  free := 0

/-- A program that compiles is laid out in its code, whatever was compiled before it. Its constants
are the last ones of the pool. -/
theorem Program.compile_layout {program : Program} {symbols : SymbolTable} {site : Site}
    {constants : Array Value} {c : Compiler} (hagrees : Agrees symbols site)
    (hbody : site.body = none) (hc : constants.size = site.literals)
    (h : Block.compile program (.start symbols constants) = .ok () c) :
    ∃ f, Wrote (.start symbols constants) site (Block.events program) f c ∧
      Block.layout .drop site 0 program = .ok f ∧
      (site.after (Block.events program)).Within c.setting ∧
      f.constants <+: c.setting.pool.drop site.literals := by
  rcases (Program.compile_follows program hagrees hbody hc).wrote_of_ok h with ⟨f, hlayout, hw⟩
  have hglobals := hw.scanned.agrees.definitions_eq (Site.body_after_of_none hbody _)
  refine ⟨f, hw, hlayout, ⟨Nat.le_of_eq hglobals.symm, fun _ => rfl, fun locals hsome => ?_⟩,
    [], ?_⟩
  · rw [Site.body_after_of_none hbody] at hsome
    cases hsome
  · have hconstants : c.setting.pool = constants.toList ++ f.constants := hw.constants
    rw [hconstants, ← hc, ← Array.length_toList, List.drop_left, List.append_nil]

theorem Program.compile_sound {program : Program} {symbols : SymbolTable} {site : Site}
    {constants : Array Value} {c : Compiler} (hagrees : Agrees symbols site)
    (hbody : site.body = none) (hc : constants.size = site.literals)
    (h : Block.compile program (.start symbols constants) = .ok () c) :
    ∃ f, Wrote (.start symbols constants) site (Block.events program) f c ∧
      c.buffer.code.toList = assemble f.instrs ∧
      f.Sound c.setting site.literals (Event.literals (Block.events program)) 0 0 0 := by
  rcases Program.compile_layout hagrees hbody hc h with ⟨f, hw, hlayout, hwithin, hpool⟩
  have hdrop : Tail.drop = .leave → c.setting.locals ≠ none := nofun
  refine ⟨f, hw, hw.code, ?_⟩
  exact Block.layout_sound program hdrop _ hwithin hlayout hpool (Int.le_refl 0)

/-- What a program compiles to on its own is well-formed. -/
theorem Program.compile_wellFormed (program : Program) {c : Compiler}
    (h : (Block.compile program).run .initial = .ok () c) :
    c.bytecode.WellFormed c.symbols.scope.definitions := by
  have hstart : Block.compile program (.start .initial #[]) = .ok () c := h
  rcases Program.compile_sound Agrees.initial rfl rfl hstart with ⟨f, hw, hcode, hsound⟩
  rcases hsound.code hcode with ⟨hinstrs, hprogram⟩
  have hconstants : c.constants.toList = f.constants := hw.constants
  have hfunction : ∀ (n : Nat) id g, c.constants[n]? = some (Value.function id g) →
      g.Sound c.constants.toList c.symbols.scope.definitions := by
    intro n id g hget
    rw [← Array.getElem?_toList, hconstants] at hget
    exact (hsound.constants n _ hget).2
  exact
    { program := hprogram.wellFormed fun _ => rfl
      functions := fun n id g hget => (hfunction n id g hget).code.wellFormed nofun
      returns := by
        intro n id g hget
        have hg := hfunction n id g hget
        rcases hg.ends with ⟨init, op, hinit, hop⟩
        refine ⟨codeSize init, op, hg.code.has_iff.2 ⟨init, [], hinit, rfl⟩, ?_, hop⟩
        rw [hg.code.size_eq, hinit, codeSize_append]
        rcases hop with rfl | rfl <;> rfl
      params := fun n id g hget => (hfunction n id g hget).params
      once := by
        intro n hn
        have hperm : c.bytecode.references.Perm
            (List.range' 0 (Event.literals (Block.events program))) := by
          have hreferences : c.bytecode.references = f.allReferences := by
            show MonkeyMachine.references c.buffer.code.instrs ++ _ = _
            rw [hinstrs]
            exact congrArg (_ ++ ·.flatMap Value.references) hconstants
          rw [hreferences]
          exact hsound.references
        have hcount : c.constants.size = Event.literals (Block.events program) := by
          rw [← Array.length_toList, hconstants, hsound.length]
        rw [hperm.count_eq]
        refine List.count_eq_one_of_mem List.nodup_range' ?_
        rw [List.mem_range'_1]
        have hlt : n < c.constants.size := hn
        omega }

/-- Two nested functions, a capture and a conditional. -/
theorem Program.compile_wellFormed_of_nested :
    ∃ c, (Block.compile
        [.bind "larger" (.function ["a"] [.expr (.function ["b"]
          [.expr (.cond (.binary (.ident "a") ">" (.ident "b")) [.expr (.ident "a")]
            (some [.expr (.ident "b")]))])]),
        .expr (.call (.ident "larger") [.int 1])]).run .initial = .ok () c ∧
      c.bytecode.WellFormed c.symbols.scope.definitions := by
  refine (Program.exists_of_compiles ?_).imp fun c hc => ⟨hc, Program.compile_wellFormed _ hc⟩
  decide +kernel

end MonkeyMachine
