import MonkeyMachine.Proofs.AppendOnly
import MonkeyMachine.Proofs.RoundTrip

/-!
# The memory of the last instruction

A block that ends in an expression statement ends in a `Pop`, and the compiler takes it back or
turns it into a return where the value is needed. What tells it so is the instruction that a buffer
remembers as its last one. The buffer remembers one more, and only that one: after an instruction is
taken back, a second one could not be.

`Buffer.Remembers` says that the memory is right: it names the last instruction of the decoding. It
is so in every buffer that was `Written` from its start on, and those are all buffers of every
compiler that is `Reached`.

`Block.consults` lists the moments of a compilation at which the memory is consulted, with the
compilers that it goes through. Each of them is on the way (`Watch.Sound`). Where the compilation
succeeds none is missing, and where it is refused none is left out before the last
(`Watch.Complete`). The memory is right at each of them, and what is taken back or replaced there is
the `Pop` of the expression statement that ends the block (`Reached.remembers_last`).
-/

namespace MonkeyMachine

/-! ## Buffers -/

/-- The decoding of the code ends in the instruction. It stands where it was written, and nothing
stands behind it. -/
structure Emitted.IsLast (emitted : Emitted) (code : Code) : Prop where
  line : ∃ operands,
    code.lines.getLast? = some (.instruction emitted.position emitted.opcode operands)
  opcode : code[emitted.position]? = some emitted.opcode.toByte
  finish : emitted.position + emitted.opcode.instructionSize = code.size

theorem Emitted.isLast_of_assemble {code : Code} {init : List Instr} {i : Instr}
    (hvalid : ∀ j ∈ init ++ [i], j.Valid) (hcode : code.toList = assemble (init ++ [i])) :
    IsLast ⟨i.op, codeSize init⟩ code where
  line := by
    refine ⟨i.operands, ?_⟩
    have hlength : (Code.instructionLines 0 (init ++ [i])).length - 1 = init.length := by
      simp [Code.length_instructionLines]
    rw [Code.lines_assemble hvalid hcode, List.getLast?_eq_getElem?, hlength,
      Code.getElem?_instructionLines, Nat.zero_add]
  opcode := by
    have hholds := (Code.Holds.of_assemble hvalid hcode).right
    rw [Nat.zero_add] at hholds
    exact hholds.fetch.1
  finish :=
    calc codeSize init + i.size = codeSize (init ++ [i]) := by simp
      _ = (assemble (init ++ [i])).length := (length_assemble hvalid).symm
      _ = code.size := by rw [← hcode, Array.length_toList]

namespace Buffer

/-- The buffer can be decoded, and what it remembers is the last instruction of its decoding. -/
structure Remembers (b : Buffer) : Prop where
  whole : b.code.Whole
  none_iff : b.last = none ↔ b.code = #[]
  isLast : ∀ emitted, b.last = some emitted → emitted.IsLast b.code

/-- The buffer was written from its start on. -/
def Written (b : Buffer) : Prop := ∃ is, empty.Appended is b

namespace Written

variable {b b' : Buffer} {is : List Instr}

theorem of_empty : empty.Written := ⟨[], .refl _⟩

theorem appended (h : b.Written) (h' : b.Appended is b') : b'.Written := by
  rcases h with ⟨before, h⟩
  exact ⟨before ++ is, h.trans h'⟩

/-- Its instructions are what it decodes to, and it remembers the last one of them. -/
theorem remembers (h : b.Written) : b.Remembers := by
  rcases h with ⟨is, h⟩
  have hcode : b.code.toList = assemble is := h.code
  have hwhole : b.code.Whole := Code.whole_of_encodeAll (encodeAll_eq_ok_iff.2 ⟨h.valid, hcode⟩)
  -- The memory depends on how the list of instructions ends, not on how it begins.
  rcases List.eq_nil_or_concat is with rfl | ⟨init, i, rfl⟩
  · have hlast : b.last = none := h.same rfl
    have hempty : b.code = #[] := Array.toList_eq_nil_iff.1 hcode
    refine ⟨hwhole, by simp [hlast, hempty], ?_⟩
    intro emitted hemitted
    rw [hlast] at hemitted
    cases hemitted
  · rw [List.concat_eq_append] at h hcode
    have hlast : b.last = some ⟨i.op, codeSize init⟩ := by
      rw [h.last init i rfl]
      simp [empty]
    have hisLast := Emitted.isLast_of_assemble h.valid hcode
    have hnonempty : b.code ≠ #[] := by
      have hbyte := hisLast.opcode
      rintro hempty
      rw [hempty] at hbyte
      cases hbyte
    refine ⟨hwhole, by simp [hlast, hnonempty], ?_⟩
    intro emitted hemitted
    rw [hlast] at hemitted
    cases hemitted
    exact hisLast

end Written

end Buffer

/-! ## Compilers -/

namespace Compiler

/-- The current buffer and all buffers around it remember their last instructions. -/
structure Remembers (c : Compiler) : Prop where
  buffer : c.buffer.Remembers
  enclosing : ∀ b ∈ c.enclosing, b.Remembers

/-- The current buffer and all buffers around it were written from their starts on. -/
structure Written (c : Compiler) : Prop where
  buffer : c.buffer.Written
  enclosing : ∀ b ∈ c.enclosing, b.Written

namespace Written

variable {c c' : Compiler} {is : List Instr}

theorem remembers (h : c.Written) : c.Remembers where
  buffer := h.buffer.remembers
  enclosing := fun b hb => (h.enclosing b hb).remembers

theorem opened (h : c.Written) : c.opened.Written where
  buffer := .of_empty
  enclosing := by
    intro b hb
    rcases List.mem_cons.1 hb with rfl | hb
    · exact h.buffer
    · exact h.enclosing b hb

theorem extended (h : c.Written) (hextends : c.Extends is c') : c'.Written where
  buffer := h.buffer.appended hextends.buffer
  enclosing := by
    rw [hextends.enclosing]
    exact h.enclosing

/-- Also where an act has failed, every buffer was written from its start on. -/
theorem left (h : c.Written) (hleaves : c.Leaves c') : c'.Written := by
  induction hleaves with
  | stopped hextends => exact h.extended hextends
  | inside hextends _ ih => exact ih (h.extended hextends).opened

end Written

theorem Reached.written {c : Compiler} (h : c.Reached) : c.Written := by
  induction h with
  | start htop constants => exact ⟨.of_empty, List.forall_mem_nil _⟩
  | @compile c _ program ih => exact ih.left (c.leaves_compile program)

theorem Leaves.trans {c c₁ c' : Compiler} (h : c.Leaves c₁) (h' : c₁.Leaves c') : c.Leaves c' := by
  induction h with
  | stopped h => exact h.leaves h'
  | inside h _ ih => exact .inside h (ih h')

end Compiler

/-! ## Moments -/

/-- What the value of a block is wanted for. -/
inductive Purpose
  | branch
  | body
  deriving DecidableEq

/-- A moment at which the memory is consulted: a block has just been compiled, from `start` on. -/
structure Consult where
  purpose : Purpose
  block : List Stmt
  start : Compiler
  now : Compiler

/-- The moments that an act goes through, depending on where it starts. -/
abbrev Watch := Compiler → List Consult

namespace Watch

def nothing : Watch := fun _ => []

/-- What is seen during an act, and then, if the act succeeds, what is seen from there on. -/
def during {α : Type} (first : Watch) (act : Compile α) (next : Watch) : Watch := fun c =>
  first c ++
    match act c with
    | .ok _ c' => next c'
    | .error _ _ => []

/-- A block whose value is wanted. Behind it the memory is consulted. -/
def closing (purpose : Purpose) (block : List Stmt) (inner : Watch) : Watch := fun c =>
  during inner (Block.compile block) (fun now => [⟨purpose, block, c, now⟩]) c

end Watch

namespace Compile

/-- A conditional as far as its second branch. The result is where the open jump stands. -/
def openConditional (test yes : Compile Unit) : Compile Nat := do
  test
  let jumpToNo ← emitAt .jumpNotTruthy [jumpPlaceholder]
  branch yes
  let jumpToFinish ← emitAt .jump [jumpPlaceholder]
  patch jumpToNo (← position)
  return jumpToFinish

theorem conditional_eq (test yes no : Compile Unit) :
    conditional test yes no = (do
      let jumpToFinish ← openConditional test yes
      no
      patch jumpToFinish (← position)) := by
  simp only [conditional, openConditional, bind_assoc, pure_bind]

/-- A function literal as far as its body. -/
def openFunction (own : Option String) (params : List String) : Compile Unit := do
  enterBody
  defineOwnName own
  defineParams params

end Compile

open Compile

mutual

def Stmt.consults : Stmt → Watch
  | .expr value => Expr.consults none value
  | .bind name value => Expr.consults (some name) value
  | .ret value => Expr.consults none value

def Block.consults : List Stmt → Watch
  | [] => .nothing
  | stmt :: rest => .during (Stmt.consults stmt) (Stmt.compile stmt) (Block.consults rest)

def Expr.consults (own : Option String) : Expr → Watch
  | .ident _ => .nothing
  | .int _ => .nothing
  | .str _ => .nothing
  | .bool _ => .nothing
  | .unary operator operand =>
      -- An operator that is not known is refused before its operand is compiled.
      match unaryOpcode? operator with
      | none => .nothing
      | some _ => Expr.consults none operand
  | .binary left operator right =>
      if operator = "<" then
        .during (Expr.consults none right) (Expr.compile none right) (Expr.consults none left)
      else
        match binaryOpcode? operator with
        | none => .nothing
        | some _ =>
            .during (Expr.consults none left) (Expr.compile none left) (Expr.consults none right)
  | .cond test yes none =>
      .during (Expr.consults none test)
        (do Expr.compile none test; emit .jumpNotTruthy [jumpPlaceholder])
        (.closing .branch yes (Block.consults yes))
  | .cond test yes (some no) =>
      -- The moments as far as the first branch count also where the conditional gets no further.
      .during
        (.during (Expr.consults none test)
          (do Expr.compile none test; emit .jumpNotTruthy [jumpPlaceholder])
          (.closing .branch yes (Block.consults yes)))
        (openConditional (Expr.compile none test) (Block.compile yes))
        (.closing .branch no (Block.consults no))
  | .function params body =>
      .during .nothing (openFunction own params) (.closing .body body (Block.consults body))
  | .call callee args =>
      .during (Expr.consultsList args) (Expr.compileList args) (Expr.consults none callee)
  | .array elements => Expr.consultsList elements
  | .hash pairs => Expr.consultsPairs pairs
  | .index collection key =>
      .during (Expr.consults none collection) (Expr.compile none collection)
        (Expr.consults none key)

def Expr.consultsList : List Expr → Watch
  | [] => .nothing
  | expr :: rest =>
      .during (Expr.consults none expr) (Expr.compile none expr) (Expr.consultsList rest)

def Expr.consultsPairs : List (Expr × Expr) → Watch
  | [] => .nothing
  | (key, value) :: rest =>
      .during
        (.during (Expr.consults none key) (Expr.compile none key) (Expr.consults none value))
        (do Expr.compile none key; Expr.compile none value) (Expr.consultsPairs rest)

end

/-! ### Every moment is reached -/

/-- The moment lies on the way from `c`. A function body has its buffer for itself. -/
structure Consult.Seen (c : Compiler) (p : Consult) : Prop where
  start : c.Leaves p.start
  block : Block.compile p.block p.start = .ok () p.now
  fresh : p.purpose = .body → p.start.buffer = .empty

theorem Consult.Seen.after {c c₁ : Compiler} {p : Consult} (h : p.Seen c₁) (hleaves : c.Leaves c₁) :
    p.Seen c := { h with start := hleaves.trans h.start }

namespace Compile

open Compiler (Grows Settles)

variable {α : Type} {act : Compile α} {c c' : Compiler}

theorem Leads.grows (h : Leads Grows act) {a : α} (hact : act c = .ok a c') : c.Grows c' := by
  have hc := h c
  rw [hact] at hc
  exact hc

theorem Leads.leaves (h : Leads Grows act) {a : α} (hact : act c = .ok a c') : c.Leaves c' := by
  rcases h.grows hact with ⟨is, hextends⟩
  exact .stopped hextends

/-- If the second branch failed at once, the conditional would stop right where the branch begins. -/
theorem openConditional_leaves {test yes : Compile Unit} (htest : Leads Grows test)
    (hyes : Leads Settles yes) {n : Nat} (h : openConditional test yes c = .ok n c') :
    c.Leaves c' := by
  -- Any error will do.
  have hc := Leads.conditional htest hyes (.throw .tooManyLocals) c
  rw [conditional_eq, act_bind_of_ok h] at hc
  exact hc

theorem defineOwnName_buffer {own : Option String} (h : defineOwnName own c = .ok () c') :
    c'.buffer = c.buffer := by
  cases own <;> cases h <;> rfl

theorem defineParams_buffer {params : List String} (h : defineParams params c = .ok () c') :
    c'.buffer = c.buffer := by
  induction params generalizing c with
  | nil =>
      cases h
      rfl
  | cons name rest ih =>
      rcases act_bind_eq_ok h with ⟨symbol, c₁, hdefine, hrest⟩
      have hbuffer : c₁.buffer = c.buffer := by
        cases hdefine
        rfl
      by_cases hlt : symbol.index < maxLocals
      · rw [if_pos hlt] at hrest
        exact (ih hrest).trans hbuffer
      · rw [if_neg hlt] at hrest
        cases hrest

theorem openFunction_leaves {own : Option String} {params : List String}
    (h : openFunction own params c = .ok () c') : c.Leaves c' ∧ c'.buffer = .empty := by
  have hnames : (do defineOwnName own; defineParams params : Compile Unit) c.opened = .ok () c' := h
  constructor
  · have hleads : Leads Grows (do defineOwnName own; defineParams params) :=
      (Leads.defineOwnName own).bind fun _ => .defineParams params
    exact .inside (.refl c) (hleads.leaves hnames)
  · rcases act_bind_eq_ok hnames with ⟨_, c₂, hown, hparams⟩
    calc c'.buffer = c₂.buffer := defineParams_buffer hparams
      _ = c.opened.buffer := defineOwnName_buffer hown
      _ = .empty := rfl

end Compile

namespace Watch

/-- All that is seen lies on the way. -/
def Sound (w : Watch) : Prop := ∀ c, ∀ p ∈ w c, p.Seen c

section

variable {α : Type} {first next inner : Watch} {act : Compile α} {c : Compiler}

theorem seen_during (hfirst : first.Sound)
    (hnext : ∀ a c', act c = .ok a c' → ∀ p ∈ next c', p.Seen c) :
    ∀ p ∈ first.during act next c, p.Seen c := by
  intro p hp
  rcases List.mem_append.1 hp with hp | hp
  · exact hfirst c p hp
  · cases hact : act c with
    | ok a c' =>
        rw [hact] at hp
        exact hnext a c' hact p hp
    | error e c' =>
        rw [hact] at hp
        cases hp

theorem seen_closing (hinner : inner.Sound) {purpose : Purpose} {block : List Stmt}
    (hfresh : purpose = .body → c.buffer = .empty) :
    ∀ p ∈ inner.closing purpose block c, p.Seen c := by
  refine seen_during hinner fun _ c' hblock p hp => ?_
  cases List.mem_singleton.1 hp
  exact ⟨.stopped (.refl c), hblock, hfresh⟩

namespace Sound

theorem nothing : Sound .nothing := fun _ => List.forall_mem_nil _

theorem during (hfirst : first.Sound) (hact : Leads Compiler.Grows act) (hnext : next.Sound) :
    (first.during act next).Sound := by
  intro c
  exact seen_during hfirst fun a c' hok p hp => (hnext c' p hp).after (hact.leaves hok)

theorem branch (hinner : inner.Sound) (block : List Stmt) :
    (inner.closing .branch block).Sound := by
  intro c
  refine seen_closing hinner ?_
  intro hbody
  cases hbody

theorem conditional {test yes : Compile Unit} (hfirst : first.Sound)
    (htest : Leads Compiler.Grows test) (hyes : Leads Compiler.Settles yes) (hnext : next.Sound) :
    (first.during (openConditional test yes) next).Sound := by
  intro c
  refine seen_during hfirst fun _ c' hopen p hp => ?_
  exact (hnext c' p hp).after (openConditional_leaves htest hyes hopen)

theorem function (own : Option String) (params : List String) (hinner : inner.Sound)
    (block : List Stmt) :
    (Watch.nothing.during (openFunction own params) (inner.closing .body block)).Sound := by
  intro c
  refine seen_during nothing fun _ c' hopen p hp => ?_
  rcases openFunction_leaves hopen with ⟨hleaves, hempty⟩
  exact (seen_closing hinner (fun _ => hempty) p hp).after hleaves

end Sound

end

end Watch

open Watch (Sound)

mutual

theorem Stmt.consults_sound (stmt : Stmt) : Sound (Stmt.consults stmt) := by
  cases stmt with
  | expr value => exact Expr.consults_sound none value
  | bind name value => exact Expr.consults_sound (some name) value
  | ret value => exact Expr.consults_sound none value

theorem Block.consults_sound (block : List Stmt) : Sound (Block.consults block) := by
  cases block with
  | nil => exact .nothing
  | cons stmt rest =>
      have hstmt := (Stmt.compile_leads stmt).mono fun _ _ => Compiler.Ends.grows
      exact (Stmt.consults_sound stmt).during hstmt (Block.consults_sound rest)

theorem Expr.consults_sound (own : Option String) (expr : Expr) :
    Sound (Expr.consults own expr) := by
  cases expr with
  | ident name => exact .nothing
  | int n => exact .nothing
  | str s => exact .nothing
  | bool b => exact .nothing
  | unary operator operand =>
      unfold Expr.consults
      cases unaryOpcode? operator with
      | none => exact .nothing
      | some op => exact Expr.consults_sound none operand
  | binary left operator right =>
      have hleft := Expr.consults_sound none left
      have hright := Expr.consults_sound none right
      unfold Expr.consults
      by_cases hless : operator = "<"
      · rw [if_pos hless]
        exact hright.during (Expr.compile_leads none right) hleft
      · rw [if_neg hless]
        cases binaryOpcode? operator with
        | none => exact .nothing
        | some op => exact hleft.during (Expr.compile_leads none left) hright
  | cond test yes no =>
      have htest := Expr.compile_leads none test
      have hyes := (Expr.consults_sound none test).during
        (htest.bind fun _ => .emits .jumpNotTruthy [jumpPlaceholder])
        ((Block.consults_sound yes).branch yes)
      cases no with
      | none => exact hyes
      | some no =>
          exact hyes.conditional htest (Block.compile_leads yes) ((Block.consults_sound no).branch no)
  | function params body => exact .function own params (Block.consults_sound body) body
  | call callee args =>
      exact (Expr.consultsList_sound args).during (Expr.compileList_leads args)
        (Expr.consults_sound none callee)
  | array elements => exact Expr.consultsList_sound elements
  | hash pairs => exact Expr.consultsPairs_sound pairs
  | index collection key =>
      exact (Expr.consults_sound none collection).during (Expr.compile_leads none collection)
        (Expr.consults_sound none key)

theorem Expr.consultsList_sound (exprs : List Expr) : Sound (Expr.consultsList exprs) := by
  cases exprs with
  | nil => exact .nothing
  | cons expr rest =>
      exact (Expr.consults_sound none expr).during (Expr.compile_leads none expr)
        (Expr.consultsList_sound rest)

theorem Expr.consultsPairs_sound (pairs : List (Expr × Expr)) :
    Sound (Expr.consultsPairs pairs) := by
  cases pairs with
  | nil => exact .nothing
  | cons pair rest =>
      obtain ⟨key, value⟩ := pair
      have hkey := Expr.compile_leads none key
      have hpair := (Expr.consults_sound none key).during hkey (Expr.consults_sound none value)
      exact hpair.during (hkey.bind fun _ => Expr.compile_leads none value)
        (Expr.consultsPairs_sound rest)

end

/-! ### No moment is missed -/

mutual

/-- The blocks of a statement whose values are wanted, in the order in which they end. -/
def Stmt.wanted : Stmt → List (Purpose × List Stmt)
  | .expr value => Expr.wanted value
  | .bind _ value => Expr.wanted value
  | .ret value => Expr.wanted value

def Block.wanted : List Stmt → List (Purpose × List Stmt)
  | [] => []
  | stmt :: rest => Stmt.wanted stmt ++ Block.wanted rest

def Expr.wanted : Expr → List (Purpose × List Stmt)
  | .ident _ => []
  | .int _ => []
  | .str _ => []
  | .bool _ => []
  | .unary _ operand => Expr.wanted operand
  | .binary left operator right =>
      if operator = "<" then Expr.wanted right ++ Expr.wanted left
      else Expr.wanted left ++ Expr.wanted right
  | .cond test yes none => Expr.wanted test ++ (Block.wanted yes ++ [(.branch, yes)])
  | .cond test yes (some no) =>
      Expr.wanted test ++ (Block.wanted yes ++ [(.branch, yes)]) ++
        (Block.wanted no ++ [(.branch, no)])
  | .function _ body => Block.wanted body ++ [(.body, body)]
  | .call callee args => Expr.wantedList args ++ Expr.wanted callee
  | .array elements => Expr.wantedList elements
  | .hash pairs => Expr.wantedPairs pairs
  | .index collection key => Expr.wanted collection ++ Expr.wanted key

def Expr.wantedList : List Expr → List (Purpose × List Stmt)
  | [] => []
  | expr :: rest => Expr.wanted expr ++ Expr.wantedList rest

def Expr.wantedPairs : List (Expr × Expr) → List (Purpose × List Stmt)
  | [] => []
  | (key, value) :: rest => (Expr.wanted key ++ Expr.wanted value) ++ Expr.wantedPairs rest

end

def Consult.subject (p : Consult) : Purpose × List Stmt := (p.purpose, p.block)

namespace Watch

/-- The moments seen are those of the given blocks: all of them where the act succeeds, and where it
fails as many as it got to. -/
structure Complete (w : Watch) (act : Compile Unit) (blocks : List (Purpose × List Stmt)) :
    Prop where
  all : ∀ c c', act c = .ok () c' → (w c).map Consult.subject = blocks
  along : ∀ c, (w c).map Consult.subject <+: blocks

section

variable {first next inner w : Watch} {act rest block test yes no : Compile Unit} {c c' : Compiler}
  {xs ys zs : List (Purpose × List Stmt)}

theorem map_during (hfirst : (first c).map Consult.subject = xs) {α : Type} {act : Compile α} {a : α}
    (hact : act c = .ok a c') (hnext : (next c').map Consult.subject = ys) :
    (first.during act next c).map Consult.subject = xs ++ ys := by
  simp only [Watch.during, hact, List.map_append, hfirst, hnext]

/-- What comes behind the act is seen only if all that comes before it has been. -/
theorem map_during_along (hfirst : (first c).map Consult.subject <+: xs) {α : Type}
    {act : Compile α} (hnext : ∀ a c', act c = .ok a c' →
      (first c).map Consult.subject = xs ∧ (next c').map Consult.subject <+: ys) :
    (first.during act next c).map Consult.subject <+: xs ++ ys := by
  cases hact : act c with
  | ok a c' =>
      rcases hnext a c' hact with ⟨hall, hsome⟩
      rw [map_during hall hact rfl]
      exact (List.prefix_append_right_inj xs).2 hsome
  | error e c' =>
      simp only [Watch.during, hact, List.append_nil]
      exact hfirst.trans (List.prefix_append xs ys)

namespace Complete

theorem nothing (act : Compile Unit) : Complete .nothing act [] where
  all := fun _ _ _ => rfl
  along := fun _ => List.nil_prefix

/-- What is refused at once is refused before the first moment. -/
theorem throw (e : CompileError) : Complete .nothing (MonadExcept.throw e : Compile Unit) xs where
  all := by
    intro c c' h
    cases h
  along := fun _ => List.nil_prefix

theorem during (hfirst : first.Complete act xs) (hnext : next.Complete rest ys) :
    (first.during act next).Complete (do act; rest) (xs ++ ys) where
  all := by
    intro c c' h
    rcases act_bind_eq_ok h with ⟨_, c₁, hact, hrest⟩
    exact map_during (hfirst.all c c₁ hact) hact (hnext.all c₁ c' hrest)
  along := by
    intro c
    refine map_during_along (hfirst.along c) fun _ c₁ hact => ?_
    exact ⟨hfirst.all c c₁ hact, hnext.along c₁⟩

theorem before (h : w.Complete act xs) (rest : Compile Unit) : w.Complete (do act; rest) xs where
  all := by
    intro c c' hboth
    rcases act_bind_eq_ok hboth with ⟨_, c₁, hact, -⟩
    exact h.all c c₁ hact
  along := h.along

theorem closing (purpose : Purpose) {block : List Stmt} (h : inner.Complete (Block.compile block) xs) :
    (inner.closing purpose block).Complete (Block.compile block) (xs ++ [(purpose, block)]) where
  all := by
    intro c c' hblock
    exact map_during (h.all c c' hblock) hblock rfl
  along := by
    intro c
    refine map_during_along (h.along c) fun _ c₁ hblock => ?_
    exact ⟨h.all c c₁ hblock, List.prefix_refl _⟩

theorem branch (h : w.Complete block xs) : w.Complete (branch block) xs where
  all := by
    intro c c' hbranch
    rcases act_bind_eq_ok hbranch with ⟨start, c₁, hstart, hrest⟩
    cases hstart
    rcases act_bind_eq_ok hrest with ⟨_, c₂, hblock, -⟩
    exact h.all c c₂ hblock
  along := h.along

/-- The first branch of a conditional that gets as far as its second one. -/
theorem openConditional (hfirst : first.Complete test xs) (hyes : next.Complete yes ys) {n : Nat}
    (h : openConditional test yes c = .ok n c') :
    (first.during (do test; emit .jumpNotTruthy [jumpPlaceholder]) next c).map Consult.subject =
      xs ++ ys := by
  rcases act_bind_eq_ok h with ⟨_, c₁, htest, hjump⟩
  rcases act_bind_eq_ok hjump with ⟨position, c₂, hemitAt, hbranch⟩
  rcases act_bind_eq_ok hbranch with ⟨_, c₃, hyesOk, -⟩
  have hemit : emit .jumpNotTruthy [jumpPlaceholder] c₁ = .ok () c₂ := act_bind_of_ok hemitAt
  exact map_during (hfirst.all c c₁ htest) ((act_bind_of_ok htest).trans hemit)
    (hyes.branch.all c₂ c₃ hyesOk)

theorem conditional (hfirst : first.Complete test xs) (hyes : next.Complete yes ys) :
    (first.during (do test; emit .jumpNotTruthy [jumpPlaceholder]) next).Complete
      (conditional test yes no) (xs ++ ys) where
  all := by
    intro c c' h
    rw [conditional_eq] at h
    rcases act_bind_eq_ok h with ⟨n, c₁, hopen, -⟩
    exact hfirst.openConditional hyes hopen
  along := by
    intro c
    refine map_during_along (hfirst.along c) fun _ c₂ hjump => ?_
    rcases act_bind_eq_ok hjump with ⟨_, c₁, htest, -⟩
    exact ⟨hfirst.all c c₁ htest, hyes.along c₂⟩

theorem conditional_else {last : Watch} (hfirst : first.Complete test xs)
    (hyes : next.Complete yes ys) (hno : last.Complete no zs) :
    ((first.during (do test; emit .jumpNotTruthy [jumpPlaceholder]) next).during
      (Compile.openConditional test yes) last).Complete (Compile.conditional test yes no)
        (xs ++ ys ++ zs) where
  all := by
    intro c c' h
    rw [conditional_eq] at h
    rcases act_bind_eq_ok h with ⟨n, c₁, hopen, hrest⟩
    rcases act_bind_eq_ok hrest with ⟨_, c₂, hnoOk, -⟩
    exact map_during (hfirst.openConditional hyes hopen) hopen (hno.all c₁ c₂ hnoOk)
  along := by
    intro c
    have hopened : Complete _ (Compile.conditional test yes no) _ := hfirst.conditional hyes
    refine map_during_along (hopened.along c) fun _ c₁ hopen => ?_
    exact ⟨hfirst.openConditional hyes hopen, hno.along c₁⟩

theorem function (own : Option String) (params : List String) (h : w.Complete block xs) :
    (Watch.nothing.during (openFunction own params) w).Complete
      (functionLiteral own params block) xs where
  all := by
    intro c c' hliteral
    have hsplit : functionLiteral own params block =
        (openFunction own params >>= fun _ => block >>= fun _ => do
          finishBody; closeBody params.length) := by
      rw [functionLiteral_eq]
      simp only [openFunction, bind_assoc]
    rw [hsplit] at hliteral
    rcases act_bind_eq_ok hliteral with ⟨_, c₁, hopen, hrest⟩
    rcases act_bind_eq_ok hrest with ⟨_, c₂, hblock, -⟩
    exact map_during rfl hopen (h.all c₁ c₂ hblock)
  along := by
    intro c
    have hnothing : (Watch.nothing c).map Consult.subject <+: [] := List.prefix_refl _
    exact map_during_along hnothing fun _ c₁ _ => ⟨rfl, h.along c₁⟩

end Complete

end

end Watch

open Watch (Complete)

mutual

theorem Stmt.consults_complete (stmt : Stmt) :
    Complete (Stmt.consults stmt) (Stmt.compile stmt) (Stmt.wanted stmt) := by
  cases stmt with
  | expr value => exact (Expr.consults_complete none value).before _
  | bind name value => exact (Expr.consults_complete (some name) value).before _
  | ret value => exact (Expr.consults_complete none value).before _

theorem Block.consults_complete (block : List Stmt) :
    Complete (Block.consults block) (Block.compile block) (Block.wanted block) := by
  cases block with
  | nil => exact .nothing _
  | cons stmt rest => exact (Stmt.consults_complete stmt).during (Block.consults_complete rest)

theorem Expr.consults_complete (own : Option String) (expr : Expr) :
    Complete (Expr.consults own expr) (Expr.compile own expr) (Expr.wanted expr) := by
  cases expr with
  | ident name => exact .nothing _
  | int n => exact .nothing _
  | str s => exact .nothing _
  | bool b => exact .nothing _
  | unary operator operand =>
      have hoperand := Expr.consults_complete none operand
      unfold Expr.compile Expr.consults Expr.wanted
      cases unaryOpcode? operator with
      | none => exact .throw _
      | some op => exact hoperand.before _
  | binary left operator right =>
      have hleft := Expr.consults_complete none left
      have hright := Expr.consults_complete none right
      unfold Expr.compile Expr.consults Expr.wanted
      by_cases hless : operator = "<"
      · rw [if_pos hless, if_pos hless, if_pos hless]
        exact hright.during (hleft.before _)
      · rw [if_neg hless, if_neg hless, if_neg hless]
        cases binaryOpcode? operator with
        | none => exact .throw _
        | some op => exact hleft.during (hright.before _)
  | cond test yes no =>
      have htest := Expr.consults_complete none test
      have hyes := (Block.consults_complete yes).closing .branch
      cases no with
      | none => exact htest.conditional hyes
      | some no =>
          exact htest.conditional_else hyes ((Block.consults_complete no).closing .branch).branch
  | function params body =>
      exact .function own params ((Block.consults_complete body).closing .body)
  | call callee args =>
      exact (Expr.consultsList_complete args).during ((Expr.consults_complete none callee).before _)
  | array elements => exact (Expr.consultsList_complete elements).before _
  | hash pairs => exact (Expr.consultsPairs_complete pairs).before _
  | index collection key =>
      exact (Expr.consults_complete none collection).during
        ((Expr.consults_complete none key).before _)

theorem Expr.consultsList_complete (exprs : List Expr) :
    Complete (Expr.consultsList exprs) (Expr.compileList exprs) (Expr.wantedList exprs) := by
  cases exprs with
  | nil => exact .nothing _
  | cons expr rest =>
      exact (Expr.consults_complete none expr).during (Expr.consultsList_complete rest)

theorem Expr.consultsPairs_complete (pairs : List (Expr × Expr)) :
    Complete (Expr.consultsPairs pairs) (Expr.compilePairs pairs) (Expr.wantedPairs pairs) := by
  cases pairs with
  | nil => exact .nothing _
  | cons pair rest =>
      obtain ⟨key, value⟩ := pair
      have hpair := (Expr.consults_complete none key).during (Expr.consults_complete none value)
      have hall := hpair.during (Expr.consultsPairs_complete rest)
      simp only [bind_assoc] at hall
      exact hall

end

/-! ## The `Pop` of the block -/

theorem Stmt.lastIs_pop_of_ending {stmt : Stmt} {c c' : Compiler}
    (h : Stmt.compile stmt c = .ok () c') (hending : stmt.ending ≠ .value) :
    c'.buffer.lastIs .pop = false := by
  rcases Stmt.compile_last h with ⟨before, i, rfl, hleft⟩
  rw [lastIs_written]
  cases stmt with
  | expr value => exact absurd rfl hending
  | bind name value =>
      rcases hleft with hop | hop
      · rw [hop]
        rfl
      · rw [hop]
        rfl
  | ret value =>
      have hreturn : i = ⟨.returnValue, []⟩ := hleft
      rw [hreturn]
      rfl

theorem Compile.branch_of_ok {block : Compile Unit} {c c' : Compiler} (h : block c = .ok () c') :
    branch block c =
      if c'.buffer.lastIs .pop && decide (c.buffer.code.size < c'.buffer.code.size) then
        .ok () { c' with buffer := c'.buffer.removeLast }
      else .ok () (written c' ⟨.pushNull, []⟩) := by
  rw [branch_eq, act_bind_of_ok h, endBranch_eq]

namespace Consult

/-- The last statement of the block is an expression. -/
def EndsInValue (p : Consult) : Prop := ∃ init value, p.block = init ++ [.expr value]

/-- The last instruction is the `Pop` of the expression statement that ends the block. Before it the
compiler was `before`, just behind the code of the expression. -/
def Pops (p : Consult) (before : Compiler) : Prop :=
  ∃ init value, p.block = init ++ [.expr value] ∧
    (do Block.compile init; Expr.compile none value : Compile Unit) p.start = .ok () before ∧
    p.now = written before ⟨.pop, []⟩

/-- What a branch makes of the moment: the `Pop` of its last expression statement is taken back, and
the code is as it was before it. No other instruction ever is. -/
def ClosesBranch (p : Consult) : Prop :=
  (∃ before, p.Pops before ∧
      branch (Block.compile p.block) p.start =
        .ok () { p.now with buffer := p.now.buffer.removeLast } ∧
      p.now.buffer.removeLast.code = before.buffer.code ∧
      Compiler.Remembers { p.now with buffer := p.now.buffer.removeLast }) ∨
    (¬p.EndsInValue ∧
      branch (Block.compile p.block) p.start = .ok () (written p.now ⟨.pushNull, []⟩))

/-- What a function body makes of the moment: the `Pop` of its last expression statement becomes a
return. No other instruction ever is replaced. The memory is consulted once more behind this, to see
whether the body ends in a return, and it is still right. -/
def ClosesBody (p : Consult) : Prop :=
  (∃ before, p.Pops before ∧
      finishBody p.now = .ok () { p.now with buffer := p.now.buffer.replaceLast .returnValue } ∧
      (p.now.buffer.replaceLast .returnValue).code.toList =
        before.buffer.code.toList ++ [Opcode.returnValue.toByte] ∧
      Compiler.Remembers { p.now with buffer := p.now.buffer.replaceLast .returnValue }) ∨
    (¬p.EndsInValue ∧
      (finishBody p.now = .ok () p.now ∨
        finishBody p.now = .ok () (written p.now ⟨.returnNull, []⟩)))

variable {p : Consult} {before : Compiler}

theorem pops_or_not_endsInValue (h : Block.compile p.block p.start = .ok () p.now) :
    (∃ before, p.Pops before) ∨
      (¬p.EndsInValue ∧ (p.now = p.start ∨ p.now.buffer.lastIs .pop = false)) := by
  obtain ⟨purpose, block, start, now⟩ := p
  rcases List.eq_nil_or_concat block with rfl | ⟨init, stmt, rfl⟩
  · cases h
    refine .inr ⟨?_, .inl rfl⟩
    rintro ⟨init, value, hends⟩
    simp at hends
  rw [List.concat_eq_append] at h ⊢
  rw [Block.compile_append] at h
  rcases act_bind_eq_ok h with ⟨_, c₁, hinit, hlast⟩
  rcases act_bind_eq_ok hlast with ⟨_, c₂, hstmt, hnow⟩
  cases hnow
  -- The last statement decides: every statement ends in an instruction of its own.
  by_cases hending : stmt.ending = .value
  · cases stmt with
    | expr value =>
        rcases act_bind_eq_ok hstmt with ⟨_, before, hvalue, hpop⟩
        exact .inl ⟨before, init, value, rfl, (act_bind_of_ok hinit).trans hvalue, emit_eq_ok hpop⟩
    | bind name value => cases hending
    | ret value => cases hending
  · refine .inr ⟨?_, .inr (Stmt.lastIs_pop_of_ending hstmt hending)⟩
    rintro ⟨init', value, hends⟩
    rcases List.append_inj' hends rfl with ⟨-, hlast⟩
    cases hlast
    exact hending rfl

namespace Pops

theorem grows (h : p.Pops before) : p.start.Grows before := by
  rcases h with ⟨init, value, -, hbefore, -⟩
  have hinit := (Block.compile_leads init).mono fun _ _ => Compiler.Settles.grows
  exact (hinit.bind fun _ => Expr.compile_leads none value).grows hbefore

theorem now (h : p.Pops before) : p.now = written before ⟨.pop, []⟩ := by
  rcases h with ⟨init, value, -, -, hnow⟩
  exact hnow

theorem lastIs (h : p.Pops before) : p.now.buffer.lastIs .pop = true := by
  rw [h.now]
  rfl

/-- The block wrote at least its `Pop`. -/
theorem size_lt (h : p.Pops before) : p.start.buffer.code.size < p.now.buffer.code.size := by
  rcases h.grows with ⟨is, hextends⟩
  have hpop : (Instr.mk .pop []).Valid := .nil
  rw [h.now, (hextends.written hpop).buffer.size, codeSize_append]
  have hpos := (Instr.mk .pop []).size_pos
  simp only [codeSize_cons, codeSize_nil]
  omega

theorem written (h : p.Pops before) (hstart : p.start.Written) : before.Written := by
  rcases h.grows with ⟨is, hextends⟩
  exact hstart.extended hextends

/-- Without the `Pop` the memory is that of the code before it. -/
theorem written_removeLast (h : p.Pops before) (hstart : p.start.Written) :
    Compiler.Written { p.now with buffer := p.now.buffer.removeLast } := by
  have hbefore := h.written hstart
  rcases hbefore.buffer with ⟨is, happended⟩
  rw [h.now]
  -- `previous` is stale now. It is not read again before the next instruction is written.
  exact ⟨⟨is, happended.removeLast _⟩, hbefore.enclosing⟩

theorem written_replaceLast (h : p.Pops before) (hstart : p.start.Written) :
    Compiler.Written { p.now with buffer := p.now.buffer.replaceLast .returnValue } := by
  have hbefore := h.written hstart
  have hpop : (Instr.mk .pop []).Valid := .nil
  rcases hbefore.buffer with ⟨is, happended⟩
  rw [h.now]
  exact ⟨⟨_, (happended.append hpop).replaceLast rfl rfl⟩, hbefore.enclosing⟩

end Pops

theorem closesBranch (h : Block.compile p.block p.start = .ok () p.now)
    (hstart : p.start.Written) : p.ClosesBranch := by
  rcases pops_or_not_endsInValue h with ⟨before, hpops⟩ | ⟨hnot, hlast⟩
  · refine .inl ⟨before, hpops, ?_, ?_, (hpops.written_removeLast hstart).remembers⟩
    · rw [branch_of_ok h, hpops.lastIs, if_pos]
      simpa using hpops.size_lt
    · rw [hpops.now]
      exact Array.toList_inj.1 (removeLast_written before _)
  · refine .inr ⟨hnot, ?_⟩
    rw [branch_of_ok h, if_neg]
    rcases hlast with hsame | hlast
    -- An empty block. The instruction before it may be a `Pop`, but nothing was written since.
    · rw [hsame]
      simp
    · rw [hlast]
      simp

theorem closesBody (h : Block.compile p.block p.start = .ok () p.now)
    (hstart : p.start.Written) (hfresh : p.start.buffer = .empty) : p.ClosesBody := by
  rcases pops_or_not_endsInValue h with ⟨before, hpops⟩ | ⟨hnot, hlast⟩
  · refine .inl ⟨before, hpops, ?_, ?_, (hpops.written_replaceLast hstart).remembers⟩
    · rw [finishBody_eq, if_pos hpops.lastIs]
    · rw [hpops.now]
      exact replaceLast_written before rfl
  · refine .inr ⟨hnot, ?_⟩
    have hpop : p.now.buffer.lastIs .pop = false := by
      rcases hlast with hsame | hlast
      -- An empty body. No size is compared here, but there is no instruction before it.
      · rw [hsame, hfresh]
        rfl
      · exact hlast
    rw [finishBody_eq, hpop]
    cases p.now.buffer.lastIs .returnValue with
    | true => exact .inl rfl
    | false => exact .inr rfl

end Consult

namespace Compiler

/-- In every compiler that is reached, each buffer remembers its last instruction. So it does at each
moment of the next compilation, whether that succeeds or fails, at which a block has been compiled
whose value is wanted. What is taken back or replaced then is the `Pop` of the expression statement
that ends the block. A compilation that succeeds has such a moment for each branch and each body.
One that is refused has them in the same order, as far as it gets. -/
theorem Reached.remembers_last {c : Compiler} (h : c.Reached) (program : Program) :
    c.Remembers ∧
      (∀ p ∈ Block.consults program c,
        p.now.Remembers ∧ (Block.compile p.block).run p.start = .ok () p.now ∧
          (p.purpose = .branch → p.ClosesBranch) ∧ (p.purpose = .body → p.ClosesBody)) ∧
      (∀ c', (Block.compile program).run c = .ok () c' →
        (Block.consults program c).map Consult.subject = Block.wanted program) ∧
      (Block.consults program c).map Consult.subject <+: Block.wanted program := by
  have hcomplete := Block.consults_complete program
  refine ⟨h.written.remembers, ?_, hcomplete.all c, hcomplete.along c⟩
  intro p hp
  have hseen := Block.consults_sound program c p hp
  have hstart := h.written.left hseen.start
  have hblock := (Block.compile_leads p.block).mono fun _ _ => Settles.grows
  rcases hblock.grows hseen.block with ⟨is, hextends⟩
  exact ⟨(hstart.extended hextends).remembers, hseen.block,
    fun _ => Consult.closesBranch hseen.block hstart,
    fun hbody => Consult.closesBody hseen.block hstart (hseen.fresh hbody)⟩

/-- The first program is refused inside of a function, which stays open. The others are compiled
there. Their conditionals end blocks of each other and one branch is empty. One of the two programs is
refused at its end, behind all its moments. -/
theorem Reached.remembers_last_of_nested_conditionals :
    ∃ (c : Compiler) (refused accepted : Program),
      refused = [.expr (.function ["a"] [.expr (.ident "a"), .expr (.ident "missing")])] ∧
      accepted =
        [.expr (.function [] [.expr (.cond (.bool true)
          [.expr (.cond (.bool false) [.expr (.int 1)] (some []))] none)])] ∧
      c = finalState ((Block.compile refused).run .initial) ∧ c.Reached ∧
      c.enclosing.length = 1 ∧ c.Remembers ∧
      Program.compiles c (accepted ++ refused) = false ∧
      (Block.consults (accepted ++ refused) c).map (·.purpose) =
        [.branch, .branch, .branch, .body] ∧
      (∀ p ∈ Block.consults (accepted ++ refused) c,
        p.now.Remembers ∧ (Block.compile p.block).run p.start = .ok () p.now ∧
          (p.purpose = .branch → p.ClosesBranch) ∧ (p.purpose = .body → p.ClosesBody)) ∧
      (Block.consults (accepted ++ refused) c).map Consult.subject <+:
        Block.wanted (accepted ++ refused) ∧
      ∃ c', (Block.compile accepted).run c = .ok () c' ∧
        (Block.consults accepted c).map Consult.subject = Block.wanted accepted := by
  have h : Reached (finalState ((Block.compile [.expr (.function ["a"]
      [.expr (.ident "a"), .expr (.ident "missing")])]).run .initial)) :=
    (Reached.start (by decide) #[]).compile _
  have haccepted := h.remembers_last [.expr (.function [] [.expr (.cond (.bool true)
    [.expr (.cond (.bool false) [.expr (.int 1)] (some []))] none)])]
  refine ⟨_, _, _, rfl, rfl, rfl, h, by decide +kernel, haccepted.1, by decide +kernel,
    by decide +kernel, (h.remembers_last _).2.1, (h.remembers_last _).2.2.2, ?_⟩
  refine (Program.exists_of_compiles ?_).imp fun c' hok => ⟨hok, haccepted.2.2.1 c' hok⟩
  decide +kernel

end Compiler

end MonkeyMachine
