import MonkeyMachine.Proofs.CodeSoundness

/-!
# Induction on layouts

A layout tells the code of a construct for every position where it may start. Most code is the same
everywhere: what loads a name, a literal or an operation neither jumps nor assigns a global. Apart
from such plain code there are bindings, sequences and conditionals. A property of layouts that is
closed under these, `LayoutClosed`, holds of all of them: `Block.layout_induction` and its companions.

Function literals are plain. Their bodies are code of their own and start at position zero.
-/

namespace MonkeyMachine

/-! ## Plain code -/

/-- The instruction neither jumps nor assigns a global. -/
def Instr.Plain (i : Instr) : Prop := i.op ∉ [Opcode.jump, .jumpNotTruthy, .setGlobal]

theorem Fragment.emit_plain {op : Opcode} {operands : List Nat} {f : Fragment}
    (h : Fragment.emit op operands = .ok f) (hop : (Instr.mk op operands).Plain) :
    ∀ i ∈ f.instrs, i.Plain := by
  rcases Fragment.emit_eq_ok_iff.1 h with ⟨-, rfl⟩
  simpa using hop

theorem Place.load_plain {place : Place} {f : Fragment} (h : place.load = .ok f) :
    ∀ i ∈ f.instrs, i.Plain := by
  cases place with
  | global slot | cell index | captured index | self | builtin b =>
      unfold Place.load at h
      exact Fragment.emit_plain h (by simp [Instr.Plain])

theorem Site.load_plain {site : Site} {name : String} {f : Fragment}
    (h : site.load name = .ok f) : ∀ i ∈ f.instrs, i.Plain := by
  unfold Site.load at h
  cases hplace : site.place? name with
  | none =>
      rw [hplace] at h
      cases h
  | some place =>
      rw [hplace] at h
      exact Place.load_plain h

theorem Site.loadAll_plain {site : Site} {names : List String} {f : Fragment}
    (h : site.loadAll names = .ok f) : ∀ i ∈ f.instrs, i.Plain := by
  induction names generalizing f with
  | nil =>
      cases h
      simp
  | cons name rest ih =>
      unfold Site.loadAll at h
      rcases Fragment.seq_eq_ok_iff.1 h with ⟨a, ha, b, hb, rfl⟩
      intro i hi
      rcases List.mem_append.1 hi with hi | hi
      · exact Site.load_plain ha i hi
      · exact ih hb i hi

theorem Fragment.literal_plain {site : Site} {v : Value} {f : Fragment}
    (h : Fragment.literal site v = .ok f) : ∀ i ∈ f.instrs, i.Plain := by
  unfold Fragment.literal at h
  cases hemit : Fragment.emit .constant [site.literals] with
  | error e =>
      rw [hemit] at h
      cases h
  | ok push =>
      rw [hemit] at h
      cases h
      have hplain := Fragment.emit_plain hemit (by simp [Instr.Plain])
      exact hplain

theorem Fragment.make_plain {index captures : Nat} {f : Fragment}
    (h : Fragment.make index captures = .ok f) : ∀ i ∈ f.instrs, i.Plain := by
  unfold Fragment.make at h
  split at h
  · exact Fragment.emit_plain h (by simp [Instr.Plain])
  · exact Fragment.emit_plain h (by simp [Instr.Plain])

theorem Fragment.functionLiteral_plain {site : Site} {own : Option String} {params : List String}
    {events : List Event} {body : Except CompileError Fragment} {f : Fragment}
    (h : Fragment.functionLiteral site own params events body = .ok f) :
    ∀ i ∈ f.instrs, i.Plain := by
  rcases Fragment.functionLiteral_eq_ok h with ⟨b, loads, push, -, -, hloads, hpush, rfl⟩
  intro i hi
  rcases List.mem_append.1 hi with hi | hi
  · exact Site.loadAll_plain hloads i hi
  · exact Fragment.make_plain hpush i hi

/-! ## Properties of layouts -/

/-- A property of the layouts at a site, with the events that their constructs scan, that is closed
under all ways to put layouts together. -/
structure LayoutClosed (Q : Site → List Event → LayoutAt → Prop) : Prop where
  /-- Plain code is the same wherever it starts. -/
  fixed : ∀ (site : Site) (events : List Event) (layout : Except CompileError Fragment),
    (∀ f, layout = .ok f → Event.binds events = [] ∧ ∀ i ∈ f.instrs, i.Plain) →
      Q site events fun _ => layout
  store : ∀ (site : Site) (name : String), Q site [.bind name] fun _ => site.store
  seq : ∀ {site : Site} {xs ys : List Event} {first second : LayoutAt}, Q site xs first →
    Q (site.after xs) ys second →
      Q site (xs ++ ys) fun start => Fragment.seq (first start) fun f => second (start + f.size)
  conditional : ∀ {site : Site} {xs ys zs : List Event} {test yes no : LayoutAt},
    Q site xs test → Q (site.after xs) ys yes → Q ((site.after xs).after ys) zs no →
      Q site (xs ++ (ys ++ zs)) fun start => Fragment.conditional start (test start) yes no

namespace LayoutClosed

variable {Q : Site → List Event → LayoutAt → Prop}

theorem error (h : LayoutClosed Q) (site : Site) (events : List Event) (e : CompileError) :
    Q site events fun _ => .error e := by
  apply h.fixed
  intro f hf
  cases hf

theorem plain (h : LayoutClosed Q) (site : Site) {is : List Instr} (his : ∀ i ∈ is, i.Plain) :
    Q site [] fun _ => .ok (.ofInstrs is) := by
  apply h.fixed
  intro f hf
  cases hf
  exact ⟨rfl, his⟩

theorem emit (h : LayoutClosed Q) (site : Site) {op : Opcode} (operands : List Nat)
    (hop : (Instr.mk op operands).Plain) : Q site [] fun _ => Fragment.emit op operands := by
  apply h.fixed
  intro f hf
  exact ⟨rfl, Fragment.emit_plain hf hop⟩

/-- A last instruction behind other code. -/
theorem seq_emit (h : LayoutClosed Q) {site : Site} {xs : List Event} {first : LayoutAt}
    (hfirst : Q site xs first) {op : Opcode} (operands : List Nat)
    (hop : (Instr.mk op operands).Plain) :
    Q site xs fun start => Fragment.seq (first start) fun _ => Fragment.emit op operands := by
  have hseq := h.seq hfirst (h.emit (site.after xs) operands hop)
  rw [List.append_nil] at hseq
  exact hseq

/-- Last instructions behind other code. -/
theorem seq_plain (h : LayoutClosed Q) {site : Site} {xs : List Event} {first : LayoutAt}
    (hfirst : Q site xs first) {is : List Instr} (his : ∀ i ∈ is, i.Plain) :
    Q site xs fun start => Fragment.seq (first start) fun _ => .ok (.ofInstrs is) := by
  have hseq := h.seq hfirst (h.plain (site.after xs) his)
  rw [List.append_nil] at hseq
  exact hseq

end LayoutClosed

theorem Tail.onValue_plain (tail : Tail) : ∀ i ∈ tail.onValue, i.Plain := by
  cases tail <;> simp [Tail.onValue, Instr.Plain]

theorem Tail.onNothing_plain (tail : Tail) : ∀ i ∈ tail.onNothing, i.Plain := by
  cases tail <;> simp [Tail.onNothing, Instr.Plain]

theorem Tail.onReturn_plain (tail : Tail) :
    ∀ i ∈ Instr.mk .returnValue [] :: tail.onReturn, i.Plain := by
  cases tail <;> simp [Tail.onReturn, Instr.Plain]

/-! ## The induction -/

section Induction

variable {Q : Site → List Event → LayoutAt → Prop}

mutual

theorem Stmt.layout_induction (h : LayoutClosed Q) (stmt : Stmt) (tail : Tail) (site : Site) :
    Q site (Stmt.events stmt) fun start => Stmt.layout tail site start stmt := by
  cases stmt with
  | expr value =>
      simp only [Stmt.layout, Stmt.events]
      exact h.seq_plain (Expr.layout_induction h none value site) tail.onValue_plain
  | bind name value =>
      simp only [Stmt.layout, Stmt.events]
      exact h.seq (Expr.layout_induction h (some name) value site)
        (h.seq_plain (h.store _ name) tail.onNothing_plain)
  | ret value =>
      simp only [Stmt.layout, Stmt.events]
      exact h.seq_plain (Expr.layout_induction h none value site) tail.onReturn_plain

theorem Block.layout_induction (h : LayoutClosed Q) (block : List Stmt) (tail : Tail) (site : Site) :
    Q site (Block.events block) fun start => Block.layout tail site start block := by
  match block with
  | [] =>
      simp only [Block.layout, Block.events]
      exact h.plain site tail.onNothing_plain
  | [stmt] =>
      simp only [Block.layout, Block.events, List.append_nil]
      exact Stmt.layout_induction h stmt tail site
  | stmt :: next :: rest =>
      rw [Block.events]
      simp only [Block.layout]
      exact h.seq (Stmt.layout_induction h stmt .drop site)
        (Block.layout_induction h (next :: rest) tail _)

theorem Expr.layout_induction (h : LayoutClosed Q) (own : Option String) (expr : Expr)
    (site : Site) : Q site (Expr.events own expr) fun start => Expr.layout own site start expr := by
  cases expr with
  | ident name =>
      simp only [Expr.layout, Expr.events]
      exact h.fixed site _ _ fun f hf => ⟨rfl, Site.load_plain hf⟩
  | int n =>
      simp only [Expr.layout, Expr.events]
      exact h.fixed site _ _ fun f hf => ⟨rfl, Fragment.literal_plain hf⟩
  | str s =>
      simp only [Expr.layout, Expr.events]
      exact h.fixed site _ _ fun f hf => ⟨rfl, Fragment.literal_plain hf⟩
  | bool b =>
      simp only [Expr.layout, Expr.events]
      exact h.emit site [] (by cases b <;> simp [Instr.Plain])
  | unary operator operand =>
      simp only [Expr.layout, Expr.events]
      cases hop : Compile.unaryOpcode? operator with
      | none => exact h.error site _ _
      | some op =>
          refine h.seq_emit (Expr.layout_induction h none operand site) [] ?_
          have hmem := Compile.unaryOpcode?_mem hop
          simp only [List.mem_cons, List.not_mem_nil, or_false] at hmem
          rcases hmem with rfl | rfl <;> simp [Instr.Plain]
  | binary left operator right =>
      simp only [Expr.layout, Expr.events]
      by_cases hless : operator = "<"
      · simp only [if_pos hless]
        exact h.seq (Expr.layout_induction h none right site)
          (h.seq_emit (Expr.layout_induction h none left _) [] (by simp [Instr.Plain]))
      · simp only [if_neg hless]
        cases hop : Compile.binaryOpcode? operator with
        | none => exact h.error site _ _
        | some op =>
            refine h.seq (Expr.layout_induction h none left site)
              (h.seq_emit (Expr.layout_induction h none right _) [] ?_)
            have hmem := Compile.binaryOpcode?_mem hop
            simp only [List.mem_cons, List.not_mem_nil, or_false] at hmem
            rcases hmem with rfl | rfl | rfl | rfl | rfl | rfl | rfl <;> simp [Instr.Plain]
  | cond test yes no =>
      cases no with
      | none =>
          simp only [Expr.layout, Expr.events]
          have hcond := h.conditional (Expr.layout_induction h none test site)
            (Block.layout_induction h yes .keep _) (h.plain _ Tail.keep.onNothing_plain)
          -- Where there is no other branch, it has no events.
          rw [List.append_nil] at hcond
          exact hcond
      | some no =>
          simp only [Expr.layout, Expr.events]
          exact h.conditional (Expr.layout_induction h none test site)
            (Block.layout_induction h yes .keep _) (Block.layout_induction h no .keep _)
  | function params body =>
      simp only [Expr.layout, Expr.events]
      -- The body becomes a constant; the code that stands here is plain.
      refine h.fixed site _ _ fun f hf => ⟨?_, Fragment.functionLiteral_plain hf⟩
      simp [Event.ofFunction]
  | call callee args =>
      simp only [Expr.layout, Expr.events]
      exact h.seq (Expr.layoutList_induction h args site)
        (h.seq_emit (Expr.layout_induction h none callee _) _ (by simp [Instr.Plain]))
  | array elements =>
      simp only [Expr.layout, Expr.events]
      exact h.seq_emit (Expr.layoutList_induction h elements site) _ (by simp [Instr.Plain])
  | hash pairs =>
      simp only [Expr.layout, Expr.events]
      exact h.seq_emit (Expr.layoutPairs_induction h pairs site) _ (by simp [Instr.Plain])
  | index collection key =>
      simp only [Expr.layout, Expr.events]
      exact h.seq (Expr.layout_induction h none collection site)
        (h.seq_emit (Expr.layout_induction h none key _) _ (by simp [Instr.Plain]))

theorem Expr.layoutList_induction (h : LayoutClosed Q) (exprs : List Expr) (site : Site) :
    Q site (Expr.eventsList exprs) fun start => Expr.layoutList site start exprs := by
  match exprs with
  | [] =>
      simp only [Expr.layoutList, Expr.eventsList]
      exact h.plain site (by simp)
  | expr :: rest =>
      simp only [Expr.layoutList, Expr.eventsList]
      exact h.seq (Expr.layout_induction h none expr site) (Expr.layoutList_induction h rest _)

theorem Expr.layoutPairs_induction (h : LayoutClosed Q) (pairs : List (Expr × Expr)) (site : Site) :
    Q site (Expr.eventsPairs pairs) fun start => Expr.layoutPairs site start pairs := by
  match pairs with
  | [] =>
      simp only [Expr.layoutPairs, Expr.eventsPairs]
      exact h.plain site (by simp)
  | (key, value) :: rest =>
      simp only [Expr.layoutPairs, Expr.eventsPairs]
      exact h.seq (Expr.layout_induction h none key site)
        (h.seq (Expr.layout_induction h none value _) (Expr.layoutPairs_induction h rest _))

end

end Induction

end MonkeyMachine
