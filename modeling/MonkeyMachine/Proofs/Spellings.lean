import Mathlib.Logic.Relation
import MonkeyMachine.Proofs.AppendOnly

/-!
# Two spellings of one program

Three constructs can be written in two ways. `a < b` is another way to write `b > a`, a conditional
without an alternative is one whose alternative is empty, and a function that ends in an expression
returns it. `Expr.Respelled` is one change from the first spelling to the second, at any place of an
expression, and `Program.Synonymous` any number of changes in either direction.

The compiler cannot tell the spellings apart. What it does for a construct is put together from what
it does for the parts, so it is enough to look at the place of the change: `Compile.pop_finishBody`
is the one place where it takes an instruction back to arrive at the other spelling.
-/

namespace MonkeyMachine

/-! ## Changing the spelling -/

/-- The statement with another expression. -/
def Stmt.withValue (e : Expr) : Stmt → Stmt
  | .expr _ => .expr e
  | .bind name _ => .bind name e
  | .ret _ => .ret e

/-- One construct of an expression, or inside of it, is spelled in the other way. -/
inductive Expr.Respelled : Expr → Expr → Prop
  -- The three constructs.
  | less (a b : Expr) : Respelled (.binary a "<" b) (.binary b ">" a)
  | otherwise (test : Expr) (yes : List Stmt) :
      Respelled (.cond test yes none) (.cond test yes (some []))
  | result (params : List String) (init : List Stmt) (e : Expr) :
      Respelled (.function params (init ++ [.expr e])) (.function params (init ++ [.ret e]))
  -- The places where they can stand.
  | operand (operator : String) {a b : Expr} (h : Respelled a b) :
      Respelled (.unary operator a) (.unary operator b)
  | left {a b : Expr} (operator : String) (right : Expr) (h : Respelled a b) :
      Respelled (.binary a operator right) (.binary b operator right)
  | right (left : Expr) (operator : String) {a b : Expr} (h : Respelled a b) :
      Respelled (.binary left operator a) (.binary left operator b)
  | test {a b : Expr} (yes : List Stmt) (no : Option (List Stmt)) (h : Respelled a b) :
      Respelled (.cond a yes no) (.cond b yes no)
  | yes (test : Expr) (pre : List Stmt) (stmt : Stmt) {a b : Expr} (post : List Stmt)
      (no : Option (List Stmt)) (h : Respelled a b) :
      Respelled (.cond test (pre ++ stmt.withValue a :: post) no)
        (.cond test (pre ++ stmt.withValue b :: post) no)
  | no (test : Expr) (yes pre : List Stmt) (stmt : Stmt) {a b : Expr} (post : List Stmt)
      (h : Respelled a b) :
      Respelled (.cond test yes (some (pre ++ stmt.withValue a :: post)))
        (.cond test yes (some (pre ++ stmt.withValue b :: post)))
  | body (params : List String) (pre : List Stmt) (stmt : Stmt) {a b : Expr} (post : List Stmt)
      (h : Respelled a b) :
      Respelled (.function params (pre ++ stmt.withValue a :: post))
        (.function params (pre ++ stmt.withValue b :: post))
  | callee {a b : Expr} (args : List Expr) (h : Respelled a b) :
      Respelled (.call a args) (.call b args)
  | arg (callee : Expr) (pre : List Expr) {a b : Expr} (post : List Expr) (h : Respelled a b) :
      Respelled (.call callee (pre ++ a :: post)) (.call callee (pre ++ b :: post))
  | element (pre : List Expr) {a b : Expr} (post : List Expr) (h : Respelled a b) :
      Respelled (.array (pre ++ a :: post)) (.array (pre ++ b :: post))
  | key (pre : List (Expr × Expr)) {a b : Expr} (value : Expr) (post : List (Expr × Expr))
      (h : Respelled a b) :
      Respelled (.hash (pre ++ (a, value) :: post)) (.hash (pre ++ (b, value) :: post))
  | value (pre : List (Expr × Expr)) (key : Expr) {a b : Expr} (post : List (Expr × Expr))
      (h : Respelled a b) :
      Respelled (.hash (pre ++ (key, a) :: post)) (.hash (pre ++ (key, b) :: post))
  | collection {a b : Expr} (place : Expr) (h : Respelled a b) :
      Respelled (.index a place) (.index b place)
  | place (collection : Expr) {a b : Expr} (h : Respelled a b) :
      Respelled (.index collection a) (.index collection b)

/-- One construct of a program is spelled in the other way. -/
inductive Program.Respelled : Program → Program → Prop
  | inside (pre : Program) (stmt : Stmt) {a b : Expr} (post : Program) (h : a.Respelled b) :
      Respelled (pre ++ stmt.withValue a :: post) (pre ++ stmt.withValue b :: post)

/-- Two programs that differ in the spelling of any number of constructs. -/
def Program.Synonymous : Program → Program → Prop := Relation.EqvGen Program.Respelled

/-! ## The three constructs -/

/-- A drop that is turned into another instruction leaves the same as writing that one at once. -/
theorem Buffer.replaceLast_append (buffer : Buffer) (op : Opcode) :
    (buffer.append .pop [Opcode.pop.toByte]).replaceLast op = buffer.append op [op.toByte] := by
  have hcode : (buffer.code ++ [Opcode.pop.toByte]).toList =
      buffer.code.toList ++ ([Opcode.pop.toByte] ++ []) := by simp
  have hwrite : (Code.write (buffer.code ++ [Opcode.pop.toByte]) buffer.code.size
      [op.toByte]).toList = buffer.code.toList ++ ([op.toByte] ++ []) :=
    Code.toList_write hcode Array.length_toList rfl
  have hsame : Code.write (buffer.code ++ [Opcode.pop.toByte]) buffer.code.size [op.toByte] =
      buffer.code ++ [op.toByte] := by
    apply Array.ext'
    simpa using hwrite
  simp only [append, replaceLast, hsame]

namespace Compile

/-- An empty branch is the null of a missing one. -/
theorem branch_nothing : branch (pure ()) = emit .pushNull [] := by
  funext c
  have hstart : position c = .ok c.buffer.code.size c := rfl
  have hblock : (pure () : Compile Unit) c = .ok () c := rfl
  have hlast : lastIs .pop c = .ok (c.buffer.lastIs .pop) c := rfl
  -- The last instruction may be a drop, but then it stands before the branch.
  have hgrown : ¬ (c.buffer.lastIs .pop && decide (c.buffer.code.size < c.buffer.code.size)) = true := by
    simp
  calc branch (pure ()) c
      = (if c.buffer.lastIs .pop && decide (c.buffer.code.size < c.buffer.code.size) then
          modify fun c => { c with buffer := c.buffer.removeLast }
        else emit .pushNull [] : Compile Unit) c :=
        (act_bind_of_ok hstart).trans <| (act_bind_of_ok hblock).trans <|
          (act_bind_of_ok hstart).trans (act_bind_of_ok hlast)
    _ = emit .pushNull [] c := by rw [if_neg hgrown]

/-- A body that drops its last value is finished like one that returns it. -/
theorem pop_finishBody :
    (do emit .pop []; finishBody : Compile Unit) = (do emit .returnValue []; finishBody) := by
  funext c
  have hpop : (Instr.mk .pop []).Valid := .nil
  have hreturn : (Instr.mk .returnValue []).Valid := .nil
  have hdropped : (written c ⟨.pop, []⟩).buffer.lastIs .pop = true := rfl
  have hkept : (written c ⟨.returnValue, []⟩).buffer.lastIs .pop = false := rfl
  have hreturned : (written c ⟨.returnValue, []⟩).buffer.lastIs .returnValue = true := rfl
  calc (do emit .pop []; finishBody : Compile Unit) c
      = finishBody (written c ⟨.pop, []⟩) := act_bind_of_ok (emit_of_valid hpop c)
    _ = .ok () { c with
          buffer := (c.buffer.append .pop [Opcode.pop.toByte]).replaceLast .returnValue } := by
        rw [finishBody_eq, if_pos hdropped]
        rfl
    _ = .ok () (written c ⟨.returnValue, []⟩) := by
        rw [Buffer.replaceLast_append]
        rfl
    _ = finishBody (written c ⟨.returnValue, []⟩) := by
        simp [finishBody_eq, hkept, hreturned]
    _ = (do emit .returnValue []; finishBody : Compile Unit) c :=
        (act_bind_of_ok (emit_of_valid hreturn c)).symm

/-- The end of the body of a function literal decides about it only once it is finished. -/
theorem functionLiteral_congr {body body' : Compile Unit} (own : Option String)
    (params : List String)
    (h : (do body; finishBody : Compile Unit) = (do body'; finishBody)) :
    functionLiteral own params body = functionLiteral own params body' := by
  have hrest : ∀ rest : Compile Unit,
      (do body; finishBody; rest : Compile Unit) = (do body'; finishBody; rest) := by
    intro rest
    calc (do body; finishBody; rest : Compile Unit)
        = (do (do body; finishBody : Compile Unit); rest) := (bind_assoc _ _ _).symm
      _ = (do (do body'; finishBody : Compile Unit); rest) := by rw [h]
      _ = (do body'; finishBody; rest) := bind_assoc _ _ _
  simp only [functionLiteral, hrest]

end Compile

open Compile

/-- The return that a function may end in need not be spelled out. -/
theorem Expr.compile_result (own : Option String) (params : List String) (init : List Stmt)
    (e : Expr) :
    Expr.compile own (.function params (init ++ [.expr e])) =
      Expr.compile own (.function params (init ++ [.ret e])) := by
  simp only [Expr.compile]
  apply functionLiteral_congr
  calc (do Block.compile (init ++ [.expr e]); finishBody : Compile Unit)
      = (do Block.compile init; Expr.compile none e; emit .pop []; finishBody) := by
        simp only [Block.compile_append, Block.compile, Stmt.compile, bind_assoc, pure_bind]
    _ = (do Block.compile init; Expr.compile none e; emit .returnValue []; finishBody) := by
        simp only [pop_finishBody]
    _ = (do Block.compile (init ++ [.ret e]); finishBody) := by
        simp only [Block.compile_append, Block.compile, Stmt.compile, bind_assoc, pure_bind]

/-! ## The places where they stand -/

theorem Stmt.compile_congr {a b : Expr} (stmt : Stmt)
    (h : ∀ own, Expr.compile own a = Expr.compile own b) :
    Stmt.compile (stmt.withValue a) = Stmt.compile (stmt.withValue b) := by
  cases stmt with
  | expr _ => simp only [Stmt.withValue, Stmt.compile, h none]
  | bind name _ => simp only [Stmt.withValue, Stmt.compile, h (some name)]
  | ret _ => simp only [Stmt.withValue, Stmt.compile, h none]

theorem Block.compile_congr {a b : Expr} (pre : List Stmt) (stmt : Stmt) (post : List Stmt)
    (h : ∀ own, Expr.compile own a = Expr.compile own b) :
    Block.compile (pre ++ stmt.withValue a :: post) =
      Block.compile (pre ++ stmt.withValue b :: post) := by
  simp only [Block.compile_append, Block.compile, Stmt.compile_congr stmt h]

theorem Expr.compileList_congr {a b : Expr} (pre post : List Expr)
    (h : Expr.compile none a = Expr.compile none b) :
    Expr.compileList (pre ++ a :: post) = Expr.compileList (pre ++ b :: post) := by
  induction pre with
  | nil => simp only [List.nil_append, Expr.compileList, h]
  | cons expr rest ih => simp only [List.cons_append, Expr.compileList, ih]

theorem Expr.compilePairs_congr {key value key' value' : Expr} (pre post : List (Expr × Expr))
    (hkey : Expr.compile none key = Expr.compile none key')
    (hvalue : Expr.compile none value = Expr.compile none value') :
    Expr.compilePairs (pre ++ (key, value) :: post) =
      Expr.compilePairs (pre ++ (key', value') :: post) := by
  induction pre with
  | nil => simp only [List.nil_append, Expr.compilePairs, hkey, hvalue]
  | cons pair rest ih => simp only [List.cons_append, Expr.compilePairs, ih]

/-- An expression is compiled alike in both spellings, also where it is about to be bound. -/
theorem Expr.Respelled.compile_eq {a b : Expr} (h : a.Respelled b) (own : Option String) :
    Expr.compile own a = Expr.compile own b := by
  induction h generalizing own with
  | less a b =>
      have hgreater : binaryOpcode? ">" = some .greaterThan := rfl
      simp [Expr.compile, hgreater]
  | otherwise test yes => simp only [Expr.compile, Block.compile, branch_nothing]
  | result params init e => exact Expr.compile_result own params init e
  | operand operator _ ih => simp only [Expr.compile, ih none]
  | left operator right _ ih => simp only [Expr.compile, ih none]
  | right left operator _ ih => simp only [Expr.compile, ih none]
  | test yes no _ ih => cases no <;> simp only [Expr.compile, ih none]
  | yes test pre stmt post no _ ih =>
      cases no <;> simp only [Expr.compile, Block.compile_congr pre stmt post ih]
  | no test yes pre stmt post _ ih =>
      simp only [Expr.compile, Block.compile_congr pre stmt post ih]
  | body params pre stmt post _ ih =>
      simp only [Expr.compile, Block.compile_congr pre stmt post ih]
  | callee args _ ih => simp only [Expr.compile, ih none]
  -- The numbers of arguments, elements and pairs stand in the code, too.
  | arg callee pre post _ ih =>
      simp only [Expr.compile, Expr.compileList_congr pre post (ih none), List.length_append,
        List.length_cons]
  | element pre post _ ih =>
      simp only [Expr.compile, Expr.compileList_congr pre post (ih none), List.length_append,
        List.length_cons]
  | key pre value post _ ih =>
      have hpairs := Expr.compilePairs_congr pre post (ih none) (Eq.refl (Expr.compile none value))
      simp only [Expr.compile, hpairs, List.length_append, List.length_cons]
  | value pre key post _ ih =>
      have hpairs := Expr.compilePairs_congr pre post (Eq.refl (Expr.compile none key)) (ih none)
      simp only [Expr.compile, hpairs, List.length_append, List.length_cons]
  | collection place _ ih => simp only [Expr.compile, ih none]
  | place collection _ ih => simp only [Expr.compile, ih none]

theorem Program.Synonymous.compile_eq {p q : Program} (h : p.Synonymous q) :
    Block.compile p = Block.compile q := by
  induction h with
  | rel _ _ hstep =>
      cases hstep with
      | inside pre stmt post h => exact Block.compile_congr pre stmt post h.compile_eq
  | refl _ => rfl
  | symm _ _ _ ih => exact ih.symm
  | trans _ _ _ _ _ first second => exact first.trans second

/-- Programs that differ in spelling compile to the same code and constants, or are refused for the
same reason. Nothing that was compiled before makes a difference, and the compiler is left in the
same state. -/
theorem Program.Synonymous.compile_same {p q : Program} (h : p.Synonymous q) :
    p.compile = q.compile ∧ ∀ c, (Block.compile p).run c = (Block.compile q).run c := by
  have hacts : Block.compile p = Block.compile q := h.compile_eq
  constructor
  · unfold Program.compile
    rw [hacts]
  · intro c
    rw [hacts]

/-- All three constructs, one function inside of a branch of the other, and the outer one bound to a
name that it could use. -/
theorem Program.Synonymous.compile_same_of_nested :
    ∃ p q : Program,
      p = [.bind "f" (.function ["a", "b"]
        [.expr (.cond (.binary (.ident "a") "<" (.ident "b"))
          [.expr (.function [] [.expr (.ident "a")])] none)])] ∧
      q = [.bind "f" (.function ["a", "b"]
        [.ret (.cond (.binary (.ident "b") ">" (.ident "a"))
          [.expr (.function [] [.ret (.ident "a")])] (some []))])] ∧
      p.Synonymous q ∧ p.compiles .initial = true ∧
      p.compile = q.compile ∧ ∀ c, (Block.compile p).run c = (Block.compile q).run c := by
  let less : Expr := .binary (.ident "a") "<" (.ident "b")
  let greater : Expr := .binary (.ident "b") ">" (.ident "a")
  let inner : List Stmt := [.expr (.function [] [.expr (.ident "a")])]
  let inner' : List Stmt := [.expr (.function [] [.ret (.ident "a")])]
  -- From the outside to the inside, one change at a time.
  have hresult : Expr.Respelled (.function ["a", "b"] [.expr (.cond less inner none)])
      (.function ["a", "b"] [.ret (.cond less inner none)]) := .result _ [] _
  have hotherwise : Expr.Respelled (.function ["a", "b"] [.ret (.cond less inner none)])
      (.function ["a", "b"] [.ret (.cond less inner (some []))]) :=
    .body _ [] (.ret less) [] (.otherwise _ _)
  have hless : Expr.Respelled (.function ["a", "b"] [.ret (.cond less inner (some []))])
      (.function ["a", "b"] [.ret (.cond greater inner (some []))]) :=
    .body _ [] (.ret less) [] (.test _ _ (.less _ _))
  have hinner : Expr.Respelled (.function ["a", "b"] [.ret (.cond greater inner (some []))])
      (.function ["a", "b"] [.ret (.cond greater inner' (some []))]) :=
    .body _ [] (.ret less) [] (.yes _ [] (.expr less) [] _ (.result _ [] _))
  have hbound : ∀ {a b : Expr}, a.Respelled b →
      Program.Synonymous [.bind "f" a] [.bind "f" b] := fun {a b} h =>
    .rel _ _ (.inside [] (.bind "f" a) [] h)
  have hsynonymous := ((hbound hresult).trans _ _ _ (hbound hotherwise)).trans _ _ _
    ((hbound hless).trans _ _ _ (hbound hinner))
  refine ⟨_, _, rfl, rfl, hsynonymous, ?_, Program.Synonymous.compile_same hsynonymous⟩
  decide +kernel

end MonkeyMachine
