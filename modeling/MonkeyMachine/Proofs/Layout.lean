import MonkeyMachine.Compiler
import MonkeyMachine.Proofs.Instructions
import MonkeyMachine.Proofs.Sites

/-!
# The layout of a program

The instructions of every construct as a function of the site where it stands and of the position
where its code starts. A layout is written from left to right and never changed afterwards: jumps
have their targets from the beginning, and a block knows from the beginning what becomes of the
value of its last statement. Names are looked up in sites, not in tables.

That the compiler, which works with placeholders and takes instructions back, arrives at this
layout and no other is shown in `MonkeyMachine.Proofs.CompilerLayout`.
-/

namespace MonkeyMachine

/-! ## Fragments -/

/-- Instructions, and the constants that they add to the pool. -/
structure Fragment where
  instrs : List Instr
  constants : List Value

namespace Fragment

instance : Append Fragment where
  append a b := { instrs := a.instrs ++ b.instrs, constants := a.constants ++ b.constants }

/-- Instructions that add no constant. -/
def ofInstrs (is : List Instr) : Fragment := { instrs := is, constants := [] }

/-- Length of the instructions in bytes. -/
def size (f : Fragment) : Nat := codeSize f.instrs

@[simp]
theorem instrs_append (a b : Fragment) : (a ++ b).instrs = a.instrs ++ b.instrs := rfl

@[simp]
theorem constants_append (a b : Fragment) : (a ++ b).constants = a.constants ++ b.constants := rfl

@[simp]
theorem size_append (a b : Fragment) : (a ++ b).size = a.size + b.size := by
  simp [size]

@[simp]
theorem instrs_ofInstrs (is : List Instr) : (ofInstrs is).instrs = is := rfl

@[simp]
theorem constants_ofInstrs (is : List Instr) : (ofInstrs is).constants = [] := rfl

@[simp]
theorem size_ofInstrs (is : List Instr) : (ofInstrs is).size = codeSize is := rfl

@[simp]
theorem append_nil (f : Fragment) : f ++ ofInstrs [] = f := by
  obtain ⟨instrs, constants⟩ := f
  show Fragment.mk (instrs ++ []) (constants ++ []) = _
  simp

@[simp]
theorem nil_append (f : Fragment) : ofInstrs [] ++ f = f := by
  obtain ⟨instrs, constants⟩ := f
  rfl

theorem append_assoc (a b c : Fragment) : a ++ b ++ c = a ++ (b ++ c) := by
  show Fragment.mk _ _ = Fragment.mk _ _
  simp

/-- A single instruction, if its operands can be encoded. -/
def emit (op : Opcode) (operands : List Nat) : Except CompileError Fragment :=
  match op.encode operands with
  | .ok _ => .ok (ofInstrs [⟨op, operands⟩])
  | .error cause => .error (.encoding cause)

/-- One piece of code behind another. The second is told what the first one is. -/
def seq (first : Except CompileError Fragment)
    (second : Fragment → Except CompileError Fragment) : Except CompileError Fragment := do
  let a ← first
  let b ← second a
  pure (a ++ b)

theorem emit_eq_ok_iff {op : Opcode} {operands : List Nat} {f : Fragment} :
    emit op operands = .ok f ↔ (Instr.mk op operands).Valid ∧ f = ofInstrs [⟨op, operands⟩] := by
  unfold emit
  cases h : op.encode operands with
  | ok bytes =>
      have hvalid := ((op.encode_eq_ok_iff operands bytes).1 h).1
      simp [hvalid, eq_comm]
  | error cause =>
      have hnot : ¬ (Instr.mk op operands).Valid := by
        intro hvalid
        rw [(op.encode_eq_ok_iff operands _).2 ⟨hvalid, rfl⟩] at h
        cases h
      simp [hnot]

theorem seq_of_ok {a b : Fragment} {second : Fragment → Except CompileError Fragment}
    (h : second a = .ok b) : seq (.ok a) second = .ok (a ++ b) := by
  simp [seq, bind, Except.bind, h, pure, Except.pure]

theorem seq_of_error {a : Fragment} {second : Fragment → Except CompileError Fragment}
    {e : CompileError} (h : second a = .error e) : seq (.ok a) second = .error e := by
  simp [seq, bind, Except.bind, h]

theorem seq_eq_ok_iff {first : Except CompileError Fragment}
    {second : Fragment → Except CompileError Fragment} {f : Fragment} :
    seq first second = .ok f ↔
      ∃ a, first = .ok a ∧ ∃ b, second a = .ok b ∧ f = a ++ b := by
  unfold seq
  cases first with
  | error e => simp [bind, Except.bind]
  | ok a =>
      cases h : second a with
      | error e => simp [bind, Except.bind, h]
      | ok b => simp [bind, Except.bind, h, pure, Except.pure, eq_comm]

theorem seq_nil (layout : Except CompileError Fragment) :
    seq layout (fun _ => .ok (ofInstrs [])) = layout := by
  cases layout with
  | error e => rfl
  | ok f => simp [seq, bind, Except.bind, pure, Except.pure]

end Fragment

/-- The code of a construct, for every position where it may start. -/
abbrev LayoutAt := Nat → Except CompileError Fragment

/-- What becomes of the value of the last statement of a block. -/
inductive Tail
  /-- It is dropped, like that of every other statement. -/
  | drop
  /-- It is the value of the block. -/
  | keep
  /-- It is returned. -/
  | leave
  deriving DecidableEq

namespace Tail

/-- What follows the code of a last expression. -/
def onValue : Tail → List Instr
  | drop => [⟨.pop, []⟩]
  | keep => []
  | leave => [⟨.returnValue, []⟩]

/-- What follows when there is no last expression. -/
def onNothing : Tail → List Instr
  | drop => []
  | keep => [⟨.pushNull, []⟩]
  | leave => [⟨.returnNull, []⟩]

/-- What follows a return statement. -/
def onReturn : Tail → List Instr
  | drop => []
  | keep => [⟨.pushNull, []⟩]
  | leave => []

end Tail

/-! ## Names -/

namespace Place

/-- The instruction that pushes what a place holds. -/
def load : Place → Except CompileError Fragment
  | global slot => Fragment.emit .getGlobal [slot]
  | cell index => Fragment.emit .getLocal [index]
  | captured index => Fragment.emit .getFree [index]
  | self => Fragment.emit .currentClosure []
  | builtin b => Fragment.emit .getBuiltin [b.index]

end Place

namespace Site

/-- The instruction that pushes what a name stands for. -/
def load (site : Site) (name : String) : Except CompileError Fragment :=
  match site.place? name with
  | none => .error (.undefinedVariable name)
  | some place => place.load

def loadAll (site : Site) : List String → Except CompileError Fragment
  | [] => .ok (.ofInstrs [])
  | name :: rest => Fragment.seq (site.load name) fun _ => site.loadAll rest

/-- The instruction that binds a name to the value on top of the stack. -/
def store (site : Site) : Except CompileError Fragment :=
  match site.body with
  | none => Fragment.emit .setGlobal [site.globals.length]
  | some locals =>
      if locals.names.length < Compile.maxLocals then Fragment.emit .setLocal [locals.names.length]
      else .error .tooManyLocals

end Site

/-! ## Constructs with parts -/

namespace Fragment

/-- A literal other than a function. -/
def literal (site : Site) (v : Value) : Except CompileError Fragment := do
  let push ← emit .constant [site.literals]
  pure { push with constants := [v] }

/-- A conditional that starts at `start`. The branches are told where they start. -/
def conditional (start : Nat) (test : Except CompileError Fragment)
    (yes no : Nat → Except CompileError Fragment) : Except CompileError Fragment := do
  let t ← test
  let y ← yes (start + t.size + 3)
  let toNo ← emit .jumpNotTruthy [start + t.size + 3 + y.size + 3]
  let n ← no (start + t.size + 3 + y.size + 3)
  let toFinish ← emit .jump [start + t.size + 3 + y.size + 3 + n.size]
  pure (t ++ (toNo ++ (y ++ (toFinish ++ n))))

theorem conditional_eq_ok {start : Nat} {test : Except CompileError Fragment}
    {yes no : Nat → Except CompileError Fragment} {f : Fragment}
    (h : conditional start test yes no = .ok f) :
    ∃ t y n toNo toFinish, test = .ok t ∧ yes (start + t.size + 3) = .ok y ∧ no toNo = .ok n ∧
      toNo = start + t.size + 3 + y.size + 3 ∧ toFinish = toNo + n.size ∧
      (Instr.mk .jumpNotTruthy [toNo]).Valid ∧ (Instr.mk .jump [toFinish]).Valid ∧
      f = t ++ ⟨⟨.jumpNotTruthy, [toNo]⟩ :: (y.instrs ++ ⟨.jump, [toFinish]⟩ :: n.instrs),
        y.constants ++ n.constants⟩ := by
  unfold conditional at h
  -- The parts in the order in which they are laid out: each of them may fail.
  cases test with
  | error e => cases h
  | ok t =>
  cases hy : yes (start + t.size + 3) with
  | error e =>
      simp only [bind, Except.bind, hy] at h
      cases h
  | ok y =>
  cases htoNo : emit .jumpNotTruthy [start + t.size + 3 + y.size + 3] with
  | error e =>
      simp only [bind, Except.bind, hy, htoNo] at h
      cases h
  | ok toNo =>
  cases hn : no (start + t.size + 3 + y.size + 3) with
  | error e =>
      simp only [bind, Except.bind, hy, htoNo, hn] at h
      cases h
  | ok n =>
  cases htoFinish : emit .jump [start + t.size + 3 + y.size + 3 + n.size] with
  | error e =>
      simp only [bind, Except.bind, hy, htoNo, hn, htoFinish] at h
      cases h
  | ok toFinish =>
      simp only [bind, Except.bind, hy, htoNo, hn, htoFinish, pure, Except.pure] at h
      rcases emit_eq_ok_iff.1 htoNo with ⟨hvalid, rfl⟩
      rcases emit_eq_ok_iff.1 htoFinish with ⟨hvalid', rfl⟩
      cases h
      exact ⟨t, y, n, _, _, rfl, hy, hn, rfl, rfl, hvalid, hvalid', rfl⟩

theorem size_conditional (t y n : Fragment) (toNo toFinish : Nat) (constants : List Value) :
    (t ++ ⟨⟨.jumpNotTruthy, [toNo]⟩ :: (y.instrs ++ ⟨.jump, [toFinish]⟩ :: n.instrs), constants⟩ :
      Fragment).size = t.size + 3 + y.size + 3 + n.size := by
  have hjumpNot : (Instr.mk .jumpNotTruthy [toNo]).size = 3 := rfl
  have hjump : (Instr.mk .jump [toFinish]).size = 3 := rfl
  simp only [size, instrs_append, codeSize_append, codeSize_cons, hjumpNot, hjump]
  omega

/-- The function that a literal with the given parameters and body compiles to. `events` are those
of the body. -/
def function (params : List String) (events : List Event) (body : Fragment) : Function where
  code := (assemble body.instrs).toArray
  numLocals := params.length + (Event.binds events).length
  numParams := params.length

/-- Push the function with the given number, as a closure of `captures` values on the stack if there
are any. -/
def make (index captures : Nat) : Except CompileError Fragment :=
  if captures = 0 then emit .constant [index] else emit .closure [index, captures]

/-- What follows the body of a function literal: the values that it captures are pushed, then the
function or a closure of it. The function becomes a constant. -/
def closing (site : Site) (own : Option String) (params : List String) (events : List Event)
    (body : Fragment) : Except CompileError Fragment := do
  let captured := site.captures own params events
  let index := site.literals + Event.literals events
  let loads ← site.loadAll captured
  let push ← make index captured.length
  pure
    { instrs := loads.instrs ++ push.instrs
      constants := body.constants ++ [.function (.constant index) (function params events body)] }

/-- A function literal. -/
def functionLiteral (site : Site) (own : Option String) (params : List String)
    (events : List Event) (body : Except CompileError Fragment) : Except CompileError Fragment :=
  if Compile.maxLocals < params.length then
    .error .tooManyLocals
  else do
    let b ← body
    closing site own params events b

theorem functionLiteral_eq_ok {site : Site} {own : Option String} {params : List String}
    {events : List Event} {body : Except CompileError Fragment} {f : Fragment}
    (h : functionLiteral site own params events body = .ok f) :
    ∃ b loads push, params.length ≤ Compile.maxLocals ∧ body = .ok b ∧
      site.loadAll (site.captures own params events) = .ok loads ∧
      make (site.literals + Event.literals events) (site.captures own params events).length =
        .ok push ∧
      f = ⟨loads.instrs ++ push.instrs, b.constants ++
        [.function (.constant (site.literals + Event.literals events))
          (function params events b)]⟩ := by
  unfold functionLiteral at h
  split at h
  · cases h
  · rename_i hfew
    cases body with
    | error e => cases h
    | ok b =>
    simp only [bind, Except.bind, closing] at h
    cases hloads : site.loadAll (site.captures own params events) with
    | error e =>
        rw [hloads] at h
        cases h
    | ok loads =>
    cases hpush : make (site.literals + Event.literals events)
        (site.captures own params events).length with
    | error e =>
        rw [hloads, hpush] at h
        cases h
    | ok push =>
        rw [hloads, hpush] at h
        cases h
        exact ⟨b, loads, push, Nat.le_of_not_lt hfew, rfl, rfl, rfl, rfl⟩

end Fragment

/-! ## Statements and expressions -/

open Compile (unaryOpcode? binaryOpcode?)
open Fragment

mutual

def Stmt.layout (tail : Tail) (site : Site) (start : Nat) : Stmt → Except CompileError Fragment
  | .expr value =>
      seq (Expr.layout none site start value) fun _ => .ok (ofInstrs tail.onValue)
  | .bind name value =>
      seq (Expr.layout (some name) site start value) fun _ =>
        seq (site.after (Expr.events (some name) value)).store fun _ =>
          .ok (ofInstrs tail.onNothing)
  | .ret value =>
      seq (Expr.layout none site start value) fun _ =>
        .ok (ofInstrs (⟨.returnValue, []⟩ :: tail.onReturn))

/-- The code of a block that starts at `start`. Only its last statement is followed by what `tail`
asks for. -/
def Block.layout (tail : Tail) (site : Site) (start : Nat) :
    List Stmt → Except CompileError Fragment
  | [] => .ok (ofInstrs tail.onNothing)
  | [stmt] => Stmt.layout tail site start stmt
  | stmt :: next :: rest =>
      seq (Stmt.layout .drop site start stmt) fun s =>
        Block.layout tail (site.after (Stmt.events stmt)) (start + s.size) (next :: rest)

/-- The code of an expression that starts at `start`. -/
def Expr.layout (own : Option String) (site : Site) (start : Nat) :
    Expr → Except CompileError Fragment
  | .ident name => site.load name
  | .int n => literal site (.int n)
  | .str s => literal site (.str s)
  | .bool b => emit (if b then .pushTrue else .pushFalse) []
  | .unary operator operand =>
      match unaryOpcode? operator with
      | none => .error (.unknownOperator operator)
      | some op => seq (Expr.layout none site start operand) fun _ => emit op []
  | .binary left operator right =>
      if operator = "<" then
        seq (Expr.layout none site start right) fun r =>
          seq (Expr.layout none (site.after (Expr.events none right)) (start + r.size) left)
            fun _ => emit .greaterThan []
      else
        match binaryOpcode? operator with
        | none => .error (.unknownOperator operator)
        | some op =>
            seq (Expr.layout none site start left) fun l =>
              seq (Expr.layout none (site.after (Expr.events none left)) (start + l.size) right)
                fun _ => emit op []
  | .cond test yes none =>
      conditional start (Expr.layout none site start test)
        (fun here => Block.layout .keep (site.after (Expr.events none test)) here yes)
        (fun _ => .ok (ofInstrs Tail.keep.onNothing))
  | .cond test yes (some no) =>
      conditional start (Expr.layout none site start test)
        (fun here => Block.layout .keep (site.after (Expr.events none test)) here yes)
        (fun here =>
          Block.layout .keep ((site.after (Expr.events none test)).after (Block.events yes)) here no)
  | .function params body =>
      functionLiteral site own params (Block.events body)
        (Block.layout .leave (site.enter own params (Block.events body)) 0 body)
  | .call callee args =>
      seq (Expr.layoutList site start args) fun a =>
        seq (Expr.layout none (site.after (Expr.eventsList args)) (start + a.size) callee) fun _ =>
          emit .call [args.length]
  | .array elements =>
      seq (Expr.layoutList site start elements) fun _ => emit .array [elements.length]
  | .hash pairs => seq (Expr.layoutPairs site start pairs) fun _ => emit .hash [2 * pairs.length]
  | .index collection key =>
      seq (Expr.layout none site start collection) fun c =>
        seq (Expr.layout none (site.after (Expr.events none collection)) (start + c.size) key)
          fun _ => emit .index []

def Expr.layoutList (site : Site) (start : Nat) : List Expr → Except CompileError Fragment
  | [] => .ok (ofInstrs [])
  | expr :: rest =>
      seq (Expr.layout none site start expr) fun e =>
        Expr.layoutList (site.after (Expr.events none expr)) (start + e.size) rest

def Expr.layoutPairs (site : Site) (start : Nat) :
    List (Expr × Expr) → Except CompileError Fragment
  | [] => .ok (ofInstrs [])
  | (key, value) :: rest =>
      seq (Expr.layout none site start key) fun k =>
        seq (Expr.layout none (site.after (Expr.events none key)) (start + k.size) value) fun v =>
          Expr.layoutPairs
            ((site.after (Expr.events none key)).after (Expr.events none value))
            (start + k.size + v.size) rest

end

/-! ## The end of a block -/

/-- How the last statement of a block ends. -/
inductive Stmt.Ending
  /-- With the value of an expression. -/
  | value
  /-- With a return. -/
  | ret
  /-- With a binding, or there is no statement. -/
  | nothing
  deriving DecidableEq

def Stmt.ending : Stmt → Stmt.Ending
  | .expr _ => .value
  | .bind _ _ => .nothing
  | .ret _ => .ret

def Block.ending : List Stmt → Stmt.Ending
  | [] => .nothing
  | [stmt] => stmt.ending
  | _ :: next :: rest => Block.ending (next :: rest)

/-- How code that drops the last value, `dropped`, and code that ends as `tail` asks for differ. -/
inductive Retailed (tail : Tail) : Stmt.Ending → Fragment → Fragment → Prop
  | value (init : Fragment) :
      Retailed tail .value (init ++ ofInstrs [⟨.pop, []⟩]) (init ++ ofInstrs tail.onValue)
  | ret (dropped : Fragment) : Retailed tail .ret dropped (dropped ++ ofInstrs tail.onReturn)
  | nothing (dropped : Fragment) :
      Retailed tail .nothing dropped (dropped ++ ofInstrs tail.onNothing)

theorem Retailed.append {tail : Tail} {ending : Stmt.Ending} {a b : Fragment}
    (h : Retailed tail ending a b) (first : Fragment) :
    Retailed tail ending (first ++ a) (first ++ b) := by
  cases h with
  | value init =>
      rw [← append_assoc, ← append_assoc]
      exact .value (first ++ init)
  | ret =>
      rw [← append_assoc]
      exact .ret (first ++ a)
  | nothing =>
      rw [← append_assoc]
      exact .nothing (first ++ a)

end MonkeyMachine
