/-!
# Programs

The programs that the compiler accepts, as trees. Operators are kept as they were spelled: whether
an operator exists is for the compiler to say.
-/

namespace MonkeyMachine

mutual

inductive Stmt
  /-- Evaluate an expression and drop its value. -/
  | expr (value : Expr)
  /-- Bind a name to the value of an expression. -/
  | bind (name : String) (value : Expr)
  /-- Leave the current function with the value of an expression. -/
  | ret (value : Expr)

inductive Expr
  | ident (name : String)
  | int (n : Int64)
  | str (s : String)
  | bool (b : Bool)
  | unary (operator : String) (operand : Expr)
  | binary (left : Expr) (operator : String) (right : Expr)
  | cond (test : Expr) (yes : List Stmt) (no : Option (List Stmt))
  | function (params : List String) (body : List Stmt)
  | call (callee : Expr) (args : List Expr)
  | array (elements : List Expr)
  | hash (pairs : List (Expr × Expr))
  | index (collection key : Expr)

end

/-- A sequence of statements: a branch, a function body or a whole program. -/
abbrev Block := List Stmt

abbrev Program := Block

/-! ## Equality of programs -/

mutual

/-- Equality of statements as a test. -/
def Stmt.beq : Stmt → Stmt → Bool
  | .expr a, .expr b => a.beq b
  | .bind x a, .bind y b => x == y && a.beq b
  | .ret a, .ret b => a.beq b
  | _, _ => false
termination_by structural s => s

/-- Equality of expressions as a test. -/
def Expr.beq : Expr → Expr → Bool
  | .ident a, .ident b => a == b
  | .int a, .int b => a == b
  | .str a, .str b => a == b
  | .bool a, .bool b => a == b
  | .unary o a, .unary p b => o == p && a.beq b
  | .binary a o b, .binary c p d => a.beq c && (o == p && b.beq d)
  | .cond a s none, .cond b t none => a.beq b && Block.beq s t
  | .cond a s (some u), .cond b t (some v) => a.beq b && (Block.beq s t && Block.beq u v)
  | .function xs s, .function ys t => xs == ys && Block.beq s t
  | .call f xs, .call g ys => f.beq g && Expr.beqList xs ys
  | .array xs, .array ys => Expr.beqList xs ys
  | .hash xs, .hash ys => Expr.beqPairs xs ys
  | .index a i, .index b j => a.beq b && i.beq j
  | _, _ => false
termination_by structural e => e

def Block.beq : List Stmt → List Stmt → Bool
  | [], [] => true
  | a :: s, b :: t => a.beq b && Block.beq s t
  | _, _ => false
termination_by structural s => s

def Expr.beqList : List Expr → List Expr → Bool
  | [], [] => true
  | a :: xs, b :: ys => a.beq b && Expr.beqList xs ys
  | _, _ => false
termination_by structural xs => xs

def Expr.beqPairs : List (Expr × Expr) → List (Expr × Expr) → Bool
  | [], [] => true
  | (k, a) :: xs, (l, b) :: ys => k.beq l && (a.beq b && Expr.beqPairs xs ys)
  | _, _ => false
termination_by structural xs => xs

end

mutual

theorem Stmt.beq_iff : (s t : Stmt) → (s.beq t = true ↔ s = t)
  | .expr a, t => by cases t <;> simp [Stmt.beq, Expr.beq_iff a]
  | .bind x a, t => by cases t <;> simp [Stmt.beq, Expr.beq_iff a]
  | .ret a, t => by cases t <;> simp [Stmt.beq, Expr.beq_iff a]

theorem Expr.beq_iff : (d e : Expr) → (d.beq e = true ↔ d = e)
  | .ident a, e => by cases e <;> simp [Expr.beq]
  | .int a, e => by cases e <;> simp [Expr.beq]
  | .str a, e => by cases e <;> simp [Expr.beq]
  | .bool a, e => by cases e <;> simp [Expr.beq]
  | .unary o a, e => by cases e <;> simp [Expr.beq, Expr.beq_iff a]
  | .binary a o b, e => by cases e <;> simp [Expr.beq, Expr.beq_iff a, Expr.beq_iff b]
  | .cond a s none, e => by
      cases e with
      | cond b t v => cases v <;> simp [Expr.beq, Expr.beq_iff a, Block.beq_iff s]
      | _ => simp [Expr.beq]
  | .cond a s (some u), e => by
      cases e with
      | cond b t v =>
          cases v <;> simp [Expr.beq, Expr.beq_iff a, Block.beq_iff s, Block.beq_iff u]
      | _ => simp [Expr.beq]
  | .function xs s, e => by cases e <;> simp [Expr.beq, Block.beq_iff s]
  | .call f xs, e => by cases e <;> simp [Expr.beq, Expr.beq_iff f, Expr.beqList_iff xs]
  | .array xs, e => by cases e <;> simp [Expr.beq, Expr.beqList_iff xs]
  | .hash xs, e => by cases e <;> simp [Expr.beq, Expr.beqPairs_iff xs]
  | .index a i, e => by cases e <;> simp [Expr.beq, Expr.beq_iff a, Expr.beq_iff i]

theorem Block.beq_iff : (s t : List Stmt) → (Block.beq s t = true ↔ s = t)
  | [], t => by cases t <;> simp [Block.beq]
  | a :: s, t => by cases t <;> simp [Block.beq, Stmt.beq_iff a, Block.beq_iff s]

theorem Expr.beqList_iff : (xs ys : List Expr) → (Expr.beqList xs ys = true ↔ xs = ys)
  | [], ys => by cases ys <;> simp [Expr.beqList]
  | a :: xs, ys => by cases ys <;> simp [Expr.beqList, Expr.beq_iff a, Expr.beqList_iff xs]

theorem Expr.beqPairs_iff :
    (xs ys : List (Expr × Expr)) → (Expr.beqPairs xs ys = true ↔ xs = ys)
  | [], ys => by cases ys <;> simp [Expr.beqPairs]
  | (k, a) :: xs, [] => by simp [Expr.beqPairs]
  | (k, a) :: xs, (l, b) :: ys => by
      simp [Expr.beqPairs, Expr.beq_iff k, Expr.beq_iff a, Expr.beqPairs_iff xs, and_assoc]

end

instance : DecidableEq Stmt := fun s t => decidable_of_iff (s.beq t = true) (Stmt.beq_iff s t)

instance : DecidableEq Expr := fun d e => decidable_of_iff (d.beq e = true) (Expr.beq_iff d e)

end MonkeyMachine
