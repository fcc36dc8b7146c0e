import Mathlib.Data.Finset.SDiff
import Mathlib.Data.List.Perm.Basic
import Mathlib.Tactic.Tauto
import MonkeyMachine.Proofs.Sites

/-!
# What stands in a program

What the text of a program tells about it: the names that it binds (`Block.lets`), the names that it
looks up without having bound them (`Block.free`) and its literals (`Block.literals`). A function
literal comes with the names that the functions around it have bound when it is reached.

Sites are built on a scan of the program, `Block.events`. The scan comes to the same names and to the
same number of literals.
-/

namespace MonkeyMachine

/-! ## Bindings -/

mutual

def Stmt.lets : Stmt → List String
  | .expr value => Expr.lets value
  | .bind name value => Expr.lets value ++ [name]
  | .ret value => Expr.lets value

/-- The names that a block binds outside of the functions in it. A branch of a conditional binds its
names in the block around it. -/
def Block.lets : List Stmt → List String
  | [] => []
  | stmt :: rest => Stmt.lets stmt ++ Block.lets rest

def Expr.lets : Expr → List String
  | .ident _ | .int _ | .str _ | .bool _ | .function _ _ => []
  | .unary _ operand => Expr.lets operand
  | .binary left _ right => Expr.lets left ++ Expr.lets right
  | .cond test yes none => Expr.lets test ++ Block.lets yes
  | .cond test yes (some no) => Expr.lets test ++ (Block.lets yes ++ Block.lets no)
  | .call callee args => Expr.lets callee ++ Expr.letsList args
  | .array elements => Expr.letsList elements
  | .hash pairs => Expr.letsPairs pairs
  | .index collection key => Expr.lets collection ++ Expr.lets key

def Expr.letsList : List Expr → List String
  | [] => []
  | expr :: rest => Expr.lets expr ++ Expr.letsList rest

def Expr.letsPairs : List (Expr × Expr) → List String
  | [] => []
  | (key, value) :: rest => Expr.lets key ++ (Expr.lets value ++ Expr.letsPairs rest)

end

mutual

theorem Stmt.binds_events_perm (stmt : Stmt) :
    (Event.binds (Stmt.events stmt)).Perm (Stmt.lets stmt) := by
  cases stmt with
  | expr value | ret value => exact Expr.binds_events_perm none value
  | bind name value =>
      simp only [Stmt.events, Stmt.lets, Event.binds_append]
      exact (Expr.binds_events_perm (some name) value).append_right [name]

/-- The scan of a block meets the bindings outside of its functions, in an order of its own. -/
theorem Block.binds_events_perm (block : List Stmt) :
    (Event.binds (Block.events block)).Perm (Block.lets block) := by
  cases block with
  | nil => exact .nil
  | cons stmt rest =>
      simp only [Block.events, Block.lets, Event.binds_append]
      exact (Stmt.binds_events_perm stmt).append (Block.binds_events_perm rest)

theorem Expr.binds_events_perm (own : Option String) (expr : Expr) :
    (Event.binds (Expr.events own expr)).Perm (Expr.lets expr) := by
  cases expr with
  | ident | int | str | bool => exact .nil
  | function params body => simp [Expr.events, Expr.lets, Event.ofFunction]
  | unary operator operand => exact Expr.binds_events_perm none operand
  | binary left operator right =>
      have hleft := Expr.binds_events_perm none left
      have hright := Expr.binds_events_perm none right
      by_cases hless : operator = "<"
      · simp only [Expr.events, if_pos hless, Expr.lets, Event.binds_append]
        exact (hright.append hleft).trans List.perm_append_comm
      · simp only [Expr.events, if_neg hless, Expr.lets, Event.binds_append]
        exact hleft.append hright
  | cond test yes no =>
      have htest := Expr.binds_events_perm none test
      have hyes := Block.binds_events_perm yes
      cases no with
      | none =>
          simp only [Expr.events, Expr.lets, Event.binds_append]
          exact htest.append hyes
      | some no =>
          simp only [Expr.events, Expr.lets, Event.binds_append]
          exact htest.append (hyes.append (Block.binds_events_perm no))
  | call callee args =>
      simp only [Expr.events, Expr.lets, Event.binds_append]
      have hparts := (Expr.binds_eventsList_perm args).append (Expr.binds_events_perm none callee)
      exact hparts.trans List.perm_append_comm
  | array elements => exact Expr.binds_eventsList_perm elements
  | hash pairs => exact Expr.binds_eventsPairs_perm pairs
  | index collection key =>
      simp only [Expr.events, Expr.lets, Event.binds_append]
      exact (Expr.binds_events_perm none collection).append (Expr.binds_events_perm none key)

theorem Expr.binds_eventsList_perm (exprs : List Expr) :
    (Event.binds (Expr.eventsList exprs)).Perm (Expr.letsList exprs) := by
  cases exprs with
  | nil => exact .nil
  | cons expr rest =>
      simp only [Expr.eventsList, Expr.letsList, Event.binds_append]
      exact (Expr.binds_events_perm none expr).append (Expr.binds_eventsList_perm rest)

theorem Expr.binds_eventsPairs_perm (pairs : List (Expr × Expr)) :
    (Event.binds (Expr.eventsPairs pairs)).Perm (Expr.letsPairs pairs) := by
  cases pairs with
  | nil => exact .nil
  | cons pair rest =>
      rcases pair with ⟨key, value⟩
      simp only [Expr.eventsPairs, Expr.letsPairs, Event.binds_append]
      exact (Expr.binds_events_perm none key).append
        ((Expr.binds_events_perm none value).append (Expr.binds_eventsPairs_perm rest))

end

section Membership

variable {name : String}

@[simp]
theorem Stmt.mem_binds_events (stmt : Stmt) :
    name ∈ Event.binds (Stmt.events stmt) ↔ name ∈ Stmt.lets stmt :=
  (Stmt.binds_events_perm stmt).mem_iff

@[simp]
theorem Block.mem_binds_events (block : List Stmt) :
    name ∈ Event.binds (Block.events block) ↔ name ∈ Block.lets block :=
  (Block.binds_events_perm block).mem_iff

@[simp]
theorem Expr.mem_binds_events (own : Option String) (expr : Expr) :
    name ∈ Event.binds (Expr.events own expr) ↔ name ∈ Expr.lets expr :=
  (Expr.binds_events_perm own expr).mem_iff

@[simp]
theorem Expr.mem_binds_eventsList (exprs : List Expr) :
    name ∈ Event.binds (Expr.eventsList exprs) ↔ name ∈ Expr.letsList exprs :=
  (Expr.binds_eventsList_perm exprs).mem_iff

end Membership

/-- The expression of a statement. -/
def Stmt.value : Stmt → Expr
  | .expr value => value
  | .bind _ value => value
  | .ret value => value

/-! ## Free names -/

mutual

def Stmt.free : Stmt → Finset String
  | .expr value => Expr.free none value
  | .bind name value => Expr.free (some name) value
  | .ret value => Expr.free none value

/-- The names that are looked up in a block and that it has not bound by then. -/
def Block.free : List Stmt → Finset String
  | [] => ∅
  | stmt :: rest => Stmt.free stmt ∪ (Block.free rest \ (Stmt.lets stmt).toFinset)

/-- The right side of `<` is evaluated first, and so are the arguments of a call. A function literal
knows its parameters and `own`, the name that it is about to be bound to. -/
def Expr.free (own : Option String) : Expr → Finset String
  | .ident name => {name}
  | .int _ | .str _ | .bool _ => ∅
  | .unary _ operand => Expr.free none operand
  | .binary left operator right =>
      if operator = "<" then
        Expr.free none right ∪ (Expr.free none left \ (Expr.lets right).toFinset)
      else
        Expr.free none left ∪ (Expr.free none right \ (Expr.lets left).toFinset)
  | .cond test yes none => Expr.free none test ∪ (Block.free yes \ (Expr.lets test).toFinset)
  | .cond test yes (some no) =>
      Expr.free none test ∪
        ((Block.free yes ∪ (Block.free no \ (Block.lets yes).toFinset)) \ (Expr.lets test).toFinset)
  | .function params body => Block.free body \ (own.toList ++ params).toFinset
  | .call callee args => Expr.freeList args ∪ (Expr.free none callee \ (Expr.letsList args).toFinset)
  | .array elements => Expr.freeList elements
  | .hash pairs => Expr.freePairs pairs
  | .index collection key =>
      Expr.free none collection ∪ (Expr.free none key \ (Expr.lets collection).toFinset)

def Expr.freeList : List Expr → Finset String
  | [] => ∅
  | expr :: rest => Expr.free none expr ∪ (Expr.freeList rest \ (Expr.lets expr).toFinset)

def Expr.freePairs : List (Expr × Expr) → Finset String
  | [] => ∅
  | (key, value) :: rest =>
      Expr.free none key ∪
        ((Expr.free none value ∪ (Expr.freePairs rest \ (Expr.lets value).toFinset)) \
          (Expr.lets key).toFinset)

end

namespace Event

variable {name : String}

/-- Of the names that are looked up unbound, those that were bound from the start fall away. -/
theorem mem_uses_iff {bound : List String} {events : List Event} :
    name ∈ uses bound events ↔ name ∈ uses [] events ∧ name ∉ bound := by
  induction events generalizing bound with
  | nil => simp [uses]
  | cons event rest ih =>
      cases event with
      | bind other =>
          rw [uses, uses, ih, @ih ([] ++ [other])]
          simp only [List.nil_append, List.mem_append, List.mem_singleton, not_or]
          tauto
      | use other =>
          -- With nothing bound every name counts, so a bound one has to be ruled out afterwards.
          have hempty : uses [] (use other :: rest) = other :: uses [] rest := by simp [uses]
          rw [hempty, List.mem_cons]
          by_cases hbound : other ∈ bound
          · rw [uses, if_pos hbound, ih]
            constructor
            · exact fun h => ⟨.inr h.1, h.2⟩
            · rintro ⟨rfl | h, hnot⟩
              · exact absurd hbound hnot
              · exact ⟨h, hnot⟩
          · rw [uses, if_neg hbound, List.mem_cons, ih]
            constructor
            · rintro (rfl | h)
              · exact ⟨.inl rfl, hbound⟩
              · exact ⟨.inr h.1, h.2⟩
            · rintro ⟨rfl | h, hnot⟩
              · exact .inl rfl
              · exact .inr ⟨h, hnot⟩
      | literal =>
          rw [uses, uses]
          exact ih

@[simp]
theorem mem_uses_append {xs ys : List Event} :
    name ∈ uses [] (xs ++ ys) ↔ name ∈ uses [] xs ∨ (name ∈ uses [] ys ∧ name ∉ binds xs) := by
  rw [uses_append, List.mem_append, List.nil_append, @mem_uses_iff name (binds xs)]

@[simp]
theorem mem_uses_ofFunction {own : Option String} {params : List String} {body : List Event} :
    name ∈ uses [] (ofFunction own params body) ↔
      name ∈ uses [] body ∧ name ∉ own.toList ++ params := by
  rw [ofFunction, mem_uses_append, uses_map_use, uses_replicate_literal]
  simp [@mem_uses_iff name (own.toList ++ params)]

end Event

section Free

variable {name : String}

mutual

theorem Stmt.mem_free (stmt : Stmt) :
    name ∈ Stmt.free stmt ↔ name ∈ Event.uses [] (Stmt.events stmt) := by
  cases stmt with
  | expr value | ret value => exact Expr.mem_free none value
  | bind bound value => simp [Stmt.free, Stmt.events, Event.uses, Expr.mem_free (some bound) value]

/-- The scan of a block meets lookups of its free names, and of no others while they are unbound. -/
theorem Block.mem_free (block : List Stmt) :
    name ∈ Block.free block ↔ name ∈ Event.uses [] (Block.events block) := by
  cases block with
  | nil => simp [Block.free, Block.events, Event.uses]
  | cons stmt rest =>
      simp [Block.free, Block.events, Stmt.mem_free stmt, Block.mem_free rest]

theorem Expr.mem_free (own : Option String) (expr : Expr) :
    name ∈ Expr.free own expr ↔ name ∈ Event.uses [] (Expr.events own expr) := by
  cases expr with
  | ident | int | str | bool => simp [Expr.free, Expr.events, Event.uses]
  | unary operator operand => exact Expr.mem_free none operand
  | binary left operator right =>
      by_cases hless : operator = "<" <;>
        simp [Expr.free, Expr.events, hless, Expr.mem_free none left, Expr.mem_free none right]
  | cond test yes no =>
      cases no with
      | none => simp [Expr.free, Expr.events, Expr.mem_free none test, Block.mem_free yes]
      | some no =>
          simp [Expr.free, Expr.events, Expr.mem_free none test, Block.mem_free yes,
            Block.mem_free no]
  | function params body => simp [Expr.free, Expr.events, Block.mem_free body]
  | call callee args =>
      simp [Expr.free, Expr.events, Expr.mem_freeList args, Expr.mem_free none callee]
  | array elements => exact Expr.mem_freeList elements
  | hash pairs => exact Expr.mem_freePairs pairs
  | index collection key =>
      simp [Expr.free, Expr.events, Expr.mem_free none collection, Expr.mem_free none key]

theorem Expr.mem_freeList (exprs : List Expr) :
    name ∈ Expr.freeList exprs ↔ name ∈ Event.uses [] (Expr.eventsList exprs) := by
  cases exprs with
  | nil => simp [Expr.freeList, Expr.eventsList, Event.uses]
  | cons expr rest =>
      simp [Expr.freeList, Expr.eventsList, Expr.mem_free none expr, Expr.mem_freeList rest]

theorem Expr.mem_freePairs (pairs : List (Expr × Expr)) :
    name ∈ Expr.freePairs pairs ↔ name ∈ Event.uses [] (Expr.eventsPairs pairs) := by
  cases pairs with
  | nil => simp [Expr.freePairs, Expr.eventsPairs, Event.uses]
  | cons pair rest =>
      obtain ⟨key, value⟩ := pair
      simp [Expr.freePairs, Expr.eventsPairs, Expr.mem_free none key, Expr.mem_free none value,
        Expr.mem_freePairs rest]

end

end Free

/-! ## Literals -/

/-- A function literal in its place. -/
structure FunctionText where
  /-- The name that it is about to be bound to. -/
  own : Option String
  params : List String
  body : List Stmt
  /-- The names that the functions around it have bound by then: their own names, their parameters
  and those of their `let` statements. -/
  around : Finset String

namespace FunctionText

/-- The names that the function, or a function inside it, looks up in functions around it. -/
def captured (text : FunctionText) : Finset String :=
  Expr.free text.own (.function text.params text.body) ∩ text.around

/-- How many parameters and `let` statements the function has. -/
def slots (text : FunctionText) : Nat := text.params.length + (Block.lets text.body).length

end FunctionText

inductive Literal
  | int (n : Int64)
  | str (s : String)
  | function (text : FunctionText)

/-- The names that the functions around a point have bound by then. At the top level there are no
functions around. -/
abbrev Around := Option (Finset String)

namespace Around

def names (around : Around) : Finset String := around.getD ∅

/-- The point behind `let` statements. -/
def after (around : Around) (lets : List String) : Around := around.map (· ∪ lets.toFinset)

/-- The start of the body of a function. -/
def enter (around : Around) (own : Option String) (params : List String) : Around :=
  some (around.names ∪ (own.toList ++ params).toFinset)

end Around

mutual

def Stmt.literals (around : Around) : Stmt → List Literal
  | .expr value => Expr.literals none around value
  | .bind name value => Expr.literals (some name) around value
  | .ret value => Expr.literals none around value

/-- The literals of a block in the order of evaluation, those inside of a function before it. -/
def Block.literals (around : Around) : List Stmt → List Literal
  | [] => []
  | stmt :: rest =>
      Stmt.literals around stmt ++ Block.literals (around.after (Stmt.lets stmt)) rest

def Expr.literals (own : Option String) (around : Around) : Expr → List Literal
  | .ident _ | .bool _ => []
  | .int n => [.int n]
  | .str s => [.str s]
  | .unary _ operand => Expr.literals none around operand
  | .binary left operator right =>
      if operator = "<" then
        Expr.literals none around right ++ Expr.literals none (around.after (Expr.lets right)) left
      else
        Expr.literals none around left ++ Expr.literals none (around.after (Expr.lets left)) right
  | .cond test yes none =>
      Expr.literals none around test ++ Block.literals (around.after (Expr.lets test)) yes
  | .cond test yes (some no) =>
      Expr.literals none around test ++
        (Block.literals (around.after (Expr.lets test)) yes ++
          Block.literals ((around.after (Expr.lets test)).after (Block.lets yes)) no)
  -- A function is complete behind its body.
  | .function params body =>
      Block.literals (around.enter own params) body ++
        [.function { own, params, body, around := around.names }]
  | .call callee args =>
      Expr.literalsList around args ++
        Expr.literals none (around.after (Expr.letsList args)) callee
  | .array elements => Expr.literalsList around elements
  | .hash pairs => Expr.literalsPairs around pairs
  | .index collection key =>
      Expr.literals none around collection ++
        Expr.literals none (around.after (Expr.lets collection)) key

def Expr.literalsList (around : Around) : List Expr → List Literal
  | [] => []
  | expr :: rest =>
      Expr.literals none around expr ++ Expr.literalsList (around.after (Expr.lets expr)) rest

def Expr.literalsPairs (around : Around) : List (Expr × Expr) → List Literal
  | [] => []
  | (key, value) :: rest =>
      Expr.literals none around key ++
        (Expr.literals none (around.after (Expr.lets key)) value ++
          Expr.literalsPairs ((around.after (Expr.lets key)).after (Expr.lets value)) rest)

end

/-- The literals of a program. -/
def Program.literals (program : Program) : List Literal := Block.literals none program

@[simp]
theorem Event.literals_ofFunction (own : Option String) (params : List String)
    (body : List Event) :
    Event.literals (Event.ofFunction own params body) = Event.literals body + 1 := by
  simp [Event.ofFunction]

mutual

theorem Stmt.length_literals (around : Around) (stmt : Stmt) :
    (Stmt.literals around stmt).length = Event.literals (Stmt.events stmt) := by
  cases stmt with
  | expr value | ret value => exact Expr.length_literals none around value
  | bind name value =>
      simp [Stmt.literals, Stmt.events, Event.literals, Expr.length_literals (some name) around value]

/-- The scan of a block counts its literals. -/
theorem Block.length_literals (around : Around) (block : List Stmt) :
    (Block.literals around block).length = Event.literals (Block.events block) := by
  cases block with
  | nil => simp [Block.literals, Block.events, Event.literals]
  | cons stmt rest =>
      simp [Block.literals, Block.events, Stmt.length_literals around stmt,
        Block.length_literals _ rest]

theorem Expr.length_literals (own : Option String) (around : Around) (expr : Expr) :
    (Expr.literals own around expr).length = Event.literals (Expr.events own expr) := by
  cases expr with
  | ident | int | str | bool => simp [Expr.literals, Expr.events, Event.literals]
  | unary operator operand => exact Expr.length_literals none around operand
  | binary left operator right =>
      by_cases hless : operator = "<" <;>
        simp [Expr.literals, Expr.events, hless, Expr.length_literals none _ left,
          Expr.length_literals none _ right]
  | cond test yes no =>
      cases no with
      | none =>
          simp [Expr.literals, Expr.events, Expr.length_literals none around test,
            Block.length_literals _ yes]
      | some no =>
          simp [Expr.literals, Expr.events, Expr.length_literals none around test,
            Block.length_literals _ yes, Block.length_literals _ no]
  | function params body =>
      simp [Expr.literals, Expr.events, Block.length_literals _ body]
  | call callee args =>
      simp [Expr.literals, Expr.events, Expr.length_literalsList around args,
        Expr.length_literals none _ callee]
  | array elements => exact Expr.length_literalsList around elements
  | hash pairs => exact Expr.length_literalsPairs around pairs
  | index collection key =>
      simp [Expr.literals, Expr.events, Expr.length_literals none _ collection,
        Expr.length_literals none _ key]

theorem Expr.length_literalsList (around : Around) (exprs : List Expr) :
    (Expr.literalsList around exprs).length = Event.literals (Expr.eventsList exprs) := by
  cases exprs with
  | nil => simp [Expr.literalsList, Expr.eventsList, Event.literals]
  | cons expr rest =>
      simp [Expr.literalsList, Expr.eventsList, Expr.length_literals none around expr,
        Expr.length_literalsList _ rest]

theorem Expr.length_literalsPairs (around : Around) (pairs : List (Expr × Expr)) :
    (Expr.literalsPairs around pairs).length = Event.literals (Expr.eventsPairs pairs) := by
  cases pairs with
  | nil => simp [Expr.literalsPairs, Expr.eventsPairs, Event.literals]
  | cons pair rest =>
      obtain ⟨key, value⟩ := pair
      simp [Expr.literalsPairs, Expr.eventsPairs, Expr.length_literals none around key,
        Expr.length_literals none _ value, Expr.length_literalsPairs _ rest]

end

end MonkeyMachine
