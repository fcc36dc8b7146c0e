import Mathlib.Data.List.Basic
import MonkeyMachine.Program
import MonkeyMachine.SymbolTable

/-!
# What names mean, point by point

A `Site` is a point of a program together with what its names mean there. It is described by names
alone: there are no tables, and no bindings that are made on the way.

A program is scanned in the order in which it is compiled. The scan meets bindings, uses of names
and literals; `Expr.events` lists them. Everything that a site says about a later point follows
from the events between the two: `Site.after`.

A function literal is an event of the function around it: it uses there the names that it does not
bind itself. A name that a function uses and that a function around it binds is captured.
-/

namespace MonkeyMachine

/-! ## Lists of names -/

namespace Names

/-- The place of the last occurrence of a name. -/
def lastIndex? (name : String) : List String → Option Nat
  | [] => none
  | other :: rest =>
      match lastIndex? name rest with
      | some i => some (i + 1)
      | none => if other = name then some 0 else none

/-- Add a name at the end, unless it is there already. -/
def add (names : List String) (name : String) : List String :=
  if name ∈ names then names else names ++ [name]

/-- Add names one after another. -/
def addAll (names more : List String) : List String := more.foldl add names

theorem lastIndex?_append_singleton (name other : String) (names : List String) :
    lastIndex? name (names ++ [other]) =
      if other = name then some names.length else lastIndex? name names := by
  induction names with
  | nil => simp [lastIndex?]
  | cons first rest ih =>
      rw [List.cons_append, lastIndex?, ih]
      by_cases h : other = name <;> simp [lastIndex?, h]

theorem lastIndex?_eq_none_iff {name : String} {names : List String} :
    lastIndex? name names = none ↔ name ∉ names := by
  induction names with
  | nil => simp [lastIndex?]
  | cons first rest ih =>
      cases hrest : lastIndex? name rest with
      | some i =>
          have hmem : name ∈ rest := by
            by_contra hnot
            rw [ih.2 hnot] at hrest
            cases hrest
          simp [lastIndex?, hrest, hmem]
      | none =>
          have hnot : name ∉ rest := ih.1 hrest
          simp [lastIndex?, hrest, hnot, eq_comm]

theorem lastIndex?_lt {name : String} {names : List String} {i : Nat}
    (h : lastIndex? name names = some i) : i < names.length := by
  induction names generalizing i with
  | nil => simp [lastIndex?] at h
  | cons first rest ih =>
      cases hrest : lastIndex? name rest with
      | some j =>
          have hj := ih hrest
          simp [lastIndex?, hrest] at h
          simp
          omega
      | none =>
          simp [lastIndex?, hrest] at h
          simp
          omega

theorem addAll_append (names xs ys : List String) :
    addAll names (xs ++ ys) = addAll (addAll names xs) ys := by
  simp [addAll]

@[simp]
theorem addAll_nil (names : List String) : addAll names [] = names := rfl

@[simp]
theorem addAll_cons (names : List String) (x : String) (xs : List String) :
    addAll names (x :: xs) = addAll (add names x) xs := rfl

theorem prefix_add (names : List String) (x : String) : names <+: add names x := by
  unfold add
  split
  · exact List.prefix_refl _
  · exact List.prefix_append _ _

theorem prefix_addAll (names xs : List String) : names <+: addAll names xs := by
  induction xs generalizing names with
  | nil => exact List.prefix_refl _
  | cons x xs ih => exact (prefix_add names x).trans (ih (add names x))

theorem mem_add {names : List String} {x y : String} : y ∈ add names x ↔ y ∈ names ∨ y = x := by
  unfold add
  split
  · rename_i h
    constructor
    · exact Or.inl
    · rintro (hy | rfl)
      · exact hy
      · exact h
  · simp

theorem mem_addAll {names xs : List String} {y : String} :
    y ∈ addAll names xs ↔ y ∈ names ∨ y ∈ xs := by
  induction xs generalizing names with
  | nil => simp
  | cons x xs ih =>
      rw [addAll_cons, ih, mem_add, List.mem_cons, or_assoc]

end Names

/-! ## Events -/

/-- What the scan of a program meets. -/
inductive Event
  /-- A binding takes effect. -/
  | bind (name : String)
  /-- A name is looked up. -/
  | use (name : String)
  /-- A literal ends: an integer, a string or a function. -/
  | literal
  deriving DecidableEq

namespace Event

/-- The names bound, in order. -/
def binds : List Event → List String
  | [] => []
  | bind name :: rest => name :: binds rest
  | _ :: rest => binds rest

/-- The number of literals. -/
def literals : List Event → Nat
  | [] => 0
  | literal :: rest => literals rest + 1
  | _ :: rest => literals rest

/-- The names that are looked up while they are not bound. Those in `bound` are from the start. -/
def uses (bound : List String) : List Event → List String
  | [] => []
  | bind name :: rest => uses (bound ++ [name]) rest
  | use name :: rest => if name ∈ bound then uses bound rest else name :: uses bound rest
  | literal :: rest => uses bound rest

@[simp]
theorem binds_append (xs ys : List Event) : binds (xs ++ ys) = binds xs ++ binds ys := by
  induction xs with
  | nil => rfl
  | cons x xs ih => cases x <;> simp [binds, ih]

@[simp]
theorem literals_append (xs ys : List Event) :
    literals (xs ++ ys) = literals xs + literals ys := by
  induction xs with
  | nil => simp [literals]
  | cons x xs ih =>
      cases x with
      | literal =>
          simp [literals, ih]
          omega
      | _ => simp [literals, ih]

theorem uses_append (bound : List String) (xs ys : List Event) :
    uses bound (xs ++ ys) = uses bound xs ++ uses (bound ++ binds xs) ys := by
  induction xs generalizing bound with
  | nil => simp [uses, binds]
  | cons x xs ih =>
      cases x with
      | bind name => simp [uses, binds, ih]
      | use name => by_cases h : name ∈ bound <;> simp [uses, binds, ih, h]
      | literal => simp [uses, binds, ih]

@[simp]
theorem binds_map_use (names : List String) : binds (names.map use) = [] := by
  induction names with
  | nil => rfl
  | cons name rest ih => simp [binds, ih]

@[simp]
theorem literals_map_use (names : List String) : literals (names.map use) = 0 := by
  induction names with
  | nil => rfl
  | cons name rest ih => simp [literals, ih]

theorem uses_map_use (bound names : List String) :
    uses bound (names.map use) = names.filter (· ∉ bound) := by
  induction names with
  | nil => rfl
  | cons name rest ih => by_cases h : name ∈ bound <;> simp [uses, ih, h]

@[simp]
theorem binds_replicate_literal (n : Nat) : binds (List.replicate n literal) = [] := by
  induction n with
  | zero => rfl
  | succ n ih => simp [List.replicate_succ, binds, ih]

@[simp]
theorem literals_replicate_literal (n : Nat) : literals (List.replicate n literal) = n := by
  induction n with
  | zero => rfl
  | succ n ih => simp [List.replicate_succ, literals, ih]

@[simp]
theorem uses_replicate_literal (bound : List String) (n : Nat) :
    uses bound (List.replicate n literal) = [] := by
  induction n with
  | zero => rfl
  | succ n ih => simp [List.replicate_succ, uses, ih]

/-- A function literal as it appears to the function around it. -/
def ofFunction (own : Option String) (params : List String) (body : List Event) : List Event :=
  (uses (own.toList ++ params) body).map use ++ List.replicate (literals body + 1) literal

end Event

mutual

def Stmt.events : Stmt → List Event
  | .expr value => Expr.events none value
  | .bind name value => Expr.events (some name) value ++ [.bind name]
  | .ret value => Expr.events none value

def Block.events : List Stmt → List Event
  | [] => []
  | stmt :: rest => Stmt.events stmt ++ Block.events rest

/-- The events of an expression, in the order in which it is compiled: the right side of `<` comes
first, and so do the arguments of a call. `own` is the name that the expression is about to be bound
to. -/
def Expr.events (own : Option String) : Expr → List Event
  | .ident name => [.use name]
  | .int _ => [.literal]
  | .str _ => [.literal]
  | .bool _ => []
  | .unary _ operand => Expr.events none operand
  | .binary left operator right =>
      if operator = "<" then Expr.events none right ++ Expr.events none left
      else Expr.events none left ++ Expr.events none right
  | .cond test yes none => Expr.events none test ++ Block.events yes
  | .cond test yes (some no) => Expr.events none test ++ (Block.events yes ++ Block.events no)
  | .function params body => Event.ofFunction own params (Block.events body)
  | .call callee args => Expr.eventsList args ++ Expr.events none callee
  | .array elements => Expr.eventsList elements
  | .hash pairs => Expr.eventsPairs pairs
  | .index collection key => Expr.events none collection ++ Expr.events none key

def Expr.eventsList : List Expr → List Event
  | [] => []
  | expr :: rest => Expr.events none expr ++ Expr.eventsList rest

def Expr.eventsPairs : List (Expr × Expr) → List Event
  | [] => []
  | (key, value) :: rest =>
      Expr.events none key ++ (Expr.events none value ++ Expr.eventsPairs rest)

end

/-! ## Sites -/

/-- The names of a function body, as far as it has been scanned. -/
structure Locals where
  /-- The name that the function is bound to. -/
  own : Option String
  /-- The names of functions around it that it uses, in the order of their first use. -/
  captured : List String
  /-- The parameters and the names bound so far, oldest first. -/
  names : List String

/-- A point of a program. -/
structure Site where
  /-- The names bound at the top level so far, oldest first. -/
  globals : List String
  /-- Number of literals that ended before this point. -/
  literals : Nat
  /-- The function body around this point, if any. -/
  body : Option Locals

/-- What a name stands for. -/
inductive Place
  /-- A cell of the top level. -/
  | global (slot : Nat)
  /-- A cell of the current call. -/
  | cell (index : Nat)
  /-- A captured value. -/
  | captured (index : Nat)
  /-- The function that is being called. -/
  | self
  | builtin (b : Builtin)
  deriving DecidableEq

/-- What a name stands for by the function body alone. A later binding hides an earlier one, any
binding hides the name of the function, and that hides what is captured. -/
def Locals.place? (locals : Locals) (name : String) : Option Place :=
  match Names.lastIndex? name locals.names with
  | some index => some (.cell index)
  | none =>
      if locals.own = some name then some .self
      else if name ∈ locals.captured then some (.captured (locals.captured.idxOf name))
      else none

namespace Site

/-- The point before the first program. -/
def initial : Site := { globals := [], literals := 0, body := none }

/-- What a name stands for outside of all functions. -/
def outerPlace? (site : Site) (name : String) : Option Place :=
  match Names.lastIndex? name site.globals with
  | some slot => some (.global slot)
  | none => (Builtin.ofName? name).map .builtin

/-- What a name stands for. -/
def place? (site : Site) (name : String) : Option Place :=
  match site.body with
  | none => site.outerPlace? name
  | some locals => (locals.place? name).or (site.outerPlace? name)

/-- The names that the current function binds itself. The top level counts as a function here. -/
def bound (site : Site) : List String :=
  match site.body with
  | none => site.globals
  | some locals => locals.own.toList ++ locals.names

/-- The names that the current function has captured. -/
def captured (site : Site) : List String :=
  match site.body with
  | none => []
  | some locals => locals.captured

/-- The names of this function, and of those around it, that a function literal at this point can
capture. -/
def visible (site : Site) : List String :=
  match site.body with
  | none => []
  | some locals => locals.own.toList ++ locals.names ++ locals.captured

/-- The point behind `events`. -/
def after (site : Site) (events : List Event) : Site :=
  match site.body with
  | none =>
      { site with
        globals := site.globals ++ Event.binds events
        literals := site.literals + Event.literals events }
  | some locals =>
      { site with
        literals := site.literals + Event.literals events
        body := some { locals with names := locals.names ++ Event.binds events } }

/-- The names that a function literal at this point captures. `body` are the events of its body. -/
def captures (site : Site) (own : Option String) (params : List String) (body : List Event) :
    List String :=
  Names.addAll []
    ((Event.uses (own.toList ++ params) body).filter (· ∈ site.visible))

/-- The start of the body of a function literal at this point. -/
def enter (site : Site) (own : Option String) (params : List String) (body : List Event) : Site :=
  { site with body := some { own, captured := site.captures own params body, names := params } }

@[simp]
theorem after_nil (site : Site) : site.after [] = site := by
  obtain ⟨globals, literals, _ | locals⟩ := site <;> simp [after, Event.binds, Event.literals]

theorem after_append (site : Site) (xs ys : List Event) :
    site.after (xs ++ ys) = (site.after xs).after ys := by
  obtain ⟨globals, literals, _ | locals⟩ := site <;> simp [after, Nat.add_assoc]

@[simp]
theorem captured_after (site : Site) (events : List Event) :
    (site.after events).captured = site.captured := by
  obtain ⟨globals, literals, _ | locals⟩ := site <;> rfl

@[simp]
theorem bound_after (site : Site) (events : List Event) :
    (site.after events).bound = site.bound ++ Event.binds events := by
  obtain ⟨globals, literals, _ | locals⟩ := site <;> simp [after, bound]

@[simp]
theorem literals_after (site : Site) (events : List Event) :
    (site.after events).literals = site.literals + Event.literals events := by
  obtain ⟨globals, literals, _ | locals⟩ := site <;> rfl

theorem mem_captures {site : Site} {own : Option String} {params : List String}
    {body : List Event} {name : String} :
    name ∈ site.captures own params body ↔
      name ∈ Event.uses (own.toList ++ params) body ∧ name ∈ site.visible := by
  simp [captures, Names.mem_addAll]

theorem body_after_of_none {site : Site} (h : site.body = none) (events : List Event) :
    (site.after events).body = none := by
  simp [after, h]

theorem body_after_of_some {site : Site} {locals : Locals} (h : site.body = some locals)
    (events : List Event) :
    (site.after events).body =
      some { locals with names := locals.names ++ Event.binds events } := by
  simp [after, h]

end Site

end MonkeyMachine
