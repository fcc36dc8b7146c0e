import MonkeyMachine.Assoc
import MonkeyMachine.Machine.Fault
import MonkeyMachine.Proofs.Acts
import MonkeyMachine.Proofs.Sites

/-!
# What programs mean

An interpreter for programs as trees. There is no code in it, no pool of constants and no stack: it
says what a program computes, and the rest of the development says that compiled code computes just
that.

Each `let` has a cell of its own, at the top level or in each call of the function it stands in. A
name means what its site says: the binding that was scanned last, whether it has been executed or
not. A function literal copies the values of the variables of functions around it.

Calls can be nested to a given depth, like in the machine. Apart from this there are no limits.
-/

namespace MonkeyMachine

/-! ## Data -/

/-- A function literal. -/
structure Lambda where
  /-- The number of the literal. -/
  index : Nat
  /-- What names mean at the start of the body. -/
  site : Site
  params : List String
  body : List Stmt

/-- The values of programs. Arrays, hashes and closures are numbered in the order in which they are
made. -/
inductive Datum
  | int (n : Int64)
  | bool (b : Bool)
  | null
  | str (s : String)
  | array (serial : Nat) (elements : List Datum)
  | hash (serial : Nat) (entries : List (Key × Datum))
  /-- A function that captures nothing. -/
  | function (lambda : Lambda)
  | closure (serial : Nat) (lambda : Lambda) (captured : List Datum)
  | builtin (b : Builtin)

namespace Datum

def kind : Datum → Kind
  | int _ => .integer
  | bool _ => .boolean
  | null => .null
  | str _ => .string
  | array _ _ => .array
  | hash _ _ => .hash
  | function _ => .compiledFunction
  | closure _ _ _ => .closure
  | builtin _ => .builtin

def truthy : Datum → Bool
  | null => false
  | bool b => b
  | _ => true

/-- The key that a datum is as an index of a hash. -/
def key? : Datum → Option Key
  | int n => some (.int n)
  | bool b => some (.bool b)
  | str s => some (.str s)
  | _ => none

def elements? : Datum → Option (List Datum)
  | array _ elements => some elements
  | _ => none

/-- Whether two data are one and the same. Composite ones are if they have the same number, and
functions if they stem from the same literal. -/
def identical : Datum → Datum → Bool
  | int a, int b => a == b
  | bool a, bool b => a == b
  | null, null => true
  | str a, str b => a == b
  | array i _, array j _ => i == j
  | hash i _, hash j _ => i == j
  | function f, function g => f.index == g.index
  | closure i _ _, closure j _ _ => i == j
  | builtin a, builtin b => a == b
  | _, _ => false

mutual

/-- What a program prints for a datum. -/
def text : Datum → String
  | int n => toString n.toInt
  | bool b => boolText b
  | null => "null"
  | str s => s
  | array _ elements => "[" ++ String.intercalate ", " (texts elements) ++ "]"
  | hash _ entries => "\x7b" ++ String.intercalate ", " (entryTexts entries) ++ "\x7d"
  | function _ => "CompiledFunction[PTR]"
  | closure _ _ _ => "Closure[PTR]"
  | builtin b => "builtin function " ++ b.name

def texts : List Datum → List String
  | [] => []
  | d :: rest => text d :: texts rest

def entryTexts : List (Key × Datum) → List String
  | [] => []
  | (k, d) :: rest => (k.text ++ ": " ++ text d) :: entryTexts rest

end

/-! ## Operators -/

/-- An operator that is defined for integers only. -/
def onInts (op : Opcode) (f : Int64 → Int64 → Except Fault Datum) :
    Datum → Datum → Except Fault Datum
  | int l, int r => f l r
  | left, right => .error (.typeMismatch op left.kind right.kind)

def plus : Datum → Datum → Except Fault Datum
  | str l, str r => .ok (str (l ++ r))
  | left, right => onInts .add (fun l r => .ok (int (l + r))) left right

def greater : Datum → Datum → Except Fault Datum :=
  onInts .greaterThan fun l r => .ok (bool (decide (r < l)))

def divided : Datum → Datum → Except Fault Datum :=
  onInts .div fun l r => if r = 0 then .error .divisionByZero else .ok (int (l / r))

/-- The binary operators whose left side comes first. No program that compiles has others. -/
def binary (operator : String) (left right : Datum) : Except Fault Datum :=
  if operator = "+" then plus left right
  else if operator = "-" then onInts .sub (fun l r => .ok (int (l - r))) left right
  else if operator = "*" then onInts .mul (fun l r => .ok (int (l * r))) left right
  else if operator = "/" then divided left right
  else if operator = ">" then greater left right
  else if operator = "==" then .ok (bool (left.identical right))
  else if operator = "!=" then .ok (bool !left.identical right)
  else .ok null

def negative : Datum → Except Fault Datum
  | int n => .ok (int (-n))
  | d => .error (.unsupportedNegation d.kind)

/-- The unary operators. No program that compiles has others. -/
def unary (operator : String) (operand : Datum) : Except Fault Datum :=
  if operator = "!" then .ok (bool !operand.truthy)
  else if operator = "-" then negative operand
  else .ok null

/-- An element of an array, or the value of a hash under a key. -/
def indexed (collection place : Datum) : Except Fault Datum :=
  match collection with
  | hash _ entries =>
      match place.key? with
      | some key => .ok ((Assoc.find? key entries).getD null)
      | none => .error (.unusableHashKey place.kind)
  | array _ elements =>
      match place with
      | int n => .ok (if n.toInt < 0 then null else elements.getD n.toInt.toNat null)
      | _ => .error (.indexNotSupported collection.kind place.kind)
  | _ => .error (.indexNotSupported collection.kind place.kind)

/-- Add keys with their values to the entries of a hash, first to last. -/
def addPairs (entries : List (Key × Datum)) :
    List (Datum × Datum) → Except Fault (List (Key × Datum))
  | [] => .ok entries
  | (k, d) :: rest =>
      match k.key? with
      | some key => addPairs (Assoc.insert key d entries) rest
      | none => .error (.unusableHashKey k.kind)

end Datum

/-! ## Builtins -/

namespace Builtin

/-- The elements of an argument that has to be an array. -/
def elementsOf (b : Builtin) (d : Datum) : Except BuiltinError (List Datum) :=
  match d.elements? with
  | some elements => .ok elements
  | none => .error (.argumentMustBe b .array d.kind)

def lengthOf : Datum → Except BuiltinError Datum
  | .str s => .ok (.int (Int64.ofNat s.length))
  | .array _ elements => .ok (.int (Int64.ofNat elements.length))
  | d => .error (.argumentNotSupported len d.kind)

/-- The result of a call. `serial` is the number of the array it makes, if it makes one. -/
def answer (serial : Nat) : Builtin → List Datum → Except BuiltinError Datum
  | puts, _ => .ok .null
  | len, [d] => lengthOf d
  | first, [d] => do
      let elements ← elementsOf first d
      pure (elements.head?.getD .null)
  | last, [d] => do
      let elements ← elementsOf last d
      pure (elements.getLast?.getD .null)
  | rest, [d] => do
      let elements ← elementsOf rest d
      if elements.isEmpty then
        pure .null
      else
        pure (.array serial elements.tail)
  | push, [d, e] => do
      let elements ← elementsOf push d
      pure (.array serial (elements ++ [e]))
  | push, args => .error (.wrongArgumentCount push 2 args.length)
  | b, args => .error (.wrongArgumentCount b 1 args.length)

/-- The text that a call prints. -/
def prints : Builtin → List Datum → String
  | puts, args => String.join (args.map fun d => d.text ++ "\n")
  | _, _ => ""

end Builtin

/-! ## Memory -/

/-- What evaluation reads and writes. -/
structure Memory where
  /-- The cells of the top level, as far as they are assigned. -/
  globals : Nat → Option Datum
  /-- The cells of the current call: its parameters, and what its body binds. -/
  cells : List Datum
  /-- Number of data made so far. -/
  created : Nat
  output : String

/-- Why evaluation does not go on. -/
inductive Stop
  /-- A return statement was executed. -/
  | returned (d : Datum)
  | failed (fault : Fault)

abbrev Eval := EStateM Stop Memory

namespace Eval

/-- The number of a datum that is about to be made. -/
def fresh : Eval Nat :=
  modifyGet fun mem => (mem.created, { mem with created := mem.created + 1 })

def print (text : String) : Eval Unit :=
  modify fun mem => { mem with output := mem.output ++ text }

def ofResult {α : Type} : Except Fault α → Eval α
  | .ok a => pure a
  | .error fault => throw (.failed fault)

end Eval

/-- What a call brings with it. At the top level there is no function. -/
structure Env where
  captured : List Datum
  self : Option Datum

namespace Env

/-- The environment of the top level. -/
def top : Env := { captured := [], self := none }

def read (env : Env) : Place → Eval Datum
  | .global slot => do
      match (← get).globals slot with
      | some d => pure d
      | none => throw (.failed (.undefinedGlobal slot))
  | .cell index => do pure ((← get).cells.getD index .null)
  | .captured index => pure (env.captured.getD index .null)
  | .self => pure (env.self.getD .null)
  | .builtin b => pure (.builtin b)

theorem read_global_of_some {env : Env} {slot : Nat} {mem : Memory} {d : Datum}
    (h : mem.globals slot = some d) : env.read (.global slot) mem = .ok d mem := by
  simp only [read]
  rw [act_bind_of_ok (show (get : Eval Memory) mem = .ok mem mem from rfl), h]
  rfl

theorem read_global_of_none {env : Env} {slot : Nat} {mem : Memory} (h : mem.globals slot = none) :
    env.read (.global slot) mem = .error (.failed (.undefinedGlobal slot)) mem := by
  simp only [read]
  rw [act_bind_of_ok (show (get : Eval Memory) mem = .ok mem mem from rfl), h]
  rfl

/-- The value of a name. In programs that compile every name stands for something. -/
def lookup (env : Env) (site : Site) (name : String) : Eval Datum :=
  match site.place? name with
  | some place => env.read place
  | none => pure .null

def lookupAll (env : Env) (site : Site) : List String → Eval (List Datum)
  | [] => pure []
  | name :: rest => do
      let d ← env.lookup site name
      let ds ← env.lookupAll site rest
      pure (d :: ds)

end Env

/-- Assign the next cell: that of a name which is bound at this point. -/
def Site.assign (site : Site) (d : Datum) : Eval Unit :=
  modify fun mem =>
    match site.body with
    | none =>
        { mem with
          globals := fun slot => if slot = site.globals.length then some d else mem.globals slot }
    | some locals => { mem with cells := mem.cells.set locals.names.length d }

/-! ## Evaluation -/

/-- How a statement that was executed to its end went. -/
inductive Done
  /-- An expression had this value. -/
  | value (d : Datum)
  /-- A name was bound to this value. -/
  | bound (d : Datum)

/-- The value of a branch or of a function body, given by its last statement. -/
def Done.result : Option Done → Datum
  | some (.value d) => d
  | _ => .null

/-- The value of a program, given by its last statement. -/
def Done.last : Option Done → Datum
  | some (.value d) => d
  | some (.bound d) => d
  | none => .null

/-- A function literal at a site. -/
def Site.lambda (site : Site) (own : Option String) (params : List String) (body : List Stmt) :
    Lambda where
  index := site.literals + Event.literals (Block.events body)
  site := site.enter own params (Block.events body)
  params := params
  body := body

section Trees

variable (call : Datum → List Datum → Eval Datum) (env : Env)

mutual

def Stmt.eval (site : Site) : Stmt → Eval Done
  | .expr value => do
      let d ← Expr.eval none site value
      pure (.value d)
  | .bind name value => do
      let d ← Expr.eval (some name) site value
      (site.after (Expr.events (some name) value)).assign d
      pure (.bound d)
  | .ret value => do
      let d ← Expr.eval none site value
      throw (.returned d)

/-- The statements of a block, up to a return. The answer tells of the last one. -/
def Block.eval (site : Site) : List Stmt → Eval (Option Done)
  | [] => pure none
  | [stmt] => do
      let done ← Stmt.eval site stmt
      pure (some done)
  | stmt :: next :: rest => do
      let _ ← Stmt.eval site stmt
      Block.eval (site.after (Stmt.events stmt)) (next :: rest)

/-- The value of an expression. `own` is the name that it is about to be bound to. -/
def Expr.eval (own : Option String) (site : Site) : Expr → Eval Datum
  | .ident name => env.lookup site name
  | .int n => pure (.int n)
  | .str s => pure (.str s)
  | .bool b => pure (.bool b)
  | .unary operator operand => do
      let d ← Expr.eval none site operand
      Eval.ofResult (Datum.unary operator d)
  | .binary left operator right =>
      if operator = "<" then do
        let r ← Expr.eval none site right
        let l ← Expr.eval none (site.after (Expr.events none right)) left
        Eval.ofResult (Datum.greater r l)
      else do
        let l ← Expr.eval none site left
        let r ← Expr.eval none (site.after (Expr.events none left)) right
        Eval.ofResult (Datum.binary operator l r)
  | .cond test yes none => do
      let t ← Expr.eval none site test
      if t.truthy then
        let done ← Block.eval (site.after (Expr.events none test)) yes
        pure (Done.result done)
      else
        pure .null
  | .cond test yes (some no) => do
      let t ← Expr.eval none site test
      if t.truthy then
        let done ← Block.eval (site.after (Expr.events none test)) yes
        pure (Done.result done)
      else
        let done ← Block.eval
          ((site.after (Expr.events none test)).after (Block.events yes)) no
        pure (Done.result done)
  | .function params body =>
      let names := site.captures own params (Block.events body)
      if names.isEmpty then
        pure (.function (site.lambda own params body))
      else do
        let captured ← env.lookupAll site names
        let serial ← Eval.fresh
        pure (.closure serial (site.lambda own params body) captured)
  | .call callee args => do
      let ds ← Expr.evalList site args
      let f ← Expr.eval none (site.after (Expr.eventsList args)) callee
      call f ds
  | .array elements => do
      let ds ← Expr.evalList site elements
      let serial ← Eval.fresh
      pure (.array serial ds)
  | .hash pairs => do
      let ds ← Expr.evalPairs site pairs
      let entries ← Eval.ofResult (Datum.addPairs [] ds)
      let serial ← Eval.fresh
      pure (.hash serial entries)
  | .index collection key => do
      let c ← Expr.eval none site collection
      let k ← Expr.eval none (site.after (Expr.events none collection)) key
      Eval.ofResult (Datum.indexed c k)

def Expr.evalList (site : Site) : List Expr → Eval (List Datum)
  | [] => pure []
  | expr :: rest => do
      let d ← Expr.eval none site expr
      let ds ← Expr.evalList (site.after (Expr.events none expr)) rest
      pure (d :: ds)

def Expr.evalPairs (site : Site) : List (Expr × Expr) → Eval (List (Datum × Datum))
  | [] => pure []
  | (key, value) :: rest => do
      let k ← Expr.eval none site key
      let d ← Expr.eval none (site.after (Expr.events none key)) value
      let ds ← Expr.evalPairs
        ((site.after (Expr.events none key)).after (Expr.events none value)) rest
      pure ((k, d) :: ds)

end

end Trees

/-! ## Calls -/

/-- The outcome of a block that a return statement leaves. `whole` is its value if there is none. -/
def Eval.body (whole : Option Done → Datum) (block : Eval (Option Done)) : Eval Datum := fun mem =>
  match block mem with
  | .ok done mem => .ok (whole done) mem
  | .error (.returned d) mem => .ok d mem
  | .error (.failed fault) mem => .error (.failed fault) mem

/-- The cells of a call: the arguments, and null for each name that the body binds. -/
def Lambda.cells (lambda : Lambda) (args : List Datum) : List Datum :=
  args ++ List.replicate (Event.binds (Block.events lambda.body)).length .null

/-- Evaluate the body of a function. It has cells of its own. -/
def Lambda.run (call : Datum → List Datum → Eval Datum) (lambda : Lambda) (env : Env)
    (args : List Datum) : Eval Datum := do
  let cells := (← get).cells
  modify fun mem => { mem with cells := lambda.cells args }
  let d ← Eval.body Done.result (Block.eval call env lambda.site lambda.body)
  modify fun mem => { mem with cells }
  pure d

/-- Call a datum. `run` evaluates bodies. -/
def Datum.apply (run : Lambda → Env → List Datum → Eval Datum) (callee : Datum)
    (args : List Datum) : Eval Datum :=
  let enter (lambda : Lambda) (env : Env) : Eval Datum :=
    if args.length = lambda.params.length then run lambda env args
    else throw (.failed (.wrongArgumentCount lambda.params.length args.length))
  match callee with
  | .closure _ lambda captured => enter lambda { captured, self := some callee }
  | .function lambda => do
      let serial ← Eval.fresh
      enter lambda { captured := [], self := some (.closure serial lambda []) }
  | .builtin b => do
      let serial ← Eval.fresh
      Eval.print (b.prints args)
      match b.answer serial args with
      | .ok d => pure d
      | .error cause => throw (.failed (.builtin cause))
  | other => throw (.failed (.notCallable other.kind))

/-- Call a datum when `depth` more calls can be nested, of `maxFrames` with the program itself. -/
def Datum.call (maxFrames : Nat) : Nat → Datum → List Datum → Eval Datum
  | 0 => Datum.apply fun _ _ _ => throw (.failed (.frameOverflow maxFrames))
  | depth + 1 => Datum.apply (Lambda.run (Datum.call maxFrames depth))

/-! ## Programs -/

/-- Evaluate a program at the top level. A return statement ends it there, too. -/
def Program.eval (maxFrames : Nat) (site : Site) (program : Program) (mem : Memory) :
    Except Fault Datum × Memory :=
  match Block.eval (Datum.call maxFrames (maxFrames - 1)) .top site program mem with
  | .ok done mem => (.ok (Done.last done), mem)
  | .error (.returned d) mem => (.ok d, mem)
  | .error (.failed fault) mem => (.error fault, mem)

/-- The outcome of a program. -/
structure Outcome where
  result : Except Fault Datum
  output : String

/-- What programs leave for those after them. -/
structure Reference where
  site : Site
  globals : Nat → Option Datum
  created : Nat

namespace Reference

def start : Reference := { site := .initial, globals := fun _ => none, created := 0 }

/-- The memory that the next program starts with. -/
def memory (before : Reference) : Memory :=
  { globals := before.globals, cells := [], created := before.created, output := "" }

/-- Evaluate a program. -/
def eval (maxFrames : Nat) (program : Program) (before : Reference) : Outcome × Reference :=
  let (result, mem) := Program.eval maxFrames before.site program before.memory
  ({ result, output := mem.output },
    { site := before.site.after (Block.events program)
      globals := mem.globals
      created := mem.created })

end Reference

end MonkeyMachine
