import MonkeyMachine.Proofs.Execution
import MonkeyMachine.Proofs.WellFormed

/-!
# Integer expressions

Expressions of integer literals, negation, addition, subtraction and multiplication. Their values are
whole numbers of any size, and the machine computes with words of 64 bits. It does not matter how
often an intermediate result wraps around: the last word stands for the whole number up to multiples
of 2^64, because every operation on words is the one on whole numbers, reduced.

Such an expression needs one slot of the stack for a literal, and one more for the right operand of
an operation than on its own, since the left one waits below it. `Arith.executes` says that this many
slots are enough, and `Arith.overflows` that fewer are not.
-/

namespace MonkeyMachine

/-- An operation on two integers. -/
inductive Arith.Operation
  | plus
  | minus
  | times

/-- An expression that computes with integers only. -/
inductive Arith
  | literal (n : Int64)
  | negative (operand : Arith)
  | binary (left : Arith) (operation : Arith.Operation) (right : Arith)

namespace Arith

namespace Operation

def spelling : Operation → String
  | plus => "+"
  | minus => "-"
  | times => "*"

/-- The operation on whole numbers. -/
def apply : Operation → Int → Int → Int
  | plus, l, r => l + r
  | minus, l, r => l - r
  | times, l, r => l * r

def opcode : Operation → Opcode
  | plus => .add
  | minus => .sub
  | times => .mul

end Operation

def expr : Arith → Expr
  | literal n => .int n
  | negative operand => .unary "-" operand.expr
  | binary left operation right => .binary left.expr operation.spelling right.expr

/-- The whole number that the expression stands for. -/
def value : Arith → Int
  | literal n => n.toInt
  | negative operand => -operand.value
  | binary left operation right => operation.apply left.value right.value

/-- The number of slots that the expression needs on the stack. -/
def need : Arith → Nat
  | literal _ => 1
  | negative operand => operand.need
  | binary left _ right => max left.need (right.need + 1)

/-! ## Code -/

/-- The literals, from left to right. -/
def literals : Arith → List Int64
  | literal n => [n]
  | negative operand => operand.literals
  | binary left _ right => left.literals ++ right.literals

/-- The instructions, if the first literal has the number `first` in the pool. -/
def instrs (first : Nat) : Arith → List Instr
  | literal _ => [⟨.constant, [first]⟩]
  | negative operand => operand.instrs first ++ [⟨.minus, []⟩]
  | binary left operation right =>
      left.instrs first ++ (right.instrs (first + left.literals.length) ++ [⟨operation.opcode, []⟩])

/-- The values of the literals. -/
def constants (t : Arith) : List Value := t.literals.map .int

theorem Operation.spelling_ne_less (operation : Operation) : operation.spelling ≠ "<" := by
  cases operation <;> decide

theorem Operation.binaryOpcode?_spelling (operation : Operation) :
    Compile.binaryOpcode? operation.spelling = some operation.opcode := by
  cases operation <;> rfl

theorem literals_events (t : Arith) (own : Option String) :
    Event.literals (Expr.events own t.expr) = t.literals.length := by
  induction t generalizing own with
  | literal n => rfl
  | negative operand ih => exact ih none
  | binary left operation right ihl ihr =>
      simp [expr, literals, Expr.events, operation.spelling_ne_less, ihl, ihr]

/-- What an integer expression compiles to. -/
theorem layout_fragment (t : Arith) {site : Site} {start : Nat} {f : Fragment}
    (h : Expr.layout none site start t.expr = .ok f) :
    f.instrs = t.instrs site.literals ∧ f.constants = t.constants := by
  induction t generalizing site start f with
  | literal n =>
      simp only [expr, Expr.layout, Fragment.literal] at h
      cases hemit : Fragment.emit .constant [site.literals] with
      | error e =>
          rw [hemit] at h
          cases h
      | ok push =>
          rw [hemit] at h
          rcases Fragment.emit_eq_ok_iff.1 hemit with ⟨-, rfl⟩
          cases h
          exact ⟨rfl, rfl⟩
  | negative operand ih =>
      have hminus : Compile.unaryOpcode? "-" = some .minus := rfl
      simp only [expr, Expr.layout, hminus] at h
      rcases Fragment.seq_eq_ok_iff.1 h with ⟨a, ha, b, hb, rfl⟩
      rcases Fragment.emit_eq_ok_iff.1 hb with ⟨-, rfl⟩
      simp [ih ha, instrs, constants, literals]
  | binary left operation right ihl ihr =>
      simp only [expr, Expr.layout, operation.spelling_ne_less, operation.binaryOpcode?_spelling,
        if_false] at h
      rcases Fragment.seq_eq_ok_iff.1 h with ⟨a, ha, rest, hrest, rfl⟩
      rcases Fragment.seq_eq_ok_iff.1 hrest with ⟨b, hb, c, hc, rfl⟩
      rcases Fragment.emit_eq_ok_iff.1 hc with ⟨-, rfl⟩
      -- The right operand counts its literals from where the left one stopped.
      have hright := ihr hb
      simp only [Site.literals_after, left.literals_events] at hright
      simp [ihl ha, hright, instrs, constants, literals]

end Arith

/-! ## Machines that compute -/

namespace Machine

/-- The machine executes top-level code at position `ip`, with `values` on its stack. -/
structure Computes (code : Code) (pool : List Value) (capacity ip : Nat) (values : List Value)
    (m : Machine) : Prop where
  code : m.frame.code = code
  pool : m.constants.toList = pool
  callers : m.callers = #[]
  capacity : m.stack.capacity = capacity
  ip : m.frame.ip = ip
  live : m.stack.Live values

/-- How the runs from a state end, if they have fuel enough. -/
theorem Reaches.run_of_ends {m last final : Machine} {ending : Ending} (h : m.Reaches last)
    (hends : last.EndsAs ending final) (hended : ending ≠ .outOfFuel) :
    ∃ bound, ∀ fuel, bound ≤ fuel → m.run fuel = (ending, final) := by
  rcases h.run with ⟨steps, hsteps⟩
  have hrun : m.run (0 + 1 + steps) = (ending, final) :=
    (hsteps (0 + 1)).trans (run_of_endsAs hends hended 0)
  exact ⟨0 + 1 + steps, fun fuel hfuel => run_eq_of_le hrun hended hfuel⟩

namespace Computes

variable {code : Code} {pool : List Value} {capacity ip : Nat} {values : List Value} {v : Value}
  {m : Machine}

theorem jump (h : m.Computes code pool capacity ip values) (target : Nat) :
    (m.jump target).Computes code pool capacity target values :=
  { h with ip := rfl }

theorem step (h : m.Computes code pool capacity ip values) {i : Instr} {is : List Instr}
    (hcode : code.Holds ip (i :: is)) :
    Exec.step m = Exec.execute i.op (i.operands.getD 0 0) (i.operands.getD 1 0)
      (m.jump (ip + i.size)) := by
  have hholds : m.frame.code.Holds m.frame.ip (i :: is) := by
    rw [h.code, h.ip]
    exact hcode
  rw [Exec.step_of_holds hholds, h.ip]

theorem push (h : m.Computes code pool capacity ip values) (v : Value)
    (hroom : values.length < capacity) :
    ∃ m', Exec.push v m = .ok () m' ∧ m'.Computes code pool capacity ip (values ++ [v]) := by
  rw [← h.capacity] at hroom
  rcases h.live.push v hroom with ⟨stack, hpush, hlive, hsize⟩
  exact ⟨{ m with stack }, Exec.onStack_of_ok hpush,
    { h with capacity := hsize.trans h.capacity, live := hlive }⟩

theorem push_full (h : m.Computes code pool capacity ip values) (v : Value)
    (hfull : capacity ≤ values.length) :
    Exec.push v m = .error (.stackOverflow capacity) m := by
  rw [← h.capacity] at hfull ⊢
  exact Exec.onStack_of_error (h.live.push_full v hfull)

theorem pop (h : m.Computes code pool capacity ip (values ++ [v])) :
    ∃ m', Exec.pop m = .ok v m' ∧ m'.Computes code pool capacity ip values ∧ m'.lastPopped = v := by
  rcases h.live.pop with ⟨hpop, hless⟩
  exact ⟨_, Exec.onStack_of_ok hpop, { h with capacity := h.capacity, live := hless },
    h.live.lastPopped⟩

end Computes

end Machine

/-! ## Single instructions -/

/-- Pushing a part of the machine is pushing a value, if the part is there. -/
theorem Exec.pushFrom_of_ok {part : Machine → Except Fault Value} {m : Machine} {v : Value}
    (h : part m = .ok v) : Exec.pushFrom part m = Exec.push v m := by
  unfold Exec.pushFrom
  rw [act_bind_of_ok (show (get : Exec Machine) m = .ok m m from rfl), h]
  rfl

namespace Machine.Computes

variable {code : Code} {pool : List Value} {capacity ip : Nat} {values : List Value}
  {v w : Value} {m : Machine} {is : List Instr}

/-- What the instruction for a constant comes down to. -/
theorem pushes_constant (h : m.Computes code pool capacity ip values) {n : Nat}
    (hget : pool[n]? = some v) :
    Exec.pushFrom (fun m => Exec.orFault (.operandOutOfRange .constant n) m.constants[n]?) m =
      Exec.push v m := by
  apply Exec.pushFrom_of_ok
  have hconstant : m.constants[n]? = some v := by
    rw [← Array.getElem?_toList, h.pool, hget]
  rw [hconstant]
  rfl

theorem constant (h : m.Computes code pool capacity ip values) {n : Nat}
    (hcode : code.Holds ip (⟨.constant, [n]⟩ :: is)) (hget : pool[n]? = some v)
    (hroom : values.length < capacity) :
    ∃ m', m.Next m' ∧ m'.Computes code pool capacity (ip + 3) (values ++ [v]) := by
  have hjump := h.jump (ip + 3)
  rcases hjump.push v hroom with ⟨m', hpush, hm'⟩
  exact ⟨m', (h.step hcode).trans (act_bind_of_ok ((hjump.pushes_constant hget).trans hpush)), hm'⟩

theorem constant_full (h : m.Computes code pool capacity ip values) {n : Nat}
    (hcode : code.Holds ip (⟨.constant, [n]⟩ :: is)) (hget : pool[n]? = some v)
    (hfull : capacity ≤ values.length) :
    ∃ m', m.EndsAs (.failed (.stackOverflow capacity)) m' := by
  have hjump := h.jump (ip + 3)
  exact ⟨_, (h.step hcode).trans
    (act_bind_of_error ((hjump.pushes_constant hget).trans (hjump.push_full v hfull)))⟩

/-- An instruction without operands whose act succeeds. -/
theorem next (h : m.Computes code pool capacity ip values) {op : Opcode} {act : Exec Unit}
    {m' : Machine} (hcode : code.Holds ip (⟨op, []⟩ :: is))
    (hop : Exec.execute op 0 0 = Exec.goOn act)
    (hact : act (m.jump (ip + (Instr.mk op []).size)) = .ok () m') : m.Next m' := by
  have hstep : Exec.step m = Exec.execute op 0 0 (m.jump (ip + (Instr.mk op []).size)) :=
    h.step hcode
  rw [hop] at hstep
  exact hstep.trans (act_bind_of_ok hact)

/-- A value on the stack has a slot, which is free once it is popped. -/
theorem room (h : m.Computes code pool capacity ip (values ++ [v])) : values.length < capacity := by
  have hfits := h.live.length_le
  simp only [h.capacity, List.length_append, List.length_singleton] at hfits
  exact hfits

/-- The result of an operation takes the place of its operand. -/
theorem unary (h : m.Computes code pool capacity ip (values ++ [v])) {op : Opcode}
    {operation : Value → Except Fault Value} (hcode : code.Holds ip (⟨op, []⟩ :: is))
    (hop : Exec.execute op 0 0 = Exec.goOn (Exec.unary operation)) (hw : operation v = .ok w) :
    ∃ m', m.Next m' ∧
      m'.Computes code pool capacity (ip + (Instr.mk op []).size) (values ++ [w]) := by
  rcases (h.jump (ip + (Instr.mk op []).size)).pop with ⟨m₁, hpop, h₁, -⟩
  rcases h₁.push w h.room with ⟨m₂, hpush, h₂⟩
  refine ⟨m₂, h.next hcode hop ?_, h₂⟩
  refine (act_bind_of_ok hpop).trans ?_
  rw [hw]
  exact hpush

/-- The result of an operation takes the place of the first operand. -/
theorem binary {u : Value} (h : m.Computes code pool capacity ip (values ++ [u] ++ [v])) {op : Opcode}
    {operation : Value → Value → Except Fault Value} (hcode : code.Holds ip (⟨op, []⟩ :: is))
    (hop : Exec.execute op 0 0 = Exec.goOn (Exec.binary operation))
    (hw : operation u v = .ok w) :
    ∃ m', m.Next m' ∧
      m'.Computes code pool capacity (ip + (Instr.mk op []).size) (values ++ [w]) := by
  rcases (h.jump (ip + (Instr.mk op []).size)).pop with ⟨m₁, hpop₁, h₁, -⟩
  rcases h₁.pop with ⟨m₂, hpop₂, h₂, -⟩
  rcases h₂.push w h₁.room with ⟨m₃, hpush, h₃⟩
  refine ⟨m₃, h.next hcode hop ?_, h₃⟩
  refine (act_bind_of_ok hpop₁).trans ((act_bind_of_ok hpop₂).trans ?_)
  rw [hw]
  exact hpush

/-- The value of an expression statement is dropped, and can be read as the one popped last. -/
theorem drop (h : m.Computes code pool capacity ip (values ++ [v]))
    (hcode : code.Holds ip (⟨.pop, []⟩ :: is)) :
    ∃ m', m.Next m' ∧ m'.Computes code pool capacity (ip + 1) values ∧ m'.lastPopped = v := by
  rcases (h.jump (ip + 1)).pop with ⟨m', hpop, hm', hlast⟩
  exact ⟨m', h.next hcode rfl (act_bind_of_ok hpop), hm', hlast⟩

end Machine.Computes

/-! ## Whole expressions -/

namespace Arith

variable {code : Code} {pool : List Value} {capacity : Nat}

/-- An operation on words is the operation on whole numbers, reduced. -/
theorem Operation.arithmetic_ofInt (operation : Operation) (l r : Int) :
    Value.arithmetic operation.opcode (.int (.ofInt l)) (.int (.ofInt r)) =
      .ok (.int (.ofInt (operation.apply l r))) := by
  cases operation with
  | plus => simp only [opcode, Value.arithmetic, apply, Int64.ofInt_add]
  | minus => simp only [opcode, Value.arithmetic, apply, Int64.ofInt_sub]
  | times => simp only [opcode, Value.arithmetic, apply, Int64.ofInt_mul]

theorem Operation.execute_opcode (operation : Operation) :
    Exec.execute operation.opcode 0 0 = Exec.goOn (Exec.binary (Value.arithmetic operation.opcode)) := by
  cases operation <;> rfl

theorem getElem?_of_literal {n : Int64} {first : Nat}
    (h : (literal n).constants <+: pool.drop first) : pool[first]? = some (.int n) := by
  have hplaced : [] ++ Value.int n :: [] <+: pool.drop first := h
  exact getElem?_of_placed hplaced

/-- The constants of the right operand stand behind those of the left one. -/
theorem constants_binary {left right : Arith} {operation : Operation} {first : Nat}
    (h : (binary left operation right).constants <+: pool.drop first) :
    left.constants <+: pool.drop first ∧
      right.constants <+: pool.drop (first + left.literals.length) := by
  have hboth : left.constants ++ right.constants <+: pool.drop first := by
    simpa [constants, literals] using h
  have hlength : left.constants.length = left.literals.length := List.length_map _
  have hright := placed_right hboth
  rw [hlength] at hright
  exact ⟨(List.prefix_append _ _).trans hboth, hright⟩

/-- With as much room as it needs, an expression leaves its value on the stack. -/
theorem executes (t : Arith) {first ip : Nat} {values : List Value} {m : Machine}
    (h : m.Computes code pool capacity ip values) (hcode : code.Holds ip (t.instrs first))
    (hpool : t.constants <+: pool.drop first) (hroom : values.length + t.need ≤ capacity) :
    ∃ m', m.Reaches m' ∧ m'.Computes code pool capacity (ip + codeSize (t.instrs first))
      (values ++ [.int (.ofInt t.value)]) := by
  induction t generalizing first ip values m with
  | literal n =>
      rcases h.constant hcode (getElem?_of_literal hpool) hroom with ⟨m', hnext, hm'⟩
      have hsize : (Instr.mk .constant [first]).size = 3 := rfl
      refine ⟨m', hnext.reaches, ?_⟩
      simpa [value, instrs, hsize] using hm'
  | negative operand ih =>
      rcases ih h hcode.left hpool hroom with ⟨m₁, hreaches, h₁⟩
      have hvalue : Value.negation (.int (.ofInt operand.value)) =
          .ok (.int (.ofInt (-operand.value))) := by
        simp only [Value.negation, Int64.ofInt_neg]
      rcases h₁.unary hcode.right rfl hvalue with ⟨m₂, hnext, h₂⟩
      refine ⟨m₂, hreaches.trans hnext.reaches, ?_⟩
      simpa [instrs, value, Nat.add_assoc] using h₂
  | binary left operation right ihl ihr =>
      have hleft : values.length + left.need ≤ capacity :=
        le_trans (Nat.add_le_add_left (le_max_left _ _) _) hroom
      -- While the right operand is computed, the value of the left one takes a slot.
      have hright : (values ++ [Value.int (.ofInt left.value)]).length + right.need ≤ capacity := by
        have hmax : values.length + (right.need + 1) ≤ capacity :=
          le_trans (Nat.add_le_add_left (le_max_right _ _) _) hroom
        simp only [List.length_append, List.length_singleton]
        omega
      rcases constants_binary hpool with ⟨hpoolLeft, hpoolRight⟩
      rcases ihl h hcode.left hpoolLeft hleft with ⟨m₁, hreaches₁, h₁⟩
      rcases ihr h₁ hcode.right.left hpoolRight hright with ⟨m₂, hreaches₂, h₂⟩
      rcases h₂.binary hcode.right.right operation.execute_opcode
        (operation.arithmetic_ofInt left.value right.value) with ⟨m₃, hnext, h₃⟩
      refine ⟨m₃, hreaches₁.trans (hreaches₂.trans hnext.reaches), ?_⟩
      simpa [instrs, value, Nat.add_assoc] using h₃

/-- With less room the stack overflows. -/
theorem overflows (t : Arith) {first ip : Nat} {values : List Value} {m : Machine}
    (h : m.Computes code pool capacity ip values) (hcode : code.Holds ip (t.instrs first))
    (hpool : t.constants <+: pool.drop first) (hfull : capacity < values.length + t.need) :
    ∃ last m', m.Reaches last ∧ last.EndsAs (.failed (.stackOverflow capacity)) m' := by
  induction t generalizing first ip values m with
  | literal n =>
      rcases h.constant_full hcode (getElem?_of_literal hpool) (Nat.le_of_lt_succ hfull) with
        ⟨m', hends⟩
      exact ⟨m, m', .refl m, hends⟩
  | negative operand ih => exact ih h hcode.left hpool hfull
  | binary left operation right ihl ihr =>
      rcases constants_binary hpool with ⟨hpoolLeft, hpoolRight⟩
      by_cases hleft : values.length + left.need ≤ capacity
      · -- The left operand fits, so it is the right one above it that does not.
        have hright : capacity <
            (values ++ [Value.int (.ofInt left.value)]).length + right.need := by
          have hmax : capacity < values.length + max left.need (right.need + 1) := hfull
          simp only [List.length_append, List.length_singleton]
          omega
        rcases left.executes h hcode.left hpoolLeft hleft with ⟨m₁, hreaches₁, h₁⟩
        rcases ihr h₁ hcode.right.left hpoolRight hright with ⟨last, m', hreaches₂, hends⟩
        exact ⟨last, m', hreaches₁.trans hreaches₂, hends⟩
      · exact ihl h hcode.left hpoolLeft (Nat.lt_of_not_le hleft)

/-! ## Programs -/

/-- What a program of one expression is compiled to: the code of the expression, and an instruction
that drops its value. -/
theorem compile_code (t : Arith) {bytecode : Bytecode}
    (h : Program.compile [.expr t.expr] = .ok bytecode) :
    bytecode.code.Holds 0 (t.instrs 0 ++ [⟨.pop, []⟩]) ∧
      bytecode.code.size = codeSize (t.instrs 0) + 1 ∧
      t.constants <+: bytecode.constants.toList.drop 0 := by
  rcases Program.exists_of_compile h with ⟨c, hc, rfl⟩
  rcases Program.compile_layout Agrees.initial rfl rfl hc with ⟨f, hw, hlayout, -, hconstants⟩
  simp only [Block.layout, Stmt.layout] at hlayout
  rcases Fragment.seq_eq_ok_iff.1 hlayout with ⟨a, ha, b, hb, rfl⟩
  cases hb
  rcases t.layout_fragment ha with ⟨hinstrs, hliterals⟩
  have hall : (a ++ Fragment.ofInstrs Tail.drop.onValue).instrs = t.instrs 0 ++ [⟨.pop, []⟩] := by
    simp [hinstrs, Tail.onValue, Site.initial]
  have hcode : c.buffer.code.toList = assemble (t.instrs 0 ++ [⟨.pop, []⟩]) := by
    rw [← hall]
    exact hw.code
  have hvalid : ∀ i ∈ t.instrs 0 ++ [⟨.pop, []⟩], i.Valid := by
    rw [← hall]
    exact hw.valid
  refine ⟨.of_assemble hvalid hcode, ?_, ?_⟩
  · have hpop : (Instr.mk .pop []).size = 1 := rfl
    calc c.buffer.code.size
        = (assemble (t.instrs 0 ++ [⟨.pop, []⟩])).length := by rw [← hcode, Array.length_toList]
      _ = codeSize (t.instrs 0 ++ [⟨.pop, []⟩]) := length_assemble hvalid
      _ = codeSize (t.instrs 0) + 1 := by simp [hpop]
  · have hsame : (a ++ Fragment.ofInstrs Tail.drop.onValue).constants = t.constants := by
      simp [hliterals]
    rw [hsame] at hconstants
    exact hconstants

theorem load_computes (bytecode : Bytecode) (globals : Globals) (limits : Limits)
    (run created : Nat) :
    (Machine.load bytecode globals limits run created).Computes bytecode.code
      bytecode.constants.toList limits.stackSize 0 [] where
  code := rfl
  pool := rfl
  callers := rfl
  capacity := Stack.capacity_ofCapacity _
  ip := rfl
  live := Stack.live_ofCapacity _

/-- With enough stack the program ends, and the value popped last is that of the expression. -/
theorem load_ends (t : Arith) {bytecode : Bytecode}
    (h : Program.compile [.expr t.expr] = .ok bytecode) (globals : Globals) {limits : Limits}
    (hroom : t.need ≤ limits.stackSize) (run created : Nat) :
    ∃ last, (Machine.load bytecode globals limits run created).Reaches last ∧
      last.EndsAs .finished last ∧ last.lastPopped = .int (.ofInt t.value) := by
  rcases t.compile_code h with ⟨hcode, hsize, hpool⟩
  have hload := load_computes bytecode globals limits run created
  rcases t.executes hload hcode.left hpool (by simpa using hroom) with ⟨m₁, hreaches, h₁⟩
  rcases h₁.drop hcode.right with ⟨m₂, hnext, h₂, hlast⟩
  refine ⟨m₂, hreaches.trans hnext.reaches, ?_, hlast⟩
  refine Exec.step_at_end ?_ h₂.callers
  rw [h₂.code, h₂.ip, hsize, Nat.zero_add]

/-- An integer expression has the whole number that it stands for as its value, reduced to the
integers that there are, exactly if the stack is as large as it needs. Otherwise the stack
overflows. -/
theorem run_exact (t : Arith) {bytecode : Bytecode}
    (h : Program.compile [.expr t.expr] = .ok bytecode) (globals : Globals) (limits : Limits)
    (run created : Nat) :
    ∃ bound, ∀ fuel, bound ≤ fuel → ∃ ending m,
      (Machine.load bytecode globals limits run created).run fuel = (ending, m) ∧
      if t.need ≤ limits.stackSize then
        ending = .finished ∧ ∃ v : Int64, m.lastPopped = .int v ∧ v.toInt = t.value.bmod (2 ^ 64)
      else ending = .failed (.stackOverflow limits.stackSize) := by
  by_cases hroom : t.need ≤ limits.stackSize
  · rcases t.load_ends h globals hroom run created with ⟨last, hreaches, hends, hlast⟩
    rcases hreaches.run_of_ends hends (by simp) with ⟨bound, hrun⟩
    refine ⟨bound, fun fuel hfuel => ⟨_, _, hrun fuel hfuel, ?_⟩⟩
    rw [if_pos hroom]
    exact ⟨rfl, _, hlast, Int64.toInt_ofInt⟩
  · rcases t.compile_code h with ⟨hcode, -, hpool⟩
    have hload := load_computes bytecode globals limits run created
    have hfull : limits.stackSize < ([] : List Value).length + t.need := by simpa using hroom
    rcases t.overflows hload hcode.left hpool hfull with ⟨last, m', hreaches, hends⟩
    rcases hreaches.run_of_ends hends (by simp) with ⟨bound, hrun⟩
    refine ⟨bound, fun fuel hfuel => ⟨_, _, hrun fuel hfuel, ?_⟩⟩
    rw [if_neg hroom]

/-- The negative of the smallest integer is not an integer, and neither is the product or the sum. On
three slots the value is found all the same, on two there is no room for the third literal. -/
theorem run_exact_of_wrapping :
    ∃ t : Arith,
      t = binary (literal 9223372036854775807) .plus
        (binary (negative (literal (-9223372036854775808))) .times (literal 3)) ∧
      t.value = 2 ^ 65 - 1 ∧ t.need = 3 ∧
      ∃ bytecode, Program.compile [.expr t.expr] = .ok bytecode ∧ ∃ bound, ∀ fuel, bound ≤ fuel →
        (∃ m v, (Machine.load bytecode (.ofCapacity 0) { stackSize := 3 } 0 0).run fuel =
          (.finished, m) ∧ m.lastPopped = .int v ∧ v.toInt = -1) ∧
        ∃ m, (Machine.load bytecode (.ofCapacity 0) { stackSize := 2 } 0 0).run fuel =
          (.failed (.stackOverflow 2), m) := by
  refine ⟨_, rfl, by decide, by decide, ?_⟩
  have hcompiles : ∃ bytecode, Program.compile [.expr (binary (literal 9223372036854775807) .plus
      (binary (negative (literal (-9223372036854775808))) .times (literal 3))).expr] =
        .ok bytecode := Program.exists_bytecode_of_compiles (by decide +kernel)
  rcases hcompiles with ⟨bytecode, h⟩
  rcases run_exact _ h (.ofCapacity 0) { stackSize := 3 } 0 0 with ⟨enough, hroom⟩
  rcases run_exact _ h (.ofCapacity 0) { stackSize := 2 } 0 0 with ⟨enough', hfull⟩
  refine ⟨bytecode, h, max enough enough', fun fuel hfuel => ⟨?_, ?_⟩⟩
  · rcases hroom fuel (le_of_max_le_left hfuel) with ⟨ending, m, hrun, hends⟩
    rw [if_pos (by decide)] at hends
    rcases hends with ⟨rfl, v, hlast, hv⟩
    exact ⟨m, v, hrun, hlast, hv.trans (by decide)⟩
  · rcases hfull fuel (le_of_max_le_right hfuel) with ⟨ending, m, hrun, hends⟩
    rw [if_neg (by decide)] at hends
    exact ⟨m, hends ▸ hrun⟩

end Arith

end MonkeyMachine
