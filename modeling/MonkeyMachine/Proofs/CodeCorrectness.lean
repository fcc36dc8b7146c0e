import MonkeyMachine.Proofs.Simulation

/-!
# Code does what programs mean

By induction on the syntax: wherever the code of a construct stands, the machine that executes it
does what evaluating the construct does. How calls go is a hypothesis here, `Activation.Handles`;
it is discharged by induction on the depth of calls afterwards, since the body of a function is code
like any other.
-/

namespace MonkeyMachine

open Machine (Mirrors Returns)

/-! ## The code of a construct -/

/-- The code of a construct stands in the call from `start` on, and its constants stand in the
pool. -/
structure Activation.Has (a : Activation) (site : Site) (start : Nat) (f : Fragment) : Prop where
  code : a.frame.code.Holds start f.instrs
  constants : f.constants <+: a.setting.pool.drop site.literals

namespace Activation.Has

variable {a : Activation} {site : Site} {start : Nat} {f g : Fragment}

theorem left (h : a.Has site start (f ++ g)) : a.Has site start f :=
  ⟨h.code.left, (List.prefix_append _ _).trans h.constants⟩

theorem right (h : a.Has site start (f ++ g)) {events : List Event}
    (hlength : f.constants.length = Event.literals events) :
    a.Has (site.after events) (start + f.size) g := by
  refine ⟨h.code.right, ?_⟩
  rw [Site.literals_after, ← hlength]
  exact placed_right h.constants

end Activation.Has

/-- The code of a construct with the given events stands in the call from `start` on, as it was laid
out, and what it names is there. -/
structure Activation.Lays (a : Activation) (site : Site) (events : List Event)
    (laid : Except CompileError Fragment) (start : Nat) (f : Fragment) : Prop
    extends a.Has site start f where
  laid : laid = .ok f
  within : (site.after events).Within a.setting

namespace Activation.Lays

variable {a : Activation} {site : Site} {xs ys zs : List Event} {start : Nat} {f : Fragment}
  {first test yes no : LayoutAt} {next : Fragment → Except CompileError Fragment} {gain : Int}
  {op : Opcode} {operands : List Nat} {is : List Instr}

/-- The constants of the first part come before those of the second. -/
theorem seq (hfirst : SoundLayout a.setting site xs 0 gain first)
    (h : a.Lays site (xs ++ ys) (Fragment.seq (first start) next) start f) :
    ∃ b c, f = b ++ c ∧ a.Lays site xs (first start) start b ∧
      a.Lays (site.after xs) ys (next b) (start + b.size) c := by
  rcases Fragment.seq_eq_ok_iff.1 h.laid with ⟨b, hb, c, hc, rfl⟩
  have hwithin := h.within
  rw [Site.after_append] at hwithin
  have hlength := (hfirst hwithin.of_after hb h.left.constants (Int.le_refl 0)).length
  exact ⟨b, c, rfl, ⟨h.left, hb, hwithin.of_after⟩, ⟨h.right hlength, hc, hwithin⟩⟩

theorem seq_ofInstrs {laid : Except CompileError Fragment}
    (h : a.Lays site xs (Fragment.seq laid fun _ => .ok (.ofInstrs is)) start f) :
    ∃ b, f = b ++ .ofInstrs is ∧ a.Lays site xs laid start b ∧
      a.frame.code.Holds (start + b.size) is := by
  rcases Fragment.seq_eq_ok_iff.1 h.laid with ⟨b, hb, c, hc, rfl⟩
  cases hc
  exact ⟨b, rfl, ⟨h.left, hb, h.within⟩, h.code.right⟩

theorem seq_emit {laid : Except CompileError Fragment}
    (h : a.Lays site xs (Fragment.seq laid fun _ => Fragment.emit op operands) start f) :
    ∃ b, f = b ++ .ofInstrs [⟨op, operands⟩] ∧ a.Lays site xs laid start b ∧
      a.frame.code.Holds (start + b.size) [⟨op, operands⟩] := by
  rcases Fragment.seq_eq_ok_iff.1 h.laid with ⟨b, hb, c, hc, rfl⟩
  rcases Fragment.emit_eq_ok_iff.1 hc with ⟨-, rfl⟩
  exact ⟨b, rfl, ⟨h.left, hb, h.within⟩, h.code.right⟩

theorem conditional (htest : SoundLayout a.setting site xs 0 1 test)
    (hyes : SoundLayout a.setting (site.after xs) ys 0 1 yes)
    (h : a.Lays site (xs ++ (ys ++ zs)) (Fragment.conditional start (test start) yes no) start f) :
    ∃ t y n toNo toFinish constants,
      f = t ++ ⟨⟨.jumpNotTruthy, [toNo]⟩ :: (y.instrs ++ ⟨.jump, [toFinish]⟩ :: n.instrs),
        constants⟩ ∧
      toNo = start + t.size + 3 + y.size + 3 ∧ toFinish = toNo + n.size ∧
      a.Lays site xs (test start) start t ∧
      a.Lays (site.after xs) ys (yes (start + t.size + 3)) (start + t.size + 3) y ∧
      a.Lays ((site.after xs).after ys) zs (no toNo) toNo n := by
  rcases Fragment.conditional_eq_ok h.laid with
    ⟨t, y, n, toNo, toFinish, ht, hy, hn, htoNo, htoFinish, -, -, rfl⟩
  have hwithin := h.within
  rw [Site.after_append, Site.after_append] at hwithin
  have hlength := (htest hwithin.of_after.of_after ht h.left.constants (Int.le_refl 0)).length
  have hbranches := h.right hlength
  have hplaced : y.constants <+: a.setting.pool.drop (site.after xs).literals :=
    (List.prefix_append _ _).trans hbranches.constants
  -- The constants of the second branch come behind those of the first.
  have hlength' := (hyes hwithin.of_after hy hplaced (Int.le_refl 0)).length
  have hcode := hbranches.code.tail
  refine ⟨t, y, n, toNo, toFinish, _, rfl, htoNo, htoFinish,
    ⟨h.left, ht, hwithin.of_after.of_after⟩, ⟨⟨hcode.left, hplaced⟩, hy, hwithin.of_after⟩,
    ⟨⟨?_, ?_⟩, hn, hwithin⟩⟩
  · rw [htoNo]
    exact hcode.right.tail
  · rw [Site.literals_after, ← hlength']
    exact placed_right hbranches.constants

end Activation.Lays

/-- The instruction for calls does what `call` does. -/
def Activation.Handles (a : Activation) (call : Datum → List Datum → Eval Datum) : Prop :=
  ∀ {m : Machine} {mem : Memory} {temps args : List Datum} {callee : Datum} {ip : Nat}
    {is : List Instr}, m.IsSound → m.Mirrors a mem (temps ++ args ++ [callee]) ip →
    a.frame.code.Holds ip (⟨.call, [args.length]⟩ :: is) →
      m.Performs a (fun d mem => Mirrors a mem (temps ++ [d]) (ip + 3)) (call callee args mem)

/-! ## The ends of blocks -/

/-- How a block leaves the machine. -/
def Tail.Ends (tail : Tail) (a : Activation) (temps : List Datum) (finish : Nat)
    (done : Option Done) (mem : Memory) (m : Machine) : Prop :=
  match tail with
  | .drop => m.Mirrors a mem temps finish ∧ m.lastPopped = (Done.last done).value
  | .keep => m.Mirrors a mem (temps ++ [Done.result done]) finish
  | .leave => m.Returns a (Done.result done) mem

section Tails

variable {a : Activation} {mem : Memory} {temps : List Datum} {ip : Nat} {m : Machine} {d : Datum}

theorem Tail.onValue_ends (tail : Tail) (h : m.Mirrors a mem (temps ++ [d]) ip) (ha : a.Valid)
    (hcode : a.frame.code.Holds ip tail.onValue) :
    m.Arrives a.ground
      (tail.Ends a temps (ip + codeSize tail.onValue) (some (.value d)) mem) := by
  cases tail with
  | drop => exact h.drop hcode
  | keep => exact .here h
  | leave => exact .here (h.returnValue ha hcode)

/-- The last statement has no value. -/
theorem Tail.onNothing_ends (tail : Tail) {done : Option Done} (h : m.Mirrors a mem temps ip)
    (ha : a.Valid) (htail : tail = .leave → a.locals ≠ none)
    (hcode : a.frame.code.Holds ip tail.onNothing) (hresult : Done.result done = .null)
    (hlast : tail = .drop → m.lastPopped = (Done.last done).value) :
    m.Arrives a.ground (tail.Ends a temps (ip + codeSize tail.onNothing) done mem) := by
  cases tail with
  | drop => exact .here ⟨h, hlast rfl⟩
  | keep =>
      refine (h.plain (d := .null) hcode rfl .null).bind fun m' _ h' => .here ?_
      show m'.Mirrors a mem (temps ++ [Done.result done]) _
      rw [hresult]
      exact h'
  | leave =>
      refine .here ?_
      show m.Returns a (Done.result done) mem
      rw [hresult]
      exact h.returnNull ha (htail rfl) hcode

end Tails

/-- A literal other than a function. -/
theorem Machine.Mirrors.literal {a : Activation} {mem : Memory} {temps : List Datum} {start : Nat}
    {m : Machine} {site : Site} {f : Fragment} {d : Datum} (h : m.Mirrors a mem temps start)
    (hlayout : Fragment.literal site d.value = .ok f) (hhas : a.Has site start f)
    (hd : d.Placed a.ground.pool a.ground.globals) :
    m.Arrives a.ground (Mirrors a mem (temps ++ [d]) (start + f.size)) := by
  unfold Fragment.literal at hlayout
  cases hemit : Fragment.emit .constant [site.literals] with
  | error e =>
      rw [hemit] at hlayout
      cases hlayout
  | ok push =>
      rw [hemit] at hlayout
      cases hlayout
      rcases Fragment.emit_eq_ok_iff.1 hemit with ⟨-, rfl⟩
      have hplaced : [] ++ d.value :: [] <+: a.setting.pool.drop site.literals := hhas.constants
      exact h.constant hhas.code (getElem?_of_placed hplaced) hd

/-- The instruction of a binary operator. -/
theorem Exec.execute_operation {operator : String} {op : Opcode}
    (h : Compile.binaryOpcode? operator = some op) :
    Exec.execute op 0 0 = Exec.goOn (Exec.binary (Value.operation op)) := by
  have hmem := Compile.binaryOpcode?_mem h
  simp only [List.mem_cons, List.not_mem_nil, or_false] at hmem
  rcases hmem with rfl | rfl | rfl | rfl | rfl | rfl | rfl <;> rfl

/-! ## Function literals -/

/-- A function literal whose code has been laid out is placed, and stands in the pool under its
number. -/
theorem Site.lambda_placed {site : Site} {own : Option String} {params : List String}
    {body : List Stmt} {b : Fragment} {pool : List Value} {globals : Nat}
    (hlayout : Block.layout .leave (site.enter own params (Block.events body)) 0 body = .ok b)
    (hpool : b.constants ++
      [.function (.constant (site.lambda own params body).index)
        (Fragment.function params (Block.events body) b)] <+: pool.drop site.literals)
    (hglobals : site.globals.length ≤ globals) :
    (site.lambda own params body).Placed pool globals ∧
      pool[(site.lambda own params body).index]? =
        some (.function (.constant (site.lambda own params body).index)
          (site.lambda own params body).function) := by
  have hcode : (site.lambda own params body).code = b := by
    have hlambda : Block.layout .leave (site.lambda own params body).site 0
        (site.lambda own params body).body = .ok b := hlayout
    rw [Lambda.code, hlambda]
  have hplaced : (site.lambda own params body).Placed pool globals := by
    refine ⟨?_, ?_, hglobals, own, _, rfl⟩
    · rw [hcode]
      exact hlayout
    · rw [hcode]
      exact (List.prefix_append _ _).trans hpool
  refine ⟨hplaced, ?_⟩
  -- The function comes right behind the constants of its body.
  have hlength := (Block.layout_sound _ (fun _ => Option.some_ne_none _) _ hplaced.within
    hplaced.layout hplaced.constants (Int.le_refl 0)).length
  have hget := getElem?_of_placed hpool
  rw [hcode] at hlength
  rw [hlength] at hget
  rw [Lambda.function, hcode]
  exact hget

theorem Machine.Mirrors.functionLiteral {a : Activation} {mem : Memory} {temps : List Datum}
    {start : Nat} {m : Machine} {site : Site} {own : Option String} {params : List String}
    {body : List Stmt} {f : Fragment} (h : m.Mirrors a mem temps start) (hm : m.IsSound)
    (ha : a.Valid) (hwithin : site.Within a.setting)
    (hlayout : Fragment.functionLiteral site own params (Block.events body)
      (Block.layout .leave (site.enter own params (Block.events body)) 0 body) = .ok f)
    (hhas : a.Has site start f) (call : Datum → List Datum → Eval Datum) :
    m.Performs a (fun d mem => Mirrors a mem (temps ++ [d]) (start + f.size))
      (Expr.eval call a.env own site (.function params body) mem) := by
  rcases Fragment.functionLiteral_eq_ok hlayout with ⟨b, loads, push, -, hb, hloads, hpush, rfl⟩
  rcases Site.lambda_placed hb hhas.constants hwithin.globals with ⟨hlambda, hget⟩
  unfold Expr.eval Fragment.make at *
  cases hnames : site.captures own params (Block.events body) with
  | nil =>
      rw [hnames] at hloads hpush
      cases hloads
      rcases Fragment.emit_eq_ok_iff.1 hpush with ⟨-, rfl⟩
      -- Nothing is captured: the constant itself is the value.
      exact h.constant (d := .function _) hhas.code hget (.function hlambda hnames)
  | cons name rest =>
      rw [hnames] at hloads hpush
      rcases Fragment.emit_eq_ok_iff.1 hpush with ⟨-, rfl⟩
      refine (h.lookupAll hm ha hloads hwithin hhas.code.left).bind hm
        fun ds mem₁ m₁ _ h₁ => ?_
      have hclosure : a.frame.code.Holds (start + loads.size)
          [⟨.closure, [(site.lambda own params body).index, ds.length]⟩] := by
        rw [h₁.2]
        exact hhas.code.right
      have hlength : ds.length = (site.lambda own params body).site.captured.length := by
        rw [h₁.2, ← hnames]
        rfl
      rw [Fragment.size, codeSize_append, ← Nat.add_assoc]
      exact h₁.1.closure hclosure hget hlambda hlength

/-! ## Putting code together -/

/-- Wherever the code of a layout stands in the call, executing it does what `x` does. `left` tells
how that leaves the machine, given the data on the stack before and the end of the code. -/
def Activation.Realizes {α : Type} (a : Activation) (site : Site) (events : List Event)
    (layout : LayoutAt) (x : Eval α)
    (left : List Datum → Nat → α → Memory → Machine → Prop) : Prop :=
  ∀ ⦃start : Nat⦄ ⦃f : Fragment⦄ ⦃mem : Memory⦄ ⦃temps : List Datum⦄ ⦃m : Machine⦄,
    a.Lays site events (layout start) start f → m.IsSound → m.Mirrors a mem temps start →
      m.Performs a (left temps (start + f.size)) (x mem)

/-- The code pushes what `x` evaluates to. -/
def Activation.Computes (a : Activation) (site : Site) (events : List Event) (layout : LayoutAt)
    (x : Eval Datum) : Prop :=
  a.Realizes site events layout x fun temps finish d mem => Mirrors a mem (temps ++ [d]) finish

/-- The code pushes the `count` data that `data` makes of what `x` evaluates to. -/
def Activation.ComputesAll {α : Type} (a : Activation) (site : Site) (events : List Event)
    (layout : LayoutAt) (x : Eval (List α)) (data : List α → List Datum) (count : Nat) : Prop :=
  a.Realizes site events layout x fun temps finish ys mem m =>
    m.Mirrors a mem (temps ++ data ys) finish ∧ ys.length = count

namespace Activation

section Constructs

variable {α β : Type} {a : Activation} {site : Site} {xs ys zs : List Event}
  {first second third test yes no : LayoutAt} {gain : Int} {op : Opcode} {operands : List Nat}
  {left left' : List Datum → Nat → α → Memory → Machine → Prop}

theorem Realizes.error (e : CompileError) (x : Eval α) :
    a.Realizes site xs (fun _ => .error e) x left := by
  intro start f mem temps m hlays
  cases hlays.laid

/-- An instruction behind a piece of code. -/
theorem Realizes.seq_emit {x : Eval α} {k : α → Eval Datum} (hx : a.Realizes site xs first x left)
    (hop : ∀ {m : Machine} {mem : Memory} {temps : List Datum} {ip : Nat} (y : α), m.IsSound →
      left temps ip y mem m →
      a.frame.code.Holds ip [⟨op, operands⟩] →
        m.Performs a (fun d mem => Mirrors a mem (temps ++ [d]) (ip + (Instr.mk op operands).size))
          (k y mem)) :
    a.Computes site xs
      (fun start => Fragment.seq (first start) fun _ => Fragment.emit op operands)
      (x >>= k) := by
  intro start f mem temps m hlays hm h
  rcases hlays.seq_emit with ⟨b, rfl, hb, hcode⟩
  simp only [Fragment.size_append, ← Nat.add_assoc]
  exact (hx hb hm h).bind hm fun y mem₁ m₁ hm₁ h₁ => hop y hm₁ h₁ hcode

/-- Two operands and the instruction that works on them. -/
theorem Computes.operation {x y : Eval Datum} {combine : Datum → Datum → Except Fault Datum}
    (hx : a.Computes site xs first x) (hfirst : SoundLayout a.setting site xs 0 1 first)
    (hy : a.Computes (site.after xs) ys second y)
    (hop : ∀ {m : Machine} {mem : Memory} {temps : List Datum} {ip : Nat} (d e : Datum), m.IsSound →
      m.Mirrors a mem (temps ++ [d] ++ [e]) ip → a.frame.code.Holds ip [⟨op, []⟩] →
        m.Performs a (fun r mem => Mirrors a mem (temps ++ [r]) (ip + (Instr.mk op []).size))
          (Eval.ofResult (combine d e) mem)) :
    a.Computes site (xs ++ ys)
      (fun start => Fragment.seq (first start) fun f =>
        Fragment.seq (second (start + f.size)) fun _ => Fragment.emit op [])
      (do
        let d ← x
        let e ← y
        Eval.ofResult (combine d e)) := by
  intro start f mem temps m hlays hm h
  rcases hlays.seq hfirst with ⟨b, _, rfl, hb, hrest⟩
  rcases hrest.seq_emit with ⟨c, rfl, hc, hcode⟩
  simp only [Fragment.size_append, ← Nat.add_assoc]
  refine (hx hb hm h).bind hm fun d mem₁ m₁ hm₁ h₁ => ?_
  refine (hy hc hm₁ h₁).bind hm₁ fun e mem₂ m₂ hm₂ h₂ => ?_
  exact hop d e hm₂ h₂ hcode

/-- A conditional. The first branch jumps over the second one. -/
theorem Computes.conditional {x y z : Eval Datum} (hx : a.Computes site xs test x)
    (htest : SoundLayout a.setting site xs 0 1 test) (hy : a.Computes (site.after xs) ys yes y)
    (hyes : SoundLayout a.setting (site.after xs) ys 0 1 yes)
    (hz : a.Computes ((site.after xs).after ys) zs no z) :
    a.Computes site (xs ++ (ys ++ zs))
      (fun start => Fragment.conditional start (test start) yes no)
      (do
        let d ← x
        if d.truthy then y else z) := by
  intro start f mem temps m hlays hm h
  rcases hlays.conditional htest hyes with
    ⟨t, b, c, toNo, toFinish, constants, rfl, htoNo, htoFinish, ht, hb, hc⟩
  have hfinish : start + (t.size + 3 + b.size + 3 + c.size) = toFinish := by omega
  simp only [Fragment.size_conditional, hfinish]
  have hcode := hlays.code
  refine (hx ht hm h).bind hm fun d mem₁ m₁ hm₁ h₁ => ?_
  refine (h₁.branch hcode.right).bind fun m₂ hreaches h₂ => ?_
  have hm₂ := hm₁.reaches hreaches
  cases htruthy : d.truthy with
  | true =>
      rw [htruthy] at h₂
      refine (hy hb hm₂ h₂).extend fun e mem₃ m₃ h₃ => ?_
      exact h₃.goTo hcode.right.tail.right
  | false =>
      rw [htruthy] at h₂
      rw [htoFinish]
      exact hz hc hm₂ h₂

/-- A block whose last value is kept. -/
theorem Realizes.result {x : Eval (Option Done)} (hx : a.Realizes site xs first x (Tail.keep.Ends a)) :
    a.Computes site xs first (do
      let done ← x
      pure (Done.result done)) :=
  fun _ _ _ _ _ hlays hm h => (hx hlays hm h).bind hm fun _ _ _ _ h₁ => .here h₁

/-- A datum in front of a list of data. -/
theorem Computes.cons {x : Eval Datum} {y : Eval (List Datum)} {n : Nat}
    (hx : a.Computes site xs first x) (hfirst : SoundLayout a.setting site xs 0 1 first)
    (hy : a.ComputesAll (site.after xs) ys second y id n) :
    a.ComputesAll site (xs ++ ys)
      (fun start => Fragment.seq (first start) fun f => second (start + f.size))
      (do
        let d ← x
        let ds ← y
        pure (d :: ds)) id (n + 1) := by
  intro start f mem temps m hlays hm h
  rcases hlays.seq hfirst with ⟨b, c, rfl, hb, hc⟩
  simp only [Fragment.size_append, ← Nat.add_assoc]
  refine (hx hb hm h).bind hm fun d mem₁ m₁ hm₁ h₁ => ?_
  refine (hy hc hm₁ h₁).bind hm₁ fun ds mem₂ m₂ _ h₂ => .here ⟨?_, ?_⟩
  · have hall := h₂.1
    rw [List.append_assoc] at hall
    exact hall
  · rw [List.length_cons, h₂.2]

/-- A pair in front of a list of pairs. -/
theorem Computes.pair {x y : Eval Datum} {z : Eval (List (Datum × Datum))} {n : Nat}
    (hx : a.Computes site xs first x) (hfirst : SoundLayout a.setting site xs 0 1 first)
    (hy : a.Computes (site.after xs) ys second y)
    (hsecond : SoundLayout a.setting (site.after xs) ys 0 1 second)
    (hz : a.ComputesAll ((site.after xs).after ys) zs third z Datum.flatten n) :
    a.ComputesAll site (xs ++ (ys ++ zs))
      (fun start => Fragment.seq (first start) fun f =>
        Fragment.seq (second (start + f.size)) fun g => third (start + f.size + g.size))
      (do
        let d ← x
        let e ← y
        let ds ← z
        pure ((d, e) :: ds)) Datum.flatten (n + 1) := by
  intro start f mem temps m hlays hm h
  rcases hlays.seq hfirst with ⟨b, _, rfl, hb, hrest⟩
  rcases hrest.seq hsecond with ⟨c, c', rfl, hc, hc'⟩
  simp only [Fragment.size_append, ← Nat.add_assoc]
  refine (hx hb hm h).bind hm fun d mem₁ m₁ hm₁ h₁ => ?_
  refine (hy hc hm₁ h₁).bind hm₁ fun e mem₂ m₂ hm₂ h₂ => ?_
  refine (hz hc' hm₂ h₂).bind hm₂ fun ds mem₃ m₃ _ h₃ => .here ⟨?_, ?_⟩
  · have hall := h₃.1
    rw [List.append_assoc, List.append_assoc] at hall
    exact hall
  · rw [List.length_cons, h₃.2]

/-- The arguments are evaluated before the callee. -/
theorem Handles.applied {call : Datum → List Datum → Eval Datum} {x : Eval (List Datum)}
    {y : Eval Datum} {n : Nat} (hcall : a.Handles call) (hx : a.ComputesAll site xs first x id n)
    (hfirst : SoundLayout a.setting site xs 0 gain first)
    (hy : a.Computes (site.after xs) ys second y) :
    a.Computes site (xs ++ ys)
      (fun start => Fragment.seq (first start) fun f =>
        Fragment.seq (second (start + f.size)) fun _ => Fragment.emit .call [n])
      (do
        let ds ← x
        let d ← y
        call d ds) := by
  intro start f mem temps m hlays hm h
  rcases hlays.seq hfirst with ⟨b, _, rfl, hb, hrest⟩
  rcases hrest.seq_emit with ⟨c, rfl, hc, hcode⟩
  simp only [Fragment.size_append, ← Nat.add_assoc]
  refine (hx hb hm h).bind hm fun ds mem₁ m₁ hm₁ h₁ => ?_
  refine (hy hc hm₁ h₁.1).bind hm₁ fun d mem₂ m₂ hm₂ h₂ => ?_
  rw [← h₁.2] at hcode
  exact hcall hm₂ h₂ hcode

/-- A statement whose value is dropped, in front of others. -/
theorem Realizes.andThen {x : Eval Done} {y : Eval (Option Done)} {tail : Tail}
    (hx : a.Realizes site xs first x fun temps finish done =>
      Tail.drop.Ends a temps finish (some done))
    (hfirst : SoundLayout a.setting site xs 0 gain first)
    (hy : a.Realizes (site.after xs) ys second y (tail.Ends a)) :
    a.Realizes site (xs ++ ys)
      (fun start => Fragment.seq (first start) fun f => second (start + f.size))
      (do
        let _ ← x
        y) (tail.Ends a) := by
  intro start f mem temps m hlays hm h
  rcases hlays.seq hfirst with ⟨b, c, rfl, hb, hc⟩
  simp only [Fragment.size_append, ← Nat.add_assoc]
  exact (hx hb hm h).bind hm fun done mem₁ m₁ hm₁ h₁ => hy hc hm₁ h₁.1

end Constructs

end Activation

/-! ## Statements and expressions -/

section Trees

variable {a : Activation} {call : Datum → List Datum → Eval Datum}

mutual

theorem Stmt.eval_realizes (stmt : Stmt) {tail : Tail} (ha : a.Valid) (hcall : a.Handles call)
    (htail : tail = .leave → a.locals ≠ none) (site : Site) :
    a.Realizes site (Stmt.events stmt) (fun start => Stmt.layout tail site start stmt)
      (Stmt.eval call a.env site stmt)
      fun temps finish done => tail.Ends a temps finish (some done) := by
  intro start f mem temps m hlays hm h
  cases stmt with
  | expr value =>
      simp only [Stmt.layout, Stmt.events] at hlays
      rw [Stmt.eval]
      rcases hlays.seq_ofInstrs with ⟨v, rfl, hv, hcode⟩
      simp only [Fragment.size_append, ← Nat.add_assoc]
      refine (Expr.eval_computes none value ha hcall site hv hm h).bind hm
        fun d mem₁ m₁ _ h₁ => ?_
      exact tail.onValue_ends h₁ ha hcode
  | bind name value =>
      simp only [Stmt.layout, Stmt.events] at hlays
      rw [Stmt.eval]
      rcases hlays.seq (Expr.layout_sound (some name) value site) with ⟨v, _, rfl, hv, hrest⟩
      rcases hrest.seq_ofInstrs with ⟨store, rfl, hstore, hcode⟩
      simp only [Fragment.size_append, ← Nat.add_assoc]
      refine (Expr.eval_computes (some name) value ha hcall site hv hm h).bind hm
        fun d mem₁ m₁ hm₁ h₁ => ?_
      refine (h₁.store ha hstore.laid hstore.within hstore.code).bind hm₁ fun _ mem₂ m₂ _ h₂ => ?_
      exact tail.onNothing_ends h₂.1 ha htail hcode rfl fun _ => h₂.2
  | ret value =>
      simp only [Stmt.layout, Stmt.events] at hlays
      rw [Stmt.eval]
      rcases hlays.seq_ofInstrs with ⟨v, rfl, hv, hcode⟩
      refine (Expr.eval_computes none value ha hcall site hv hm h).bind hm
        fun d mem₁ m₁ _ h₁ => ?_
      -- What follows the return is never executed.
      exact .here (h₁.returnValue ha hcode)

/-- An empty block drops nothing, so it cannot tell what was dropped last. -/
theorem Block.eval_realizes (block : List Stmt) {tail : Tail} (ha : a.Valid)
    (hcall : a.Handles call) (htail : tail = .leave → a.locals ≠ none)
    (hdrop : tail = .drop → block ≠ []) (site : Site) :
    a.Realizes site (Block.events block) (fun start => Block.layout tail site start block)
      (Block.eval call a.env site block) (tail.Ends a) := by
  match block with
  | [] =>
      intro start f mem temps m hlays _ h
      cases hlays.laid
      exact tail.onNothing_ends h ha htail hlays.code rfl fun htail => absurd rfl (hdrop htail)
  | [stmt] =>
      intro start f mem temps m hlays hm h
      simp only [Block.layout, Block.events, List.append_nil] at hlays
      rw [Block.eval]
      refine (Stmt.eval_realizes stmt ha hcall htail site hlays hm h).bind hm
        fun done mem₁ m₁ _ h₁ => ?_
      exact .here h₁
  | stmt :: next :: rest =>
      rw [Block.events, Block.eval]
      simp only [Block.layout]
      have hnever : Tail.drop = .leave → a.locals ≠ none := nofun
      exact (Stmt.eval_realizes stmt ha hcall hnever site).andThen
        (Stmt.layout_sound stmt hnever site)
        (Block.eval_realizes (next :: rest) ha hcall htail (fun _ => List.cons_ne_nil _ _) _)

theorem Expr.eval_computes (own : Option String) (expr : Expr) (ha : a.Valid)
    (hcall : a.Handles call) (site : Site) :
    a.Computes site (Expr.events own expr) (fun start => Expr.layout own site start expr)
      (Expr.eval call a.env own site expr) := by
  cases expr with
  | ident name =>
      intro start f mem temps m hlays _ h
      rw [Expr.eval]
      exact h.lookup ha hlays.laid hlays.within.of_after hlays.code
  | int n =>
      intro start f mem temps m hlays _ h
      exact h.literal (d := .int n) hlays.laid hlays.toHas (.int n)
  | str t =>
      intro start f mem temps m hlays _ h
      exact h.literal (d := .str t) hlays.laid hlays.toHas (.str t)
  | bool b =>
      intro start f mem temps m hlays _ h
      rcases Fragment.emit_eq_ok_iff.1 hlays.laid with ⟨-, rfl⟩
      have hplain := h.plain (d := .bool b) hlays.code (by cases b <;> rfl) (.bool b)
      cases b <;> exact hplain
  | unary operator operand =>
      rw [Expr.eval]
      simp only [Expr.layout, Expr.events]
      cases hop : Compile.unaryOpcode? operator with
      | none => exact .error _ _
      | some op =>
          refine (Expr.eval_computes none operand ha hcall site).seq_emit fun d _ h hcode => ?_
          have hanswers : Datum.Answers a.ground.pool a.ground.globals (Datum.unary operator d) :=
            Datum.unary_placed operator d
          rcases Datum.unary_value hop d with ⟨rfl, hvalue⟩ | ⟨rfl, hvalue⟩
          · exact h.unary hcode rfl hvalue hanswers
          · exact h.unary hcode rfl hvalue hanswers
  | binary left operator right =>
      rw [Expr.eval]
      simp only [Expr.layout, Expr.events]
      by_cases hless : operator = "<"
      · simp only [if_pos hless]
        -- The operands change places, and the instruction is the one for `>`.
        refine (Expr.eval_computes none right ha hcall site).operation
          (Expr.layout_sound none right site) (Expr.eval_computes none left ha hcall _)
          fun d e _ h hcode => ?_
        exact h.binary hcode rfl (Datum.greater_value d e) (Datum.greater_placed d e)
      · simp only [if_neg hless]
        cases hop : Compile.binaryOpcode? operator with
        | none => exact .error _ _
        | some op =>
            refine (Expr.eval_computes none left ha hcall site).operation
              (Expr.layout_sound none left site) (Expr.eval_computes none right ha hcall _)
              fun d e hm h hcode => ?_
            rcases h.sound hm with ⟨w, -, hsound⟩
            have hvalue := Datum.binary_value hop (hsound d (by simp)) (hsound e (by simp))
            exact h.binary hcode (Exec.execute_operation hop) hvalue
              (Datum.binary_placed operator d e)
  | cond test yes no =>
      have hkeep : Tail.keep = .leave → a.locals ≠ none := nofun
      have htest := Expr.eval_computes none test ha hcall site
      have hyes := (Block.eval_realizes yes ha hcall hkeep nofun
        (site.after (Expr.events none test))).result
      cases no with
      | none =>
          rw [Expr.eval]
          simp only [Expr.layout, Expr.events]
          have hno : a.Computes ((site.after (Expr.events none test)).after (Block.events yes)) []
              (fun _ => .ok (.ofInstrs Tail.keep.onNothing)) (pure .null) := by
            intro start f mem temps m hlays _ h
            cases hlays.laid
            have hends : m.Arrives a.ground (Tail.keep.Ends a temps _ none mem) :=
              Tail.keep.onNothing_ends h ha hkeep hlays.code rfl nofun
            exact hends
          have hcond := htest.conditional (Expr.layout_sound none test site) hyes
            (Block.layout_sound yes hkeep _) hno
          rw [List.append_nil] at hcond
          exact hcond
      | some no =>
          rw [Expr.eval]
          simp only [Expr.layout, Expr.events]
          exact htest.conditional (Expr.layout_sound none test site) hyes
            (Block.layout_sound yes hkeep _)
            (Block.eval_realizes no ha hcall hkeep nofun _).result
  | function params body =>
      intro start f mem temps m hlays hm h
      exact h.functionLiteral hm ha hlays.within.of_after hlays.laid hlays.toHas call
  | call callee args =>
      rw [Expr.eval]
      simp only [Expr.layout, Expr.events]
      exact hcall.applied (Expr.evalList_computes args ha hcall site)
        (Expr.layoutList_sound args site) (Expr.eval_computes none callee ha hcall _)
  | array elements =>
      rw [Expr.eval]
      simp only [Expr.layout, Expr.events]
      refine (Expr.evalList_computes elements ha hcall site).seq_emit fun ds _ h hcode => ?_
      rw [← h.2] at hcode ⊢
      exact h.1.array hcode
  | hash pairs =>
      rw [Expr.eval]
      simp only [Expr.layout, Expr.events]
      refine (Expr.evalPairs_computes pairs ha hcall site).seq_emit fun ds _ h hcode => ?_
      rw [← h.2] at hcode ⊢
      exact h.1.hash hcode
  | index collection key =>
      rw [Expr.eval]
      simp only [Expr.layout, Expr.events]
      refine (Expr.eval_computes none collection ha hcall site).operation
        (Expr.layout_sound none collection site) (Expr.eval_computes none key ha hcall _)
        fun d e _ h hcode => ?_
      have hd : d.Placed a.ground.pool a.ground.globals := h.placed d (by simp)
      exact h.binary hcode rfl (Datum.indexed_value d e) (Datum.indexed_placed hd e)

theorem Expr.evalList_computes (exprs : List Expr) (ha : a.Valid) (hcall : a.Handles call)
    (site : Site) :
    a.ComputesAll site (Expr.eventsList exprs) (fun start => Expr.layoutList site start exprs)
      (Expr.evalList call a.env site exprs) id exprs.length := by
  match exprs with
  | [] =>
      intro start f mem temps m hlays _ h
      cases hlays.laid
      exact .here ⟨by simpa using h, rfl⟩
  | expr :: rest =>
      rw [Expr.evalList]
      simp only [Expr.layoutList, Expr.eventsList]
      exact (Expr.eval_computes none expr ha hcall site).cons (Expr.layout_sound none expr site)
        (Expr.evalList_computes rest ha hcall _)

theorem Expr.evalPairs_computes (pairs : List (Expr × Expr)) (ha : a.Valid) (hcall : a.Handles call)
    (site : Site) :
    a.ComputesAll site (Expr.eventsPairs pairs) (fun start => Expr.layoutPairs site start pairs)
      (Expr.evalPairs call a.env site pairs) Datum.flatten pairs.length := by
  match pairs with
  | [] =>
      intro start f mem temps m hlays _ h
      cases hlays.laid
      exact .here ⟨by simpa [Datum.flatten] using h, rfl⟩
  | (key, value) :: rest =>
      rw [Expr.evalPairs]
      simp only [Expr.layoutPairs, Expr.eventsPairs]
      exact (Expr.eval_computes none key ha hcall site).pair (Expr.layout_sound none key site)
        (Expr.eval_computes none value ha hcall _) (Expr.layout_sound none value _)
        (Expr.evalPairs_computes rest ha hcall _)

end

end Trees

end MonkeyMachine
