import MonkeyMachine.Proofs.Census
import MonkeyMachine.Proofs.CompilerCorrectness

/-!
# Definite assignment

A name stands for a global from the point on where its `let` is scanned, so a program can ask for a
global that has no value: the `let` may stand in a branch that was not taken. There is no other way.
If all top-level `let` statements stand outside of branches, then every global that is asked for has
been assigned.

The interpreter shows why. A function reads the globals that were bound before it in the text, and
when it is made they have all been assigned. Wherever it goes from there, into a container, a closure
or another global, it reads no more than that: `Datum.Reads`. Inside of functions nothing is assigned
at the top level, so the number of assigned globals grows with the statements of the program only.
-/

namespace MonkeyMachine

/-! ## What data read -/

/-- The body of a function literal reads no globals but the first `n`, and it binds its names in the
function. -/
structure Lambda.Reads (n : Nat) (lambda : Lambda) : Prop where
  globals : lambda.site.globals.length ≤ n
  inside : lambda.site.body ≠ none

/-- A datum whose functions read no globals but the first `n`. -/
inductive Datum.Reads (n : Nat) : Datum → Prop
  | int (k : Int64) : Reads n (.int k)
  | bool (b : Bool) : Reads n (.bool b)
  | null : Reads n .null
  | str (s : String) : Reads n (.str s)
  | builtin (b : Builtin) : Reads n (.builtin b)
  | array {serial : Nat} {elements : List Datum} (helements : ∀ d ∈ elements, Reads n d) :
      Reads n (.array serial elements)
  | hash {serial : Nat} {entries : List (Key × Datum)}
      (hentries : ∀ entry ∈ entries, Reads n entry.2) : Reads n (.hash serial entries)
  | function {lambda : Lambda} (hlambda : lambda.Reads n) : Reads n (.function lambda)
  | closure {serial : Nat} {lambda : Lambda} {captured : List Datum} (hlambda : lambda.Reads n)
      (hcaptured : ∀ d ∈ captured, Reads n d) : Reads n (.closure serial lambda captured)

namespace Datum

variable {n m : Nat}

theorem reads_hereditary : Hereditary (Reads n) where
  int := .int
  bool := .bool
  null := .null
  str := .str
  builtin := .builtin
  array := ⟨fun h => by cases h; assumption, .array⟩
  hash := ⟨fun h => by cases h; assumption, .hash⟩

theorem Reads.mono {d : Datum} (h : d.Reads n) (hle : n ≤ m) : d.Reads m := by
  induction h with
  | int k => exact .int k
  | bool b => exact .bool b
  | null => exact .null
  | str s => exact .str s
  | builtin b => exact .builtin b
  | array _ ih => exact .array ih
  | hash _ ih => exact .hash ih
  | function hlambda => exact .function ⟨hlambda.globals.trans hle, hlambda.inside⟩
  | closure hlambda _ ih => exact .closure ⟨hlambda.globals.trans hle, hlambda.inside⟩ ih

end Datum

/-- The environment of a call brings no functions that read other globals than the first `n`. -/
structure Env.Reads (n : Nat) (env : Env) : Prop where
  captured : ∀ d ∈ env.captured, d.Reads n
  self : (env.self.getD .null).Reads n

/-- The first `n` globals are assigned, and no function in memory reads others. -/
structure Memory.Assigned (n : Nat) (mem : Memory) : Prop where
  assigned : ∀ slot < n, ∃ d, mem.globals slot = some d
  globals : ∀ slot d, mem.globals slot = some d → d.Reads n
  cells : ∀ d ∈ mem.cells, d.Reads n

/-- A name stands for a global that has been bound. -/
theorem Site.lt_of_place?_global {site : Site} {name : String} {slot : Nat}
    (h : site.place? name = some (.global slot)) : slot < site.globals.length := by
  have hwithin : site.Within
      { pool := [], globals := site.globals.length
        locals := site.body.map fun locals => locals.names.length
        free := site.captured.length } := by
    refine ⟨Nat.le_refl _, fun hbody => by rw [hbody]; rfl, fun locals hbody => ?_⟩
    refine ⟨locals.names.length, by rw [hbody]; rfl, Nat.le_refl _, ?_⟩
    simp [Site.captured, hbody]
  exact hwithin.place_fits h

/-! ## Evaluation that finds its globals -/

namespace Eval

variable {n : Nat} {α β : Type} {P : α → Prop} {Q : β → Prop}

/-- The result of an evaluation that has found the globals it has asked for, and has left the first
`n` of them assigned. -/
def Kept (n : Nat) (P : α → Prop) : EStateM.Result Stop Memory α → Prop
  | .ok a mem => mem.Assigned n ∧ P a
  | .error (.returned d) mem => mem.Assigned n ∧ d.Reads n
  | .error (.failed fault) _ => fault.NotUndefined

/-- The evaluation gets along with the first `n` globals. -/
def Keeps (n : Nat) (P : α → Prop) (x : Eval α) : Prop :=
  ∀ mem : Memory, mem.Assigned n → Kept n P (x mem)

namespace Keeps

theorem pure {a : α} (ha : P a) : Keeps n P (Pure.pure a) := fun _ hmem => ⟨hmem, ha⟩

theorem fail {fault : Fault} (hfault : fault.NotUndefined) :
    Keeps n P (throw (.failed fault)) := fun _ _ => hfault

theorem bind {x : Eval α} {f : α → Eval β} (hx : Keeps n P x) (hf : ∀ a, P a → Keeps n Q (f a)) :
    Keeps n Q (x >>= f) := by
  intro mem hmem
  have hkept := hx mem hmem
  cases hresult : x mem with
  | ok a mem₁ =>
      rw [hresult] at hkept
      rw [act_bind_of_ok hresult]
      exact hf a hkept.2 mem₁ hkept.1
  | error stop mem₁ =>
      rw [hresult] at hkept
      rw [act_bind_of_error hresult]
      cases stop with
      | returned d => exact hkept
      | failed fault => exact hkept

theorem ofResult {result : Except Fault α} (h : Yields P Fault.NotUndefined result) :
    Keeps n P (Eval.ofResult result) := by
  cases result with
  | ok a => exact .pure h
  | error fault => exact .fail h

/-- Making a datum or printing a text concerns neither globals nor cells. -/
theorem modifyGet {f : Memory → α × Memory} (hP : ∀ mem, P (f mem).1)
    (hglobals : ∀ mem, (f mem).2.globals = mem.globals)
    (hcells : ∀ mem, (f mem).2.cells = mem.cells) : Keeps n P (MonadStateOf.modifyGet f) := by
  intro mem hmem
  refine ⟨⟨?_, ?_, ?_⟩, hP mem⟩
  · simpa [hglobals] using hmem.assigned
  · simpa [hglobals] using hmem.globals
  · simpa [hcells] using hmem.cells

theorem fresh : Keeps n (fun _ => True) Eval.fresh :=
  modifyGet (fun _ => trivial) (fun _ => rfl) (fun _ => rfl)

theorem print (text : String) : Keeps n (fun _ => True) (Eval.print text) :=
  modifyGet (fun _ => trivial) (fun _ => rfl) (fun _ => rfl)

/-! ## Names -/

theorem read {env : Env} (henv : env.Reads n) {place : Place}
    (hplace : ∀ slot, place = .global slot → slot < n) :
    Keeps n (Datum.Reads n) (env.read place) := by
  intro mem hmem
  cases place with
  | global slot =>
      rcases hmem.assigned slot (hplace slot rfl) with ⟨d, hd⟩
      rw [Env.read_global_of_some hd]
      exact ⟨hmem, hmem.globals slot d hd⟩
  | cell index => exact ⟨hmem, Datum.reads_hereditary.getD hmem.cells index⟩
  | captured index => exact ⟨hmem, Datum.reads_hereditary.getD henv.captured index⟩
  | self => exact ⟨hmem, henv.self⟩
  | builtin b => exact ⟨hmem, .builtin b⟩

theorem lookup {env : Env} (henv : env.Reads n) {site : Site} (hsite : site.globals.length ≤ n)
    (name : String) : Keeps n (Datum.Reads n) (env.lookup site name) := by
  unfold Env.lookup
  cases hplace : site.place? name with
  | none => exact .pure .null
  | some place =>
      refine .read henv ?_
      rintro slot rfl
      exact (Site.lt_of_place?_global hplace).trans_le hsite

theorem lookupAll {env : Env} (henv : env.Reads n) {site : Site} (hsite : site.globals.length ≤ n)
    (names : List String) :
    Keeps n (fun ds => ∀ d ∈ ds, d.Reads n) (env.lookupAll site names) := by
  induction names with
  | nil => exact .pure (List.forall_mem_nil _)
  | cons name rest ih =>
      unfold Env.lookupAll
      refine (lookup henv hsite name).bind fun d hd => ih.bind fun ds hds => ?_
      exact .pure (List.forall_mem_cons.2 ⟨hd, hds⟩)

/-- A name that is bound in a function gets a cell of the call. -/
theorem assign {site : Site} (hsite : site.body ≠ none) {d : Datum} (hd : d.Reads n) :
    Keeps n (fun _ => True) (site.assign d) := by
  intro mem hmem
  obtain ⟨locals, hbody⟩ := Option.ne_none_iff_exists'.1 hsite
  have hassign : site.assign d mem =
      .ok () { mem with cells := mem.cells.set locals.names.length d } := by
    simp only [Site.assign, hbody]
    rfl
  rw [hassign]
  refine ⟨⟨hmem.assigned, hmem.globals, fun e he => ?_⟩, trivial⟩
  rcases List.mem_or_eq_of_mem_set he with he | rfl
  · exact hmem.cells e he
  · exact hd

end Keeps

end Eval

open Eval (Keeps Kept)

/-! ## Statements and expressions -/

/-- The site knows no globals but the first `n`, and none are added by `events`. -/
structure Site.Settled (n : Nat) (site : Site) (events : List Event) : Prop where
  globals : site.globals.length ≤ n
  binds : site.body = none → Event.binds events = []

namespace Site.Settled

variable {n : Nat} {site : Site} {xs ys : List Event}

theorem left (h : site.Settled n (xs ++ ys)) : site.Settled n xs where
  globals := h.globals
  binds := fun hbody => by
    have hbinds := h.binds hbody
    rw [Event.binds_append, List.append_eq_nil_iff] at hbinds
    exact hbinds.1

theorem right (h : site.Settled n (xs ++ ys)) : (site.after xs).Settled n ys := by
  cases hbody : site.body with
  | none =>
      have hbinds := h.binds hbody
      rw [Event.binds_append, List.append_eq_nil_iff] at hbinds
      refine ⟨?_, fun _ => hbinds.2⟩
      simpa [Site.after, hbody, hbinds.1] using h.globals
  | some locals =>
      refine ⟨?_, fun hnone => ?_⟩
      · simpa [Site.after, hbody] using h.globals
      · rw [Site.body_after_of_some hbody] at hnone
        cases hnone

/-- Where a name is bound without a new global, there is a function around. -/
theorem inside {name : String} (h : site.Settled n [.bind name]) : site.body ≠ none := by
  intro hbody
  cases h.binds hbody

theorem lambda (h : site.Settled n xs) (own : Option String) (params : List String)
    (body : List Stmt) : (site.lambda own params body).Reads n where
  globals := h.globals
  inside := Option.some_ne_none _

end Site.Settled

/-- Calling a datum gets along with the first `n` globals if its functions do. -/
def Datum.CallsKeep (n : Nat) (call : Datum → List Datum → Eval Datum) : Prop :=
  ∀ (callee : Datum) (args : List Datum), callee.Reads n → (∀ d ∈ args, d.Reads n) →
    Keeps n (Datum.Reads n) (call callee args)

section Trees

variable {n : Nat} {call : Datum → List Datum → Eval Datum} {env : Env}

mutual

theorem Stmt.eval_keeps (hcall : Datum.CallsKeep n call) (henv : env.Reads n) (stmt : Stmt)
    {site : Site} (h : site.Settled n (Stmt.events stmt)) :
    Keeps n (fun done => (Done.result (some done)).Reads n) (Stmt.eval call env site stmt) := by
  cases stmt with
  | expr value =>
      unfold Stmt.eval
      exact (Expr.eval_keeps hcall henv none value h).bind fun d hd => .pure hd
  | bind name value =>
      unfold Stmt.events at h
      unfold Stmt.eval
      refine (Expr.eval_keeps hcall henv (some name) value h.left).bind fun d hd => ?_
      exact (Keeps.assign h.right.inside hd).bind fun _ _ => .pure .null
  | ret value =>
      unfold Stmt.eval
      refine (Expr.eval_keeps hcall henv none value h).bind fun d hd => ?_
      -- What is returned goes to the caller, so it has to be as good as a value.
      exact fun mem hmem => ⟨hmem, hd⟩

theorem Block.eval_keeps (hcall : Datum.CallsKeep n call) (henv : env.Reads n) (block : List Stmt)
    {site : Site} (h : site.Settled n (Block.events block)) :
    Keeps n (fun done => (Done.result done).Reads n) (Block.eval call env site block) := by
  cases block with
  | nil => exact .pure .null
  | cons stmt rest =>
      unfold Block.events at h
      cases rest with
      | nil =>
          unfold Block.eval
          exact (Stmt.eval_keeps hcall henv stmt h.left).bind fun done hdone => .pure hdone
      | cons next rest =>
          unfold Block.eval
          refine (Stmt.eval_keeps hcall henv stmt h.left).bind fun _ _ => ?_
          exact Block.eval_keeps hcall henv (next :: rest) h.right

theorem Expr.eval_keeps (hcall : Datum.CallsKeep n call) (henv : env.Reads n)
    (own : Option String) (expr : Expr) {site : Site} (h : site.Settled n (Expr.events own expr)) :
    Keeps n (Datum.Reads n) (Expr.eval call env own site expr) := by
  cases expr with
  | ident name => exact .lookup henv h.globals name
  | int k => exact .pure (.int k)
  | str t => exact .pure (.str t)
  | bool b => exact .pure (.bool b)
  | unary operator operand =>
      unfold Expr.events at h
      unfold Expr.eval
      refine (Expr.eval_keeps hcall henv none operand h).bind fun d _ => ?_
      exact .ofResult (Datum.reads_hereditary.unary operator d)
  | binary left operator right =>
      unfold Expr.events at h
      unfold Expr.eval
      by_cases hless : operator = "<"
      · rw [if_pos hless] at h ⊢
        refine (Expr.eval_keeps hcall henv none right h.left).bind fun d _ => ?_
        refine (Expr.eval_keeps hcall henv none left h.right).bind fun e _ => ?_
        exact .ofResult (Datum.reads_hereditary.greater d e)
      · rw [if_neg hless] at h ⊢
        refine (Expr.eval_keeps hcall henv none left h.left).bind fun d _ => ?_
        refine (Expr.eval_keeps hcall henv none right h.right).bind fun e _ => ?_
        exact .ofResult (Datum.reads_hereditary.binary operator d e)
  | cond test yes no =>
      cases no with
      | none =>
          unfold Expr.events at h
          unfold Expr.eval
          refine (Expr.eval_keeps hcall henv none test h.left).bind fun t _ => ?_
          split
          · exact (Block.eval_keeps hcall henv yes h.right).bind fun _ hdone => .pure hdone
          · exact .pure .null
      | some no =>
          unfold Expr.events at h
          unfold Expr.eval
          refine (Expr.eval_keeps hcall henv none test h.left).bind fun t _ => ?_
          split
          · exact (Block.eval_keeps hcall henv yes h.right.left).bind fun _ hdone => .pure hdone
          · exact (Block.eval_keeps hcall henv no h.right.right).bind fun _ hdone => .pure hdone
  | function params body =>
      -- The globals that the body can name are those that are bound here.
      have hlambda := h.lambda own params body
      unfold Expr.eval
      dsimp only
      split
      · exact .pure (.function hlambda)
      · refine (Keeps.lookupAll henv h.globals _).bind fun captured hcaptured => ?_
        exact Keeps.fresh.bind fun serial _ => .pure (.closure hlambda hcaptured)
  | call callee args =>
      unfold Expr.events at h
      unfold Expr.eval
      refine (Expr.evalList_keeps hcall henv args h.left).bind fun ds hds => ?_
      exact (Expr.eval_keeps hcall henv none callee h.right).bind fun f hf => hcall f ds hf hds
  | array elements =>
      unfold Expr.events at h
      unfold Expr.eval
      refine (Expr.evalList_keeps hcall henv elements h).bind fun ds hds => ?_
      exact Keeps.fresh.bind fun serial _ => .pure (.array hds)
  | hash pairs =>
      unfold Expr.events at h
      unfold Expr.eval
      refine (Expr.evalPairs_keeps hcall henv pairs h).bind fun ds hds => ?_
      refine (Keeps.ofResult (Datum.Hereditary.addPairs (List.forall_mem_nil _) hds)).bind
        fun entries hentries => ?_
      exact Keeps.fresh.bind fun serial _ => .pure (.hash hentries)
  | index collection key =>
      unfold Expr.events at h
      unfold Expr.eval
      refine (Expr.eval_keeps hcall henv none collection h.left).bind fun d hd => ?_
      refine (Expr.eval_keeps hcall henv none key h.right).bind fun e _ => ?_
      exact .ofResult (Datum.reads_hereditary.indexed hd e)

theorem Expr.evalList_keeps (hcall : Datum.CallsKeep n call) (henv : env.Reads n)
    (exprs : List Expr) {site : Site} (h : site.Settled n (Expr.eventsList exprs)) :
    Keeps n (fun ds => ∀ d ∈ ds, d.Reads n) (Expr.evalList call env site exprs) := by
  cases exprs with
  | nil => exact .pure (List.forall_mem_nil _)
  | cons expr rest =>
      unfold Expr.eventsList at h
      unfold Expr.evalList
      refine (Expr.eval_keeps hcall henv none expr h.left).bind fun d hd => ?_
      refine (Expr.evalList_keeps hcall henv rest h.right).bind fun ds hds => ?_
      exact .pure (List.forall_mem_cons.2 ⟨hd, hds⟩)

theorem Expr.evalPairs_keeps (hcall : Datum.CallsKeep n call) (henv : env.Reads n)
    (pairs : List (Expr × Expr)) {site : Site} (h : site.Settled n (Expr.eventsPairs pairs)) :
    Keeps n (fun ds => ∀ pair ∈ ds, pair.2.Reads n) (Expr.evalPairs call env site pairs) := by
  cases pairs with
  | nil => exact .pure (List.forall_mem_nil _)
  | cons pair rest =>
      obtain ⟨key, value⟩ := pair
      unfold Expr.eventsPairs at h
      unfold Expr.evalPairs
      refine (Expr.eval_keeps hcall henv none key h.left).bind fun k _ => ?_
      refine (Expr.eval_keeps hcall henv none value h.right.left).bind fun d hd => ?_
      refine (Expr.evalPairs_keeps hcall henv rest h.right.right).bind fun ds hds => ?_
      exact .pure (List.forall_mem_cons.2 ⟨hd, hds⟩)

end

end Trees

/-! ## Calls -/

section Calls

variable {n : Nat} {call : Datum → List Datum → Eval Datum}

/-- A call has cells of its own, and the caller finds its cells as they were. -/
theorem Lambda.run_keeps (hcall : Datum.CallsKeep n call) {lambda : Lambda} (h : lambda.Reads n)
    {env : Env} (henv : env.Reads n) {args : List Datum} (hargs : ∀ d ∈ args, d.Reads n) :
    Keeps n (Datum.Reads n) (Lambda.run call lambda env args) := by
  intro mem hmem
  -- The cells of the call: its arguments, and `null` for what is yet to be bound.
  have hcells : ∀ d ∈ lambda.cells args, d.Reads n := by
    intro d hd
    rcases List.mem_append.1 hd with hd | hd
    · exact hargs d hd
    · rw [List.eq_of_mem_replicate hd]
      exact .null
  have hsettled : lambda.site.Settled n (Block.events lambda.body) :=
    ⟨h.globals, fun hnone => absurd hnone h.inside⟩
  have hkept := Block.eval_keeps hcall henv lambda.body hsettled
    { mem with cells := lambda.cells args } ⟨hmem.assigned, hmem.globals, hcells⟩
  rw [Lambda.run_eq]
  cases hresult : Block.eval call env lambda.site lambda.body
      { mem with cells := lambda.cells args } with
  | ok done mem' =>
      rw [hresult] at hkept
      exact ⟨⟨hkept.1.assigned, hkept.1.globals, hmem.cells⟩, hkept.2⟩
  | error stop mem' =>
      rw [hresult] at hkept
      cases stop with
      | returned d => exact ⟨⟨hkept.1.assigned, hkept.1.globals, hmem.cells⟩, hkept.2⟩
      | failed fault => exact hkept

theorem Datum.apply_keeps {run : Lambda → Env → List Datum → Eval Datum}
    (hrun : ∀ (lambda : Lambda) (env : Env) (args : List Datum), lambda.Reads n → env.Reads n →
      (∀ d ∈ args, d.Reads n) → Keeps n (Datum.Reads n) (run lambda env args)) :
    CallsKeep n (Datum.apply run) := by
  intro callee args hcallee hargs
  cases hcallee with
  | closure hlambda hcaptured =>
      simp only [Datum.apply]
      split
      · exact hrun _ _ _ hlambda ⟨hcaptured, .closure hlambda hcaptured⟩ hargs
      · exact .fail trivial
  | function hlambda =>
      simp only [Datum.apply]
      refine Keeps.fresh.bind fun serial _ => ?_
      split
      · have hnone := List.forall_mem_nil (Datum.Reads n)
        exact hrun _ _ _ hlambda ⟨hnone, .closure hlambda hnone⟩ hargs
      · exact .fail trivial
  | builtin b =>
      simp only [Datum.apply]
      refine Keeps.fresh.bind fun serial _ => (Keeps.print _).bind fun _ _ => ?_
      have hanswer := Datum.reads_hereditary.answer b serial hargs
      cases hresult : b.answer serial args with
      | ok d =>
          rw [hresult] at hanswer
          exact .pure hanswer
      | error cause => exact .fail trivial
  | _ => exact .fail trivial

/-- Calls find the globals that they ask for, however deeply they are nested. -/
theorem Datum.call_keeps (maxFrames depth : Nat) : CallsKeep n (Datum.call maxFrames depth) := by
  induction depth with
  | zero => exact apply_keeps fun _ _ _ _ _ _ => .fail trivial
  | succ depth ih =>
      exact apply_keeps fun lambda env args hlambda henv hargs =>
        Lambda.run_keeps ih hlambda henv hargs

end Calls

/-! ## Programs -/

/-- The result of an evaluation at the top level that has found the globals it has asked for. It has
led to `Q` if it was not stopped. -/
def Eval.Finds {α : Type} (Q : α → Memory → Prop) : EStateM.Result Stop Memory α → Prop
  | .ok a mem => Q a mem
  | .error (.returned _) _ => True
  | .error (.failed fault) _ => fault.NotUndefined

theorem Eval.Kept.finds {n : Nat} {α : Type} {P : α → Prop} {result : EStateM.Result Stop Memory α}
    (h : Kept n P result) : Finds (fun a mem => mem.Assigned n ∧ P a) result := by
  cases result with
  | ok a mem => exact h
  | error stop mem =>
      cases stop with
      | returned d => trivial
      | failed fault => exact h

theorem Eval.Finds.bind {α β : Type} {Q : α → Memory → Prop} {R : β → Memory → Prop} {x : Eval α}
    {f : α → Eval β} {mem : Memory} (h : Finds Q (x mem))
    (hf : ∀ a mem', Q a mem' → Finds R (f a mem')) : Finds R ((x >>= f) mem) := by
  cases hresult : x mem with
  | ok a mem' =>
      rw [hresult] at h
      rw [act_bind_of_ok hresult]
      exact hf a mem' h
  | error stop mem' =>
      rw [hresult] at h
      rw [act_bind_of_error hresult]
      cases stop with
      | returned d => trivial
      | failed fault => exact h

open Eval (Finds)

section Programs

variable {call : Datum → List Datum → Eval Datum} {site : Site} {mem : Memory}

theorem Env.top_reads (n : Nat) : Env.top.Reads n := ⟨List.forall_mem_nil _, .null⟩

/-- A new global comes behind the others. -/
theorem Memory.Assigned.assign (htop : site.body = none) {n : Nat} (hn : site.globals.length = n)
    (hmem : mem.Assigned n) {d : Datum} (hd : d.Reads n) :
    ∃ mem', site.assign d mem = .ok () mem' ∧ mem'.Assigned (n + 1) := by
  have hassign : site.assign d mem = .ok ()
      { mem with
        globals := fun slot => if slot = site.globals.length then some d else mem.globals slot } := by
    simp only [Site.assign, htop]
    rfl
  refine ⟨_, hassign, ⟨fun slot hslot => ?_, fun slot e he => ?_, fun e he => ?_⟩⟩
  · by_cases hnew : slot = site.globals.length
    · exact ⟨d, if_pos hnew⟩
    · rcases hmem.assigned slot (by omega) with ⟨e, he⟩
      exact ⟨e, (if_neg hnew).trans he⟩
  · by_cases hnew : slot = site.globals.length
    · obtain rfl := Option.some.inj ((if_pos hnew).symm.trans he)
      exact hd.mono (Nat.le_succ n)
    · exact (hmem.globals slot e ((if_neg hnew).symm.trans he)).mono (Nat.le_succ n)
  · exact (hmem.cells e he).mono (Nat.le_succ n)

theorem Expr.binds_events_of_lets {expr : Expr} (h : Expr.lets expr = []) (own : Option String) :
    Event.binds (Expr.events own expr) = [] := by
  have hperm := Expr.binds_events_perm own expr
  rw [h] at hperm
  exact hperm.eq_nil

/-- A statement of a program whose expression binds nothing. Behind it the names that are bound have
all been assigned. -/
theorem Stmt.eval_finds (hcall : ∀ n, Datum.CallsKeep n call) (htop : site.body = none)
    {stmt : Stmt} (hdirect : Expr.lets stmt.value = []) (hmem : mem.Assigned site.globals.length) :
    Finds (fun _ mem' => mem'.Assigned (site.after (Stmt.events stmt)).globals.length)
      (Stmt.eval call .top site stmt mem) := by
  have hbinds := Expr.binds_events_of_lets hdirect
  have hvalue : ∀ own, Finds
      (fun d mem' => mem'.Assigned site.globals.length ∧ d.Reads site.globals.length)
      (Expr.eval call .top own site stmt.value mem) := fun own =>
    (Expr.eval_keeps (hcall _) (Env.top_reads _) own stmt.value
      ⟨Nat.le_refl _, fun _ => hbinds own⟩ mem hmem).finds
  have hglobals : ∀ own, (site.after (Expr.events own stmt.value)).globals = site.globals := by
    intro own
    simp [Site.after, htop, hbinds own]
  cases stmt with
  | expr value =>
      unfold Stmt.eval
      refine (hvalue none).bind fun d mem₁ h₁ => ?_
      have hsame : (site.after (Stmt.events (.expr value))).globals = site.globals := hglobals none
      rw [hsame]
      exact h₁.1
  | bind name value =>
      unfold Stmt.eval
      refine (hvalue (some name)).bind fun d mem₁ h₁ => ?_
      have hsame : (site.after (Expr.events (some name) value)).globals = site.globals :=
        hglobals (some name)
      -- The name is bound last, so it gets the next global.
      have htop' := Site.body_after_of_none htop (Expr.events (some name) value)
      rcases h₁.1.assign htop' (congrArg List.length hsame) h₁.2 with ⟨mem₂, hassign, h₂⟩
      have hnext : (site.after (Stmt.events (.bind name value))).globals.length =
          site.globals.length + 1 := by
        rw [Stmt.events, Site.after_append, Site.after, htop']
        simp [hsame, Event.binds]
      rw [act_bind_of_ok hassign, hnext]
      exact h₂
  | ret value =>
      unfold Stmt.eval
      exact (hvalue none).bind fun d mem₁ _ => trivial

theorem Block.eval_finds (hcall : ∀ n, Datum.CallsKeep n call) {block : List Stmt}
    (hdirect : ∀ stmt ∈ block, Expr.lets stmt.value = []) (htop : site.body = none)
    (hmem : mem.Assigned site.globals.length) :
    Finds (fun _ _ => True) (Block.eval call .top site block mem) := by
  induction block generalizing site mem with
  | nil => trivial
  | cons stmt rest ih =>
      have hstmt := Stmt.eval_finds hcall htop (hdirect stmt List.mem_cons_self) hmem
      have hrest := fun other hother => hdirect other (List.mem_cons_of_mem stmt hother)
      cases rest with
      | nil =>
          unfold Block.eval
          exact hstmt.bind fun _ _ _ => trivial
      | cons next rest =>
          unfold Block.eval
          exact hstmt.bind fun _ mem₁ h₁ => ih hrest (Site.body_after_of_none htop _) h₁

end Programs

/-- Every `let` outside of function literals is a statement of the program itself. The others stand in
branches of conditionals, and so inside the expression of a statement. -/
def Program.BindsDirectly (program : Program) : Prop :=
  ∀ stmt ∈ program, Expr.lets stmt.value = []

instance (program : Program) : Decidable program.BindsDirectly :=
  inferInstanceAs (Decidable (∀ stmt ∈ program, Expr.lets stmt.value = []))

namespace Program.BindsDirectly

variable {program : Program} (h : program.BindsDirectly)

include h

/-- The interpreter finds every global that it asks for. -/
theorem eval_ne_undefinedGlobal (maxFrames slot : Nat) :
    (Program.eval maxFrames .initial program Reference.start.memory).1 ≠
      .error (.undefinedGlobal slot) := by
  have hmem : Reference.start.memory.Assigned Site.initial.globals.length :=
    ⟨fun _ hslot => absurd hslot (Nat.not_lt_zero _),
      fun _ _ hd => absurd hd.symm (Option.some_ne_none _), List.forall_mem_nil _⟩
  have hfinds := Block.eval_finds (fun n => Datum.call_keeps maxFrames (maxFrames - 1)) h rfl hmem
  unfold Program.eval
  cases hresult : Block.eval (Datum.call maxFrames (maxFrames - 1)) .top .initial program
      Reference.start.memory with
  | ok done mem => exact fun heq => by cases heq
  | error stop mem =>
      cases stop with
      | returned d => exact fun heq => by cases heq
      | failed fault =>
          rw [hresult] at hfinds
          rintro ⟨rfl⟩
          exact hfinds

/-- A program that compiles on its own and binds its globals outside of branches never asks for a
global that has no value, whatever its functions are passed to and wherever they are kept. -/
theorem run_finds_globals {bytecode : Bytecode} (hcompile : program.compile = .ok bytecode)
    (limits : Limits) (capacity fuel slot : Nat) :
    ((Machine.load bytecode (.ofCapacity capacity) limits 0 0).run fuel).1 ≠
      .failed (.undefinedGlobal slot) := by
  rcases Program.exists_of_compile hcompile with ⟨c, hc, rfl⟩
  -- The run is that of the first program of a session with a store of this size.
  let session := Session.start { limits with globalsSize := capacity }
  intro hending
  have hrun : (session.machine c).run fuel =
      (.failed (.undefinedGlobal slot), ((session.machine c).run fuel).2) := Prod.ext hending rfl
  rcases (Session.start_matches _).run hc hrun (by simp) with hconcludes | ⟨fault, heq, hroom⟩
  · exact h.eval_ne_undefinedGlobal limits.maxFrames slot hconcludes.of_failed
  · -- A lack of room is told of by other faults.
    cases heq
    cases hroom

omit h in
/-- Functions that read globals are kept in an array, captured and passed to one another, one of them
binds a name in a branch, and the program is left by a return statement in another branch. -/
theorem run_finds_globals_of_passed_functions :
    ∃ program : Program,
      program =
        [.bind "a" (.int 1),
        .bind "make" (.function ["x"] [.expr (.function []
          [.expr (.binary (.ident "x") "+" (.ident "a"))])]),
        .bind "fs" (.array [.call (.ident "make") [.int 2], .function ["g"]
          [.expr (.cond (.binary (.ident "a") ">" (.int 0))
            [.bind "b" (.call (.ident "g") []), .expr (.ident "b")] (some [.expr (.ident "a")]))]]),
        .bind "apply" (.function ["h"]
          [.expr (.call (.ident "h") [.index (.ident "fs") (.int 0)])]),
        .expr (.cond (.binary (.ident "a") "==" (.int 1))
          [.ret (.call (.ident "apply") [.index (.ident "fs") (.int 1)])] none),
        .expr (.ident "apply")] ∧
      program.BindsDirectly ∧
      ∃ bytecode, program.compile = .ok bytecode ∧ ∀ limits capacity fuel slot,
        ((Machine.load bytecode (.ofCapacity capacity) limits 0 0).run fuel).1 ≠
          .failed (.undefinedGlobal slot) := by
  refine ⟨_, rfl, by decide, ?_⟩
  refine (Program.exists_bytecode_of_compiles ?_).imp fun bytecode hcompile => ⟨hcompile, ?_⟩
  · decide +kernel
  · exact run_finds_globals (by decide) hcompile

-- A branch that is not taken leaves its `let` undone, but the name is bound behind it.
example : (Session.eval 20
    [.expr (.cond (.bool false) [.bind "x" (.int 1)] none), .expr (.ident "x")]
    (.start { stackSize := 8, globalsSize := 1, maxFrames := 1 })).1.result =
      .error (.runtime (.undefinedGlobal 0)) := by
  decide +kernel

end Program.BindsDirectly

end MonkeyMachine
