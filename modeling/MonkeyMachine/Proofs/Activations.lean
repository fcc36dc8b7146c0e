import MonkeyMachine.Proofs.GlobalStore
import MonkeyMachine.Proofs.Notes
import MonkeyMachine.Proofs.OwnName

/-!
# Activations and what they have bound

An activation is one execution of a text: of a program at the top level, or of the body of a function
literal in one call. While it goes on, a list records the bindings that it executes, the parameters
first: `Text.Execution`. Every moment of a run belongs to an activation, see
`Session.Reached.executions`.

Each binding of a text has a cell of its own. So the list can be found in the cells: that of a
binding that has been executed holds the value that was bound, and that of a binding that has been
passed over, because it stands in a branch that was not taken, is blank: `Text.Recorded`.
-/

namespace MonkeyMachine

/-! ## Texts and their executions -/

/-- What an activation executes: the point at which its code begins, and what each instruction of the
code does with names. -/
structure Text where
  site : Site
  notes : List Note

/-- A binding that an activation has executed. The bindings of a text are numbered in its order,
behind the names that are there from the start. -/
structure Bound where
  number : Nat
  name : String
  value : Value

namespace Machine

/-- The number of instructions before the one that the running call has come to. -/
def index (m : Machine) : Nat := (before m.frame.ip m.frame.code.instrs).length

/-- What a call with `count` arguments finds below the callee. -/
def arguments (m : Machine) (count : Nat) : List Value :=
  (m.stack.liveFrom (m.stack.height - (count + 1))).take count

end Machine

namespace Text

/-- The text of a program. -/
def ofProgram (site : Site) (program : Program) : Text where
  site := site
  notes := Block.notes .drop site program

/-- The text of the body of a function literal. -/
def ofFunction (site : Site) (own : Option String) (params : List String) (body : List Stmt) :
    Text where
  site := site.enter own params (Block.events body)
  notes := Block.notes .leave (site.enter own params (Block.events body)) body

/-- The names that are bound before an instruction, in the order of the text. Parameters come first;
at the top level the names of earlier programs do. -/
def bound (text : Text) (index : Nat) : List String :=
  text.site.names ++ Note.binds (text.notes.take index)

/-- The parameters as bindings. The top level has no arguments, so it has none. -/
def parameters (text : Text) (args : List Value) : List Bound :=
  (text.site.names.zip args).mapIdx fun number pair => ⟨number, pair.1, pair.2⟩

/-- The binding that the next step executes in the call that has `depth` callers, if it does. -/
def executed (text : Text) (depth : Nat) (m : Machine) : List Bound :=
  if m.callers.size = depth then
    match text.notes[m.index]? with
    | some (.bind name) => m.stack.top?.toList.map fun v => ⟨(text.bound m.index).length, name, v⟩
    | _ => []
  else
    []

/-- The activation of a text that begins in `entry` has come to `m`. The list holds the bindings that
it has executed by then. It goes on as long as its call does, also while others run inside it. -/
inductive Execution (text : Text) (entry : Machine) (args : List Value) :
    List Bound → Machine → Prop
  | begins : Execution text entry args (text.parameters args) entry
  | goesOn {log : List Bound} {m m' : Machine} (h : Execution text entry args log m)
      (hnext : m.Next m') (hdepth : entry.callers.size ≤ m'.callers.size) :
      Execution text entry args (log ++ text.executed entry.callers.size m) m'

/-- Follow an activation for some steps. -/
def follow (text : Text) (depth : Nat) : Nat → List Bound → Machine → Option (List Bound × Machine)
  | 0, log, m => some (log, m)
  | steps + 1, log, m =>
      match Exec.step m with
      | .ok .running m' =>
          if depth ≤ m'.callers.size then
            follow text depth steps (log ++ text.executed depth m) m'
          else
            none
      | _ => none

theorem Execution.follow {text : Text} {entry m : Machine} {args : List Value} {log : List Bound}
    (h : text.Execution entry args log m) {steps : Nat} {last : List Bound × Machine}
    (hlast : text.follow entry.callers.size steps log m = some last) :
    text.Execution entry args last.1 last.2 := by
  induction steps generalizing log m with
  | zero =>
      cases hlast
      exact h
  | succ steps ih =>
      rw [Text.follow] at hlast
      split at hlast
      · rename_i m' hstep
        split at hlast
        · rename_i hdepth
          exact ih (h.goesOn hstep hdepth) hlast
        · cases hlast
      · cases hlast

theorem bound_prefix (text : Text) {i j : Nat} (h : i ≤ j) : text.bound i <+: text.bound j := by
  rcases List.take_prefix_take_left h (l := text.notes) with ⟨rest, hrest⟩
  refine ⟨Note.binds rest, ?_⟩
  rw [bound, bound, ← hrest, Note.binds_append, List.append_assoc]

theorem bound_succ {text : Text} {i : Nat} {name : String}
    (h : text.notes[i]? = some (.bind name)) : text.bound (i + 1) = text.bound i ++ [name] := by
  rw [bound, bound, List.take_add_one, h, Note.binds_append, List.append_assoc]
  rfl

theorem mem_parameters {text : Text} {args : List Value} {b : Bound}
    (h : b ∈ text.parameters args) :
    text.site.names[b.number]? = some b.name ∧ args[b.number]? = some b.value := by
  rcases List.mem_mapIdx.1 h with ⟨number, hlt, rfl⟩
  rw [List.length_zip, Nat.lt_min] at hlt
  simp [hlt.1, hlt.2]

end Text

/-! ## What a step does to cells -/

theorem Stack.Live.top? {stack : Stack} {values : List Value} {v : Value}
    (h : stack.Live (values ++ [v])) : stack.top? = some v := by
  have hget : stack.items[values.length]? = some v := h.get? (by simp)
  have hheight : stack.height = values.length + 1 := by simpa using h.1
  simp [Stack.top?, hheight, hget]

namespace Exec

variable {m m' : Machine}

theorem setLocal_eq_ok {slot : Nat} {v : Value} (htop : m.stack.top? = some v)
    (h : setLocal slot m = .ok () m') :
    m.frame.base + slot < m.stack.items.size ∧
      m'.stack.items = m.stack.items.setIfInBounds (m.frame.base + slot) v := by
  unfold setLocal at h
  rw [act_bind_of_ok (pop_of_top htop)] at h
  have hset : onStack (Stack.set (m.frame.base + slot) v)
      { m with stack := { m.stack with height := m.stack.height - 1 } } = .ok () m' := h
  rw [onStack_apply, Stack.set] at hset
  by_cases hslot : m.frame.base + slot < m.stack.items.size
  · rw [if_pos hslot] at hset
    cases hset
    exact ⟨hslot, rfl⟩
  · rw [if_neg hslot] at hset
    cases hset

theorem setGlobal_eq_ok {slot : Nat} {v : Value} (htop : m.stack.top? = some v)
    (h : setGlobal slot m = .ok () m') :
    slot < m.globals.slots.size ∧
      m'.globals.slots = m.globals.slots.setIfInBounds slot (some v) := by
  unfold setGlobal at h
  rw [act_bind_of_ok (pop_of_top htop), onGlobals_apply, Globals.set] at h
  by_cases hslot : slot < m.globals.slots.size
  · rw [if_pos hslot] at h
    cases h
    exact ⟨hslot, rfl⟩
  · rw [if_neg hslot] at h
    cases h

/-- After a return that does not end the run there is one call less. -/
theorem callers_lt_of_leaveBody {result : Value}
    (h : leaveBody result m = .ok .running m') : m'.callers.size < m.callers.size := by
  by_cases hcallers : m.callers = #[]
  · rw [leaveBody_of_last result hcallers] at h
    rcases act_bind_eq_ok h with ⟨_, m₁, -, h₁⟩
    rcases act_bind_eq_ok h₁ with ⟨_, m₂, -, h₂⟩
    cases h₂
  · have hback := leaveBody_discards result hcallers
    rw [h] at hback
    rw [hback, Array.size_push]
    exact Nat.lt_succ_self _

/-- The call of a function finds its arguments, and makes room for the other locals. -/
theorem call_live {lower args : List Value} {callee : Value}
    (hlive : m.stack.Live (lower ++ args ++ [callee])) (h : call args.length m = .ok () m')
    (hpushed : m.callers.size < m'.callers.size) :
    m'.frame.base = lower.length ∧ m'.frame.ip = 0 ∧ args.length = m'.frame.body.numParams ∧
      (m'.frame.body.numParams ≤ m'.frame.body.numLocals →
        m'.stack.Live (lower ++ args ++
          List.replicate (m'.frame.body.numLocals - m'.frame.body.numParams) .null)) := by
  rcases call_eq_ok h hlive.top? hpushed with ⟨id, body, free, m₁, -, -, hstack, henter⟩
  have hlength : (lower ++ args).length = lower.length + args.length := List.length_append
  have hheight : m.stack.height - 1 = (lower ++ args).length := by
    rw [hlive.1]
    simp
  have hlive₁ : m₁.stack.Live (lower ++ args) := by
    rw [hstack, hheight]
    exact hlive.pop.2
  have hbase : m.stack.height - 1 - args.length = lower.length := by omega
  rw [hbase] at henter
  rcases enterBody_eq_ok henter with ⟨hparams, stack, hreserve, rfl⟩
  refine ⟨rfl, rfl, hparams, ?_⟩
  intro hfits
  have hfits' : body.numParams ≤ body.numLocals := hfits
  have htotal : (lower ++ args).length + (body.numLocals - args.length) =
      lower.length + body.numLocals := by omega
  -- The cells have been reserved, so there was room for them.
  by_cases hroom : (lower ++ args).length + (body.numLocals - args.length) ≤ m₁.stack.capacity
  · rcases hlive₁.reserve hroom with ⟨stack', hreserve', hlive', -⟩
    rw [htotal, hlength] at hreserve'
    rw [hparams] at hlive'
    cases hreserve.symm.trans hreserve'
    exact hlive'
  · rcases hlive₁.reserve_full (Nat.lt_of_not_le hroom) with ⟨stack', hreserve', -⟩
    rw [hlength] at hreserve'
    cases hreserve.symm.trans hreserve'

end Exec

namespace Machine

namespace About

variable {w : World} {m m' : Machine} {values : List Value} {pre post : List Instr} {i : Instr}

theorem callers_lt (h : m.About w values pre i post) (hnext : m.Next m')
    (hop : i.op = .returnValue ∨ i.op = .returnNull) : m'.callers.size < m.callers.size := by
  have hstep : Exec.step m = .ok .running m' := hnext
  rw [h.step] at hstep
  rcases hop with hop | hop
  · rw [hop] at hstep
    rcases act_bind_eq_ok hstep with ⟨v, m₁, hpop, hleave⟩
    have hsame := Exec.KeepsCalls.pop (m.jump (codeSize (pre ++ [i])))
    rw [hpop] at hsame
    have hlt := Exec.callers_lt_of_leaveBody hleave
    rwa [show m₁.callers = m.callers from hsame.callers] at hlt
  · rw [hop] at hstep
    have hleave : Exec.leaveBody .null (m.jump (codeSize (pre ++ [i]))) = .ok .running m' := hstep
    have hlt := Exec.callers_lt_of_leaveBody hleave
    exact hlt

/-- An instruction that binds nothing leaves the locals of its call alone, and the globals. -/
theorem spares_locals (h : m.About w values pre i post) (hglobal : i.op ≠ .setGlobal)
    (hlocal : i.op ≠ .setLocal) (hnext : m.Next m') (hdepth : m.callers.size ≤ m'.callers.size) :
    Spares (m.frame.base + m.frame.body.numLocals) m m' := by
  have hstep : Exec.step m = .ok .running m' := hnext
  have hneeds := h.needs
  by_cases hcontrol : i.op ∈ [Opcode.setGlobal, .call, .returnValue, .returnNull]
  · simp only [List.mem_cons, List.not_mem_nil, or_false] at hcontrol
    rcases hcontrol with hset | hcall | hreturn
    · exact absurd hset hglobal
    · obtain ⟨op, operands⟩ := i
      obtain rfl : op = .call := hcall
      obtain ⟨argc, rfl⟩ : ∃ n, operands = [n] :=
        List.length_eq_one_iff.1 (List.Forall₂.length_eq h.valid).symm
      -- The arguments and the callee lie above the locals.
      have hcount : (Instr.mk .call [argc]).needs = argc + 1 := rfl
      have hfloor : m.frame.base + m.frame.body.numLocals ≤ m.stack.height - (argc + 1) := by
        rw [h.live.1]
        omega
      have hcalls := h.calls_function rfl
      rw [hstep] at hcalls
      rcases hcalls with hstays | hbegins
      · exact ⟨hstays.below.mono hfloor, hstays.globals⟩
      · exact ⟨hbegins.below.mono hfloor, hbegins.globals⟩
    · have hlt := h.callers_lt hnext hreturn
      omega
  · have hordinary := (h.above hneeds (codeSize (pre ++ [i]))).ordinary
      (fun hop => absurd hop hlocal) hcontrol
    rw [← h.step, hstep] at hordinary
    exact hordinary.toSpares.of_jump

/-- The topmost value is there for an instruction that takes one. -/
theorem top? (h : m.About w values pre i post) (hone : i.needs = 1) :
    ∃ v, m.stack.top? = some v := by
  have hneeds := h.needs
  have hlive := h.live
  rcases exists_last (show 1 ≤ values.length by omega) with ⟨lower, v, rfl⟩
  exact ⟨v, hlive.top?⟩

/-- A local takes the value on top of the stack. -/
theorem setLocal_next {slot : Nat} (h : m.About w values pre ⟨.setLocal, [slot]⟩ post)
    (hnext : m.Next m') :
    ∃ v, m.stack.top? = some v ∧ m.frame.base + slot < m.stack.items.size ∧
      m'.stack.items = m.stack.items.setIfInBounds (m.frame.base + slot) v := by
  have hstep : Exec.step m = .ok .running m' := hnext
  rcases h.top? rfl with ⟨v, htop⟩
  rw [h.step] at hstep
  rcases act_bind_eq_ok hstep with ⟨_, m₁, hset, hrunning⟩
  cases hrunning
  have hmoved : (m.jump (codeSize (pre ++ [⟨.setLocal, [slot]⟩]))).stack.top? = some v := htop
  have hstored := Exec.setLocal_eq_ok hmoved hset
  exact ⟨v, htop, hstored⟩

/-- A global takes the value on top of the stack. -/
theorem setGlobal_next {slot : Nat} (h : m.About w values pre ⟨.setGlobal, [slot]⟩ post)
    (hnext : m.Next m') :
    ∃ v, m.stack.top? = some v ∧ slot < m.globals.slots.size ∧
      m'.globals.slots = m.globals.slots.setIfInBounds slot (some v) := by
  have hstep : Exec.step m = .ok .running m' := hnext
  rcases h.top? rfl with ⟨v, htop⟩
  rw [h.step] at hstep
  rcases act_bind_eq_ok hstep with ⟨_, m₁, hset, hrunning⟩
  cases hrunning
  have hmoved : (m.jump (codeSize (pre ++ [⟨.setGlobal, [slot]⟩]))).stack.top? = some v := htop
  have hstored := Exec.setGlobal_eq_ok hmoved hset
  exact ⟨v, htop, hstored⟩

end About

end Machine

/-! ## Where an activation stands -/

theorem codeSize_take_mono (is : List Instr) {i j : Nat} (h : i ≤ j) :
    codeSize (is.take i) ≤ codeSize (is.take j) := by
  rcases List.take_prefix_take_left h (l := is) with ⟨rest, hrest⟩
  rw [← hrest, codeSize_append]
  exact Nat.le_add_right _ _

theorem codeSize_take_lt {is : List Instr} {n : Nat} (h : n < is.length) :
    codeSize (is.take n) < codeSize is := by
  have hpos := is[n].size_pos
  calc codeSize (is.take n)
      < codeSize (is.take n) + (is[n].size + codeSize (is.drop (n + 1))) := by omega
    _ = codeSize (is.take n ++ is.drop n) := by
        rw [List.drop_eq_getElem_cons h, codeSize_append, codeSize_cons]
    _ = codeSize is := by rw [List.take_append_drop]

namespace Frame

/-- The call in front of its instruction with the given number. -/
def ahead (frame : Frame) (index : Nat) : Frame :=
  { frame with ip := codeSize (frame.code.instrs.take index) }

/-- A call that moves forward comes to an instruction further on. -/
theorem ahead_of_at {frame : Frame} {index target : Nat} {pre post : List Instr}
    (hat : ({ frame.ahead index with ip := target } : Frame).At pre post)
    (hlt : (frame.ahead index).ip < target) :
    ({ frame.ahead index with ip := target } : Frame) = frame.ahead pre.length ∧
      index < pre.length ∧ pre.length ≤ frame.code.instrs.length := by
  have hinstrs : frame.code.instrs = pre ++ post := hat.instrs
  have htake : frame.code.instrs.take pre.length = pre := by
    rw [hinstrs, List.take_left]
  have htarget : target = codeSize (frame.code.instrs.take pre.length) := by
    rw [htake]
    exact hat.ip
  refine ⟨?_, ?_, ?_⟩
  · rw [htarget]
    rfl
  · by_contra hnot
    have hle := codeSize_take_mono frame.code.instrs (Nat.le_of_not_lt hnot)
    have hlt' : codeSize (frame.code.instrs.take index) < target := hlt
    omega
  · rw [hinstrs, List.length_append]
    exact Nat.le_add_right _ _

end Frame

namespace Machine

variable {w : World} {entry m m' : Machine} {index : Nat}

theorem index_of_at {pre post : List Instr} (h : m.frame.At pre post) : m.index = pre.length := by
  rw [Machine.index, h.ip, h.instrs, before_append]

theorem About.index_eq {values : List Value} {pre post : List Instr} {i : Instr}
    (h : m.About w values pre i post) : m.index = pre.length := index_of_at ⟨h.instrs, h.ip⟩

/-- The call that runs in a function is one of a constant of the pool. -/
theorem Sound.function_of_callers (h : m.Sound w) (hcallers : m.callers ≠ #[]) :
    ∃ n : Nat, w.pool[n]? = some (.function (.constant n) m.frame.body) := by
  rcases h.stack with ⟨values, -, -, hcalls⟩
  rcases hcalls.current with ⟨locals, pre, post, hrole, -, -, hnone, -⟩
  have hlocals : locals ≠ none := by
    intro htop
    exact hcallers (by simpa using hnone.2 htop)
  rcases (hrole.closure hlocals).of_closure with ⟨_, n, -, -, hpool, -, -⟩
  exact ⟨n, hpool⟩

theorem arguments_of_live {lower args : List Value} {callee : Value}
    (h : m.stack.Live (lower ++ args ++ [callee])) : m.arguments args.length = args := by
  have hstart : m.stack.height - (args.length + 1) = lower.length := by
    rw [h.1]
    simp
  rw [arguments, hstart, h.liveFrom, List.append_assoc, List.drop_left, List.take_left]

/-- What a call that has just begun finds: its arguments where the caller left them, above the locals
of the caller, and null in its other locals. -/
theorem Sound.called (h : m.Sound w) (hnext : m.Next m')
    (hgrow : m.callers.size < m'.callers.size) :
    ∃ lower args callee, m.stack.Live (lower ++ args ++ [callee]) ∧
      m.frame.base + m.frame.body.numLocals ≤ lower.length ∧ m'.frame.base = lower.length ∧
      m'.frame.ip = 0 ∧ args.length = m'.frame.body.numParams ∧
      m'.stack.Live (lower ++ args ++
        List.replicate (m'.frame.body.numLocals - m'.frame.body.numParams) .null) := by
  have hstep : Exec.step m = .ok .running m' := hnext
  rcases h.about_call hnext hgrow with ⟨values, pre, argc, post, habout⟩
  have hcount : (Instr.mk .call [argc]).needs = argc + 1 := rfl
  have hneeds := habout.needs
  have hlive := habout.live
  rcases exists_last (show 1 ≤ values.length by omega) with ⟨rest, callee, rfl⟩
  rw [List.length_append, List.length_singleton] at hneeds
  rcases exists_top (show argc ≤ rest.length by omega) with ⟨lower, args, rfl, rfl⟩
  rw [List.length_append] at hneeds
  rw [habout.step] at hstep
  rcases act_bind_eq_ok hstep with ⟨_, m₁, hcall, hrunning⟩
  cases hrunning
  have hmoved : (m.jump (codeSize (pre ++ [⟨.call, [args.length]⟩]))).stack.Live
      (lower ++ args ++ [callee]) := hlive
  rcases Exec.call_live hmoved hcall hgrow with ⟨hbase, hip, hparams, hentered⟩
  refine ⟨lower, args, callee, hlive, by omega, hbase, hip, hparams, hentered ?_⟩
  -- What is executed now is a function of the pool, and those have cells for all parameters.
  rcases h.next hnext with ⟨w', -, -, hm'⟩
  have hcallers : m'.callers ≠ #[] := by
    intro hnone
    rw [hnone] at hgrow
    exact Nat.not_lt_zero _ hgrow
  rcases hm'.function_of_callers hcallers with ⟨n, hpool⟩
  exact (hm'.world.function hpool).2.params

/-- The activation that began in `entry` stands in front of its instruction with the given number. It
runs, or it waits for a call that has its locals above those of the activation. -/
inductive Hosts (entry : Machine) (index : Nat) (m : Machine) : Prop
  | running (hframe : m.frame = entry.frame.ahead index) (hcallers : m.callers = entry.callers)
  | waiting (hinside : m.Inside (entry.frame.ahead index) entry.callers.toList.reverse
      (entry.frame.base + entry.frame.body.numLocals))

/-- The activation that runs goes on in the order of its text, unless it returns. -/
theorem Hosts.of_running (hframe : m.frame = entry.frame.ahead index)
    (hcallers : m.callers = entry.callers) (hm : m.Sound w) (hnext : m.Next m')
    (hdepth : entry.callers.size ≤ m'.callers.size) :
    ∃ index', index < index' ∧ index' ≤ entry.frame.code.instrs.length ∧ Hosts entry index' m' := by
  have hruns := hm.runs hnext
  rcases hruns.sound with ⟨w', -, hm'⟩
  rcases hm'.stack with ⟨values, -, -, hcalls⟩
  -- Whether the call goes on or waits, its frame has been moved to a later instruction.
  cases hruns.moves with
  | @on target hlt hframe' hcallers' =>
      rcases hcalls.current with ⟨_, pre, post, -, hat, -⟩
      rw [hframe', hframe] at hat
      rw [hframe] at hlt
      rcases Frame.ahead_of_at hat hlt with ⟨hahead, hindex, hle⟩
      refine ⟨pre.length, hindex, hle, .running ?_ (hcallers'.trans hcallers)⟩
      rw [hframe', hframe, hahead]
  | @into target hlt _ hpush _ =>
      have hgrow : m.callers.size < m'.callers.size := by
        rw [hpush, Array.size_push]
        exact Nat.lt_succ_self _
      rcases hm.called hnext hgrow with ⟨lower, _, _, -, habove, hbase, -, -, -⟩
      rw [hpush, Array.toList_push, List.reverse_concat] at hcalls
      cases hcalls with
      | function _ _ _ _ hcaller =>
          rcases hcaller.current with ⟨_, pre, post, -, hat, -⟩
          rw [hframe] at hat hlt
          rcases Frame.ahead_of_at hat hlt with ⟨hahead, hindex, hle⟩
          refine ⟨pre.length, hindex, hle, .waiting ⟨[m'.frame], by simp, ?_, ?_⟩⟩
          · rw [calls, hpush, hframe, hahead, hcallers]
            simp
          · intro f hf
            rw [List.mem_singleton.1 hf, hbase]
            rw [hframe] at habove
            exact habove
  | out hpush =>
      rw [← hcallers, hpush, Array.size_push] at hdepth
      omega

/-- A step inside a call that the activation waits for leaves it where it stands. -/
theorem Hosts.of_waiting (hinside : m.Inside (entry.frame.ahead index) entry.callers.toList.reverse
      (entry.frame.base + entry.frame.body.numLocals)) (hm : m.Sound w) (hnext : m.Next m') :
    Hosts entry index m' := by
  rcases hinside.next hm hnext with hstays | hback
  · exact .waiting hstays
  · obtain ⟨hframe, hcallers⟩ := List.cons.inj hback
    exact .running hframe (by simpa using hcallers)

end Machine

/-! ## What the cells hold -/

namespace Site

variable {site : Site}

theorem assigns_binding_of_top (h : site.body = none) (names : List String) :
    (site.binding names).assigns = ⟨.setGlobal, [(site.names ++ names).length]⟩ := by
  obtain ⟨globals, literals, _ | locals⟩ := site
  · simp [assigns, binding, after, Site.names, Event.binds_map_bind]
  · cases h

theorem assigns_binding_of_body {locals : Locals} (h : site.body = some locals)
    (names : List String) :
    (site.binding names).assigns = ⟨.setLocal, [(site.names ++ names).length]⟩ := by
  obtain ⟨globals, literals, _ | locals⟩ := site
  · cases h
  · simp [assigns, binding, after, Site.names, Event.binds_map_bind]

end Site

namespace Text

/-- The cell of a binding: a global of the program, or a local of the call that has its locals from
slot `base` on. -/
def cell (text : Text) (base : Nat) (m : Machine) (number : Nat) : Option Value :=
  match text.site.body with
  | none => m.globals.slots[number]?.join
  | some _ => m.stack.get? (base + number)

/-- What the cell of a binding holds that has not been executed. -/
def blank (text : Text) : Option Value :=
  match text.site.body with
  | none => none
  | some _ => some .null

/-- The number of names that are bound at the end of the text. -/
def size (text : Text) : Nat := (text.bound text.notes.length).length

/-- A call is about to execute the text. -/
structure Fresh (text : Text) (entry : Machine) (args : List Value) : Prop where
  noted : Noted text.site text.notes entry.frame.code.instrs
  ip : entry.frame.ip = 0
  top : text.site.body = none ↔ entry.callers = #[]
  /-- The body of a function has a local for each of its names. -/
  locals : text.site.body ≠ none → entry.frame.body.numLocals = text.size
  given : text.site.body ≠ none → args.length = text.site.names.length
  alone : text.site.body = none → args = []
  stored : ∀ b ∈ text.parameters args, text.cell entry.frame.base entry b.number = some b.value
  blank : ∀ k, text.site.names.length ≤ k → k < text.size →
    text.cell entry.frame.base entry k = text.blank

/-- The cells agree with what has been executed so far, in front of the instruction with the given
number. -/
structure Recorded (text : Text) (base index : Nat) (log : List Bound) (m : Machine) : Prop where
  inside : index ≤ text.notes.length
  stored : ∀ b ∈ log, text.cell base m b.number = some b.value
  blank : ∀ k, text.site.names.length ≤ k → k < text.size → (∀ b ∈ log, b.number ≠ k) →
    text.cell base m k = text.blank
  /-- Bindings are executed in the order of the text. -/
  sorted : log.Pairwise (·.number < ·.number)
  named : ∀ b ∈ log, (text.bound index)[b.number]? = some b.name
  /-- All parameters have been bound. -/
  given : text.site.body ≠ none → ∀ k < text.site.names.length, ∃ b ∈ log, b.number = k
  /-- What earlier programs have bound is not recorded. -/
  later : text.site.body = none → ∀ b ∈ log, text.site.names.length ≤ b.number

variable {text : Text} {entry m m' : Machine} {args : List Value} {log : List Bound}
  {base index index' depth : Nat}

theorem bound_length_le (text : Text) {i : Nat} (h : i ≤ text.notes.length) :
    (text.bound i).length ≤ text.size := (text.bound_prefix h).length_le

theorem executed_of_bind {name : String} {v : Value} (hdepth : m.callers.size = depth)
    (hnote : text.notes[m.index]? = some (.bind name)) (htop : m.stack.top? = some v) :
    text.executed depth m = [⟨(text.bound m.index).length, name, v⟩] := by
  simp [executed, hdepth, hnote, htop]

theorem executed_of_not_bind (h : ∀ name, text.notes[m.index]? ≠ some (.bind name)) :
    text.executed depth m = [] := by
  unfold executed
  split
  · split
    · rename_i name hname
      exact absurd hname (h name)
    · rfl
  · rfl

theorem executed_of_deeper (h : m.callers.size ≠ depth) : text.executed depth m = [] := if_neg h

namespace Recorded

theorem lt_bound (h : Recorded text base index log m) {b : Bound} (hb : b ∈ log) :
    b.number < (text.bound index).length := (List.getElem?_eq_some_iff.1 (h.named b hb)).1

theorem named_of_le (h : Recorded text base index log m) (hle : index ≤ index') {b : Bound}
    (hb : b ∈ log) : (text.bound index')[b.number]? = some b.name := by
  rcases text.bound_prefix hle with ⟨rest, hrest⟩
  rw [← hrest, List.getElem?_append_left (h.lt_bound hb)]
  exact h.named b hb

/-- A step that leaves the cells alone. -/
theorem same (h : Recorded text base index log m) (hle : index ≤ index')
    (hinside : index' ≤ text.notes.length)
    (hsame : ∀ k < text.size, text.cell base m' k = text.cell base m k) :
    Recorded text base index' log m' where
  inside := hinside
  stored := by
    intro b hb
    rw [hsame b.number ((h.lt_bound hb).trans_le (text.bound_length_le h.inside))]
    exact h.stored b hb
  blank := by
    intro k hlow hhigh hnot
    rw [hsame k hhigh]
    exact h.blank k hlow hhigh hnot
  sorted := h.sorted
  named := fun b hb => h.named_of_le hle hb
  given := h.given
  later := h.later

/-- A step that executes a binding writes the next cell. -/
theorem add (h : Recorded text base index log m) {name : String} {v : Value}
    (hnote : text.notes[index]? = some (.bind name)) (hlt : index < index')
    (hinside : index' ≤ text.notes.length)
    (hnew : text.cell base m' (text.bound index).length = some v)
    (hsame : ∀ k ≠ (text.bound index).length, text.cell base m' k = text.cell base m k) :
    Recorded text base index' (log ++ [⟨(text.bound index).length, name, v⟩]) m' where
  inside := hinside
  stored := by
    intro b hb
    rcases List.mem_append.1 hb with hb | hb
    · rw [hsame b.number (Nat.ne_of_lt (h.lt_bound hb))]
      exact h.stored b hb
    · rw [List.mem_singleton.1 hb]
      exact hnew
  blank := by
    intro k hlow hhigh hnot
    have hne : k ≠ (text.bound index).length := by
      intro hk
      exact hnot ⟨(text.bound index).length, name, v⟩ (by simp) hk.symm
    rw [hsame k hne]
    exact h.blank k hlow hhigh fun b hb => hnot b (List.mem_append_left _ hb)
  sorted := by
    rw [List.pairwise_append]
    refine ⟨h.sorted, List.pairwise_singleton _ _, ?_⟩
    intro b hb b' hb'
    rw [List.mem_singleton.1 hb']
    exact h.lt_bound hb
  named := by
    intro b hb
    rcases List.mem_append.1 hb with hb | hb
    · exact h.named_of_le (Nat.le_of_lt hlt) hb
    · rw [List.mem_singleton.1 hb]
      -- The name is the first one behind those that were bound before.
      rcases text.bound_prefix (show index + 1 ≤ index' from hlt) with ⟨rest, hrest⟩
      rw [← hrest, bound_succ hnote]
      simp
  given := by
    intro hbody k hk
    rcases h.given hbody k hk with ⟨b, hb, hnumber⟩
    exact ⟨b, List.mem_append_left _ hb, hnumber⟩
  later := by
    intro hbody b hb
    rcases List.mem_append.1 hb with hb | hb
    · exact h.later hbody b hb
    · rw [List.mem_singleton.1 hb, bound, List.length_append]
      exact Nat.le_add_right _ _

end Recorded

/-- What leaves the locals and the globals alone leaves the cells alone. -/
theorem Fresh.cell_of_spares (h : text.Fresh entry args)
    (hspares : Machine.Spares (entry.frame.base + entry.frame.body.numLocals) m m') {k : Nat}
    (hk : k < text.size) :
    text.cell entry.frame.base m' k = text.cell entry.frame.base m k := by
  unfold cell
  cases hbody : text.site.body with
  | none => rw [hspares.globals]
  | some locals =>
      have hlocals := h.locals (by simp [hbody])
      exact hspares.below _ (by omega)

/-- The instruction that binds a name writes the cell of that binding and no other one. -/
theorem cell_of_assigns {w : World} {values : List Value} {pre post : List Instr} {i : Instr}
    (habout : m.About w values pre i post) (hnext : m.Next m')
    (hi : i = (text.site.binding (Note.binds (text.notes.take index))).assigns) :
    ∃ v, m.stack.top? = some v ∧
      text.cell m.frame.base m' (text.bound index).length = some v ∧
      ∀ k ≠ (text.bound index).length,
        text.cell m.frame.base m' k = text.cell m.frame.base m k := by
  unfold cell
  cases hbody : text.site.body with
  | none =>
      obtain rfl : i = ⟨.setGlobal, [(text.bound index).length]⟩ :=
        hi.trans (Site.assigns_binding_of_top hbody _)
      rcases habout.setGlobal_next hnext with ⟨v, htop, hlt, hslots⟩
      refine ⟨v, htop, ?_, ?_⟩
      · show m'.globals.slots[(text.bound index).length]?.join = some v
        rw [hslots, Array.getElem?_setIfInBounds_self_of_lt hlt]
        rfl
      · intro k hk
        show m'.globals.slots[k]?.join = m.globals.slots[k]?.join
        rw [hslots, Array.getElem?_setIfInBounds_ne (Ne.symm hk)]
  | some locals =>
      obtain rfl : i = ⟨.setLocal, [(text.bound index).length]⟩ :=
        hi.trans (Site.assigns_binding_of_body hbody _)
      rcases habout.setLocal_next hnext with ⟨v, htop, hlt, hitems⟩
      refine ⟨v, htop, ?_, ?_⟩
      · show m'.stack.items[m.frame.base + (text.bound index).length]? = some v
        rw [hitems]
        exact Array.getElem?_setIfInBounds_self_of_lt hlt
      · intro k hk
        show m'.stack.items[m.frame.base + k]? = m.stack.items[m.frame.base + k]?
        rw [hitems, Array.getElem?_setIfInBounds_ne]
        intro heq
        exact hk (Nat.add_left_cancel heq).symm

theorem Fresh.index_eq (h : text.Fresh entry args) (hframe : m.frame = entry.frame.ahead index)
    (hinside : index ≤ text.notes.length) : m.index = index := by
  have hat : m.frame.At (entry.frame.code.instrs.take index)
      (entry.frame.code.instrs.drop index) := by
    rw [hframe]
    exact ⟨(List.take_append_drop _ _).symm, rfl⟩
  rw [Machine.index_of_at hat, List.length_take, ← h.noted.length, Nat.min_eq_left hinside]

/-- The note of the instruction that the activation has come to. -/
theorem Fresh.note {w : World} {values : List Value} {pre post : List Instr} {i : Instr}
    (h : text.Fresh entry args) (hframe : m.frame = entry.frame.ahead index)
    (hinside : index ≤ text.notes.length) (habout : m.About w values pre i post) :
    ∃ note, text.notes[index]? = some note ∧
      note.Describes (text.site.binding (Note.binds (text.notes.take index))) i := by
  have hinstrs : entry.frame.code.instrs = pre ++ i :: post := by
    have hcode := habout.instrs
    rw [hframe] at hcode
    exact hcode
  have hpre : pre.length = index := habout.index_eq.symm.trans (h.index_eq hframe hinside)
  have hnoted := h.noted
  rw [hinstrs] at hnoted
  rcases hnoted.split with ⟨note, hnote, hdescribes⟩
  rw [hpre] at hnote hdescribes
  exact ⟨note, hnote, hdescribes⟩

/-- A step of a run, seen from an activation that is not left by it. -/
theorem Recorded.step {w : World} (hfresh : text.Fresh entry args)
    (h : Recorded text entry.frame.base index log m) (hhosts : Machine.Hosts entry index m)
    (hm : m.Sound w) (hnext : m.Next m') (hdepth : entry.callers.size ≤ m'.callers.size) :
    ∃ index', Machine.Hosts entry index' m' ∧
      Recorded text entry.frame.base index' (log ++ text.executed entry.callers.size m) m' := by
  cases hhosts with
  | running hframe hcallers =>
      have hsize : m.callers.size = entry.callers.size := congrArg Array.size hcallers
      have hbase : m.frame.base = entry.frame.base := by
        rw [hframe]
        rfl
      rcases hm.about_of_next hnext with ⟨values, pre, i, post, habout⟩
      have hindex := hfresh.index_eq hframe h.inside
      rcases hfresh.note hframe h.inside habout with ⟨note, hnote, hdescribes⟩
      rcases Machine.Hosts.of_running hframe hcallers hm hnext hdepth with
        ⟨index', hlt, hle, hhosts'⟩
      rw [← hfresh.noted.length] at hle
      refine ⟨index', hhosts', ?_⟩
      by_cases hbind : ∃ name, note = .bind name
      · rcases hbind with ⟨name, rfl⟩
        rcases cell_of_assigns habout hnext hdescribes with ⟨v, htop, hnew, hsame⟩
        rw [hbase] at hnew hsame
        rw [executed_of_bind hsize (hindex ▸ hnote) htop, hindex]
        exact h.add hnote hlt hle hnew hsame
      · have hnone : ∀ name, note ≠ .bind name := fun name heq => hbind ⟨name, heq⟩
        have hexecuted : text.executed entry.callers.size m = [] := by
          refine executed_of_not_bind fun name heq => ?_
          rw [hindex, hnote] at heq
          exact hnone name (Option.some.inj heq)
        rw [hexecuted, List.append_nil]
        rcases Note.plain_of_describes hdescribes hnone with ⟨hglobal, hlocal⟩
        have hspares := habout.spares_locals hglobal hlocal hnext (hsize ▸ hdepth)
        rw [hframe] at hspares
        exact h.same (Nat.le_of_lt hlt) hle fun k hk => hfresh.cell_of_spares hspares hk
  | waiting hinside =>
      -- What happens inside the call concerns neither the cells nor the list.
      have hdeeper : m.callers.size ≠ entry.callers.size := by
        have hlt := hinside.size_lt
        rw [List.length_reverse, Array.length_toList] at hlt
        exact Nat.ne_of_gt hlt
      rw [executed_of_deeper hdeeper, List.append_nil]
      have hspares := hinside.spares hm hnext
      exact ⟨index, .of_waiting hinside hm hnext,
        h.same (Nat.le_refl _) h.inside fun k hk => hfresh.cell_of_spares hspares hk⟩

end Text

/-! ## The activations of a run -/

namespace Session

/-- The point of the text of a session at which its next program begins. -/
structure Resumes (session : Session) (site : Site) : Prop where
  names : Agrees session.symbols site
  top : site.body = none
  literals : session.constants.size = site.literals

/-- An activation in the run of a program: its text, the machine in which it begins, and the arguments
of the call. -/
inductive Activates (session : Session) (program : Program) (c : Compiler) :
    Text → Machine → List Value → Prop
  | program {site : Site} (hsite : session.Resumes site) :
      Activates session program c (.ofProgram site program) (session.machine c) []
  | call {caller entry : Machine} (hreaches : (session.machine c).Reaches caller)
      (hnext : caller.Next entry) (hdeeper : caller.callers.size < entry.callers.size) {site : Site}
      {own : Option String} {params : List String} {body : List Stmt} {code : Fragment}
      (hlayout : Block.layout .leave (site.enter own params (Block.events body)) 0 body = .ok code)
      (hfunction : entry.frame.body = Fragment.function params (Block.events body) code) :
      Activates session program c (.ofFunction site own params body) entry
        (caller.arguments params.length)

variable {session : Session} {program : Program} {c : Compiler} {text : Text} {entry m : Machine}
  {args : List Value}

/-- At the top level the cells that a program will bind are blank when it begins. -/
theorem Reached.fresh_program (h : session.Reached)
    (hc : (Block.compile program).run (.start session.symbols session.constants) = .ok () c)
    {site : Site} (hsite : session.Resumes site) :
    (Text.ofProgram site program).Fresh (session.machine c) [] := by
  rcases Program.compile_layout hsite.names hsite.top hsite.literals hc with
    ⟨f, hw, hlayout, -, -⟩
  have hinstrs : c.buffer.code.instrs = f.instrs := Code.instrs_of_assemble hw.valid hw.code
  have hannotated := Block.annotates program .drop site 0 f hlayout
  have htop : (Text.ofProgram site program).site.body = none := hsite.top
  refine ⟨?_, rfl, ⟨fun _ => rfl, fun _ => htop⟩, fun hbody => absurd htop hbody,
    fun hbody => absurd htop hbody, fun _ => rfl, ?_, ?_⟩
  · have hnoted := hannotated.noted
    rw [← hinstrs] at hnoted
    exact hnoted
  · intro b hb
    simp [Text.parameters] at hb
  · intro k hlow _
    have hnames : site.names = site.globals := by simp [Site.names, hsite.top]
    have hdefinitions := hsite.names.definitions_eq hsite.top
    -- A slot that held a value would belong to a name that is defined already.
    have hcell : session.globals.slots[k]?.join = none := by
      cases hslot : session.globals.slots[k]?.join with
      | none => rfl
      | some v =>
          have hget := Globals.get_eq_ok_iff.2 (Option.join_eq_some_iff.1 hslot)
          have hlt := h.lt_definitions hget
          rw [hdefinitions, ← hnames] at hlt
          exact absurd hlow (Nat.not_le.2 hlt)
    simp only [Text.cell, Text.blank, htop]
    exact hcell

/-- The body of a function binds its parameters, and the names of its own statements. -/
theorem Text.size_ofFunction {site : Site} {own : Option String} {params : List String}
    {body : List Stmt} {code : Fragment}
    (hlayout : Block.layout .leave (site.enter own params (Block.events body)) 0 body = .ok code) :
    (Text.ofFunction site own params body).size =
      params.length + (Event.binds (Block.events body)).length := by
  have hannotated := Block.annotates body .leave _ 0 code hlayout
  have hnames : (Text.ofFunction site own params body).site.names = params := rfl
  rw [Text.size, Text.bound, List.take_length, List.length_append, hnames]
  exact congrArg (params.length + List.length ·) hannotated.binds

/-- A call begins with its arguments in the cells of its parameters; the others are blank. -/
theorem fresh_call {w : World} {caller : Machine} (h : caller.Sound w) (hnext : caller.Next entry)
    (hdeeper : caller.callers.size < entry.callers.size) {site : Site} {own : Option String}
    {params : List String} {body : List Stmt} {code : Fragment}
    (hlayout : Block.layout .leave (site.enter own params (Block.events body)) 0 body = .ok code)
    (hfunction : entry.frame.body = Fragment.function params (Block.events body) code) :
    (Text.ofFunction site own params body).Fresh entry (caller.arguments params.length) := by
  rcases h.called hnext hdeeper with ⟨lower, args, callee, hlive, -, hbase, hip, hargs, hentered⟩
  have hannotated := Block.annotates body .leave _ 0 code hlayout
  rw [hfunction] at hargs hentered
  have hparams : args.length = params.length := hargs
  have hbody : (Text.ofFunction site own params body).site.body ≠ none := by
    simp [Text.ofFunction, Site.enter]
  have hsize := Text.size_ofFunction hlayout
  have harguments := Machine.arguments_of_live hlive
  rw [hparams] at harguments
  rw [harguments]
  have hcell : ∀ k, (Text.ofFunction site own params body).cell entry.frame.base entry k =
      entry.stack.get? (lower.length + k) := by
    intro k
    rw [← hbase]
    rfl
  refine ⟨?_, hip, ⟨fun hnone => absurd hnone hbody, ?_⟩, ?_, fun _ => hparams,
    fun hnone => absurd hnone hbody, ?_, ?_⟩
  · have hinstrs : entry.frame.code.instrs = code.instrs := by
      refine Code.instrs_of_assemble hannotated.valid ?_
      rw [Frame.code, hfunction]
      rfl
    rw [hinstrs]
    exact hannotated.noted
  · intro hnone
    rw [hnone] at hdeeper
    exact absurd hdeeper (Nat.not_lt_zero _)
  · intro _
    rw [hfunction, hsize]
    rfl
  -- The cells of the parameters hold the arguments.
  · intro b hb
    rcases Text.mem_parameters hb with ⟨-, hvalue⟩
    have hlt : b.number < args.length := (List.getElem?_eq_some_iff.1 hvalue).1
    rw [hcell]
    refine hentered.get? ?_
    rw [List.append_assoc, List.getElem?_append_right (Nat.le_add_right _ _),
      Nat.add_sub_cancel_left, List.getElem?_append_left hlt]
    exact hvalue
  -- The other cells hold null.
  · intro k hlow hhigh
    rw [hsize] at hhigh
    have hlow' : args.length ≤ k := hparams ▸ hlow
    have hcount : (Fragment.function params (Block.events body) code).numLocals -
        (Fragment.function params (Block.events body) code).numParams =
          (Event.binds (Block.events body)).length := Nat.add_sub_cancel_left _ _
    rw [hcell]
    refine hentered.get? ?_
    rw [hcount, List.append_assoc, List.getElem?_append_right (Nat.le_add_right _ _),
      Nat.add_sub_cancel_left, List.getElem?_append_right hlow', List.getElem?_replicate,
      if_pos (by omega)]

theorem Activates.fresh (ha : session.Activates program c text entry args) (h : session.Reached)
    (hc : (Block.compile program).run (.start session.symbols session.constants) = .ok () c) :
    text.Fresh entry args ∧ ∃ w, entry.Sound w := by
  rcases h.machine_sound hc with ⟨w, hstart⟩
  cases ha with
  | program hsite => exact ⟨h.fresh_program hc hsite, w, hstart⟩
  | call hreaches hnext hdeeper hlayout hfunction =>
      rcases hstart.reaches hreaches with ⟨w₁, -, -, hcaller⟩
      rcases hcaller.next hnext with ⟨w₂, -, -, hentry⟩
      exact ⟨fresh_call hcaller hnext hdeeper hlayout hfunction, w₂, hentry⟩

end Session

end MonkeyMachine
