import Mathlib.Algebra.Order.Ring.Nat
import Mathlib.Tactic.Ring
import MonkeyMachine.Proofs.SessionSafety

/-!
# Every run ends

Jumps lead forward, so within one call there is always less code left than before. A new call brings
back at most as much code as the longest buffer has, but it is charged to the call below, which has
moved on. So the bytes that are left in each call in progress, read as the digits of a number with
the outermost call in front, become smaller with every step: `Machine.Runs.weight_lt`. As there are
only so many calls at once, the number has so many digits, and this bounds the length of the run.
-/

namespace MonkeyMachine

/-! ## The measure -/

/-- Bytes of code that a call has not come to. -/
def Frame.left (frame : Frame) : Nat := frame.code.size - frame.ip

/-- The code that is left in calls, innermost first, if there can be `limit` of them and no function
has `radix` bytes of code. -/
def weight (radix limit : Nat) : List Frame → Nat
  | [] => 0
  | frame :: callers =>
      frame.left * radix ^ (limit - (callers.length + 1)) + weight radix limit callers

namespace Machine

/-- The calls in progress, innermost first. -/
def calls (m : Machine) : List Frame := m.frame :: m.callers.toList.reverse

end Machine

/-- Length of the code of a function. -/
def Value.codeLength : Value → Nat
  | .function _ f => f.code.size
  | _ => 0

/-- Length of the longest buffer. -/
def Bytecode.longest (b : Bytecode) : Nat :=
  (b.constants.toList.map Value.codeLength).foldr max b.code.size

theorem le_foldr_max (xs : List Nat) (start : Nat) : start ≤ xs.foldr max start := by
  induction xs with
  | nil => exact Nat.le_refl _
  | cons x xs ih => exact ih.trans (Nat.le_max_right _ _)

theorem mem_le_foldr_max {xs : List Nat} {x : Nat} (h : x ∈ xs) (start : Nat) :
    x ≤ xs.foldr max start := by
  induction xs with
  | nil => simp at h
  | cons y ys ih =>
      rcases List.mem_cons.1 h with rfl | hmem
      · exact Nat.le_max_left _ _
      · exact (ih hmem).trans (Nat.le_max_right _ _)

namespace Machine

variable {w w' : World} {m m' : Machine} {radix limit : Nat}

/-- Starting a call costs less than what the caller has moved on. -/
theorem weight_into {frame caller : Frame} {callers : List Frame} {target : Nat}
    (hradix : frame.code.size < radix) (hlimit : callers.length + 2 ≤ limit)
    (hlt : caller.ip < target) (htarget : target ≤ caller.code.size) :
    weight radix limit (frame :: { caller with ip := target } :: callers) <
      weight radix limit (caller :: callers) := by
  -- There is room for the call, so the exponent of the caller's digit is a successor.
  obtain ⟨k, rfl⟩ : ∃ k, limit = callers.length + 2 + k := ⟨limit - (callers.length + 2), by omega⟩
  have hinner : callers.length + 2 + k - (({ caller with ip := target } :: callers).length + 1) = k := by
    simp only [List.length_cons]
    omega
  have houter : callers.length + 2 + k - (callers.length + 1) = k + 1 := by omega
  have hleft : frame.left < radix := Nat.lt_of_le_of_lt (Nat.sub_le _ _) hradix
  have hmoved : ({ caller with ip := target } : Frame).left + 1 ≤ caller.left := by
    show caller.code.size - target + 1 ≤ caller.code.size - caller.ip
    omega
  simp only [weight, hinner, houter]
  have hpos : 0 < radix ^ k := Nat.pow_pos (Nat.lt_of_le_of_lt (Nat.zero_le _) hleft)
  -- One unit of the caller's digit pays for the whole digit of the call.
  calc
    frame.left * radix ^ k +
        (({ caller with ip := target } : Frame).left * radix ^ (k + 1) + weight radix _ callers)
        < radix * radix ^ k +
          (({ caller with ip := target } : Frame).left * radix ^ (k + 1) + weight radix _ callers) :=
          Nat.add_lt_add_right (Nat.mul_lt_mul_of_pos_right hleft hpos) _
    _ = (({ caller with ip := target } : Frame).left + 1) * radix ^ (k + 1) +
          weight radix _ callers := by ring
    _ ≤ caller.left * radix ^ (k + 1) + weight radix _ callers :=
          Nat.add_le_add_right (Nat.mul_le_mul_right _ hmoved) _

theorem weight_on {frame : Frame} {callers : List Frame} {target : Nat} (hradix : 0 < radix)
    (hlt : frame.ip < target) (htarget : target ≤ frame.code.size) :
    weight radix limit ({ frame with ip := target } :: callers) <
      weight radix limit (frame :: callers) := by
  have hmoved : ({ frame with ip := target } : Frame).left < frame.left := by
    show frame.code.size - target < frame.code.size - frame.ip
    omega
  simp only [weight]
  exact Nat.add_lt_add_right (Nat.mul_lt_mul_of_pos_right hmoved (Nat.pow_pos hradix)) _

theorem weight_out {frame caller : Frame} {callers : List Frame} (hradix : 0 < radix)
    (hlt : frame.ip < frame.code.size) :
    weight radix limit (caller :: callers) < weight radix limit (frame :: caller :: callers) := by
  have hleft : 0 < frame.left := Nat.sub_pos_of_lt hlt
  rw [weight]
  exact Nat.lt_add_of_pos_left (Nat.mul_pos hleft (Nat.pow_pos hradix))

end Machine

theorem Calls.ip_le {w : World} {frame : Frame} {callers : List Frame} {height : Nat}
    (h : Calls w frame callers height) (hw : w.Sound) : frame.ip ≤ frame.code.size := by
  rcases h.current with ⟨locals, pre, post, hrole, hat, -, -, -⟩
  rcases hrole.code hw with ⟨_, -, hcode⟩
  rw [hcode.size_eq, hat.ip, hat.instrs, codeSize_append]
  exact Nat.le_add_right _ _

namespace Machine

variable {w : World} {m m' : Machine} {radix limit : Nat}

/-- What bounds the measure: the length of functions, and the number of calls. -/
structure Within (radix limit : Nat) (m : Machine) : Prop where
  functions : ∀ v ∈ m.constants.toList, v.codeLength < radix
  calls : m.callers.size + 1 ≤ limit
  frames : m.maxFrames ≤ limit

theorem Runs.weight_lt (h : Runs m w m') (hm : m.Sound w) (hwithin : m.Within radix limit)
    (hradix : 0 < radix) :
    weight radix limit m'.calls < weight radix limit m.calls ∧ m'.Within radix limit := by
  rcases h.sound with ⟨w', -, hm'⟩
  rcases hm'.stack with ⟨values, -, -, hcalls⟩
  have hfunctions : ∀ v ∈ m'.constants.toList, v.codeLength < radix := by
    rw [h.kept.constants]
    exact hwithin.functions
  have hframes : m'.maxFrames ≤ limit := by
    rw [h.kept.maxFrames]
    exact hwithin.frames
  have hsize := hwithin.calls
  cases h.moves with
  | @on target hlt hframe hcallers =>
      have hle := hcalls.ip_le hm'.world
      rw [hframe] at hle
      refine ⟨?_, hfunctions, by rw [hcallers]; exact hsize, hframes⟩
      rw [calls, calls, hframe, hcallers]
      exact weight_on hradix hlt hle
  | @into target hlt hstart hcallers hlimit =>
      have hlimit' : m.callers.size + 2 ≤ limit := hlimit.trans hwithin.frames
      have hreverse : m'.callers.toList.reverse =
          { m.frame with ip := target } :: m.callers.toList.reverse := by
        rw [hcallers]
        simp
      refine ⟨?_, hfunctions, by rw [hcallers, Array.size_push]; omega, hframes⟩
      rw [hreverse] at hcalls
      rw [calls, calls, hreverse]
      cases hcalls with
      | function hrole _ _ _ hcaller =>
          -- The code of the new call stands in the pool.
          rcases (hrole.closure (Option.some_ne_none _)).of_closure with
            ⟨_, index, -, -, hpool, -, -⟩
          rw [← hm'.pool] at hpool
          have hlength := hfunctions _ (List.mem_of_getElem? hpool)
          exact weight_into hlength (by simpa using hlimit') hlt (hcaller.ip_le hm'.world)
  | out hcallers =>
      have hne : m.callers ≠ #[] := by
        rw [hcallers]
        simp
      have hreverse : m.callers.toList.reverse = m'.calls := by
        rw [hcallers, calls]
        simp
      refine ⟨?_, hfunctions, ?_, hframes⟩
      · have hcalls' : m.calls = m.frame :: m'.calls := by rw [← hreverse, calls]
        rw [hcalls', calls]
        exact weight_out hradix (hm.ip_lt hne)
      · rw [hcallers, Array.size_push] at hsize
        omega

/-- A run of as many steps as the measure says does not have to be broken off. -/
theorem Sound.halts {fuel : Nat} (h : m.Sound w) (hwithin : m.Within radix limit)
    (hradix : 0 < radix) (hfuel : weight radix limit m.calls < fuel) :
    ∃ ending last, m.run fuel = (ending, last) ∧ ending ≠ .outOfFuel := by
  induction fuel generalizing m w with
  | zero => omega
  | succ fuel ih =>
      have hleaves := h.step
      cases hstep : Exec.step m with
      | ok progress m' =>
          rw [hstep] at hleaves
          cases progress with
          | running =>
              have hruns : Runs m w m' := hleaves
              rcases hruns.weight_lt h hwithin hradix with ⟨hlt, hwithin'⟩
              rcases hruns.sound with ⟨w', -, hm'⟩
              rw [run_of_next hstep]
              exact ih hm' hwithin' (by omega)
          | finished =>
              have hends : m.EndsAs .finished m' := hstep
              exact ⟨_, _, run_of_endsAs hends (by simp) fuel, by simp⟩
      | error fault m' =>
          have hends : m.EndsAs (.failed fault) m' := hstep
          exact ⟨_, _, run_of_endsAs hends (by simp) fuel, by simp⟩

/-- The run ends after at most `bound` steps. -/
def Ends (m : Machine) (bound : Nat) : Prop :=
  ∃ ending last, ending ≠ .outOfFuel ∧ ∀ fuel, bound ≤ fuel → m.run fuel = (ending, last)

end Machine

/-- A bound on the length of a run. -/
def Bytecode.bound (b : Bytecode) (limits : Limits) : Nat :=
  (b.longest + 1) ^ max 1 limits.maxFrames

theorem Machine.load_within (b : Bytecode) (globals : Globals) (limits : Limits) (run created : Nat) :
    (Machine.load b globals limits run created).Within (b.longest + 1) (max 1 limits.maxFrames) := by
  refine ⟨?_, Nat.le_max_left _ _, Nat.le_max_right _ _⟩
  intro v hv
  exact Nat.lt_succ_of_le (mem_le_foldr_max (List.mem_map_of_mem hv) _)

/-- What the slots of the stack hold does not matter. -/
theorem Machine.load_ends_on {b : Bytecode} {w : World} {globals : Globals} {limits : Limits}
    {run created : Nat} {stack : Stack}
    (h : ({ Machine.load b globals limits run created with stack } : Machine).Sound w) :
    ({ Machine.load b globals limits run created with stack } : Machine).Ends (b.bound limits) := by
  have hradix : 0 < b.longest + 1 := Nat.succ_pos _
  have hwithin : ({ Machine.load b globals limits run created with stack } : Machine).Within
      (b.longest + 1) (max 1 limits.maxFrames) :=
    { Machine.load_within b globals limits run created with }
  -- The only call is the program's own, the leading digit of the measure.
  have hweight : weight (b.longest + 1) (max 1 limits.maxFrames)
      ({ Machine.load b globals limits run created with stack } : Machine).calls <
        b.bound limits := by
    obtain ⟨k, hk⟩ : ∃ k, max 1 limits.maxFrames = k + 1 :=
      ⟨max 1 limits.maxFrames - 1, by omega⟩
    have hcode : b.code.size < b.longest + 1 := Nat.lt_succ_of_le (le_foldr_max _ _)
    rw [Bytecode.bound, hk]
    show (b.code.size - 0) * (b.longest + 1) ^ (k + 1 - 1) + 0 < (b.longest + 1) ^ (k + 1)
    rw [Nat.add_sub_cancel, Nat.sub_zero, Nat.add_zero, Nat.pow_succ, Nat.mul_comm]
    exact Nat.mul_lt_mul_of_pos_left hcode (Nat.pow_pos hradix)
  rcases h.halts hwithin hradix hweight with ⟨ending, last, hrun, hending⟩
  exact ⟨ending, last, hending, fun fuel hfuel => Machine.run_eq_of_le hrun hending hfuel⟩

theorem Machine.load_ends {b : Bytecode} {w : World} {globals : Globals} {limits : Limits}
    {run created : Nat} (h : (Machine.load b globals limits run created).Sound w) :
    (Machine.load b globals limits run created).Ends (b.bound limits) :=
  Machine.load_ends_on h

/-- Every program that compiles in a session ends, whatever the limits are: with the values that the
session has, and with a store of its own. -/
theorem Session.Reached.run_terminates {session : Session} (h : session.Reached) {program : Program}
    {c : Compiler}
    (hc : (Block.compile program).run (.start session.symbols session.constants) = .ok () c)
    (limits : Limits) :
    (Machine.load c.bytecode session.globals limits 0 session.created).Ends
        (c.bytecode.bound limits) ∧
      (Machine.load c.bytecode (.ofCapacity limits.globalsSize) limits 0 0).Ends
        (c.bytecode.bound limits) := by
  rcases h.sound with ⟨w, hw⟩
  rcases hw.compile hc with ⟨w', hcompiled⟩
  exact ⟨Machine.load_ends (hw.load hcompiled limits 0), Machine.load_ends (hcompiled.load limits 0 _)⟩

/-- A function that calls itself twice and never returns. -/
theorem Session.Reached.run_terminates_of_recursion :
    ∃ c, (Block.compile
        [.bind "f" (.function ["n"]
          [.expr (.binary (.call (.ident "f") [.ident "n"]) "+" (.call (.ident "f") [.ident "n"]))]),
        .expr (.call (.ident "f") [.int 1])]).run
          (.start (Session.start {}).symbols (Session.start {}).constants) = .ok () c ∧
      ∀ limits : Limits,
        (Machine.load c.bytecode (Session.start {}).globals limits 0 (Session.start {}).created).Ends
            (c.bytecode.bound limits) ∧
          (Machine.load c.bytecode (.ofCapacity limits.globalsSize) limits 0 0).Ends
            (c.bytecode.bound limits) := by
  refine (Program.exists_of_compiles ?_).imp fun c hc => ⟨hc, ?_⟩
  · decide +kernel
  · exact Session.Reached.run_terminates (.start {}) hc

end MonkeyMachine
