import MonkeyMachine.Proofs.Termination

/-!
# How much stack a run needs

A call has its locals on the stack and, above them, as many values as the depth of its code says.
Every value that the depth counts was pushed by an instruction of its own, so there are no more of
them than the code has bytes. With as many calls in progress as there can be, this bounds the height
of the stack in all runs of a program.
-/

namespace MonkeyMachine

/-- Number of locals of a function. -/
def Value.localCount : Value → Nat
  | .function _ f => f.numLocals
  | _ => 0

/-- The largest number of locals of a function. -/
def widest (pool : List Value) : Nat := (pool.map Value.localCount).foldr max 0

theorem le_widest {pool : List Value} {n : Nat} {id : Identity} {f : Function}
    (h : pool[n]? = some (.function id f)) : f.numLocals ≤ widest pool := by
  have hmem : (Value.function id f).localCount ∈ pool.map Value.localCount :=
    List.mem_map_of_mem (List.mem_of_getElem? h)
  exact mem_le_foldr_max hmem 0

theorem depth_le_codeSize (is : List Instr) : depth is ≤ codeSize is := by
  induction is with
  | nil => exact Int.le_refl 0
  | cons i is ih =>
      have hgives : i.gives ≤ 1 := by
        unfold Instr.gives
        split <;> omega
      have hsize := i.size_pos
      rw [depth_cons, codeSize_cons, Instr.effect]
      omega

/-! ## Calls -/

/-- The outermost of calls in progress, given innermost first. -/
def outermost (frame : Frame) : List Frame → Frame
  | [] => frame
  | caller :: callers => outermost caller callers

theorem outermost_jump (frame : Frame) (callers : List Frame) (target : Nat) :
    (outermost { frame with ip := target } callers).code = (outermost frame callers).code := by
  cases callers <;> rfl

/-- The height of a stack on which each call has no more values than its locals and its code
account for. -/
theorem Calls.height_le {w : World} {frame : Frame} {callers : List Frame} {height longest : Nat}
    (h : Calls w frame callers height) (hw : w.Sound)
    (hpool : ∀ v ∈ w.pool, v.codeLength ≤ longest)
    (hlast : (outermost frame callers).code.size ≤ longest) :
    height ≤ (callers.length + 1) * (widest w.pool + longest) := by
  -- A call has executed a part of its code.
  have hdepth : ∀ {frame : Frame} {locals : Option Nat} {pre post : List Instr},
      frame.Role w locals → frame.At pre post → depth pre ≤ frame.code.size := by
    intro frame locals pre post hrole hat
    rcases hrole.code hw with ⟨_, -, hcode⟩
    have hle := depth_le_codeSize pre
    rw [hcode.size_eq, hat.instrs, codeSize_append]
    omega
  induction h with
  | @program frame pre post height hrole hat hheight =>
      have hle := hdepth hrole hat
      have hsize : frame.code.size ≤ longest := hlast
      simp only [List.length_nil, Nat.zero_add, Nat.one_mul]
      omega
  | @function frame caller callers pre post height hrole hat _ hheight _ ih =>
      have hle := hdepth hrole hat
      rcases (hrole.closure (Option.some_ne_none _)).of_closure with ⟨_, index, -, -, hget, -, -⟩
      have hsize : frame.code.size ≤ longest := hpool _ (List.mem_of_getElem? hget)
      have hlocals := le_widest hget
      have hcaller : frame.base + 1 ≤ (callers.length + 1) * (widest w.pool + longest) := ih hlast
      rw [List.length_cons, Nat.succ_mul (callers.length + 1)]
      omega

namespace Machine

variable {w : World} {m m' : Machine} {radix limit : Nat}

/-- The outermost call. -/
def bottom (m : Machine) : Frame := outermost m.frame m.callers.toList.reverse

/-- The outermost call is that of the same program in the whole run. -/
theorem Moves.bottom_code (h : m.Moves m') : m'.bottom.code = m.bottom.code := by
  cases h with
  | @on target _ hframe hcallers =>
      rw [bottom, hframe, hcallers]
      exact outermost_jump _ _ _
  | @into target _ _ hcallers _ =>
      have hreverse : m'.callers.toList.reverse =
          { m.frame with ip := target } :: m.callers.toList.reverse := by
        rw [hcallers]
        simp
      rw [bottom, hreverse]
      exact outermost_jump m.frame m.callers.toList.reverse target
  | out hcallers =>
      have hreverse : m.callers.toList.reverse = m'.frame :: m'.callers.toList.reverse := by
        rw [hcallers]
        simp
      rw [bottom, bottom, hreverse]
      rfl

theorem Sound.reaches_bottom (h : m.Sound w) (hreaches : m.Reaches m') :
    m'.bottom.code = m.bottom.code := by
  induction hreaches with
  | refl => rfl
  | @tail m₁ m₂ hreaches hnext ih =>
      rcases h.reaches hreaches with ⟨w₁, -, -, hsound⟩
      exact (hsound.runs hnext).moves.bottom_code.trans ih

theorem Sound.reaches_within (h : m.Sound w) (hwithin : m.Within radix limit) (hradix : 0 < radix)
    (hreaches : m.Reaches m') :
    ∃ w', w.Grows w' ∧ m'.Sound w' ∧ m'.Within radix limit ∧ m'.bottom.code = m.bottom.code := by
  induction hreaches with
  | refl => exact ⟨w, .refl w, h, hwithin, rfl⟩
  | @tail m₁ m₂ _ hnext ih =>
      rcases ih with ⟨w₁, hgrows, hsound, hwithin₁, hbottom⟩
      have hruns := hsound.runs hnext
      rcases hruns.sound with ⟨w₂, hgrows₂, hsound₂⟩
      exact ⟨w₂, hgrows.trans hgrows₂, hsound₂, (hruns.weight_lt hsound hwithin₁ hradix).2,
        hruns.moves.bottom_code.trans hbottom⟩

end Machine

/-! ## Runs of a program -/

/-- Stack slots that are enough for all runs of a program: for the calls that there can be, and for
the locals of one more. -/
def Bytecode.stackBound (b : Bytecode) (limits : Limits) : Nat :=
  (max 1 limits.maxFrames + 1) * (widest b.constants.toList + b.longest)

theorem Machine.height_le_of_load {b : Bytecode} {w : World} {globals : Globals} {limits : Limits}
    {run created : Nat} {m : Machine}
    (h : (Machine.load b globals limits run created).Sound w)
    (hreaches : (Machine.load b globals limits run created).Reaches m) :
    m.stack.height + widest b.constants.toList ≤ b.stackBound limits := by
  rcases h.reaches_within (Machine.load_within b globals limits run created) (Nat.succ_pos _)
    hreaches with ⟨w', hgrows, hsound, hwithin, hbottom⟩
  rcases hsound.stack with ⟨values, hlive, -, hcalls⟩
  -- A run never changes the pool, so the bounds read off the bytecode last.
  have hpool : w'.pool = b.constants.toList := hgrows.pool.trans h.pool.symm
  have hfunctions : ∀ v ∈ w'.pool, v.codeLength ≤ b.longest := by
    intro v hv
    rw [← hsound.pool] at hv
    exact Nat.le_of_lt_succ (hwithin.functions v hv)
  have hcode : m.bottom.code.size ≤ b.longest := by
    rw [hbottom]
    exact le_foldr_max _ _
  have hheight := hcalls.height_le hsound.world hfunctions hcode
  have hcount := hwithin.calls
  have hlength : m.callers.toList.reverse.length = m.callers.size := by simp
  rw [hpool, hlength] at hheight
  rw [hlive.1, Bytecode.stackBound, Nat.succ_mul]
  -- At most `maxFrames` calls, each within the widest frame and the longest code.
  have hmul := Nat.mul_le_mul_right (widest b.constants.toList + b.longest) hcount
  omega

end MonkeyMachine
