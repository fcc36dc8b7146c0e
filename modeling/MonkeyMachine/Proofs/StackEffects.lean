import Mathlib.Algebra.Order.Ring.Int
import Mathlib.Algebra.BigOperators.Group.List.Basic
import MonkeyMachine.Proofs.Instructions

/-!
# Stack effects and jumps

How many values each instruction takes from the stack and puts back, and what that says about a
list of instructions with jumps in it.

`depth is` adds the effects up along the text. An unconditional jump stands at the end of a branch
that has left its value; behind it stands the other branch, which starts without one. So a jump
counts as taking a value, and the depth at every instruction is the number of values that are on
the stack whenever that instruction is reached. `Structured` says that this works out: no
instruction takes more than there is, and jumps lead forward to an instruction of the same depth.
-/

namespace MonkeyMachine

/-! ## Single instructions -/

namespace Instr

/-- Number of values that an instruction takes from the stack. -/
def needs (i : Instr) : Nat :=
  match i.op with
  | .pop | .minus | .bang | .jump | .jumpNotTruthy | .setGlobal | .setLocal | .returnValue => 1
  | .add | .sub | .mul | .div | .equal | .notEqual | .greaterThan | .index => 2
  | .array | .hash => i.operands.getD 0 0
  | .call => i.operands.getD 0 0 + 1
  | .closure => i.operands.getD 1 0
  | _ => 0

/-- Number of values that an instruction puts on the stack. -/
def gives (i : Instr) : Nat :=
  match i.op with
  | .pop | .jump | .jumpNotTruthy | .setGlobal | .setLocal | .returnValue | .returnNull => 0
  | _ => 1

def effect (i : Instr) : Int := i.gives - i.needs

/-- Where a jump leads. -/
def target? (i : Instr) : Option Nat :=
  match i.op with
  | .jump | .jumpNotTruthy => i.operands.head?
  | _ => none

/-- What a jump that is taken does to the depth. -/
def jumpEffect (i : Instr) : Int := if i.op = .jumpNotTruthy then -1 else 0

end Instr

/-- The values that a list of instructions leaves on the stack beyond those it found there. -/
def depth (is : List Instr) : Int := (is.map Instr.effect).sum

@[simp]
theorem depth_nil : depth [] = 0 := rfl

@[simp]
theorem depth_cons (i : Instr) (is : List Instr) : depth (i :: is) = i.effect + depth is := by
  simp [depth]

@[simp]
theorem depth_append (is js : List Instr) : depth (is ++ js) = depth is + depth js := by
  simp [depth]

/-! ## Structured code -/

/-- A jump that stands behind `pre` in `is` leads to an instruction of the right depth further on.
Only an unconditional one may lead to the end. -/
def Lands (start : Nat) (is pre : List Instr) (i : Instr) (target : Nat) : Prop :=
  ∃ pre' post', is = pre' ++ post' ∧ target = start + codeSize pre' ∧ pre.length < pre'.length ∧
    depth pre' = depth pre + i.jumpEffect ∧ (post' = [] → i.op = .jump)

/-- Instructions that start at `start` with `d` values on the stack. -/
structure Structured (start : Nat) (d : Int) (is : List Instr) : Prop where
  needs : ∀ pre i post, is = pre ++ i :: post → (i.needs : Int) ≤ d + depth pre
  jumps : ∀ pre i post, is = pre ++ i :: post → ∀ target, i.target? = some target →
    Lands start is pre i target

/-- An element of two lists put together stands in the first or in the second. -/
theorem split_append {α : Type} {pre post xs ys : List α} {a : α}
    (h : xs ++ ys = pre ++ a :: post) :
    (∃ post', xs = pre ++ a :: post' ∧ post = post' ++ ys) ∨
      (∃ pre', pre = xs ++ pre' ∧ ys = pre' ++ a :: post) := by
  rcases List.append_eq_append_iff.1 h with ⟨pre', hpre, hys⟩ | ⟨more, hxs, hmore⟩
  · exact .inr ⟨pre', hpre, hys⟩
  · cases more with
    | nil =>
        refine .inr ⟨[], ?_, ?_⟩
        · simpa using hxs.symm
        · simpa using hmore.symm
    | cons b more =>
        obtain ⟨rfl, rfl⟩ : a = b ∧ post = more ++ ys := by simpa using hmore
        exact .inl ⟨more, hxs, rfl⟩

theorem split_cons {α : Type} {pre post xs : List α} {a b : α} (h : b :: xs = pre ++ a :: post) :
    (pre = [] ∧ a = b) ∨ (∃ pre', pre = b :: pre' ∧ xs = pre' ++ a :: post) := by
  cases pre with
  | nil =>
      have hab : b = a ∧ xs = post := by simpa using h
      exact .inl ⟨rfl, hab.1.symm⟩
  | cons c pre =>
      have hbc : b = c ∧ xs = pre ++ a :: post := by simpa using h
      exact .inr ⟨pre, by rw [hbc.1], hbc.2⟩

namespace Lands

variable {start target : Nat} {is pre : List Instr} {i : Instr}

theorem append (js : List Instr) (h : Lands start is pre i target) :
    Lands start (is ++ js) pre i target := by
  rcases h with ⟨before, after, rfl, htarget, hlt, hdepth, hend⟩
  refine ⟨before, after ++ js, List.append_assoc _ _ _, htarget, hlt, hdepth, ?_⟩
  intro hnil
  exact hend (List.append_eq_nil_iff.1 hnil).1

/-- The target moves with the code in front of the jump. -/
theorem behind {js : List Instr} (h : Lands (start + codeSize js) is pre i target) :
    Lands start (js ++ is) (js ++ pre) i target := by
  rcases h with ⟨before, after, rfl, htarget, hlt, hdepth, hend⟩
  refine ⟨js ++ before, after, (List.append_assoc _ _ _).symm, ?_, ?_, ?_, hend⟩
  · rw [htarget, codeSize_append]
    omega
  · simpa using hlt
  · simp only [depth_append, hdepth]
    omega

end Lands

namespace Structured

variable {start : Nat} {d : Int} {is js : List Instr}

theorem nil : Structured start d [] where
  needs := by
    intro pre i post h
    simp at h
  jumps := by
    intro pre i post h
    simp at h

/-- A single instruction other than a jump. -/
theorem single {i : Instr} (hneeds : (i.needs : Int) ≤ d) (hjump : i.target? = none) :
    Structured start d [i] where
  needs := by
    intro pre j post h
    obtain ⟨rfl, rfl, rfl⟩ : pre = [] ∧ j = i ∧ post = [] := by
      cases pre with
      | nil => simpa [eq_comm] using h
      | cons k pre => simp at h
    simpa using hneeds
  jumps := by
    intro pre j post h target htarget
    have hj : j = i := by
      have hmem : j ∈ [i] := by rw [h]; simp
      simpa using hmem
    rw [hj, hjump] at htarget
    cases htarget

theorem append (h : Structured start d is)
    (h' : Structured (start + codeSize is) (d + depth is) js) : Structured start d (is ++ js) where
  needs := by
    intro pre i post his
    rcases split_append his with ⟨post', hxs, -⟩ | ⟨pre', rfl, hys⟩
    · exact h.needs pre i post' hxs
    · have := h'.needs pre' i post hys
      simp only [depth_append]
      omega
  jumps := by
    intro pre i post his target htarget
    rcases split_append his with ⟨post', hxs, -⟩ | ⟨pre', rfl, hys⟩
    · exact (h.jumps pre i post' hxs target htarget).append js
    · exact (h'.jumps pre' i post hys target htarget).behind

/-- A conditional, from its first jump on. -/
theorem conditional {yes no : List Instr} {toNo toFinish : Nat} (hd : 1 ≤ d)
    (hyes : Structured (start + 3) (d - 1) yes) (hyesDepth : depth yes = 1)
    (hno : Structured (start + 3 + codeSize yes + 3) (d - 1) no) (hnoDepth : depth no = 1)
    (htoNo : toNo = start + 3 + codeSize yes + 3) (htoFinish : toFinish = toNo + codeSize no) :
    Structured start d (⟨.jumpNotTruthy, [toNo]⟩ :: (yes ++ ⟨.jump, [toFinish]⟩ :: no)) where
  needs := by
    intro pre i post his
    have heffect : (Instr.mk .jumpNotTruthy [toNo]).effect = -1 := rfl
    have heffect' : (Instr.mk .jump [toFinish]).effect = -1 := rfl
    rcases split_cons his with ⟨rfl, rfl⟩ | ⟨pre, rfl, hrest⟩
    · simpa [Instr.needs] using hd
    · rcases split_append hrest with ⟨post', hxs, -⟩ | ⟨pre', rfl, hys⟩
      · have := hyes.needs pre i post' hxs
        simp only [depth_cons, heffect]
        omega
      · rcases split_cons hys with ⟨rfl, rfl⟩ | ⟨pre', rfl, hzs⟩
        · simp only [depth_cons, depth_append, depth_nil, heffect, hyesDepth, Instr.needs]
          omega
        · have := hno.needs pre' i post hzs
          simp only [depth_cons, depth_append, heffect, heffect', hyesDepth]
          omega
  jumps := by
    intro pre i post his target htarget
    have heffect : (Instr.mk .jumpNotTruthy [toNo]).effect = -1 := rfl
    have heffect' : (Instr.mk .jump [toFinish]).effect = -1 := rfl
    have hsize : (Instr.mk .jumpNotTruthy [toNo]).size = 3 := rfl
    have hsize' : (Instr.mk .jump [toFinish]).size = 3 := rfl
    rcases split_cons his with ⟨rfl, rfl⟩ | ⟨pre, rfl, hrest⟩
    · -- The first jump leads to the second branch, which is not empty.
      obtain rfl : toNo = target := by simpa [Instr.target?] using htarget
      refine ⟨⟨.jumpNotTruthy, [toNo]⟩ :: (yes ++ [⟨.jump, [toFinish]⟩]), no, by simp, ?_, by simp,
        ?_, ?_⟩
      · simp only [codeSize_cons, codeSize_append, codeSize_nil, hsize, hsize']
        omega
      · simp [heffect, heffect', hyesDepth, Instr.jumpEffect]
      · rintro rfl
        simp at hnoDepth
    · rcases split_append hrest with ⟨post', hxs, -⟩ | ⟨pre', rfl, hys⟩
      · have hlands : Lands (start + codeSize [⟨.jumpNotTruthy, [toNo]⟩]) yes pre i target :=
          hyes.jumps pre i post' hxs target htarget
        exact (hlands.append _).behind
      · rcases split_cons hys with ⟨rfl, rfl⟩ | ⟨pre', rfl, hzs⟩
        · -- The second jump leads to the end.
          obtain rfl : toFinish = target := by simpa [Instr.target?] using htarget
          refine ⟨⟨.jumpNotTruthy, [toNo]⟩ :: (yes ++ ⟨.jump, [toFinish]⟩ :: no), [], by simp, ?_, ?_,
            ?_, fun _ => rfl⟩
          · simp only [codeSize_cons, codeSize_append, hsize, hsize']
            omega
          · simp
          · simp [heffect, heffect', hyesDepth, hnoDepth, Instr.jumpEffect]
        · have hfront : start + codeSize (⟨.jumpNotTruthy, [toNo]⟩ :: (yes ++
              [⟨.jump, [toFinish]⟩])) = start + 3 + codeSize yes + 3 := by
            simp only [codeSize_cons, codeSize_append, codeSize_nil, hsize, hsize']
            omega
          have hlands := hno.jumps pre' i post hzs target htarget
          rw [← hfront] at hlands
          simpa using hlands.behind

/-- In code that leaves nothing on the stack, every jump leads to an instruction further on. -/
theorem lands {pre post : List Instr} {i : Instr} {target : Nat} (h : Structured start 0 is)
    (hdepth : depth is = 0) (his : is = pre ++ i :: post) (htarget : i.target? = some target) :
    ∃ pre' i' post', is = pre' ++ i' :: post' ∧ target = start + codeSize pre' ∧
      codeSize (pre ++ [i]) ≤ codeSize pre' ∧ depth pre' = depth pre + i.jumpEffect := by
  rcases h.jumps pre i post his target htarget with
    ⟨before, after, hsplit, htarget', hlt, hjump, hend⟩
  have hforward : codeSize (pre ++ [i]) ≤ codeSize before := by
    have hboth : pre ++ [i] ++ post = before ++ after := by
      rw [← hsplit, his]
      simp
    rcases List.append_eq_append_iff.1 hboth with ⟨more, rfl, -⟩ | ⟨more, hmore, -⟩
    · simp
    · have hlength := congrArg List.length hmore
      simp only [List.length_append, List.length_singleton] at hlength
      have hnil : more = [] := List.eq_nil_of_length_eq_zero (by omega)
      rw [hmore, hnil, List.append_nil]
  cases after with
  | cons i' after => exact ⟨before, i', after, hsplit, htarget', hforward, hjump⟩
  | nil =>
      -- A jump to the very end would leave its value there.
      have hop : i.op = .jump := hend rfl
      have hneeds := h.needs pre i post his
      have hone : i.needs = 1 := by simp [Instr.needs, hop]
      have heffect : i.jumpEffect = 0 := by simp [Instr.jumpEffect, hop]
      rw [List.append_nil] at hsplit
      rw [← hsplit] at hjump
      omega

end Structured

end MonkeyMachine
