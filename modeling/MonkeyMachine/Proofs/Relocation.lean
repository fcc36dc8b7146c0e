import MonkeyMachine.Proofs.CompilerLayout
import MonkeyMachine.Proofs.LayoutInduction

/-!
# Code that starts elsewhere

The code of a construct depends on the position where it starts in one respect only: the targets of
its jumps are positions too. `Instr.shift` moves them. A block that can be laid out at some position
can be laid out at every earlier one, with the targets moved back: `Block.layout_relocates`.

So the code of one program behind another is that of the program on its own, moved by the length of
the first: `Block.layout_append`. `Embedding` is what remains of this at run time.
-/

namespace MonkeyMachine

/-! ## Instructions -/

namespace Instr

/-- The instruction with its target `k` bytes further on. -/
def shift (k : Nat) (i : Instr) : Instr :=
  match i.op with
  | .jump | .jumpNotTruthy => { i with operands := i.operands.map (· + k) }
  | _ => i

theorem shift_of_target {k : Nat} {i : Instr} (h : i.op ≠ .jump) (h' : i.op ≠ .jumpNotTruthy) :
    i.shift k = i := by
  obtain ⟨op, operands⟩ := i
  cases op with
  | jump => exact absurd rfl h
  | jumpNotTruthy => exact absurd rfl h'
  | _ => rfl

theorem Plain.shift_eq {i : Instr} (h : i.Plain) (k : Nat) : i.shift k = i := by
  refine shift_of_target ?_ ?_
  · intro hop
    exact h (by simp [hop])
  · intro hop
    exact h (by simp [hop])

@[simp]
theorem op_shift (k : Nat) (i : Instr) : (i.shift k).op = i.op := by
  obtain ⟨op, operands⟩ := i
  cases op <;> rfl

@[simp]
theorem size_shift (k : Nat) (i : Instr) : (i.shift k).size = i.size := by
  simp [size]

@[simp]
theorem shift_zero (i : Instr) : i.shift 0 = i := by
  obtain ⟨op, operands⟩ := i
  cases op <;> simp [shift]

theorem map_shift_zero (is : List Instr) : is.map (shift 0) = is := by
  have hsame : is.map (shift 0) = is.map id := List.map_congr_left fun i _ => i.shift_zero
  rw [hsame, List.map_id]

end Instr

@[simp]
theorem codeSize_shift (k : Nat) (is : List Instr) : codeSize (is.map (Instr.shift k)) = codeSize is := by
  induction is with
  | nil => rfl
  | cons i is ih => simp [ih]

/-- A target that can be encoded can be moved back. -/
theorem Instr.valid_of_shift {op : Opcode} {target k : Nat} (h : (Instr.mk op [target + k]).Valid) :
    (Instr.mk op [target]).Valid := by
  rcases List.forall₂_cons_right_iff.1 h with ⟨width, rest, hfits, hrest, hwidths⟩
  refine List.forall₂_cons_right_iff.2 ⟨width, rest, ?_, hrest, hwidths⟩
  omega

/-! ## Layouts -/

namespace Fragment

/-- The code with all targets `k` bytes further on. -/
def shift (k : Nat) (f : Fragment) : Fragment := { f with instrs := f.instrs.map (Instr.shift k) }

@[simp]
theorem size_shift (k : Nat) (f : Fragment) : (f.shift k).size = f.size := codeSize_shift k f.instrs

theorem shift_append (k : Nat) (f g : Fragment) : (f ++ g).shift k = f.shift k ++ g.shift k := by
  show Fragment.mk _ _ = Fragment.mk _ _
  simp [shift]

theorem conditional_of_ok {start toNo toFinish : Nat} {t y n : Fragment}
    {yes no : Nat → Except CompileError Fragment} (hyes : yes (start + t.size + 3) = .ok y)
    (htoNo : toNo = start + t.size + 3 + y.size + 3) (hno : no toNo = .ok n)
    (htoFinish : toFinish = toNo + n.size) (hvalid : (Instr.mk .jumpNotTruthy [toNo]).Valid)
    (hvalid' : (Instr.mk .jump [toFinish]).Valid) :
    conditional start (.ok t) yes no =
      .ok (t ++ ⟨⟨.jumpNotTruthy, [toNo]⟩ :: (y.instrs ++ ⟨.jump, [toFinish]⟩ :: n.instrs),
        y.constants ++ n.constants⟩) := by
  subst htoNo htoFinish
  have hemit := emit_eq_ok_iff.2 ⟨hvalid, rfl⟩
  have hemit' := emit_eq_ok_iff.2 ⟨hvalid', rfl⟩
  simp only [conditional, bind, Except.bind, hyes, hemit, hno, hemit', pure, Except.pure]
  rfl

end Fragment

/-- What can be laid out at some position can be laid out at every earlier one, with the targets
moved back. -/
def Relocates (layout : LayoutAt) : Prop :=
  ∀ start k f', layout (start + k) = .ok f' → ∃ f, layout start = .ok f ∧ f' = f.shift k

/-- Code without targets is the same everywhere. -/
theorem relocates_of_unmoved {layout : Except CompileError Fragment}
    (h : ∀ f, layout = .ok f → ∀ i ∈ f.instrs, ∀ k, i.shift k = i) : Relocates fun _ => layout := by
  intro start k f hf
  have hsame : f.instrs.map (Instr.shift k) = f.instrs.map id :=
    List.map_congr_left fun i hi => h f hf i hi k
  refine ⟨f, hf, ?_⟩
  rw [Fragment.shift, hsame, List.map_id]

/-- A binding is a single instruction. -/
theorem Site.store_eq_ok {site : Site} {f : Fragment} (h : site.store = .ok f) :
    ∃ op slot, (op = .setGlobal ∨ op = .setLocal) ∧ f = .ofInstrs [⟨op, [slot]⟩] := by
  unfold Site.store at h
  cases hbody : site.body with
  | none =>
      rw [hbody] at h
      exact ⟨.setGlobal, _, .inl rfl, (Fragment.emit_eq_ok_iff.1 h).2⟩
  | some locals =>
      simp only [hbody] at h
      split at h
      · exact ⟨.setLocal, _, .inr rfl, (Fragment.emit_eq_ok_iff.1 h).2⟩
      · cases h

theorem relocates_closed : LayoutClosed fun _ _ => Relocates where
  fixed := by
    intro site events layout hplain
    exact relocates_of_unmoved fun f hf i hi => ((hplain f hf).2 i hi).shift_eq
  store := by
    intro site name
    refine relocates_of_unmoved fun f hf => ?_
    rcases Site.store_eq_ok hf with ⟨op, slot, rfl | rfl, rfl⟩
    · simp [Instr.shift]
    · simp [Instr.shift]
  seq := by
    intro site xs ys first second hfirst hsecond start k f' h
    rcases Fragment.seq_eq_ok_iff.1 h with ⟨a', ha', b', hb', rfl⟩
    rcases hfirst start k a' ha' with ⟨a, ha, rfl⟩
    -- Moving the whole moves the start of the second part by as much.
    have hplace : start + k + (a.shift k).size = start + a.size + k := by
      rw [Fragment.size_shift]
      omega
    rw [hplace] at hb'
    rcases hsecond (start + a.size) k b' hb' with ⟨b, hb, rfl⟩
    refine ⟨a ++ b, ?_, (Fragment.shift_append k a b).symm⟩
    exact Fragment.seq_eq_ok_iff.2 ⟨a, ha, b, hb, rfl⟩
  conditional := by
    intro site xs ys zs test yes no htest hyes hno start k f' h
    rcases Fragment.conditional_eq_ok h with
      ⟨t', y', n', toNo', toFinish', ht', hy', hn', htoNo', htoFinish', hvalid, hvalid', rfl⟩
    rcases htest start k t' ht' with ⟨t, ht, rfl⟩
    rw [Fragment.size_shift] at hy' htoNo'
    -- The two jumps lead to where the other branch and the end were moved.
    rw [show start + k + t.size + 3 = start + t.size + 3 + k by omega] at hy' htoNo'
    rcases hyes _ k y' hy' with ⟨y, hy, rfl⟩
    rw [Fragment.size_shift] at htoNo'
    obtain rfl : toNo' = start + t.size + 3 + y.size + 3 + k := by omega
    rcases hno _ k n' hn' with ⟨n, hn, rfl⟩
    rw [Fragment.size_shift] at htoFinish'
    obtain rfl : toFinish' = start + t.size + 3 + y.size + 3 + n.size + k := by omega
    have hlaid := Fragment.conditional_of_ok hy rfl hn rfl (Instr.valid_of_shift hvalid)
      (Instr.valid_of_shift hvalid')
    rw [← ht] at hlaid
    refine ⟨_, hlaid, ?_⟩
    rw [Fragment.shift_append]
    simp [Fragment.shift, Instr.shift]

/-- A block that can be laid out at some position can be laid out at every earlier one. -/
theorem Block.layout_relocates (block : List Stmt) (tail : Tail) (site : Site) :
    Relocates fun start => Block.layout tail site start block :=
  Block.layout_induction relocates_closed block tail site

/-! ## One program behind another -/

theorem Fragment.seq_assoc (first : Except CompileError Fragment)
    (second third : Fragment → Except CompileError Fragment) :
    seq (seq first second) third = seq first fun a => seq (second a) fun b => third (a ++ b) := by
  cases first with
  | error e => rfl
  | ok a =>
      cases hb : second a with
      | error e =>
          rw [seq_of_error hb, seq_of_error]
          · rfl
          · rw [hb]
            rfl
      | ok b =>
          rw [seq_of_ok hb]
          cases hc : third (a ++ b) with
          | error e => rw [seq_of_error hc, seq_of_error (by rw [hb]; exact seq_of_error hc)]
          | ok c =>
              rw [seq_of_ok hc, seq_of_ok (by rw [hb]; exact seq_of_ok hc), append_assoc]

/-- The code of two programs, one behind the other. -/
theorem Block.layout_append (site : Site) (start : Nat) (block next : List Stmt) :
    Block.layout .drop site start (block ++ next) =
      Fragment.seq (Block.layout .drop site start block) fun f =>
        Block.layout .drop (site.after (Block.events block)) (start + f.size) next := by
  induction block generalizing site start with
  | nil =>
      show Block.layout .drop site start next = Fragment.seq (.ok (.ofInstrs [])) _
      cases hnext : Block.layout .drop site start next with
      | error e => rw [Fragment.seq_of_error (by simpa [Block.events] using hnext)]
      | ok f => rw [Fragment.seq_of_ok (by simpa [Block.events] using hnext), Fragment.nil_append]
  | cons stmt rest ih =>
      rw [List.cons_append, Block.layout_drop_cons, Block.layout_drop_cons, Fragment.seq_assoc]
      congr 1
      funext a
      rw [ih, Block.events, Site.after_append]
      congr 1
      funext b
      rw [Fragment.size_append, Nat.add_assoc]

/-! ## Code inside other code -/

/-- Code that is part of other code. -/
structure Embedding where
  part : Code
  whole : Code
  /-- Where the part starts. -/
  offset : Nat
  holds : whole.Holds offset (part.instrs.map (Instr.shift offset))

/-- An instruction of the part is found in the whole, with its target moved. -/
theorem Embedding.holds_at (e : Embedding) {pre post : List Instr} {i : Instr}
    (h : e.part.instrs = pre ++ i :: post) :
    e.whole.Holds (codeSize pre + e.offset) [i.shift e.offset] := by
  have hholds := e.holds
  rw [h, List.map_append, List.map_cons] at hholds
  have hat : e.whole.Holds (e.offset + codeSize pre)
      ([i.shift e.offset] ++ post.map (Instr.shift e.offset)) := by
    simpa using hholds.right
  rw [Nat.add_comm]
  exact hat.left

end MonkeyMachine
