import MonkeyMachine.Proofs.Acts
import MonkeyMachine.Proofs.Layout
import MonkeyMachine.Proofs.Naming

/-!
# Writing code

What the single acts of the compiler do to the code that has been written so far: appending an
instruction, changing the operand of an earlier one, taking the last one back.

`Wrote c site events f c'` says that the way from `c` to `c'` appended the fragment `f` and scanned
`events`. `Follows act c site events layout` says that `act`, started in `c`, does what `layout`
prescribes: it writes that fragment, or it stops with that error.
-/

namespace MonkeyMachine

/-! ## Edits of a buffer -/

namespace Code

theorem toList_write {code : Code} {position : Nat} {pre old post bytes : List UInt8}
    (hcode : code.toList = pre ++ (old ++ post)) (hpos : pre.length = position)
    (hlen : bytes.length = old.length) :
    (code.write position bytes).toList = pre ++ (bytes ++ post) := by
  induction bytes generalizing code position pre old with
  | nil =>
      have hold : old = [] := List.eq_nil_of_length_eq_zero (by simpa using hlen.symm)
      subst hold
      exact hcode
  | cons byte rest ih =>
      cases old with
      | nil => simp at hlen
      | cons other old =>
          -- The byte that has been written joins the part in front of the position.
          have hset : (code.setIfInBounds position byte).toList =
              (pre ++ [byte]) ++ (old ++ post) := by
            rw [Array.toList_setIfInBounds, hcode, ← hpos]
            simp
          have hnext : (pre ++ [byte]).length = position + 1 := by
            simp [hpos]
          have hrest := ih hset hnext (by simpa using hlen)
          simpa [write] using hrest

theorem toList_truncate {code : Code} {position : Nat} {pre post : List UInt8}
    (hcode : code.toList = pre ++ post) (hpos : pre.length = position) :
    (code.truncate position).toList = pre := by
  have htake : (code.truncate position).toList = code.toList.take position := by
    simp [truncate]
  rw [htake, hcode, ← hpos, List.take_left]

end Code

/-! ## What has been written -/

/-- The way from `c` to `c'` wrote `f` and scanned `events`. -/
structure Wrote (c : Compiler) (site : Site) (events : List Event) (f : Fragment)
    (c' : Compiler) : Prop where
  valid : ∀ i ∈ f.instrs, i.Valid
  code : c'.buffer.code.toList = c.buffer.code.toList ++ assemble f.instrs
  constants : c'.constants.toList = c.constants.toList ++ f.constants
  count : f.constants.length = Event.literals events
  enclosing : c'.enclosing = c.enclosing
  scanned : Scanned c.symbols site events c'.symbols

namespace Wrote

variable {c c' c'' : Compiler} {site : Site} {xs ys : List Event} {f g : Fragment}

theorem size (h : Wrote c site xs f c') :
    c'.buffer.code.size = c.buffer.code.size + f.size := by
  rw [← Array.length_toList, h.code, List.length_append, Array.length_toList,
    length_assemble h.valid]
  rfl

theorem literals (h : Wrote c site xs f c') (hc : c.constants.size = site.literals) :
    c'.constants.size = (site.after xs).literals := by
  rw [← Array.length_toList, h.constants, List.length_append, Array.length_toList, h.count, hc,
    Site.literals_after]

theorem trans (h : Wrote c site xs f c') (h' : Wrote c' (site.after xs) ys g c'') :
    Wrote c site (xs ++ ys) (f ++ g) c'' where
  valid := by
    intro i hi
    rcases List.mem_append.1 hi with hi | hi
    · exact h.valid i hi
    · exact h'.valid i hi
  code := by simp [h'.code, h.code]
  constants := by simp [h'.constants, h.constants]
  count := by simp [h'.count, h.count]
  enclosing := h'.enclosing.trans h.enclosing
  scanned := h.scanned.trans h'.scanned

end Wrote

/-- Started in `c`, the act does what `layout` prescribes. -/
def Follows (act : Compile Unit) (c : Compiler) (site : Site) (events : List Event)
    (layout : Except CompileError Fragment) : Prop :=
  match layout with
  | .ok f => ∃ c', act c = .ok () c' ∧ Wrote c site events f c'
  | .error e => ∃ c', act c = .error e c'

namespace Follows

variable {act act' : Compile Unit} {c : Compiler} {site : Site} {xs ys : List Event}
  {layout : Except CompileError Fragment}

theorem error {e : CompileError} {c' : Compiler} (h : act c = .error e c') :
    Follows act c site xs (.error e) := ⟨c', h⟩

/-- An act that succeeds has written the fragment of its layout. -/
theorem wrote_of_ok {c' : Compiler} (h : Follows act c site xs layout) (hact : act c = .ok () c') :
    ∃ f, layout = .ok f ∧ Wrote c site xs f c' := by
  cases layout with
  | error e =>
      rcases h with ⟨c'', herror⟩
      rw [hact] at herror
      cases herror
  | ok f =>
      rcases h with ⟨c'', hok, hw⟩
      rw [hact] at hok
      cases hok
      exact ⟨f, rfl, hw⟩

/-- One act after another. -/
theorem bind {next : Fragment → Except CompileError Fragment}
    (h : Follows act c site xs layout)
    (h' : ∀ f c', layout = .ok f → Wrote c site xs f c' →
      Follows act' c' (site.after xs) ys (next f)) :
    Follows (act >>= fun _ => act') c site (xs ++ ys) (Fragment.seq layout next) := by
  cases layout with
  | error e =>
      rcases h with ⟨c', hact⟩
      exact .error (act_bind_of_error hact)
  | ok f =>
      rcases h with ⟨c', hact, hw⟩
      have hnext := h' f c' rfl hw
      cases hg : next f with
      | error e =>
          rw [hg] at hnext
          rcases hnext with ⟨c'', hact'⟩
          rw [Fragment.seq_of_error hg]
          exact .error ((act_bind_of_ok hact).trans hact')
      | ok g =>
          rw [hg] at hnext
          rcases hnext with ⟨c'', hact', hw'⟩
          rw [Fragment.seq_of_ok hg]
          exact ⟨c'', (act_bind_of_ok hact).trans hact', hw.trans hw'⟩

theorem nothing (h : Agrees c.symbols site) :
    Follows (pure ()) c site [] (.ok (.ofInstrs [])) := by
  refine ⟨c, rfl, ?_⟩
  exact
    { valid := by simp
      code := by simp
      constants := by simp
      count := rfl
      enclosing := rfl
      scanned := .nil h }

end Follows

/-! ## Instructions -/

namespace Compile

/-- The compiler after an instruction has been written. -/
def written (c : Compiler) (i : Instr) : Compiler :=
  { c with buffer := c.buffer.append i.op i.bytes }

theorem emitAt_of_valid {op : Opcode} {operands : List Nat}
    (h : (Instr.mk op operands).Valid) (c : Compiler) :
    emitAt op operands c = .ok c.buffer.code.size (written c ⟨op, operands⟩) := by
  have hencode := (op.encode_eq_ok_iff operands _).2 ⟨h, rfl⟩
  simp only [emitAt, hencode]
  rfl

theorem emit_of_valid {op : Opcode} {operands : List Nat}
    (h : (Instr.mk op operands).Valid) (c : Compiler) :
    emit op operands c = .ok () (written c ⟨op, operands⟩) :=
  act_bind_of_ok (emitAt_of_valid h c)

theorem emit_of_error {op : Opcode} {operands : List Nat} {cause : EncodingError}
    (h : op.encode operands = .error cause) (c : Compiler) :
    emit op operands c = .error (.encoding cause) c := by
  have hemit : emitAt op operands c = .error (.encoding cause) c := by
    simp only [emitAt, h]
    rfl
  exact act_bind_of_error hemit

theorem toList_written (c : Compiler) (i : Instr) :
    (written c i).buffer.code.toList = c.buffer.code.toList ++ i.bytes := by
  simp [written, Buffer.append]

theorem wrote_written {c : Compiler} {site : Site} {i : Instr} (h : i.Valid)
    (ha : Agrees c.symbols site) : Wrote c site [] (.ofInstrs [i]) (written c i) where
  valid := by simpa using h
  code := by simp [toList_written]
  constants := by simp [written]
  count := rfl
  enclosing := rfl
  scanned := .nil ha

end Compile

/-- One more instruction. -/
theorem Wrote.written {c c' : Compiler} {site : Site} {events : List Event} {f : Fragment}
    (h : Wrote c site events f c') {i : Instr} (hi : i.Valid) :
    Wrote c site events (f ++ .ofInstrs [i]) (Compile.written c' i) := by
  have hboth := h.trans (Compile.wrote_written hi h.scanned.agrees)
  rw [List.append_nil] at hboth
  exact hboth

theorem Follows.emit {op : Opcode} {operands : List Nat} {c : Compiler} {site : Site}
    (h : Agrees c.symbols site) :
    Follows (Compile.emit op operands) c site [] (Fragment.emit op operands) := by
  cases hencode : op.encode operands with
  | error cause =>
      have hlayout : Fragment.emit op operands = .error (.encoding cause) := by
        simp [Fragment.emit, hencode]
      rw [hlayout]
      exact .error (Compile.emit_of_error hencode c)
  | ok bytes =>
      have hvalid := ((op.encode_eq_ok_iff operands bytes).1 hencode).1
      have hlayout : Fragment.emit op operands = .ok (.ofInstrs [⟨op, operands⟩]) :=
        Fragment.emit_eq_ok_iff.2 ⟨hvalid, rfl⟩
      rw [hlayout]
      exact ⟨_, Compile.emit_of_valid hvalid c, Compile.wrote_written hvalid h⟩

/-- An instruction at the end of other code. -/
theorem Follows.bind_emit {act : Compile Unit} {op : Opcode} {operands : List Nat} {c : Compiler}
    {site : Site} {xs : List Event} {layout : Except CompileError Fragment}
    (h : Follows act c site xs layout) :
    Follows (act >>= fun _ => Compile.emit op operands) c site xs
      (Fragment.seq layout fun _ => Fragment.emit op operands) := by
  have hbind : Follows (act >>= fun _ => Compile.emit op operands) c site (xs ++ [])
      (Fragment.seq layout fun _ => Fragment.emit op operands) :=
    h.bind fun f c' _ hw => Follows.emit hw.scanned.agrees
  simpa using hbind

/-! ## Patches -/

namespace Compile

theorem patch_of_ok {c : Compiler} {position operand : Nat} {bytes : List UInt8}
    (h : c.buffer.code.patched position operand = .ok bytes) :
    patch position operand c =
      .ok () { c with buffer := { c.buffer with code := c.buffer.code.write position bytes } } := by
  unfold patch
  rw [act_bind_of_ok (show (get : Compile Compiler) c = .ok c c from rfl)]
  simp only [h]
  rfl

theorem patch_of_error {c : Compiler} {position operand : Nat} {cause : EncodingError}
    (h : c.buffer.code.patched position operand = .error cause) :
    patch position operand c = .error (.encoding cause) c := by
  unfold patch
  rw [act_bind_of_ok (show (get : Compile Compiler) c = .ok c c from rfl)]
  simp only [h]
  rfl

/-- Changing the operand of a one-operand instruction. -/
theorem patch_follows (operand : Nat) {c : Compiler} {op : Opcode} {placeholder : Nat}
    {pre post : List UInt8} (hvalid : (Instr.mk op [placeholder]).Valid)
    (hcode : c.buffer.code.toList = pre ++ ((Instr.mk op [placeholder]).bytes ++ post)) :
    match Fragment.emit op [operand] with
    | .ok f => ∃ code : Code, code.toList = pre ++ (assemble f.instrs ++ post) ∧
        (Instr.mk op [operand]).Valid ∧ f = .ofInstrs [⟨op, [operand]⟩] ∧
        patch pre.length operand c = .ok () { c with buffer := { c.buffer with code } }
    | .error e => patch pre.length operand c = .error e c := by
  -- The opcode is read back from the buffer and encoded again with the new operand.
  have hbyte : c.buffer.code[pre.length]? = some op.toByte := by
    rw [← Array.getElem?_toList, hcode]
    simp [Instr.bytes]
  have hpatched : c.buffer.code.patched pre.length operand = op.encode [operand] := by
    simp [Code.patched, hbyte]
  cases hencode : op.encode [operand] with
  | error cause =>
      have hlayout : Fragment.emit op [operand] = .error (.encoding cause) := by
        simp [Fragment.emit, hencode]
      rw [hlayout]
      exact patch_of_error (hpatched.trans hencode)
  | ok bytes =>
      rcases (op.encode_eq_ok_iff [operand] bytes).1 hencode with ⟨hvalid', rfl⟩
      have hlayout : Fragment.emit op [operand] = .ok (.ofInstrs [⟨op, [operand]⟩]) :=
        Fragment.emit_eq_ok_iff.2 ⟨hvalid', rfl⟩
      rw [hlayout]
      refine ⟨_, ?_, hvalid', rfl, patch_of_ok (hpatched.trans hencode)⟩
      -- Both operands take the same number of bytes, so nothing moves.
      have hlen : (Instr.mk op [operand]).bytes.length =
          (Instr.mk op [placeholder]).bytes.length := by
        rw [hvalid'.length_bytes, hvalid.length_bytes]
        rfl
      simpa using Code.toList_write hcode rfl hlen

end Compile

/-- An instruction in the code that has been written gets its operand. -/
theorem Wrote.patch (operand : Nat) {c c' : Compiler} {site : Site} {events : List Event}
    {f g : Fragment} {op : Opcode} {placeholder : Nat}
    (h : Wrote c site events (f ++ (.ofInstrs [⟨op, [placeholder]⟩] ++ g)) c') :
    match Fragment.emit op [operand] with
    | .ok i => ∃ c'', Compile.patch (c.buffer.code.size + f.size) operand c' = .ok () c'' ∧
        Wrote c site events (f ++ (i ++ g)) c''
    | .error e => Compile.patch (c.buffer.code.size + f.size) operand c' = .error e c' := by
  have hvalid : (Instr.mk op [placeholder]).Valid := h.valid _ (by simp)
  have hf : ∀ i ∈ f.instrs, i.Valid := fun i hi => h.valid i (by simp [hi])
  have hg : ∀ i ∈ g.instrs, i.Valid := fun i hi => h.valid i (by simp [hi])
  have hcode : c'.buffer.code.toList = c.buffer.code.toList ++ assemble f.instrs ++
      ((Instr.mk op [placeholder]).bytes ++ assemble g.instrs) := by
    rw [h.code]
    simp
  have hlength : (c.buffer.code.toList ++ assemble f.instrs).length =
      c.buffer.code.size + f.size := by
    rw [List.length_append, Array.length_toList, length_assemble hf]
    rfl
  have hpatch := Compile.patch_follows operand hvalid hcode
  rw [hlength] at hpatch
  cases hemit : Fragment.emit op [operand] with
  | error e =>
      rw [hemit] at hpatch
      exact hpatch
  | ok i =>
      rw [hemit] at hpatch
      rcases hpatch with ⟨code, hpatched, hvalid', rfl, hact⟩
      refine ⟨_, hact, { h with valid := ?_, code := ?_ }⟩
      · intro j hj
        simp only [Fragment.instrs_append, Fragment.instrs_ofInstrs, List.mem_append,
          List.mem_singleton] at hj
        rcases hj with hj | rfl | hj
        · exact hf j hj
        · exact hvalid'
        · exact hg j hj
      · show code.toList = _
        simp [hpatched]

/-! ## Conditionals -/

section Conditionals

variable {test yes no : Compile Unit} {c : Compiler} {site : Site} {xs ys zs : List Event}
  {t : Except CompileError Fragment} {y n : Nat → Except CompileError Fragment}

/-- A jump whose target is not known yet. -/
def Fragment.openJump (op : Opcode) : Fragment := .ofInstrs [⟨op, [Compile.jumpPlaceholder]⟩]

/-- What is left of a conditional once its first branch has been written. -/
theorem Compile.conditional_of_branch (no : Compile Unit) {c₁ c₂ : Compiler}
    (htest : test c = .ok () c₁)
    (hyes : branch yes (written c₁ ⟨.jumpNotTruthy, [jumpPlaceholder]⟩) = .ok () c₂) :
    conditional test yes no c = (do
      patch c₁.buffer.code.size (written c₂ ⟨.jump, [jumpPlaceholder]⟩).buffer.code.size
      no
      patch c₂.buffer.code.size (← position) : Compile Unit)
        (written c₂ ⟨.jump, [jumpPlaceholder]⟩) := by
  have hjumpNot : (Instr.mk .jumpNotTruthy [jumpPlaceholder]).Valid := .cons (by decide) .nil
  have hjump : (Instr.mk .jump [jumpPlaceholder]).Valid := .cons (by decide) .nil
  rw [conditional, act_bind_of_ok htest, act_bind_of_ok (emitAt_of_valid hjumpNot c₁),
    act_bind_of_ok hyes, act_bind_of_ok (emitAt_of_valid hjump c₂)]
  rfl

/-- The first part of a conditional: up to the start of the other branch, where the first jump gets
its target. -/
theorem Follows.conditional_opens (no : Compile Unit) (n : Nat → Except CompileError Fragment)
    (htest : Follows test c site xs t)
    (hc : c.constants.size = site.literals)
    (hyes : ∀ c', Scanned c.symbols site xs c'.symbols →
      c'.constants.size = (site.after xs).literals →
      Follows (Compile.branch yes) c' (site.after xs) ys (y c'.buffer.code.size)) :
    (∃ e c', Fragment.conditional c.buffer.code.size t y n = .error e ∧
        Compile.conditional test yes no c = .error e c') ∨
      ∃ ft fy toNo c', t = .ok ft ∧ y (c.buffer.code.size + ft.size + 3) = .ok fy ∧
        Fragment.emit .jumpNotTruthy [c.buffer.code.size + ft.size + 3 + fy.size + 3] = .ok toNo ∧
        Wrote c site (xs ++ ys) (ft ++ (toNo ++ fy) ++ .openJump .jump) c' ∧
        Compile.conditional test yes no c = (do
          no
          Compile.patch (c.buffer.code.size + (ft ++ (toNo ++ fy)).size) (← Compile.position) :
            Compile Unit) c' := by
  have hjumpNot : (Instr.mk .jumpNotTruthy [Compile.jumpPlaceholder]).Valid :=
    .cons (by decide) .nil
  have hjump : (Instr.mk .jump [Compile.jumpPlaceholder]).Valid := .cons (by decide) .nil
  cases t with
  | error e =>
      rcases htest with ⟨c₁, hact⟩
      exact .inl ⟨e, c₁, rfl, act_bind_of_error hact⟩
  | ok ft =>
  rcases htest with ⟨c₁, hact₁, hw₁⟩
  have hw₂ := hw₁.written hjumpNot
  have hsize₂ : (Compile.written c₁ ⟨.jumpNotTruthy, [Compile.jumpPlaceholder]⟩).buffer.code.size =
      c.buffer.code.size + ft.size + 3 := by
    rw [hw₂.size, Fragment.size_append, ← Nat.add_assoc]
    rfl
  have hyes₂ := hyes _ hw₂.scanned (hw₂.literals hc)
  rw [hsize₂] at hyes₂
  cases hfy : y (c.buffer.code.size + ft.size + 3) with
  | error e =>
      have hlayout : Fragment.conditional c.buffer.code.size (.ok ft) y n = .error e := by
        simp [Fragment.conditional, Bind.bind, Except.bind, hfy]
      rw [hfy] at hyes₂
      rcases hyes₂ with ⟨c₃, hact₃⟩
      refine .inl ⟨e, c₃, hlayout, ?_⟩
      rw [Compile.conditional, act_bind_of_ok hact₁,
        act_bind_of_ok (Compile.emitAt_of_valid hjumpNot c₁), act_bind_of_error hact₃]
  | ok fy =>
  rw [hfy] at hyes₂
  rcases hyes₂ with ⟨c₃, hact₃, hw₃⟩
  -- All of the first part is there but for the target of its first jump.
  have hw₄ := (hw₂.trans hw₃).written hjump
  rw [Fragment.append_assoc, Fragment.append_assoc] at hw₄
  have hsize₄ : (Compile.written c₃ ⟨.jump, [Compile.jumpPlaceholder]⟩).buffer.code.size =
      c.buffer.code.size + ft.size + 3 + fy.size + 3 := by
    rw [hw₄.size]
    simp only [Fragment.size_append, ← Nat.add_assoc]
    rfl
  have hconditional := Compile.conditional_of_branch no hact₁ hact₃
  rw [hsize₄, hw₁.size] at hconditional
  have hpatch := hw₄.patch (c.buffer.code.size + ft.size + 3 + fy.size + 3)
  cases hto : Fragment.emit .jumpNotTruthy [c.buffer.code.size + ft.size + 3 + fy.size + 3] with
  | error e =>
      have hlayout : Fragment.conditional c.buffer.code.size (.ok ft) y n = .error e := by
        simp [Fragment.conditional, Bind.bind, Except.bind, hfy, hto]
      rw [hto] at hpatch
      exact .inl ⟨e, _, hlayout, hconditional.trans (act_bind_of_error hpatch)⟩
  | ok toNo =>
  rw [hto] at hpatch
  rcases hpatch with ⟨c₅, hact₅, hw₅⟩
  have hsize₃ : c₃.buffer.code.size = c.buffer.code.size + (ft ++ (toNo ++ fy)).size := by
    rcases Fragment.emit_eq_ok_iff.1 hto with ⟨-, rfl⟩
    rw [hw₃.size, hsize₂]
    simp only [Fragment.size_append, ← Nat.add_assoc]
    rfl
  refine .inr ⟨ft, fy, toNo, c₅, rfl, hfy, hto, ?_, ?_⟩
  · rw [Fragment.append_assoc, Fragment.append_assoc]
    exact hw₅
  · rw [← hsize₃]
    exact hconditional.trans (act_bind_of_ok hact₅)

/-- A conditional whose parts follow their layouts. Both jumps are written with a placeholder and
get their targets once the code they jump over is there. -/
theorem Follows.conditional (htest : Follows test c site xs t)
    (hc : c.constants.size = site.literals)
    (hyes : ∀ c', Scanned c.symbols site xs c'.symbols →
      c'.constants.size = (site.after xs).literals →
      Follows (Compile.branch yes) c' (site.after xs) ys (y c'.buffer.code.size))
    (hno : ∀ c', Scanned c.symbols site (xs ++ ys) c'.symbols →
      c'.constants.size = (site.after (xs ++ ys)).literals →
      Follows no c' (site.after (xs ++ ys)) zs (n c'.buffer.code.size)) :
    Follows (Compile.conditional test yes no) c site (xs ++ ys ++ zs)
      (Fragment.conditional c.buffer.code.size t y n) := by
  rcases Follows.conditional_opens no n htest hc hyes with
    ⟨e, c', hlayout, hact⟩ | ⟨ft, fy, toNo, c₁, rfl, hfy, hto, hw₁, hact₁⟩
  · rw [hlayout]
    exact .error hact
  have hsize₁ : c₁.buffer.code.size = c.buffer.code.size + ft.size + 3 + fy.size + 3 := by
    rcases Fragment.emit_eq_ok_iff.1 hto with ⟨-, rfl⟩
    rw [hw₁.size]
    simp only [Fragment.size_append, ← Nat.add_assoc]
    rfl
  have hno₁ := hno c₁ hw₁.scanned (hw₁.literals hc)
  rw [hsize₁] at hno₁
  cases hfn : n (c.buffer.code.size + ft.size + 3 + fy.size + 3) with
  | error e =>
      have hlayout : Fragment.conditional c.buffer.code.size (.ok ft) y n = .error e := by
        simp [Fragment.conditional, Bind.bind, Except.bind, hfy, hto, hfn]
      rw [hfn] at hno₁
      rcases hno₁ with ⟨c₂, hact₂⟩
      rw [hlayout]
      exact .error (hact₁.trans (act_bind_of_error hact₂))
  | ok fn =>
  rw [hfn] at hno₁
  rcases hno₁ with ⟨c₂, hact₂, hw₂⟩
  have hw := hw₁.trans hw₂
  rw [Fragment.append_assoc] at hw
  have hsize₂ : c₂.buffer.code.size =
      c.buffer.code.size + ft.size + 3 + fy.size + 3 + fn.size := by
    rw [hw₂.size, hsize₁]
  -- Only the target of the second jump is missing now.
  have hpatch := hw.patch c₂.buffer.code.size
  have hlast : Compile.conditional test yes no c =
      Compile.patch (c.buffer.code.size + (ft ++ (toNo ++ fy)).size) c₂.buffer.code.size c₂ :=
    hact₁.trans (act_bind_of_ok hact₂)
  cases hfinish : Fragment.emit .jump [c₂.buffer.code.size] with
  | error e =>
      have hlayout : Fragment.conditional c.buffer.code.size (.ok ft) y n = .error e := by
        rw [hsize₂] at hfinish
        simp [Fragment.conditional, Bind.bind, Except.bind, hfy, hto, hfn, hfinish]
      rw [hfinish] at hpatch
      rw [hlayout]
      exact .error (hlast.trans hpatch)
  | ok toFinish =>
      have hlayout : Fragment.conditional c.buffer.code.size (.ok ft) y n =
          .ok (ft ++ (toNo ++ fy) ++ (toFinish ++ fn)) := by
        rw [hsize₂] at hfinish
        simp [Fragment.conditional, Bind.bind, Except.bind, hfy, hto, hfn, hfinish, pure,
          Except.pure, Fragment.append_assoc]
      rw [hfinish] at hpatch
      rcases hpatch with ⟨c₃, hact₃, hw₃⟩
      rw [hlayout]
      exact ⟨c₃, hlast.trans hact₃, hw₃⟩

end Conditionals

end MonkeyMachine
