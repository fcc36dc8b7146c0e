import MonkeyMachine.Proofs.Emission

/-!
# The compiler follows the layout

The compiler writes jumps before it knows their targets, drops the value of every expression
statement and takes that back at the end of a branch or of a function body. Here it is shown that
what it arrives at is the layout, which is written from left to right: `Block.compile_follows`. It
stops with an error exactly where the layout does, and with the same error.

The induction is on syntax. It carries that the symbol table agrees with the site and that the next
constant has the number that the site says.
-/

namespace MonkeyMachine

/-! ## Names and constants -/

/-- An act that first does nothing but scan names. -/
theorem Follows.of_scanned {act act' : Compile Unit} {c : Compiler} {site : Site}
    {symbols : SymbolTable} {xs ys : List Event} {layout : Except CompileError Fragment}
    (hscan : Scanned c.symbols site xs symbols) (hcount : Event.literals xs = 0)
    (hact : act c = act' { c with symbols })
    (h : Follows act' { c with symbols } (site.after xs) ys layout) :
    Follows act c site (xs ++ ys) layout := by
  have hw : Wrote c site xs (.ofInstrs []) { c with symbols } :=
    { valid := by simp
      code := by simp
      constants := by simp
      count := hcount.symm
      enclosing := rfl
      scanned := hscan }
  cases layout with
  | error e =>
      rcases h with ⟨c', hact'⟩
      exact ⟨c', hact.trans hact'⟩
  | ok f =>
      rcases h with ⟨c', hact', hw'⟩
      have htrans := hw.trans hw'
      rw [Fragment.nil_append] at htrans
      exact ⟨c', hact.trans hact', htrans⟩

theorem Follows.load {c : Compiler} {site : Site} (h : Agrees c.symbols site) (name : String)
    (place : Place) : Follows (Compile.load (place.symbol name)) c site [] place.load := by
  cases place <;> exact Follows.emit h

theorem Follows.loadAll {names : List String} {symbols : List Symbol} {c : Compiler}
    {site here : Site} (h : Agrees c.symbols here)
    (hplaces : List.Forall₂
      (fun name symbol => ∃ place, site.place? name = some place ∧ symbol = place.symbol name)
      names symbols) :
    Follows (Compile.loadAll symbols) c here [] (site.loadAll names) := by
  induction hplaces generalizing c here with
  | nil => exact .nothing h
  | @cons name symbol names symbols hplace hplaces ih =>
      rcases hplace with ⟨place, hplace, rfl⟩
      have hload : site.load name = place.load := by
        simp [Site.load, hplace]
      rw [Site.loadAll, hload]
      have hfirst := Follows.load h name place
      exact hfirst.bind fun f c' _ hw => ih hw.scanned.agrees

theorem Follows.ident {c : Compiler} {site : Site} {name : String}
    (h : Ready c.symbols site [.use name]) :
    Follows (do let symbol ← Compile.resolve name; Compile.load symbol) c site [.use name]
      (site.load name) := by
  have hlook := LooksUp.of_ready h
  cases hplace : site.place? name with
  | none =>
      have hres : Compile.resolve name c = .error (.undefinedVariable name) c := by
        unfold Compile.resolve
        rw [act_bind_of_ok (show (get : Compile Compiler) c = .ok c c from rfl)]
        simp only [hlook.missing hplace]
        rfl
      simp only [Site.load, hplace]
      exact .error (act_bind_of_error hres)
  | some place =>
      have hres : Compile.resolve name c =
          .ok (place.symbol name) { c with symbols := c.symbols.use name } := by
        unfold Compile.resolve
        rw [act_bind_of_ok (show (get : Compile Compiler) c = .ok c c from rfl)]
        simp only [hlook.found place hplace]
        rfl
      simp only [Site.load, hplace]
      exact .of_scanned hlook.scanned rfl (act_bind_of_ok hres)
        (.load hlook.scanned.agrees name place)

theorem Follows.store {c : Compiler} {site : Site} (h : Agrees c.symbols site) (name : String) :
    Follows (Compile.bind name) c site [.bind name] site.store := by
  rcases h.define name with ⟨hsymbol, hscan⟩
  have hdefine : Compile.define name c =
      .ok (site.next.symbol name) { c with symbols := (c.symbols.define name).2 } := by
    rw [← hsymbol]
    rfl
  refine .of_scanned hscan rfl (act_bind_of_ok hdefine) ?_
  cases hbody : site.body with
  | none =>
      simp only [Site.next, Site.store, hbody, Place.symbol, if_true]
      exact .emit hscan.agrees
  | some locals =>
      by_cases hlt : locals.names.length < Compile.maxLocals
      · simp only [Site.next, Site.store, hbody, Place.symbol, hlt, if_true, reduceCtorEq, if_false]
        exact .emit hscan.agrees
      · simp only [Site.next, Site.store, hbody, Place.symbol, hlt, reduceCtorEq, if_false]
        exact .error rfl

theorem Follows.literal {c : Compiler} {site : Site} (h : Agrees c.symbols site)
    (hc : c.constants.size = site.literals) (v : Value) :
    Follows (Compile.literal v) c site [.literal] (Fragment.literal site v) := by
  have hadd : Compile.addConstant v c =
      .ok site.literals { c with constants := c.constants.push v } := by
    rw [← hc]
    rfl
  have hemit : Follows (Compile.emit .constant [site.literals])
      { c with constants := c.constants.push v } (site.after [.literal]) []
      (Fragment.emit .constant [site.literals]) :=
    .emit (h.after_literals 1)
  unfold Fragment.literal
  cases hlayout : Fragment.emit .constant [site.literals] with
  | error e =>
      rw [hlayout] at hemit
      rcases hemit with ⟨c', hact⟩
      exact .error ((act_bind_of_ok hadd).trans hact)
  | ok push =>
      rw [hlayout] at hemit
      rcases hemit with ⟨c', hact, hw⟩
      have hnone : push.constants = [] := by
        rw [(Fragment.emit_eq_ok_iff.1 hlayout).2]
        rfl
      refine ⟨c', (act_bind_of_ok hadd).trans hact, ?_⟩
      exact
        { valid := hw.valid
          code := hw.code
          constants := by simp [hw.constants, hnone]
          count := rfl
          enclosing := hw.enclosing
          scanned := (Scanned.literals h 1).trans hw.scanned }

/-! ## The end of a block -/

theorem Stmt.layout_retail (tail : Tail) (site : Site) (start : Nat) (stmt : Stmt) :
    match Stmt.layout .drop site start stmt with
    | .ok f => ∃ g, Stmt.layout tail site start stmt = .ok g ∧ Retailed tail stmt.ending f g
    | .error e => Stmt.layout tail site start stmt = .error e := by
  cases stmt with
  | expr value =>
      unfold Stmt.layout
      cases Expr.layout none site start value with
      | error e => rfl
      | ok f => exact ⟨_, rfl, .value f⟩
  | ret value =>
      unfold Stmt.layout
      cases Expr.layout none site start value with
      | error e => rfl
      | ok f =>
          refine ⟨_, rfl, ?_⟩
          have hret : Retailed tail .ret (f ++ .ofInstrs [⟨.returnValue, []⟩]) _ := .ret _
          rw [Fragment.append_assoc] at hret
          exact hret
  | bind name value =>
      unfold Stmt.layout
      cases Expr.layout (some name) site start value with
      | error e => rfl
      | ok f =>
          cases hstore : (site.after (Expr.events (some name) value)).store with
          | error e => rfl
          | ok g =>
              refine ⟨_, rfl, ?_⟩
              have hnothing : Retailed tail .nothing (f ++ g) _ := .nothing _
              rw [Fragment.append_assoc] at hnothing
              show Retailed tail .nothing (f ++ (g ++ Fragment.ofInstrs [])) _
              rw [Fragment.append_nil]
              exact hnothing

/-- Whatever becomes of its last value, a block fails in the same way, and its code is the same but
for the end. -/
theorem Block.layout_retail (tail : Tail) (site : Site) (start : Nat) (block : List Stmt) :
    match Block.layout .drop site start block with
    | .ok f => ∃ g, Block.layout tail site start block = .ok g ∧
        Retailed tail (Block.ending block) f g
    | .error e => Block.layout tail site start block = .error e := by
  induction block generalizing site start with
  | nil => exact ⟨_, rfl, .nothing (.ofInstrs [])⟩
  | cons stmt rest ih =>
      cases rest with
      | nil => exact Stmt.layout_retail tail site start stmt
      | cons next rest =>
          unfold Block.layout
          cases Stmt.layout .drop site start stmt with
          | error e => rfl
          | ok s =>
              -- Only the last statement is laid out differently.
              have hrest := ih (site.after (Stmt.events stmt)) (start + s.size)
              cases hlayout : Block.layout .drop (site.after (Stmt.events stmt)) (start + s.size)
                  (next :: rest) with
              | error e =>
                  rw [hlayout] at hrest
                  rw [Fragment.seq_of_error hlayout]
                  exact Fragment.seq_of_error hrest
              | ok f =>
                  rw [hlayout] at hrest
                  rcases hrest with ⟨g, hg, hretailed⟩
                  rw [Fragment.seq_of_ok hlayout]
                  exact ⟨s ++ g, Fragment.seq_of_ok hg, hretailed.append s⟩

theorem Block.layout_drop_cons (site : Site) (start : Nat) (stmt : Stmt) (rest : List Stmt) :
    Block.layout .drop site start (stmt :: rest) =
      Fragment.seq (Stmt.layout .drop site start stmt) fun s =>
        Block.layout .drop (site.after (Stmt.events stmt)) (start + s.size) rest := by
  cases rest with
  | nil =>
      show Stmt.layout .drop site start stmt =
        Fragment.seq (Stmt.layout .drop site start stmt) fun _ => .ok (.ofInstrs [])
      rw [Fragment.seq_nil]
  | cons next rest => rfl

/-! ## The last instruction -/

/-- The instruction that ends the code of a statement. -/
def Stmt.Ending.LeftBy : Stmt.Ending → Instr → Prop
  | .value, i => i = ⟨.pop, []⟩
  | .ret, i => i = ⟨.returnValue, []⟩
  | .nothing, i => i.op = .setGlobal ∨ i.op = .setLocal

theorem Compile.emit_eq_ok {op : Opcode} {operands : List Nat} {c c' : Compiler}
    (h : Compile.emit op operands c = .ok () c') : c' = Compile.written c ⟨op, operands⟩ := by
  cases hencode : op.encode operands with
  | error cause =>
      rw [Compile.emit_of_error hencode] at h
      cases h
  | ok bytes =>
      rw [Compile.emit_of_valid ((op.encode_eq_ok_iff operands bytes).1 hencode).1] at h
      cases h
      rfl

theorem Compile.bind_eq_ok {name : String} {c c' : Compiler}
    (h : Compile.bind name c = .ok () c') :
    ∃ before i, c' = Compile.written before i ∧ (i.op = .setGlobal ∨ i.op = .setLocal) := by
  unfold Compile.bind at h
  rcases act_bind_eq_ok h with ⟨symbol, before, -, hrest⟩
  split at hrest
  · exact ⟨before, _, Compile.emit_eq_ok hrest, .inl rfl⟩
  · split at hrest
    · exact ⟨before, _, Compile.emit_eq_ok hrest, .inr rfl⟩
    · cases hrest

theorem Stmt.compile_last {stmt : Stmt} {c c' : Compiler} (h : Stmt.compile stmt c = .ok () c') :
    ∃ before i, c' = Compile.written before i ∧ stmt.ending.LeftBy i := by
  cases stmt with
  | expr value =>
      unfold Stmt.compile at h
      rcases act_bind_eq_ok h with ⟨-, before, -, hemit⟩
      exact ⟨before, _, Compile.emit_eq_ok hemit, rfl⟩
  | ret value =>
      unfold Stmt.compile at h
      rcases act_bind_eq_ok h with ⟨-, before, -, hemit⟩
      exact ⟨before, _, Compile.emit_eq_ok hemit, rfl⟩
  | bind name value =>
      unfold Stmt.compile at h
      rcases act_bind_eq_ok h with ⟨-, between, -, hbind⟩
      exact Compile.bind_eq_ok hbind

theorem Block.compile_append (first second : List Stmt) :
    Block.compile (first ++ second) = (do Block.compile first; Block.compile second) := by
  induction first with
  | nil =>
      simp only [List.nil_append, Block.compile]
      exact (pure_bind () fun _ => Block.compile second).symm
  | cons stmt rest ih => simp only [List.cons_append, Block.compile, ih, bind_assoc]

/-- What the buffer remembers as its last instruction tells how the block ended. -/
theorem Block.compile_last {stmt : Stmt} {rest : List Stmt} {c c' : Compiler}
    (h : Block.compile (stmt :: rest) c = .ok () c') :
    ∃ before i, c' = Compile.written before i ∧ (Block.ending (stmt :: rest)).LeftBy i := by
  induction rest generalizing stmt c with
  | nil =>
      unfold Block.compile at h
      rcases act_bind_eq_ok h with ⟨_, c₁, hstmt, hrest⟩
      cases hrest
      exact Stmt.compile_last hstmt
  | cons next rest ih =>
      unfold Block.compile at h
      rcases act_bind_eq_ok h with ⟨-, c₁, -, hrest⟩
      exact ih hrest

theorem Compile.lastIs_written (c : Compiler) (i : Instr) (op : Opcode) :
    (Compile.written c i).buffer.lastIs op = (i.op == op) := rfl

/-- Taking back the instruction that was written last. -/
theorem Compile.removeLast_written (c : Compiler) (i : Instr) :
    (Compile.written c i).buffer.removeLast.code.toList = c.buffer.code.toList :=
  Code.toList_truncate (Compile.toList_written c i) (Array.length_toList ..)

/-- What stood there before the last instruction. -/
theorem Wrote.code_before {c before : Compiler} {site : Site} {xs : List Event} {init : Fragment}
    {i : Instr} (h : Wrote c site xs (init ++ .ofInstrs [i]) (Compile.written before i)) :
    before.buffer.code.toList = c.buffer.code.toList ++ assemble init.instrs := by
  have hcode := h.code
  rw [Compile.toList_written, Fragment.instrs_append, assemble_append, ← List.append_assoc] at hcode
  have hone : assemble (Fragment.ofInstrs [i]).instrs = i.bytes := by simp
  rw [hone] at hcode
  exact List.append_cancel_right hcode

/-- Replacing the one-byte instruction that was written last. -/
theorem Compile.replaceLast_written (c : Compiler) {old new : Opcode} (h : old.widths = []) :
    ((Compile.written c ⟨old, []⟩).buffer.replaceLast new).code.toList =
      c.buffer.code.toList ++ [new.toByte] := by
  have hcode : (Compile.written c ⟨old, []⟩).buffer.code.toList =
      c.buffer.code.toList ++ ([old.toByte] ++ []) := by
    rw [Compile.toList_written]
    simp [Instr.bytes, Instr.operandBytes, h]
  exact Code.toList_write hcode (Array.length_toList ..) rfl

/-! ## Branches and bodies -/

section Endings

variable {block : List Stmt} {c c' before : Compiler} {site : Site} {xs : List Event}
  {f init : Fragment} {i : Instr} {is : List Instr} {start : Nat}

/-- A block is compiled as one whose value is dropped, and then given another end. -/
theorem Follows.retail {tail : Tail} (finish : Compile Unit)
    (h : Follows (Block.compile block) c site (Block.events block)
      (Block.layout .drop site start block))
    (hfinish : ∀ {c' : Compiler} {f g : Fragment}, Block.compile block c = .ok () c' →
      Wrote c site (Block.events block) f c' → Retailed tail (Block.ending block) f g →
        ∃ c'', finish c' = .ok () c'' ∧ Wrote c site (Block.events block) g c'') :
    Follows (Block.compile block >>= fun _ => finish) c site (Block.events block)
      (Block.layout tail site start block) := by
  have hretail := Block.layout_retail tail site start block
  cases hdrop : Block.layout .drop site start block with
  | error e =>
      rw [hdrop] at h hretail
      rcases h with ⟨c', hact⟩
      rw [hretail]
      exact .error (act_bind_of_error hact)
  | ok f =>
      rw [hdrop] at h hretail
      rcases h with ⟨c', hact, hw⟩
      rcases hretail with ⟨g, hlayout, hretailed⟩
      rcases hfinish hact hw hretailed with ⟨c'', hact', hw'⟩
      rw [hlayout]
      exact ⟨c'', (act_bind_of_ok hact).trans hact', hw'⟩

/-- Other instructions take the place of the last one. -/
theorem Wrote.replace (h : Wrote c site xs (init ++ .ofInstrs [i]) (Compile.written before i))
    {buffer : Buffer} (hvalid : ∀ j ∈ is, j.Valid)
    (hcode : buffer.code.toList = before.buffer.code.toList ++ assemble is) :
    Wrote c site xs (init ++ .ofInstrs is) { Compile.written before i with buffer } where
  valid := by
    intro j hj
    rcases List.mem_append.1 hj with hj | hj
    · exact h.valid j (by simp [hj])
    · exact hvalid j hj
  code := by
    show buffer.code.toList = _
    rw [hcode, h.code_before]
    simp
  constants := by simpa using h.constants
  count := by simpa using h.count
  enclosing := h.enclosing
  scanned := h.scanned

/-- The end of a branch that started at `start`. -/
def Compile.endBranch (start : Nat) : Compile Unit := do
  let finish ← position
  if (← lastIs .pop) && start < finish then
    modify fun c => { c with buffer := c.buffer.removeLast }
  else
    emit .pushNull []

theorem Compile.branch_eq (block : Compile Unit) (c : Compiler) :
    branch block c = (block >>= fun _ => endBranch c.buffer.code.size) c := rfl

theorem Compile.endBranch_eq (start : Nat) (c : Compiler) :
    endBranch start c =
      if c.buffer.lastIs .pop && decide (start < c.buffer.code.size) then
        .ok () { c with buffer := c.buffer.removeLast }
      else .ok () (written c ⟨.pushNull, []⟩) := by
  have hnull : (Instr.mk .pushNull []).Valid := .nil
  rw [endBranch, act_bind_of_ok (show position c = .ok _ c from rfl),
    act_bind_of_ok (show lastIs .pop c = .ok _ c from rfl), ← emit_of_valid hnull c]
  split
  · rfl
  · rfl

theorem Compile.finishBody_eq (c : Compiler) :
    finishBody c =
      if c.buffer.lastIs .pop then
        .ok () { c with buffer := c.buffer.replaceLast .returnValue }
      else if c.buffer.lastIs .returnValue then .ok () c
      else .ok () (written c ⟨.returnNull, []⟩) := by
  have hnull : (Instr.mk .returnNull []).Valid := .nil
  rw [finishBody, act_bind_of_ok (show lastIs .pop c = .ok (c.buffer.lastIs .pop) c from rfl)]
  cases hpop : c.buffer.lastIs .pop with
  | true =>
      -- The second test finds the return that has just taken the place of the `pop`.
      obtain ⟨constants, symbols, ⟨code, last, previous⟩, enclosing⟩ := c
      cases last with
      | none => cases hpop
      | some emitted => rfl
  | false =>
      show (lastIs .returnValue >>= _) c = _
      rw [act_bind_of_ok
        (show lastIs .returnValue c = .ok (c.buffer.lastIs .returnValue) c from rfl)]
      cases hreturn : c.buffer.lastIs .returnValue with
      | true => rfl
      | false => exact emit_of_valid hnull c

/-- Where a branch does not end in an expression, null is pushed behind it. -/
theorem Wrote.endBranch_null (hw : Wrote c site xs f c')
    (h : (c'.buffer.lastIs .pop && decide (start < c'.buffer.code.size)) = false) :
    ∃ c'', Compile.endBranch start c' = .ok () c'' ∧
      Wrote c site xs (f ++ .ofInstrs [⟨.pushNull, []⟩]) c'' := by
  refine ⟨_, ?_, hw.written .nil⟩
  rw [Compile.endBranch_eq, h]
  rfl

theorem Follows.branch
    (h : Follows (Block.compile block) c site (Block.events block)
      (Block.layout .drop site c.buffer.code.size block)) :
    Follows (Compile.branch (Block.compile block)) c site (Block.events block)
      (Block.layout .keep site c.buffer.code.size block) := by
  refine h.retail (Compile.endBranch c.buffer.code.size) fun {c' f g} hact hw hretailed => ?_
  cases block with
  | nil =>
      cases hact
      cases hretailed
      exact hw.endBranch_null (by simp)
  | cons stmt rest =>
      rcases Block.compile_last hact with ⟨before, i, rfl, hleft⟩
      generalize hending : Block.ending (stmt :: rest) = ending at hretailed hleft
      cases hretailed with
      | nothing =>
          refine hw.endBranch_null ?_
          rcases hleft with hop | hop <;> simp [Compile.lastIs_written, hop]
      | ret =>
          obtain rfl : i = ⟨.returnValue, []⟩ := hleft
          exact hw.endBranch_null (by simp [Compile.lastIs_written])
      | value init =>
          obtain rfl : i = ⟨.pop, []⟩ := hleft
          -- The `pop` is not older than the branch.
          have hgrown : c.buffer.code.size <
              (Compile.written before ⟨.pop, []⟩).buffer.code.size := by
            have hpos := (Instr.mk .pop []).size_pos
            rw [hw.size]
            simp
            omega
          have hbytes : assemble Tail.keep.onValue = [] := rfl
          rw [Compile.endBranch_eq, if_pos (by simp [Compile.lastIs_written, hgrown])]
          refine ⟨_, rfl, ?_⟩
          refine hw.replace (List.forall_mem_nil _) ?_
          rw [hbytes, List.append_nil]
          exact Compile.removeLast_written before _

/-- Where a body ends neither in an expression nor in a return, null is returned. -/
theorem Wrote.finishBody_null (hw : Wrote c site xs f c') (hpop : c'.buffer.lastIs .pop = false)
    (hreturn : c'.buffer.lastIs .returnValue = false) :
    ∃ c'', Compile.finishBody c' = .ok () c'' ∧
      Wrote c site xs (f ++ .ofInstrs [⟨.returnNull, []⟩]) c'' := by
  refine ⟨_, ?_, hw.written .nil⟩
  rw [Compile.finishBody_eq, hpop, hreturn]
  rfl

/-- A function body, with the return that ends it. -/
theorem Follows.finishBody (hempty : c.buffer = .empty)
    (h : Follows (Block.compile block) c site (Block.events block)
      (Block.layout .drop site 0 block)) :
    Follows (Block.compile block >>= fun _ => Compile.finishBody) c site (Block.events block)
      (Block.layout .leave site 0 block) := by
  refine h.retail Compile.finishBody fun {c' f g} hact hw hretailed => ?_
  cases block with
  | nil =>
      cases hact
      cases hretailed
      exact hw.finishBody_null (by rw [hempty]; rfl) (by rw [hempty]; rfl)
  | cons stmt rest =>
      rcases Block.compile_last hact with ⟨before, i, rfl, hleft⟩
      generalize hending : Block.ending (stmt :: rest) = ending at hretailed hleft
      cases hretailed with
      | nothing =>
          rcases hleft with hop | hop
          all_goals
            exact hw.finishBody_null (by simp [Compile.lastIs_written, hop])
              (by simp [Compile.lastIs_written, hop])
      | ret =>
          obtain rfl : i = ⟨.returnValue, []⟩ := hleft
          -- The return is there already.
          rw [show Tail.leave.onReturn = [] from rfl, Fragment.append_nil]
          exact ⟨_, rfl, hw⟩
      | value init =>
          obtain rfl : i = ⟨.pop, []⟩ := hleft
          have hvalid : (Instr.mk .returnValue []).Valid := .nil
          have hbytes : assemble Tail.leave.onValue = [Opcode.returnValue.toByte] := rfl
          refine ⟨_, rfl, hw.replace (List.forall_mem_singleton.2 hvalid) ?_⟩
          rw [hbytes]
          exact Compile.replaceLast_written before rfl

end Endings

/-! ## Function literals -/

/-- Parameters take the first slots, as long as there are slots. -/
theorem Compile.defineParams_eq {c : Compiler} {site : Site} {locals : Locals}
    (h : Agrees c.symbols site) (hbody : site.body = some locals)
    (hroom : locals.names.length ≤ maxLocals) (names : List String) :
    (locals.names.length + names.length ≤ maxLocals →
      defineParams names c = .ok () { c with symbols := c.symbols.defineAll names }) ∧
    (maxLocals < locals.names.length + names.length →
      ∃ c', defineParams names c = .error .tooManyLocals c') := by
  induction names generalizing c site locals with
  | nil =>
      refine ⟨fun _ => rfl, fun hmore => ?_⟩
      simp at hmore
      omega
  | cons name rest ih =>
      rcases h.define name with ⟨hsymbol, hscan⟩
      have hdefine : Compile.define name c =
          .ok (site.next.symbol name) { c with symbols := (c.symbols.define name).2 } := by
        rw [← hsymbol]
        rfl
      have hindex : (site.next.symbol name).index = locals.names.length := by
        simp [Site.next, hbody, Place.symbol]
      have hbody' := Site.body_after_of_some hbody [.bind name]
      by_cases hlt : locals.names.length < maxLocals
      · have hrest := @ih { c with symbols := (c.symbols.define name).2 } _ _ hscan.agrees hbody'
          (by simp [Event.binds]; omega)
        have hstep : defineParams (name :: rest) c =
            defineParams rest { c with symbols := (c.symbols.define name).2 } := by
          rw [defineParams, act_bind_of_ok hdefine, hindex, if_pos hlt]
        simp only [Event.binds, List.length_append, List.length_cons, List.length_nil] at hrest
        refine ⟨fun hfits => ?_, fun hmore => ?_⟩
        · rw [hstep, hrest.1 (by simp at hfits; omega)]
          rfl
        · rw [hstep]
          exact hrest.2 (by simp at hmore; omega)
      · refine ⟨fun hfits => ?_, fun _ => ?_⟩
        · simp at hfits
          omega
        -- The name is defined before its slot turns out to be one too many.
        · refine ⟨{ c with symbols := (c.symbols.define name).2 }, ?_⟩
          rw [defineParams, act_bind_of_ok hdefine, hindex, if_neg hlt]
          rfl

/-- The end of a function literal: the function becomes a constant, and is pushed. -/
def Compile.closeBody (numParams : Nat) : Compile Unit := do
  let (code, scope) ← leaveBody
  loadAll scope.captures
  let index ← addFunction { code, numLocals := scope.definitions, numParams }
  if scope.captures.isEmpty then
    emit .constant [index]
  else
    emit .closure [index, scope.captures.length]

theorem Compile.functionLiteral_eq (own : Option String) (params : List String)
    (body : Compile Unit) :
    functionLiteral own params body = (do
      enterBody
      defineOwnName own
      defineParams params
      body
      finishBody
      closeBody params.length) := rfl

/-- A compiler at the start of a function body. -/
def Compiler.entered (c : Compiler) (own : Option String) (params : List String) : Compiler :=
  { c with
    buffer := .empty
    enclosing := c.buffer :: c.enclosing
    symbols := (c.symbols.enterNamed own).defineAll params }

theorem Follows.make {c : Compiler} {site : Site} (h : Agrees c.symbols site) (index : Nat)
    (captures : List Symbol) :
    Follows
      (if captures.isEmpty then Compile.emit .constant [index]
        else Compile.emit .closure [index, captures.length])
      c site [] (Fragment.make index captures.length) := by
  cases captures with
  | nil => exact .emit h
  | cons symbol rest => exact .emit h

theorem Compile.leaveBody_of_enclosing {c : Compiler} {buffer : Buffer} {enclosing : List Buffer}
    (h : c.enclosing = buffer :: enclosing) :
    leaveBody c = .ok (c.buffer.code, c.symbols.leave.1)
      { c with buffer, enclosing, symbols := c.symbols.leave.2 } := by
  show EStateM.Result.ok _ _ = _
  rw [h]
  rfl

/-- The code of a body starts in a buffer of its own. -/
theorem Wrote.function_eq {own : Option String} {params : List String} {events : List Event}
    {c c' : Compiler} {site : Site} {body : Fragment}
    (h : Wrote (c.entered own params) site events body c') :
    Function.mk c'.buffer.code (params.length + (Event.binds events).length) params.length =
      Fragment.function params events body := by
  have htoList : c'.buffer.code.toList = [] ++ assemble body.instrs := h.code
  have hcode : c'.buffer.code = (assemble body.instrs).toArray := by
    rw [← htoList.trans (List.nil_append _), Array.toArray_toList]
  rw [Fragment.function, hcode]

/-- Reading the captures adds no constants to those of the body. -/
theorem Wrote.constants_of_loads {own : Option String} {params : List String} {events : List Event}
    {c c' c₂ : Compiler} {site outer : Site} {table : SymbolTable} {body loads : Fragment}
    (hw : Wrote (c.entered own params) site events body c')
    (hloads : Wrote { c' with buffer := c.buffer, enclosing := c.enclosing, symbols := table }
      outer [] loads c₂) :
    c₂.constants.toList = c.constants.toList ++ body.constants := by
  have hnone : loads.constants = [] := List.eq_nil_of_length_eq_zero hloads.count
  rw [hloads.constants, hnone, List.append_nil]
  exact hw.constants

/-- The function of a body becomes a constant between the code that reads its captures and the
instruction that pushes it. -/
theorem Wrote.closed {own : Option String} {params : List String} {events : List Event}
    {c c' c₂ c₄ : Compiler} {site : Site} {scope : Scope} {table : SymbolTable}
    {body loads push : Fragment} {f : Value}
    (hw : Wrote (c.entered own params) (site.enter own params events) events body c')
    (hclosed : Closed c.symbols site own params events scope table)
    (hloads : Wrote { c' with buffer := c.buffer, enclosing := c.enclosing, symbols := table }
      (site.after (Event.ofFunction own params events)) [] loads c₂)
    (hpush : Wrote { c₂ with constants := c₂.constants.push f }
      ((site.after (Event.ofFunction own params events)).after []) [] push c₄) :
    Wrote c site (Event.ofFunction own params events)
      ⟨loads.instrs ++ push.instrs, body.constants ++ [f]⟩ c₄ where
  valid := by
    intro i hi
    rcases List.mem_append.1 hi with hi | hi
    · exact hloads.valid i hi
    · exact hpush.valid i hi
  code := by
    have hcode : c₂.buffer.code.toList = c.buffer.code.toList ++ assemble loads.instrs :=
      hloads.code
    have hcode' : c₄.buffer.code.toList = c₂.buffer.code.toList ++ assemble push.instrs :=
      hpush.code
    rw [hcode', hcode]
    simp
  constants := by
    have hconstants : c₄.constants.toList = (c₂.constants.push f).toList ++ push.constants :=
      hpush.constants
    have hnone : push.constants = [] := List.eq_nil_of_length_eq_zero hpush.count
    rw [hconstants, hnone, Array.toList_push, hw.constants_of_loads hloads]
    simp
  count := by simp [Event.ofFunction, hw.count]
  enclosing := hpush.enclosing.trans hloads.enclosing
  scanned := by simpa using hclosed.scanned.trans (hloads.scanned.trans hpush.scanned)

theorem Follows.closeBody {own : Option String} {params : List String} {events : List Event}
    {c c' : Compiler} {site : Site} {body : Fragment}
    (h : Ready c.symbols site (Event.ofFunction own params events))
    (hc : c.constants.size = site.literals)
    (hw : Wrote (c.entered own params) (site.enter own params events) events body c') :
    match Fragment.closing site own params events body with
    | .ok f => ∃ c'', Compile.closeBody params.length c' = .ok () c'' ∧
        Wrote c site (Event.ofFunction own params events) f c''
    | .error e => ∃ c'', Compile.closeBody params.length c' = .error e c'' := by
  have hclosed : Closed c.symbols site own params events c'.symbols.leave.1 c'.symbols.leave.2 :=
    Scanned.leave h hw.scanned
  have hleave := Compile.leaveBody_of_enclosing hw.enclosing
  generalize c'.symbols.leave.1 = scope at hclosed hleave
  let c₁ : Compiler :=
    { c' with buffer := c.buffer, enclosing := c.enclosing, symbols := c'.symbols.leave.2 }
  have hloads : Follows (Compile.loadAll scope.captures) c₁ _ [] _ :=
    .loadAll hclosed.scanned.agrees hclosed.captures
  cases hlayout : site.loadAll (site.captures own params events) with
  | error e =>
      have hclosing : Fragment.closing site own params events body = .error e := by
        simp [Fragment.closing, hlayout, Bind.bind, Except.bind]
      rw [hlayout] at hloads
      rcases hloads with ⟨c₂, hact⟩
      rw [hclosing]
      exact ⟨c₂, (act_bind_of_ok hleave).trans (act_bind_of_error hact)⟩
  | ok loads =>
  rw [hlayout] at hloads
  rcases hloads with ⟨c₂, hact₂, hw₂⟩
  have hsize : c₂.constants.size = site.literals + Event.literals events := by
    rw [← Array.length_toList, hw.constants_of_loads hw₂, List.length_append, Array.length_toList,
      hc, hw.count]
  -- The number of the function is that of the next constant, behind those of its body.
  let index := site.literals + Event.literals events
  let f : Value := .function (.constant index) (Fragment.function params events body)
  let c₃ : Compiler := { c₂ with constants := c₂.constants.push f }
  have hadd : Compile.addFunction ⟨c'.buffer.code, scope.definitions, params.length⟩ c₂ =
      .ok index c₃ := by
    show EStateM.Result.ok _ _ = _
    rw [hsize, hclosed.definitions, hw.function_eq]
  have hclose : Compile.closeBody params.length c' =
      (if scope.captures.isEmpty then Compile.emit .constant [index]
        else Compile.emit .closure [index, scope.captures.length]) c₃ :=
    (act_bind_of_ok hleave).trans ((act_bind_of_ok hact₂).trans (act_bind_of_ok hadd))
  have hmake := Follows.make (c := c₃) hw₂.scanned.agrees index scope.captures
  have hlength := hclosed.captures.length_eq
  cases hpush : Fragment.make index scope.captures.length with
  | error e =>
      have hclosing : Fragment.closing site own params events body = .error e := by
        simp [Fragment.closing, hlayout, hlength, hpush, index, Bind.bind, Except.bind]
      rw [hpush] at hmake
      rcases hmake with ⟨c₄, hact₄⟩
      rw [hclosing]
      exact ⟨c₄, hclose.trans hact₄⟩
  | ok push =>
      have hclosing : Fragment.closing site own params events body =
          .ok ⟨loads.instrs ++ push.instrs, body.constants ++ [f]⟩ := by
        simp [Fragment.closing, hlayout, hlength, hpush, index, f, Bind.bind, Except.bind, pure,
          Except.pure]
      rw [hpush] at hmake
      rcases hmake with ⟨c₄, hact₄, hw₄⟩
      rw [hclosing]
      exact ⟨c₄, hclose.trans hact₄, hw.closed hclosed hw₂ hw₄⟩

theorem Follows.functionLiteral {own : Option String} {params : List String} {body : List Stmt}
    {c : Compiler} {site : Site}
    (h : Ready c.symbols site (Event.ofFunction own params (Block.events body)))
    (hc : c.constants.size = site.literals)
    (hbody : Follows (Block.compile body >>= fun _ => Compile.finishBody)
      (c.entered own params) (site.enter own params (Block.events body)) (Block.events body)
      (Block.layout .leave (site.enter own params (Block.events body)) 0 body)) :
    Follows (Compile.functionLiteral own params (Block.compile body)) c site
      (Event.ofFunction own params (Block.events body))
      (Fragment.functionLiteral site own params (Block.events body)
        (Block.layout .leave (site.enter own params (Block.events body)) 0 body)) := by
  let c₁ : Compiler :=
    { c with
      buffer := .empty
      enclosing := c.buffer :: c.enclosing
      symbols := c.symbols.enterNamed own }
  have hopen : ∀ {act : Compile Unit},
      (Compile.enterBody >>= fun _ => Compile.defineOwnName own >>= fun _ => act) c = act c₁ := by
    intro act
    cases own <;> rfl
  rcases h.agrees.enter own [] (Block.events body) with ⟨hagrees, -, -⟩
  have hparams : _ ∧ _ :=
    Compile.defineParams_eq (c := c₁) hagrees rfl (Nat.zero_le _) params
  simp only [List.length_nil, Nat.zero_add] at hparams
  unfold Fragment.functionLiteral
  by_cases hmany : Compile.maxLocals < params.length
  · rcases hparams.2 hmany with ⟨c₂, hact⟩
    rw [if_pos hmany, Compile.functionLiteral_eq]
    exact .error (hopen.trans (act_bind_of_error hact))
  · have hact₁ : Compile.defineParams params c₁ = .ok () (c.entered own params) :=
      hparams.1 (by omega)
    rw [if_neg hmany]
    have hbegin : Compile.functionLiteral own params (Block.compile body) c =
        ((Block.compile body >>= fun _ => Compile.finishBody) >>= fun _ =>
          Compile.closeBody params.length) (c.entered own params) := by
      rw [Compile.functionLiteral_eq, hopen, act_bind_of_ok hact₁, bind_assoc]
    cases hlayout : Block.layout .leave (site.enter own params (Block.events body)) 0 body with
    | error e =>
        rw [hlayout] at hbody
        rcases hbody with ⟨c₂, hact₂⟩
        exact .error (hbegin.trans (act_bind_of_error hact₂))
    | ok b =>
        rw [hlayout] at hbody
        rcases hbody with ⟨c₂, hact₂, hw₂⟩
        -- From here on the enclosing buffer is written again.
        have hclose := Follows.closeBody h hc hw₂
        have hseq : (do let b ← (.ok b : Except CompileError Fragment)
                        Fragment.closing site own params (Block.events body) b) =
            Fragment.closing site own params (Block.events body) b := rfl
        rw [hseq]
        have hend := hbegin.trans (act_bind_of_ok hact₂)
        unfold Follows
        rw [hend]
        exact hclose

/-! ## Statements and expressions -/

mutual

theorem Stmt.compile_follows (stmt : Stmt) {c : Compiler} {site : Site}
    (h : Ready c.symbols site (Stmt.events stmt)) (hc : c.constants.size = site.literals) :
    Follows (Stmt.compile stmt) c site (Stmt.events stmt)
      (Stmt.layout .drop site c.buffer.code.size stmt) := by
  cases stmt with
  | expr value =>
      unfold Stmt.compile Stmt.layout
      exact (Expr.compile_follows none value h hc).bind_emit
  | bind name value =>
      unfold Stmt.compile Stmt.layout
      have hvalue := Expr.compile_follows (some name) value h.left hc
      refine hvalue.bind fun f c' _ hw => ?_
      rw [show Tail.drop.onNothing = [] from rfl, Fragment.seq_nil]
      exact .store hw.scanned.agrees name
  | ret value =>
      unfold Stmt.compile Stmt.layout
      exact (Expr.compile_follows none value h hc).bind_emit

theorem Block.compile_follows (block : List Stmt) {c : Compiler} {site : Site}
    (h : Ready c.symbols site (Block.events block)) (hc : c.constants.size = site.literals) :
    Follows (Block.compile block) c site (Block.events block)
      (Block.layout .drop site c.buffer.code.size block) := by
  cases block with
  | nil => exact .nothing h.agrees
  | cons stmt rest =>
      rw [Block.layout_drop_cons, Block.compile, Block.events]
      refine (Stmt.compile_follows stmt h.left hc).bind fun f c' _ hw => ?_
      rw [← hw.size]
      exact Block.compile_follows rest (h.right hw.scanned) (hw.literals hc)

theorem Expr.compile_follows (own : Option String) (expr : Expr) {c : Compiler} {site : Site}
    (h : Ready c.symbols site (Expr.events own expr)) (hc : c.constants.size = site.literals) :
    Follows (Expr.compile own expr) c site (Expr.events own expr)
      (Expr.layout own site c.buffer.code.size expr) := by
  cases expr with
  | ident name => exact .ident h
  | int n => exact .literal h.agrees hc (.int n)
  | str s => exact .literal h.agrees hc (.str s)
  | bool b => exact .emit h.agrees
  | unary operator operand =>
      unfold Expr.compile Expr.layout
      cases Compile.unaryOpcode? operator with
      | none => exact .error rfl
      | some op => exact (Expr.compile_follows none operand h hc).bind_emit
  | binary left operator right =>
      have hevents : Expr.events own (.binary left operator right) =
          if operator = "<" then Expr.events none right ++ Expr.events none left
          else Expr.events none left ++ Expr.events none right := by
        rw [Expr.events]
      rw [hevents] at h ⊢
      unfold Expr.compile Expr.layout
      by_cases hless : operator = "<"
      · -- The right side is compiled first.
        rw [if_pos hless] at h
        rw [if_pos hless, if_pos hless, if_pos hless]
        refine (Expr.compile_follows none right h.left hc).bind fun f c' _ hw => ?_
        rw [← hw.size]
        exact (Expr.compile_follows none left (h.right hw.scanned) (hw.literals hc)).bind_emit
      · rw [if_neg hless] at h
        rw [if_neg hless, if_neg hless, if_neg hless]
        cases Compile.binaryOpcode? operator with
        | none => exact .error rfl
        | some op =>
            refine (Expr.compile_follows none left h.left hc).bind fun f c' _ hw => ?_
            rw [← hw.size]
            exact (Expr.compile_follows none right (h.right hw.scanned) (hw.literals hc)).bind_emit
  | cond test yes no =>
      cases no with
      | none =>
          have hevents : Expr.events own (.cond test yes none) =
              Expr.events none test ++ Block.events yes ++ [] := by
            rw [Expr.events, List.append_nil]
          rw [hevents] at h ⊢
          unfold Expr.compile Expr.layout
          refine .conditional (Expr.compile_follows none test h.left.left hc) hc ?_ ?_
          · intro c' hs hc'
            exact .branch (Block.compile_follows yes (h.left.right hs) hc')
          · intro c' hs _
            exact Follows.emit hs.agrees
      | some no =>
          have hevents : Expr.events own (.cond test yes (some no)) =
              Expr.events none test ++ Block.events yes ++ Block.events no := by
            rw [Expr.events, List.append_assoc]
          rw [hevents] at h ⊢
          unfold Expr.compile Expr.layout
          refine .conditional (Expr.compile_follows none test h.left.left hc) hc ?_ ?_
          · intro c' hs hc'
            exact .branch (Block.compile_follows yes (h.left.right hs) hc')
          · intro c' hs hc'
            rw [← Site.after_append]
            exact .branch (Block.compile_follows no (h.right hs) hc')
  | function params body =>
      unfold Expr.compile Expr.layout
      refine .functionLiteral h hc (.finishBody rfl ?_)
      exact Block.compile_follows body h.enter hc
  | call callee args =>
      unfold Expr.compile Expr.layout
      refine (Expr.compileList_follows args h.left hc).bind fun f c' _ hw => ?_
      rw [← hw.size]
      exact (Expr.compile_follows none callee (h.right hw.scanned) (hw.literals hc)).bind_emit
  | array elements =>
      unfold Expr.compile Expr.layout
      exact (Expr.compileList_follows elements h hc).bind_emit
  | hash pairs =>
      unfold Expr.compile Expr.layout
      exact (Expr.compilePairs_follows pairs h hc).bind_emit
  | index collection key =>
      unfold Expr.compile Expr.layout
      refine (Expr.compile_follows none collection h.left hc).bind fun f c' _ hw => ?_
      rw [← hw.size]
      exact (Expr.compile_follows none key (h.right hw.scanned) (hw.literals hc)).bind_emit

theorem Expr.compileList_follows (exprs : List Expr) {c : Compiler} {site : Site}
    (h : Ready c.symbols site (Expr.eventsList exprs)) (hc : c.constants.size = site.literals) :
    Follows (Expr.compileList exprs) c site (Expr.eventsList exprs)
      (Expr.layoutList site c.buffer.code.size exprs) := by
  cases exprs with
  | nil => exact .nothing h.agrees
  | cons expr rest =>
      unfold Expr.compileList Expr.layoutList
      refine (Expr.compile_follows none expr h.left hc).bind fun f c' _ hw => ?_
      rw [← hw.size]
      exact Expr.compileList_follows rest (h.right hw.scanned) (hw.literals hc)

theorem Expr.compilePairs_follows (pairs : List (Expr × Expr)) {c : Compiler} {site : Site}
    (h : Ready c.symbols site (Expr.eventsPairs pairs)) (hc : c.constants.size = site.literals) :
    Follows (Expr.compilePairs pairs) c site (Expr.eventsPairs pairs)
      (Expr.layoutPairs site c.buffer.code.size pairs) := by
  match pairs with
  | [] => exact .nothing h.agrees
  | (key, value) :: rest =>
      unfold Expr.compilePairs Expr.layoutPairs
      refine (Expr.compile_follows none key h.left hc).bind fun f c' _ hw => ?_
      rw [← hw.size]
      have hready := h.right hw.scanned
      have hvalue := Expr.compile_follows none value hready.left (hw.literals hc)
      refine hvalue.bind fun g c'' _ hw' => ?_
      rw [← hw'.size]
      exact Expr.compilePairs_follows rest (hready.right hw'.scanned)
        (hw'.literals (hw.literals hc))

end

/-! ## Programs -/

theorem find?_builtins (name : String) (bs : List Builtin) :
    Assoc.find? name (bs.map fun b => (b.name, (⟨b.name, .builtin, b.index⟩ : Symbol))) =
      (bs.find? fun b => b.name == name).map fun b => (Place.builtin b).symbol name := by
  induction bs with
  | nil => rfl
  | cons b rest ih =>
      by_cases h : b.name = name
      · simp [Assoc.find?, h, Place.symbol]
      · simp [Assoc.find?, h, ih]

/-- A fresh table knows the builtins and nothing else. -/
theorem Agrees.initial : Agrees .initial .initial := by
  refine .top rfl rfl rfl fun name => ?_
  have hfind := find?_builtins name Builtin.all
  refine Eq.trans hfind ?_
  simp [Site.outerPlace?, Site.initial, Names.lastIndex?, Builtin.ofName?, Function.comp_def]

/-- Outside of functions nothing is captured. -/
theorem Agrees.ready {table : SymbolTable} {site : Site} (h : Agrees table site)
    (hbody : site.body = none) (events : List Event) : Ready table site events := by
  cases h with
  | inside hsome =>
      rw [hbody] at hsome
      cases hsome
  | @top scope _ _ hdefs hcaps hfind =>
      have hcaptured : site.captured = [] := by simp [Site.captured, hbody]
      refine ⟨.top hbody hdefs hcaps hfind, ?_, ?_⟩
      · intro name _
        simp [hcaptured, SymbolTable.OuterVisible, SymbolTable.outer?]
      · simp [hcaptured, SymbolTable.capturedNames, SymbolTable.scope, hcaps]

/-- A program is compiled as its layout says. -/
theorem Program.compile_follows (program : Program) {symbols : SymbolTable} {site : Site}
    {constants : Array Value} (h : Agrees symbols site) (hbody : site.body = none)
    (hc : constants.size = site.literals) :
    Follows (Block.compile program) (.start symbols constants) site (Block.events program)
      (Block.layout .drop site 0 program) :=
  Block.compile_follows (c := .start symbols constants) program (h.ready hbody _) hc

end MonkeyMachine
