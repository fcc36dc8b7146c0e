import Mathlib.Data.List.Perm.Basic
import MonkeyMachine.Proofs.Layout
import MonkeyMachine.Proofs.StackEffects

/-!
# Sound code

What compiled code promises to the machine: it is made of whole instructions, its jumps and its use
of the stack are structured, and every operand names something that is there. `Code.Sound` says this
of one buffer, in a `Setting` that lists what there is to name.

The main results are `Block.layout_sound` and its companions: all code that a layout prescribes is
sound, that of the function literals inside included, and every constant is referred to once.
-/

namespace MonkeyMachine

/-! ## What instructions refer to -/

namespace Instr

/-- The constant that an instruction pushes or makes a closure of. -/
def reference? (i : Instr) : Option Nat :=
  match i.op with
  | .constant | .closure => i.operands.head?
  | _ => none

/-- How many captured values there have to be for an instruction to find its own. -/
def freeNeeded (i : Instr) : Nat :=
  match i.op with
  | .getFree => i.operands.getD 0 0 + 1
  | _ => 0

end Instr

/-- The constants that instructions refer to. -/
def references (is : List Instr) : List Nat := is.filterMap Instr.reference?

@[simp]
theorem references_append (is js : List Instr) :
    references (is ++ js) = references is ++ references js := by
  simp [references]

/-- How many captured values instructions need. -/
def freeCount (is : List Instr) : Nat := (is.map Instr.freeNeeded).foldr max 0

theorem le_freeCount {is : List Instr} {i : Instr} (h : i ∈ is) : i.freeNeeded ≤ freeCount is := by
  induction is with
  | nil => simp at h
  | cons j js ih =>
      have hcons : freeCount (j :: js) = max j.freeNeeded (freeCount js) := rfl
      rw [hcons]
      rcases List.mem_cons.1 h with rfl | hmem
      · exact Nat.le_max_left _ _
      · exact (ih hmem).trans (Nat.le_max_right _ _)

theorem freeCount_le {is : List Instr} {n : Nat} (h : ∀ i ∈ is, i.freeNeeded ≤ n) :
    freeCount is ≤ n := by
  induction is with
  | nil => exact Nat.zero_le n
  | cons j js ih =>
      have hcons : freeCount (j :: js) = max j.freeNeeded (freeCount js) := rfl
      rw [hcons]
      exact Nat.max_le.2 ⟨h j (by simp), ih fun i hi => h i (by simp [hi])⟩

/-! ## Decoded buffers -/

/-- The instruction on a line of a listing. -/
def Line.instr? : Line → Option Instr
  | .instruction _ op operands => some ⟨op, operands⟩
  | _ => none

namespace Code

/-- The instructions of a buffer. -/
def instrs (code : Code) : List Instr := code.lines.filterMap Line.instr?

theorem filterMap_instructionLines (offset : Nat) (is : List Instr) :
    (instructionLines offset is).filterMap Line.instr? = is := by
  induction is generalizing offset with
  | nil => rfl
  | cons i is ih => simp [instructionLines, Line.instr?, ih]

/-- Decoding gives back the instructions that a buffer was written from. -/
theorem instrs_of_assemble {code : Code} {is : List Instr} (hvalid : ∀ i ∈ is, i.Valid)
    (hcode : code.toList = assemble is) : code.instrs = is := by
  rw [instrs, lines_assemble hvalid hcode, filterMap_instructionLines]

end Code

/-- The constants that the code of a value refers to. -/
def Value.references : Value → List Nat
  | .function _ f => MonkeyMachine.references f.code.instrs
  | _ => []

/-- How many captured values the code of a value needs. -/
def Value.freeCount : Value → Nat
  | .function _ f => MonkeyMachine.freeCount f.code.instrs
  | _ => 0

/-! ## Soundness -/

/-- What the instructions of a buffer may refer to. -/
structure Setting where
  pool : List Value
  /-- Number of globals. -/
  globals : Nat
  /-- Number of locals; none outside of functions. -/
  locals : Option Nat
  /-- Number of captured values. -/
  free : Nat

/-- What the operands of an instruction name is there. -/
def Instr.Fits (s : Setting) (i : Instr) : Prop :=
  match i with
  | ⟨.constant, [n]⟩ => ∃ v, s.pool[n]? = some v ∧ v.freeCount = 0
  | ⟨.closure, [n, count]⟩ =>
      0 < count ∧ ∃ id f, s.pool[n]? = some (.function id f) ∧ freeCount f.code.instrs ≤ count
  | ⟨.getLocal, [n]⟩ => ∃ m, s.locals = some m ∧ n < m
  | ⟨.setLocal, [n]⟩ => ∃ m, s.locals = some m ∧ n < m
  | ⟨.getGlobal, [n]⟩ => n < s.globals
  | ⟨.setGlobal, [n]⟩ => s.locals = none ∧ n < s.globals
  | ⟨.getBuiltin, [n]⟩ => n < Builtin.all.length
  | ⟨.getFree, [n]⟩ => n < s.free
  | ⟨.hash, [n]⟩ => 2 ∣ n
  | ⟨.currentClosure, _⟩ => s.locals ≠ none
  | ⟨.returnNull, _⟩ => s.locals ≠ none
  | _ => True

theorem Instr.Fits.freeNeeded_le {s : Setting} {i : Instr} (h : i.Fits s) (hvalid : i.Valid) :
    i.freeNeeded ≤ s.free := by
  obtain ⟨op, operands⟩ := i
  by_cases hop : op = .getFree
  · subst hop
    obtain ⟨n, rfl⟩ : ∃ n, operands = [n] := by
      rcases List.forall₂_cons_left_iff.1 hvalid with ⟨n, rest, -, hrest, rfl⟩
      cases hrest
      exact ⟨n, rfl⟩
    exact h
  · have hzero : (Instr.mk op operands).freeNeeded = 0 := by
      cases op <;> first | rfl | exact absurd rfl hop
    omega

theorem Instr.Fits.with_free {s : Setting} {i : Instr} (h : i.Fits s) {n : Nat}
    (hn : i.freeNeeded ≤ n) : i.Fits { s with free := n } := by
  unfold Instr.Fits at h ⊢
  split at h
  all_goals first | exact h | exact hn

/-- A buffer of whole instructions that does what it should with jumps, stack and operands. -/
structure Code.Sound (s : Setting) (code : Code) : Prop where
  complete : code.toList = assemble code.instrs
  valid : ∀ i ∈ code.instrs, i.Valid
  structured : Structured 0 0 code.instrs
  depth : depth code.instrs = 0
  fits : ∀ i ∈ code.instrs, i.Fits s

theorem Code.Sound.size_eq {s : Setting} {code : Code} (h : code.Sound s) :
    code.size = codeSize code.instrs := by
  rw [← Array.length_toList, h.complete, length_assemble h.valid]

/-- The body of a function literal. -/
structure Function.Sound (pool : List Value) (globals : Nat) (f : Function) : Prop where
  code : f.code.Sound
    { pool, globals, locals := some f.numLocals, free := freeCount f.code.instrs }
  ends : ∃ init op, f.code.instrs = init ++ [⟨op, []⟩] ∧ (op = .returnValue ∨ op = .returnNull)
  params : f.numParams ≤ f.numLocals

/-- The constant of a literal, if its number is `index`. -/
def Value.IsLiteral (pool : List Value) (globals index : Nat) : Value → Prop
  | .int _ | .str _ => True
  | .function id f => id = .constant index ∧ f.Sound pool globals
  | _ => False

/-- The constants of literals that are numbered from `first` on. -/
def Literals (pool : List Value) (globals first : Nat) (vs : List Value) : Prop :=
  ∀ (n : Nat) (v : Value), vs[n]? = some v → v.IsLiteral pool globals (first + n)

namespace Literals

variable {pool vs ws : List Value} {globals first : Nat}

theorem nil : Literals pool globals first [] := by
  intro n v hget
  simp at hget

theorem single {v : Value} (h : v.IsLiteral pool globals first) :
    Literals pool globals first [v] := by
  intro n w hget
  rcases List.getElem?_eq_some_iff.1 hget with ⟨hlt, rfl⟩
  obtain rfl : n = 0 := by simpa using hlt
  exact h

theorem append (h : Literals pool globals first vs)
    (h' : Literals pool globals (first + vs.length) ws) : Literals pool globals first (vs ++ ws) := by
  intro n v hget
  by_cases hlt : n < vs.length
  · rw [List.getElem?_append_left hlt] at hget
    exact h n v hget
  · rw [List.getElem?_append_right (Nat.le_of_not_lt hlt)] at hget
    have hliteral := h' (n - vs.length) v hget
    rwa [show first + vs.length + (n - vs.length) = first + n by omega] at hliteral

end Literals

namespace Fragment

/-- The constants that instructions and functions of a fragment refer to. -/
def allReferences (f : Fragment) : List Nat :=
  references f.instrs ++ f.constants.flatMap Value.references

/-- Code that starts at `start` with `d` values on the stack, leaves `gain` more, and adds `count`
constants, numbered from `first` on. -/
structure Sound (s : Setting) (first count start : Nat) (d gain : Int) (f : Fragment) : Prop where
  length : f.constants.length = count
  valid : ∀ i ∈ f.instrs, i.Valid
  structured : Structured start d f.instrs
  depth : depth f.instrs = gain
  fits : ∀ i ∈ f.instrs, i.Fits s
  constants : Literals s.pool s.globals first f.constants
  references : f.allReferences.Perm (List.range' first count)

namespace Sound

variable {s : Setting} {first count count' start : Nat} {d gain gain' : Int} {f g : Fragment}

theorem nil : (ofInstrs []).Sound s first 0 start d 0 where
  length := rfl
  valid := by simp
  structured := .nil
  depth := rfl
  fits := by simp
  constants := .nil
  references := .nil

/-- A single instruction that is no jump and refers to no constant. -/
theorem single {i : Instr} (hvalid : i.Valid) (hfits : i.Fits s) (hjump : i.target? = none)
    (href : i.reference? = none) (hneeds : (i.needs : Int) ≤ d) :
    (ofInstrs [i]).Sound s first 0 start d i.effect where
  length := rfl
  valid := by simpa using hvalid
  structured := .single hneeds hjump
  depth := by simp
  fits := by simpa using hfits
  constants := .nil
  references := by simp [Fragment.allReferences, MonkeyMachine.references, href]

/-- A single instruction without operands. -/
theorem plain (op : Opcode) (hwidths : op.widths = []) (hfits : (Instr.mk op []).Fits s)
    (hjump : (Instr.mk op []).target? = none) (hneeds : ((Instr.mk op []).needs : Int) ≤ d) :
    (ofInstrs [⟨op, []⟩]).Sound s first 0 start d (Instr.mk op []).effect := by
  have hvalid : (Instr.mk op []).Valid := by
    show List.Forall₂ _ op.widths []
    rw [hwidths]
    exact .nil
  have href : (Instr.mk op []).reference? = none := by
    cases op <;> rfl
  exact .single hvalid hfits hjump href hneeds

theorem append (h : f.Sound s first count start d gain)
    (h' : g.Sound s (first + count) count' (start + f.size) (d + gain) gain') :
    (f ++ g).Sound s first (count + count') start d (gain + gain') where
  length := by simp [h.length, h'.length]
  valid := by
    intro i hi
    rcases List.mem_append.1 hi with hi | hi
    · exact h.valid i hi
    · exact h'.valid i hi
  structured := by
    have hg := h'.structured
    rw [← h.depth] at hg
    exact h.structured.append hg
  depth := by simp [h.depth, h'.depth]
  fits := by
    intro i hi
    rcases List.mem_append.1 hi with hi | hi
    · exact h.fits i hi
    · exact h'.fits i hi
  constants := by
    have hg := h'.constants
    rw [← h.length] at hg
    exact h.constants.append hg
  references := by
    have hperm := h.references.append h'.references
    rw [List.range'_append_1] at hperm
    -- References of instructions and of functions alternate now, so only a permutation is left.
    refine List.Perm.trans ?_ hperm
    simp only [Fragment.allReferences, instrs_append, constants_append, references_append,
      List.flatMap_append, List.append_assoc]
    refine List.Perm.append_left _ ?_
    rw [← List.append_assoc, ← List.append_assoc]
    exact List.Perm.append_right _ List.perm_append_comm

/-- A buffer that was written from a sound fragment. -/
theorem code {code : Code} (h : f.Sound s first count 0 0 0)
    (hcode : code.toList = assemble f.instrs) : code.instrs = f.instrs ∧ code.Sound s := by
  have hinstrs : code.instrs = f.instrs := Code.instrs_of_assemble h.valid hcode
  refine ⟨hinstrs, ?_⟩
  exact
    { complete := by rw [hinstrs, hcode]
      valid := hinstrs ▸ h.valid
      structured := hinstrs ▸ h.structured
      depth := hinstrs ▸ h.depth
      fits := hinstrs ▸ h.fits }

end Sound

end Fragment

/-! ## Names -/

/-- What the names of a site stand for is there. -/
structure Site.Within (s : Setting) (site : Site) : Prop where
  globals : site.globals.length ≤ s.globals
  top : site.body = none → s.locals = none
  inside : ∀ locals, site.body = some locals →
    ∃ m, s.locals = some m ∧ locals.names.length ≤ m ∧ locals.captured.length ≤ s.free

theorem Site.Within.of_after {s : Setting} {site : Site} {events : List Event}
    (h : (site.after events).Within s) : site.Within s := by
  obtain ⟨globals, literals, body⟩ := site
  cases body with
  | none =>
      refine ⟨?_, fun _ => h.top rfl, fun _ hlocals => absurd hlocals (Option.some_ne_none _).symm⟩
      have hglobals := h.globals
      simp only [Site.after, List.length_append] at hglobals
      show globals.length ≤ s.globals
      omega
  | some locals =>
      refine ⟨h.globals, fun hnone => absurd hnone (Option.some_ne_none _), ?_⟩
      rintro _ ⟨rfl⟩
      rcases h.inside _ rfl with ⟨m, hm, hnames, hcaptured⟩
      refine ⟨m, hm, ?_, hcaptured⟩
      simp only [List.length_append] at hnames
      omega

/-- What a name stands for is there. -/
def Place.Fits (s : Setting) : Place → Prop
  | .global slot => slot < s.globals
  | .cell index => ∃ m, s.locals = some m ∧ index < m
  | .captured index => index < s.free
  | .self => s.locals ≠ none
  | .builtin _ => True

theorem Site.Within.outerPlace_fits {s : Setting} {site : Site} (h : site.Within s) {name : String}
    {place : Place} (hplace : site.outerPlace? name = some place) : place.Fits s := by
  unfold Site.outerPlace? at hplace
  split at hplace
  · rename_i slot hslot
    cases hplace
    have := Names.lastIndex?_lt hslot
    have := h.globals
    show slot < s.globals
    omega
  · rcases Option.map_eq_some_iff.1 hplace with ⟨b, -, rfl⟩
    trivial

theorem Site.Within.place_fits {s : Setting} {site : Site} (h : site.Within s) {name : String}
    {place : Place} (hplace : site.place? name = some place) : place.Fits s := by
  unfold Site.place? at hplace
  split at hplace
  · exact h.outerPlace_fits hplace
  · rename_i locals hbody
    rcases h.inside locals hbody with ⟨m, hm, hnames, hcaptured⟩
    rcases Option.or_eq_some_iff.1 hplace with hlocal | ⟨-, houter⟩
    -- A name of the function itself: one of its cells, its own name, or a captured one.
    · unfold Locals.place? at hlocal
      split at hlocal
      · rename_i index hindex
        cases hlocal
        exact ⟨m, hm, (Names.lastIndex?_lt hindex).trans_le hnames⟩
      · split at hlocal
        · cases hlocal
          show s.locals ≠ none
          simp [hm]
        · split at hlocal
          · rename_i hmem
            cases hlocal
            exact (List.idxOf_lt_length_of_mem hmem).trans_le hcaptured
          · cases hlocal
    · exact h.outerPlace_fits houter

theorem Builtin.index_lt (b : Builtin) : b.index < Builtin.all.length := by
  cases b <;> decide

section Parts

variable {s : Setting} {site : Site} {first start : Nat} {d : Int} {f : Fragment}

/-- An instruction that only pushes or works on values, as far as the stack is concerned. -/
theorem Fragment.emit_sound {op : Opcode} {operands : List Nat}
    (h : Fragment.emit op operands = .ok f) (hfits : (Instr.mk op operands).Fits s)
    (hjump : (Instr.mk op operands).target? = none)
    (href : (Instr.mk op operands).reference? = none)
    (hneeds : ((Instr.mk op operands).needs : Int) ≤ d) :
    f.Sound s first 0 start d (Instr.mk op operands).effect := by
  rcases Fragment.emit_eq_ok_iff.1 h with ⟨hvalid, rfl⟩
  exact .single hvalid hfits hjump href hneeds

theorem Place.load_sound {place : Place} (hfits : place.Fits s) (h : place.load = .ok f)
    (hd : 0 ≤ d) : f.Sound s first 0 start d 1 := by
  cases place with
  | global slot => exact Fragment.emit_sound h hfits rfl rfl hd
  | cell index => exact Fragment.emit_sound h hfits rfl rfl hd
  | captured index => exact Fragment.emit_sound h hfits rfl rfl hd
  | self =>
      have hemit : Fragment.emit .currentClosure [] = .ok f := h
      exact Fragment.emit_sound hemit hfits rfl rfl hd
  | builtin b => exact Fragment.emit_sound h b.index_lt rfl rfl hd

theorem Site.load_sound (hw : site.Within s) {name : String} (h : site.load name = .ok f)
    (hd : 0 ≤ d) : f.Sound s first 0 start d 1 := by
  unfold Site.load at h
  split at h
  · cases h
  · rename_i place hplace
    exact Place.load_sound (hw.place_fits hplace) h hd

theorem Site.loadAll_sound (hw : site.Within s) {names : List String}
    (h : site.loadAll names = .ok f) (hd : 0 ≤ d) : f.Sound s first 0 start d names.length := by
  induction names generalizing f start d with
  | nil =>
      cases h
      exact .nil
  | cons name rest ih =>
      rcases Fragment.seq_eq_ok_iff.1 h with ⟨a, ha, b, hb, rfl⟩
      have hfirst : a.Sound s first 0 start d 1 := Site.load_sound hw ha hd
      have hrest : b.Sound s first 0 (start + a.size) (d + 1) rest.length := ih hb (by omega)
      have hall := hfirst.append hrest
      simpa [Int.add_comm] using hall

theorem Site.store_sound {name : String} (hw : (site.after [.bind name]).Within s)
    (h : site.store = .ok f) (hd : 1 ≤ d) : f.Sound s first 0 start d (-1) := by
  unfold Site.store at h
  obtain ⟨globals, literals, body⟩ := site
  cases body with
  | none =>
      have hglobals := hw.globals
      simp only [Site.after, Event.binds, List.length_append, List.length_singleton] at hglobals
      exact Fragment.emit_sound h ⟨hw.top rfl, by show globals.length < _; omega⟩ rfl rfl hd
  | some locals =>
      rcases hw.inside _ rfl with ⟨m, hm, hnames, -⟩
      simp only [Event.binds, List.length_append, List.length_singleton] at hnames
      simp only at h
      split at h
      · exact Fragment.emit_sound h ⟨m, hm, by omega⟩ rfl rfl hd
      · cases h

/-- Constants that stand in the pool from `k` on are found there. -/
theorem getElem?_of_placed {α : Type} {pool : List α} {k : Nat} {before after : List α} {v : α}
    (h : before ++ v :: after <+: pool.drop k) : pool[k + before.length]? = some v := by
  rcases h with ⟨rest, hrest⟩
  rw [← List.getElem?_drop, ← hrest]
  simp

theorem placed_right {α : Type} {pool : List α} {k : Nat} {xs ys : List α}
    (h : xs ++ ys <+: pool.drop k) : ys <+: pool.drop (k + xs.length) := by
  rcases h with ⟨rest, hrest⟩
  refine ⟨rest, ?_⟩
  rw [← List.drop_drop, ← hrest, List.append_assoc, List.drop_left]

/-- A constant of the pool. -/
theorem Fragment.literal_sound {v : Value} (h : Fragment.literal site v = .ok f)
    (hv : v.freeCount = 0) (hcode : v.references = [])
    (hliteral : v.IsLiteral s.pool s.globals site.literals)
    (hpool : f.constants <+: s.pool.drop site.literals) (hd : 0 ≤ d) :
    f.Sound s site.literals 1 start d 1 := by
  unfold Fragment.literal at h
  cases hemit : Fragment.emit .constant [site.literals] with
  | error e =>
      rw [hemit] at h
      cases h
  | ok push =>
      rw [hemit] at h
      rcases Fragment.emit_eq_ok_iff.1 hemit with ⟨hvalid, rfl⟩
      cases h
      have hplaced : [] ++ v :: [] <+: s.pool.drop site.literals := hpool
      have hget : s.pool[site.literals + 0]? = some v := getElem?_of_placed hplaced
      exact
        { length := rfl
          valid := by simpa using hvalid
          structured := .single hd rfl
          depth := rfl
          fits := by
            have hfits : (Instr.mk .constant [site.literals]).Fits s := ⟨v, hget, hv⟩
            simpa using hfits
          constants := .single hliteral
          references := by
            simp [Fragment.allReferences, MonkeyMachine.references, Instr.reference?, hcode] }

/-- The branches of a conditional, from the first jump on. -/
theorem Fragment.Sound.branches {y n : Fragment} {j k toNo toFinish : Nat}
    (hd : 0 ≤ d) (hy : y.Sound s first j (start + 3) d 1) (hn : n.Sound s (first + j) k toNo d 1)
    (htoNo : toNo = start + 3 + y.size + 3) (htoFinish : toFinish = toNo + n.size)
    (hjumpNot : (Instr.mk .jumpNotTruthy [toNo]).Valid)
    (hjump : (Instr.mk .jump [toFinish]).Valid) :
    Fragment.Sound s first (j + k) start (d + 1) 0
      ⟨⟨.jumpNotTruthy, [toNo]⟩ :: (y.instrs ++ ⟨.jump, [toFinish]⟩ :: n.instrs),
        y.constants ++ n.constants⟩ where
  length := by simp [hy.length, hn.length]
  valid := by
    intro i hi
    simp only [List.mem_cons, List.mem_append] at hi
    rcases hi with rfl | hi | rfl | hi
    · exact hjumpNot
    · exact hy.valid i hi
    · exact hjump
    · exact hn.valid i hi
  structured := by
    -- Whichever branch is taken, the value of the test is gone when it starts.
    have hback : d + 1 - 1 = d := by omega
    refine .conditional (by omega) ?_ hy.depth ?_ hn.depth htoNo htoFinish
    · rw [hback]
      exact hy.structured
    · rw [hback]
      exact htoNo ▸ hn.structured
  depth := by
    -- Read straight on, `jump` drops the value of the first branch; the second gives its own.
    have heffect : (Instr.mk .jumpNotTruthy [toNo]).effect = -1 := rfl
    have heffect' : (Instr.mk .jump [toFinish]).effect = -1 := rfl
    simp [heffect, heffect', hy.depth, hn.depth]
  fits := by
    intro i hi
    simp only [List.mem_cons, List.mem_append] at hi
    rcases hi with rfl | hi | rfl | hi
    · trivial
    · exact hy.fits i hi
    · trivial
    · exact hn.fits i hi
  constants := by
    have hconstants := hn.constants
    rw [← hy.length] at hconstants
    exact hy.constants.append hconstants
  references := by
    have hperm := hy.references.append hn.references
    rw [List.range'_append_1] at hperm
    refine List.Perm.trans ?_ hperm
    have hnone : (Instr.mk .jumpNotTruthy [toNo]).reference? = none := rfl
    have hnone' : (Instr.mk .jump [toFinish]).reference? = none := rfl
    simp only [Fragment.allReferences, MonkeyMachine.references, List.filterMap_cons_none hnone,
      List.filterMap_cons_none hnone', List.filterMap_append, List.flatMap_append,
      List.append_assoc]
    refine List.Perm.append_left _ ?_
    rw [← List.append_assoc, ← List.append_assoc]
    exact List.Perm.append_right _ List.perm_append_comm

/-- The instruction that pushes a function of the pool. -/
theorem Fragment.make_sound {index captures : Nat} {id : Identity} {g : Function}
    (h : Fragment.make index captures = .ok f) (hpool : s.pool[index]? = some (.function id g))
    (hfree : freeCount g.code.instrs ≤ captures) (hd : (captures : Int) ≤ d) :
    (∀ i ∈ f.instrs, i.Valid ∧ i.Fits s) ∧ Structured start d f.instrs ∧
      depth f.instrs = 1 - captures ∧ references f.instrs = [index] := by
  unfold Fragment.make at h
  split at h
  -- Nothing is captured, so the function itself is the value.
  · rename_i hzero
    subst hzero
    rcases Fragment.emit_eq_ok_iff.1 h with ⟨hvalid, rfl⟩
    refine ⟨?_, .single hd rfl, rfl, rfl⟩
    intro i hi
    obtain rfl : i = ⟨.constant, [index]⟩ := by simpa using hi
    exact ⟨hvalid, _, hpool, Nat.le_zero.1 hfree⟩
  · rename_i hpos
    rcases Fragment.emit_eq_ok_iff.1 h with ⟨hvalid, rfl⟩
    refine ⟨?_, .single hd rfl, by simp [Instr.effect, Instr.gives, Instr.needs], rfl⟩
    intro i hi
    obtain rfl : i = ⟨.closure, [index, captures]⟩ := by simpa using hi
    exact ⟨hvalid, Nat.pos_of_ne_zero hpos, id, g, hpool, hfree⟩

/-- The function of a sound body needs no more captured values than the body was given. -/
theorem Fragment.Sound.function {params : List String} {events : List Event} {b : Fragment}
    {free first count : Nat}
    (hb : b.Sound
      { s with
        locals := some (params.length + (Event.binds events).length)
        free }
      first count 0 0 0)
    (hends : ∃ init op, b.instrs = init ++ [⟨op, []⟩] ∧ (op = .returnValue ∨ op = .returnNull)) :
    (Fragment.function params events b).code.instrs = b.instrs ∧ freeCount b.instrs ≤ free ∧
      (Fragment.function params events b).Sound s.pool s.globals := by
  have hassembled : (Fragment.function params events b).code.toList = assemble b.instrs := rfl
  rcases hb.code hassembled with ⟨hcode, hsound⟩
  refine ⟨hcode, ?_, ?_⟩
  · exact freeCount_le fun i hi => (hb.fits i hi).freeNeeded_le (hb.valid i hi)
  · exact
      { code :=
          { hsound with
            fits := fun i hi => (hsound.fits i hi).with_free (le_freeCount hi) }
        ends := hcode ▸ hends
        params := Nat.le_add_right _ _ }

/-- A constant behind those of `b` that refers to what the code of `b` refers to, and is itself
referred to. -/
theorem Fragment.allReferences_push {b : Fragment} {first count : Nat} {code : List Instr}
    {v : Value} {gain : Int} (hb : b.Sound s first count start d gain)
    (hcode : references code = [first + count]) (hv : v.references = references b.instrs) :
    (Fragment.mk code (b.constants ++ [v])).allReferences.Perm (List.range' first (count + 1)) := by
  have hinner : (b.constants.flatMap Value.references ++ references b.instrs).Perm
      (List.range' first count) :=
    List.perm_append_comm.trans hb.references
  rw [List.range'_1_concat]
  refine List.Perm.trans ?_ (hinner.append_right [first + count])
  simp only [Fragment.allReferences, hcode, List.flatMap_append, List.flatMap_cons,
    List.flatMap_nil, hv, List.append_nil]
  exact List.perm_append_comm

/-- A function literal whose body is sound. -/
theorem Fragment.functionLiteral_sound {own : Option String} {params : List String}
    {events : List Event} {body : Except CompileError Fragment} (hw : site.Within s) (hd : 0 ≤ d)
    (h : Fragment.functionLiteral site own params events body = .ok f)
    (hpool : f.constants <+: s.pool.drop site.literals)
    (hends : ∀ b, body = .ok b →
      ∃ init op, b.instrs = init ++ [⟨op, []⟩] ∧ (op = .returnValue ∨ op = .returnNull))
    (hbody : ∀ b, body = .ok b → b.constants <+: s.pool.drop site.literals →
      b.Sound
        { s with
          locals := some (params.length + (Event.binds events).length)
          free := (site.captures own params events).length }
        site.literals (Event.literals events) 0 0 0) :
    f.Sound s site.literals (Event.literals events + 1) start d 1 := by
  rcases Fragment.functionLiteral_eq_ok h with ⟨b, loads, push, -, rfl, hloads, hpush, rfl⟩
  have hb := hbody b rfl ((List.prefix_append _ _).trans hpool)
  rcases hb.function (hends b rfl) with ⟨hcode, hfree, hfunction⟩
  have hget : s.pool[site.literals + Event.literals events]? =
      some (.function (.constant (site.literals + Event.literals events))
        (Fragment.function params events b)) := by
    have hplaced := getElem?_of_placed hpool
    rwa [hb.length] at hplaced
  have hl : loads.Sound s site.literals 0 start d (site.captures own params events).length :=
    Site.loadAll_sound hw hloads hd
  have hnone : references loads.instrs = [] := by
    have hperm : loads.allReferences = [] := List.Perm.eq_nil hl.references
    exact (List.append_eq_nil_iff.1 hperm).1
  have hm : _ ∧ Structured (start + loads.size) (d + (site.captures own params events).length)
      push.instrs ∧ _ ∧ _ :=
    Fragment.make_sound (s := s) hpush hget (hcode ▸ hfree) (by omega)
  rcases hm with ⟨hpushFits, hpushStructured, hpushDepth, hpushReferences⟩
  exact
    { length := by simp [hb.length]
      valid := by
        intro i hi
        rcases List.mem_append.1 hi with hi | hi
        · exact hl.valid i hi
        · exact (hpushFits i hi).1
      structured := by
        rw [← hl.depth] at hpushStructured
        exact hl.structured.append hpushStructured
      depth := by
        rw [depth_append, hl.depth, hpushDepth]
        omega
      fits := by
        intro i hi
        rcases List.mem_append.1 hi with hi | hi
        · exact hl.fits i hi
        · exact (hpushFits i hi).2
      constants := by
        refine hb.constants.append (.single ⟨?_, hfunction⟩)
        rw [hb.length]
      references := by
        refine Fragment.allReferences_push hb ?_ ?_
        · rw [references_append, hnone, hpushReferences, List.nil_append]
        · rw [Value.references, hcode] }

end Parts

/-! ## The ends of blocks -/

/-- The values that a block leaves on the stack. -/
def Tail.gain : Tail → Int
  | .keep => 1
  | _ => 0

section Tails

variable {s : Setting} {first start : Nat} {d : Int}

theorem Tail.onValue_sound (tail : Tail) (hd : 1 ≤ d) :
    (Fragment.ofInstrs tail.onValue).Sound s first 0 start d (tail.gain - 1) := by
  cases tail with
  | drop => exact .plain .pop rfl trivial rfl hd
  | keep => exact .nil
  | leave => exact .plain .returnValue rfl trivial rfl hd

theorem Tail.onNothing_sound (tail : Tail) (htail : tail = .leave → s.locals ≠ none) (hd : 0 ≤ d) :
    (Fragment.ofInstrs tail.onNothing).Sound s first 0 start d tail.gain := by
  cases tail with
  | drop => exact .nil
  | keep => exact .plain .pushNull rfl trivial rfl hd
  | leave => exact .plain .returnNull rfl (htail rfl) rfl hd

theorem Tail.onReturn_sound (tail : Tail) (hd : 1 ≤ d) :
    (Fragment.ofInstrs (⟨.returnValue, []⟩ :: tail.onReturn)).Sound s first 0 start d
      (tail.gain - 1) := by
  have hreturn : (Fragment.ofInstrs [⟨.returnValue, []⟩]).Sound s first 0 start d (-1) :=
    .plain .returnValue rfl trivial rfl hd
  cases tail with
  | drop => exact hreturn
  | keep =>
      have hnull : (Fragment.ofInstrs [⟨.pushNull, []⟩]).Sound s first 0 (start + 1) (d + -1) 1 :=
        .plain .pushNull rfl trivial rfl (by show (0 : Int) ≤ _; omega)
      exact hreturn.append hnull
  | leave => exact hreturn

end Tails

/-- The body of a function ends in a return. -/
theorem Stmt.layout_leave_ends {stmt : Stmt} {site : Site} {start : Nat} {f : Fragment}
    (h : Stmt.layout .leave site start stmt = .ok f) :
    ∃ init op, f.instrs = init ++ [⟨op, []⟩] ∧ (op = .returnValue ∨ op = .returnNull) := by
  cases stmt with
  | expr value =>
      unfold Stmt.layout at h
      rcases Fragment.seq_eq_ok_iff.1 h with ⟨a, -, b, hb, rfl⟩
      cases hb
      exact ⟨a.instrs, .returnValue, rfl, .inl rfl⟩
  | bind name value =>
      unfold Stmt.layout at h
      rcases Fragment.seq_eq_ok_iff.1 h with ⟨a, -, b, hb, rfl⟩
      rcases Fragment.seq_eq_ok_iff.1 hb with ⟨a', -, b', hb', rfl⟩
      cases hb'
      refine ⟨a.instrs ++ a'.instrs, .returnNull, ?_, .inr rfl⟩
      simp [Tail.onNothing]
  | ret value =>
      unfold Stmt.layout at h
      rcases Fragment.seq_eq_ok_iff.1 h with ⟨a, -, b, hb, rfl⟩
      cases hb
      exact ⟨a.instrs, .returnValue, rfl, .inl rfl⟩

theorem Block.layout_leave_ends {block : List Stmt} {site : Site} {start : Nat} {f : Fragment}
    (h : Block.layout .leave site start block = .ok f) :
    ∃ init op, f.instrs = init ++ [⟨op, []⟩] ∧ (op = .returnValue ∨ op = .returnNull) := by
  induction block generalizing site start f with
  | nil =>
      cases h
      exact ⟨[], .returnNull, rfl, .inr rfl⟩
  | cons stmt rest ih =>
      cases rest with
      | nil => exact Stmt.layout_leave_ends h
      | cons next rest =>
          unfold Block.layout at h
          rcases Fragment.seq_eq_ok_iff.1 h with ⟨a, -, b, hb, rfl⟩
          rcases ih hb with ⟨init, op, hinit, hop⟩
          refine ⟨a.instrs ++ init, op, ?_, hop⟩
          simp [hinit]

/-! ## Statements and expressions -/

theorem Compile.unaryOpcode?_mem {operator : String} {op : Opcode}
    (h : unaryOpcode? operator = some op) : op ∈ [Opcode.bang, Opcode.minus] := by
  unfold unaryOpcode? at h
  split at h
  · cases h
    simp
  · split at h
    · cases h
      simp
    · cases h

theorem Compile.binaryOpcode?_mem {operator : String} {op : Opcode}
    (h : binaryOpcode? operator = some op) :
    op ∈ [Opcode.add, .sub, .mul, .div, .greaterThan, .equal, .notEqual] := by
  unfold binaryOpcode? at h
  repeat' split at h
  all_goals cases h
  all_goals simp

/-- Wherever the code of a layout starts, it is sound. With `needs` values on the stack it leaves `gain`
more, if its names are within the setting and its constants stand in the pool. -/
def SoundLayout (s : Setting) (site : Site) (events : List Event) (needs gain : Int)
    (layout : LayoutAt) : Prop :=
  ∀ ⦃start : Nat⦄ ⦃d : Int⦄ ⦃f : Fragment⦄, (site.after events).Within s → layout start = .ok f →
    f.constants <+: s.pool.drop site.literals → needs ≤ d →
      f.Sound s site.literals (Event.literals events) start d gain

namespace SoundLayout

variable {s : Setting} {site : Site} {xs ys zs : List Event} {needs needs' gain gain' total : Int}
  {first second test yes no : LayoutAt} {op : Opcode} {operands : List Nat} {is : List Instr}

theorem error (e : CompileError) : SoundLayout s site xs needs gain fun _ => .error e := by
  intro start d f hw hlayout
  cases hlayout

/-- One piece of code behind another. Each finds its constants in the pool. -/
theorem seq (h : SoundLayout s site xs needs gain first)
    (h' : SoundLayout s (site.after xs) ys needs' gain' second) (hneeds : needs' ≤ needs + gain)
    (htotal : gain + gain' = total) :
    SoundLayout s site (xs ++ ys) needs total fun start =>
      Fragment.seq (first start) fun f => second (start + f.size) := by
  intro start d f hw hlayout hpool hd
  rcases Fragment.seq_eq_ok_iff.1 hlayout with ⟨a, ha, b, hb, rfl⟩
  rw [Site.after_append] at hw
  have hfirst := h hw.of_after ha ((List.prefix_append _ _).trans hpool) hd
  have hrest : b.constants <+: s.pool.drop (site.after xs).literals := by
    rw [Site.literals_after, ← hfirst.length]
    exact placed_right hpool
  have hsecond := h' hw hb hrest (show needs' ≤ d + gain by omega)
  rw [Site.literals_after] at hsecond
  rw [Event.literals_append, ← htotal]
  exact hfirst.append hsecond

/-- Instructions behind a piece of code. -/
theorem seq_ofInstrs (h : SoundLayout s site xs needs gain first)
    (his : ∀ {first start : Nat} {d : Int}, needs' ≤ d →
      (Fragment.ofInstrs is).Sound s first 0 start d gain')
    (hneeds : needs' ≤ needs + gain) (htotal : gain + gain' = total) :
    SoundLayout s site xs needs total fun start =>
      Fragment.seq (first start) fun _ => .ok (.ofInstrs is) := by
  have hlast : SoundLayout s (site.after xs) [] needs' gain' fun _ => .ok (.ofInstrs is) := by
    intro start d f _ hlayout _ hd
    cases hlayout
    exact his hd
  have hseq := h.seq hlast hneeds htotal
  rw [List.append_nil] at hseq
  exact hseq

/-- An instruction behind a piece of code. -/
theorem seq_emit (h : SoundLayout s site xs needs gain first) (hfits : (Instr.mk op operands).Fits s)
    (hjump : (Instr.mk op operands).target? = none)
    (href : (Instr.mk op operands).reference? = none)
    (hneeds : ((Instr.mk op operands).needs : Int) ≤ needs + gain)
    (htotal : gain + (Instr.mk op operands).effect = total) :
    SoundLayout s site xs needs total fun start =>
      Fragment.seq (first start) fun _ => Fragment.emit op operands := by
  have hlast : SoundLayout s (site.after xs) [] (Instr.mk op operands).needs _ fun _ =>
      Fragment.emit op operands :=
    fun _ _ _ _ hlayout _ hd => Fragment.emit_sound hlayout hfits hjump href hd
  have hseq := h.seq hlast hneeds htotal
  rw [List.append_nil] at hseq
  exact hseq

theorem above (h : SoundLayout s site xs 0 gain first) (k : Nat) :
    SoundLayout s site xs k gain first :=
  fun _ _ _ hw hlayout hpool hd => h hw hlayout hpool (by omega)

/-- Two operands and the instruction that works on them. -/
theorem operation (h : SoundLayout s site xs 0 1 first)
    (h' : SoundLayout s (site.after xs) ys 0 1 second) (hfits : (Instr.mk op []).Fits s)
    (hjump : (Instr.mk op []).target? = none) (hneeds : (Instr.mk op []).needs = 2)
    (hgives : (Instr.mk op []).gives = 1) :
    SoundLayout s site (xs ++ ys) 0 1 fun start =>
      Fragment.seq (first start) fun f =>
        Fragment.seq (second (start + f.size)) fun _ => Fragment.emit op [] := by
  have href : (Instr.mk op []).reference? = none := by
    cases op <;> rfl
  have heffect : (Instr.mk op []).effect = -1 := by
    simp [Instr.effect, hneeds, hgives]
  refine h.seq ((h'.above 1).seq_emit hfits hjump href ?_ rfl) ?_ ?_
  · rw [hneeds]
    decide
  · decide
  · rw [heffect]
    decide

/-- A conditional. Its branches start with the same values on the stack, and only one is executed. -/
theorem conditional (htest : SoundLayout s site xs 0 1 test)
    (hyes : SoundLayout s (site.after xs) ys 0 1 yes)
    (hno : SoundLayout s ((site.after xs).after ys) zs 0 1 no) :
    SoundLayout s site (xs ++ (ys ++ zs)) 0 1 fun start =>
      Fragment.conditional start (test start) yes no := by
  intro start d f hw hlayout hpool hd
  rcases Fragment.conditional_eq_ok hlayout with
    ⟨t, y, n, toNo, toFinish, ht, hy, hn, htoNo, htoFinish, hjumpNot, hjump, rfl⟩
  rw [Site.after_append, Site.after_append] at hw
  have ht := htest hw.of_after.of_after ht ((List.prefix_append _ _).trans hpool) hd
  have hbranches : y.constants ++ n.constants <+: s.pool.drop (site.after xs).literals := by
    rw [Site.literals_after, ← ht.length]
    exact placed_right hpool
  have hy := hyes hw.of_after hy ((List.prefix_append _ _).trans hbranches) hd
  have hplaced : n.constants <+: s.pool.drop ((site.after xs).after ys).literals := by
    rw [Site.literals_after, ← hy.length]
    exact placed_right hbranches
  have hn := hno hw hn hplaced hd
  rw [Site.literals_after] at hy hn
  rw [Site.literals_after] at hn
  rw [Event.literals_append, Event.literals_append]
  exact ht.append (.branches hd hy hn htoNo htoFinish hjumpNot hjump)

end SoundLayout

mutual

theorem Stmt.layout_sound (stmt : Stmt) {s : Setting} {tail : Tail}
    (htail : tail = .leave → s.locals ≠ none) (site : Site) :
    SoundLayout s site (Stmt.events stmt) 0 tail.gain fun start =>
      Stmt.layout tail site start stmt := by
  have hgain : (1 : Int) + (tail.gain - 1) = tail.gain := by omega
  cases stmt with
  | expr value =>
      simp only [Stmt.layout, Stmt.events]
      exact (Expr.layout_sound none value site).seq_ofInstrs tail.onValue_sound (by omega) hgain
  | bind name value =>
      simp only [Stmt.layout, Stmt.events]
      have hstore : SoundLayout s (site.after (Expr.events (some name) value)) [.bind name] 1 (-1)
          fun _ => (site.after (Expr.events (some name) value)).store :=
        fun _ _ _ hw hlayout _ hd => Site.store_sound hw hlayout hd
      exact (Expr.layout_sound (some name) value site).seq
        (hstore.seq_ofInstrs (tail.onNothing_sound htail) (by omega) rfl) (by omega) (by omega)
  | ret value =>
      simp only [Stmt.layout, Stmt.events]
      exact (Expr.layout_sound none value site).seq_ofInstrs tail.onReturn_sound (by omega) hgain

theorem Block.layout_sound (block : List Stmt) {s : Setting} {tail : Tail}
    (htail : tail = .leave → s.locals ≠ none) (site : Site) :
    SoundLayout s site (Block.events block) 0 tail.gain fun start =>
      Block.layout tail site start block := by
  match block with
  | [] =>
      intro start d f _ hlayout _ hd
      cases hlayout
      exact tail.onNothing_sound htail hd
  | [stmt] =>
      simp only [Block.layout, Block.events, List.append_nil]
      exact Stmt.layout_sound stmt htail site
  | stmt :: next :: rest =>
      rw [Block.events]
      simp only [Block.layout]
      have hdrop : Tail.drop = .leave → s.locals ≠ none := nofun
      exact (Stmt.layout_sound stmt hdrop site).seq (Block.layout_sound (next :: rest) htail _)
        (Int.le_refl 0) (Int.zero_add _)

theorem Expr.layout_sound (own : Option String) (expr : Expr) {s : Setting} (site : Site) :
    SoundLayout s site (Expr.events own expr) 0 1 fun start => Expr.layout own site start expr := by
  cases expr with
  | ident name =>
      intro start d f hw hlayout _ hd
      exact Site.load_sound hw.of_after hlayout hd
  | int n =>
      intro start d f _ hlayout hpool hd
      exact Fragment.literal_sound hlayout rfl rfl trivial hpool hd
  | str t =>
      intro start d f _ hlayout hpool hd
      exact Fragment.literal_sound hlayout rfl rfl trivial hpool hd
  | bool b =>
      intro start d f _ hlayout _ hd
      cases b <;> exact Fragment.emit_sound hlayout trivial rfl rfl hd
  | unary operator operand =>
      simp only [Expr.layout, Expr.events]
      cases hop : Compile.unaryOpcode? operator with
      | none => exact .error _
      | some op =>
          have hoperand := Expr.layout_sound (s := s) none operand site
          have hmem := Compile.unaryOpcode?_mem hop
          simp only [List.mem_cons, List.not_mem_nil, or_false] at hmem
          rcases hmem with rfl | rfl
          all_goals exact hoperand.seq_emit trivial rfl rfl (by decide) rfl
  | binary left operator right =>
      simp only [Expr.layout, Expr.events]
      by_cases hless : operator = "<"
      · simp only [if_pos hless]
        exact (Expr.layout_sound none right site).operation (Expr.layout_sound none left _) trivial
          rfl rfl rfl
      · simp only [if_neg hless]
        cases hop : Compile.binaryOpcode? operator with
        | none => exact .error _
        | some op =>
            have hleft := Expr.layout_sound (s := s) none left site
            have hright := Expr.layout_sound (s := s) none right (site.after (Expr.events none left))
            have hmem := Compile.binaryOpcode?_mem hop
            simp only [List.mem_cons, List.not_mem_nil, or_false] at hmem
            rcases hmem with rfl | rfl | rfl | rfl | rfl | rfl | rfl
            all_goals exact hleft.operation hright trivial rfl rfl rfl
  | cond test yes no =>
      have hkeep : Tail.keep = .leave → s.locals ≠ none := nofun
      have htest := Expr.layout_sound (s := s) none test site
      have hyes := Block.layout_sound yes hkeep (site.after (Expr.events none test))
      cases no with
      | none =>
          simp only [Expr.layout, Expr.events]
          have hno : SoundLayout s ((site.after (Expr.events none test)).after (Block.events yes)) []
              0 1 fun _ => .ok (.ofInstrs Tail.keep.onNothing) := by
            intro start d f _ hlayout _ hd
            cases hlayout
            exact Tail.keep.onNothing_sound hkeep hd
          have hcond := htest.conditional hyes hno
          rw [List.append_nil] at hcond
          exact hcond
      | some no =>
          simp only [Expr.layout, Expr.events]
          exact htest.conditional hyes (Block.layout_sound no hkeep _)
  | function params body =>
      intro start d f hw hlayout hpool hd
      have hcount : Event.literals (Expr.events own (.function params body)) =
          Event.literals (Block.events body) + 1 := by
        rw [Expr.events]
        simp [Event.ofFunction]
      rw [hcount]
      refine Fragment.functionLiteral_sound hw.of_after hd hlayout hpool
        (fun b hb => Block.layout_leave_ends hb) fun b hb hp => ?_
      refine Block.layout_sound body (fun _ => Option.some_ne_none _) _ ?_ hb hp (Int.le_refl 0)
      -- The body is in a setting of its own: it has cells, and the values that it captures.
      refine ⟨hw.of_after.globals, nofun, ?_⟩
      rintro _ ⟨rfl⟩
      exact ⟨_, rfl, by simp, Nat.le_refl _⟩
  | call callee args =>
      simp only [Expr.layout, Expr.events]
      have hfits : (Instr.mk .call [args.length]).Fits s := trivial
      have hcallee := Expr.layout_sound (s := s) none callee (site.after (Expr.eventsList args))
      -- The callee is evaluated above its arguments.
      refine (Expr.layoutList_sound args site).seq
        ((hcallee.above args.length).seq_emit hfits rfl rfl ?_ rfl) ?_ ?_
      · simp [Instr.needs]
      · omega
      · simp [Instr.effect, Instr.gives, Instr.needs]
  | array elements =>
      simp only [Expr.layout, Expr.events]
      refine (Expr.layoutList_sound elements site).seq_emit trivial rfl rfl ?_ ?_
      · simp [Instr.needs]
      · simp [Instr.effect, Instr.gives, Instr.needs]
  | hash pairs =>
      simp only [Expr.layout, Expr.events]
      refine (Expr.layoutPairs_sound pairs site).seq_emit (Nat.dvd_mul_right 2 pairs.length) rfl rfl
        ?_ ?_
      · simp [Instr.needs]
      · simp [Instr.effect, Instr.gives, Instr.needs]
  | index collection key =>
      simp only [Expr.layout, Expr.events]
      exact (Expr.layout_sound none collection site).operation (Expr.layout_sound none key _) trivial
        rfl rfl rfl

theorem Expr.layoutList_sound (exprs : List Expr) {s : Setting} (site : Site) :
    SoundLayout s site (Expr.eventsList exprs) 0 exprs.length fun start =>
      Expr.layoutList site start exprs := by
  match exprs with
  | [] =>
      intro start d f _ hlayout _ _
      cases hlayout
      exact .nil
  | expr :: rest =>
      simp only [Expr.layoutList, Expr.eventsList]
      refine (Expr.layout_sound none expr site).seq (Expr.layoutList_sound rest _) (by decide) ?_
      simp [Int.add_comm]

theorem Expr.layoutPairs_sound (pairs : List (Expr × Expr)) {s : Setting} (site : Site) :
    SoundLayout s site (Expr.eventsPairs pairs) 0 (2 * pairs.length : Nat) fun start =>
      Expr.layoutPairs site start pairs := by
  match pairs with
  | [] =>
      intro start d f _ hlayout _ _
      cases hlayout
      exact .nil
  | (key, value) :: rest =>
      simp only [Expr.layoutPairs, Expr.eventsPairs]
      refine (Expr.layout_sound none key site).seq ((Expr.layout_sound none value _).seq
        (Expr.layoutPairs_sound rest _) (by decide) rfl) (by decide) ?_
      simp only [List.length_cons]
      omega

end

end MonkeyMachine
