import MonkeyMachine.Proofs.LayoutInduction
import MonkeyMachine.Proofs.Naming

/-!
# What instructions do with names

Some instructions bind a name, some read one, and the others have nothing to do with names. The notes
of a construct say for each of its instructions which of these it is, in the order of the code. That
is the order in which the parts are evaluated: the right side of `<` before the left one, and the
arguments of a call before the callee.

`Block.annotates` ties the notes of a block to its code. The instruction that binds a name writes the
next cell, the one that reads a name finds the cell of the last binding that stands before it in the
code, and no other instruction writes a cell.
-/

namespace MonkeyMachine

/-- What an instruction does with a name. -/
inductive Note
  | read (name : String)
  | bind (name : String)
  | other
  deriving DecidableEq

namespace Note

/-- Instructions that have nothing to do with names. -/
def others (is : List Instr) : List Note := is.map fun _ => other

/-- The names bound, in order. -/
def binds : List Note → List String
  | [] => []
  | bind name :: rest => name :: binds rest
  | read _ :: rest => binds rest
  | other :: rest => binds rest

@[simp]
theorem binds_append (xs ys : List Note) : binds (xs ++ ys) = binds xs ++ binds ys := by
  induction xs with
  | nil => rfl
  | cons x xs ih => cases x <;> simp [binds, ih]

@[simp]
theorem binds_others (is : List Instr) : binds (others is) = [] := by
  induction is with
  | nil => rfl
  | cons i is ih => exact ih

@[simp]
theorem binds_map_read (names : List String) : binds (names.map read) = [] := by
  induction names with
  | nil => rfl
  | cons name names ih => exact ih

end Note

/-! ## Notes of a program -/

section Notes

open Note

mutual

def Stmt.notes (tail : Tail) (site : Site) : Stmt → List Note
  | .expr value => Expr.notes none site value ++ others tail.onValue
  | .bind name value => Expr.notes (some name) site value ++ ([bind name] ++ others tail.onNothing)
  | .ret value => Expr.notes none site value ++ others (⟨.returnValue, []⟩ :: tail.onReturn)

/-- The notes of a block. What follows its last statement has nothing to do with names. -/
def Block.notes (tail : Tail) (site : Site) : List Stmt → List Note
  | [] => others tail.onNothing
  | [stmt] => Stmt.notes tail site stmt
  | stmt :: next :: rest =>
      Stmt.notes .drop site stmt ++
        Block.notes tail (site.after (Stmt.events stmt)) (next :: rest)

/-- The notes of an expression. A function literal reads the names that it captures; its body has
notes of its own. -/
def Expr.notes (own : Option String) (site : Site) : Expr → List Note
  | .ident name => [read name]
  | .int _ => [other]
  | .str _ => [other]
  | .bool _ => [other]
  | .unary _ operand => Expr.notes none site operand ++ [other]
  | .binary left operator right =>
      if operator = "<" then
        Expr.notes none site right ++
          (Expr.notes none (site.after (Expr.events none right)) left ++ [other])
      else
        Expr.notes none site left ++
          (Expr.notes none (site.after (Expr.events none left)) right ++ [other])
  | .cond test yes none =>
      Expr.notes none site test ++
        (other :: (Block.notes .keep (site.after (Expr.events none test)) yes ++
          other :: others Tail.keep.onNothing))
  | .cond test yes (some no) =>
      Expr.notes none site test ++
        (other :: (Block.notes .keep (site.after (Expr.events none test)) yes ++
          other :: Block.notes .keep
            ((site.after (Expr.events none test)).after (Block.events yes)) no))
  | .function params body =>
      (site.captures own params (Block.events body)).map read ++ [other]
  | .call callee args =>
      Expr.notesList site args ++
        (Expr.notes none (site.after (Expr.eventsList args)) callee ++ [other])
  | .array elements => Expr.notesList site elements ++ [other]
  | .hash pairs => Expr.notesPairs site pairs ++ [other]
  | .index collection key =>
      Expr.notes none site collection ++
        (Expr.notes none (site.after (Expr.events none collection)) key ++ [other])

def Expr.notesList (site : Site) : List Expr → List Note
  | [] => []
  | expr :: rest =>
      Expr.notes none site expr ++ Expr.notesList (site.after (Expr.events none expr)) rest

def Expr.notesPairs (site : Site) : List (Expr × Expr) → List Note
  | [] => []
  | (key, value) :: rest =>
      Expr.notes none site key ++
        (Expr.notes none (site.after (Expr.events none key)) value ++
          Expr.notesPairs
            ((site.after (Expr.events none key)).after (Expr.events none value)) rest)

end

end Notes

/-! ## Notes and instructions -/

/-- The instruction that pushes what a place holds. -/
def Place.pushes : Place → Instr
  | global slot => ⟨.getGlobal, [slot]⟩
  | cell index => ⟨.getLocal, [index]⟩
  | captured index => ⟨.getFree, [index]⟩
  | self => ⟨.currentClosure, []⟩
  | builtin b => ⟨.getBuiltin, [b.index]⟩

theorem Place.load_eq (place : Place) :
    place.load = Fragment.emit place.pushes.op place.pushes.operands := by
  cases place <;> rfl

namespace Site

/-- The names that the current function has bound so far, parameters included. -/
def names (site : Site) : List String :=
  match site.body with
  | none => site.globals
  | some locals => locals.names

/-- The place of the name that the current function bound as the given one. -/
def slot (site : Site) (index : Nat) : Place :=
  match site.body with
  | none => .global index
  | some _ => .cell index

/-- The instruction that binds the next name. -/
def assigns (site : Site) : Instr :=
  match site.body with
  | none => ⟨.setGlobal, [site.globals.length]⟩
  | some locals => ⟨.setLocal, [locals.names.length]⟩

/-- The point at which more names are bound. -/
def binding (site : Site) (names : List String) : Site := site.after (names.map .bind)

theorem binding_nil (site : Site) : site.binding [] = site := site.after_nil

theorem binding_append (site : Site) (xs ys : List String) :
    site.binding (xs ++ ys) = (site.binding xs).binding ys := by
  rw [binding, List.map_append, after_append]
  rfl

theorem with_literals_binding (site : Site) (n : Nat) (names : List String) :
    ({ site with literals := n } : Site).binding names =
      { site.binding names with literals := n + Event.literals (names.map .bind) } := by
  obtain ⟨globals, literals, _ | locals⟩ := site <;> rfl

theorem after_eq_binding (site : Site) (events : List Event) :
    site.after events =
      { site.binding (Event.binds events) with
        literals := site.literals + Event.literals events } := by
  obtain ⟨globals, literals, _ | locals⟩ := site <;>
    simp [binding, after, Event.binds_map_bind]

end Site

/-- The instruction does what the note says. -/
def Note.Describes (site : Site) (i : Instr) : Note → Prop
  | read name => ∃ place, site.place? name = some place ∧ i = place.pushes
  | bind _ => i = site.assigns
  | other => i.op ≠ .setGlobal ∧ i.op ≠ .setLocal

theorem Note.describes_with_literals {site : Site} {i : Instr} {note : Note}
    (h : note.Describes site i) (n : Nat) : note.Describes { site with literals := n } i := by
  cases note with
  | read name => exact h
  | bind name => exact h
  | other => exact h

/-- An instruction that is noted to bind nothing does not. -/
theorem Note.plain_of_describes {site : Site} {i : Instr} {note : Note} (h : note.Describes site i)
    (hnote : ∀ name, note ≠ .bind name) : i.op ≠ .setGlobal ∧ i.op ≠ .setLocal := by
  cases note with
  | bind name => exact absurd rfl (hnote name)
  | other => exact h
  | read name =>
      rcases h with ⟨place, -, rfl⟩
      cases place <;> simp [Place.pushes]

/-- Each instruction does what its note says. -/
def Noted (site : Site) : List Note → List Instr → Prop
  | [], [] => True
  | note :: notes, i :: is =>
      note.Describes site i ∧ Noted (site.binding (Note.binds [note])) notes is
  | _, _ => False

namespace Noted

variable {site : Site} {notes : List Note} {is : List Instr}

theorem length (h : Noted site notes is) : notes.length = is.length := by
  induction notes generalizing site is with
  | nil =>
      cases is with
      | nil => rfl
      | cons => exact absurd h id
  | cons note notes ih =>
      cases is with
      | nil => exact absurd h id
      | cons i is => exact congrArg Nat.succ (ih h.2)

theorem append {notes' : List Note} {is' : List Instr} (h : Noted site notes is)
    (h' : Noted (site.binding (Note.binds notes)) notes' is') :
    Noted site (notes ++ notes') (is ++ is') := by
  induction notes generalizing site is with
  | nil =>
      cases is with
      | nil => rwa [show Note.binds [] = [] from rfl, Site.binding_nil] at h'
      | cons => exact absurd h id
  | cons note notes ih =>
      cases is with
      | nil => exact absurd h id
      | cons i is =>
          refine ⟨h.1, ih h.2 ?_⟩
          rw [← Site.binding_append, ← Note.binds_append]
          exact h'

theorem with_literals (h : Noted site notes is) (n : Nat) :
    Noted { site with literals := n } notes is := by
  induction notes generalizing site is n with
  | nil =>
      cases is with
      | nil => trivial
      | cons => exact absurd h id
  | cons note notes ih =>
      cases is with
      | nil => exact absurd h id
      | cons i is =>
          refine ⟨Note.describes_with_literals h.1 n, ?_⟩
          rw [Site.with_literals_binding]
          exact ih h.2 _

/-- What the note of an instruction says, with the names that are bound before it. -/
theorem split {pre post : List Instr} {i : Instr} (h : Noted site notes (pre ++ i :: post)) :
    ∃ note, notes[pre.length]? = some note ∧
      note.Describes (site.binding (Note.binds (notes.take pre.length))) i := by
  induction pre generalizing site notes with
  | nil =>
      cases notes with
      | nil => exact absurd h id
      | cons note notes =>
          refine ⟨note, rfl, ?_⟩
          rw [List.length_nil, List.take_zero, show Note.binds [] = [] from rfl, Site.binding_nil]
          exact h.1
  | cons j pre ih =>
      cases notes with
      | nil => exact absurd h id
      | cons first notes =>
          rcases ih h.2 with ⟨note, hnote, hdescribes⟩
          refine ⟨note, hnote, ?_⟩
          rw [← Site.binding_append, ← Note.binds_append] at hdescribes
          exact hdescribes

end Noted

/-! ## Annotated code -/

/-- The value is no function, or the one that some function literal compiles to. -/
def Value.FromLiteral (v : Value) : Prop :=
  ∀ id f, v = .function id f →
    ∃ (site : Site) (own : Option String) (params : List String) (body : List Stmt) (code : Fragment),
      Block.layout .leave (site.enter own params (Block.events body)) 0 body = .ok code ∧
        f = Fragment.function params (Block.events body) code

/-- Code at a site with its notes. `events` are those of the construct that it belongs to. -/
structure Fragment.Annotated (site : Site) (events : List Event) (notes : List Note) (f : Fragment) :
    Prop where
  binds : Note.binds notes = Event.binds events
  noted : Noted site notes f.instrs
  valid : ∀ i ∈ f.instrs, i.Valid
  constants : ∀ v ∈ f.constants, v.FromLiteral

namespace Fragment.Annotated

variable {site : Site} {xs ys : List Event} {ns ms : List Note} {a b : Fragment}

theorem append (h : a.Annotated site xs ns) (h' : b.Annotated (site.after xs) ys ms) :
    (a ++ b).Annotated site (xs ++ ys) (ns ++ ms) := by
  refine ⟨?_, ?_, ?_, ?_⟩
  · rw [Note.binds_append, Event.binds_append, h.binds, h'.binds]
  · apply h.noted.append
    have hnoted := h'.noted
    rw [Site.after_eq_binding, ← h.binds] at hnoted
    exact hnoted.with_literals _
  · intro i hi
    rcases List.mem_append.1 hi with hi | hi
    · exact h.valid i hi
    · exact h'.valid i hi
  · intro v hv
    rcases List.mem_append.1 hv with hv | hv
    · exact h.constants v hv
    · exact h'.constants v hv

/-- An instruction that has nothing to do with names, before other code. -/
theorem cons {op : Opcode} {operands : List Nat}
    (hop : Note.other.Describes site ⟨op, operands⟩) (hvalid : (Instr.mk op operands).Valid)
    (h : b.Annotated site ys ms) :
    (ofInstrs [⟨op, operands⟩] ++ b).Annotated site ys (.other :: ms) := by
  have hfirst : (ofInstrs [⟨op, operands⟩]).Annotated site [] [.other] :=
    ⟨rfl, ⟨hop, trivial⟩, List.forall_mem_singleton.2 hvalid, List.forall_mem_nil _⟩
  apply hfirst.append
  rw [Site.after_nil]
  exact h

end Fragment.Annotated

/-- A layout at a site with the notes of its code. -/
def Annotates (site : Site) (events : List Event) (notes : List Note)
    (layout : Except CompileError Fragment) : Prop :=
  ∀ f, layout = .ok f → f.Annotated site events notes

namespace Annotates

variable {site : Site} {xs ys zs : List Event} {ns ms ks : List Note}

theorem error (site : Site) (events : List Event) (notes : List Note) (e : CompileError) :
    Annotates site events notes (.error e) := by
  intro f h
  cases h

theorem seq {first : Except CompileError Fragment} {second : Fragment → Except CompileError Fragment}
    (h : Annotates site xs ns first)
    (h' : ∀ a, first = .ok a → Annotates (site.after xs) ys ms (second a)) :
    Annotates site (xs ++ ys) (ns ++ ms) (Fragment.seq first second) := by
  intro f hf
  rcases Fragment.seq_eq_ok_iff.1 hf with ⟨a, ha, b, hb, rfl⟩
  exact (h a ha).append (h' a ha b hb)

theorem others {is : List Instr} (his : ∀ i ∈ is, Note.other.Describes site i ∧ i.Valid) :
    Annotates site [] (Note.others is) (.ok (.ofInstrs is)) := by
  intro f hf
  cases hf
  refine ⟨Note.binds_others is, ?_, fun i hi => (his i hi).2, List.forall_mem_nil _⟩
  induction is with
  | nil => trivial
  | cons i is ih =>
      refine ⟨(his i List.mem_cons_self).1, ?_⟩
      rw [show Note.binds [Note.other] = [] from rfl, Site.binding_nil]
      exact ih fun j hj => his j (List.mem_cons_of_mem i hj)

theorem nil (site : Site) : Annotates site [] [] (.ok (.ofInstrs [])) :=
  others (List.forall_mem_nil _)

theorem emit {op : Opcode} (operands : List Nat)
    (hop : Note.other.Describes site ⟨op, operands⟩) :
    Annotates site [] [.other] (Fragment.emit op operands) := by
  intro f hf
  rcases Fragment.emit_eq_ok_iff.1 hf with ⟨hvalid, rfl⟩
  exact ⟨rfl, ⟨hop, trivial⟩, List.forall_mem_singleton.2 hvalid, List.forall_mem_nil _⟩

/-- A last instruction behind other code. -/
theorem seq_emit {first : Except CompileError Fragment} (h : Annotates site xs ns first)
    {op : Opcode} (operands : List Nat)
    (hop : Note.other.Describes (site.after xs) ⟨op, operands⟩) :
    Annotates site xs (ns ++ [.other])
      (Fragment.seq first fun _ => Fragment.emit op operands) := by
  have hseq := h.seq fun _ _ => emit operands hop
  rwa [List.append_nil] at hseq

/-- Last instructions behind other code. -/
theorem seq_others {first : Except CompileError Fragment} (h : Annotates site xs ns first)
    {is : List Instr} (his : ∀ i ∈ is, Note.other.Describes (site.after xs) i ∧ i.Valid) :
    Annotates site xs (ns ++ Note.others is)
      (Fragment.seq first fun _ => .ok (.ofInstrs is)) := by
  have hseq := h.seq fun _ _ => others his
  rwa [List.append_nil] at hseq

theorem load (site : Site) (name : String) :
    Annotates site [.use name] [.read name] (site.load name) := by
  intro f hf
  unfold Site.load at hf
  split at hf
  · cases hf
  · rename_i place hplace
    rw [place.load_eq] at hf
    rcases Fragment.emit_eq_ok_iff.1 hf with ⟨hvalid, rfl⟩
    exact ⟨rfl, ⟨⟨place, hplace, rfl⟩, trivial⟩, List.forall_mem_singleton.2 hvalid,
      List.forall_mem_nil _⟩

theorem loadAll (site : Site) (names : List String) :
    Annotates site (names.map .use) (names.map .read) (site.loadAll names) := by
  induction names with
  | nil => exact nil site
  | cons name names ih =>
      refine seq (load site name) fun _ _ => ?_
      rw [Site.after_eq_binding, show Event.binds [Event.use name] = [] from rfl, Site.binding_nil]
      exact ih

theorem store (site : Site) (name : String) :
    Annotates site [.bind name] [.bind name] site.store := by
  intro f hf
  obtain ⟨hvalid, rfl⟩ : site.assigns.Valid ∧ f = .ofInstrs [site.assigns] := by
    cases hbody : site.body with
    | none =>
        simp only [Site.store, hbody] at hf
        simp only [Site.assigns, hbody]
        exact Fragment.emit_eq_ok_iff.1 hf
    | some locals =>
        simp only [Site.store, hbody] at hf
        simp only [Site.assigns, hbody]
        by_cases hroom : locals.names.length < Compile.maxLocals
        · rw [if_pos hroom] at hf
          exact Fragment.emit_eq_ok_iff.1 hf
        · rw [if_neg hroom] at hf
          cases hf
  exact ⟨rfl, ⟨rfl, trivial⟩, List.forall_mem_singleton.2 hvalid, List.forall_mem_nil _⟩

theorem literal (site : Site) {v : Value} (hv : v.FromLiteral) :
    Annotates site [.literal] [.other] (Fragment.literal site v) := by
  intro f hf
  unfold Fragment.literal at hf
  cases hemit : Fragment.emit .constant [site.literals] with
  | error e =>
      rw [hemit] at hf
      cases hf
  | ok push =>
      rw [hemit] at hf
      cases hf
      have hother : Note.other.Describes site ⟨.constant, [site.literals]⟩ := by
        simp [Note.Describes]
      have hpush := emit _ hother push hemit
      exact ⟨rfl, hpush.noted, hpush.valid, List.forall_mem_singleton.2 hv⟩

theorem conditional {start : Nat} {test : Except CompileError Fragment}
    {yes no : Nat → Except CompileError Fragment} (htest : Annotates site xs ns test)
    (hyes : ∀ here, Annotates (site.after xs) ys ms (yes here))
    (hno : ∀ here, Annotates ((site.after xs).after ys) zs ks (no here)) :
    Annotates site (xs ++ (ys ++ zs)) (ns ++ (.other :: (ms ++ .other :: ks)))
      (Fragment.conditional start test yes no) := by
  intro f hf
  rcases Fragment.conditional_eq_ok hf with
    ⟨t, y, n, toNo, toFinish, ht, hy, hn, -, -, hskip, hleave, rfl⟩
  have hjump : ∀ {site : Site} (op : Opcode) (target : Nat), op ∈ [Opcode.jump, .jumpNotTruthy] →
      Note.other.Describes site ⟨op, [target]⟩ := by
    intro site op target hop
    constructor <;> rintro rfl <;> simp at hop
  have hno' := Fragment.Annotated.cons (hjump .jump toFinish (by simp)) hleave (hno _ n hn)
  have hyes' := Fragment.Annotated.cons (hjump .jumpNotTruthy toNo (by simp)) hskip
    ((hyes _ y hy).append hno')
  exact (htest t ht).append hyes'

/-- The code that makes a function reads what the function captures. -/
theorem functionLiteral {own : Option String} {params : List String} {body : List Stmt}
    (hbody : Annotates (site.enter own params (Block.events body)) ys ms
      (Block.layout .leave (site.enter own params (Block.events body)) 0 body)) :
    Annotates site (Event.ofFunction own params (Block.events body))
      ((site.captures own params (Block.events body)).map .read ++ [.other])
      (Fragment.functionLiteral site own params (Block.events body)
        (Block.layout .leave (site.enter own params (Block.events body)) 0 body)) := by
  intro f hf
  rcases Fragment.functionLiteral_eq_ok hf with ⟨b, loads, push, -, hb, hloads, hpush, rfl⟩
  have hmake : push.Annotated (site.after ((site.captures own params (Block.events body)).map .use))
      [] [.other] := by
    -- With and without captures, the instruction that makes the function notes nothing.
    unfold Fragment.make at hpush
    split at hpush
    · exact emit _ (by simp [Note.Describes]) push hpush
    · exact emit _ (by simp [Note.Describes]) push hpush
  have hall := (loadAll site _ loads hloads).append hmake
  refine ⟨?_, hall.noted, hall.valid, ?_⟩
  · simp [Event.ofFunction, Note.binds]
  · intro v hv
    rcases List.mem_append.1 hv with hv | hv
    · exact (hbody b hb).constants v hv
    · rintro id f rfl
      cases List.mem_singleton.1 hv
      exact ⟨site, own, params, body, b, hb, rfl⟩

end Annotates

/-! ## All code is annotated -/

theorem Tail.onValue_other (tail : Tail) (site : Site) :
    ∀ i ∈ tail.onValue, Note.other.Describes site i ∧ i.Valid := by
  cases tail <;> simp [Tail.onValue, Note.Describes, Instr.Valid, Opcode.widths, Opcode.layout]

theorem Tail.onNothing_other (tail : Tail) (site : Site) :
    ∀ i ∈ tail.onNothing, Note.other.Describes site i ∧ i.Valid := by
  cases tail <;> simp [Tail.onNothing, Note.Describes, Instr.Valid, Opcode.widths, Opcode.layout]

theorem Tail.onReturn_other (tail : Tail) (site : Site) :
    ∀ i ∈ Instr.mk .returnValue [] :: tail.onReturn, Note.other.Describes site i ∧ i.Valid := by
  cases tail <;> simp [Tail.onReturn, Note.Describes, Instr.Valid, Opcode.widths, Opcode.layout]

theorem Value.fromLiteral_of_ne {v : Value} (h : ∀ id f, v ≠ .function id f) : v.FromLiteral :=
  fun id f hv => absurd hv (h id f)

open Annotates

-- By recursion on the text. In each case the notes, the events and the code are put together in the
-- same order, so a part is annotated at the site behind the parts before it.
mutual

theorem Stmt.annotates (stmt : Stmt) (tail : Tail) (site : Site) (start : Nat) :
    Annotates site (Stmt.events stmt) (Stmt.notes tail site stmt)
      (Stmt.layout tail site start stmt) := by
  cases stmt with
  | expr value =>
      rw [Stmt.layout, Stmt.events, Stmt.notes]
      exact (Expr.annotates none value site start).seq_others (tail.onValue_other _)
  | bind name value =>
      rw [Stmt.layout, Stmt.events, Stmt.notes]
      exact (Expr.annotates (some name) value site start).seq fun _ _ =>
        (store _ name).seq_others (tail.onNothing_other _)
  | ret value =>
      rw [Stmt.layout, Stmt.events, Stmt.notes]
      exact (Expr.annotates none value site start).seq_others (tail.onReturn_other _)

theorem Block.annotates (block : List Stmt) (tail : Tail) (site : Site) (start : Nat) :
    Annotates site (Block.events block) (Block.notes tail site block)
      (Block.layout tail site start block) := by
  cases block with
  | nil =>
      rw [Block.layout, Block.events, Block.notes]
      exact others (tail.onNothing_other _)
  | cons stmt rest =>
      cases rest with
      | nil =>
          rw [Block.layout, Block.events, Block.events, Block.notes, List.append_nil]
          exact Stmt.annotates stmt tail site start
      | cons next rest =>
          rw [Block.layout, Block.events, Block.notes]
          exact (Stmt.annotates stmt .drop site start).seq fun _ _ =>
            Block.annotates (next :: rest) tail _ _

theorem Expr.annotates (own : Option String) (expr : Expr) (site : Site) (start : Nat) :
    Annotates site (Expr.events own expr) (Expr.notes own site expr)
      (Expr.layout own site start expr) := by
  cases expr with
  | ident name =>
      rw [Expr.layout, Expr.events, Expr.notes]
      exact load site name
  | int n =>
      rw [Expr.layout, Expr.events, Expr.notes]
      exact literal site (Value.fromLiteral_of_ne (by simp))
  | str s =>
      rw [Expr.layout, Expr.events, Expr.notes]
      exact literal site (Value.fromLiteral_of_ne (by simp))
  | bool b =>
      rw [Expr.layout, Expr.events, Expr.notes]
      exact emit [] (by cases b <;> simp [Note.Describes])
  | unary operator operand =>
      rw [Expr.layout, Expr.events, Expr.notes]
      cases hop : Compile.unaryOpcode? operator with
      | none => exact error site _ _ _
      | some op =>
          refine (Expr.annotates none operand site start).seq_emit [] ?_
          have hmem := Compile.unaryOpcode?_mem hop
          simp only [List.mem_cons, List.not_mem_nil, or_false] at hmem
          rcases hmem with rfl | rfl <;> simp [Note.Describes]
  | binary left operator right =>
      rw [Expr.layout, Expr.events, Expr.notes]
      by_cases hless : operator = "<"
      · rw [if_pos hless, if_pos hless, if_pos hless]
        exact (Expr.annotates none right site start).seq fun _ _ =>
          (Expr.annotates none left _ _).seq_emit [] (by simp [Note.Describes])
      · rw [if_neg hless, if_neg hless, if_neg hless]
        cases hop : Compile.binaryOpcode? operator with
        | none => exact error site _ _ _
        | some op =>
            refine (Expr.annotates none left site start).seq fun _ _ =>
              (Expr.annotates none right _ _).seq_emit [] ?_
            have hmem := Compile.binaryOpcode?_mem hop
            simp only [List.mem_cons, List.not_mem_nil, or_false] at hmem
            rcases hmem with rfl | rfl | rfl | rfl | rfl | rfl | rfl <;> simp [Note.Describes]
  | cond test yes no =>
      cases no with
      | none =>
          rw [Expr.layout, Expr.events, Expr.notes]
          have htest := Expr.annotates none test site start
          rw [← List.append_nil (Block.events yes)]
          exact conditional htest (fun here => Block.annotates yes .keep _ here)
            (fun _ => others (Tail.keep.onNothing_other _))
      | some no =>
          rw [Expr.layout, Expr.events, Expr.notes]
          exact conditional (Expr.annotates none test site start)
            (fun here => Block.annotates yes .keep _ here)
            (fun here => Block.annotates no .keep _ here)
  | function params body =>
      rw [Expr.layout, Expr.events, Expr.notes]
      exact functionLiteral (Block.annotates body .leave _ 0)
  | call callee args =>
      rw [Expr.layout, Expr.events, Expr.notes]
      exact (Expr.annotatesList args site start).seq fun _ _ =>
        (Expr.annotates none callee _ _).seq_emit _ (by simp [Note.Describes])
  | array elements =>
      rw [Expr.layout, Expr.events, Expr.notes]
      exact (Expr.annotatesList elements site start).seq_emit _ (by simp [Note.Describes])
  | hash pairs =>
      rw [Expr.layout, Expr.events, Expr.notes]
      exact (Expr.annotatesPairs pairs site start).seq_emit _ (by simp [Note.Describes])
  | index collection key =>
      rw [Expr.layout, Expr.events, Expr.notes]
      exact (Expr.annotates none collection site start).seq fun _ _ =>
        (Expr.annotates none key _ _).seq_emit _ (by simp [Note.Describes])

theorem Expr.annotatesList (exprs : List Expr) (site : Site) (start : Nat) :
    Annotates site (Expr.eventsList exprs) (Expr.notesList site exprs)
      (Expr.layoutList site start exprs) := by
  cases exprs with
  | nil =>
      rw [Expr.layoutList, Expr.eventsList, Expr.notesList]
      exact nil site
  | cons expr rest =>
      rw [Expr.layoutList, Expr.eventsList, Expr.notesList]
      exact (Expr.annotates none expr site start).seq fun _ _ => Expr.annotatesList rest _ _

theorem Expr.annotatesPairs (pairs : List (Expr × Expr)) (site : Site) (start : Nat) :
    Annotates site (Expr.eventsPairs pairs) (Expr.notesPairs site pairs)
      (Expr.layoutPairs site start pairs) := by
  cases pairs with
  | nil =>
      rw [Expr.layoutPairs, Expr.eventsPairs, Expr.notesPairs]
      exact nil site
  | cons pair rest =>
      obtain ⟨key, value⟩ := pair
      rw [Expr.layoutPairs, Expr.eventsPairs, Expr.notesPairs]
      exact (Expr.annotates none key site start).seq fun _ _ =>
        (Expr.annotates none value _ _).seq fun _ _ => Expr.annotatesPairs rest _ _

end

end MonkeyMachine
