import MonkeyMachine.Proofs.Incremental

/-!
# Dead slots of the stack

A slot at or above the height of the stack holds whatever was there before: nothing clears it when a
value is popped, and a call grows the stack over it. Code that the compiler writes cannot tell. Two
machines that start the same program with different values in these slots end alike, print the same
and leave the same globals, and the same value is popped last.

The two machines run in lockstep, with the program as a part of itself. `Machine.Alike` asks their
stacks to agree on the live slots only, and a step never makes a slot live without writing it.

This is true of code that the compiler has written, and a program also runs the code of the
functions that it finds in its global store. So the functions there have to be the compiler's too:
`Bytecode.Owns`. A function of another origin can read any slot, and
`Session.foreign_function_shows_dead_slot` is a program that calls one.
-/

namespace MonkeyMachine

/-- All of a code, as a part of itself. -/
def Code.Sound.embedding {s : Setting} {code : Code} (h : code.Sound s) : Embedding where
  part := code
  whole := code
  offset := 0
  holds := by
    rw [Instr.map_shift_zero]
    exact Code.Holds.of_assemble h.valid h.complete

namespace Machine

variable {w : World} {b : Bytecode} {globals : Globals} {limits : Limits} {created : Nat}

/-- A machine about to run a program, with any values in the slots of its stack. -/
def loadOn (items : Array Value) (b : Bytecode) (globals : Globals) (limits : Limits)
    (created : Nat) : Machine :=
  { load b globals limits 0 created with stack := { items, height := 0 } }

example (created : Nat) : loadOn (Array.replicate limits.stackSize .null) b globals limits created =
    load b globals limits 0 created := rfl

/-- With nothing live, the slots can hold anything. -/
theorem Sound.on_items (h : (load b globals limits 0 created).Sound w) (items : Array Value) :
    (loadOn items b globals limits created).Sound w := by
  rcases h.stack with ⟨values, hlive, hvalues, hcalls⟩
  obtain rfl : values = [] := List.eq_nil_of_length_eq_zero hlive.1.symm
  exact { h with stack := ⟨[], ⟨rfl, List.nil_prefix⟩, hvalues, hcalls⟩ }

theorem Sound.code_sound (h : (load b globals limits 0 created).Sound w) :
    ∃ s, b.code.Sound s := by
  rcases h.stack with ⟨_, -, -, hcalls⟩
  rcases hcalls.current with ⟨_, _, _, hrole, -⟩
  rcases hrole.code h.world with ⟨_, -, hcode⟩
  exact ⟨_, hcode⟩

theorem loadOn_alike {s : Setting} (hcode : b.code.Sound s) (globals : Globals) (limits : Limits)
    (created : Nat) {items items' : Array Value} (hsize : items'.size = items.size) :
    Alike hcode.embedding "" 0 (loadOn items b globals limits created)
      (loadOn items' b globals limits created) where
  globals := rfl
  created := rfl
  output := rfl
  constants := List.prefix_refl _
  maxFrames := rfl
  stack := by
    -- No slot is live yet, so there is nothing to agree on.
    refine ⟨hsize, rfl, ?_⟩
    rintro slot (hslot | hslot)
    · exact absurd hslot (Nat.not_lt_zero slot)
    · exact absurd hslot (Nat.not_lt_zero slot)
  calls := .outermost 0

/-- Two runs from different dead slots. Any code at all leaves a value of its own as the one popped
last. -/
theorem Sound.run_on_items (h : (load b globals limits 0 created).Sound w)
    {items items' : Array Value} (hsize : items'.size = items.size) :
    ∃ ending final final', ending ≠ .outOfFuel ∧
      (∀ fuel, b.bound limits ≤ fuel →
        (loadOn items b globals limits created).run fuel = (ending, final) ∧
          (loadOn items' b globals limits created).run fuel = (ending, final')) ∧
      Even "" final final' ∧ (0 < b.code.size → Alike.SameResult ending final final') := by
  rcases h.code_sound with ⟨s, hcode⟩
  have halike := loadOn_alike hcode globals limits created hsize
  rcases load_ends_on (h.on_items items) with ⟨ending, final, hending, hrun⟩
  rcases load_ends_on (h.on_items items') with ⟨ending', final', hending', hrun'⟩
  have hboth : ∀ fuel, b.bound limits ≤ fuel →
      (loadOn items b globals limits created).run fuel = (ending, final) ∧
        (loadOn items' b globals limits created).run fuel = (ending', final') :=
    fun fuel hfuel => ⟨hrun fuel hfuel, hrun' fuel hfuel⟩
  rcases hboth _ (Nat.le_refl _) with ⟨hrun, hrun'⟩
  by_cases hempty : b.code.size = 0
  · -- Without code both runs end where they start.
    have hends : (loadOn items b globals limits created).EndsAs .finished _ :=
      Exec.step_at_end (Nat.le_of_eq hempty) rfl
    have hends' : (loadOn items' b globals limits created).EndsAs .finished _ :=
      Exec.step_at_end (Nat.le_of_eq hempty) rfl
    obtain ⟨rfl, rfl⟩ := run_unique hrun hending (.refl _) hends (by simp)
    obtain ⟨rfl, rfl⟩ := run_unique hrun' hending' (.refl _) hends' (by simp)
    exact ⟨_, _, _, hending, hboth, halike.toEven, fun hpos => absurd hempty (Nat.ne_of_gt hpos)⟩
  · rcases reaches_of_run hrun with ⟨last, hreaches, hends⟩
    rcases halike.run (h.on_items items) rfl rfl (Nat.pos_of_ne_zero hempty) (Nat.le_refl _) hreaches
      hends hending with ⟨last', stop, hreaches', hends', heven, hresult⟩
    obtain ⟨rfl, rfl⟩ := run_unique hrun' hending' hreaches' hends' hending
    exact ⟨_, _, _, hending, hboth, heven, fun _ => hresult⟩

end Machine

/-! ## Programs -/

/-- Every function in the store is one that the compiler has written for the bytecode. In an array, in
a hash or among the captured values of a closure too, functions are constants of the bytecode, and
each closure has captured as much as its code reads. `made` lists the arrays, hashes and closures by
their serial numbers. -/
def Bytecode.Owns (b : Bytecode) (made : List Value) (globals : Globals) : Prop :=
  ∀ v, some v ∈ globals.slots → v.Sound { pool := b.constants.toList, globals := 0, made }

namespace Session

variable {session : Session} {program : Program} {c : Compiler} {made : List Value}

/-- What a session has stored is owned by the bytecode of its next program. -/
theorem Compiled.owns {w w' : World} (hc : Compiled w w' c) (h : session.Sound w) :
    c.bytecode.Owns w.made session.globals := by
  intro v hv
  refine (h.globals v hv).extend ?_ (List.prefix_refl _)
  show w.pool <+: c.constants.toList
  rw [hc.pool]
  exact hc.larger.pool

/-- The machine that runs a program on a store whose functions are its own. -/
theorem Compiled.load_owned {w w' : World} (hc : Compiled w w' c) (limits : Limits)
    {globals : Globals} (howns : c.bytecode.Owns made globals) :
    (Machine.load c.bytecode globals limits 0 made.length).Sound { w' with made } := by
  refine Machine.load_sound limits 0 hc.world hc.code hc.pool rfl ?_
  intro v hv
  refine (howns v hv).extend ?_ (List.prefix_refl _)
  show c.constants.toList <+: w'.pool
  rw [hc.pool]

/-- A program with a statement has code. -/
theorem Sound.code_pos {w : World} (h : session.Sound w)
    (hc : (Block.compile program).run (.start session.symbols session.constants) = .ok () c)
    (hne : program ≠ []) : 0 < c.buffer.code.size := by
  rcases h.names with ⟨site, hagrees, hbody, hliterals⟩
  rcases Program.compile_layout hagrees hbody hliterals hc with ⟨f, hw, hlayout, -, -⟩
  rw [hw.size]
  exact Nat.lt_add_left _ (Block.layout_size_pos hne hlayout)

/-- No value leaks from dead slots of the stack. Two runs of a program that start with other values in
these slots, and with the same globals and limits, end alike. The store may hold any data, and any
functions that the bytecode owns. What a session has stored is of this kind. -/
theorem Reached.run_ignores_dead_slots (h : session.Reached)
    (hc : (Block.compile program).run (.start session.symbols session.constants) = .ok () c) :
    (∃ made, made.length = session.created ∧ c.bytecode.Owns made session.globals) ∧
      ∀ (limits : Limits) (made : List Value) (globals : Globals), c.bytecode.Owns made globals →
        ∀ items items' : Array Value, items.size = limits.stackSize →
          items'.size = limits.stackSize →
            ∃ ending final final', ending ≠ .outOfFuel ∧
              (∀ fuel, c.bytecode.bound limits ≤ fuel →
                (Machine.loadOn items c.bytecode globals limits made.length).run fuel =
                    (ending, final) ∧
                  (Machine.loadOn items' c.bytecode globals limits made.length).run fuel =
                    (ending, final')) ∧
              final'.output = final.output ∧ final'.globals = final.globals ∧
              (program ≠ [] → ending = .finished → final'.lastPopped = final.lastPopped) := by
  rcases h.sound with ⟨w, hw⟩
  rcases hw.compile hc with ⟨w', hcompiled⟩
  refine ⟨⟨w.made, hw.made, hcompiled.owns hw⟩, ?_⟩
  intro limits made globals howns items items' hitems hitems'
  have hload := hcompiled.load_owned limits howns
  rcases hload.run_on_items (hitems'.trans hitems.symm) with
    ⟨ending, final, final', hending, hruns, heven, hresult⟩
  refine ⟨ending, final, final', hending, hruns, ?_, heven.globals, ?_⟩
  · rw [heven.output, String.empty_append]
  · intro hne
    exact hresult (hw.code_pos hc hne)

/-- The locals of the second function are where those of the first one were, and `x` is read before it
is bound. The host has put an array into the store, with the first function in it. -/
theorem Reached.run_ignores_dead_slots_of_unbound_local :
    ∃ (program : Program) (c : Compiler) (f data : Value) (globals : Globals) (limits : Limits),
      program =
        [.bind "f" (.function ["a"] [.bind "b" (.binary (.ident "a") "+" (.int 1)),
            .expr (.ident "b")]),
          .expr (.call (.ident "f") [.int 1]),
          .bind "g" (.function [] [.expr (.cond (.bool false) [.bind "x" (.int 1)] none),
            .expr (.ident "x")]),
          .expr (.call (.ident "g") [])] ∧
      (Block.compile program).run .initial = .ok () c ∧
      c.constants[1]? = some f ∧ data = .array (.created 0) #[.int 3, f] ∧
      globals = { slots := #[none, none, none, some data] } ∧
      limits = { stackSize := 8, globalsSize := 4, maxFrames := 4 } ∧
      c.bytecode.Owns [data] globals ∧
      ∃ ending final final', ending ≠ .outOfFuel ∧
        (∀ fuel, c.bytecode.bound limits ≤ fuel →
          (Machine.loadOn (Array.replicate 8 (.int 7)) c.bytecode globals limits 1).run fuel =
              (ending, final) ∧
            (Machine.loadOn (Array.replicate 8 .null) c.bytecode globals limits 1).run fuel =
              (ending, final')) ∧
        final'.output = final.output ∧ final'.globals = final.globals ∧
        (ending = .finished → final'.lastPopped = final.lastPopped) := by
  obtain ⟨program, hprogram⟩ : ∃ program : Program, program =
      [.bind "f" (.function ["a"] [.bind "b" (.binary (.ident "a") "+" (.int 1)),
          .expr (.ident "b")]),
        .expr (.call (.ident "f") [.int 1]),
        .bind "g" (.function [] [.expr (.cond (.bool false) [.bind "x" (.int 1)] none),
          .expr (.ident "x")]),
        .expr (.call (.ident "g") [])] := ⟨_, rfl⟩
  have hcompiles : program.compiles .initial = true := by
    rw [hprogram]
    decide +kernel
  have hc := Program.run_of_compiles hcompiles
  obtain ⟨body, hbody⟩ : ∃ body : Function, body =
      { code := (assemble [⟨.getLocal, [0]⟩, ⟨.constant, [0]⟩, ⟨.add, []⟩, ⟨.setLocal, [1]⟩,
          ⟨.getLocal, [1]⟩, ⟨.returnValue, []⟩]).toArray
        numLocals := 2
        numParams := 1 } := ⟨_, rfl⟩
  have hf : (finalState ((Block.compile program).run .initial)).constants[1]? =
      some (.function (.constant 1) body) := by
    rw [hprogram, hbody]
    decide +kernel
  have hinstrs : body.code.instrs = [⟨.getLocal, [0]⟩, ⟨.constant, [0]⟩, ⟨.add, []⟩,
      ⟨.setLocal, [1]⟩, ⟨.getLocal, [1]⟩, ⟨.returnValue, []⟩] :=
    Code.instrs_of_assemble (by decide) (by rw [hbody])
  have hfree : freeCount body.code.instrs = 0 := by
    rw [hinstrs]
    rfl
  have howns : (finalState ((Block.compile program).run .initial)).bytecode.Owns
      [.array (.created 0) #[.int 3, .function (.constant 1) body]]
      { slots := #[none, none, none,
          some (.array (.created 0) #[.int 3, .function (.constant 1) body])] } := by
    intro v hv
    obtain rfl : v = .array (.created 0) #[.int 3, .function (.constant 1) body] := by
      simpa using hv
    refine .array rfl fun u hu => ?_
    obtain rfl | rfl : u = .int 3 ∨ u = .function (.constant 1) body := by
      simpa using hu
    · exact .int 3
    · exact .function ((Array.getElem?_toList ..).trans hf) hfree
  rcases (Reached.run_ignores_dead_slots (.start {}) hc).2
      { stackSize := 8, globalsSize := 4, maxFrames := 4 } _ _ howns
      (Array.replicate 8 (.int 7)) (Array.replicate 8 .null) rfl rfl with
    ⟨ending, final, final', hending, hruns, houtput, hglobals, hlast⟩
  refine ⟨program, _, _, _, _, _, hprogram, hc, hf, rfl, rfl, rfl, howns, ending, final, final',
    hending, hruns, houtput, hglobals, hlast ?_⟩
  rw [hprogram]
  exact List.cons_ne_nil _ _

/-- A program that finds a function of another origin in its store can tell what is in dead slots.
The function has no locals and returns the fourth one. Its name is bound in a branch that is not
taken, so that the store keeps what it was given. -/
theorem foreign_function_shows_dead_slot :
    ∃ (program : Program) (c : Compiler) (foreign : Function) (globals : Globals) (limits : Limits),
      program =
        [.expr (.cond (.bool false) [.bind "f" (.int 1)] none), .expr (.call (.ident "f") [])] ∧
      (Block.compile program).run .initial = .ok () c ∧
      foreign =
        { code := (assemble [⟨.getLocal, [3]⟩, ⟨.returnValue, []⟩]).toArray
          numLocals := 0
          numParams := 0 } ∧
      globals = { slots := #[some (.function (.created 0) foreign)] } ∧
      limits = { stackSize := 8, globalsSize := 1, maxFrames := 2 } ∧
      (∃ final, (Machine.loadOn (Array.replicate 8 (.int 7)) c.bytecode globals limits 1).run 20 =
        (.finished, final) ∧ final.lastPopped = .int 7) ∧
      ∃ final, (Machine.loadOn (Array.replicate 8 .null) c.bytecode globals limits 1).run 20 =
        (.finished, final) ∧ final.lastPopped = .null := by
  have hends : ∀ {answer : Ending × Machine} {v : Value}, answer.1 = .finished →
      answer.2.lastPopped = v → ∃ final, answer = (.finished, final) ∧ final.lastPopped = v :=
    fun hending hlast => ⟨_, Prod.ext hending rfl, hlast⟩
  refine ⟨_, _, _, _, _, rfl, Program.run_of_compiles (by decide +kernel), rfl, rfl, rfl,
    hends ?_ ?_, hends ?_ ?_⟩
  · decide +kernel
  · decide +kernel
  · decide +kernel
  · decide +kernel

end Session

end MonkeyMachine
