import MonkeyMachine.Bytecode
import MonkeyMachine.Machine.Globals
import MonkeyMachine.Machine.Stack

/-!
# The machine

A stack machine in the middle of a run: the constants, the operand stack, the global store, the
calls in progress and what has been printed so far. This file holds the state and the small acts
on it; `MonkeyMachine.Machine.Step` says what each instruction does.
-/

namespace MonkeyMachine

/-- Bounds on what a run may use. -/
structure Limits where
  stackSize : Nat := 2048
  globalsSize : Nat := 65536
  /-- Calls in progress at once, the top-level program included. -/
  maxFrames : Nat := 1024
  deriving DecidableEq

/-- A call in progress. -/
structure Frame where
  /-- The closure that is running: its identity, its body and the values it captured. -/
  id : Identity
  body : Function
  free : List Value
  /-- Where the next instruction starts. -/
  ip : Nat
  /-- The stack slot of the first local. -/
  base : Nat

namespace Frame

/-- The code that the call executes. -/
def code (frame : Frame) : Code := frame.body.code

/-- The closure that is running, as a value. -/
def closure (frame : Frame) : Value := .closure frame.id frame.body frame.free

/-- The call of a closure, at the start of its body. -/
def start (id : Identity) (body : Function) (free : List Value) (base : Nat) : Frame :=
  { id, body, free, ip := 0, base }

/-- The call that a top-level program is: a function without locals. -/
def program (run : Nat) (code : Code) : Frame :=
  start (.program run) { code, numLocals := 0, numParams := 0 } [] 0

end Frame

structure Machine where
  constants : Array Value
  stack : Stack
  globals : Globals
  /-- The running call. -/
  frame : Frame
  /-- The calls that wait for it, outermost first. -/
  callers : Array Frame
  maxFrames : Nat
  /-- Number of composite values made so far. The next one takes this as its serial number. -/
  created : Nat
  output : String

/-- An act of the machine. A fault leaves the machine as it was when the fault arose. -/
abbrev Exec := EStateM Fault Machine

namespace Machine

/-- A machine about to run `bytecode` as its program number `run`. Values made by it are numbered
from `created` on. -/
def load (bytecode : Bytecode) (globals : Globals) (limits : Limits) (run created : Nat) :
    Machine where
  constants := bytecode.constants
  stack := .ofCapacity limits.stackSize
  globals := globals
  frame := .program run bytecode.code
  callers := #[]
  maxFrames := limits.maxFrames
  created := created
  output := ""

/-- The value of the last expression statement. -/
def lastPopped (m : Machine) : Value := m.stack.lastPopped

/-- The machine with the running call at another instruction. -/
def jump (m : Machine) (target : Nat) : Machine :=
  { m with frame := { m.frame with ip := target } }

end Machine

namespace Exec

variable {α : Type}

/-! ## Parts of the machine -/

/-- Act on the stack alone. -/
@[inline]
def onStack (act : Stack.Act α) : Exec α
  | { constants, stack, globals, frame, callers, maxFrames, created, output } =>
      match act stack with
      | .ok a stack =>
          .ok a { constants, stack, globals, frame, callers, maxFrames, created, output }
      | .error fault stack =>
          .error fault { constants, stack, globals, frame, callers, maxFrames, created, output }

/-- Act on the global store alone. -/
@[inline]
def onGlobals (act : Globals.Act α) : Exec α
  | { constants, stack, globals, frame, callers, maxFrames, created, output } =>
      match act globals with
      | .ok a globals =>
          .ok a { constants, stack, globals, frame, callers, maxFrames, created, output }
      | .error fault globals =>
          .error fault { constants, stack, globals, frame, callers, maxFrames, created, output }

theorem onStack_apply (act : Stack.Act α) (m : Machine) :
    onStack act m =
      match act m.stack with
      | .ok a stack => .ok a { m with stack }
      | .error fault stack => .error fault { m with stack } := rfl

theorem onGlobals_apply (act : Globals.Act α) (m : Machine) :
    onGlobals act m =
      match act m.globals with
      | .ok a globals => .ok a { m with globals }
      | .error fault globals => .error fault { m with globals } := rfl

/-- Go on with a result, or raise its fault. -/
def ofResult : Except Fault α → Exec α
  | .ok a => pure a
  | .error fault => throw fault

def push (v : Value) : Exec Unit := onStack (Stack.push v)

def pop : Exec Value := onStack Stack.pop

def popMany (count : Nat) : Exec (List Value) := onStack (Stack.popMany count)

/-- The identity of a value that is about to be made. -/
def fresh : Exec Identity :=
  modifyGet fun m => (.created m.created, { m with created := m.created + 1 })

def print (text : String) : Exec Unit :=
  modify fun m => { m with output := m.output ++ text }

def jump (target : Nat) : Exec Unit := modify fun m => m.jump target

end Exec

end MonkeyMachine
