/-
Module: CodeSplice.Patch.State
Purpose: The progress of a run. A run goes through its stages one by one and strictly forward; it can
  fail at any stage but the last.
Main exports: RunState, RunState.terminal, RunState.mayAdvance
-/

namespace CodeSplice

/-- How far a run has come. -/
inductive RunState where
  | loaded
  | importsPatched
  | methodPatched
  | constructorPatched
  | saved
  /-- The run had no file to work on. -/
  | skipped
  /-- The run has met a fault that stopped it. -/
  | failed
deriving DecidableEq, Repr, Inhabited

namespace RunState

/-- How messages refer to a state. -/
def describe : RunState → String
  | loaded => "loaded"
  | importsPatched => "imports patched"
  | methodPatched => "method patched"
  | constructorPatched => "constructor patched"
  | saved => "saved"
  | skipped => "skipped"
  | failed => "failed"

/-- Whether a run in this state is over. -/
def terminal : RunState → Bool
  | saved | skipped | failed => true
  | _ => false

/-- The stage that comes after a state. -/
def next? : RunState → Option RunState
  | loaded => some importsPatched
  | importsPatched => some methodPatched
  | methodPatched => some constructorPatched
  | constructorPatched => some saved
  | _ => none

/-- Whether a run may go from one state to another: to the next stage, or to failure. -/
def mayAdvance (state next : RunState) : Bool :=
  state.next? == some next || (next == failed && !state.terminal)

/-- Where a run is when it has tried to go to another state. -/
def advance (state next : RunState) : RunState :=
  if state.mayAdvance next then next else state

/-- A run that is over stays where it is. -/
theorem advance_of_terminal {state : RunState} (h : state.terminal = true) (next : RunState) :
    state.advance next = state := by
  cases state <;> simp_all [advance, mayAdvance, next?, terminal]

end RunState

end CodeSplice
