/-!
# The protocol of a run

A run brings two parties together. An `Interpreter` carries out a program step by step; it keeps
the text that the program has written until it is asked for it, and waits for input when the
program reads. A `Host` shows the output, provides the input, and can follow the run line by line.

Both act on one world, of any type: each call takes the world as it is and says what it has become.
During any call somebody may ask for the run to be stopped.
-/

namespace Pseudocod.Run

/-- How things stand with a program after a step. -/
inductive StepState where
  /-- There is more to do. -/
  | running
  /-- The program has come to its end. -/
  | finished
  /-- The program reads, and no input is there. -/
  | awaitingInput
  /-- The program cannot go on. -/
  | failed
deriving DecidableEq, Repr, Inhabited

/-- The answer to a call: a value, the world after the call, and whether a stop was asked for. -/
structure Reply (ω α : Type) where
  value : α
  world : ω
  stop : Bool := false

/-- What an interpreter can be asked to do. -/
structure Interpreter (ω : Type) where
  /-- Forget the program that was loaded and the text that is kept. -/
  reset : ω → Reply ω Unit
  /-- Get ready; the answer is whether that was possible. -/
  init : ω → Reply ω Bool
  /-- Why `init` failed. -/
  initError : ω → Reply ω (Option String)
  /-- Load the program of a source text; the answer is whether that was possible. -/
  load : String → ω → Reply ω Bool
  /-- Why a program could not be loaded or could not go on. -/
  error : ω → Reply ω (Option String)
  /-- Carry out one step. -/
  step : ω → Reply ω StepState
  /-- Whether there is output that was not taken yet. -/
  hasOutput : ω → Reply ω Bool
  /-- Hand out the oldest piece of output. -/
  popOutput : ω → Reply ω (Option String)
  /-- The line of the source that comes next. -/
  currentLine : ω → Reply ω Nat
  /-- Take a line of input. -/
  pushInput : String → ω → Reply ω Unit
  /-- Stop at the next opportunity. -/
  requestStop : ω → Reply ω Unit

/-- What a host can be asked to do. A host need not follow the run: by default nothing happens
when it is told a line, when it is given time for other work, and when it is asked to pause. -/
structure Host (ω : Type) where
  /-- Show a piece of output. -/
  output : String → ω → Reply ω Unit
  /-- Provide a line of input, or none to give up the run. -/
  input : ω → Reply ω (Option String)
  /-- Show which line of the source was reached. -/
  showLine : Nat → ω → Reply ω Unit := fun _ world => { value := (), world }
  /-- See to other work. -/
  yield : ω → Reply ω Unit := fun world => { value := (), world }
  /-- Pause for a number of milliseconds. -/
  delay : Nat → ω → Reply ω Unit := fun _ world => { value := (), world }

end Pseudocod.Run
