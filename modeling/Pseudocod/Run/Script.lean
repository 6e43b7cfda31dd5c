import Pseudocod.Run.Recorder

/-!
# Scripted runs

An interpreter that plays a script instead of carrying out a program: the script says for every
step how things stand after it and what is written. Together with a recording host it makes runs
whose every call is known, and it can ask for a stop at any of them.

The calls that change something are entered in a log. A stop is asked for when the log gets the
entry of a given name and number; entries are numbered from 1 for each name.
-/

namespace Pseudocod.Run

/-- One step of a script. An output of `none` is a piece that is taken and not there. -/
structure ScriptStep where
  state : StepState
  line : Option Nat := none
  output : List (Option String) := []
deriving DecidableEq, Repr

/-- An entry in the log of a scripted run. -/
inductive Entry where
  | reset
  | init
  | load (source : String)
  | exec
  | push (line : String)
  | requestStop
  | output (text : String)
  | input (line : Option String)
  | line (line : Nat)
  | yield
  | delay (milliseconds : Nat)
deriving DecidableEq, Repr

/-- The name of an entry, by which stops refer to it. -/
def Entry.name : Entry → String
  | .reset => "reset"
  | .init => "init"
  | .load _ => "load"
  | .exec => "exec"
  | .push _ => "push"
  | .requestStop => "request_stop"
  | .output _ => "output"
  | .input _ => "input"
  | .line _ => "line"
  | .yield => "yield"
  | .delay _ => "delay"

/-- What is laid down for one run. -/
structure Script where
  /-- The steps, one after another. -/
  steps : List ScriptStep := []
  /-- How things stand after every further step. -/
  tail : StepState := .finished
  /-- Whether the interpreter gets ready. -/
  initOk : Bool := true
  /-- Why it does not. -/
  initError : Option String := none
  /-- Whether the program is loaded. -/
  loadOk : Bool := true
  /-- Why it is not, or why it cannot go on. -/
  error : Option String := none
  /-- What loading the program writes. -/
  loadOutput : List (Option String) := []
  /-- At which entries of the log a stop is asked for. -/
  stops : List (String × Nat) := []
deriving DecidableEq, Repr, Inhabited

/-- The world of a scripted run: the script with the steps that are left, the line that was
reached, the output that was not taken yet, how often the interpreter was asked to stop, the host,
and the log. -/
structure Stage where
  script : Script := {}
  line : Nat := 0
  queue : List (Option String) := []
  stopRequests : Nat := 0
  recorder : Recorder := {}
  log : List Entry := []
deriving DecidableEq, Repr, Inhabited

namespace Stage

/-- Enters a call in the log and asks for a stop if the script says so. -/
def enter {α : Type} (stage : Stage) (entry : Entry) (value : α) : Reply Stage α :=
  let log := stage.log ++ [entry]
  let number := (log.filter fun other => other.name = entry.name).length
  { value, world := { stage with log }, stop := stage.script.stops.contains (entry.name, number) }

/-- The stage set up for a run with a new script and a new host, on which some output may lie. -/
def prepare (stage : Stage) (script : Script) (recorder : Recorder)
    (staleOutput : List (Option String)) : Stage :=
  { script, line := 0, queue := stage.queue ++ staleOutput, stopRequests := stage.stopRequests
    recorder, log := [] }

/-- The stage after one step of the script. -/
def play (stage : Stage) : StepState × Stage :=
  match stage.script.steps with
  | [] => (stage.script.tail, stage)
  | step :: steps =>
    (step.state,
      { stage with
        script := { stage.script with steps }
        line := step.line.getD stage.line
        queue := stage.queue ++ step.output })

/-- The interpreter that plays the script. -/
def interpreter : Interpreter Stage where
  reset stage := { stage with queue := [] }.enter .reset ()
  init stage := stage.enter .init stage.script.initOk
  initError stage := { value := stage.script.initError, world := stage }
  load source stage :=
    { stage with queue := stage.queue ++ stage.script.loadOutput }.enter (.load source)
      stage.script.loadOk
  error stage := { value := stage.script.error, world := stage }
  step stage :=
    let (state, stage) := stage.play
    stage.enter .exec state
  hasOutput stage := { value := !stage.queue.isEmpty, world := stage }
  popOutput stage :=
    { value := stage.queue.head?.join, world := { stage with queue := stage.queue.tail } }
  currentLine stage := { value := stage.line, world := stage }
  pushInput line stage := stage.enter (.push line) ()
  requestStop stage := { stage with stopRequests := stage.stopRequests + 1 }.enter .requestStop ()

/-- The host that only shows output and provides input. -/
def bareHost : Host Stage where
  output text stage :=
    { stage with recorder := (Recorder.host.output text stage.recorder).world }.enter
      (.output text) ()
  input stage :=
    let reply := Recorder.host.input stage.recorder
    { stage with recorder := reply.world }.enter (.input reply.value) reply.value

/-- The host that follows the run as well. -/
def fullHost : Host Stage :=
  { bareHost with
    showLine := fun line stage =>
      { stage with recorder := (Recorder.host.showLine line stage.recorder).world }.enter
        (.line line) ()
    yield := fun stage =>
      { stage with recorder := (Recorder.host.yield stage.recorder).world }.enter .yield ()
    delay := fun milliseconds stage =>
      { stage with recorder := (Recorder.host.delay milliseconds stage.recorder).world }.enter
        (.delay milliseconds) () }

end Stage

end Pseudocod.Run
