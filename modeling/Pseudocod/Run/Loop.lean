import Pseudocod.Program
import Pseudocod.Run.Activity

/-!
# Runs

A run reads the source first, and a text that is not a program reaches neither party. Then the
interpreter is reset, gets ready and loads the source, and goes through rounds until the program
ends, fails or is stopped. A round looks whether a stop was asked for, hands the output that is
there to the host, and carries out one step; for a program that reads it takes a line from the host
and gives it to the interpreter.

An interpreter need not come to an end. A run is therefore given a limit to the rounds, and to the
pieces of output handed on at a time, and there is no result if the limit is not enough.

* `rounds_of_stopped`: a stop that was asked for ends the run before another step.
* `run_of_rejected`: a text that is not a program ends the run before the first call.
-/

namespace Pseudocod.Run

/-- How a run is carried out. -/
structure Config where
  /-- After how many steps the host is given time for other work; 0 for never. -/
  yieldEvery : Nat := 100
  /-- Whether the host is told the line after every step and asked to pause. -/
  debug : Bool := false
  /-- How many milliseconds the pause after a step lasts. -/
  stepDelay : Nat := 100
deriving DecidableEq, Repr

/-- How a run ended that had no error, and how many steps were carried out. -/
inductive Outcome where
  /-- The program came to its end. -/
  | completed (steps : Nat)
  /-- A stop was asked for, or the host had no input. -/
  | stopped (steps : Nat)
deriving DecidableEq, Repr

/-- Why a run failed. -/
inductive RunError where
  /-- The source is not a program. -/
  | rejected (error : SyntaxError)
  /-- The interpreter could not get ready. -/
  | initFailed (text : String)
  /-- The interpreter could not load the program. -/
  | loadFailed (text : String)
  /-- The program could not go on. -/
  | stepFailed (text : String)
deriving DecidableEq, Repr

/-- Why a run failed, in words. -/
def RunError.message : RunError → String
  | .rejected error => error.describe
  | .initFailed text => "Initialization failed: " ++ text
  | .loadFailed text => "Load failed: " ++ text
  | .stepFailed text => "Runtime error: " ++ text

/-- The result of a run. -/
abbrev Result := Except RunError Outcome

section
variable {ω : Type} (config : Config) (interpreter : Interpreter ω) (host : Host ω)

open Activity

/-- Hands output to the host until there is none or the interpreter gives none. -/
def drain : (limit : Nat) → Activity ω Unit
  | 0 => leave
  | limit + 1 => do
    if ← ask .hasOutput interpreter.hasOutput then
      match ← ask .popOutput interpreter.popOutput with
      | none => return
      | some text =>
        tell (.output text) (host.output text)
        drain limit

/-- Tells the host the line that was reached, if the run is debugged. -/
def showLine : Activity ω Unit := do
  if config.debug then
    let line ← ask .currentLine interpreter.currentLine
    tell (.showLine line) (host.showLine line)

/-- Hands on the output that is there and carries out one step. -/
def takeStep (limit : Nat) : Activity ω StepState := do
  drain interpreter host limit
  let state ← ask .step interpreter.step
  showLine config interpreter host
  return state

/-- Takes a line from the host and gives it to the interpreter; the answer is whether there was one
and no stop was asked for. -/
def feedLine : Activity ω Bool := do
  match ← ask .input host.input with
  | none => return false
  | some line =>
    if ← stopAsked then return false
    tell (.pushInput line) (interpreter.pushInput line)
    return true

/-- Whether the host is given time for other work when `steps` steps have been carried out. -/
def Config.yieldsAfter (steps : Nat) : Prop :=
  config.yieldEvery > 0 ∧ steps % config.yieldEvery = 0

instance (steps : Nat) : Decidable (config.yieldsAfter steps) :=
  inferInstanceAs (Decidable (_ ∧ _))

/-- What is done between two rounds, when `steps` steps have been carried out: the host is given
time for other work if that is due, and asked to pause if the run is debugged. -/
def rest (steps : Nat) : Activity ω Unit := do
  tellIf (config.yieldsAfter steps) .yield host.yield
  tellIf config.debug (.delay config.stepDelay) (host.delay config.stepDelay)

/-- Ends a run that is stopped after `steps` steps. -/
def halt (steps : Nat) : Activity ω Result := do
  tell .requestStop interpreter.requestStop
  return .ok (.stopped steps)

/-- The rounds of a run in which `steps` steps have been carried out. -/
def rounds : (limit steps : Nat) → Activity ω Result
  | 0, _ => leave
  | limit + 1, steps => do
    if ← stopAsked then halt interpreter steps
    else
      match ← takeStep config interpreter host limit with
      | .running =>
        rest config host (steps + 1)
        rounds limit (steps + 1)
      | .finished =>
        drain interpreter host limit
        return .ok (.completed (steps + 1))
      | .failed =>
        drain interpreter host limit
        let text ← ask .error interpreter.error
        return .error (.stepFailed (text.getD "unknown runtime error"))
      | .awaitingInput =>
        drain interpreter host limit
        if ← feedLine interpreter host then
          rest config host (steps + 1)
          rounds limit (steps + 1)
        else halt interpreter (steps + 1)

/-- Loads the source into an interpreter that is ready, and goes through the rounds. -/
def loadAndRun (source : String) (limit : Nat) : Activity ω Result := do
  if ← ask (.load source) (interpreter.load source) then
    rounds config interpreter host limit 0
  else
    let text ← ask .error interpreter.error
    return .error (.loadFailed (text.getD "unknown load error"))

/-- Follows the run of the program of `source` as far as the limit goes. -/
def follow (source : String) (limit : Nat) : Activity ω Result :=
  match Program.parse source with
  | .error error => return .error (.rejected error)
  | .ok _ => do
    tell .reset interpreter.reset
    if ← ask .init interpreter.init then
      loadAndRun config interpreter host source limit
    else
      let text ← ask .initError interpreter.initError
      return .error (.initFailed (text.getD "unknown initialization error"))

/-- Runs the program of `source` after whatever was done in the session `before`. -/
def run (source : String) (limit : Nat) (before : Session ω) : Option (Result × Session ω) :=
  match follow config interpreter host source limit before.fresh with
  | (some result, session) => some (result, session)
  | (none, _) => none

theorem rounds_of_stopped {session : Session ω} (h : session.stopped = true) (limit steps : Nat) :
    rounds config interpreter host (limit + 1) steps session =
      halt interpreter steps session := by
  simp [rounds, bind_apply, stopAsked, h]

theorem follow_of_rejected {source : String} {error : SyntaxError}
    (rejected : Program.parse source = .error error) (limit : Nat) (session : Session ω) :
    follow config interpreter host source limit session =
      (some (.error (.rejected error)), session) := by
  rw [follow, rejected]
  rfl

theorem run_of_rejected {source : String} {error : SyntaxError}
    (rejected : Program.parse source = .error error) (limit : Nat) (before : Session ω) :
    run config interpreter host source limit before =
      some (.error (.rejected error), before.fresh) := by
  rw [run, follow_of_rejected config interpreter host rejected]

end

end Pseudocod.Run
