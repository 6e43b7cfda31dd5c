import Pseudocod.Run.Protocol

/-!
# Sessions

A session is the state of a run between two calls: the world, whether a stop was asked for, and the
calls that were made, each with its answer and with what it left. `Session.call` makes one call.

* `Session.call_eq_after`: a call adds itself to the calls, and nothing else changes.
* `Session.after_append`: calls can be made in several parts.
-/

namespace Pseudocod.Run

/-- A call to the interpreter or the host, with its answer. -/
inductive Event where
  | reset
  | init (ok : Bool)
  | initError (text : Option String)
  | load (source : String) (ok : Bool)
  | error (text : Option String)
  | step (state : StepState)
  | hasOutput (answer : Bool)
  | popOutput (text : Option String)
  | currentLine (line : Nat)
  | pushInput (line : String)
  | requestStop
  | output (text : String)
  | input (line : Option String)
  | showLine (line : Nat)
  | yield
  | delay (milliseconds : Nat)
deriving DecidableEq, Repr

/-- A call, the world that it left, and whether a stop had been asked for by its end. -/
structure Moment (ω : Type) where
  event : Event
  world : ω
  stopped : Bool

/-- The state of a run: the world, whether a stop was asked for, and the calls so far, the latest
one first. -/
structure Session (ω : Type) where
  world : ω
  stopped : Bool := false
  trace : List (Moment ω) := []

namespace Session

variable {ω α : Type}

/-- The session in which a run starts: what was asked for before does not count. -/
def fresh (before : Session ω) : Session ω :=
  { world := before.world }

/-- A session in which a stop was asked for. -/
def requestStop (session : Session ω) : Session ω :=
  { session with stopped := true }

/-- Makes a call, which `event` describes when it is given the answer. -/
def call (event : α → Event) (operation : ω → Reply ω α) (session : Session ω) : α × Session ω :=
  let reply := operation session.world
  let stopped := session.stopped || reply.stop
  let moment := { event := event reply.value, world := reply.world, stopped }
  (reply.value, { world := reply.world, stopped, trace := moment :: session.trace })

/-- The calls so far, from the first one to the latest one. -/
def calls (session : Session ω) : List (Moment ω) :=
  session.trace.reverse

end Session

/-! ## Calls one after another -/

variable {ω α : Type}

/-- The world that is left by some calls. -/
def worldAfter (world : ω) : List (Moment ω) → ω
  | [] => world
  | moment :: calls => worldAfter moment.world calls

/-- Whether a stop was asked for by the end of some calls. -/
def stoppedAfter (stopped : Bool) : List (Moment ω) → Bool
  | [] => stopped
  | moment :: calls => stoppedAfter moment.stopped calls

@[simp] theorem worldAfter_nil (world : ω) : worldAfter world [] = world := rfl

@[simp] theorem worldAfter_cons (world : ω) (moment : Moment ω) (calls : List (Moment ω)) :
    worldAfter world (moment :: calls) = worldAfter moment.world calls := rfl

@[simp] theorem worldAfter_append (world : ω) (calls more : List (Moment ω)) :
    worldAfter world (calls ++ more) = worldAfter (worldAfter world calls) more := by
  induction calls generalizing world with
  | nil => rfl
  | cons moment calls ih => exact ih moment.world

@[simp] theorem stoppedAfter_nil (stopped : Bool) :
    stoppedAfter stopped ([] : List (Moment ω)) = stopped := rfl

@[simp] theorem stoppedAfter_cons (stopped : Bool) (moment : Moment ω) (calls : List (Moment ω)) :
    stoppedAfter stopped (moment :: calls) = stoppedAfter moment.stopped calls := rfl

@[simp] theorem stoppedAfter_append (stopped : Bool) (calls more : List (Moment ω)) :
    stoppedAfter stopped (calls ++ more) = stoppedAfter (stoppedAfter stopped calls) more := by
  induction calls generalizing stopped with
  | nil => rfl
  | cons moment calls ih => exact ih moment.stopped

namespace Session

/-- The session in which some more calls were made. -/
def after (session : Session ω) (calls : List (Moment ω)) : Session ω where
  world := worldAfter session.world calls
  stopped := stoppedAfter session.stopped calls
  trace := calls.reverse ++ session.trace

@[simp] theorem after_nil (session : Session ω) : session.after [] = session := rfl

@[simp] theorem after_append (session : Session ω) (calls more : List (Moment ω)) :
    session.after (calls ++ more) = (session.after calls).after more := by
  simp [after]

@[simp] theorem stopped_after (session : Session ω) (calls : List (Moment ω)) :
    (session.after calls).stopped = stoppedAfter session.stopped calls := rfl

@[simp] theorem calls_after (session : Session ω) (calls : List (Moment ω)) :
    (session.after calls).calls = session.calls ++ calls := by
  simp [Session.calls, after]

theorem call_eq_after (event : α → Event) (operation : ω → Reply ω α) (session : Session ω) :
    session.call event operation = ((operation session.world).value, session.after
      [{ event := event (operation session.world).value
         world := (operation session.world).world
         stopped := session.stopped || (operation session.world).stop }]) :=
  rfl

end Session

end Pseudocod.Run
