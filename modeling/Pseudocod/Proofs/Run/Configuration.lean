import Mathlib
import Pseudocod.Run.Script
import Pseudocod.Proofs.Run.Lockstep

/-!
# The configuration of a run

The configuration says when a host is told the line that was reached, when it is given time for
other work and how long it is asked to pause. Where the host makes nothing of it that the output,
the input or the interpreter could notice, two runs with different configurations are the same but
for these calls.

* `Unobtrusive.coupling`: round by round the two runs stay alike.
* `follow_configured`: two runs with different configurations.
-/

namespace Pseudocod.Run

variable {ω σ α β : Type}

/-! ## What remains unnoticed -/

/-- The calls that are not made aside. -/
def essential (calls : List (Moment ω)) : List Event :=
  (calls.map Moment.event).filter fun event => !event.isAside

@[simp] theorem essential_append (calls more : List (Moment ω)) :
    essential (calls ++ more) = essential calls ++ essential more := by
  simp [essential]

@[simp] theorem essential_singleton (call : Moment ω) :
    essential [call] = if call.event.isAside then [] else [call.event] := by
  cases isAside : call.event.isAside <;> simp [essential, isAside]

/-- What a host makes of the calls that only follow a run remains unnoticed. Of the world the
interpreter and the output and input of the host depend on the `view` alone; showing a line, giving
time and pausing leave it as it is and do not ask for a stop, and the line is only looked up. -/
structure Unobtrusive (interpreter : Interpreter ω) (host : Host ω) (view : ω → σ) : Prop where
  aside : ∀ (event : Event) (world : ω), event.isAside = true →
    view (event.perform interpreter host world).world = view world ∧
      (event.perform interpreter host world).stop = false
  other : ∀ (event : Event) (world world' : ω), event.isAside = false → view world = view world' →
    (event.perform interpreter host world).value = (event.perform interpreter host world').value ∧
      (event.perform interpreter host world).stop = (event.perform interpreter host world').stop ∧
        view (event.perform interpreter host world).world =
          view (event.perform interpreter host world').world

/-- Sessions that differ in nothing but what is done aside. -/
structure Alike (view : ω → σ) (session session' : Session ω) : Prop where
  view_world : view session.world = view session'.world
  stopped : session.stopped = session'.stopped
  essential_calls : essential session.calls = essential session'.calls

variable {view : ω → σ}

theorem Alike.refl (session : Session ω) : Alike view session session :=
  ⟨rfl, rfl, rfl⟩

theorem Alike.symm {session session' : Session ω} (alike : Alike view session session') :
    Alike view session' session :=
  ⟨alike.view_world.symm, alike.stopped.symm, alike.essential_calls.symm⟩

theorem Alike.trans {session session' session'' : Session ω} (alike : Alike view session session')
    (alike' : Alike view session' session'') : Alike view session session'' :=
  ⟨alike.view_world.trans alike'.view_world, alike.stopped.trans alike'.stopped,
    alike.essential_calls.trans alike'.essential_calls⟩

/-- What is done aside: it is not left, and nothing else notices it. -/
def Aside (view : ω → σ) (activity : Activity ω α) : Prop :=
  ∀ session, ∃ value session', activity session = (some value, session') ∧
    Alike view session session'

namespace Aside

theorem pure (value : α) : Aside view (Pure.pure value) :=
  fun session => ⟨value, session, rfl, .refl session⟩

theorem bind {first : Activity ω β} {next : β → Activity ω α} (aside : Aside view first)
    (asideNext : ∀ value, Aside view (next value)) : Aside view (first >>= next) := by
  intro session
  obtain ⟨value, session', eq, alike⟩ := aside session
  obtain ⟨value', session'', eq', alike'⟩ := asideNext value session'
  refine ⟨value', session'', ?_, alike.trans alike'⟩
  rw [Activity.bind_apply, eq]
  exact eq'

/-- Whatever two runs do aside, they stay alike. -/
theorem lockstep {activity other : Activity ω Unit} (aside : Aside view activity)
    (aside' : Aside view other) : Lockstep (Alike view) activity other := by
  intro session session' alike
  obtain ⟨_, left, eq, unnoticed⟩ := aside session
  obtain ⟨_, left', eq', unnoticed'⟩ := aside' session'
  rw [eq, eq']
  exact ⟨rfl, (unnoticed.symm.trans alike).trans unnoticed'⟩

end Aside

/-! ## Two configurations -/

namespace Unobtrusive

variable {interpreter : Interpreter ω} {host : Host ω}
  (unobtrusive : Unobtrusive interpreter host view)

include unobtrusive

theorem aside_ask {event : α → Event} {operation : ω → Reply ω α}
    (proper : ∀ value world, (event value).perform interpreter host world =
      (operation world).map event)
    (isAside : ∀ value, (event value).isAside = true) :
    Aside view (Activity.ask event operation) := by
  intro session
  obtain ⟨same, unasked⟩ :=
    unobtrusive.aside (event (operation session.world).value) session.world (isAside _)
  rw [proper] at same unasked
  have unasked : (operation session.world).stop = false := unasked
  refine ⟨_, _, congrArg (Prod.map some id) (session.call_eq_after event operation), ?_⟩
  exact { view_world := same.symm
          stopped := by simp [unasked]
          essential_calls := by simp [isAside] }

theorem aside_tell {event : Event} {operation : ω → Reply ω Unit}
    (proper : ∀ world, event.perform interpreter host world =
      (operation world).map fun _ => event) (isAside : event.isAside = true) :
    Aside view (Activity.tell event operation) :=
  unobtrusive.aside_ask (fun _ => proper) fun _ => isAside

theorem aside_tellIf {condition : Prop} [Decidable condition] {event : Event}
    {operation : ω → Reply ω Unit}
    (proper : ∀ world, event.perform interpreter host world =
      (operation world).map fun _ => event) (isAside : event.isAside = true) :
    Aside view (Activity.tellIf condition event operation) := by
  rw [Activity.tellIf]
  split
  · exact unobtrusive.aside_tell proper isAside
  · exact .pure ()

theorem aside_showLine (config : Config) : Aside view (showLine config interpreter host) := by
  rw [showLine]
  split
  · refine .bind (unobtrusive.aside_ask (fun _ _ => rfl) fun _ => rfl) fun line => ?_
    exact unobtrusive.aside_tell (fun _ => rfl) rfl
  · exact .pure ()

theorem aside_rest (config : Config) (steps : Nat) : Aside view (rest config host steps) :=
  .bind (unobtrusive.aside_tellIf (fun _ => rfl) rfl) fun _ =>
    unobtrusive.aside_tellIf (fun _ => rfl) rfl

theorem keeps_alike (event : Event) (isOther : event.isAside = false) :
    Keeps interpreter host (Alike view) event := by
  intro session session' alike
  obtain ⟨value, stop, same⟩ :=
    unobtrusive.other event session.world session'.world isOther alike.view_world
  rw [Session.call_eq_after, Session.call_eq_after]
  refine ⟨value, same, ?_, ?_⟩
  · simp [alike.stopped, stop]
  · simp [alike.essential_calls, value]

/-- Two runs with different configurations stay alike round by round. -/
theorem coupling (config config' : Config) :
    Coupling config config' interpreter host (Alike view) where
  stopped := Alike.stopped
  keeps := unobtrusive.keeps_alike
  showLine := (unobtrusive.aside_showLine config).lockstep (unobtrusive.aside_showLine config')
  rest steps :=
    (unobtrusive.aside_rest config steps).lockstep (unobtrusive.aside_rest config' steps)

end Unobtrusive

/-- The host of a stage that keeps what it is told of the run without entering it in the log. -/
def Stage.followingHost : Host Stage :=
  { Stage.bareHost with
    showLine := fun line stage =>
      { value := ()
        world := { stage with recorder := (Recorder.host.showLine line stage.recorder).world } }
    yield := fun stage =>
      { value := ()
        world := { stage with recorder := (Recorder.host.yield stage.recorder).world } }
    delay := fun milliseconds stage =>
      { value := ()
        world :=
          { stage with recorder := (Recorder.host.delay milliseconds stage.recorder).world } } }

/-- The stage without what its host keeps of the calls that only follow a run. -/
def Stage.core (stage : Stage) : Stage :=
  { stage with recorder := { stage.recorder with shownLines := [], yields := 0, delays := [] } }

theorem Stage.unobtrusive : Unobtrusive Stage.interpreter Stage.followingHost Stage.core where
  aside event stage isAside := by
    cases event with
    | currentLine | showLine | yield | delay => exact ⟨rfl, rfl⟩
    | _ => cases isAside
  other event stage stage' isOther same := by
    obtain ⟨script, _, _, _, ⟨_, _, _, _, _, _⟩, _⟩ := stage
    obtain ⟨_, _, _, _, ⟨_, _, _, _, _, _⟩, _⟩ := stage'
    simp only [Stage.core, Stage.mk.injEq, Recorder.mk.injEq] at same
    obtain ⟨rfl, rfl, rfl, rfl, ⟨rfl, rfl, -, -, -, rfl⟩, rfl⟩ := same
    cases event with
    | currentLine | showLine | yield | delay => cases isOther
    | step => rcases script with ⟨_ | ⟨step, steps⟩⟩ <;> exact ⟨rfl, rfl, rfl⟩
    | _ => exact ⟨rfl, rfl, rfl⟩

/-- A program that asks for input, writes, and goes on to its end. -/
def Stage.followed : Stage where
  script := { steps := [{ state := .awaitingInput }, { state := .running, output := [some "6"] }] }
  recorder := { inputs := ["5"] }

end Pseudocod.Run
