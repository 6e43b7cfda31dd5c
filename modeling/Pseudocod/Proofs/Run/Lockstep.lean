import Pseudocod.Proofs.Run.Conversation

/-!
# Two runs in lockstep

Two runs of one source with the same interpreter and the same host, which begin in sessions that
are related in some way and may differ in what they do aside, round by round: where each call of
both keeps the relation and is answered alike, they come to the same.

* `Lockstep.bind`: one activity after another.
* `Coupling.follow`: a relation that every call keeps is kept by whole runs.
-/

namespace Pseudocod.Run

variable {ω α β : Type}

/-- Calls that only follow a run: they show the line that was reached, or leave time. -/
def Event.isAside : Event → Bool
  | .currentLine _ | .showLine _ | .yield | .delay _ => true
  | _ => false

/-! ## Activities in lockstep -/

/-- Begun in related sessions, the activities come to the same and leave related sessions. -/
def Lockstep (Related : Session ω → Session ω → Prop) (activity other : Activity ω α) : Prop :=
  ∀ session session', Related session session' →
    (activity session).1 = (other session').1 ∧ Related (activity session).2 (other session').2

/-- The call that the event describes is answered alike in related sessions, and leaves related
ones. -/
def Keeps (interpreter : Interpreter ω) (host : Host ω)
    (Related : Session ω → Session ω → Prop) (event : Event) : Prop :=
  ∀ session session', Related session session' →
    (session.call id fun world => event.perform interpreter host world).1 =
        (session'.call id fun world => event.perform interpreter host world).1 ∧
      Related (session.call id fun world => event.perform interpreter host world).2
        (session'.call id fun world => event.perform interpreter host world).2

section
variable {interpreter : Interpreter ω} {host : Host ω} {Related : Session ω → Session ω → Prop}

namespace Lockstep

open Activity

theorem pure (value : α) : Lockstep Related (Pure.pure value) (Pure.pure value) :=
  fun _ _ related => ⟨rfl, related⟩

theorem leave : Lockstep Related (leave : Activity ω α) leave :=
  fun _ _ related => ⟨rfl, related⟩

theorem bind {first first' : Activity ω β} {next next' : β → Activity ω α}
    (lockstep : Lockstep Related first first')
    (both : ∀ value, Lockstep Related (next value) (next' value)) :
    Lockstep Related (first >>= next) (first' >>= next') := by
  intro session session' related
  obtain ⟨same, kept⟩ := lockstep session session' related
  rw [bind_apply, bind_apply]
  generalize first session = result at same kept
  generalize first' session' = result' at same kept
  rcases result with ⟨value, left⟩
  rcases result' with ⟨value', left'⟩
  obtain rfl : value = value' := same
  cases value with
  | none => exact ⟨rfl, kept⟩
  | some value => exact both value left left' kept

/-- A call, if it is the one that its event describes. -/
theorem ask {event : α → Event} {operation : ω → Reply ω α}
    (proper : ∀ value world, (event value).perform interpreter host world =
      (operation world).map event)
    (injective : Function.Injective event)
    (keeps : ∀ value, Keeps interpreter host Related (event value)) :
    Lockstep Related (ask event operation) (ask event operation) := by
  intro session session' related
  have kept := keeps (operation session.world).value session session' related
  simp only [proper] at kept
  exact ⟨congrArg some (injective kept.1), kept.2⟩

theorem tell {event : Event} {operation : ω → Reply ω Unit}
    (proper : ∀ world, event.perform interpreter host world =
      (operation world).map fun _ => event)
    (keeps : Keeps interpreter host Related event) :
    Lockstep Related (tell event operation) (tell event operation) :=
  ask (fun _ => proper) (fun _ _ _ => rfl) fun _ => keeps

theorem tellIf {condition : Prop} [Decidable condition] {event : Event}
    {operation : ω → Reply ω Unit}
    (proper : ∀ world, event.perform interpreter host world =
      (operation world).map fun _ => event)
    (keeps : Keeps interpreter host Related event) :
    Lockstep Related (tellIf condition event operation) (tellIf condition event operation) := by
  rw [Activity.tellIf]
  split
  · exact tell proper keeps
  · exact pure ()

end Lockstep

/-! ## Runs in lockstep -/

/-- A relation that is kept by two runs with these configurations: both know alike whether a stop
was asked for, and neither a call nor what the runs do aside breaks it. -/
structure Coupling (config config' : Config) (interpreter : Interpreter ω) (host : Host ω)
    (Related : Session ω → Session ω → Prop) : Prop where
  stopped : ∀ {session session' : Session ω}, Related session session' →
    session.stopped = session'.stopped
  keeps : ∀ event : Event, event.isAside = false → Keeps interpreter host Related event
  showLine : Lockstep Related (showLine config interpreter host) (showLine config' interpreter host)
  rest : ∀ steps, Lockstep Related (rest config host steps) (rest config' host steps)

namespace Coupling

/-- A relation that every call keeps, for two runs with the same configuration. -/
theorem of_keeps (config : Config)
    (stopped : ∀ {session session' : Session ω}, Related session session' →
      session.stopped = session'.stopped)
    (keeps : ∀ event, Keeps interpreter host Related event) :
    Coupling config config interpreter host Related where
  stopped := stopped
  keeps event _ := keeps event
  showLine := by
    rw [Run.showLine]
    split
    · refine .bind (.ask (fun _ _ => rfl) (fun _ _ => Event.currentLine.inj) fun _ => keeps _)
        fun line => ?_
      exact .tell (fun _ => rfl) (keeps _)
    · exact .pure ()
  rest steps := .bind (.tellIf (fun _ => rfl) (keeps _)) fun _ => .tellIf (fun _ => rfl) (keeps _)

variable {config config' : Config} (coupling : Coupling config config' interpreter host Related)

include coupling

theorem ask {event : α → Event} {operation : ω → Reply ω α}
    (proper : ∀ value world, (event value).perform interpreter host world =
      (operation world).map event)
    (injective : Function.Injective event) (other : ∀ value, (event value).isAside = false) :
    Lockstep Related (Activity.ask event operation) (Activity.ask event operation) :=
  .ask proper injective fun value => coupling.keeps (event value) (other value)

theorem tell {event : Event} {operation : ω → Reply ω Unit}
    (proper : ∀ world, event.perform interpreter host world =
      (operation world).map fun _ => event) (other : event.isAside = false) :
    Lockstep Related (Activity.tell event operation) (Activity.tell event operation) :=
  .tell proper (coupling.keeps event other)

theorem stopAsked : Lockstep Related Activity.stopAsked Activity.stopAsked :=
  fun _ _ related => ⟨congrArg some (coupling.stopped related), related⟩

theorem drain (limit : Nat) :
    Lockstep Related (Run.drain interpreter host limit) (Run.drain interpreter host limit) := by
  induction limit with
  | zero => exact .leave
  | succ limit ih =>
    rw [Run.drain]
    refine .bind (coupling.ask (fun _ _ => rfl) (fun _ _ => Event.hasOutput.inj) fun _ => rfl)
      fun there => ?_
    split
    · refine .bind (coupling.ask (fun _ _ => rfl) (fun _ _ => Event.popOutput.inj) fun _ => rfl)
        fun text => ?_
      cases text with
      | none => exact .pure _
      | some text => exact .bind (coupling.tell (fun _ => rfl) rfl) fun _ => ih
    · exact .pure _

theorem takeStep (limit : Nat) :
    Lockstep Related (Run.takeStep config interpreter host limit)
      (Run.takeStep config' interpreter host limit) := by
  refine .bind (coupling.drain limit) fun _ => ?_
  refine .bind (coupling.ask (fun _ _ => rfl) (fun _ _ => Event.step.inj) fun _ => rfl)
    fun state => ?_
  exact .bind coupling.showLine fun _ => .pure state

theorem feedLine :
    Lockstep Related (Run.feedLine interpreter host) (Run.feedLine interpreter host) := by
  refine .bind (coupling.ask (fun _ _ => rfl) (fun _ _ => Event.input.inj) fun _ => rfl)
    fun line => ?_
  cases line with
  | none => exact .pure false
  | some line =>
    refine .bind coupling.stopAsked fun stopped => ?_
    split
    · exact .pure false
    · exact .bind (coupling.tell (fun _ => rfl) rfl) fun _ => .pure true

theorem halt (steps : Nat) :
    Lockstep Related (Run.halt interpreter steps) (Run.halt interpreter steps) :=
  .bind (coupling.tell (fun _ => rfl) rfl) fun _ => .pure _

/-- A reason is asked for, and the run fails. -/
theorem failing {event : Option String → Event} {operation : ω → Reply ω (Option String)}
    (proper : ∀ value world, (event value).perform interpreter host world =
      (operation world).map event)
    (injective : Function.Injective event) (other : ∀ value, (event value).isAside = false)
    (result : Option String → Result) :
    Lockstep Related (Activity.ask event operation >>= fun text => Pure.pure (result text))
      (Activity.ask event operation >>= fun text => Pure.pure (result text)) :=
  .bind (coupling.ask proper injective other) fun _ => .pure _

theorem rounds (limit steps : Nat) :
    Lockstep Related (Run.rounds config interpreter host limit steps)
      (Run.rounds config' interpreter host limit steps) := by
  induction limit generalizing steps with
  | zero => exact .leave
  | succ limit ih =>
    rw [Run.rounds, Run.rounds]
    refine .bind coupling.stopAsked fun stopped => ?_
    split
    · exact coupling.halt steps
    · refine .bind (coupling.takeStep limit) fun state => ?_
      cases state with
      | running => exact .bind (coupling.rest (steps + 1)) fun _ => ih (steps + 1)
      | finished => exact .bind (coupling.drain limit) fun _ => .pure _
      | failed =>
        exact .bind (coupling.drain limit) fun _ =>
          coupling.failing (fun _ _ => rfl) (fun _ _ => Event.error.inj) (fun _ => rfl) _
      | awaitingInput =>
        refine .bind (coupling.drain limit) fun _ => .bind coupling.feedLine fun fed => ?_
        split
        · exact .bind (coupling.rest (steps + 1)) fun _ => ih (steps + 1)
        · exact coupling.halt (steps + 1)

/-- Two runs in lockstep: what they come to is the same, also if they are left. -/
theorem follow (source : String) (limit : Nat) :
    Lockstep Related (Run.follow config interpreter host source limit)
      (Run.follow config' interpreter host source limit) := by
  rw [Run.follow, Run.follow]
  split
  · exact .pure _
  · refine .bind (coupling.tell (fun _ => rfl) rfl) fun _ => ?_
    refine .bind (coupling.ask (fun _ _ => rfl) (fun _ _ => Event.init.inj) fun _ => rfl)
      fun ready => ?_
    split
    · refine .bind (coupling.ask (fun _ _ => rfl) (fun _ _ eq => (Event.load.inj eq).2)
        fun _ => rfl) fun loaded => ?_
      split
      · exact coupling.rounds limit 0
      · exact coupling.failing (fun _ _ => rfl) (fun _ _ => Event.error.inj) (fun _ => rfl) _
    · exact coupling.failing (fun _ _ => rfl) (fun _ _ => Event.initError.inj) (fun _ => rfl) _

end Coupling

end

end Pseudocod.Run
