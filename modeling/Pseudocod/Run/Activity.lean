import Pseudocod.Run.Session

/-!
# Activities

What is done in a session, put together from single calls. Where something need not come to an end
it is given a limit, and is left at the place that it has reached when the limit is used up; the
session then holds all the calls up to there.

* `Activity.bind_apply`: one activity after another.
* `Activity.apply_eq`: an activity by what it comes to.
-/

namespace Pseudocod.Run

/-- Something that is done in a session: it comes to a value, or to none if it is left before its
end, and has gone as far as the session that it leaves. -/
def Activity (ω α : Type) : Type :=
  Session ω → Option α × Session ω

namespace Activity

variable {ω α β : Type}

instance : Monad (Activity ω) where
  pure value := fun session => (some value, session)
  bind first next := fun session =>
    match first session with
    | (some value, session) => next value session
    | (none, session) => (none, session)

/-- Makes a call, which `event` describes when it is given the answer. -/
def ask (event : α → Event) (operation : ω → Reply ω α) : Activity ω α := fun session =>
  let (value, session) := session.call event operation
  (some value, session)

/-- Makes a call that has no answer. -/
def tell (event : Event) (operation : ω → Reply ω Unit) : Activity ω Unit :=
  ask (fun _ => event) operation

/-- Makes a call that has no answer if the condition holds. -/
def tellIf (condition : Prop) [Decidable condition] (event : Event)
    (operation : ω → Reply ω Unit) : Activity ω Unit :=
  if condition then tell event operation else pure ()

/-- Whether a stop was asked for up to now. -/
def stopAsked : Activity ω Bool := fun session =>
  (some session.stopped, session)

/-- Goes no further. -/
def leave : Activity ω α := fun session =>
  (none, session)

theorem bind_apply (first : Activity ω α) (next : α → Activity ω β) (session : Session ω) :
    (first >>= next) session =
      match first session with
      | (some value, session) => next value session
      | (none, session) => (none, session) :=
  rfl

theorem apply_eq {activity : Activity ω α} {session : Session ω} {outcome : Option α}
    (h : (activity session).1 = outcome) : activity session = (outcome, (activity session).2) := by
  rw [← h]

end Activity

end Pseudocod.Run
