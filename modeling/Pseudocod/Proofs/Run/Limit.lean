import Pseudocod.Proofs.Run.Conversation

/-!
# The limit of a run

A run that need not come to an end is followed up to a limit. The limit has no part in the result:
one that is enough leads to the same result as any larger one, and the run is left only after at
least as many calls as the limit says.

* `run_of_le`: a larger limit does not change the result.
* `length_calls_of_follow`: how far a run is followed that is left.
* `endless_of_run`: a run that has no result for any limit goes on without end.
-/

namespace Pseudocod.Run

variable {ω α β : Type}

/-! ## Larger limits -/

namespace Activity

/-- What an activity comes to, if it is not left, the other one comes to as well. -/
def Within (activity further : Activity ω α) : Prop :=
  ∀ session value session', activity session = (some value, session') →
    further session = (some value, session')

theorem Within.refl (activity : Activity ω α) : Within activity activity :=
  fun _ _ _ => id

theorem within_leave (further : Activity ω α) : Within leave further :=
  fun _ _ _ eq => nomatch eq

theorem Within.bind {first first' : Activity ω β} {next next' : β → Activity ω α}
    (within : Within first first') (within' : ∀ value, Within (next value) (next' value)) :
    Within (first >>= next) (first' >>= next') := by
  intro session value session' eq
  rw [bind_apply] at eq ⊢
  rcases reached : first session with ⟨_ | value', session''⟩
  · simp [reached] at eq
  · rw [reached] at eq
    rw [within session value' session'' reached]
    exact within' value' session'' value session' eq

end Activity

open Activity

section
variable (config : Config) (interpreter : Interpreter ω) (host : Host ω)

theorem drain_within (limit : Nat) :
    Within (drain interpreter host limit) (drain interpreter host (limit + 1)) := by
  induction limit with
  | zero => exact within_leave _
  | succ limit ih =>
    rw [drain, drain]
    refine .bind (.refl _) fun answer => ?_
    split
    · refine .bind (.refl _) fun text => ?_
      cases text with
      | none => exact .refl _
      | some text => exact .bind (.refl _) fun _ => ih
    · exact .refl _

theorem rounds_within (limit steps : Nat) :
    Within (rounds config interpreter host limit steps)
      (rounds config interpreter host (limit + 1) steps) := by
  induction limit generalizing steps with
  | zero => exact within_leave _
  | succ limit ih =>
    rw [rounds, rounds]
    refine .bind (.refl _) fun stopped => ?_
    split
    · exact .refl _
    · refine .bind (.bind (drain_within interpreter host limit) fun _ => .refl _) fun state => ?_
      cases state with
      | running => exact .bind (.refl _) fun _ => ih (steps + 1)
      | finished => exact .bind (drain_within interpreter host limit) fun _ => .refl _
      | failed => exact .bind (drain_within interpreter host limit) fun _ => .refl _
      | awaitingInput =>
        refine .bind (drain_within interpreter host limit) fun _ => .bind (.refl _) fun fed => ?_
        split
        · exact .bind (.refl _) fun _ => ih (steps + 1)
        · exact .refl _

theorem follow_within (source : String) (limit : Nat) :
    Within (follow config interpreter host source limit)
      (follow config interpreter host source (limit + 1)) := by
  rw [follow, follow]
  split
  · exact .refl _
  · refine .bind (.refl _) fun _ => .bind (.refl _) fun ready => ?_
    split
    · refine .bind (.refl _) fun loaded => ?_
      split
      · exact rounds_within config interpreter host limit 0
      · exact .refl _
    · exact .refl _

/-- A result does not depend on the limit. -/
theorem run_of_le {source : String} {limit limit' : Nat} {before session : Session ω}
    {result : Result} (le : limit ≤ limit')
    (h : run config interpreter host source limit before = some (result, session)) :
    run config interpreter host source limit' before = some (result, session) := by
  induction le with
  | refl => exact h
  | @step limit'' _ ih =>
    rw [run] at ih ⊢
    split at ih
    next reached =>
      rw [follow_within config interpreter host source limit'' _ _ _ reached]
      exact ih
    next => cases ih

end

/-! ## Runs that are left -/

section
variable {config : Config} {interpreter : Interpreter ω} {host : Host ω}

/-- If the activity was left, it was left after at least so many calls. -/
def Long (bound : Nat) (calls : List (Moment ω)) (outcome : Option α) : Prop :=
  outcome = none → bound ≤ calls.length

theorem Long.done (bound : Nat) (calls : List (Moment ω)) (value : α) :
    Long bound calls (some value) := by
  simp [Long]

theorem Long.behind {bound bound' : Nat} {calls more : List (Moment ω)} {outcome : Option α}
    (long : Long bound more outcome) (le : bound' ≤ calls.length + bound) :
    Long bound' (calls ++ more) outcome := by
  intro left
  have enough := long left
  rw [List.length_append]
  omega

theorem Long.later {bound : Nat} {more : List (Moment ω)} {outcome : Option α}
    (long : Long bound more outcome) (calls : List (Moment ω)) :
    Long bound (calls ++ more) outcome :=
  long.behind (Nat.le_add_left bound calls.length)

theorem Long.left {bound : Nat} {more : List (Moment ω)} (long : Long bound more (none : Option β))
    (calls : List (Moment ω)) : Long bound (calls ++ more) (none : Option α) := by
  intro _
  exact long.later calls rfl

theorem drain_long (limit : Nat) (session : Session ω) :
    Makes interpreter host session (drain interpreter host limit) (Long limit) := by
  induction limit generalizing session with
  | zero => exact .leave (by simp [Long])
  | succ limit ih =>
    rw [drain]
    refine .ask_bind (fun _ => rfl) ?_
    rintro (_ | _) asked _
    · exact .pure (.done _ _ _)
    · refine .ask_bind (fun _ => rfl) ?_
      rintro (_ | text) taken _
      · exact .pure (.done _ _ _)
      · refine .tell_bind (fun _ => rfl) fun shown _ => ?_
        refine (ih _).weaken fun calls outcome long => ?_
        have le : limit + 1 ≤ [asked, taken, shown].length + limit := by
          simp only [List.length_cons, List.length_nil]
          omega
        exact long.behind le

theorem takeStep_long (limit : Nat) (session : Session ω) :
    Makes interpreter host session (takeStep config interpreter host limit) fun calls outcome =>
      Long limit calls outcome ∧ ∀ state, outcome = some state → 0 < calls.length := by
  refine (drain_long limit session).bind (fun calls long => ⟨fun _ => long rfl, nofun⟩) ?_
  intro output _ _
  refine .ask_bind (fun _ => rfl) fun state step _ => ?_
  refine (showLine_makes _).bind_done fun line _ => .pure ⟨.done _ _ _, fun _ _ => ?_⟩
  simp only [List.length_append, List.length_cons]
  omega

theorem rounds_long (limit steps : Nat) (session : Session ω) :
    Makes interpreter host session (rounds config interpreter host limit steps)
      (Long (limit - 1)) := by
  induction limit generalizing steps session with
  | zero => exact .leave (by simp [Long])
  | succ limit ih =>
    rw [rounds, Nat.add_sub_cancel]
    refine .stopAsked_bind ?_
    split
    · refine (halt_makes steps session).weaken ?_
      rintro _ _ ⟨_, _, _, rfl⟩
      exact .done _ _ _
    · refine (takeStep_long limit session).bind (fun calls long _ => long.1 rfl) ?_
      intro calls state stepped
      have some_call : 0 < calls.length := stepped.2 state rfl
      cases state with
      | running =>
        refine (rest_makes (steps + 1) _).bind_done fun pause _ => ?_
        refine (ih (steps + 1) _).weaken fun others outcome long => ?_
        exact (long.later pause).behind (by omega)
      | finished =>
        refine (drain_long limit _).bind (fun output long => ?_) fun output _ _ => .pure (.done _ _ _)
        exact long.left calls
      | failed =>
        refine (drain_long limit _).bind (fun output long => ?_) fun output _ _ => ?_
        · exact long.left calls
        · exact .ask_bind (fun _ => rfl) fun text asked _ => .pure (.done _ _ _)
      | awaitingInput =>
        refine (drain_long limit _).bind (fun output long => ?_) fun output _ _ => ?_
        · exact long.left calls
        refine (feedLine_makes _).bind ?_ ?_
        · rintro _ ⟨_, left, _⟩
          cases left
        rintro input fed _
        cases fed with
        | false =>
          refine (halt_makes _ _).weaken ?_
          rintro _ _ ⟨_, _, _, rfl⟩
          exact .done _ _ _
        | true =>
          refine (rest_makes (steps + 1) _).bind_done fun pause _ => ?_
          refine (ih (steps + 1) _).weaken fun others outcome long => ?_
          exact (((long.later pause).later input).later output).behind (by omega)

/-- A run is left only after as many calls as the limit says: one that is left for every limit has
no end. -/
theorem length_calls_of_follow {source : String} {limit : Nat} {program : Program}
    {before session : Session ω} (parsed : Program.parse source = .ok program)
    (h : follow config interpreter host source limit before.fresh = (none, session)) :
    limit ≤ session.calls.length := by
  have makes : Makes interpreter host before.fresh (follow config interpreter host source limit)
      (Long limit) := by
    rw [follow, parsed]
    refine .tell_bind (fun _ => rfl) fun reset _ => .ask_bind (fun _ => rfl) fun ready init _ => ?_
    cases ready with
    | false => exact .ask_bind (fun _ => rfl) fun text asked _ => .pure (.done _ _ _)
    | true =>
      refine .ask_bind (fun _ => rfl) fun loaded load _ => ?_
      cases loaded with
      | false => exact .ask_bind (fun _ => rfl) fun text asked _ => .pure (.done _ _ _)
      | true =>
        refine (rounds_long limit 0 _).weaken fun calls outcome long => ?_
        have le : limit ≤ [reset, init, load].length + (limit - 1) := by
          simp only [List.length_cons, List.length_nil]
          omega
        exact long.behind le
  rw [Makes, h] at makes
  obtain ⟨calls, rfl, _, long⟩ := makes
  rw [Session.calls_after, List.length_append]
  have enough := long rfl
  omega

/-- A run of a program that has no result for any limit goes on without end. -/
theorem endless_of_run {source : String} {program : Program} {before : Session ω}
    (parsed : Program.parse source = .ok program)
    (h : ∀ limit, run config interpreter host source limit before = none) (count : Nat) :
    count ≤ (follow config interpreter host source count before.fresh).2.calls.length := by
  refine length_calls_of_follow parsed (Activity.apply_eq ?_)
  have endless := h count
  rw [run] at endless
  split at endless
  next => cases endless
  next left => rw [left]

end

end Pseudocod.Run
