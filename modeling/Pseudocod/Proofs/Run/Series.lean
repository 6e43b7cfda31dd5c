import Pseudocod.Run.Series
import Pseudocod.Run.Script
import Pseudocod.Proofs.Run.CallOrder
import Pseudocod.Proofs.Run.Lockstep

/-!
# Runs on one driver

What a run leaves to the next one on its driver is the world. A request to stop that is still there
is discarded, and the calls that were made before have no part in it: a run in a series goes as the
same run on a new driver would. Each run asks the interpreter to stop once if it was stopped, and
not at all otherwise, and so the requests in a whole series are as many as the runs that were
stopped.

* `follow_behind`: a run does not depend on the calls made before it.
* `Conversation.haltings`: a run asks the interpreter to stop if and only if it is stopped.
* `series_apart`: runs on one driver.
-/

namespace Pseudocod.Run

variable {ω : Type} {config : Config} {interpreter : Interpreter ω} {host : Host ω}

/-! ## The calls made before -/

/-- The session behind some earlier calls, the latest one first. -/
def Session.behind (earlier : List (Moment ω)) (session : Session ω) : Session ω :=
  { session with trace := session.trace ++ earlier }

theorem keeps_behind (earlier : List (Moment ω)) (event : Event) :
    Keeps interpreter host (fun session session' => session' = session.behind earlier) event := by
  rintro session _ rfl
  exact ⟨rfl, rfl⟩

/-- A run does not depend on the calls made before it. -/
theorem follow_behind (source : String) (limit : Nat) (earlier : List (Moment ω))
    (session : Session ω) :
    follow config interpreter host source limit (session.behind earlier) =
      ((follow config interpreter host source limit session).1,
        (follow config interpreter host source limit session).2.behind earlier) := by
  have coupling : Coupling config config interpreter host
      fun session session' => session' = session.behind earlier := by
    refine .of_keeps config ?_ (keeps_behind earlier)
    rintro _ _ rfl
    rfl
  obtain ⟨same, kept⟩ := coupling.follow source limit session _ rfl
  exact Prod.ext same.symm kept

/-! ## Requests to stop -/

/-- How often the interpreter is asked to stop. -/
def haltings (calls : List (Moment ω)) : Nat :=
  calls.countP fun call => call.event = .requestStop

@[simp] theorem haltings_append (calls more : List (Moment ω)) :
    haltings (calls ++ more) = haltings calls + haltings more :=
  List.countP_append

/-- Whether a run was stopped. -/
def wasStopped : Option Result → Bool
  | some (.ok (.stopped _)) => true
  | _ => false

/-- The interpreter is asked to stop once if the run is stopped, and else not at all. -/
def HaltsOnce (calls : List (Moment ω)) (outcome : Option Result) : Prop :=
  haltings calls = (wasStopped outcome).toNat

theorem haltings_eq_zero_iff {calls : List (Moment ω)} :
    haltings calls = 0 ↔ ∀ call ∈ calls, call.event ≠ .requestStop := by
  simp [haltings]

theorem Idle.haltings {calls : List (Moment ω)} (idle : Idle calls) : haltings calls = 0 :=
  haltings_eq_zero_iff.mpr fun call member isHalt => (idle call member).2 (by rw [isHalt]; rfl)

theorem Steps.haltings {calls : List (Moment ω)} {outcome : Option StepState}
    (steps : Steps config calls outcome) : haltings calls = 0 := by
  refine haltings_eq_zero_iff.mpr fun call member isHalt => ?_
  exact steps.purpose_ne (show Purpose.stopping ∉ _ by decide) call member (by rw [isHalt]; rfl)

theorem haltings_single {halt : Moment ω} (isHalt : halt.event = .requestStop) :
    haltings [halt] = 1 := by
  simp [haltings, isHalt]

/-- The rounds ask the interpreter to stop if and only if the run is stopped. -/
theorem Rounds.haltings {stopped : Bool} {steps : Nat} {calls : List (Moment ω)}
    {outcome : Option Result} (rounds : Rounds config stopped steps calls outcome) :
    HaltsOnce calls outcome := by
  induction rounds with
  | left => rfl
  | halted isHalt => exact haltings_single isHalt
  | leftStep stepped => exact stepped.haltings
  | leftDrain stepped _ drains =>
    simp [HaltsOnce, stepped.haltings, drains.idle.haltings, wasStopped]
  | running stepped rests _ ih => simpa [HaltsOnce, stepped.haltings, rests.idle.haltings] using ih
  | finished stepped drains => simp [HaltsOnce, stepped.haltings, drains.idle.haltings, wasStopped]
  | @failed _ _ _ asked _ stepped drains isAsked =>
    have unasked : Run.haltings [asked] = 0 := haltings_eq_zero_iff.mpr (by simp [isAsked])
    simp [HaltsOnce, stepped.haltings, drains.idle.haltings, unasked, wasStopped]
  | refused stepped drains feeds isHalt =>
    simp [HaltsOnce, stepped.haltings, drains.idle.haltings, feeds.idle.haltings,
      haltings_single isHalt, wasStopped]
  | fed stepped drains feeds rests _ ih =>
    simpa [HaltsOnce, stepped.haltings, drains.idle.haltings, feeds.idle.haltings,
      rests.idle.haltings] using ih

/-- A run asks the interpreter to stop if and only if it is stopped. -/
theorem Conversation.haltings {source : String} {calls : List (Moment ω)}
    {outcome : Option Result} (conversation : Conversation config source calls outcome) :
    HaltsOnce calls outcome := by
  cases conversation with
  | initFailed isReset isInit isAsked => exact haltings_eq_zero_iff.mpr (by simp [*])
  | loadFailed isReset isInit isLoad isAsked => exact haltings_eq_zero_iff.mpr (by simp [*])
  | @rounds reset init load _ _ isReset isInit isLoad rounds =>
    have ready : Run.haltings [reset, init, load] = 0 := haltings_eq_zero_iff.mpr (by simp [*])
    rw [HaltsOnce, haltings_append, ready, Nat.zero_add]
    exact rounds.haltings

theorem haltings_of_follow {source : String} {limit : Nat} (before : Session ω)
    {session : Session ω} {outcome : Option Result}
    (h : follow config interpreter host source limit before.fresh = (outcome, session)) :
    HaltsOnce session.calls outcome := by
  cases parsed : Program.parse source with
  | ok program => exact (conversation_of_follow parsed h).1.haltings
  | error error =>
    rw [follow_of_rejected config interpreter host parsed] at h
    obtain ⟨rfl, rfl⟩ := Prod.mk.inj h
    rfl

/-! ## Series -/

/-- A run starts as on a new driver, with the calls of the runs before it behind it. -/
theorem Turn.cleared_opening (turn : Turn ω) (before : Session ω) :
    (turn.opening before).cleared =
      Session.behind before.trace { world := turn.prepare before.world } := by
  rw [Turn.opening]
  split <;> rfl

section
variable (config : Config) (interpreter : Interpreter ω)

/-- The first run of a series, and the runs behind it if it ends. -/
theorem series_cons (turn : Turn ω) (turns : List (Turn ω)) (before : Session ω) :
    ∃ outcome session, follow config interpreter turn.host turn.source turn.limit
        { world := turn.prepare before.world } = (outcome, session) ∧
      series config interpreter (turn :: turns) before =
        { outcome, session := session.behind before.trace } ::
          if outcome.isSome then series config interpreter turns (session.behind before.trace)
          else [] := by
  rcases reached : follow config interpreter turn.host turn.source turn.limit
    { world := turn.prepare before.world } with ⟨outcome, session⟩
  refine ⟨outcome, session, rfl, ?_⟩
  rw [series, turn.cleared_opening, follow_behind, reached]
  cases outcome <;> rfl

theorem length_series {turns : List (Turn ω)} {before : Session ω}
    (ended : ∀ ran ∈ series config interpreter turns before, ran.outcome.isSome) :
    (series config interpreter turns before).length = turns.length := by
  induction turns generalizing before with
  | nil => rfl
  | cons turn turns ih =>
    obtain ⟨outcome, session, _, eq⟩ := series_cons config interpreter turn turns before
    rw [eq] at ended ⊢
    obtain ⟨done, ended⟩ := List.forall_mem_cons.mp ended
    rw [if_pos done] at ended ⊢
    rw [List.length_cons, List.length_cons, ih ended]

/-- The interpreter is asked to stop once for each run of a series that is stopped. -/
theorem haltings_series (turns : List (Turn ω)) (before : Session ω) :
    haltings (sessionAfter before (series config interpreter turns before)).calls =
      haltings before.calls +
        (series config interpreter turns before).countP fun ran => wasStopped ran.outcome := by
  induction turns generalizing before with
  | nil => rfl
  | cons turn turns ih =>
    obtain ⟨outcome, session, reached, eq⟩ := series_cons config interpreter turn turns before
    have once : HaltsOnce session.calls outcome := haltings_of_follow { world := _ } reached
    have joined : haltings (session.behind before.trace).calls =
        haltings before.calls + (wasStopped outcome).toNat := by
      rw [← once, ← haltings_append]
      simp [Session.behind, Session.calls]
    rw [eq, sessionAfter, List.countP_cons]
    cases outcome with
    | none => exact joined
    | some result =>
      simp only [Option.isSome_some, if_true, ih, joined, Nat.add_assoc]
      cases wasStopped (some result) <;> simp [Nat.add_comm 1]

/-- Runs on one driver, which was new before the first of them. The interpreter is asked to stop as
often as a run is stopped. Each run that is reached, whatever the runs before it have come to and
whenever a stop was asked for, comes to the same as on a new driver, with the same calls, and leaves
the same world: it goes by the world alone that is there when it starts. -/
theorem series_apart (turns : List (Turn ω)) (world : ω) :
    haltings (sessionAfter { world } (series config interpreter turns { world })).calls =
        (series config interpreter turns { world }).countP (fun ran => wasStopped ran.outcome) ∧
    ∀ (past : List (Turn ω)) (turn : Turn ω) (future : List (Turn ω)) (made : List (Ran ω)),
      turns = past ++ turn :: future → series config interpreter past { world } = made →
      (∀ ran ∈ made, ran.outcome.isSome) →
      ∃ (outcome : Option Result) (session : Session ω) (others : List (Ran ω)),
        follow config interpreter turn.host turn.source turn.limit
            { world := turn.prepare (sessionAfter { world } made).world } = (outcome, session) ∧
        series config interpreter turns { world } =
          made ++ { outcome, session := session.behind (sessionAfter { world } made).trace } ::
            others ∧
        made.length = past.length := by
  constructor
  · rw [haltings_series]
    exact Nat.zero_add _
  · rintro past turn future _ rfl rfl ended
    obtain ⟨outcome, session, reached, eq⟩ := series_cons config interpreter turn future
      (sessionAfter { world } (series config interpreter past { world }))
    rw [series_append config interpreter ended, eq]
    exact ⟨outcome, session, _, reached, rfl, length_series config interpreter ended⟩

end

/-- Three runs: in the first one a stop is asked for in the last step, in the second one there is no
input, and before the third one a stop is asked for. -/
def Stage.turns : List (Turn Stage) :=
  [{ source := "scrie 1", host := Stage.fullHost, limit := 2
     prepare := fun stage => stage.prepare { stops := [("exec", 1)] } {} [] },
    { source := "citeste n", host := Stage.fullHost, limit := 2
      prepare := fun stage => stage.prepare { tail := .awaitingInput } {} [] },
    { source := "scrie 1", host := Stage.fullHost, limit := 2, stop := true
      prepare := fun stage => stage.prepare {} {} [] }]

theorem series_apart_stages :
    ∃ made, series {} Stage.interpreter (Stage.turns.take 2) { world := {} } = made ∧
      made.map (fun ran => (ran.outcome, ran.session.stopped)) =
        [(some (.ok (.completed 1)), true), (some (.ok (.stopped 1)), false)] ∧
      haltings (sessionAfter { world := {} }
        (series {} Stage.interpreter Stage.turns { world := {} })).calls = 1 ∧
      ∃ (outcome : Option Result) (session : Session Stage) (others : List (Ran Stage)),
        follow {} Stage.interpreter Stage.fullHost "scrie 1" 2
            { world := (sessionAfter { world := {} } made).world.prepare {} {} [] } =
          (outcome, session) ∧
        series {} Stage.interpreter Stage.turns { world := {} } = made ++
          { outcome, session := session.behind (sessionAfter { world := {} } made).trace } ::
            others := by
  have ended : (series {} Stage.interpreter (Stage.turns.take 2) { world := {} }).all
      (fun ran => ran.outcome.isSome) = true := by cbv
  obtain ⟨total, apart⟩ := series_apart {} Stage.interpreter Stage.turns {}
  obtain ⟨outcome, session, others, reached, eq, _⟩ := apart (Stage.turns.take 2)
    { source := "scrie 1", host := Stage.fullHost, limit := 2, stop := true
      prepare := fun stage => stage.prepare {} {} [] } [] _ rfl rfl
    (List.all_eq_true.mp ended)
  refine ⟨_, rfl, by cbv, ?_, outcome, session, others, reached, eq⟩
  rw [total]
  cbv

end Pseudocod.Run
