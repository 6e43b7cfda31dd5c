import Pseudocod.Proofs.Run.CallOrder

/-!
# Stopping a run

A stop can be asked for during any call, but a run looks for it at two places only: at the beginning
of a round, and when a line of input has come. What still happens after the request therefore
depends on the call during which it was made.

* `Answered.stoppedAfter_of_mem`: a stop that was asked for stays asked for.
* `Rounds.stopsSoon`: after the request one step is taken at most, and only if output is being
  handed on for it; no line of input is given.
* `Rounds.ending`: a run that does not end with its program asks the interpreter to stop.
* `run_asked_to_stop`: what a stop comes to in a whole run.
-/

namespace Pseudocod.Run

variable {ω : Type} {config : Config} {interpreter : Interpreter ω} {host : Host ω}

/-! ## The request stays -/

theorem Answered.stoppedAfter_true {world : ω} {calls : List (Moment ω)}
    (answered : Answered interpreter host world true calls) : stoppedAfter true calls = true := by
  induction calls generalizing world with
  | nil => rfl
  | cons call calls ih =>
    obtain ⟨_, flag, others⟩ := answered
    rw [Bool.true_or] at flag
    rw [flag] at others
    rw [stoppedAfter_cons, flag]
    exact ih others

/-- A stop that was asked for stays asked for. -/
theorem Answered.stoppedAfter_of_mem {world : ω} {stopped : Bool} {calls : List (Moment ω)}
    {call : Moment ω} (answered : Answered interpreter host world stopped calls)
    (member : call ∈ calls) (asked : call.stopped = true) : stoppedAfter stopped calls = true := by
  obtain ⟨past, future, rfl⟩ := List.append_of_mem member
  rw [answered_append, Answered, asked] at answered
  rw [stoppedAfter_append, stoppedAfter_cons, asked]
  exact answered.2.2.2.stoppedAfter_true

/-! ## What still happens -/

/-- Calls that neither take a step nor give a line of input to the interpreter. -/
def Quiet (calls : List (Moment ω)) : Prop :=
  ∀ call ∈ calls, call.event.purpose ≠ .stepping ∧ ∀ line, call.event ≠ .pushInput line

theorem Quiet.nil : Quiet ([] : List (Moment ω)) := by
  simp [Quiet]

theorem Quiet.append {calls more : List (Moment ω)} (quiet : Quiet calls) (quiet' : Quiet more) :
    Quiet (calls ++ more) :=
  List.forall_mem_append.mpr ⟨quiet, quiet'⟩

theorem AllFor.quiet {purpose : Purpose} {calls : List (Moment ω)} (allFor : AllFor purpose calls)
    (other : purpose ≠ .stepping ∧ purpose ≠ .feeding) : Quiet calls := by
  intro call member
  rw [allFor call member]
  refine ⟨other.1, fun line isPushed => other.2 ?_⟩
  rw [← allFor call member, isPushed, Event.purpose]

theorem Drains.quiet {calls : List (Moment ω)} {outcome : Option Unit}
    (drains : Drains calls outcome) : Quiet calls :=
  drains.allFor.quiet (by decide)

theorem Rests.quiet {steps : Nat} {calls : List (Moment ω)} (rests : Rests config steps calls) :
    Quiet calls :=
  rests.allFor.quiet (by decide)

theorem Feeds.quiet {calls : List (Moment ω)} (feeds : Feeds calls false) : Quiet calls := by
  cases feeds with
  | refused isInput => simp [Quiet, isInput, Event.purpose]
  | late isInput => simp [Quiet, isInput, Event.purpose]

/-- Rounds that begin when a stop was asked for. -/
theorem Rounds.quiet {steps : Nat} {calls : List (Moment ω)} {outcome : Option Result}
    (rounds : Rounds config true steps calls outcome) : Quiet calls := by
  cases rounds with
  | left => exact .nil
  | halted isHalt => simp [Quiet, isHalt, Event.purpose]

/-- What may come behind a call during which a stop was asked for: a step only if nothing but output
is handed on up to it, and no line of input. -/
def Winding (call : Moment ω) (future : List (Moment ω)) : Prop :=
  (∀ (handed : List (Moment ω)) (step : Moment ω) (others : List (Moment ω)),
    future = handed ++ step :: others → step.event.purpose = .stepping →
      AllFor .handing (call :: handed)) ∧
  ∀ later ∈ future, ∀ line, later.event ≠ .pushInput line

/-- Calls that come to an end soon when a stop is asked for during one of them. -/
def StopsSoon (calls : List (Moment ω)) : Prop :=
  ∀ (past : List (Moment ω)) (call : Moment ω) (future : List (Moment ω)),
    calls = past ++ call :: future → call.stopped = true → Winding call future

theorem Quiet.winding {future : List (Moment ω)} (quiet : Quiet future) (call : Moment ω) :
    Winding call future := by
  refine ⟨?_, fun later member => (quiet later member).2⟩
  rintro handed step others rfl isStep
  exact absurd isStep (quiet step (by simp)).1

/-- Nothing but the call itself matters if the calls behind it are quiet. -/
theorem Quiet.stopsSoon_cons {calls : List (Moment ω)} (quiet : Quiet calls) (call : Moment ω) :
    StopsSoon (call :: calls) := by
  intro past call' future split _
  rcases List.cons_eq_append_iff.mp split with ⟨_, eq⟩ | ⟨past, _, rfl⟩
  · obtain ⟨_, rfl⟩ := List.cons.inj eq
    exact quiet.winding call'
  · exact Quiet.winding (fun later member => quiet later (by simp [member])) call'

theorem Quiet.stopsSoon {calls : List (Moment ω)} (quiet : Quiet calls) : StopsSoon calls := by
  rintro past call future rfl _
  exact Quiet.winding (fun later member => quiet later (by simp [member])) call

/-- The round in which a stop is asked for is the last one. -/
theorem Steps.stopsSoon_append {calls more : List (Moment ω)} {outcome : Option StepState}
    (steps : Steps config calls outcome) (quiet : Quiet more) : StopsSoon (calls ++ more) := by
  cases steps with
  | left drains => exact (drains.quiet.append quiet).stopsSoon
  | @step output line step state drains isStep shows_ =>
    have behind : Quiet (line ++ more) := (shows_.allFor.quiet (by decide)).append quiet
    intro past call future split asked
    rw [List.append_assoc, List.cons_append] at split
    rcases split_append split with ⟨rest, rfl, rfl⟩ | ⟨earlier, eq, rfl⟩
    · -- the stop is asked for while output is handed on, so the step is still taken
      have handing : AllFor .handing (call :: rest) := fun later member =>
        drains.allFor later (List.mem_append_right past member)
      constructor
      · intro handed step' others split' isStep'
        rcases split_append split' with ⟨_, rfl, _⟩ | ⟨earlier, eq, rfl⟩
        · exact nomatch (handing step' (by simp)).symm.trans isStep'
        · rcases List.cons_eq_append_iff.mp eq with ⟨rfl, _⟩ | ⟨_, _, eq⟩
          · rwa [List.append_nil]
          · exact absurd isStep' (behind step' (by simp [eq])).1
      · intro later member text
        rcases List.mem_append.mp member with member | member
        · exact (drains.quiet later (by simp [member])).2 text
        · rcases List.mem_cons.mp member with rfl | member
          · simp [isStep]
          · exact (behind later member).2 text
    · exact behind.stopsSoon_cons step earlier call future eq asked

/-- Calls in two parts, the second of which is made only if no stop is asked for in the first one. -/
theorem StopsSoon.append {world : ω} {stopped : Bool} {calls more : List (Moment ω)}
    (answered : Answered interpreter host world stopped calls)
    (ended : stoppedAfter stopped calls = true → StopsSoon (calls ++ more))
    (going : StopsSoon more) : StopsSoon (calls ++ more) := by
  intro past call future split asked
  rcases split_append split with ⟨rest, rfl, _⟩ | ⟨earlier, eq, _⟩
  · exact ended (answered.stoppedAfter_of_mem (by simp) asked) past call future split asked
  · exact going earlier call future eq asked

/-- After a stop was asked for one step is taken at most, and only if output is being handed on for
it; no line of input is given. -/
theorem Rounds.stopsSoon {world : ω} {stopped : Bool} {steps : Nat} {calls : List (Moment ω)}
    {outcome : Option Result} (rounds : Rounds config stopped steps calls outcome)
    (answered : Answered interpreter host world stopped calls) : StopsSoon calls := by
  induction rounds generalizing world with
  | left => exact Quiet.nil.stopsSoon
  | halted isHalt => exact Quiet.nil.stopsSoon_cons _
  | leftStep stepped =>
    obtain drains | _ := stepped
    exact drains.quiet.stopsSoon
  | leftDrain stepped _ drains => exact stepped.stopsSoon_append drains.quiet
  | @running steps calls pause others _ stepped rests rounds ih =>
    rw [← List.append_assoc, answered_append] at answered
    rw [← List.append_assoc]
    refine StopsSoon.append answered.1 (fun asked => ?_) (ih answered.2)
    rw [asked] at rounds
    rw [List.append_assoc]
    exact stepped.stopsSoon_append (rests.quiet.append rounds.quiet)
  | finished stepped drains => exact stepped.stopsSoon_append drains.quiet
  | failed stepped drains isAsked =>
    refine stepped.stopsSoon_append (drains.quiet.append ?_)
    simp [Quiet, isAsked, Event.purpose]
  | refused stepped drains feeds isHalt =>
    refine stepped.stopsSoon_append (drains.quiet.append (feeds.quiet.append ?_))
    simp [Quiet, isHalt, Event.purpose]
  | @fed steps calls output input pause others _ stepped drains feeds rests rounds ih =>
    obtain _ | _ | @⟨input, pushed, line, isInput, unasked, isPushed⟩ := feeds
    have regroup : calls ++ (output ++ ([input, pushed] ++ (pause ++ others))) =
        (calls ++ (output ++ [input])) ++ ((pushed :: pause) ++ others) := by simp
    rw [regroup, answered_append] at answered
    rw [regroup]
    refine StopsSoon.append answered.1 (fun asked => ?_) ?_
    · simp [unasked] at asked
    · -- the line is given already, so from here on only a step could come too late
      have answered := answered_append.mp answered.2
      simp only [stoppedAfter_append, stoppedAfter_cons, stoppedAfter_nil] at answered rounds ih
      refine StopsSoon.append answered.1 (fun asked => ?_) (ih answered.2)
      rw [stoppedAfter_cons] at asked
      rw [asked] at rounds
      exact (rests.quiet.append rounds.quiet).stopsSoon_cons pushed

/-! ## Steps that are taken -/

/-- How things stand after the call, if it is a step. -/
def Event.state? : Event → Option StepState
  | .step state => some state
  | _ => none

/-- How things stood after each of the steps among some calls. -/
def states (calls : List (Moment ω)) : List StepState :=
  calls.filterMap fun call => call.event.state?

theorem Event.state?_eq_none_iff {event : Event} :
    event.state? = none ↔ event.purpose ≠ .stepping := by
  cases event <;> simp [state?, purpose]

@[simp] theorem states_append (calls more : List (Moment ω)) :
    states (calls ++ more) = states calls ++ states more :=
  List.filterMap_append

theorem states_eq_nil_iff {calls : List (Moment ω)} :
    states calls = [] ↔ ∀ call ∈ calls, call.event.purpose ≠ .stepping := by
  simp [states, Event.state?_eq_none_iff]

theorem Idle.states {calls : List (Moment ω)} (idle : Idle calls) : states calls = [] :=
  states_eq_nil_iff.mpr fun call member => (idle call member).1

theorem Steps.states {calls : List (Moment ω)} {state : StepState}
    (steps : Steps config calls (some state)) : states calls = [state] := by
  obtain _ | @⟨output, line, step, _, drains, isStep, shows_⟩ := steps
  have one : Run.states (step :: line) = state :: Run.states line := by
    simp [Run.states, isStep, Event.state?]
  simp [one, drains.idle.states, shows_.idle.states]

/-- One step at most comes behind a call during which a stop was asked for. -/
theorem Winding.length_states_le {call : Moment ω} {future : List (Moment ω)}
    (winding : Winding call future) : (states future).length ≤ 1 := by
  by_cases stepping : ∃ step ∈ future, step.event.purpose = .stepping
  · obtain ⟨step, member, isStep⟩ := stepping
    obtain ⟨handed, others, rfl⟩ := List.append_of_mem member
    have before : AllFor .handing (call :: handed) := winding.1 handed step others rfl isStep
    have stepless : ∀ later ∈ others, later.event.purpose ≠ .stepping := by
      intro later member isLater
      obtain ⟨between, rest, rfl⟩ := List.append_of_mem member
      have both : AllFor .handing (call :: (handed ++ step :: between)) :=
        winding.1 _ later rest (by simp) isLater
      exact nomatch (both step (by simp)).symm.trans isStep
    have idle : Idle handed := fun later member => by simp [before later (by simp [member])]
    have behind : (states (step :: others)).length ≤ 1 := by
      rw [← List.singleton_append, states_append, states_eq_nil_iff.mpr stepless, List.append_nil]
      exact List.length_filterMap_le _ [step]
    simpa [idle.states] using behind
  · have stepless : ∀ later ∈ future, later.event.purpose ≠ .stepping :=
      fun later member isStep => stepping ⟨later, member, isStep⟩
    simp [states_eq_nil_iff.mpr stepless]

/-- A run in which `steps` steps have been carried out comes to an end with some calls: the program
has ended or failed in the last step, or the interpreter is asked to stop and the steps are
counted. -/
def Ends (steps : Nat) (calls : List (Moment ω)) (result : Result) : Prop :=
  (states calls).getLast? = some .finished ∨ (states calls).getLast? = some .failed ∨
    result = .ok (.stopped (steps + (states calls).length)) ∧
      ∃ halt ∈ calls, halt.event = .requestStop

theorem Ends.behind {steps : Nat} {calls others : List (Moment ω)} {state : StepState}
    {result : Result} (ends : Ends (steps + 1) others result) (one : states calls = [state]) :
    Ends steps (calls ++ others) result := by
  unfold Ends
  rw [states_append, one, List.singleton_append, List.getLast?_cons, List.length_cons]
  rcases ends with last | last | ⟨rfl, halt, member, isHalt⟩
  · simp [last]
  · simp [last]
  · refine .inr (.inr ⟨?_, halt, by simp [member], isHalt⟩)
    simp only [Except.ok.injEq, Outcome.stopped.injEq]
    omega

theorem Rounds.ends {stopped : Bool} {steps : Nat} {calls : List (Moment ω)} {result : Result}
    (rounds : Rounds config stopped steps calls (some result)) : Ends steps calls result := by
  generalize ended : some result = outcome at rounds
  induction rounds with
  | left => exact nomatch ended
  | leftStep => exact nomatch ended
  | leftDrain => exact nomatch ended
  | @halted _ halt isHalt =>
    obtain rfl := Option.some.inj ended
    have none : states [halt] = [] := states_eq_nil_iff.mpr (by simp [isHalt, Event.purpose])
    exact .inr (.inr ⟨by simp [none], halt, by simp, isHalt⟩)
  | @running _ calls pause _ _ stepped rests _ ih =>
    have one : states (calls ++ pause) = [.running] := by simp [stepped.states, rests.idle.states]
    simpa using (ih ended).behind one
  | finished stepped drains => simp [Ends, stepped.states, drains.idle.states]
  | @failed _ _ _ asked _ stepped drains isAsked =>
    have none : states [asked] = [] := states_eq_nil_iff.mpr (by simp [isAsked, Event.purpose])
    simp [Ends, stepped.states, drains.idle.states, none]
  | @refused _ calls output input halt stepped drains feeds isHalt =>
    obtain rfl := Option.some.inj ended
    have none : states [halt] = [] := states_eq_nil_iff.mpr (by simp [isHalt, Event.purpose])
    have one : states (calls ++ (output ++ (input ++ [halt]))) = [.awaitingInput] := by
      simp [stepped.states, drains.idle.states, feeds.idle.states, none]
    exact .inr (.inr ⟨by simp [one], halt, by simp, isHalt⟩)
  | @fed _ calls output input pause _ _ stepped drains feeds rests _ ih =>
    have one : states (calls ++ (output ++ (input ++ pause))) = [.awaitingInput] := by
      simp [stepped.states, drains.idle.states, feeds.idle.states, rests.idle.states]
    simpa using (ih ended).behind one

/-! ## The whole run -/

/-- The calls of a run whose source is a program come to an end soon when a stop is asked for. -/
theorem Conversation.stopsSoon {source : String} {world : ω} {calls : List (Moment ω)}
    {outcome : Option Result} (conversation : Conversation config source calls outcome)
    (answered : Answered interpreter host world false calls) : StopsSoon calls := by
  cases conversation with
  | initFailed isReset isInit isAsked => exact Quiet.stopsSoon (by simp [Quiet, *, Event.purpose])
  | loadFailed isReset isInit isLoad isAsked =>
    exact Quiet.stopsSoon (by simp [Quiet, *, Event.purpose])
  | @rounds reset init load calls _ isReset isInit isLoad rounds =>
    have ready : AllFor .preparing [reset, init, load] := by simp [AllFor, *, Event.purpose]
    have quiet : Quiet [reset, init, load] := ready.quiet (by decide)
    rw [answered_append] at answered
    refine StopsSoon.append answered.1 (fun asked => ?_) (rounds.stopsSoon answered.2)
    rw [show load.stopped = true from asked] at rounds
    exact (quiet.append rounds.quiet).stopsSoon

/-- How a run whose source is a program comes to an end. -/
theorem Conversation.ends {source : String} {calls : List (Moment ω)} {result : Result}
    (conversation : Conversation config source calls (some result)) :
    (∃ text, result = .error (.initFailed text) ∨ result = .error (.loadFailed text)) ∨
      Ends 0 calls result := by
  cases conversation with
  | initFailed => exact .inl ⟨_, .inl rfl⟩
  | loadFailed => exact .inl ⟨_, .inr rfl⟩
  | @rounds reset init load calls _ isReset isInit isLoad rounds =>
    have none : states [reset, init, load] = [] :=
      states_eq_nil_iff.mpr (by simp [*, Event.purpose])
    unfold Ends
    rw [states_append, none, List.nil_append]
    rcases rounds.ends with last | last | ⟨stopped, halt, member, isHalt⟩
    · exact .inr (.inl last)
    · exact .inr (.inr (.inl last))
    · exact .inr (.inr (.inr ⟨stopped, halt, by simp [member], isHalt⟩))

/-- In orderly calls the request to stop comes once, and last. -/
theorem InOrder.halt_last {calls : List (Moment ω)} (inOrder : InOrder calls) {halt : Moment ω}
    (member : halt ∈ calls) (isHalt : halt.event = .requestStop) :
    ∃ others, calls = others ++ [halt] ∧ ∀ earlier ∈ others, earlier.event ≠ .requestStop := by
  obtain ⟨others, future, rfl⟩ := List.append_of_mem member
  rw [InOrder, List.pairwise_append, List.pairwise_cons] at inOrder
  have last : future = [] := List.eq_nil_iff_forall_not_mem.mpr fun later member =>
    (inOrder.2.1.1 later member).1 isHalt
  subst last
  exact ⟨others, rfl, fun earlier member => (inOrder.2.2 earlier member halt (by simp)).1⟩

/-- What a stop comes to that is asked for during a call of a run. One step at most is taken after
that call, and only if the stop was asked for while output was handed on for this step; no line of
input is given to the interpreter. Unless the interpreter could not get ready or load the program,
or the program has ended or failed in its last step, the run ends as stopped with the number of the
steps that were taken, and the interpreter is asked to stop once, in the last call, which is the
call during which the stop was asked for or a later one. -/
theorem run_asked_to_stop {source : String} {limit : Nat} {before session : Session ω}
    {result : Result} {past future : List (Moment ω)} {call : Moment ω}
    (h : run config interpreter host source limit before = some (result, session))
    (split : session.calls = past ++ call :: future)
    (asked : (call.event.perform interpreter host (worldAfter before.world past)).stop = true) :
    (states future).length ≤ 1 ∧
    (∀ (handed : List (Moment ω)) (step : Moment ω) (others : List (Moment ω)),
      future = handed ++ step :: others → step.event.purpose = .stepping →
        AllFor .handing (call :: handed)) ∧
    (∀ later ∈ future, ∀ line, later.event ≠ .pushInput line) ∧
    ((∃ text, result = .error (.initFailed text) ∨ result = .error (.loadFailed text)) ∨
      (states session.calls).getLast? = some .finished ∨
      (states session.calls).getLast? = some .failed ∨
      (result = .ok (.stopped (states session.calls).length) ∧
        ∃ (others : List (Moment ω)) (halt : Moment ω), call :: future = others ++ [halt] ∧
          halt.event = .requestStop ∧
          ∀ earlier ∈ past ++ others, earlier.event ≠ .requestStop)) := by
  cases parsed : Program.parse source with
  | error error =>
    rw [run_of_rejected config interpreter host parsed] at h
    obtain ⟨rfl, rfl⟩ := Prod.mk.inj (Option.some.inj h)
    simp [Session.fresh, Session.calls] at split
  | ok program =>
    obtain ⟨conversation, answered, _⟩ := conversation_of_follow parsed (run_eq_some_iff.mp h)
    have stopped : call.stopped = true := by
      rw [split, answered_append] at answered
      obtain ⟨_, _, flag, _⟩ := answered
      rw [flag, asked, Bool.or_true]
    have winding : Winding call future :=
      conversation.stopsSoon answered past call future split stopped
    refine ⟨winding.length_states_le, winding.1, winding.2, ?_⟩
    rcases conversation.ends with failed | last | last | ⟨eq, halt, member, isHalt⟩
    · exact .inl failed
    · exact .inr (.inl last)
    · exact .inr (.inr (.inl last))
    · obtain ⟨others, ending, earlier⟩ := conversation.inOrder.1.halt_last member isHalt
      have final : (call :: future).dropLast ++ [(call :: future).getLast (by simp)] =
          call :: future := List.dropLast_concat_getLast (by simp)
      rw [split, ← final, ← List.append_assoc] at ending
      obtain ⟨rfl, last⟩ := List.append_inj' ending rfl
      rw [Nat.zero_add] at eq
      refine .inr (.inr (.inr ⟨eq, (call :: future).dropLast, halt, ?_, isHalt, earlier⟩))
      rw [← last, final]

/-- A program that writes in both of its steps, where a stop is asked for when the first output is
shown. -/
def Stage.writing : Stage where
  script :=
    { steps := [{ state := .running, output := [some "first"] },
        { state := .running, output := [some "second"] }]
      stops := [("output", 1)] }

theorem run_asked_to_stop_writing :
    ∃ (session : Session Stage) (past : List (Moment Stage)) (call : Moment Stage)
        (future : List (Moment Stage)),
      run {} Stage.interpreter Stage.bareHost "scrie 1" 10 { world := Stage.writing } =
        some (.ok (.stopped 2), session) ∧
      session.calls = past ++ call :: future ∧ call.event = .output "first" ∧
      future.map Moment.event = [.hasOutput false, .step .running, .requestStop] ∧
      (states future).length ≤ 1 := by
  have stopped : (follow {} Stage.interpreter Stage.bareHost "scrie 1" 10
      (Session.fresh { world := Stage.writing })).1 = some (.ok (.stopped 2)) := by cbv
  have ran := run_eq_some_iff.mpr (Activity.apply_eq stopped)
  have long : 7 < (follow {} Stage.interpreter Stage.bareHost "scrie 1" 10
      (Session.fresh { world := Stage.writing })).2.calls.length := by cbv
  have split := (List.take_append_drop 7 _).symm.trans
    (congrArg _ (List.drop_eq_getElem_cons long))
  refine ⟨_, _, _, _, ran, split, ?_, ?_, (run_asked_to_stop ran split ?_).1⟩
  · cbv
  · cbv
  · cbv

/-- A program that asks for input when there is none, where a stop is asked for while the
interpreter is asked to stop. -/
def Stage.unanswered : Stage where
  script := { steps := [{ state := .awaitingInput }], stops := [("request_stop", 1)] }

/-- Nothing follows when the stop is asked for in the last call: the interpreter is being asked to
stop already, and is not asked again. -/
theorem run_asked_in_last_call :
    ∃ (session : Session Stage) (past : List (Moment Stage)) (call : Moment Stage)
        (future : List (Moment Stage)),
      run {} Stage.interpreter Stage.bareHost "scrie 1" 2 { world := Stage.unanswered } =
        some (.ok (.stopped 1), session) ∧
      session.calls = past ++ call :: future ∧
      (call.event.perform Stage.interpreter Stage.bareHost
        (worldAfter Stage.unanswered past)).stop = true ∧
      states session.calls = [.awaitingInput] ∧
      ∀ later ∈ future, later.event ≠ .requestStop := by
  have stopped : (follow {} Stage.interpreter Stage.bareHost "scrie 1" 2
      (Session.fresh { world := Stage.unanswered })).1 = some (.ok (.stopped 1)) := by cbv
  have ran := run_eq_some_iff.mpr (Activity.apply_eq stopped)
  have some_calls : (follow {} Stage.interpreter Stage.bareHost "scrie 1" 2
      (Session.fresh { world := Stage.unanswered })).2.calls ≠ [] := by cbv; simp
  refine ⟨_, _, _, [], ran, (List.dropLast_concat_getLast some_calls).symm, ?_, ?_, ?_⟩
  · cbv
  · cbv
  · simp

end Pseudocod.Run
