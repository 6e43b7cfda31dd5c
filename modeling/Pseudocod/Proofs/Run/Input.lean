import Pseudocod.Proofs.Run.Stopping

/-!
# The input of a run

A line of input is asked for when the program waits for one, and is given to the interpreter at
once. The only line that can get lost on the way is one that comes when a stop was asked for; it is
the last one of the run.

* `Rounds.supplied`: which lines the interpreter is given, and how often the host is asked.
* `Recording.requests_worldAfter`: what a recording host still has of its input.
* `follow_input`: what becomes of the input of a run.
-/

namespace Pseudocod.Run

variable {ω : Type} {config : Config} {interpreter : Interpreter ω} {host : Host ω}

/-! ## Lines of input -/

namespace Event

/-- The line that the host provides by the call. -/
def providedLine? : Event → Option String
  | .input line => line
  | _ => none

/-- The line that the interpreter is given by the call. -/
def givenLine? : Event → Option String
  | .pushInput line => some line
  | _ => none

/-- Whether the host is asked for input by the call. -/
def asksInput : Event → Bool
  | .input _ => true
  | _ => false

end Event

/-- The lines of input that the host provides by some calls. -/
def providedLines (calls : List (Moment ω)) : List String :=
  calls.filterMap fun call => call.event.providedLine?

/-- The lines of input that the interpreter is given by some calls. -/
def givenLines (calls : List (Moment ω)) : List String :=
  calls.filterMap fun call => call.event.givenLine?

/-- How often the host is asked for input by some calls. -/
def inputRequests (calls : List (Moment ω)) : Nat :=
  calls.countP fun call => call.event.asksInput

@[simp] theorem providedLines_append (calls more : List (Moment ω)) :
    providedLines (calls ++ more) = providedLines calls ++ providedLines more :=
  List.filterMap_append

@[simp] theorem givenLines_append (calls more : List (Moment ω)) :
    givenLines (calls ++ more) = givenLines calls ++ givenLines more :=
  List.filterMap_append

@[simp] theorem inputRequests_append (calls more : List (Moment ω)) :
    inputRequests (calls ++ more) = inputRequests calls + inputRequests more :=
  List.countP_append

/-- The lines that the interpreter is given are those that are provided, in order, and no stop was
asked for when they came. -/
structure AllDelivered (calls : List (Moment ω)) : Prop where
  lines : givenLines calls = providedLines calls
  inTime : ∀ call ∈ calls, ∀ line, call.event = .input (some line) → call.stopped = false

/-- The lines that the interpreter is given are those that are provided, in order, except that the
last one is withheld when a stop was asked for by the time it comes; the interpreter is then asked
to stop at once. -/
def Delivered (calls : List (Moment ω)) : Prop :=
  AllDelivered calls ∨
    ∃ (past : List (Moment ω)) (input halt : Moment ω) (line : String),
      calls = past ++ [input, halt] ∧ AllDelivered past ∧
        input.event = .input (some line) ∧ input.stopped = true ∧ halt.event = .requestStop

theorem AllDelivered.append {calls more : List (Moment ω)} (delivered : AllDelivered calls)
    (delivered' : AllDelivered more) : AllDelivered (calls ++ more) where
  lines := by rw [givenLines_append, providedLines_append, delivered.lines, delivered'.lines]
  inTime := List.forall_mem_append.mpr ⟨delivered.inTime, delivered'.inTime⟩

theorem AllDelivered.behind {calls more : List (Moment ω)} (delivered : AllDelivered calls)
    (delivered' : Delivered more) : Delivered (calls ++ more) := by
  rcases delivered' with all | ⟨past, input, halt, line, rfl, all, rest⟩
  · exact .inl (delivered.append all)
  · refine .inr ⟨calls ++ past, input, halt, line, ?_, delivered.append all, rest⟩
    rw [List.append_assoc]

/-! ## Parts of a run without input -/

/-- Calls that have nothing to do with input. -/
def Unfed (calls : List (Moment ω)) : Prop :=
  ∀ call ∈ calls, call.event.purpose ≠ .feeding

theorem Unfed.append {calls more : List (Moment ω)} (unfed : Unfed calls) (unfed' : Unfed more) :
    Unfed (calls ++ more) :=
  List.forall_mem_append.mpr ⟨unfed, unfed'⟩

theorem AllFor.unfed {purpose : Purpose} {calls : List (Moment ω)} (allFor : AllFor purpose calls)
    (other : purpose ≠ .feeding) : Unfed calls := by
  intro call member
  rw [allFor call member]
  exact other

theorem Drains.unfed {calls : List (Moment ω)} {outcome : Option Unit}
    (drains : Drains calls outcome) : Unfed calls :=
  drains.allFor.unfed (by decide)

theorem Rests.unfed {steps : Nat} {calls : List (Moment ω)} (rests : Rests config steps calls) :
    Unfed calls :=
  rests.allFor.unfed (by decide)

theorem Steps.unfed {calls : List (Moment ω)} {outcome : Option StepState}
    (steps : Steps config calls outcome) : Unfed calls :=
  steps.purpose_ne (by decide)

theorem Event.unfed_iff {event : Event} :
    event.purpose ≠ .feeding ↔ event.givenLine? = none ∧ event.asksInput = false := by
  cases event <;> simp [purpose, givenLine?, asksInput]

theorem Event.providedLine?_of_not_asks {event : Event} (unasked : event.asksInput = false) :
    event.providedLine? = none := by
  cases event <;> simp_all [providedLine?, asksInput]

namespace Unfed

variable {calls : List (Moment ω)}

theorem not_asks (unfed : Unfed calls) {call : Moment ω} (member : call ∈ calls) :
    call.event.asksInput = false :=
  (Event.unfed_iff.mp (unfed call member)).2

theorem inputRequests_eq (unfed : Unfed calls) : inputRequests calls = 0 :=
  List.countP_eq_zero.mpr fun call member => by simp [unfed.not_asks member]

theorem givenLines_eq (unfed : Unfed calls) : givenLines calls = [] :=
  List.filterMap_eq_nil_iff.mpr fun call member => (Event.unfed_iff.mp (unfed call member)).1

theorem providedLines_eq (unfed : Unfed calls) : providedLines calls = [] :=
  List.filterMap_eq_nil_iff.mpr fun _ member =>
    Event.providedLine?_of_not_asks (unfed.not_asks member)

theorem ne_input (unfed : Unfed calls) {call : Moment ω} (member : call ∈ calls)
    (line : Option String) : call.event ≠ .input line := by
  intro isInput
  have unasked := unfed.not_asks member
  simp [isInput, Event.asksInput] at unasked

theorem allDelivered (unfed : Unfed calls) : AllDelivered calls where
  lines := by rw [unfed.givenLines_eq, unfed.providedLines_eq]
  inTime call member line isInput := absurd isInput (unfed.ne_input member (some line))

end Unfed

/-! ## The rounds -/

/-- Calls behind which a run goes on: all lines are delivered, the host is asked for input as often
as the program waits for it, and always has a line. -/
structure Served (calls : List (Moment ω)) : Prop where
  delivered : AllDelivered calls
  requests : inputRequests calls = (states calls).count .awaitingInput
  provided : ∀ call ∈ calls, call.event ≠ .input none

/-- What becomes of the input in a run in which `steps` steps have been carried out. -/
structure Supplied (steps : Nat) (calls : List (Moment ω)) (outcome : Option Result) : Prop where
  delivered : Delivered calls
  /-- The host is asked for input as often as the program waits for it; a run may be left between
  the two. -/
  requests : inputRequests calls = (states calls).count .awaitingInput ∨
    outcome = none ∧ (states calls).getLast? = some .awaitingInput ∧
      inputRequests calls + 1 = (states calls).count .awaitingInput
  /-- Where the host has no line the run is stopped. -/
  refused : ∀ (past : List (Moment ω)) (input : Moment ω) (future : List (Moment ω)),
    calls = past ++ input :: future → input.event = .input none →
      ∃ halt, future = [halt] ∧ halt.event = .requestStop ∧
        outcome = some (.ok (.stopped (steps + (states calls).length)))

theorem Unfed.served {calls : List (Moment ω)} (unfed : Unfed calls)
    (busy : .awaitingInput ∉ states calls) : Served calls where
  delivered := unfed.allDelivered
  requests := by rw [unfed.inputRequests_eq, List.count_eq_zero_of_not_mem busy]
  provided call member := unfed.ne_input member none

theorem served_of_forall {calls : List (Moment ω)}
    (other : ∀ call ∈ calls, call.event.purpose ≠ .feeding ∧ call.event.purpose ≠ .stepping) :
    Served calls := by
  have unfed : Unfed calls := fun call member => (other call member).1
  have stepless : states calls = [] :=
    states_eq_nil_iff.mpr fun call member => (other call member).2
  exact unfed.served (by simp [stepless])

theorem AllFor.served {purpose : Purpose} {calls : List (Moment ω)} (allFor : AllFor purpose calls)
    (other : purpose ≠ .feeding ∧ purpose ≠ .stepping) : Served calls :=
  served_of_forall fun call member => by rwa [allFor call member]

theorem Served.supplied {calls : List (Moment ω)} (served : Served calls) (steps : Nat)
    (outcome : Option Result) : Supplied steps calls outcome where
  delivered := .inl served.delivered
  requests := .inl served.requests
  refused := by
    rintro past input future rfl isInput
    exact absurd isInput (served.provided input (by simp))

/-- A part of a run behind which it goes on, and the rest of it. -/
theorem Served.behind {steps : Nat} {calls more : List (Moment ω)} {outcome : Option Result}
    (served : Served calls) (supplied : Supplied (steps + (states calls).length) more outcome) :
    Supplied steps (calls ++ more) outcome where
  delivered := served.delivered.behind supplied.delivered
  requests := by
    rw [inputRequests_append, states_append, List.count_append, served.requests]
    rcases supplied.requests with eq | ⟨left, last, eq⟩
    · exact .inl (by rw [eq])
    · refine .inr ⟨left, ?_, by omega⟩
      rw [List.getLast?_append, last, Option.some_or]
  refused := by
    intro past input future split isInput
    rcases split_append split with ⟨rest, eq, _⟩ | ⟨earlier, eq, _⟩
    · exact absurd isInput (served.provided input (by simp [eq]))
    · rw [states_append, List.length_append, ← Nat.add_assoc]
      exact supplied.refused earlier input future eq isInput

/-- A step after which the program does not wait for input, and what is done behind it. -/
theorem Steps.served {calls more : List (Moment ω)} {state : StepState}
    (steps : Steps config calls (some state)) (busy : state ≠ .awaitingInput) (unfed : Unfed more)
    (idle : Idle more) : Served (calls ++ more) := by
  refine (steps.unfed.append unfed).served ?_
  simpa [steps.states, idle.states] using busy.symm

/-- A step after which the program waits for input, and the line that it gets. -/
theorem Steps.served_feeds {calls output input : List (Moment ω)}
    (steps : Steps config calls (some .awaitingInput)) (drains : Drains output (some ()))
    (feeds : Feeds input true) : Served (calls ++ (output ++ input)) := by
  have unfed : Unfed (calls ++ output) := steps.unfed.append drains.unfed
  have waited : Run.states (calls ++ (output ++ input)) = [.awaitingInput] := by
    simp [steps.states, drains.idle.states, feeds.idle.states]
  obtain _ | _ | @⟨input, pushed, line, isInput, going, isPushed⟩ := feeds
  have given : AllDelivered [input, pushed] := by
    constructor
    · simp [givenLines, providedLines, isInput, isPushed, Event.givenLine?, Event.providedLine?]
    · simp [going, isPushed]
  rw [← List.append_assoc] at waited ⊢
  refine ⟨unfed.allDelivered.append given, ?_, ?_⟩
  · rw [waited, inputRequests_append, unfed.inputRequests_eq]
    simp [inputRequests, isInput, isPushed, Event.asksInput]
  · refine List.forall_mem_append.mpr ⟨fun call member => unfed.ne_input member none, ?_⟩
    simp [isInput, isPushed]

/-- When no line is passed on, the host has been asked and had none, or a stop was asked for. -/
theorem Feeds.withheld {calls : List (Moment ω)} (feeds : Feeds calls false) :
    ∃ input line, calls = [input] ∧ input.event = .input line ∧
      (line = none ∨ input.stopped = true) := by
  cases feeds with
  | refused isInput => exact ⟨_, _, rfl, isInput, .inl rfl⟩
  | late isInput asked => exact ⟨_, _, rfl, isInput, .inr asked⟩

/-- A step after which the program waits for input, and the end of the run without it. -/
theorem Steps.supplied_halt {steps : Nat} {calls output input : List (Moment ω)} {halt : Moment ω}
    (stepped : Steps config calls (some .awaitingInput)) (drains : Drains output (some ()))
    (feeds : Feeds input false) (isHalt : halt.event = .requestStop) :
    Supplied steps (calls ++ (output ++ (input ++ [halt])))
      (some (.ok (.stopped (steps + 1)))) := by
  have unfed : Unfed (calls ++ output) := stepped.unfed.append drains.unfed
  have waited : Run.states (calls ++ (output ++ (input ++ [halt]))) = [.awaitingInput] := by
    have stepless : Run.states [halt] = [] :=
      states_eq_nil_iff.mpr (by simp [isHalt, Event.purpose])
    simp [stepped.states, drains.idle.states, feeds.idle.states, stepless]
  obtain ⟨input, line, rfl, isInput, withheld⟩ := feeds.withheld
  rw [← List.append_assoc, List.singleton_append] at waited ⊢
  refine ⟨?_, .inl ?_, ?_⟩
  · cases line with
    | none =>
      have none_given : AllDelivered [input, halt] := by
        constructor
        · simp [givenLines, providedLines, isInput, isHalt, Event.givenLine?, Event.providedLine?]
        · simp [isInput, isHalt]
      exact .inl (unfed.allDelivered.append none_given)
    | some line =>
      have asked : input.stopped = true := withheld.resolve_left (by simp)
      exact .inr ⟨calls ++ output, input, halt, line, rfl, unfed.allDelivered, isInput, asked,
        isHalt⟩
  · rw [waited, inputRequests_append, unfed.inputRequests_eq]
    simp [inputRequests, isInput, isHalt, Event.asksInput]
  · intro past other future split isOther
    rcases split_append split with ⟨rest, eq, _⟩ | ⟨earlier, eq, _⟩
    · exact absurd isOther (unfed.ne_input (by simp [eq]) none)
    · rcases List.cons_eq_append_iff.mp eq with ⟨_, eq⟩ | ⟨others, _, eq⟩
      · obtain ⟨_, rfl⟩ := List.cons.inj eq
        exact ⟨halt, rfl, isHalt, by rw [waited]; rfl⟩
      · obtain ⟨_, rfl, _⟩ : others = [] ∧ other = halt ∧ future = [] := by
          simpa [List.cons_eq_append_iff] using eq
        cases isHalt.symm.trans isOther

/-- What becomes of the input in the rounds of a run. -/
theorem Rounds.supplied {stopped : Bool} {steps : Nat} {calls : List (Moment ω)}
    {outcome : Option Result} (rounds : Rounds config stopped steps calls outcome) :
    Supplied steps calls outcome := by
  induction rounds with
  | left => exact (served_of_forall (by simp)).supplied _ _
  | @halted _ halt isHalt =>
    have stopping : AllFor .stopping [halt] := .single isHalt
    exact (stopping.served (by decide)).supplied _ _
  | leftStep stepped =>
    obtain drains | _ := stepped
    exact (drains.allFor.served (by decide)).supplied _ _
  | @leftDrain _ calls output state stepped _ drains =>
    by_cases busy : state = .awaitingInput
    · subst busy
      have unfed : Unfed (calls ++ output) := stepped.unfed.append drains.unfed
      have waited : states (calls ++ output) = [.awaitingInput] := by
        simp [stepped.states, drains.idle.states]
      refine ⟨.inl unfed.allDelivered, .inr ⟨rfl, by rw [waited]; rfl, ?_⟩, ?_⟩
      · rw [waited, unfed.inputRequests_eq]; rfl
      · intro past input future split isInput
        exact absurd isInput (unfed.ne_input (by simp [split]) none)
    · exact (stepped.served busy drains.unfed drains.idle).supplied _ _
  | @running _ calls pause _ _ stepped rests _ ih =>
    have one : states (calls ++ pause) = [.running] := by simp [stepped.states, rests.idle.states]
    rw [← List.append_assoc]
    exact (stepped.served (by decide) rests.unfed rests.idle).behind (by rw [one]; exact ih)
  | finished stepped drains =>
    exact (stepped.served (by decide) drains.unfed drains.idle).supplied _ _
  | @failed _ _ output asked _ stepped drains isAsked =>
    have reporting : AllFor .reporting [asked] := .single isAsked
    have unfed : Unfed (output ++ [asked]) := drains.unfed.append (reporting.unfed (by decide))
    have idle : Idle (output ++ [asked]) := drains.idle.append (reporting.idle (by decide))
    exact (stepped.served (by decide) unfed idle).supplied _ _
  | refused stepped drains feeds isHalt => exact stepped.supplied_halt drains feeds isHalt
  | @fed _ calls output input pause _ _ stepped drains feeds rests _ ih =>
    have front : Served (calls ++ (output ++ input)) := stepped.served_feeds drains feeds
    have pausing : Served pause := rests.allFor.served (by decide)
    have one : states (calls ++ (output ++ input)) = [.awaitingInput] := by
      simp [stepped.states, drains.idle.states, feeds.idle.states]
    have later := pausing.behind (by rw [rests.idle.states]; exact ih)
    simpa using front.behind (by rw [one]; exact later)

/-- What becomes of the input in a run whose source is a program. -/
theorem Conversation.supplied {source : String} {calls : List (Moment ω)}
    {outcome : Option Result} (conversation : Conversation config source calls outcome) :
    Supplied 0 calls outcome := by
  cases conversation with
  | initFailed isReset isInit isAsked =>
    exact (served_of_forall (by simp [*, Event.purpose])).supplied _ _
  | loadFailed isReset isInit isLoad isAsked =>
    exact (served_of_forall (by simp [*, Event.purpose])).supplied _ _
  | @rounds reset init load _ _ isReset isInit isLoad rounds =>
    have preparing : AllFor .preparing [reset, init, load] := by simp [AllFor, *, Event.purpose]
    have ready : Served [reset, init, load] := preparing.served (by decide)
    have stepless : states [reset, init, load] = [] :=
      states_eq_nil_iff.mpr (by simp [*, Event.purpose])
    exact ready.behind (by rw [stepless]; exact rounds.supplied)

/-! ## Recording hosts -/

/-- What a recording host keeps of the call that an event describes. -/
def Recorder.keep (recorder : Recorder) : Event → Recorder
  | .output text => (Recorder.host.output text recorder).world
  | .input _ => (Recorder.host.input recorder).world
  | .showLine line => (Recorder.host.showLine line recorder).world
  | .yield => (Recorder.host.yield recorder).world
  | .delay milliseconds => (Recorder.host.delay milliseconds recorder).world
  | _ => recorder

/-- A recording host counts a request for input, and takes the first line from its list for it. -/
theorem Recorder.keep_requests (recorder : Recorder) (event : Event) :
    (recorder.keep event).inputRequests =
        recorder.inputRequests + (if event.asksInput then 1 else 0) ∧
      (recorder.keep event).inputs = recorder.inputs.drop (if event.asksInput then 1 else 0) := by
  cases event <;> simp [keep, Recorder.host, Event.asksInput]

/-- The host is a recording one that lies somewhere in the world: it answers the calls that are made
to it, and nothing else changes it. -/
structure Recording (interpreter : Interpreter ω) (host : Host ω) (recorder : ω → Recorder) :
    Prop where
  value_input : ∀ world, (host.input world).value = (Recorder.host.input (recorder world)).value
  keep : ∀ (event : Event) (world : ω),
    recorder (event.perform interpreter host world).world = (recorder world).keep event

namespace Recording

variable {recorder : ω → Recorder}

/-- A recording host counts the requests for input, and takes a line from its list for each. -/
theorem requests_worldAfter (recording : Recording interpreter host recorder) {world : ω}
    {stopped : Bool} {calls : List (Moment ω)}
    (answered : Answered interpreter host world stopped calls) :
    (recorder (worldAfter world calls)).inputRequests =
        (recorder world).inputRequests + inputRequests calls ∧
      (recorder (worldAfter world calls)).inputs =
        (recorder world).inputs.drop (inputRequests calls) := by
  induction calls generalizing world stopped with
  | nil => exact ⟨rfl, rfl⟩
  | cons call calls ih =>
    obtain ⟨requests, inputs⟩ := ih answered.tail
    have kept : recorder call.world = (recorder world).keep call.event := by
      rw [← recording.keep call.event world, answered.head.2]
    obtain ⟨request, line⟩ := (recorder world).keep_requests call.event
    rw [worldAfter_cons, requests, inputs, kept, request, line, List.drop_drop, inputRequests,
      inputRequests, List.countP_cons]
    constructor
    · rw [Nat.add_right_comm, Nat.add_assoc]
    · rw [Nat.add_comm]

/-- A recording host whose list is empty has no line. -/
theorem not_provided (recording : Recording interpreter host recorder) {world : ω} {stopped : Bool}
    {input : Moment ω} {calls : List (Moment ω)} {line : Option String}
    (answered : Answered interpreter host world stopped (input :: calls))
    (isInput : input.event = .input line) (empty : (recorder world).inputs = []) : line = none := by
  have value := answered.head.1
  rw [isInput] at value
  have answer : (host.input world).value = line := Event.input.inj value
  rw [← answer, recording.value_input, Recorder.host]
  simp [empty]

end Recording

/-! ## The whole run -/

/-- What becomes of the input of a run, as far as it is followed. The lines that the interpreter is
given are the lines that the host provides, in order and each once, except that the last one is
withheld if and only if a stop was asked for by the time it comes. The host is asked for input once
for each step after which the program waits for it. A recording host counts the requests, takes a
line from its list for each, and the first request for which it has none ends the run, which is
stopped. -/
theorem follow_input {source : String} {limit : Nat} {before session : Session ω}
    {outcome : Option Result}
    (h : follow config interpreter host source limit before.fresh = (outcome, session)) :
    Answered interpreter host before.world false session.calls ∧
    Delivered session.calls ∧
    (inputRequests session.calls = (states session.calls).count .awaitingInput ∨
      outcome = none ∧ (states session.calls).getLast? = some .awaitingInput ∧
        inputRequests session.calls + 1 = (states session.calls).count .awaitingInput) ∧
    ∀ recorder : ω → Recorder, Recording interpreter host recorder →
      (recorder session.world).inputRequests =
        (recorder before.world).inputRequests + inputRequests session.calls ∧
      (recorder session.world).inputs =
        (recorder before.world).inputs.drop (inputRequests session.calls) ∧
      ∀ (past : List (Moment ω)) (input : Moment ω) (future : List (Moment ω))
        (line : Option String), session.calls = past ++ input :: future →
        input.event = .input line → (recorder (worldAfter before.world past)).inputs = [] →
          ∃ halt, future = [halt] ∧ halt.event = .requestStop ∧
            outcome = some (.ok (.stopped (states session.calls).length)) := by
  have facts : Supplied 0 session.calls outcome ∧
      Answered interpreter host before.world false session.calls ∧
        session.world = worldAfter before.world session.calls := by
    cases parsed : Program.parse source with
    | ok program =>
      obtain ⟨conversation, rest⟩ := conversation_of_follow parsed h
      exact ⟨conversation.supplied, rest⟩
    | error error =>
      rw [follow_of_rejected config interpreter host parsed] at h
      obtain ⟨rfl, rfl⟩ := Prod.mk.inj h
      exact ⟨(served_of_forall (by simp [Session.fresh, Session.calls])).supplied _ _, trivial, rfl⟩
  obtain ⟨supplied, answered, final⟩ := facts
  refine ⟨answered, supplied.delivered, supplied.requests, fun recorder recording => ?_⟩
  obtain ⟨requests, inputs⟩ := recording.requests_worldAfter answered
  rw [final]
  refine ⟨requests, inputs, fun past input future line split isInput empty => ?_⟩
  rw [split, answered_append] at answered
  obtain rfl := recording.not_provided answered.2 isInput empty
  have refused := supplied.refused past input future split isInput
  rwa [Nat.zero_add] at refused

/-- The recorder on a stage is a recording host. -/
theorem Stage.recording : Recording Stage.interpreter Stage.fullHost Stage.recorder where
  value_input _ := rfl
  keep event stage := by
    cases event with
    | step state => rcases stage with ⟨⟨_ | ⟨step, steps⟩⟩⟩ <;> rfl
    | _ => rfl

/-- A program that asks for input twice, where a stop is asked for when the second line comes. -/
def Stage.hurried : Stage where
  script :=
    { steps := [{ state := .awaitingInput }, { state := .awaitingInput }], stops := [("input", 2)] }
  recorder := { inputs := ["5", "7", "9"] }

theorem follow_input_hurried :
    ∃ session, follow {} Stage.interpreter Stage.fullHost "citeste n" 10
        (Session.fresh { world := Stage.hurried }) = (some (.ok (.stopped 2)), session) ∧
      providedLines session.calls = ["5", "7"] ∧ givenLines session.calls = ["5"] ∧
      Delivered session.calls ∧ session.world.recorder.inputRequests = 2 ∧
      session.world.recorder.inputs = ["9"] := by
  have stopped : (follow {} Stage.interpreter Stage.fullHost "citeste n" 10
      (Session.fresh { world := Stage.hurried })).1 = some (.ok (.stopped 2)) := by cbv
  have twice : inputRequests (follow {} Stage.interpreter Stage.fullHost "citeste n" 10
      (Session.fresh { world := Stage.hurried })).2.calls = 2 := by cbv
  have followed := Activity.apply_eq stopped
  obtain ⟨_, delivered, _, recorded⟩ := follow_input followed
  obtain ⟨requests, inputs, _⟩ := recorded Stage.recorder Stage.recording
  rw [twice] at requests inputs
  exact ⟨_, followed, by cbv, by cbv, delivered, requests, inputs⟩

end Pseudocod.Run
