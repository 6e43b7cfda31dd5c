import Pseudocod.Run.Loop

/-!
# The calls of a run

Which calls a run makes and in which order, said without carrying it out: one rule for each way in
which a part of a run can go. A run that has not come to its end has no result; its calls are those
up to the place where it was left.

* `Activity.Makes`: the calls that an activity makes, whatever it is answered.
* `rounds_makes`, `follow_makes`: the calls of the rounds and of a whole run follow the rules, and
  each one is answered by its party in the world that the one before has left.
-/

namespace Pseudocod.Run

variable {ω α β : Type}

/-! ## Answers -/

/-- A reply with a changed value. -/
def Reply.map (f : α → β) (reply : Reply ω α) : Reply ω β where
  value := f reply.value
  world := reply.world
  stop := reply.stop

/-- The reply to the call that an event describes, with the event as it is answered. -/
def Event.perform (interpreter : Interpreter ω) (host : Host ω) (world : ω) :
    Event → Reply ω Event
  | .reset => (interpreter.reset world).map fun _ => .reset
  | .init _ => (interpreter.init world).map .init
  | .initError _ => (interpreter.initError world).map .initError
  | .load source _ => (interpreter.load source world).map (.load source)
  | .error _ => (interpreter.error world).map .error
  | .step _ => (interpreter.step world).map .step
  | .hasOutput _ => (interpreter.hasOutput world).map .hasOutput
  | .popOutput _ => (interpreter.popOutput world).map .popOutput
  | .currentLine _ => (interpreter.currentLine world).map .currentLine
  | .pushInput line => (interpreter.pushInput line world).map fun _ => .pushInput line
  | .requestStop => (interpreter.requestStop world).map fun _ => .requestStop
  | .output text => (host.output text world).map fun _ => .output text
  | .input _ => (host.input world).map .input
  | .showLine line => (host.showLine line world).map fun _ => .showLine line
  | .yield => (host.yield world).map fun _ => .yield
  | .delay milliseconds => (host.delay milliseconds world).map fun _ => .delay milliseconds

/-- Calls that are made in a world one after another, each of which is answered by its party in the
world that the one before has left; a stop counts as asked for from the call on in which it was. -/
def Answered (interpreter : Interpreter ω) (host : Host ω) :
    (world : ω) → (stopped : Bool) → List (Moment ω) → Prop
  | _, _, [] => True
  | world, stopped, moment :: calls =>
    moment.event.perform interpreter host world =
        { value := moment.event, world := moment.world
          stop := (moment.event.perform interpreter host world).stop } ∧
      moment.stopped = (stopped || (moment.event.perform interpreter host world).stop) ∧
        Answered interpreter host moment.world moment.stopped calls

theorem answered_append {interpreter : Interpreter ω} {host : Host ω} {world : ω} {stopped : Bool}
    {calls more : List (Moment ω)} :
    Answered interpreter host world stopped (calls ++ more) ↔
      Answered interpreter host world stopped calls ∧
        Answered interpreter host (worldAfter world calls) (stoppedAfter stopped calls) more := by
  induction calls generalizing world stopped with
  | nil => simp [Answered]
  | cons moment calls ih => simp [Answered, ih, and_assoc]

theorem Answered.head {interpreter : Interpreter ω} {host : Host ω} {world : ω} {stopped : Bool}
    {call : Moment ω} {calls : List (Moment ω)}
    (answered : Answered interpreter host world stopped (call :: calls)) :
    (call.event.perform interpreter host world).value = call.event ∧
      (call.event.perform interpreter host world).world = call.world :=
  ⟨congrArg Reply.value answered.1, congrArg Reply.world answered.1⟩

theorem Answered.tail {interpreter : Interpreter ω} {host : Host ω} {world : ω} {stopped : Bool}
    {call : Moment ω} {calls : List (Moment ω)}
    (answered : Answered interpreter host world stopped (call :: calls)) :
    Answered interpreter host call.world call.stopped calls :=
  answered.2.2

/-! ## The rules -/

/-- The calls by which output is handed on: as long as there is some, a piece is taken and shown;
where no piece is given nothing more is handed on. -/
inductive Drains : List (Moment ω) → Option Unit → Prop where
  | left : Drains [] none
  | empty {asked : Moment ω} : asked.event = .hasOutput false → Drains [asked] (some ())
  | missing {asked taken : Moment ω} :
    asked.event = .hasOutput true → taken.event = .popOutput none →
      Drains [asked, taken] (some ())
  | piece {asked taken shown : Moment ω} {text : String} {calls : List (Moment ω)}
      {outcome : Option Unit} :
    asked.event = .hasOutput true → taken.event = .popOutput (some text) →
      shown.event = .output text → Drains calls outcome →
        Drains (asked :: taken :: shown :: calls) outcome

/-- The calls by which a line is shown: none if the run is not debugged. -/
inductive Shows (config : Config) : List (Moment ω) → Prop where
  | nothing : config.debug = false → Shows config []
  | line {asked shown : Moment ω} {line : Nat} :
    config.debug = true → asked.event = .currentLine line → shown.event = .showLine line →
      Shows config [asked, shown]

/-- The calls of a step: output is handed on, the step is carried out, and the line is shown. -/
inductive Steps (config : Config) : List (Moment ω) → Option StepState → Prop where
  | left {output : List (Moment ω)} : Drains output none → Steps config output none
  | step {output line : List (Moment ω)} {step : Moment ω} {state : StepState} :
    Drains output (some ()) → step.event = .step state → Shows config line →
      Steps config (output ++ step :: line) (some state)

/-- The calls by which a line of input is passed on, unless there is none or a stop was asked for
by the time it is there. -/
inductive Feeds : List (Moment ω) → Bool → Prop where
  | refused {input : Moment ω} : input.event = .input none → Feeds [input] false
  | late {input : Moment ω} {line : String} :
    input.event = .input (some line) → input.stopped = true → Feeds [input] false
  | fed {input pushed : Moment ω} {line : String} :
    input.event = .input (some line) → input.stopped = false → pushed.event = .pushInput line →
      Feeds [input, pushed] true

/-- The calls between two rounds, when `steps` steps have been carried out. -/
def Rests (config : Config) (steps : Nat) (calls : List (Moment ω)) : Prop :=
  calls.map Moment.event =
    (if config.yieldsAfter steps then [.yield] else []) ++
      if config.debug then [.delay config.stepDelay] else []

/-- The calls of the rounds of a run in which `steps` steps have been carried out, when it is known
whether a stop was asked for. -/
inductive Rounds (config : Config) :
    (stopped : Bool) → (steps : Nat) → List (Moment ω) → Option Result → Prop where
  | left {stopped : Bool} {steps : Nat} : Rounds config stopped steps [] none
  | halted {steps : Nat} {halt : Moment ω} :
    halt.event = .requestStop → Rounds config true steps [halt] (some (.ok (.stopped steps)))
  | leftStep {steps : Nat} {calls : List (Moment ω)} :
    Steps config calls none → Rounds config false steps calls none
  | leftDrain {steps : Nat} {calls output : List (Moment ω)} {state : StepState} :
    Steps config calls (some state) → state ≠ .running → Drains output none →
      Rounds config false steps (calls ++ output) none
  | running {steps : Nat} {calls pause others : List (Moment ω)} {outcome : Option Result} :
    Steps config calls (some .running) → Rests config (steps + 1) pause →
      Rounds config (stoppedAfter false (calls ++ pause)) (steps + 1) others outcome →
        Rounds config false steps (calls ++ (pause ++ others)) outcome
  | finished {steps : Nat} {calls output : List (Moment ω)} :
    Steps config calls (some .finished) → Drains output (some ()) →
      Rounds config false steps (calls ++ output) (some (.ok (.completed (steps + 1))))
  | failed {steps : Nat} {calls output : List (Moment ω)} {asked : Moment ω}
      {text : Option String} :
    Steps config calls (some .failed) → Drains output (some ()) → asked.event = .error text →
      Rounds config false steps (calls ++ (output ++ [asked]))
        (some (.error (.stepFailed (text.getD "unknown runtime error"))))
  | refused {steps : Nat} {calls output input : List (Moment ω)} {halt : Moment ω} :
    Steps config calls (some .awaitingInput) → Drains output (some ()) → Feeds input false →
      halt.event = .requestStop →
        Rounds config false steps (calls ++ (output ++ (input ++ [halt])))
          (some (.ok (.stopped (steps + 1))))
  | fed {steps : Nat} {calls output input pause others : List (Moment ω)}
      {outcome : Option Result} :
    Steps config calls (some .awaitingInput) → Drains output (some ()) → Feeds input true →
      Rests config (steps + 1) pause →
        Rounds config (stoppedAfter false (calls ++ (output ++ (input ++ pause)))) (steps + 1)
          others outcome →
          Rounds config false steps (calls ++ (output ++ (input ++ (pause ++ others)))) outcome

/-- The calls of a run whose source is a program. -/
inductive Conversation (config : Config) (source : String) :
    List (Moment ω) → Option Result → Prop where
  | initFailed {reset init asked : Moment ω} {text : Option String} :
    reset.event = .reset → init.event = .init false → asked.event = .initError text →
      Conversation config source [reset, init, asked]
        (some (.error (.initFailed (text.getD "unknown initialization error"))))
  | loadFailed {reset init load asked : Moment ω} {text : Option String} :
    reset.event = .reset → init.event = .init true → load.event = .load source false →
      asked.event = .error text →
        Conversation config source [reset, init, load, asked]
          (some (.error (.loadFailed (text.getD "unknown load error"))))
  | rounds {reset init load : Moment ω} {calls : List (Moment ω)} {outcome : Option Result} :
    reset.event = .reset → init.event = .init true → load.event = .load source true →
      Rounds config load.stopped 0 calls outcome →
        Conversation config source ([reset, init, load] ++ calls) outcome

/-! ## What activities do -/

section
variable (interpreter : Interpreter ω) (host : Host ω)

/-- The calls that the activity makes in the session and what it comes to are as `Says` has it, and
all calls are answered by their parties. -/
def Activity.Makes (session : Session ω) (activity : Activity ω α)
    (Says : List (Moment ω) → Option α → Prop) : Prop :=
  ∃ calls, (activity session).2 = session.after calls ∧
    Answered interpreter host session.world session.stopped calls ∧ Says calls (activity session).1

variable {interpreter host} {session : Session ω} {Says : List (Moment ω) → Option α → Prop}

namespace Activity.Makes

theorem pure {value : α} (h : Says [] (some value)) :
    Makes interpreter host session (Pure.pure value) Says :=
  ⟨[], rfl, trivial, h⟩

theorem leave (h : Says [] none) : Makes interpreter host session leave Says :=
  ⟨[], rfl, trivial, h⟩

theorem weaken {activity : Activity ω α} {Says' : List (Moment ω) → Option α → Prop}
    (makes : Makes interpreter host session activity Says')
    (h : ∀ calls outcome, Says' calls outcome → Says calls outcome) :
    Makes interpreter host session activity Says := by
  obtain ⟨calls, eq, answered, said⟩ := makes
  exact ⟨calls, eq, answered, h _ _ said⟩

/-- One activity after another: the calls of the second one come behind those of the first. -/
theorem bind {first : Activity ω β} {next : β → Activity ω α}
    {First : List (Moment ω) → Option β → Prop} (hFirst : Makes interpreter host session first First)
    (left : ∀ calls, First calls none → Says calls none)
    (both : ∀ calls value, First calls (some value) →
      Makes interpreter host (session.after calls) (next value) fun more => Says (calls ++ more)) :
    Makes interpreter host session (first >>= next) Says := by
  obtain ⟨calls, eq, answered, said⟩ := hFirst
  rw [Makes, bind_apply]
  generalize first session = result at eq said
  rcases result with ⟨_ | value, session'⟩
  · exact ⟨calls, eq, answered, left calls said⟩
  · obtain rfl : session' = session.after calls := eq
    obtain ⟨more, eq', answered', said'⟩ := both calls value said
    refine ⟨calls ++ more, ?_, answered_append.mpr ⟨answered, answered'⟩, said'⟩
    rw [Session.after_append]
    exact eq'

/-- One activity after another, the first of which is never left. -/
theorem bind_done {first : Activity ω Unit} {next : Unit → Activity ω α}
    {Does : List (Moment ω) → Prop}
    (done : Makes interpreter host session first fun calls outcome =>
      outcome = some () ∧ Does calls)
    (both : ∀ calls, Does calls →
      Makes interpreter host (session.after calls) (next ()) fun more => Says (calls ++ more)) :
    Makes interpreter host session (first >>= next) Says := by
  refine done.bind ?_ ?_
  · rintro calls ⟨left, _⟩
    cases left
  · rintro calls _ ⟨_, does⟩
    exact both calls does

/-- A call, if it is the one that its event describes. -/
theorem ask {event : α → Event} {operation : ω → Reply ω α}
    (proper : ∀ world, (event (operation world).value).perform interpreter host world =
      (operation world).map event)
    (h : ∀ value moment, moment.event = event value → Says [moment] (some value)) :
    Makes interpreter host session (ask event operation) Says := by
  refine ⟨_, congrArg Prod.snd (session.call_eq_after event operation), ?_, h _ _ rfl⟩
  simp [Answered, proper, Reply.map]

theorem tell {event : Event} {operation : ω → Reply ω Unit} {Says : List (Moment ω) → Option Unit → Prop}
    (proper : ∀ world, event.perform interpreter host world =
      (operation world).map fun _ => event)
    (h : ∀ moment, moment.event = event → Says [moment] (some ())) :
    Makes interpreter host session (tell event operation) Says :=
  ask proper fun _ => h

theorem tellIf {condition : Prop} [Decidable condition] {event : Event}
    {operation : ω → Reply ω Unit}
    (proper : ∀ world, event.perform interpreter host world =
      (operation world).map fun _ => event) :
    Makes interpreter host session (tellIf condition event operation) fun calls outcome =>
      outcome = some () ∧ calls.map Moment.event = if condition then [event] else [] := by
  rw [Activity.tellIf]
  split
  · exact tell proper fun moment eq => ⟨rfl, congrArg (fun event => [event]) eq⟩
  · exact pure ⟨rfl, rfl⟩

/-- A call and what is done when it has been answered. -/
theorem ask_bind {event : β → Event} {operation : ω → Reply ω β} {next : β → Activity ω α}
    (proper : ∀ world, (event (operation world).value).perform interpreter host world =
      (operation world).map event)
    (both : ∀ value moment, moment.event = event value →
      Makes interpreter host (session.after [moment]) (next value) fun more =>
        Says (moment :: more)) :
    Makes interpreter host session (Activity.ask event operation >>= next) Says := by
  have asked : Makes interpreter host session (Activity.ask event operation) fun calls outcome =>
      ∃ value moment, calls = [moment] ∧ moment.event = event value ∧ outcome = some value :=
    ask proper fun value moment eq => ⟨value, moment, rfl, eq, rfl⟩
  refine asked.bind ?_ ?_
  · rintro _ ⟨_, _, _, _, ⟨⟩⟩
  · rintro _ value ⟨_, moment, rfl, eq, ⟨⟩⟩
    exact both value moment eq

theorem tell_bind {event : Event} {operation : ω → Reply ω Unit} {next : Unit → Activity ω α}
    (proper : ∀ world, event.perform interpreter host world =
      (operation world).map fun _ => event)
    (both : ∀ moment, moment.event = event →
      Makes interpreter host (session.after [moment]) (next ()) fun more =>
        Says (moment :: more)) :
    Makes interpreter host session (Activity.tell event operation >>= next) Says :=
  ask_bind proper fun _ => both

theorem stopAsked_bind {next : Bool → Activity ω α}
    (both : Makes interpreter host session (next session.stopped) Says) :
    Makes interpreter host session (Activity.stopAsked >>= next) Says :=
  both

end Activity.Makes

/-! ## The parts of a run -/

open Activity

theorem drain_makes (limit : Nat) (session : Session ω) :
    Makes interpreter host session (drain interpreter host limit) Drains := by
  induction limit generalizing session with
  | zero => exact .leave .left
  | succ limit ih =>
    rw [drain]
    refine .ask_bind (fun _ => rfl) ?_
    rintro (_ | _) asked isAsked
    · exact .pure (.empty isAsked)
    · refine .ask_bind (fun _ => rfl) ?_
      rintro (_ | text) taken isTaken
      · exact .pure (.missing isAsked isTaken)
      · refine .tell_bind (fun _ => rfl) fun shown isShown => ?_
        exact (ih _).weaken fun calls outcome => .piece isAsked isTaken isShown

variable {config : Config}

theorem showLine_makes (session : Session ω) :
    Makes interpreter host session (showLine config interpreter host) fun calls outcome =>
      outcome = some () ∧ Shows config calls := by
  rw [showLine]
  split
  next debug =>
    refine .ask_bind (fun _ => rfl) fun line asked isAsked => ?_
    refine .tell (fun _ => rfl) fun shown isShown => ?_
    exact ⟨rfl, .line debug isAsked isShown⟩
  next silent =>
    exact .pure ⟨rfl, .nothing (Bool.eq_false_iff.mpr silent)⟩

theorem takeStep_makes (limit : Nat) (session : Session ω) :
    Makes interpreter host session (takeStep config interpreter host limit) (Steps config) := by
  refine (drain_makes limit session).bind (fun _ => .left) fun output _ drained => ?_
  refine .ask_bind (fun _ => rfl) fun state step isStep => ?_
  refine (showLine_makes _).bind_done fun line shown => .pure ?_
  rw [List.append_nil]
  exact .step drained isStep shown

theorem feedLine_makes (session : Session ω) :
    Makes interpreter host session (feedLine interpreter host) fun calls outcome =>
      ∃ fed, outcome = some fed ∧ Feeds calls fed := by
  rw [feedLine]
  refine .ask_bind (fun _ => rfl) ?_
  rintro (_ | line) input isInput
  · exact .pure ⟨false, rfl, .refused isInput⟩
  · refine .stopAsked_bind ?_
    rw [Session.stopped_after, stoppedAfter_cons, stoppedAfter_nil]
    split
    next stopped => exact .pure ⟨false, rfl, .late isInput stopped⟩
    next going =>
      refine .tell_bind (fun _ => rfl) fun pushed isPushed => ?_
      exact .pure ⟨true, rfl, .fed isInput (Bool.eq_false_iff.mpr going) isPushed⟩

theorem rest_makes (steps : Nat) (session : Session ω) :
    Makes interpreter host session (rest config host steps) fun calls outcome =>
      outcome = some () ∧ Rests config steps calls := by
  refine (Makes.tellIf fun _ => rfl).bind_done fun time given => ?_
  refine (Makes.tellIf fun _ => rfl).weaken fun pause outcome paused => ⟨paused.1, ?_⟩
  rw [Rests, List.map_append, given, paused.2]

theorem halt_makes (steps : Nat) (session : Session ω) :
    Makes interpreter host session (halt interpreter steps) fun calls outcome =>
      ∃ halt, calls = [halt] ∧ halt.event = .requestStop ∧
        outcome = some (.ok (.stopped steps)) := by
  rw [halt]
  refine .tell_bind (fun _ => rfl) fun halt isHalt => ?_
  exact .pure ⟨halt, rfl, isHalt, rfl⟩

theorem rounds_makes (limit steps : Nat) (session : Session ω) :
    Makes interpreter host session (rounds config interpreter host limit steps)
      (Rounds config session.stopped steps) := by
  induction limit generalizing steps session with
  | zero => exact .leave .left
  | succ limit ih =>
    rw [rounds]
    refine .stopAsked_bind ?_
    cases asked : session.stopped with
    | true =>
      refine (halt_makes steps session).weaken ?_
      rintro _ _ ⟨halt, rfl, isHalt, rfl⟩
      exact .halted isHalt
    | false =>
      refine (takeStep_makes limit session).bind (fun _ => .leftStep) fun calls state stepped => ?_
      cases state with
      | running =>
        refine (rest_makes (steps + 1) _).bind_done fun pause rested => ?_
        refine (ih (steps + 1) _).weaken fun others outcome going => ?_
        rw [← Session.after_append, Session.stopped_after, asked] at going
        exact .running stepped rested going
      | finished =>
        refine (drain_makes limit _).bind (fun _ => .leftDrain stepped (by decide))
          fun output _ drained => .pure ?_
        rw [List.append_nil]
        exact .finished stepped drained
      | failed =>
        refine (drain_makes limit _).bind (fun _ => .leftDrain stepped (by decide))
          fun output _ drained => .ask_bind (fun _ => rfl) fun text asked isAsked => .pure ?_
        exact .failed stepped drained isAsked
      | awaitingInput =>
        refine (drain_makes limit _).bind (fun _ => .leftDrain stepped (by decide))
          fun output _ drained => ?_
        refine (feedLine_makes _).bind ?_ ?_
        · rintro _ ⟨_, left, _⟩
          cases left
        rintro input fed ⟨_, ⟨⟩, feeds⟩
        cases fed with
        | false =>
          refine (halt_makes _ _).weaken ?_
          rintro _ _ ⟨halt, rfl, isHalt, rfl⟩
          exact .refused stepped drained feeds isHalt
        | true =>
          refine (rest_makes (steps + 1) _).bind_done fun pause rested => ?_
          refine (ih (steps + 1) _).weaken fun others outcome going => ?_
          simp only [← Session.after_append, List.append_assoc] at going
          rw [Session.stopped_after, asked] at going
          exact .fed stepped drained feeds rested going

theorem loadAndRun_makes (source : String) (limit : Nat) (session : Session ω) :
    Makes interpreter host session (loadAndRun config interpreter host source limit)
      fun calls outcome => ∀ reset init, reset.event = .reset → init.event = .init true →
        Conversation config source (reset :: init :: calls) outcome := by
  rw [loadAndRun]
  refine .ask_bind (fun _ => rfl) ?_
  rintro (_ | _) load isLoad
  · refine .ask_bind (fun _ => rfl) fun text asked isAsked => .pure ?_
    intro reset init isReset isInit
    exact .loadFailed isReset isInit isLoad isAsked
  · refine (rounds_makes limit 0 _).weaken fun calls outcome going => ?_
    intro reset init isReset isInit
    exact .rounds isReset isInit isLoad going

/-- The calls of a run whose source is a program follow the rules. -/
theorem follow_makes {source : String} {program : Program}
    (parsed : Program.parse source = .ok program) (limit : Nat) (session : Session ω) :
    Makes interpreter host session (follow config interpreter host source limit)
      (Conversation config source) := by
  rw [follow, parsed]
  refine .tell_bind (fun _ => rfl) fun reset isReset => .ask_bind (fun _ => rfl) ?_
  rintro (_ | _) init isInit
  · refine .ask_bind (fun _ => rfl) fun text asked isAsked => .pure ?_
    exact .initFailed isReset isInit isAsked
  · refine (loadAndRun_makes source limit _).weaken fun calls outcome loaded => ?_
    exact loaded reset init isReset isInit

/-- A run whose source is a program, as far as it is followed. -/
theorem conversation_of_follow {source : String} {limit : Nat} {program : Program}
    {before session : Session ω} {outcome : Option Result}
    (parsed : Program.parse source = .ok program)
    (h : follow config interpreter host source limit before.fresh = (outcome, session)) :
    Conversation config source session.calls outcome ∧
      Answered interpreter host before.world false session.calls ∧
        session.world = worldAfter before.world session.calls := by
  have makes : Makes interpreter host before.fresh (follow config interpreter host source limit)
      (Conversation config source) := follow_makes parsed limit before.fresh
  rw [Makes, h] at makes
  obtain ⟨calls, rfl, answered, conversation⟩ := makes
  rw [Session.calls_after]
  exact ⟨conversation, answered, rfl⟩

theorem run_eq_some_iff {source : String} {limit : Nat} {before session : Session ω}
    {result : Result} :
    run config interpreter host source limit before = some (result, session) ↔
      follow config interpreter host source limit before.fresh = (some result, session) := by
  rw [run]
  split <;> simp [*]

end

end Pseudocod.Run
