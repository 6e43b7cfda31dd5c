import Mathlib
import Pseudocod.Proofs.Run.Conversation
import Pseudocod.Run.Script

/-!
# The order of the calls of a run

What the rules for the calls of a run say of the calls that come before a given one: the interpreter
takes a step only when the program is loaded and has neither ended nor failed nor been stopped, and
gets a line of input only when it waits for one, directly after the host has provided it.

* `Rounds.inOrder`: no step comes after the end of the program, and nothing after a request to stop.
* `Rounds.fedInOrder`: every line of input was waited for and provided.
* `run_conversation`: which calls a run makes, and in which order.
-/

namespace Pseudocod.Run

variable {ω : Type} {config : Config}

/-- A place in two pieces put together lies in the first one or in the second one. -/
theorem split_append {α : Type} {left right past future : List α} {place : α}
    (split : left ++ right = past ++ place :: future) :
    (∃ rest, left = past ++ place :: rest ∧ future = rest ++ right) ∨
      ∃ earlier, right = earlier ++ place :: future ∧ past = left ++ earlier := by
  rcases List.append_eq_append_iff.mp split with
    ⟨earlier, pastEq, rightEq⟩ | ⟨rest, leftEq, futureEq⟩
  · exact .inr ⟨earlier, rightEq, pastEq⟩
  · rcases List.cons_eq_append_iff.mp futureEq with ⟨rfl, rightEq⟩ | ⟨rest, rfl, futureEq⟩
    · exact .inr ⟨[], by simp [rightEq], by simp [leftEq]⟩
    · exact .inl ⟨rest, leftEq, (List.cons.inj futureEq).2⟩

/-! ## What calls are made for -/

/-- What a call is made for. -/
inductive Purpose where
  | preparing
  | handing
  | stepping
  | showing
  | feeding
  | resting
  | reporting
  | stopping
deriving DecidableEq, Repr

namespace Event

/-- What a call is made for. -/
def purpose : Event → Purpose
  | .reset | .init _ | .load _ _ => .preparing
  | .hasOutput _ | .popOutput _ | .output _ => .handing
  | .step _ => .stepping
  | .currentLine _ | .showLine _ => .showing
  | .input _ | .pushInput _ => .feeding
  | .yield | .delay _ => .resting
  | .initError _ | .error _ => .reporting
  | .requestStop => .stopping

/-- Whether a run goes on after the call: the program has not come to its end and has not failed,
and the interpreter was not asked to stop. -/
def goesOn : Event → Bool
  | .step .finished | .step .failed | .requestStop => false
  | _ => true

end Event

/-- The calls are made for the purpose. -/
def AllFor (purpose : Purpose) (calls : List (Moment ω)) : Prop :=
  ∀ call ∈ calls, call.event.purpose = purpose

theorem AllFor.single {call : Moment ω} {event : Event} (eq : call.event = event) :
    AllFor event.purpose [call] := by
  simp [AllFor, eq]

theorem Drains.allFor {calls : List (Moment ω)} {outcome : Option Unit}
    (drains : Drains calls outcome) : AllFor .handing calls := by
  induction drains with
  | left => exact nofun
  | empty asked => simp [AllFor, asked, Event.purpose]
  | missing asked taken => simp [AllFor, asked, taken, Event.purpose]
  | piece asked taken shown _ ih => simpa [AllFor, asked, taken, shown, Event.purpose] using ih

theorem Shows.allFor {calls : List (Moment ω)} (shows_ : Shows config calls) :
    AllFor .showing calls := by
  cases shows_ with
  | nothing => exact nofun
  | line _ asked shown => simp [AllFor, asked, shown, Event.purpose]

theorem Feeds.allFor {calls : List (Moment ω)} {fed : Bool} (feeds : Feeds calls fed) :
    AllFor .feeding calls := by
  cases feeds with
  | refused input => simp [AllFor, input, Event.purpose]
  | late input => simp [AllFor, input, Event.purpose]
  | fed input _ pushed => simp [AllFor, input, pushed, Event.purpose]

theorem Rests.allFor {steps : Nat} {calls : List (Moment ω)} (rests : Rests config steps calls) :
    AllFor .resting calls := by
  intro call member
  have event : call.event ∈ calls.map Moment.event := List.mem_map_of_mem member
  rw [rests, List.mem_append] at event
  rcases event with event | event <;> split at event <;> simp_all [Event.purpose]

/-- No call of a step is made for anything but handing output on, the step itself and the line. -/
theorem Steps.purpose_ne {calls : List (Moment ω)} {outcome : Option StepState}
    (steps : Steps config calls outcome) {purpose : Purpose}
    (other : purpose ∉ [.handing, .stepping, .showing]) :
    ∀ call ∈ calls, call.event.purpose ≠ purpose := by
  rintro call member rfl
  apply other
  cases steps with
  | left drains => simp [drains.allFor call member]
  | step drains isStep shows_ =>
    rcases List.mem_append.mp member with member | member
    · simp [drains.allFor call member]
    · rcases List.mem_cons.mp member with rfl | member
      · simp [isStep, Event.purpose]
      · simp [shows_.allFor call member]

/-- Calls that neither take a step nor ask the interpreter to stop. -/
def Idle (calls : List (Moment ω)) : Prop :=
  ∀ call ∈ calls, call.event.purpose ≠ .stepping ∧ call.event.purpose ≠ .stopping

theorem AllFor.idle {purpose : Purpose} {calls : List (Moment ω)} (allFor : AllFor purpose calls)
    (working : purpose ≠ .stepping ∧ purpose ≠ .stopping) : Idle calls := by
  intro call member
  rw [allFor call member]
  exact working

theorem Idle.append {calls more : List (Moment ω)} (idle : Idle calls) (idle' : Idle more) :
    Idle (calls ++ more) :=
  List.forall_mem_append.mpr ⟨idle, idle'⟩

theorem Drains.idle {calls : List (Moment ω)} {outcome : Option Unit}
    (drains : Drains calls outcome) : Idle calls :=
  drains.allFor.idle (by decide)

theorem Shows.idle {calls : List (Moment ω)} (shows_ : Shows config calls) : Idle calls :=
  shows_.allFor.idle (by decide)

theorem Feeds.idle {calls : List (Moment ω)} {fed : Bool} (feeds : Feeds calls fed) : Idle calls :=
  feeds.allFor.idle (by decide)

theorem Rests.idle {steps : Nat} {calls : List (Moment ω)} (rests : Rests config steps calls) :
    Idle calls :=
  rests.allFor.idle (by decide)

/-! ## Steps in order -/

/-- Whether a call may come behind another one: none does when the interpreter was asked to stop,
and no step does when the program has come to its end or has failed. -/
def Event.Allows (earlier later : Event) : Prop :=
  earlier ≠ .requestStop ∧ (later.purpose = .stepping → earlier.goesOn = true)

/-- Calls none of which comes behind a call that does not allow it. -/
def InOrder (calls : List (Moment ω)) : Prop :=
  calls.Pairwise fun earlier later => earlier.event.Allows later.event

/-- Calls behind which every call may come. -/
def Going (calls : List (Moment ω)) : Prop :=
  ∀ call ∈ calls, call.event.goesOn = true

theorem Event.allows_of_goesOn {earlier : Event} (goesOn : earlier.goesOn = true) (later : Event) :
    earlier.Allows later := by
  refine ⟨?_, fun _ => goesOn⟩
  rintro rfl
  exact nomatch goesOn

theorem Idle.going {calls : List (Moment ω)} (idle : Idle calls) : Going calls := by
  intro call member
  obtain ⟨stepless, unstopped⟩ := idle call member
  cases event : call.event <;> simp_all [Event.purpose, Event.goesOn]

theorem Going.append {calls more : List (Moment ω)} (going : Going calls) (going' : Going more) :
    Going (calls ++ more) :=
  List.forall_mem_append.mpr ⟨going, going'⟩

theorem Going.inOrder_append {calls more : List (Moment ω)} (going : Going calls)
    (inOrder : InOrder more) : InOrder (calls ++ more) := by
  have allows : ∀ call ∈ calls, ∀ later : Moment ω, call.event.Allows later.event :=
    fun call member later => Event.allows_of_goesOn (going call member) later.event
  refine List.pairwise_append.mpr ⟨?_, inOrder, fun call member later _ => allows call member later⟩
  exact List.pairwise_of_forall_mem_list fun call member later _ => allows call member later

theorem Going.inOrder {calls : List (Moment ω)} (going : Going calls) : InOrder calls := by
  have inOrder : InOrder (calls ++ []) := going.inOrder_append List.Pairwise.nil
  rwa [List.append_nil] at inOrder

/-- A step behind which the run goes on. -/
theorem Steps.going {calls : List (Moment ω)} {state : StepState}
    (steps : Steps config calls (some state)) (goesOn : (Event.step state).goesOn = true) :
    Going calls := by
  obtain _ | ⟨drains, isStep, shows_⟩ := steps
  refine drains.idle.going.append (List.forall_mem_cons.mpr ⟨?_, shows_.idle.going⟩)
  rw [isStep]
  exact goesOn

/-- A step and what is done before the next one. -/
theorem Steps.inOrder_append {calls more : List (Moment ω)} {outcome : Option StepState}
    (steps : Steps config calls outcome) (idle : Idle more) : InOrder (calls ++ more) := by
  cases steps with
  | left drains => exact (drains.idle.append idle).going.inOrder
  | @step output line step _ drains isStep shows_ =>
    have behind : Idle (line ++ more) := shows_.idle.append idle
    rw [List.append_assoc, List.cons_append]
    refine drains.idle.going.inOrder_append (List.pairwise_cons.mpr ⟨?_, behind.going.inOrder⟩)
    intro later member
    rw [isStep]
    exact ⟨nofun, fun stepping => absurd stepping (behind later member).1⟩

/-- No step comes after the end of the program, and nothing after a request to stop. -/
theorem Rounds.inOrder {stopped : Bool} {steps : Nat} {calls : List (Moment ω)}
    {outcome : Option Result} (rounds : Rounds config stopped steps calls outcome) :
    InOrder calls := by
  induction rounds with
  | left => exact .nil
  | halted => exact List.pairwise_singleton _ _
  | leftStep stepped =>
    obtain drains | _ := stepped
    exact drains.idle.going.inOrder
  | leftDrain stepped _ drains => exact stepped.inOrder_append drains.idle
  | running stepped rests _ ih =>
    exact (stepped.going rfl).inOrder_append (rests.idle.going.inOrder_append ih)
  | finished stepped drains => exact stepped.inOrder_append drains.idle
  | failed stepped drains isAsked =>
    refine stepped.inOrder_append (drains.idle.append ?_)
    simp [Idle, isAsked, Event.purpose]
  | refused stepped drains feeds =>
    exact (stepped.going rfl).inOrder_append (drains.idle.going.inOrder_append
      (feeds.idle.going.inOrder_append (List.pairwise_singleton _ _)))
  | fed stepped drains feeds rests _ ih =>
    exact (stepped.going rfl).inOrder_append (drains.idle.going.inOrder_append
      (feeds.idle.going.inOrder_append (rests.idle.going.inOrder_append ih)))

/-! ## Input in order -/

/-- After some calls a line of input is there: the program has waited for one since its last step,
and the latest call has provided it, at a time at which no stop had been asked for. -/
def Provided (line : String) (past : List (Moment ω)) : Prop :=
  ∃ (before : List (Moment ω)) (step : Moment ω) (between : List (Moment ω)) (input : Moment ω),
    past = before ++ step :: (between ++ [input]) ∧
    step.event = .step .awaitingInput ∧ Idle between ∧
      input.event = .input (some line) ∧ input.stopped = false

/-- Calls in which the interpreter is given only lines that are there. -/
def FedInOrder (calls : List (Moment ω)) : Prop :=
  ∀ (past : List (Moment ω)) (pushed : Moment ω) (future : List (Moment ω)),
    calls = past ++ pushed :: future → ∀ line, pushed.event = .pushInput line → Provided line past

theorem Provided.behind {line : String} {past : List (Moment ω)} (provided : Provided line past)
    (earlier : List (Moment ω)) : Provided line (earlier ++ past) := by
  obtain ⟨before, step, between, input, rfl, facts⟩ := provided
  exact ⟨earlier ++ before, step, between, input, by simp, facts⟩

theorem FedInOrder.append {calls more : List (Moment ω)} (fed : FedInOrder calls)
    (fed' : FedInOrder more) : FedInOrder (calls ++ more) := by
  intro past pushed future split line isPushed
  rcases split_append split with ⟨rest, eq, _⟩ | ⟨earlier, eq, rfl⟩
  · exact fed past pushed rest eq line isPushed
  · exact (fed' earlier pushed future eq line isPushed).behind calls

theorem fedInOrder_of_forall {calls : List (Moment ω)}
    (unfed : ∀ call ∈ calls, ∀ line, call.event ≠ .pushInput line) : FedInOrder calls := by
  rintro past pushed future rfl line isPushed
  exact absurd isPushed (unfed pushed (by simp) line)

theorem fedInOrder_singleton {call : Moment ω} (unfed : ∀ line, call.event ≠ .pushInput line) :
    FedInOrder [call] :=
  fedInOrder_of_forall (List.forall_mem_singleton.mpr unfed)

theorem AllFor.fedInOrder {purpose : Purpose} {calls : List (Moment ω)}
    (allFor : AllFor purpose calls) (unfed : purpose ≠ .feeding) : FedInOrder calls := by
  refine fedInOrder_of_forall fun call member line isPushed => unfed ?_
  rw [← allFor call member, isPushed, Event.purpose]

theorem Steps.fedInOrder {calls : List (Moment ω)} {outcome : Option StepState}
    (steps : Steps config calls outcome) : FedInOrder calls := by
  cases steps with
  | left drains => exact drains.allFor.fedInOrder (by decide)
  | step drains isStep shows_ =>
    refine (drains.allFor.fedInOrder (by decide)).append ?_
    rw [← List.singleton_append]
    refine FedInOrder.append ?_ (shows_.allFor.fedInOrder (by decide))
    exact fedInOrder_singleton (by simp [isStep])

/-- A step at which the program waits for input, and the input. -/
theorem Steps.fedInOrder_feeds {calls output input : List (Moment ω)} {fed : Bool}
    (steps : Steps config calls (some .awaitingInput)) (drains : Drains output (some ()))
    (feeds : Feeds input fed) : FedInOrder (calls ++ (output ++ input)) := by
  have unfed : FedInOrder (calls ++ output) :=
    steps.fedInOrder.append (drains.allFor.fedInOrder (by decide))
  rw [← List.append_assoc]
  cases feeds with
  | refused isInput => exact unfed.append (fedInOrder_singleton (by simp [isInput]))
  | late isInput => exact unfed.append (fedInOrder_singleton (by simp [isInput]))
  | @fed input pushed line isInput going isPushed =>
    intro past call future split line' isCall
    rcases split_append split with ⟨rest, eq, _⟩ | ⟨earlier, eq, rfl⟩
    · exact unfed past call rest eq line' isCall
    · -- the call lies in the input, so it is the one that gives the line to the interpreter
      rcases List.cons_eq_append_iff.mp eq with ⟨rfl, eq⟩ | ⟨others, rfl, eq⟩
      · obtain ⟨rfl, _⟩ := List.cons.inj eq
        exact nomatch isInput.symm.trans isCall
      · obtain ⟨rfl, rfl, _⟩ : others = [] ∧ call = pushed ∧ future = [] := by
          simpa [List.cons_eq_append_iff] using eq
        obtain rfl : line = line' := by simpa [isPushed] using isCall
        obtain _ | @⟨output', shown, step, _, drains', isStep, shows_⟩ := steps
        exact ⟨output', step, shown ++ output, input, by simp, isStep,
          shows_.idle.append drains.idle, isInput, going⟩

/-- Every line of input was waited for and provided. -/
theorem Rounds.fedInOrder {stopped : Bool} {steps : Nat} {calls : List (Moment ω)}
    {outcome : Option Result} (rounds : Rounds config stopped steps calls outcome) :
    FedInOrder calls := by
  induction rounds with
  | left => exact fedInOrder_of_forall nofun
  | halted isHalt => exact fedInOrder_singleton (by simp [isHalt])
  | leftStep stepped => exact stepped.fedInOrder
  | leftDrain stepped _ drains =>
    exact stepped.fedInOrder.append (drains.allFor.fedInOrder (by decide))
  | running stepped rests _ ih =>
    exact stepped.fedInOrder.append ((rests.allFor.fedInOrder (by decide)).append ih)
  | finished stepped drains =>
    exact stepped.fedInOrder.append (drains.allFor.fedInOrder (by decide))
  | failed stepped drains isAsked =>
    refine stepped.fedInOrder.append ((drains.allFor.fedInOrder (by decide)).append ?_)
    exact fedInOrder_singleton (by simp [isAsked])
  | refused stepped drains feeds isHalt =>
    have input := stepped.fedInOrder_feeds drains feeds
    simpa using input.append (fedInOrder_singleton (by simp [isHalt]))
  | fed stepped drains feeds rests _ ih =>
    have input := stepped.fedInOrder_feeds drains feeds
    simpa using input.append ((rests.allFor.fedInOrder (by decide)).append ih)

/-! ## The whole run -/

/-- Calls in which a step is taken only when the program of the source is loaded. -/
def LoadedFirst (source : String) (calls : List (Moment ω)) : Prop :=
  ∀ (past : List (Moment ω)) (step : Moment ω) (future : List (Moment ω)),
    calls = past ++ step :: future → step.event.purpose = .stepping →
      ∃ load ∈ past, load.event = .load source true

theorem Idle.loadedFirst {calls : List (Moment ω)} (idle : Idle calls) (source : String) :
    LoadedFirst source calls := by
  rintro past step future rfl isStep
  exact absurd isStep (idle step (by simp)).1

/-- In the calls of a run whose source is a program everything is in order. -/
theorem Conversation.inOrder {source : String} {calls : List (Moment ω)} {outcome : Option Result}
    (conversation : Conversation config source calls outcome) :
    InOrder calls ∧ FedInOrder calls ∧ LoadedFirst source calls := by
  cases conversation with
  | @initFailed reset init asked _ isReset isInit isAsked =>
    have idle : Idle [reset, init, asked] := by simp [Idle, *, Event.purpose]
    exact ⟨idle.going.inOrder, fedInOrder_of_forall (by simp [*]), idle.loadedFirst source⟩
  | @loadFailed reset init load asked _ isReset isInit isLoad isAsked =>
    have idle : Idle [reset, init, load, asked] := by simp [Idle, *, Event.purpose]
    exact ⟨idle.going.inOrder, fedInOrder_of_forall (by simp [*]), idle.loadedFirst source⟩
  | @rounds reset init load calls _ isReset isInit isLoad rounds =>
    have ready : AllFor .preparing [reset, init, load] := by simp [AllFor, *, Event.purpose]
    have idle : Idle [reset, init, load] := ready.idle (by decide)
    refine ⟨idle.going.inOrder_append rounds.inOrder,
      (ready.fedInOrder (by decide)).append rounds.fedInOrder, ?_⟩
    intro past step future split isStep
    rcases split_append split with ⟨rest, eq, _⟩ | ⟨earlier, _, rfl⟩
    · exact absurd isStep (idle step (by simp [eq])).1
    · exact ⟨load, by simp, isLoad⟩

/-- The calls of a run. A source that is not a program reaches neither party. For a program the
calls follow the rules, each answered by its party in the world that the one before has left. A step
is taken only when the program is loaded and has neither ended nor failed, and the interpreter was
not asked to stop; a line of input is given only when it is there; nothing follows a request to
stop. -/
theorem run_conversation {interpreter : Interpreter ω} {host : Host ω} {source : String}
    {limit : Nat} {before session : Session ω} {result : Result}
    (h : run config interpreter host source limit before = some (result, session)) :
    (∀ error, Program.parse source = .error error →
      result = .error (.rejected error) ∧ session = before.fresh) ∧
    ∀ program, Program.parse source = .ok program →
      Conversation config source session.calls (some result) ∧
      Answered interpreter host before.world false session.calls ∧
      ∀ (past : List (Moment ω)) (call : Moment ω) (future : List (Moment ω)),
        session.calls = past ++ call :: future →
        (call.event.purpose = .stepping →
          (∃ load ∈ past, load.event = .load source true) ∧
            ∀ earlier ∈ past, earlier.event.goesOn = true) ∧
        (∀ line, call.event = .pushInput line → Provided line past) ∧
        (call.event = .requestStop → future = []) := by
  refine ⟨fun error rejected => ?_, fun program parsed => ?_⟩
  · rw [run_of_rejected config interpreter host rejected] at h
    obtain ⟨rfl, rfl⟩ := Prod.mk.inj (Option.some.inj h)
    exact ⟨rfl, rfl⟩
  · obtain ⟨conversation, answered, _⟩ := conversation_of_follow parsed (run_eq_some_iff.mp h)
    obtain ⟨inOrder, fedInOrder, loadedFirst⟩ := conversation.inOrder
    refine ⟨conversation, answered, fun past call future split => ⟨fun isStep => ?_, ?_, ?_⟩⟩
    · refine ⟨loadedFirst past call future split isStep, fun earlier member => ?_⟩
      rw [split, InOrder, List.pairwise_append] at inOrder
      exact (inOrder.2.2 earlier member call (by simp)).2 isStep
    · exact fedInOrder past call future split
    · intro isHalt
      rw [split, InOrder, List.pairwise_append, List.pairwise_cons] at inOrder
      refine List.eq_nil_iff_forall_not_mem.mpr fun later member => ?_
      exact (inOrder.2.1.1 later member).1 isHalt

/-- A program that asks for input and then goes on to its end. -/
def Stage.asking : Stage where
  script := { steps := [{ state := .awaitingInput, output := [some "n = "] }, { state := .running }] }
  recorder := { inputs := ["5"] }

theorem run_conversation_asking :
    ∃ session, run { debug := true } Stage.interpreter Stage.fullHost "citeste n" 10
        { world := Stage.asking } = some (.ok (.completed 3), session) ∧
      session.calls.map Moment.event =
        [.reset, .init true, .load "citeste n" true,
          .hasOutput false, .step .awaitingInput, .currentLine 0, .showLine 0,
          .hasOutput true, .popOutput (some "n = "), .output "n = ", .hasOutput false,
          .input (some "5"), .pushInput "5", .delay 100,
          .hasOutput false, .step .running, .currentLine 0, .showLine 0, .delay 100,
          .hasOutput false, .step .finished, .currentLine 0, .showLine 0, .hasOutput false] ∧
      Conversation { debug := true } "citeste n" session.calls (some (.ok (.completed 3))) := by
  have parsed : Program.parse "citeste n" = .ok ⟨[.read ["n"]]⟩ := by cbv
  have completed : (follow { debug := true } Stage.interpreter Stage.fullHost "citeste n" 10
      (Session.fresh { world := Stage.asking })).1 = some (.ok (.completed 3)) := by cbv
  have ran := run_eq_some_iff.mpr (Activity.apply_eq completed)
  exact ⟨_, ran, by cbv, ((run_conversation ran).2 _ parsed).1⟩

end Pseudocod.Run
