import Mathlib
import Pseudocod.Proofs.Run.Input

/-!
# The pace of a run

A run counts its steps. Whenever their number is a multiple of the one that the configuration names,
the host is given time for other work; a run that is debugged tells the host the line after every
step and asks it to pause. It rests in this way between two rounds only: a step that ends the run,
or is the last one before the run is stopped for want of input, is not followed by a rest.

* `Paced.append`: what is done at its time in two parts of a run is so in both together.
* `Rounds.regular`: the steps of the rounds are counted, and the host is called at the right times.
* `run_paced`: how often and when the host is called in a whole run, and what the count is at its
  end.
-/

namespace Pseudocod.Run

variable {ω : Type} {config : Config} {interpreter : Interpreter ω} {host : Host ω}

/-! ## Calls and the steps before them -/

namespace Event

/-- Whether the host is given time for other work by the call. -/
def isYield : Event → Bool
  | .yield => true
  | _ => false

/-- Whether the host is told a line by the call. -/
def isShowLine : Event → Bool
  | .showLine _ => true
  | _ => false

/-- Whether the host is asked to pause by the call. -/
def isDelay : Event → Bool
  | .delay _ => true
  | _ => false

theorem purpose_of_isYield {event : Event} (isYield : event.isYield = true) :
    event.purpose = .resting := by
  cases event <;> simp_all [Event.isYield, purpose]

theorem purpose_of_isShowLine {event : Event} (isShowLine : event.isShowLine = true) :
    event.purpose = .showing := by
  cases event <;> simp_all [Event.isShowLine, purpose]

theorem purpose_of_isDelay {event : Event} (isDelay : event.isDelay = true) :
    event.purpose = .resting := by
  cases event <;> simp_all [Event.isDelay, purpose]

end Event

/-- Those among some calls that `which` picks out, each with the number of steps that had been
carried out when it was made; before the first call it was `steps`. -/
def occasions (which : Event → Bool) : (steps : Nat) → List (Moment ω) → List (Nat × Event)
  | _, [] => []
  | steps, call :: calls =>
    (if which call.event then [(steps, call.event)] else []) ++
      occasions which (steps + (states [call]).length) calls

/-- The lines at which the interpreter stands right after each of the steps among some calls. -/
def reachedLines (interpreter : Interpreter ω) (calls : List (Moment ω)) : List Nat :=
  calls.filterMap fun call =>
    call.event.state?.map fun _ => (interpreter.currentLine call.world).value

theorem occasions_append (which : Event → Bool) (steps : Nat) (calls more : List (Moment ω)) :
    occasions which steps (calls ++ more) =
      occasions which steps calls ++ occasions which (steps + (states calls).length) more := by
  induction calls generalizing steps with
  | nil => rfl
  | cons call calls ih =>
    have count : (states (call :: calls)).length =
        (states [call]).length + (states calls).length := by
      rw [← List.length_append, ← states_append, List.singleton_append]
    rw [List.cons_append, occasions, occasions, ih, count, List.append_assoc, Nat.add_assoc]

theorem occasions_eq_nil_iff {which : Event → Bool} {calls : List (Moment ω)} {steps : Nat} :
    occasions which steps calls = [] ↔ ∀ call ∈ calls, which call.event = false := by
  induction calls generalizing steps with
  | nil => simp [occasions]
  | cons call calls ih => simp [occasions, ih]

/-- Nothing is picked out where no call has the purpose of those that are looked for. -/
theorem occasions_of_purpose_ne {which : Event → Bool} {purpose : Purpose}
    (picks : ∀ {event : Event}, which event = true → event.purpose = purpose)
    {calls : List (Moment ω)} (other : ∀ call ∈ calls, call.event.purpose ≠ purpose)
    (steps : Nat) : occasions which steps calls = [] :=
  occasions_eq_nil_iff.mpr fun call member =>
    Bool.eq_false_iff.mpr fun picked => other call member (picks picked)

/-- As long as no step is carried out, the number of steps stays the same. -/
theorem occasions_of_stepless {calls : List (Moment ω)} (stepless : states calls = [])
    (which : Event → Bool) (steps : Nat) :
    occasions which steps calls =
      ((calls.map Moment.event).filter which).map fun event => (steps, event) := by
  induction calls with
  | nil => rfl
  | cons call calls ih =>
    rw [← List.singleton_append, states_append, List.append_eq_nil_iff] at stepless
    rw [occasions, stepless.1, List.length_nil, Nat.add_zero, ih stepless.2, List.map_cons,
      List.filter_cons]
    split <;> rfl

@[simp] theorem reachedLines_append (calls more : List (Moment ω)) :
    reachedLines interpreter (calls ++ more) =
      reachedLines interpreter calls ++ reachedLines interpreter more :=
  List.filterMap_append

@[simp] theorem length_reachedLines (calls : List (Moment ω)) :
    (reachedLines interpreter calls).length = (states calls).length := by
  induction calls with
  | nil => rfl
  | cons call calls ih =>
    cases state : call.event.state? with
    | none => simpa [reachedLines, states, state] using ih
    | some _ => simpa [reachedLines, states, state] using ih

theorem reachedLines_of_stepless {calls : List (Moment ω)} (stepless : states calls = []) :
    reachedLines interpreter calls = [] := by
  rw [← List.length_eq_zero_iff, length_reachedLines, stepless, List.length_nil]

/-! ## What is done at its time -/

/-- In a part of a run that begins when `steps` steps have been carried out, and in which the run
rests after the next `rests` steps, the host is called at the right times: it is given time when the
configuration says so, and if the run is debugged it is told the line after every step and asked to
pause in every rest. -/
structure Paced (config : Config) (interpreter : Interpreter ω) (steps : Nat)
    (calls : List (Moment ω)) (rests : Nat) : Prop where
  yields : occasions Event.isYield steps calls =
    ((List.range' (steps + 1) rests).filter fun step => config.yieldsAfter step).map
      fun step => (step, Event.yield)
  lines : occasions Event.isShowLine steps calls =
    if config.debug then
      ((reachedLines interpreter calls).zipIdx (steps + 1)).map
        fun (line, step) => (step, Event.showLine line)
    else []
  delays : occasions Event.isDelay steps calls =
    if config.debug then
      (List.range' (steps + 1) rests).map fun step => (step, Event.delay config.stepDelay)
    else []

/-- Calls that neither carry out a step nor follow the run. -/
def Still (calls : List (Moment ω)) : Prop :=
  ∀ call ∈ calls, call.event.purpose ∉ [.stepping, .showing, .resting]

theorem Still.append {calls more : List (Moment ω)} (still : Still calls) (still' : Still more) :
    Still (calls ++ more) :=
  List.forall_mem_append.mpr ⟨still, still'⟩

theorem AllFor.still {purpose : Purpose} {calls : List (Moment ω)} (allFor : AllFor purpose calls)
    (other : purpose ∉ [.stepping, .showing, .resting]) : Still calls := by
  intro call member
  rwa [allFor call member]

theorem Still.purpose_ne {calls : List (Moment ω)} (still : Still calls) {purpose : Purpose}
    (member : purpose ∈ [.stepping, .showing, .resting]) :
    ∀ call ∈ calls, call.event.purpose ≠ purpose := by
  rintro call isCall rfl
  exact still call isCall member

theorem Still.states {calls : List (Moment ω)} (still : Still calls) : states calls = [] :=
  states_eq_nil_iff.mpr (still.purpose_ne (by decide))

theorem Still.reachedLines_eq {calls : List (Moment ω)} (still : Still calls) :
    reachedLines interpreter calls = [] :=
  reachedLines_of_stepless still.states

theorem Still.paced {calls : List (Moment ω)} (still : Still calls) (steps : Nat) :
    Paced config interpreter steps calls 0 where
  yields := occasions_of_purpose_ne Event.purpose_of_isYield (still.purpose_ne (by decide)) steps
  lines := by
    rw [still.reachedLines_eq, List.zipIdx_nil, List.map_nil, ite_self]
    exact occasions_of_purpose_ne Event.purpose_of_isShowLine (still.purpose_ne (by decide)) steps
  delays := by
    rw [List.range'_zero, List.map_nil, ite_self]
    exact occasions_of_purpose_ne Event.purpose_of_isDelay (still.purpose_ne (by decide)) steps

namespace Paced

variable {steps rests rests' : Nat} {calls more : List (Moment ω)}

/-- Two parts of a run, in the first of which the run rests after every step. -/
theorem append (paced : Paced config interpreter steps calls rests)
    (count : (states calls).length = rests)
    (paced' : Paced config interpreter (steps + rests) more rests') :
    Paced config interpreter steps (calls ++ more) (rests + rests') where
  yields := by
    rw [occasions_append, count, paced.yields, paced'.yields, ← List.map_append,
      ← List.filter_append, Nat.add_right_comm, List.range'_append_1]
  lines := by
    rw [occasions_append, count, paced.lines, paced'.lines, reachedLines_append, List.zipIdx_append,
      length_reachedLines, count, Nat.add_right_comm]
    split
    · rw [List.map_append]
    · rfl
  delays := by
    rw [occasions_append, count, paced.delays, paced'.delays]
    split
    · rw [← List.map_append, Nat.add_right_comm, List.range'_append_1]
    · rfl

/-- What is done behind a step before the run rests. -/
theorem then_still (paced : Paced config interpreter steps calls rests) (still : Still more) :
    Paced config interpreter steps (calls ++ more) rests := by
  have after : Paced config interpreter (steps + (states calls).length) more 0 := still.paced _
  refine ⟨?_, ?_, ?_⟩
  · rw [occasions_append, after.yields, paced.yields, List.range'_zero, List.filter_nil,
      List.map_nil, List.append_nil]
  · rw [occasions_append, after.lines, paced.lines, reachedLines_append, still.reachedLines_eq,
      List.zipIdx_nil, List.map_nil, ite_self, List.append_nil, List.append_nil]
  · rw [occasions_append, after.delays, paced.delays, List.range'_zero, List.map_nil, ite_self,
      List.append_nil]

/-- A round that ends with a rest. -/
theorem rest {pause : List (Moment ω)} (paced : Paced config interpreter steps calls 0)
    (one : (states calls).length = 1) (rests : Rests config (steps + 1) pause) :
    Paced config interpreter steps (calls ++ pause) 1 := by
  have stepless : states pause = [] := rests.idle.states
  refine ⟨?_, ?_, ?_⟩
  · rw [occasions_append, one, occasions_of_stepless stepless, rests, paced.yields]
    by_cases due : config.yieldsAfter (steps + 1) <;> by_cases debug : config.debug <;>
      simp [due, debug, List.filter_cons, Event.isYield]
  · rw [occasions_append, one, occasions_of_stepless stepless, rests, paced.lines,
      reachedLines_append, reachedLines_of_stepless stepless, List.append_nil]
    by_cases due : config.yieldsAfter (steps + 1) <;> by_cases debug : config.debug <;>
      simp [due, debug, Event.isShowLine]
  · rw [occasions_append, one, occasions_of_stepless stepless, rests, paced.delays]
    by_cases due : config.yieldsAfter (steps + 1) <;> by_cases debug : config.debug <;>
      simp [due, debug, List.filter_cons, Event.isDelay]

end Paced

/-- A step, and the line that is shown after it. -/
theorem Steps.paced {calls : List (Moment ω)} {world : ω} {stopped : Bool} {state : StepState}
    (stepped : Steps config calls (some state))
    (answered : Answered interpreter host world stopped calls) (steps : Nat) :
    Paced config interpreter steps calls 0 := by
  have unrested : ∀ call ∈ calls, call.event.purpose ≠ .resting := stepped.purpose_ne (by decide)
  refine ⟨?_, ?_, ?_⟩
  · exact occasions_of_purpose_ne Event.purpose_of_isYield unrested steps
  · obtain _ | @⟨output, line, step, _, drains, isStep, shows_⟩ := stepped
    have still : Still output := drains.allFor.still (by decide)
    have before : occasions Event.isShowLine steps output = [] := by
      have paced : Paced config interpreter steps output 0 := still.paced steps
      simpa [still.reachedLines_eq] using paced.lines
    have answered := (answered_append.mp answered).2.tail
    have one : Run.states [step] = [state] := by simp [Run.states, isStep, Event.state?]
    rw [occasions_append, before, List.nil_append, still.states, List.length_nil, Nat.add_zero,
      occasions, one]
    cases shows_ with
    | nothing silent => simp [silent, isStep, Event.isShowLine, occasions]
    | @line asked shown line debug isAsked isShown =>
      have value := answered.head.1
      rw [isAsked] at value
      have answer : (interpreter.currentLine step.world).value = line :=
        Event.currentLine.inj value
      have reached : reachedLines interpreter (step :: [asked, shown]) = [line] := by
        simp [reachedLines, isStep, isAsked, isShown, Event.state?, answer]
      rw [reachedLines_append, still.reachedLines_eq, reached]
      simp [debug, isStep, isAsked, isShown, Event.isShowLine, occasions, Run.states, Event.state?]
  · rw [List.range'_zero, List.map_nil, ite_self]
    exact occasions_of_purpose_ne Event.purpose_of_isDelay unrested steps

/-! ## How many rests there are -/

/-- The run is stopped between two rounds: the interpreter is asked to stop, and the call before
that is not a request for input. -/
def StoppedBetween (result : Result) (calls : List (Moment ω)) : Prop :=
  (∃ steps, result = .ok (.stopped steps)) ∧
    ∀ last ∈ calls.dropLast.getLast?, last.event.asksInput = false

/-- In the calls of a run in which `steps` steps had been carried out before, the steps are counted,
and the run rests after each of them; where it is not stopped between two rounds it does not rest
after the last one. -/
structure Counted (steps : Nat) (calls : List (Moment ω)) (result : Result) (rests : Nat) :
    Prop where
  total : ∀ total, result = .ok (.completed total) ∨ result = .ok (.stopped total) →
    total = steps + (states calls).length
  between : StoppedBetween result calls → rests = (states calls).length
  within : ¬StoppedBetween result calls → rests + 1 = (states calls).length

theorem stoppedBetween_append {result : Result} {calls more : List (Moment ω)}
    (some_calls : more ≠ []) (last : ∀ call ∈ calls.getLast?, call.event.asksInput = false) :
    StoppedBetween result (calls ++ more) ↔ StoppedBetween result more := by
  rw [StoppedBetween, StoppedBetween, List.dropLast_append_of_ne_nil some_calls,
    List.getLast?_append]
  cases more.dropLast.getLast? with
  | none => simpa using fun _ _ => last
  | some call => simp

theorem Counted.behind {steps rests : Nat} {calls more : List (Moment ω)} {result : Result}
    (counted : Counted (steps + (states calls).length) more result rests) (some_calls : more ≠ [])
    (last : ∀ call ∈ calls.getLast?, call.event.asksInput = false) :
    Counted steps (calls ++ more) result ((states calls).length + rests) where
  total total ended := by
    rw [counted.total total ended, states_append, List.length_append, Nat.add_assoc]
  between stopped := by
    rw [counted.between ((stoppedBetween_append some_calls last).mp stopped), states_append,
      List.length_append]
  within unstopped := by
    rw [Nat.add_assoc, counted.within (mt (stoppedBetween_append some_calls last).mpr unstopped),
      states_append, List.length_append]

/-- In the calls of a run in which `steps` steps had been carried out before, the steps are counted
and the host is called at the right times. -/
def Regular (config : Config) (interpreter : Interpreter ω) (steps : Nat) (calls : List (Moment ω))
    (result : Result) : Prop :=
  ∃ rests, Counted steps calls result rests ∧ Paced config interpreter steps calls rests

/-- A part of a run in which it rests after every step, and what comes behind it. -/
theorem Regular.behind {steps count : Nat} {calls more : List (Moment ω)} {result : Result}
    (regular : Regular config interpreter (steps + count) more result) (some_calls : more ≠ [])
    (paced : Paced config interpreter steps calls count) (counts : (states calls).length = count)
    (last : ∀ call ∈ calls.getLast?, call.event.asksInput = false) :
    Regular config interpreter steps (calls ++ more) result := by
  obtain ⟨rests, counted, paced'⟩ := regular
  subst counts
  exact ⟨_, counted.behind some_calls last, paced.append rfl paced'⟩

theorem Steps.states_still {calls more : List (Moment ω)} {state : StepState}
    (stepped : Steps config calls (some state)) (still : Still more) :
    Run.states (calls ++ more) = [state] := by
  rw [Run.states_append, stepped.states, still.states, List.append_nil]

/-- The last step of a run that is not stopped between two rounds, and what is done behind it. -/
theorem Steps.regular {world : ω} {stopped : Bool} {steps : Nat} {calls more : List (Moment ω)}
    {state : StepState} {result : Result} (stepped : Steps config calls (some state))
    (answered : Answered interpreter host world stopped (calls ++ more)) (still : Still more)
    (total : ∀ total, result = .ok (.completed total) ∨ result = .ok (.stopped total) →
      total = steps + 1)
    (unstopped : ¬StoppedBetween result (calls ++ more)) :
    Regular config interpreter steps (calls ++ more) result := by
  have paced : Paced config interpreter steps (calls ++ more) 0 :=
    (stepped.paced (answered_append.mp answered).1 steps).then_still still
  have one : (Run.states (calls ++ more)).length = 1 := by
    rw [stepped.states_still still, List.length_singleton]
  refine ⟨0, ⟨?_, fun stopped => absurd stopped unstopped, fun _ => by rw [one]⟩, paced⟩
  rwa [one]

/-- Behind the line that it has got the program does not ask for input again before it rests. -/
theorem Feeds.getLast?_rests {steps : Nat} {calls input pause : List (Moment ω)}
    (feeds : Feeds input true) (rests : Rests config steps pause) :
    ∀ call ∈ (calls ++ input ++ pause).getLast?, call.event.asksInput = false := by
  obtain _ | _ | @⟨input, pushed, line, _, _, isPushed⟩ := feeds
  intro call member
  rw [List.getLast?_append, Option.mem_def, Option.or_eq_some_iff] at member
  rcases member with member | ⟨_, member⟩
  · exact rests.unfed.not_asks (List.mem_of_getLast? member)
  · obtain rfl : pushed = call := by simpa using member
    simp [isPushed, Event.asksInput]

theorem Rounds.ne_nil {stopped : Bool} {steps : Nat} {calls : List (Moment ω)} {result : Result}
    (rounds : Rounds config stopped steps calls (some result)) : calls ≠ [] := by
  rintro rfl
  simpa [Ends, states] using rounds.ends

/-- In the rounds of a run the steps are counted, and the host is called at the right times. -/
theorem Rounds.regular {world : ω} {stopped : Bool} {steps : Nat} {calls : List (Moment ω)}
    {result : Result} (rounds : Rounds config stopped steps calls (some result))
    (answered : Answered interpreter host world stopped calls) :
    Regular config interpreter steps calls result := by
  -- by induction on the rounds: one that ends with a rest comes before rounds with one more step
  generalize ended : some result = outcome at rounds
  induction rounds generalizing world with
  | left => exact nomatch ended
  | leftStep => exact nomatch ended
  | leftDrain => exact nomatch ended
  | @halted steps halt isHalt =>
    obtain rfl := Option.some.inj ended
    have still : Still [halt] := (AllFor.single isHalt).still (by decide)
    have between : StoppedBetween (.ok (.stopped steps)) [halt] := ⟨⟨steps, rfl⟩, by simp⟩
    refine ⟨0, ⟨?_, fun _ => by rw [still.states]; rfl, absurd between⟩, still.paced steps⟩
    simp [still.states]
  | @running steps calls pause others _ stepped rests rounds ih =>
    subst ended
    have one : states (calls ++ pause) = [.running] := by simp [stepped.states, rests.idle.states]
    rw [← List.append_assoc, answered_append] at answered
    have paced : Paced config interpreter steps calls 0 :=
      stepped.paced (answered_append.mp answered.1).1 steps
    have round : Paced config interpreter steps (calls ++ pause) 1 :=
      paced.rest (by rw [stepped.states]; rfl) rests
    rw [← List.append_assoc]
    refine (ih answered.2 rfl).behind rounds.ne_nil round (by rw [one]; rfl) fun call member => ?_
    exact (stepped.unfed.append rests.unfed).not_asks (List.mem_of_getLast? member)
  | @finished _ _ output stepped drains =>
    obtain rfl := Option.some.inj ended
    have still : Still output := drains.allFor.still (by decide)
    exact stepped.regular answered still (by simp) (by simp [StoppedBetween])
  | @failed steps calls output asked text stepped drains isAsked =>
    obtain rfl := Option.some.inj ended
    have reporting : Still [asked] := (AllFor.single isAsked).still (by simp [Event.purpose])
    have still : Still (output ++ [asked]) := (drains.allFor.still (by decide)).append reporting
    exact stepped.regular answered still (by simp) (by simp [StoppedBetween])
  | @refused steps calls output input halt stepped drains feeds isHalt =>
    obtain rfl := Option.some.inj ended
    have stopping : Still [halt] := (AllFor.single isHalt).still (by decide)
    have still : Still (output ++ (input ++ [halt])) :=
      (drains.allFor.still (by decide)).append ((feeds.allFor.still (by decide)).append stopping)
    refine stepped.regular answered still (by simp) ?_
    obtain ⟨input, line, rfl, isInput, _⟩ := feeds.withheld
    rintro ⟨_, unasked⟩
    have unasked : input.event.asksInput = false :=
      unasked input (by simp [List.dropLast_append_of_ne_nil])
    simp [isInput, Event.asksInput] at unasked
  | @fed steps calls output input pause others _ stepped drains feeds rests rounds ih =>
    subst ended
    have still : Still (output ++ input) :=
      (drains.allFor.still (by decide)).append (feeds.allFor.still (by decide))
    have one : states (calls ++ (output ++ input)) = [.awaitingInput] := stepped.states_still still
    have regroup : calls ++ (output ++ (input ++ pause)) = calls ++ (output ++ input) ++ pause := by
      simp
    have regroup' : calls ++ (output ++ (input ++ (pause ++ others))) =
        calls ++ (output ++ input) ++ pause ++ others := by simp
    rw [regroup] at ih
    rw [regroup', answered_append] at answered
    rw [regroup']
    have paced : Paced config interpreter steps (calls ++ (output ++ input)) 0 :=
      have answered := (answered_append.mp (answered_append.mp answered.1).1).1
      (stepped.paced answered steps).then_still still
    have round : Paced config interpreter steps (calls ++ (output ++ input) ++ pause) 1 :=
      paced.rest (by rw [one]; rfl) rests
    refine (ih answered.2 rfl).behind rounds.ne_nil round ?_ ?_
    · rw [states_append, one, rests.idle.states]; rfl
    · rw [← List.append_assoc]
      exact feeds.getLast?_rests rests

/-! ## The whole run -/

/-- In the calls of a run that has got to its rounds and has come to an end, the steps are counted,
and the host is called at the right times. -/
theorem Conversation.regular {source : String} {world : ω} {calls : List (Moment ω)}
    {result : Result} (conversation : Conversation config source calls (some result))
    (answered : Answered interpreter host world false calls)
    (loaded : ∃ load ∈ calls, load.event = .load source true) :
    Regular config interpreter 0 calls result := by
  cases conversation with
  | initFailed isReset isInit isAsked => simp [isReset, isInit, isAsked] at loaded
  | loadFailed isReset isInit isLoad isAsked => simp [isReset, isInit, isLoad, isAsked] at loaded
  | @rounds reset init load calls _ isReset isInit isLoad rounds =>
    have preparing : AllFor .preparing [reset, init, load] := by simp [AllFor, *, Event.purpose]
    have still : Still [reset, init, load] := preparing.still (by decide)
    refine (rounds.regular (answered_append.mp answered).2).behind rounds.ne_nil (still.paced 0)
      (by rw [still.states]; rfl) fun call member => ?_
    exact (preparing.unfed (by decide)).not_asks (List.mem_of_getLast? member)

/-- The steps after which the host is given time are the multiples of the number that the
configuration names. -/
theorem filter_yieldsAfter (config : Config) (rests : Nat) :
    (List.range' 1 rests).filter (fun step => config.yieldsAfter step) =
      List.range' config.yieldEvery (rests / config.yieldEvery) config.yieldEvery := by
  induction rests with
  | zero => simp
  | succ rests ih =>
    have due : config.yieldsAfter (1 + rests) ↔ config.yieldEvery ∣ rests + 1 := by
      rw [Config.yieldsAfter, Nat.add_comm, ← Nat.dvd_iff_mod_eq_zero, and_iff_right_of_imp]
      exact fun divides => Nat.pos_of_dvd_of_pos divides rests.succ_pos
    rw [List.range'_1_concat, List.filter_append, ih, Nat.succ_div]
    split
    next divides =>
      have last : config.yieldEvery + config.yieldEvery * (rests / config.yieldEvery) =
          1 + rests := by
        have whole := Nat.mul_div_cancel' divides
        rw [Nat.succ_div, if_pos divides] at whole
        linarith
      rw [List.range'_concat, last]
      simp [due, divides]
    next undivided => simp [due, undivided]

/-- The remainder of a division, if there is one: nothing is divided by 0. -/
def remainder? (dividend divisor : Nat) : Option Nat :=
  if divisor = 0 then none else some (dividend % divisor)

/-- Whether the host is given time after `steps` steps, if that can be worked out. -/
def Config.yieldsAfter? (config : Config) (steps : Nat) : Option Bool :=
  if config.yieldEvery > 0 then (remainder? steps config.yieldEvery).map (· == 0) else some false

/-- It can always be worked out whether the host is given time: nothing is divided by 0. -/
theorem Config.yieldsAfter?_eq (config : Config) (steps : Nat) :
    config.yieldsAfter? steps = some (decide (config.yieldsAfter steps)) := by
  rw [yieldsAfter?]
  split
  next some_steps =>
    have divides : config.yieldEvery ≠ 0 := Nat.ne_of_gt some_steps
    simp [remainder?, divides, yieldsAfter, some_steps, beq_eq_decide]
  next no_steps => simp [yieldsAfter, no_steps]

/-- How often and when the host is called in a run that has got to its rounds and has come to an
end, and what the count of the steps is. The run rests after each of its steps, but after the last
one only if it is stopped between two rounds. A result that tells the number of steps tells the
number of those that were carried out. The host is given time after so many steps as the
configuration names, and again after as many, up to the last step after which the run rests; it
never is if the number is 0, and nothing is divided by it then. If the run is debugged, the host is
told after every step the line at which the interpreter stands right after it, and asked to pause in
every rest; otherwise neither ever happens. -/
theorem run_paced {source : String} {limit : Nat} {before session : Session ω} {result : Result}
    (h : run config interpreter host source limit before = some (result, session))
    (loaded : ∃ load ∈ session.calls, load.event = .load source true) :
    ∃ rests,
      (StoppedBetween result session.calls → rests = (states session.calls).length) ∧
      (¬StoppedBetween result session.calls → rests + 1 = (states session.calls).length) ∧
      (∀ steps, result = .ok (.completed steps) ∨ result = .ok (.stopped steps) →
        steps = (states session.calls).length) ∧
      occasions Event.isYield 0 session.calls =
        (List.range' config.yieldEvery (rests / config.yieldEvery) config.yieldEvery).map
          (fun step => (step, Event.yield)) ∧
      (config.yieldEvery = 0 → ∀ call ∈ session.calls, call.event ≠ .yield) ∧
      (∀ steps, config.yieldsAfter? steps = some (decide (config.yieldsAfter steps))) ∧
      (config.debug = true →
        (reachedLines interpreter session.calls).length = (states session.calls).length ∧
        occasions Event.isShowLine 0 session.calls =
          ((reachedLines interpreter session.calls).zipIdx 1).map
            (fun (line, step) => (step, Event.showLine line)) ∧
        occasions Event.isDelay 0 session.calls =
          (List.range' 1 rests).map fun step => (step, Event.delay config.stepDelay)) ∧
      (config.debug = false → ∀ call ∈ session.calls,
        (∀ line, call.event ≠ .showLine line) ∧ ∀ pause, call.event ≠ .delay pause) := by
  cases parsed : Program.parse source with
  | error error =>
    rw [run_of_rejected config interpreter host parsed] at h
    obtain ⟨rfl, rfl⟩ := Prod.mk.inj (Option.some.inj h)
    simp [Session.fresh, Session.calls] at loaded
  | ok program =>
    obtain ⟨conversation, answered, _⟩ := conversation_of_follow parsed (run_eq_some_iff.mp h)
    obtain ⟨rests, counted, paced⟩ := conversation.regular answered loaded
    have yields := paced.yields
    rw [Nat.zero_add, filter_yieldsAfter] at yields
    refine ⟨rests, counted.between, counted.within, fun steps ended => ?_, yields, ?_,
      config.yieldsAfter?_eq, fun debug => ⟨length_reachedLines _, ?_, ?_⟩, ?_⟩
    · rw [counted.total steps ended, Nat.zero_add]
    · intro never call member isYield
      rw [never, Nat.div_zero, List.range'_zero, List.map_nil] at yields
      have other := occasions_eq_nil_iff.mp yields call member
      simp [isYield, Event.isYield] at other
    · simpa [debug] using paced.lines
    · simpa [debug] using paced.delays
    · intro silent call member
      have lines := paced.lines
      have delays := paced.delays
      simp only [silent, Bool.false_eq_true, if_false] at lines delays
      have unshown := occasions_eq_nil_iff.mp lines call member
      have unpaused := occasions_eq_nil_iff.mp delays call member
      constructor
      · intro line isShowLine
        simp [isShowLine, Event.isShowLine] at unshown
      · intro pause isDelay
        simp [isDelay, Event.isDelay] at unpaused

/-- A program that goes through four steps and asks for input in the second one, where a stop is
asked for when the host is given time for the second time. -/
def Stage.steady : Stage where
  script :=
    { steps := [{ state := .running, line := some 1 }, { state := .awaitingInput, line := some 2 },
        { state := .running, line := some 4 }, { state := .running, line := some 3 }]
      stops := [("yield", 2)] }
  recorder := { inputs := ["5"] }

/-- The run of that program, in which the host is given time after every other step. -/
def Stage.steadyRun : Option Result × Session Stage :=
  follow { debug := true, yieldEvery := 2, stepDelay := 5 } Stage.interpreter Stage.fullHost
    "citeste n" 10 (Session.fresh { world := Stage.steady })

theorem run_paced_steady :
    ∃ session, run { debug := true, yieldEvery := 2, stepDelay := 5 } Stage.interpreter
        Stage.fullHost "citeste n" 10 { world := Stage.steady } =
          some (.ok (.stopped 4), session) ∧
      (∃ load ∈ session.calls, load.event = .load "citeste n" true) ∧
      StoppedBetween (.ok (.stopped 4)) session.calls ∧
      occasions Event.isYield 0 session.calls = [(2, .yield), (4, .yield)] ∧
      occasions Event.isShowLine 0 session.calls =
        [(1, .showLine 1), (2, .showLine 2), (3, .showLine 4), (4, .showLine 3)] ∧
      occasions Event.isDelay 0 session.calls =
        [(1, .delay 5), (2, .delay 5), (3, .delay 5), (4, .delay 5)] := by
  have stopped : Stage.steadyRun.1 = some (.ok (.stopped 4)) := by cbv
  have third : (Stage.steadyRun.2.calls.map Moment.event)[2]? = some (.load "citeste n" true) := by
    cbv
  have last : Stage.steadyRun.2.calls.dropLast.getLast?.map Moment.event = some (.delay 5) := by cbv
  have lines : reachedLines Stage.interpreter Stage.steadyRun.2.calls = [1, 2, 4, 3] := by cbv
  have ran : run { debug := true, yieldEvery := 2, stepDelay := 5 } Stage.interpreter
      Stage.fullHost "citeste n" 10 { world := Stage.steady } =
        some (.ok (.stopped 4), Stage.steadyRun.2) :=
    run_eq_some_iff.mpr (Activity.apply_eq stopped)
  have loaded : ∃ load ∈ Stage.steadyRun.2.calls, load.event = .load "citeste n" true :=
    List.mem_map.mp (List.mem_of_getElem? third)
  have between : StoppedBetween (.ok (.stopped 4)) Stage.steadyRun.2.calls := by
    refine ⟨⟨4, rfl⟩, fun call member => ?_⟩
    rw [Option.mem_def.mp member, Option.map_some, Option.some.injEq] at last
    simp [last, Event.asksInput]
  obtain ⟨rests, after, _, total, yields, _, _, debugged, _⟩ := run_paced ran loaded
  obtain rfl : rests = 4 := (after between).trans (total 4 (.inr rfl)).symm
  obtain ⟨_, shown, delays⟩ := debugged rfl
  rw [lines] at shown
  exact ⟨_, ran, loaded, between, yields, shown, delays⟩

end Pseudocod.Run
