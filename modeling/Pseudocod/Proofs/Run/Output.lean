import Pseudocod.Proofs.Run.CallOrder

/-!
# The output of a run

Many interpreters keep their output in a queue: steps put pieces at its end, and the run takes them
from its front. A piece can be missing; it is taken all the same, but nothing is shown for it. For
such an interpreter the run neither loses a piece nor shows one twice, and keeps their order.

* `Relayed.conserves`: the pieces that are shown and those in the queue are the pieces that were
  produced.
* `Drains.queue_eq_nil`: when the output is handed on and no piece is missing, the queue is empty.
* `follow_output`: what has become of the output at each place of a run.
-/

namespace Pseudocod.Run

variable {ω : Type} {config : Config} {interpreter : Interpreter ω} {host : Host ω}
  {queue : ω → List (Option String)}

/-! ## Queues of output -/

/-- Whether a call has nothing to do with the queue of output. -/
def Event.keepsQueue : Event → Bool
  | .reset | .load _ _ | .step _ | .popOutput _ => false
  | _ => true

/-- The output of the interpreter is kept in a queue: a reset empties it, loading a program and
carrying out a step may put pieces at its end, pieces are taken from its front, and nothing else
changes it. -/
structure OutputQueue (interpreter : Interpreter ω) (host : Host ω)
    (queue : ω → List (Option String)) : Prop where
  reset : ∀ world, queue (interpreter.reset world).world = []
  load : ∀ source world, queue world <+: queue (interpreter.load source world).world
  step : ∀ world, queue world <+: queue (interpreter.step world).world
  value_popOutput : ∀ world, (interpreter.popOutput world).value = (queue world).head?.join
  popOutput : ∀ world, queue (interpreter.popOutput world).world = (queue world).tail
  value_hasOutput : ∀ world, (interpreter.hasOutput world).value = !(queue world).isEmpty
  keeps : ∀ (event : Event) (world : ω), event.keepsQueue = true →
    queue (event.perform interpreter host world).world = queue world

/-- The pieces that a call puts at the end of the queue. -/
def added (queue : ω → List (Option String)) (world : ω) (call : Moment ω) : List (Option String) :=
  match call.event with
  | .load _ _ | .step _ => (queue call.world).drop (queue world).length
  | _ => []

/-- The pieces that are put at the end of the queue by some calls, of which the first one is made in
the given world. -/
def produced (queue : ω → List (Option String)) : ω → List (Moment ω) → List (Option String)
  | _, [] => []
  | world, call :: calls => added queue world call ++ produced queue call.world calls

@[simp] theorem produced_nil (world : ω) : produced queue world [] = [] := rfl

@[simp] theorem produced_cons (world : ω) (call : Moment ω) (calls : List (Moment ω)) :
    produced queue world (call :: calls) =
      added queue world call ++ produced queue call.world calls := rfl

@[simp] theorem produced_append (world : ω) (calls more : List (Moment ω)) :
    produced queue world (calls ++ more) =
      produced queue world calls ++ produced queue (worldAfter world calls) more := by
  induction calls generalizing world with
  | nil => rfl
  | cons call calls ih => simp [ih]

/-- The text that is shown by the call. -/
def Event.shown? : Event → Option String
  | .output text => some text
  | _ => none

/-- The texts that are shown by some calls. -/
def shown (calls : List (Moment ω)) : List String :=
  calls.filterMap fun call => call.event.shown?

namespace OutputQueue

variable {world : ω} {stopped : Bool} {call : Moment ω} {calls : List (Moment ω)}

theorem queue_of_keeps (outputs : OutputQueue interpreter host queue)
    (answered : Answered interpreter host world stopped (call :: calls))
    (keeps : call.event.keepsQueue = true) : queue call.world = queue world := by
  rw [← answered.head.2]
  exact outputs.keeps call.event world keeps

theorem queue_of_ne (outputs : OutputQueue interpreter host queue)
    (answered : Answered interpreter host world stopped (call :: calls))
    (kept : call.event ≠ .reset) (untaken : ∀ text, call.event ≠ .popOutput text) :
    queue call.world = queue world ++ added queue world call := by
  have answer := answered.head.2
  cases event : call.event with
  | reset => exact absurd event kept
  | popOutput text => exact absurd event (untaken text)
  | load source ok =>
    have growth : queue world <+: queue call.world := by
      rw [← answer, event]
      exact outputs.load source world
    obtain ⟨more, eq⟩ := growth
    simp [added, event, ← eq]
  | step state =>
    have growth : queue world <+: queue call.world := by
      rw [← answer, event]
      exact outputs.step world
    obtain ⟨more, eq⟩ := growth
    simp [added, event, ← eq]
  | _ =>
    have same := outputs.queue_of_keeps answered (by rw [event]; rfl)
    simp [added, event, same]

theorem queue_of_popOutput (outputs : OutputQueue interpreter host queue)
    (answered : Answered interpreter host world stopped (call :: calls)) {text : Option String}
    (taken : call.event = .popOutput text) :
    text = (queue world).head?.join ∧ queue call.world = (queue world).tail := by
  obtain ⟨value, answer⟩ := answered.head
  rw [taken] at value answer
  constructor
  · rw [← outputs.value_popOutput world]
    exact (Event.popOutput.inj value).symm
  · rw [← answer]
    exact outputs.popOutput world

theorem queue_of_piece (outputs : OutputQueue interpreter host queue)
    (answered : Answered interpreter host world stopped (call :: calls)) {text : String}
    (taken : call.event = .popOutput (some text)) :
    queue world = some text :: queue call.world := by
  obtain ⟨first, rest⟩ := outputs.queue_of_popOutput answered taken
  rw [rest]
  cases eq : queue world with
  | nil => simp [eq] at first
  | cons piece pieces => simpa [eq] using first.symm

/-- What a call that takes no piece does to the pieces that are not missing. -/
theorem reduceOption_queue (outputs : OutputQueue interpreter host queue)
    (answered : Answered interpreter host world stopped (call :: calls))
    (kept : call.event ≠ .reset) (untaken : ∀ text, call.event ≠ .popOutput (some text)) :
    (queue call.world).reduceOption = (queue world ++ added queue world call).reduceOption := by
  by_cases missing : call.event = .popOutput none
  · obtain ⟨first, rest⟩ := outputs.queue_of_popOutput answered missing
    rw [rest]
    cases eq : queue world with
    | nil => simp [added, missing]
    | cons piece pieces =>
      obtain rfl : none = piece := by simpa [eq] using first
      simp [added, missing]
  · have untaken' : ∀ text, call.event ≠ .popOutput text := by
      rintro (_ | text)
      · exact missing
      · exact untaken text
    rw [outputs.queue_of_ne answered kept untaken']

theorem isEmpty_of_hasOutput (outputs : OutputQueue interpreter host queue)
    (answered : Answered interpreter host world stopped (call :: calls)) {answer : Bool}
    (asked : call.event = .hasOutput answer) : (queue world).isEmpty = !answer := by
  have value := answered.head.1
  rw [asked] at value
  have eq : (!(queue world).isEmpty) = answer := by
    rw [← outputs.value_hasOutput world]
    exact Event.hasOutput.inj value
  rw [← eq, Bool.not_not]

end OutputQueue

/-! ## Nothing is lost -/

/-- Calls in which no piece of output gets lost on the way: after a piece has been taken, it is shown
by the next call, and nothing else is shown. -/
inductive Relayed : List (Moment ω) → Prop where
  | nil : Relayed []
  | other {call : Moment ω} {calls : List (Moment ω)} :
    call.event ≠ .reset → (∀ text, call.event ≠ .popOutput (some text)) →
      (∀ text, call.event ≠ .output text) → Relayed calls → Relayed (call :: calls)
  | piece {taken shown : Moment ω} {text : String} {calls : List (Moment ω)} :
    taken.event = .popOutput (some text) → shown.event = .output text → Relayed calls →
      Relayed (taken :: shown :: calls)

theorem Relayed.append {calls more : List (Moment ω)} (relayed : Relayed calls)
    (relayed' : Relayed more) : Relayed (calls ++ more) := by
  induction relayed with
  | nil => exact relayed'
  | other kept untaken unshown _ ih => exact .other kept untaken unshown ih
  | piece isTaken isShown _ ih => exact .piece isTaken isShown ih

theorem relayed_of_forall {calls : List (Moment ω)}
    (other : ∀ call ∈ calls, call.event ≠ .reset ∧ call.event.purpose ≠ .handing) :
    Relayed calls := by
  induction calls with
  | nil => exact .nil
  | cons call calls ih =>
    obtain ⟨⟨kept, unhanded⟩, others⟩ := List.forall_mem_cons.mp other
    refine .other kept (fun text event => unhanded ?_) (fun text event => unhanded ?_) (ih others)
    · rw [event, Event.purpose]
    · rw [event, Event.purpose]

theorem AllFor.relayed {purpose : Purpose} {calls : List (Moment ω)} (allFor : AllFor purpose calls)
    (other : purpose ≠ .preparing ∧ purpose ≠ .handing) : Relayed calls := by
  refine relayed_of_forall fun call member => ⟨fun event => other.1 ?_, ?_⟩
  · rw [← allFor call member, event, Event.purpose]
  · rw [allFor call member]
    exact other.2

theorem Drains.relayed {calls : List (Moment ω)} {outcome : Option Unit}
    (drains : Drains calls outcome) : Relayed calls := by
  induction drains with
  | left => exact .nil
  | empty isAsked => exact .other (by simp [isAsked]) (by simp [isAsked]) (by simp [isAsked]) .nil
  | missing isAsked isTaken =>
    refine .other (by simp [isAsked]) (by simp [isAsked]) (by simp [isAsked]) ?_
    exact .other (by simp [isTaken]) (by simp [isTaken]) (by simp [isTaken]) .nil
  | piece isAsked isTaken isShown _ ih =>
    refine .other (by simp [isAsked]) (by simp [isAsked]) (by simp [isAsked]) ?_
    exact .piece isTaken isShown ih

theorem Steps.relayed {calls : List (Moment ω)} {outcome : Option StepState}
    (steps : Steps config calls outcome) : Relayed calls := by
  cases steps with
  | left drains => exact drains.relayed
  | step drains isStep shows_ =>
    have step := (AllFor.single isStep).relayed (by simp [Event.purpose])
    exact drains.relayed.append (step.append (shows_.allFor.relayed (by decide)))

theorem Rounds.relayed {stopped : Bool} {steps : Nat} {calls : List (Moment ω)}
    {outcome : Option Result} (rounds : Rounds config stopped steps calls outcome) :
    Relayed calls := by
  induction rounds with
  | left => exact .nil
  | halted isHalt => exact (AllFor.single isHalt).relayed (by decide)
  | leftStep stepped => exact stepped.relayed
  | leftDrain stepped _ drains => exact stepped.relayed.append drains.relayed
  | running stepped rests _ ih =>
    exact stepped.relayed.append ((rests.allFor.relayed (by decide)).append ih)
  | finished stepped drains => exact stepped.relayed.append drains.relayed
  | failed stepped drains isAsked =>
    have asked := (AllFor.single isAsked).relayed (by simp [Event.purpose])
    exact stepped.relayed.append (drains.relayed.append asked)
  | refused stepped drains feeds isHalt =>
    have halt := (AllFor.single isHalt).relayed (by decide)
    have input := feeds.allFor.relayed (by decide)
    exact stepped.relayed.append (drains.relayed.append (input.append halt))
  | fed stepped drains feeds rests _ ih =>
    have input := feeds.allFor.relayed (by decide)
    have pause := rests.allFor.relayed (by decide)
    exact stepped.relayed.append (drains.relayed.append (input.append (pause.append ih)))

@[simp] theorem shown_nil : shown ([] : List (Moment ω)) = [] := rfl

theorem shown_append (calls more : List (Moment ω)) :
    shown (calls ++ more) = shown calls ++ shown more :=
  List.filterMap_append

theorem shown_cons_of_ne {call : Moment ω} (unshown : ∀ text, call.event ≠ .output text)
    (calls : List (Moment ω)) : shown (call :: calls) = shown calls := by
  cases event : call.event with
  | output text => exact absurd event (unshown text)
  | _ => simp [shown, event, Event.shown?]

theorem shown_cons_of_eq {call : Moment ω} {text : String} (isShown : call.event = .output text)
    (calls : List (Moment ω)) : shown (call :: calls) = text :: shown calls := by
  simp [shown, isShown, Event.shown?]

/-- The pieces that are shown and those in the queue are the pieces that were in the queue and those
that were produced. A piece counts as shown from the beginning of the call by which it is. -/
theorem Relayed.conserves (outputs : OutputQueue interpreter host queue) {world : ω}
    {stopped : Bool} {past future : List (Moment ω)} (relayed : Relayed (past ++ future))
    (answered : Answered interpreter host world stopped (past ++ future)) :
    shown (past ++ future.take 1) ++ (queue (worldAfter world past)).reduceOption =
      (queue world ++ produced queue world past).reduceOption := by
  generalize split : past ++ future = calls at relayed answered
  induction relayed generalizing world stopped past with
  | nil =>
    obtain ⟨rfl, rfl⟩ := List.append_eq_nil_iff.mp split
    simp
  | @other call calls kept untaken unshown _ ih =>
    rcases List.append_eq_cons_iff.mp split with ⟨rfl, rfl⟩ | ⟨past, rfl, rfl⟩
    · simp [shown_cons_of_ne unshown]
    · rw [List.cons_append, shown_cons_of_ne unshown, worldAfter_cons, ih rfl answered.tail,
        produced_cons, List.reduceOption_append,
        outputs.reduceOption_queue answered kept untaken, ← List.reduceOption_append,
        List.append_assoc]
  | @piece taken display text calls isTaken isShown _ ih =>
    have unshown : ∀ text, taken.event ≠ .output text := by simp [isTaken]
    have queueEq : queue world = some text :: queue taken.world :=
      outputs.queue_of_piece answered isTaken
    rcases List.append_eq_cons_iff.mp split with ⟨rfl, rfl⟩ | ⟨past, rfl, rest⟩
    · -- the piece is still in the queue
      simp [shown_cons_of_ne unshown]
    · rcases List.append_eq_cons_iff.mp rest.symm with ⟨rfl, rfl⟩ | ⟨past, rfl, rfl⟩
      · -- the piece is being shown
        simp [shown_cons_of_ne unshown, shown_cons_of_eq isShown, added, isTaken, queueEq]
      · have kept : queue display.world = queue taken.world := by
          have same := outputs.queue_of_ne answered.tail (by simp [isShown]) (by simp [isShown])
          simpa [added, isShown] using same
        simp [shown_cons_of_ne unshown, shown_cons_of_eq isShown, added, isTaken, isShown, queueEq,
          ih rfl answered.tail.tail, kept]

theorem Relayed.take_one {calls : List (Moment ω)} (relayed : Relayed calls) :
    shown (calls.take 1) = [] := by
  cases relayed with
  | nil => rfl
  | other _ _ unshown => simp [shown_cons_of_ne unshown]
  | piece isTaken => simp [shown, isTaken, Event.shown?]

/-- Nothing is shown behind a call that takes no piece. -/
theorem Relayed.take_one_behind {past future : List (Moment ω)} {call : Moment ω}
    (relayed : Relayed (past ++ call :: future))
    (untaken : ∀ text, call.event ≠ .popOutput (some text)) : shown (future.take 1) = [] := by
  generalize split : past ++ call :: future = calls at relayed
  induction relayed generalizing past with
  | nil => simp at split
  | other _ _ _ relayed ih =>
    rcases List.append_eq_cons_iff.mp split with ⟨_, eq⟩ | ⟨past, _, eq⟩
    · obtain ⟨_, rfl⟩ := List.cons.inj eq
      exact relayed.take_one
    · exact ih eq.symm
  | piece isTaken _ relayed ih =>
    rcases List.append_eq_cons_iff.mp split with ⟨_, eq⟩ | ⟨past, _, eq⟩
    · obtain ⟨rfl, _⟩ := List.cons.inj eq
      exact absurd isTaken (untaken _)
    · rcases List.append_eq_cons_iff.mp eq.symm with ⟨_, eq⟩ | ⟨past, _, eq⟩
      · obtain ⟨_, rfl⟩ := List.cons.inj eq
        exact relayed.take_one
      · exact ih eq.symm

theorem Relayed.not_reset {calls : List (Moment ω)} (relayed : Relayed calls) :
    ∀ call ∈ calls, call.event ≠ .reset := by
  induction relayed with
  | nil => exact nofun
  | other kept _ _ _ ih => exact List.forall_mem_cons.mpr ⟨kept, ih⟩
  | piece isTaken isShown _ ih => simpa [isTaken, isShown] using ih

/-! ## The queue when no piece is missing -/

namespace OutputQueue

variable {world : ω} {stopped : Bool} {call : Moment ω} {calls : List (Moment ω)}

theorem queue_subset (outputs : OutputQueue interpreter host queue)
    (answered : Answered interpreter host world stopped (call :: calls)) :
    queue call.world ⊆ queue world ++ added queue world call := by
  by_cases kept : call.event = .reset
  · have empty : queue call.world = [] := by
      rw [← answered.head.2, kept]
      exact outputs.reset world
    simp [empty]
  · by_cases untaken : ∀ text, call.event ≠ .popOutput text
    · simp [outputs.queue_of_ne answered kept untaken]
    · obtain ⟨text, taken⟩ : ∃ text, call.event = .popOutput text := by
        simpa using untaken
      rw [(outputs.queue_of_popOutput answered taken).2]
      exact fun piece member => List.mem_append_left _ (List.mem_of_mem_tail member)

/-- No piece in the queue is missing if none was at first and none is produced. -/
theorem none_notMem_queue (outputs : OutputQueue interpreter host queue)
    (answered : Answered interpreter host world stopped calls) (whole : none ∉ queue world)
    (whole' : none ∉ produced queue world calls) : none ∉ queue (worldAfter world calls) := by
  induction calls generalizing world stopped with
  | nil => exact whole
  | cons call calls ih =>
    rw [produced_cons, List.mem_append, not_or] at whole'
    refine ih answered.tail (fun missing => ?_) whole'.2
    rcases List.mem_append.mp (outputs.queue_subset answered missing) with missing | missing
    · exact whole missing
    · exact whole'.1 missing

/-- The queue only grows as long as no output is handed on. -/
theorem queue_of_unhanded (outputs : OutputQueue interpreter host queue)
    (answered : Answered interpreter host world stopped calls)
    (kept : ∀ call ∈ calls, call.event ≠ .reset)
    (unhanded : ∀ call ∈ calls, call.event.purpose ≠ .handing) :
    queue (worldAfter world calls) = queue world ++ produced queue world calls := by
  induction calls generalizing world stopped with
  | nil => simp
  | cons call calls ih =>
    obtain ⟨kept, others⟩ := List.forall_mem_cons.mp kept
    obtain ⟨unhanded, others'⟩ := List.forall_mem_cons.mp unhanded
    have untaken : ∀ text, call.event ≠ .popOutput text := by
      intro text taken
      simp [taken, Event.purpose] at unhanded
    rw [worldAfter_cons, ih answered.tail others others', outputs.queue_of_ne answered kept untaken,
      produced_cons, List.append_assoc]

end OutputQueue

/-- When output is handed on until there is none and no piece is missing, the queue is empty. -/
theorem Drains.queue_eq_nil (outputs : OutputQueue interpreter host queue) {world : ω}
    {stopped : Bool} {calls : List (Moment ω)} (drains : Drains calls (some ()))
    (answered : Answered interpreter host world stopped calls) (whole : none ∉ queue world) :
    queue (worldAfter world calls) = [] := by
  generalize ended : some () = outcome at drains
  induction drains generalizing world stopped with
  | left => exact nomatch ended
  | empty isAsked =>
    have empty := outputs.isEmpty_of_hasOutput answered isAsked
    have kept := outputs.queue_of_keeps answered (by rw [isAsked]; rfl)
    simpa [kept] using empty
  | missing isAsked isTaken =>
    have some_output := outputs.isEmpty_of_hasOutput answered isAsked
    have kept := outputs.queue_of_keeps answered (by rw [isAsked]; rfl)
    have first := (outputs.queue_of_popOutput answered.tail isTaken).1
    rw [kept] at first
    cases eq : queue world with
    | nil => simp [eq] at some_output
    | cons piece pieces =>
      obtain rfl : none = piece := by simpa [eq] using first
      simp [eq] at whole
  | @piece asked taken display text calls _ isAsked isTaken isShown _ ih =>
    have kept := outputs.queue_of_keeps answered (by rw [isAsked]; rfl)
    have rest := outputs.queue_of_piece answered.tail isTaken
    have kept' := outputs.queue_of_keeps answered.tail.tail (by rw [isShown]; rfl)
    refine ih answered.tail.tail.tail ?_ ended
    rw [← kept, rest, ← kept'] at whole
    exact fun missing => whole (List.mem_cons_of_mem _ missing)

/-! ## The queue at requests for input and at the end -/

/-- The queue is empty whenever the host is asked for input. -/
def AsksDrained (queue : ω → List (Option String)) (world : ω) (calls : List (Moment ω)) : Prop :=
  ∀ (past : List (Moment ω)) (input : Moment ω) (future : List (Moment ω)) (line : Option String),
    calls = past ++ input :: future → input.event = .input line →
      queue (worldAfter world past) = []

/-- Calls the last one of which is made to hand on output. -/
def EndsHanding (calls : List (Moment ω)) : Prop :=
  ∃ (others : List (Moment ω)) (last : Moment ω),
    calls = others ++ [last] ∧ last.event.purpose = .handing

/-- Some of the calls come after the last one that hands on output; the queue is empty before them,
unless no output is handed on at all. -/
def Recent (queue : ω → List (Option String)) (world : ω) (calls : List (Moment ω)) : Prop :=
  ∃ past since : List (Moment ω), calls = past ++ since ∧
    (∀ call ∈ since, call.event.purpose ≠ .handing) ∧
      (past = [] ∨ EndsHanding past ∧ queue (worldAfter world past) = [])

variable {world : ω} {calls more : List (Moment ω)}

theorem AsksDrained.append (asks : AsksDrained queue world calls)
    (asks' : AsksDrained queue (worldAfter world calls) more) :
    AsksDrained queue world (calls ++ more) := by
  intro past input future line split isInput
  rcases split_append split with ⟨rest, eq, _⟩ | ⟨earlier, eq, rfl⟩
  · exact asks past input rest line eq isInput
  · rw [worldAfter_append]
    exact asks' earlier input future line eq isInput

theorem AllFor.asksDrained {purpose : Purpose} (allFor : AllFor purpose calls)
    (unfed : purpose ≠ .feeding) (world : ω) : AsksDrained queue world calls := by
  rintro past input future line rfl isInput
  have isFor := allFor input (by simp)
  rw [isInput, Event.purpose] at isFor
  exact absurd isFor.symm unfed

theorem Feeds.asksDrained {fed : Bool} (feeds : Feeds calls fed) (empty : queue world = []) :
    AsksDrained queue world calls := by
  intro past input future line split isInput
  cases past with
  | nil => exact empty
  | cons first past =>
    -- the host is asked for input by the first call only
    cases feeds with
    | refused => simp at split
    | late => simp at split
    | @fed _ pushed _ _ _ isPushed =>
      obtain ⟨_, _, rfl, _⟩ : _ = first ∧ past = [] ∧ input = pushed ∧ future = [] := by
        simpa [List.cons_eq_append_iff] using split
      exact nomatch isPushed.symm.trans isInput

theorem Recent.append (recent : Recent queue world calls)
    (recent' : Recent queue (worldAfter world calls) more) : Recent queue world (calls ++ more) := by
  obtain ⟨past, since, rfl, unhanded, before⟩ := recent
  obtain ⟨past', since', rfl, unhanded', before'⟩ := recent'
  rcases before' with rfl | ⟨⟨others, last, rfl, isHanding⟩, empty⟩
  · refine ⟨past, since ++ since', by simp, ?_, before⟩
    exact List.forall_mem_append.mpr ⟨unhanded, unhanded'⟩
  · refine ⟨past ++ since ++ (others ++ [last]), since', by simp, unhanded', .inr ⟨?_, ?_⟩⟩
    · exact ⟨past ++ since ++ others, last, by simp, isHanding⟩
    · rwa [worldAfter_append]

theorem AllFor.recent {purpose : Purpose} (allFor : AllFor purpose calls)
    (unhanded : purpose ≠ .handing) (world : ω) : Recent queue world calls := by
  refine ⟨[], calls, rfl, fun call member => ?_, .inl rfl⟩
  rw [allFor call member]
  exact unhanded

/-- Calls in which the output is dealt with before the host is asked for input, and with only what
was produced since it was handed on to be left. -/
structure Settles (queue : ω → List (Option String)) (world : ω) (calls : List (Moment ω)) :
    Prop where
  asks : AsksDrained queue world calls
  recent : Recent queue world calls

theorem Settles.append (settles : Settles queue world calls)
    (settles' : Settles queue (worldAfter world calls) more) :
    Settles queue world (calls ++ more) :=
  ⟨settles.asks.append settles'.asks, settles.recent.append settles'.recent⟩

theorem AllFor.settles {purpose : Purpose} (allFor : AllFor purpose calls)
    (other : purpose ≠ .feeding ∧ purpose ≠ .handing) (world : ω) : Settles queue world calls :=
  ⟨allFor.asksDrained other.1 world, allFor.recent other.2 world⟩

theorem Feeds.settles {fed : Bool} (feeds : Feeds calls fed) (empty : queue world = []) :
    Settles queue world calls :=
  ⟨feeds.asksDrained empty, feeds.allFor.recent (by decide) world⟩

/-- Calls that are answered, when no piece of output is missing. -/
structure Whole (interpreter : Interpreter ω) (host : Host ω) (queue : ω → List (Option String))
    (world : ω) (stopped : Bool) (calls : List (Moment ω)) : Prop where
  answered : Answered interpreter host world stopped calls
  waiting : none ∉ queue world
  coming : none ∉ produced queue world calls

theorem Whole.append (outputs : OutputQueue interpreter host queue) {stopped : Bool}
    (whole : Whole interpreter host queue world stopped (calls ++ more)) :
    Whole interpreter host queue world stopped calls ∧
      Whole interpreter host queue (worldAfter world calls) (stoppedAfter stopped calls) more := by
  obtain ⟨answered, waiting, coming⟩ := whole
  rw [answered_append] at answered
  rw [produced_append, List.mem_append, not_or] at coming
  have waiting' := outputs.none_notMem_queue answered.1 waiting coming.1
  exact ⟨⟨answered.1, waiting, coming.1⟩, ⟨answered.2, waiting', coming.2⟩⟩

theorem Drains.settles (outputs : OutputQueue interpreter host queue) {stopped : Bool}
    (drains : Drains calls (some ())) (whole : Whole interpreter host queue world stopped calls) :
    Settles queue world calls ∧ queue (worldAfter world calls) = [] := by
  have empty := drains.queue_eq_nil outputs whole.answered whole.waiting
  refine ⟨⟨drains.allFor.asksDrained (by decide) world, calls, [], by simp, nofun, .inr ⟨?_, empty⟩⟩,
    empty⟩
  rcases List.eq_nil_or_concat calls with rfl | ⟨others, last, rfl⟩
  · cases drains
  · exact ⟨others, last, by simp, drains.allFor last (by simp)⟩

theorem Steps.settles (outputs : OutputQueue interpreter host queue) {stopped : Bool}
    {state : StepState} (steps : Steps config calls (some state))
    (whole : Whole interpreter host queue world stopped calls) : Settles queue world calls := by
  obtain _ | @⟨output, line, step, _, drains, isStep, shows_⟩ := steps
  have stepping : AllFor .stepping [step] := .single isStep
  refine (drains.settles outputs (whole.append outputs).1).1.append ?_
  exact (stepping.settles (by decide) _).append (shows_.allFor.settles (by decide) _)

/-- Whether a run has ended because the program has come to its end or failed. -/
def endsProgram : Result → Bool
  | .ok (.completed _) | .error (.stepFailed _) => true
  | _ => false

/-- What has become of the output in a run: the queue is empty whenever the host is asked for input;
in the end, what was produced since output was handed on is all that is left, which is nothing when
the program has come to its end or failed. -/
structure Settled (queue : ω → List (Option String)) (world : ω) (calls : List (Moment ω))
    (outcome : Option Result) : Prop where
  asks : AsksDrained queue world calls
  recent : ∀ result, outcome = some result → Recent queue world calls
  ended : ∀ result, outcome = some result → endsProgram result = true →
    queue (worldAfter world calls) = []

theorem Settled.behind {outcome : Option Result}
    (settled : Settled queue (worldAfter world calls) more outcome)
    (settles : Settles queue world calls) : Settled queue world (calls ++ more) outcome where
  asks := settles.asks.append settled.asks
  recent result eq := settles.recent.append (settled.recent result eq)
  ended result eq ended := by
    rw [worldAfter_append]
    exact settled.ended result eq ended

theorem AsksDrained.settled (asks : AsksDrained queue world calls) :
    Settled queue world calls none :=
  ⟨asks, nofun, nofun⟩

theorem Settles.settled (settles : Settles queue world calls) {result : Result}
    (goesOn : endsProgram result = false) : Settled queue world calls (some result) := by
  refine ⟨settles.asks, fun _ _ => settles.recent, ?_⟩
  rintro _ ⟨⟩ ended
  exact absurd (goesOn.symm.trans ended) (by decide)

theorem Settles.settled_empty (settles : Settles queue world calls) (result : Result)
    (empty : queue (worldAfter world calls) = []) : Settled queue world calls (some result) :=
  ⟨settles.asks, fun _ _ => settles.recent, fun _ _ _ => empty⟩

theorem Rounds.settled (outputs : OutputQueue interpreter host queue) {stopped : Bool} {steps : Nat}
    {outcome : Option Result} (rounds : Rounds config stopped steps calls outcome)
    (whole : Whole interpreter host queue world stopped calls) :
    Settled queue world calls outcome := by
  induction rounds generalizing world with
  | left => exact AsksDrained.settled (by simp [AsksDrained])
  | @halted _ halt isHalt =>
    have stopping : AllFor .stopping [halt] := .single isHalt
    exact (stopping.settles (by decide) world).settled rfl
  | leftStep stepped =>
    obtain drains | _ := stepped
    exact (drains.allFor.asksDrained (by decide) world).settled
  | leftDrain stepped _ drains =>
    have first := stepped.settles outputs (whole.append outputs).1
    exact (first.asks.append (drains.allFor.asksDrained (by decide) _)).settled
  | running stepped rests _ ih =>
    obtain ⟨whole, others⟩ := whole.append outputs
    obtain ⟨_, others⟩ := others.append outputs
    simp only [stoppedAfter_append] at ih
    refine Settled.behind ?_ (stepped.settles outputs whole)
    exact (ih others).behind (rests.allFor.settles (by decide) _)
  | finished stepped drains =>
    obtain ⟨whole, others⟩ := whole.append outputs
    obtain ⟨drained, empty⟩ := drains.settles outputs others
    refine ((stepped.settles outputs whole).append drained).settled_empty _ ?_
    rwa [worldAfter_append]
  | @failed _ _ output asked _ stepped drains isAsked =>
    obtain ⟨whole, others⟩ := whole.append outputs
    obtain ⟨others, last⟩ := others.append outputs
    obtain ⟨drained, empty⟩ := drains.settles outputs others
    have reporting : AllFor .reporting [asked] := .single isAsked
    have rest := drained.append (reporting.settles (by decide) _)
    refine ((stepped.settles outputs whole).append rest).settled_empty _ ?_
    have kept := outputs.queue_of_keeps last.answered (by rw [isAsked]; rfl)
    rw [worldAfter_append, worldAfter_append, worldAfter_cons, worldAfter_nil, kept, empty]
  | @refused _ _ _ _ halt stepped drains feeds isHalt =>
    obtain ⟨whole, others⟩ := whole.append outputs
    obtain ⟨drained, empty⟩ := drains.settles outputs (others.append outputs).1
    have stopping : AllFor .stopping [halt] := .single isHalt
    have input := (feeds.settles empty).append (stopping.settles (by decide) _)
    exact ((stepped.settles outputs whole).append (drained.append input)).settled rfl
  | fed stepped drains feeds rests _ ih =>
    obtain ⟨whole, others⟩ := whole.append outputs
    obtain ⟨drained, empty⟩ := drains.settles outputs (others.append outputs).1
    obtain ⟨_, others⟩ := others.append outputs
    obtain ⟨_, others⟩ := others.append outputs
    obtain ⟨_, others⟩ := others.append outputs
    simp only [stoppedAfter_append] at ih
    refine Settled.behind (Settled.behind ?_ drained) (stepped.settles outputs whole)
    exact ((ih others).behind (rests.allFor.settles (by decide) _)).behind (feeds.settles empty)

/-! ## The whole run -/

theorem OutputQueue.queue_reset (outputs : OutputQueue interpreter host queue) {stopped : Bool}
    {reset : Moment ω} (answered : Answered interpreter host world stopped (reset :: calls))
    (isReset : reset.event = .reset) : queue reset.world = [] := by
  rw [← answered.head.2, isReset]
  exact outputs.reset world

/-- The calls of a run whose source is a program begin with a reset, and behind it nothing is
lost. -/
theorem Conversation.output (outputs : OutputQueue interpreter host queue) {source : String}
    {outcome : Option Result} (conversation : Conversation config source calls outcome)
    (answered : Answered interpreter host world false calls) :
    ∃ reset others, calls = reset :: others ∧ reset.event = .reset ∧ queue reset.world = [] ∧
      Answered interpreter host reset.world reset.stopped others ∧ Relayed others ∧
      (none ∉ produced queue reset.world others → Settled queue reset.world others outcome) := by
  cases conversation with
  | @initFailed reset init asked text isReset isInit isAsked =>
    have preparing : AllFor .preparing [init] := .single isInit
    have reporting : AllFor .reporting [asked] := .single isAsked
    have relayed : Relayed [init, asked] :=
      relayed_of_forall (by simp [isInit, isAsked, Event.purpose])
    refine ⟨reset, [init, asked], rfl, isReset, outputs.queue_reset answered isReset,
      answered.tail, relayed, fun _ => ?_⟩
    exact ((preparing.settles (by decide) _).append (reporting.settles (by decide) _)).settled rfl
  | @loadFailed reset init load asked text isReset isInit isLoad isAsked =>
    have preparing : AllFor .preparing [init, load] := by simp [AllFor, isInit, isLoad, Event.purpose]
    have reporting : AllFor .reporting [asked] := .single isAsked
    have relayed : Relayed [init, load, asked] :=
      relayed_of_forall (by simp [isInit, isLoad, isAsked, Event.purpose])
    refine ⟨reset, [init, load, asked], rfl, isReset, outputs.queue_reset answered isReset,
      answered.tail, relayed, fun _ => ?_⟩
    exact ((preparing.settles (by decide) _).append (reporting.settles (by decide) _)).settled rfl
  | @rounds reset init load others _ isReset isInit isLoad rounds =>
    have preparing : AllFor .preparing [init, load] := by simp [AllFor, isInit, isLoad, Event.purpose]
    have relayed : Relayed [init, load] :=
      relayed_of_forall (by simp [isInit, isLoad, Event.purpose])
    have empty := outputs.queue_reset answered isReset
    refine ⟨reset, [init, load] ++ others, rfl, isReset, empty, answered.tail,
      relayed.append rounds.relayed, fun present => ?_⟩
    have whole : Whole interpreter host queue reset.world reset.stopped ([init, load] ++ others) :=
      ⟨answered.tail, by simp [empty], present⟩
    have rest := (whole.append outputs).2
    exact (rounds.settled outputs rest).behind (preparing.settles (by decide) _)

/-- At every place of the calls, the pieces that were shown and those in the queue are the pieces that
were produced, in their order. -/
structure Conserved (queue : ω → List (Option String)) (world : ω) (calls : List (Moment ω)) :
    Prop where
  /-- When a call begins, or the last one has ended. -/
  beginning : ∀ past future : List (Moment ω), calls = past ++ future →
    shown (past ++ future.take 1) ++ (queue (worldAfter world past)).reduceOption =
      (produced queue world past).reduceOption
  /-- When a call has ended that has taken no piece. -/
  ending : ∀ (past : List (Moment ω)) (call : Moment ω) (future : List (Moment ω)),
    calls = past ++ call :: future → (∀ text, call.event ≠ .popOutput (some text)) →
      shown (past ++ [call]) ++ (queue call.world).reduceOption =
        (produced queue world (past ++ [call])).reduceOption

/-- What is left in the queue by the calls of a run. -/
structure Leftover (queue : ω → List (Option String)) (world : ω) (calls : List (Moment ω))
    (outcome : Option Result) : Prop where
  /-- Nothing whenever the host is asked for input. -/
  asks : AsksDrained queue world calls
  /-- Nothing when the program has come to its end. -/
  completed : ∀ steps, outcome = some (.ok (.completed steps)) →
    queue (worldAfter world calls) = []
  /-- Nothing when the program has failed. -/
  failed : ∀ text, outcome = some (.error (.stepFailed text)) → queue (worldAfter world calls) = []
  /-- Nothing when the run is stopped where the host is asked for input. -/
  unanswered : ∀ (past : List (Moment ω)) (input halt : Moment ω) (line : Option String),
    calls = past ++ [input, halt] → input.event = .input line → halt.event = .requestStop →
      queue (worldAfter world calls) = []
  /-- What was produced since output was last handed on, when the run is stopped anywhere. -/
  stopped : ∀ steps, outcome = some (.ok (.stopped steps)) →
    ∃ past since : List (Moment ω), calls = past ++ since ∧
      (∀ call ∈ since, call.event.purpose ≠ .handing) ∧ (past = [] ∨ EndsHanding past) ∧
        queue (worldAfter world calls) = produced queue (worldAfter world past) since

theorem Relayed.conserved (outputs : OutputQueue interpreter host queue) {stopped : Bool}
    (relayed : Relayed calls) (answered : Answered interpreter host world stopped calls)
    (empty : queue world = []) : Conserved queue world calls := by
  have beginning : ∀ past future : List (Moment ω), calls = past ++ future →
      shown (past ++ future.take 1) ++ (queue (worldAfter world past)).reduceOption =
        (produced queue world past).reduceOption := by
    rintro past future rfl
    have conserves := relayed.conserves outputs answered
    rwa [empty, List.nil_append] at conserves
  refine ⟨beginning, fun past call future split untaken => ?_⟩
  have next : shown (future.take 1) = [] := (split ▸ relayed).take_one_behind untaken
  have conserves := beginning (past ++ [call]) future (by simp [split])
  rw [shown_append, next, List.append_nil, worldAfter_append] at conserves
  exact conserves

theorem Settled.leftover (outputs : OutputQueue interpreter host queue) {stopped : Bool}
    {outcome : Option Result} (settled : Settled queue world calls outcome)
    (answered : Answered interpreter host world stopped calls)
    (kept : ∀ call ∈ calls, call.event ≠ .reset) (empty : queue world = []) :
    Leftover queue world calls outcome where
  asks := settled.asks
  completed steps eq := settled.ended _ eq rfl
  failed text eq := settled.ended _ eq rfl
  unanswered past input halt line split isInput isHalt := by
    have before := settled.asks past input [halt] line split isInput
    rw [split, answered_append] at answered
    have kept := outputs.queue_of_keeps answered.2 (by rw [isInput]; rfl)
    have kept' := outputs.queue_of_keeps answered.2.tail (by rw [isHalt]; rfl)
    rw [split, worldAfter_append, worldAfter_cons, worldAfter_cons, worldAfter_nil, kept', kept,
      before]
  stopped steps eq := by
    obtain ⟨past, since, rfl, unhanded, before⟩ := settled.recent _ eq
    rw [answered_append] at answered
    have grown := outputs.queue_of_unhanded answered.2
      (fun call member => kept call (List.mem_append_right past member)) unhanded
    have emptied : queue (worldAfter world past) = [] := by
      rcases before with rfl | ⟨_, emptied⟩
      · exact empty
      · exact emptied
    refine ⟨past, since, rfl, unhanded, before.imp id And.left, ?_⟩
    rw [worldAfter_append, grown, emptied, List.nil_append]

/-- What has become of the output of an interpreter that keeps it in a queue, in a run whose source
is a program, as far as it is followed. From the reset on the pieces that were shown and those in the
queue are the pieces that were produced, in their order. If no piece is missing, the queue is empty
whenever the host is asked for input, when the program has come to its end or failed, and when the run
is stopped for want of input; a run that is stopped leaves what was produced since output was handed
on. -/
theorem follow_output (outputs : OutputQueue interpreter host queue) {source : String} {limit : Nat}
    {program : Program} {before session : Session ω} {outcome : Option Result}
    (parsed : Program.parse source = .ok program)
    (h : follow config interpreter host source limit before.fresh = (outcome, session)) :
    ∃ (reset : Moment ω) (calls : List (Moment ω)), session.calls = reset :: calls ∧
      reset.event = .reset ∧ session.world = worldAfter reset.world calls ∧
        Conserved queue reset.world calls ∧
          (none ∉ produced queue reset.world calls → Leftover queue reset.world calls outcome) := by
  obtain ⟨conversation, answered, final⟩ := conversation_of_follow parsed h
  obtain ⟨reset, calls, eq, isReset, empty, answered, relayed, settled⟩ :=
    conversation.output outputs answered
  rw [eq, worldAfter_cons] at final
  exact ⟨reset, calls, eq, isReset, final, relayed.conserved outputs answered empty,
    fun present => (settled present).leftover outputs answered relayed.not_reset empty⟩

/-- The output of the interpreter that plays a script is kept in a queue. -/
theorem Stage.outputQueue : OutputQueue Stage.interpreter Stage.fullHost Stage.queue where
  reset _ := rfl
  load _ stage := List.prefix_append stage.queue stage.script.loadOutput
  step stage := by
    rcases stage with ⟨⟨_ | ⟨step, steps⟩⟩⟩
    · exact List.prefix_rfl
    · exact List.prefix_append _ step.output
  value_popOutput _ := rfl
  popOutput _ := rfl
  value_hasOutput _ := rfl
  keeps event stage keeps := by cases event <;> first | rfl | exact nomatch keeps

/-- A program that writes in both of its steps, where a stop is asked for during the second one. -/
def Stage.interrupted : Stage where
  script :=
    { steps := [{ state := .running, output := [some "first"] },
        { state := .running, output := [some "second"] }]
      stops := [("exec", 2)] }

theorem follow_output_interrupted :
    ∃ (session : Session Stage) (reset : Moment Stage) (calls : List (Moment Stage)),
      follow {} Stage.interpreter Stage.fullHost "scrie 1" 10
        (Session.fresh { world := Stage.interrupted }) =
          (some (.ok (.stopped 2)), session) ∧
      session.calls = reset :: calls ∧ Conserved Stage.queue reset.world calls ∧
      Leftover Stage.queue reset.world calls (some (.ok (.stopped 2))) ∧
      Stage.queue session.world = [some "second"] := by
  have parsed : Program.parse "scrie 1" = .ok ⟨[.write [.number "1"]]⟩ := by cbv
  have stopped : (follow {} Stage.interpreter Stage.fullHost "scrie 1" 10
      (Session.fresh { world := Stage.interrupted })).1 = some (.ok (.stopped 2)) := by cbv
  have followed := Activity.apply_eq stopped
  have written : produced Stage.queue Stage.interrupted (follow {} Stage.interpreter Stage.fullHost
      "scrie 1" 10 (Session.fresh { world := Stage.interrupted })).2.calls =
        [some "first", some "second"] := by cbv
  have left : Stage.queue (follow {} Stage.interpreter Stage.fullHost "scrie 1" 10
      (Session.fresh { world := Stage.interrupted })).2.world = [some "second"] := by cbv
  obtain ⟨reset, calls, eq, _, _, conserved, leftover⟩ :=
    follow_output Stage.outputQueue parsed followed
  have present : none ∉ produced Stage.queue reset.world calls := by
    intro missing
    rw [eq, produced_cons] at written
    have missing := List.mem_append_right (added Stage.queue Stage.interrupted reset) missing
    simp [written] at missing
  exact ⟨_, reset, calls, followed, eq, conserved, leftover present, left⟩

end Pseudocod.Run
