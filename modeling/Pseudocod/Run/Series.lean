import Pseudocod.Run.Loop

/-!
# Series of runs

A driver carries out one run after another, all with its configuration and its interpreter, each
with a source and a host of its own. A stop can be asked for between two runs as well, and one that
was asked for late in a run is still there after it; the next run discards the request when it
starts. A run that has no end is the last one.

* `series_append`: a series in two parts.
-/

namespace Pseudocod.Run

variable {ω : Type}

/-- The session in which a run starts on a driver: it discards what was asked for before, and goes
on with the calls of the runs before it. -/
def Session.cleared (session : Session ω) : Session ω :=
  { session with stopped := false }

/-- A run that a driver is given. -/
structure Turn (ω : Type) where
  source : String
  host : Host ω
  limit : Nat
  /-- What becomes of the world before the run. -/
  prepare : ω → ω := id
  /-- Whether a stop is asked for before the run. -/
  stop : Bool := false

/-- The session of a driver that is about to be given the run. -/
def Turn.opening (turn : Turn ω) (before : Session ω) : Session ω :=
  let prepared := { before with world := turn.prepare before.world }
  if turn.stop then prepared.requestStop else prepared

/-- How a run on a driver went: what it came to, and the session that it left. -/
structure Ran (ω : Type) where
  outcome : Option Result
  session : Session ω

/-- The session that is left by some runs. -/
def sessionAfter (before : Session ω) : List (Ran ω) → Session ω
  | [] => before
  | ran :: others => sessionAfter ran.session others

section
variable (config : Config) (interpreter : Interpreter ω)

/-- Carries out the runs one after another on a driver. -/
def series : List (Turn ω) → (before : Session ω) → List (Ran ω)
  | [], _ => []
  | turn :: turns, before =>
    match follow config interpreter turn.host turn.source turn.limit
      (turn.opening before).cleared with
    | (none, session) => [{ outcome := none, session }]
    | (some result, session) => { outcome := some result, session } :: series turns session

theorem series_append {past : List (Turn ω)} {before : Session ω}
    (ended : ∀ ran ∈ series config interpreter past before, ran.outcome.isSome)
    (turns : List (Turn ω)) :
    series config interpreter (past ++ turns) before =
      series config interpreter past before ++ series config interpreter turns
        (sessionAfter before (series config interpreter past before)) := by
  induction past generalizing before with
  | nil => rfl
  | cons turn past ih =>
    rw [List.cons_append, series]
    rw [series] at ended ⊢
    generalize follow config interpreter turn.host turn.source turn.limit
      (turn.opening before).cleared = reached at ended ⊢
    rcases reached with ⟨_ | result, session⟩
    · simp at ended
    · have later := ih (List.forall_mem_cons.mp ended).2
      simp only [List.cons_append, sessionAfter, later]

end

end Pseudocod.Run
