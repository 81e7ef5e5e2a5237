import WorkStealing.Scenario

/-!
# Rounds of calculations

Calculations run one after another on the same scheduler, each on several
threads at once. The report of a round holds only what no order of the steps
can change: the result, and how the statistics balance.
-/

namespace WorkStealing

open Machine

/-- A calculation and the number of workers that it may use. -/
structure Round where
  calculation : Calculation
  threads : Nat

namespace Round

/-- What a round shows. -/
structure Report where
  outcome : Outcome
  answer : Option Answer
  joins : Nat
  /-- As many jobs were executed as there were runs and stolen branches. -/
  jobsBalance : Bool
  /-- As many jobs were popped or stolen as were pushed. -/
  popsBalance : Bool
  stealsBounded : Bool
  /-- All deques are empty and back at their first slots. -/
  dequesClean : Bool
  running : Bool
  active : Nat

/-- How rounds end. -/
inductive Ending where
  | failed (cause : Failure)
  /-- All rounds were played; afterwards the statistics could be set back to zero, or not. -/
  | played (reports : List Report) (cleared : Bool)

/-- The outcome of the run that the events report. -/
def outcomeOf (events : List Event) : Outcome :=
  (events.findSome? fun event =>
    match event with
    | .ranThunk outcome => some outcome
    | _ => none).getD (.ok ())

/-- The result that the events report. A list that was not changed is its own result. -/
def answerOf (calculation : Calculation) (events : List Event) : Option Answer :=
  match events.findSome? fun event =>
      match event with
      | .calculated answer => some answer
      | _ => none with
  | some answer => some answer
  | none =>
    match calculation with
    | .increment data => some (.increment data)
    | _ => none

/-- The deque is empty and back at its first slot. -/
def isClean (place : Place) : Bool :=
  place.deque.isEmpty && place.deque.bottom == 0

/-- The report of a round; `runs` is the number of runs granted so far, this one included. -/
def report (calculation : Calculation) (s : System) (events : List Event) (runs : Nat)
    (stats : Stats) : Report :=
  let scheduler := s.world.scheduler
  let of (counter : Counter) : Nat := (stats.get counter).toNat
  { outcome := outcomeOf events
    answer := answerOf calculation events
    joins := of .inlineJoins + of .stolenJoins
    jobsBalance := of .jobsExecuted == runs + of .stolenJoins
    popsBalance := of .localPops + of .steals == of .jobsSpawned + runs
    stealsBounded := of .steals ≤ of .stealAttempts
    dequesClean := scheduler.places.all isClean
    running := scheduler.running
    active := scheduler.activeWorkers }

/-- All statistics are zero once they were set back. -/
def clears (scheduler : Scheduler) : Bool :=
  match scheduler.resetStats.stats with
  | .ok stats => stats == {}
  | .error _ => false

/-- Plays rounds one after another; `done` are the reports so far, the latest first. -/
def playAll (world : World) (runs : Nat) (done : List Report) : List Round → Ending
  | [] => .played done.reverse (clears world.scheduler)
  | round :: rest =>
    let seen := world.transcript.size
    let s := Scenario.perform world [.runThunk [.calculate round.calculation] round.threads]
    let events := (s.world.transcript.extract seen s.world.transcript.size).toList
    match s.aborted, s.world.scheduler.stats with
    | some cause, _ => .failed (.error cause)
    | none, .error cause => .failed (.panic cause)
    | none, .ok stats =>
      let runs :=
        match outcomeOf events with
        | .ok () => runs + 1
        | .error _ => runs
      playAll s.world runs (report round.calculation s events runs stats :: done) rest

def play (config : Config) (workers : UInt64) (rounds : List Round) : Ending :=
  match Scheduler.build config workers with
  | .error cause => .failed cause
  | .ok scheduler => playAll { scheduler } 0 [] rounds

end Round
end WorkStealing
