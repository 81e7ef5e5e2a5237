import WorkStealing.Machine.System

/-!
# Scenarios

A scenario builds a scheduler and has one host thread run pieces of code on it,
one after another. After each piece it shows what was reported meanwhile,
whether a panic came all the way up, and what the scheduler looks like. When
the process is given up, only the events so far and the error are left.
-/

namespace WorkStealing

open Machine

/-- The host on which a scheduler is built. -/
structure Host where
  workers : UInt64
  style : HostStyle

/-- Code to be run on a new scheduler. -/
structure Scenario where
  config : Config
  host : Host
  jobs : List Code
  steps : List Code
  tracing : Bool

namespace Scenario

/-- What a scenario shows after a piece of code. -/
structure Entry where
  events : List Event
  /-- The panic that came all the way up. -/
  panicked : Option Panic
  stats : Except Panic Stats
  /-- The age and the bottom of each deque. -/
  deques : List (Age × Nat)
  running : Bool
  active : Nat

/-- How a scenario ends. -/
inductive Ending where
  | refused (cause : Failure)
  /-- The process was given up, after these events. -/
  | aborted (cause : Error) (events : List Event)
  | played (entries : List Entry)

/-- The world in which the code of the named jobs is known. -/
def world (scenario : Scenario) (scheduler : Scheduler) : World :=
  { scheduler
    tracing := scenario.tracing
    style := scenario.host.style
    bodies := (scenario.jobs.mapIdx Action.namedBody).toArray
    flags := Array.replicate scenario.jobs.length {} }

def entry (s : System) (seen : Nat) : Entry :=
  let scheduler := s.world.scheduler
  { events := (s.world.transcript.extract seen s.world.transcript.size).toList
    panicked := (s.threads[0]?).bind Thread.panicked
    stats := scheduler.stats
    deques := scheduler.places.toList.map fun place =>
      (place.deque.age, place.deque.bottom.toNat)
    running := scheduler.running
    active := scheduler.activeWorkers }

/-- Runs a piece of code to its end. -/
def perform (world : World) (code : Code) : System :=
  System.settle System.turnLimit { world, threads := #[.ofCode code] }

def playSteps (world : World) (done : List Entry) : List Code → Ending
  | [] => .played done.reverse
  | code :: rest =>
    let seen := world.transcript.size
    let s := perform world code
    match s.aborted with
    | some cause => .aborted cause s.world.transcript.toList
    | none => playSteps s.world (entry s seen :: done) rest

/-- Plays the scenario. -/
def play (scenario : Scenario) : Ending :=
  match Scheduler.build scenario.config scenario.host.workers with
  | .error cause => .refused cause
  | .ok scheduler => playSteps (scenario.world scheduler) [] scenario.steps

end Scenario
end WorkStealing
