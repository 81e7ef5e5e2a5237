import WorkStealing.Config
import WorkStealing.Deque.Operations
import WorkStealing.Stats
import WorkStealing.Victim

/-!
# The scheduler's state

A scheduler has one place for each deque: the deque, the number of steal
attempts made from there, and the statistics of the worker who works there.
Worker `i` owns place `i`. Beside the places there is the flag that ends a run,
the flag that says that a run is in progress, and what was worked out from the
configuration.

Each operation of this module is one indivisible step of whoever makes it.
-/

namespace WorkStealing

/-- The number of a job. -/
abbrev JobId : Type := Nat

/-- What belongs to one deque. -/
structure Place where
  deque : Deque JobId
  /-- The number of the next steal attempt made from here. -/
  attempts : UInt64 := 0
  /-- What the worker did who works here. -/
  stats : Stats := {}

/-- The state that all workers share. -/
structure Scheduler where
  config : Config
  /-- The number of workers of a run for which no number is given. -/
  maxWorkers : Nat
  /-- The number of steal attempts in a round. -/
  stealTrials : Nat
  /-- The pause after a round without success. -/
  idleSleep : Duration
  places : Array Place
  /-- The run in progress is to end. -/
  finished : Bool := false
  running : Bool := false
  activeWorkers : Nat := 0

namespace Scheduler

def times? (a b : UInt64) : Except Failure UInt64 :=
  if a.toNat * b.toNat < UInt64.size then .ok (a * b) else .error (.panic .multiplyOverflow)

/-- Builds a scheduler from a configuration, on a host that offers so many workers. -/
def build (config : Config) (offered : UInt64) : Except Failure Scheduler := do
  config.validate.mapError Failure.error
  let workers := config.workersOn offered
  let count ← times? workers config.dequesPerWorker
  let deque ← (Deque.ofCapacity config.dequeCapacity).mapError Failure.error
  let trials ← times? config.stealRoundsPerDeque count
  match config.idleSleepPerDeque.times? count.toUInt32.toNat with
  | none => .error (.panic .durationOverflow)
  | some idleSleep =>
    .ok
      { config, idleSleep
        maxWorkers := workers.toNat
        stealTrials := trials.toNat
        places := Array.replicate count.toNat { deque } }

def dequeCount (s : Scheduler) : Nat := s.places.size

/-- The number of the worker that says so of itself; whoever has no deque is no worker. -/
def workerOf (s : Scheduler) (identity : Option Nat) : Option Nat :=
  identity.filter (· < s.dequeCount)

def deque? (s : Scheduler) (index : Nat) : Option (Deque JobId) :=
  (s.places[index]?).map Place.deque

/-- Changes one place, and answers what the change does. A place that does not exist is a panic. -/
def atPlace {β : Type} (s : Scheduler) (index : Nat)
    (change : Place → Except Failure (Place × β)) : Except Failure (Scheduler × β) :=
  match s.places[index]? with
  | none => .error (.panic (.indexOutOfBounds s.places.size index))
  | some place =>
    match change place with
    | .error cause => .error cause
    | .ok (place, answer) =>
      .ok ({ s with places := s.places.setIfInBounds index place }, answer)

/-- Makes an operation of the deque at a place. -/
def onDeque {β : Type} (s : Scheduler) (index : Nat)
    (operation : Deque JobId → Deque JobId × Except Failure β) : Except Failure (Scheduler × β) :=
  s.atPlace index fun place =>
    match operation place.deque with
    | (deque, .ok answer) => .ok ({ place with deque }, answer)
    | (_, .error cause) => .error cause

def push (s : Scheduler) (index : Nat) (job : JobId) :
    Except Failure (Scheduler × Except Error Unit) :=
  s.onDeque index fun deque => deque.push job

def pop (s : Scheduler) (index : Nat) : Except Failure (Scheduler × Option JobId) :=
  s.onDeque index Deque.pop

def steal (s : Scheduler) (index : Nat) : Except Failure (Scheduler × Option JobId) :=
  s.onDeque index Deque.steal

/-- Puts a deque back to its first slot. -/
def resetDeque (s : Scheduler) (index : Nat) : Except Failure (Scheduler × Unit) :=
  s.atPlace index fun place => do
    let deque ← place.deque.reset
    return ({ place with deque }, ())

def bump (s : Scheduler) (index : Nat) (counter : Counter) : Except Failure (Scheduler × Unit) :=
  s.atPlace index fun place => .ok ({ place with stats := place.stats.bump counter }, ())

def loadAttempt (s : Scheduler) (index : Nat) : Except Failure (Scheduler × UInt64) :=
  s.atPlace index fun place => .ok (place, place.attempts)

/-- Writes the number of the next steal attempt; it wraps at 2^64. -/
def storeAttempt (s : Scheduler) (index : Nat) (attempt : UInt64) :
    Except Failure (Scheduler × Unit) :=
  s.atPlace index fun place => .ok ({ place with attempts := attempt }, ())

/-- The place that a worker's attempt is aimed at. -/
def victim (s : Scheduler) (worker : Nat) (attempt : UInt64) : Except Panic Nat :=
  (Victim.choose (.ofNat worker) attempt (.ofNat s.dequeCount)).map UInt64.toNat

/-- The statistics of all places together. -/
def stats (s : Scheduler) : Except Panic Stats :=
  Stats.sum (s.places.toList.map Place.stats)

def resetStats (s : Scheduler) : Scheduler :=
  { s with places := s.places.map fun place => { place with stats := {} } }

def describe (s : Scheduler) : String :=
  Text.record "Scheduler"
    [("max_workers", toString s.maxWorkers), ("num_deques", toString s.dequeCount),
      ("running", Text.truth s.running), ("config", s.config.describe)]

end Scheduler
end WorkStealing
