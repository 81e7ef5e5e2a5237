/-!
# Parallel regions

A pool runs one body on several workers at once. Worker zero is the thread that
opened the region; every other worker is a new thread. A thread remembers which
worker of which pool it is in one place that all pools share, so the innermost
region decides: entering a region replaces the memory, and leaving it brings
the old one back.

Regions may be nested: a body opens the inner regions of its region one after
another. What the bodies see does not depend on what other threads do meanwhile,
so that `play` may take the bodies of a region one after another.
-/

namespace WorkStealing

/-- What a thread remembers about itself: its pool and its number in it. -/
structure Membership where
  pool : Nat
  worker : Nat
  deriving DecidableEq, Repr

/-- A thread as its bodies see it. -/
structure HostThread where
  name : Option String := none
  membership : Option Membership := none
  deriving DecidableEq, Repr

/-- The number that the thread has in a pool; none if its region belongs to another pool. -/
def HostThread.workerIn (thread : HostThread) (pool : Nat) : Option Nat :=
  match thread.membership with
  | some member => if member.pool = pool then some member.worker else none
  | none => none

def HostThread.workerIds (thread : HostThread) (pools : Nat) : List (Option Nat) :=
  (List.range pools).map thread.workerIn

/-- A parallel region: its pool, the number of threads that are asked for, and the regions that
the body of each worker opens. -/
inductive Region where
  | opening (pool threads : Nat) (inner : Nat → List Region)

/-- What one body of a region saw. -/
inductive Sighting where
  /-- The number of the worker; the name of its thread; whether that is the thread that opened
  the region; its numbers in all pools; what the bodies of the inner regions saw; and its
  numbers afterwards. -/
  | mk (worker : Nat) (thread : Option String) (onCaller : Bool) (ids : List (Option Nat))
      (inner : List (List Sighting)) (after : List (Option Nat))

namespace Region

def mk (pool threads : Nat) (inner : List Region) : Region :=
  .opening pool threads fun _ => inner

/-- The name of the thread that is made for a worker. -/
def threadName (worker : Nat) : String :=
  "stealfork-worker-" ++ toString worker

/-- The thread on which a worker's body runs: the caller for worker zero, else a new one. -/
def threadFor (caller : HostThread) (worker : Nat) : HostThread :=
  if worker = 0 then caller else { name := some (threadName worker) }

mutual

/-- Opens the region on a thread. The answer holds the sightings of all workers in their order,
and the thread as the region leaves it. -/
def play (pools : Nat) (caller : HostThread) : Region → List Sighting × HostThread
  | .opening pool threads inner =>
    let body (worker : Nat) : Sighting × HostThread :=
      let host := threadFor caller worker
      let inside := { host with membership := some { pool, worker } }
      let ended := playAll pools inside (inner worker)
      (.mk worker inside.name (worker == 0) (inside.workerIds pools) ended.1
          (ended.2.workerIds pools),
        { ended.2 with membership := host.membership })
    let first := body 0
    (first.1 :: (List.range (threads - 1)).map fun i => (body (i + 1)).1, first.2)

/-- Opens regions one after another on the same thread. -/
def playAll (pools : Nat) (caller : HostThread) : List Region → List (List Sighting) × HostThread
  | [] => ([], caller)
  | region :: rest =>
    let opened := play pools caller region
    let ended := playAll pools opened.2 rest
    (opened.1 :: ended.1, ended.2)

end

end Region
end WorkStealing
