import WorkStealing.Region

/-!
# The threads of a process

The bodies of a region run at once, each on a thread of its own. A thread is a stack of
frames, as it is for a machine: code that opens regions, and the points of a call that
opens one. The call makes the threads of all workers but the first, plays worker zero
itself, and then waits until the other threads are over. A worker enters its region
before its body begins, and leaves it when the body has ended.

A list of thread numbers is one interleaving of the steps of all threads (`Process.run`).
The process remembers which bodies began, and on which threads.
-/

namespace WorkStealing

/-- A worker of one of the regions that some code opens. -/
structure Seat where
  /-- How many regions the code has opened before. -/
  turn : Nat
  pool : Nat
  worker : Nat
  deriving DecidableEq, Repr

/-- Where code stands in a tree of regions: the seats of the bodies it is in, the innermost
first. -/
abbrev Site := List Seat

namespace Process

/-- A call that has not returned. -/
inductive Frame where
  /-- Code at a place, in a region that the thread of number `caller` opened: the numbers that it
  had when it began, how many regions it has opened, what was seen in those that it has left, and
  the regions still to be opened. -/
  | work (place : Site) (caller : Nat) (ids : List (Option Nat)) (turn : Nat)
      (seen : List (List Sighting)) (rest : List Region)
  /-- Code at a place opens a region, and has made threads for the first workers after zero. -/
  | staff (place : Site) (turn : Nat) (region : Region) (hands : List Nat)
  /-- About to enter a region as a worker whose body opens these regions. -/
  | enter (seat : Seat) (place : Site) (caller : Nat) (rest : List Region)
  /-- The body above has begun; what the thread remembered before is to be brought back. -/
  | leave (previous : Option Membership)
  /-- Waits until the threads that were made for a region are over. -/
  | join (hands : List Nat)

/-- A thread with its calls, the innermost first. -/
structure Thread extends HostThread where
  frames : List Frame
  /-- The body for which the thread was made; none made the one that was there first. -/
  origin : Site
  /-- What the body that ended last on the thread saw. -/
  report : Option Sighting := none

/-- A body that began. -/
structure Beginning where
  seat : Seat
  /-- The place of the code that opened the region. -/
  outer : Site
  thread : Nat
  /-- The thread that opened the region. -/
  caller : Nat

/-- The place of the body that began. -/
def Beginning.place (b : Beginning) : Site := b.seat :: b.outer

/-- What a step of a thread leads to: the thread itself afterwards, the thread that it has made
and the body that has begun, if there is one. -/
structure Move where
  thread : Thread
  made : List Thread := []
  begun : List Beginning := []

end Process

/-- All threads of a process, with the bodies that began, in their order. -/
structure Process where
  threads : List Process.Thread
  begun : List Process.Beginning := []

namespace Region

def pool : Region → Nat
  | .opening pool _ _ => pool

def threads : Region → Nat
  | .opening _ threads _ => threads

def inner : Region → Nat → List Region
  | .opening _ _ inner => inner

/-- The number of workers; the thread that opens the region is always one. -/
def crew (region : Region) : Nat := max 1 region.threads

end Region

namespace Process

open Region (threadName)

def Thread.isOver (thread : Thread) : Bool := thread.frames.isEmpty

def allOver (h : Process) (hands : List Nat) : Bool :=
  hands.all fun hand => h.threads[hand]?.all Thread.isOver

/-- What the bodies for which these threads were made saw. -/
def reports (h : Process) (hands : List Nat) : List Sighting :=
  hands.filterMap fun hand => h.threads[hand]?.bind Thread.report

/-- The step of the thread of that number, if it can make one. -/
def step? (pools : Nat) (h : Process) (index : Nat) (thread : Thread) : Option Move :=
  match thread.frames with
  | .work place caller ids turn seen (region :: rest) :: below =>
    let code := .work place caller ids (turn + 1) seen rest
    some { thread := { thread with frames := .staff place turn region [] :: code :: below } }
  | .work (seat :: _) caller ids _ seen [] :: below =>
    let report := .mk seat.worker thread.name (index == caller) ids seen (thread.workerIds pools)
    some { thread := { thread with frames := below, report := some report } }
  | .staff place turn region hands :: below =>
    let worker := hands.length + 1
    if worker < region.threads then
      let seat := { turn, pool := region.pool, worker }
      let hand : Thread :=
        { name := some (threadName worker)
          frames := [.enter seat place index (region.inner worker)]
          origin := seat :: place }
      let call := .staff place turn region (hands ++ [h.threads.length])
      some { thread := { thread with frames := call :: below }, made := [hand] }
    else
      let seat := { turn, pool := region.pool, worker := 0 }
      let call := .enter seat place index (region.inner 0)
      some { thread := { thread with frames := call :: .join hands :: below } }
  | .enter seat place caller rest :: below =>
    let inside : HostThread :=
      { thread with membership := some { pool := seat.pool, worker := seat.worker } }
    let body := .work (seat :: place) caller (inside.workerIds pools) 0 [] rest
    some
      { thread :=
          { thread with
            toHostThread := inside
            frames := body :: .leave thread.membership :: below }
        begun := [{ seat, outer := place, thread := index, caller }] }
  | .leave previous :: below =>
    some { thread := { thread with membership := previous, frames := below } }
  | .join hands :: .work place caller ids turn seen rest :: below =>
    if h.allOver hands then
      let saw := thread.report.toList ++ h.reports hands
      let code := .work place caller ids turn (seen ++ [saw]) rest
      some { thread := { thread with frames := code :: below } }
    else none
  | _ => none

/-- The process after a move of the thread of that number. -/
def after (h : Process) (index : Nat) (move : Move) : Process :=
  { threads := h.threads.set index move.thread ++ move.made, begun := h.begun ++ move.begun }

/-- The process after a step of the thread of that number. A thread that is over, or that waits for
others, changes nothing. -/
def advance (pools : Nat) (h : Process) (index : Nat) : Process :=
  match h.threads[index]?.bind (h.step? pools index) with
  | none => h
  | some move => h.after index move

def run (pools : Nat) (h : Process) (schedule : List Nat) : Process :=
  schedule.foldl (advance pools) h

/-- A thread that is about to open regions one after another, outside of all that it opens. -/
def opening (caller : HostThread) (regions : List Region) : Process :=
  { threads := [{ caller with frames := [.work [] 0 [] 0 [] regions], origin := [] }] }

/-- What the bodies saw, once all regions of the first thread have been left. -/
def answer? (h : Process) : Option (List (List Sighting)) :=
  match h.threads[0]?.map Thread.frames with
  | some [.work [] _ _ _ seen []] => some seen
  | _ => none

end Process
end WorkStealing
