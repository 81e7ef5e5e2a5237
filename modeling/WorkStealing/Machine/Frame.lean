import WorkStealing.Calculation

/-!
# Frames

A thread is a stack of frames. A frame is one call that has not returned, with
the point that it has reached; the points are chosen so that from one to the
next there is at most one access to what the threads share.

Frames of forks and of jobs that have started guard what is above them: a panic
may not pass through them, because other threads can still refer to them.
-/

namespace WorkStealing
namespace Machine

/-- When a worker loop ends. -/
inductive Stop where
  /-- When the run is told to end. -/
  | finished
  /-- When a job has ended. -/
  | jobDone (job : JobId)
  /-- When a condition holds. -/
  | condition (test : Condition)

/-- Where a worker loop is. -/
inductive LoopPoint where
  /-- About to ask whether to end, before looking for a job. -/
  | poll
  /-- About to pop from the worker's own deque. -/
  | pop
  /-- Has popped a job, and is about to count that. -/
  | popped (job : JobId)
  /-- Has so many steal attempts left in this round; about to ask whether to end, or to pause. -/
  | trial (left : Nat)
  /-- About to read the number of the attempt. -/
  | aim (left : Nat)
  /-- About to advance the number of the attempt. -/
  | advance (left : Nat) (attempt : UInt64)
  /-- About to count the attempt. -/
  | count (left : Nat) (target : Nat)
  /-- About to steal. -/
  | steal (left : Nat) (target : Nat)
  /-- Has stolen a job, and is about to count that. -/
  | stolen (job : JobId)
  /-- Has a job, and is about to count and to execute it. -/
  | dispatch (job : JobId)

/-- Where a fork made by a worker is. -/
inductive ForkPoint where
  /-- About to push the right branch. -/
  | publish
  /-- About to count the push, and then to run the left branch. -/
  | published
  /-- The left branch has ended; about to ask whether the right one was started elsewhere. -/
  | check
  /-- About to pop the right branch back. -/
  | reclaim
  /-- Has popped a job, and is about to count that. -/
  | reclaimed (job : JobId)
  /-- Has its right branch back, and is about to count that and to run it. -/
  | inlineJoin
  /-- Has popped another job, and is about to push it again. -/
  | putBack (job : JobId)
  /-- About to count the second push. -/
  | putBackCount
  /-- Somebody else has the right branch; about to count that and to wait. -/
  | stolenJoin
  /-- Both branches have ended. -/
  | closing

/-- Where a run is. -/
inductive RunPoint where
  /-- About to check the number of workers and to claim the scheduler. -/
  | claim (threads : Nat)
  /-- About to push the first job. -/
  | enqueue (threads : Nat)
  /-- About to announce the number of workers. -/
  | announce (threads : Nat)
  /-- About to open the parallel region. -/
  | open (threads : Nat)
  /-- All workers have left; about to clear the flag that ended the run. -/
  | clear
  /-- About to reset the deque of that number, and those after it. -/
  | reset (deque : Nat)
  /-- About to release the scheduler. -/
  | release
  /-- About to write the last trace records. -/
  | complete

/-- A call that has not returned. -/
inductive Frame where
  /-- Code that is left to be run. -/
  | perform (rest : Code)
  /-- A job about to be taken for execution. -/
  | execute (job : JobId)
  /-- A job whose code is above. -/
  | guarded (job : JobId)
  /-- A fork by a worker, with the job of its right branch and the code of its left one. -/
  | fork (point : ForkPoint) (worker : Nat) (right : JobId) (left : Code)
  /-- A worker loop that has evaluated its condition so many times. -/
  | loop (point : LoopPoint) (worker : Nat) (stop : Stop) (evaluations : Nat)
  /-- A wait that only polls, and has done so so many times. -/
  | poll (stop : Stop) (evaluations : Nat)
  /-- A run of a job; `thunk` tells whether the job was made for the run. -/
  | run (point : RunPoint) (job : JobId) (thunk : Bool)
  /-- A region in which one thread plays workers one after another: those still to be played, and
  who the thread was before. -/
  | turns (pending : List Nat) (outer : Option Nat)
  /-- A region about to be opened with a thread for each of these workers. -/
  | recruit (workers : List Nat)
  /-- A region in which the thread plays the first worker and has made threads for the others; and
  who the thread was before. -/
  | crew (threads : List Nat) (outer : Option Nat)
  /-- The end of a region, where the thread that opened it waits for the others; with the panic of
  its own worker, if there is one. -/
  | disband (threads : List Nat) (pending : Option Panic)
  /-- Something done under another identity; and who the thread was before. -/
  | restore (outer : Option Nat)

/-- How the host runs the workers of a region. -/
structure HostStyle where
  /-- Each worker has a thread, and the caller is the first of them; else the caller plays them one
  after another. -/
  atOnce : Bool
  /-- The workers that take part in every region; else as many as are asked for, from zero on. -/
  workers : Option (List Nat) := none

/-- The workers that take part in a region for which so many are asked. -/
def HostStyle.workersOf (style : HostStyle) (threads : Nat) : List Nat :=
  style.workers.getD (List.range threads)

/-- All that a step can change beside the thread that makes it. -/
structure World extends Memory where
  /-- The code of each job. -/
  bodies : Array Code := #[]
  /-- How the host runs the workers of a region. -/
  style : HostStyle := { atOnce := true }

/-- What a step of the frame on top leads to. -/
inductive Move where
  /-- The thread goes on as this worker, with these frames in the place of the one on top. -/
  | go (world : World) (identity : Option Nat) (frames : List Frame)
  /-- The frame fails. -/
  | fail (world : World) (cause : Failure)
  /-- New threads are made for all of these workers but the first, which the thread plays itself. -/
  | recruit (world : World) (workers : List Nat)
  /-- The frame is left when all of these threads are over, with the panic if there is one. -/
  | await (world : World) (threads : List Nat) (pending : Option Panic)

end Machine
end WorkStealing
