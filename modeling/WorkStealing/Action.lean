import WorkStealing.Memory

/-!
# Actions

The code of jobs and scripts is a list of actions. Some actions are requests to
the scheduler, some look at it or reach into its deques from outside, and a few
are what jobs do to keep their own books.

Code of nothing but `log`, `store` and `fork`, at any depth, is strict: it asks
the scheduler for nothing but forks, and each fork is joined before the code
after it.
-/

namespace WorkStealing

/-- Work that is spread over forks. -/
inductive Calculation where
  /-- A Fibonacci number, with a fork for each call above one. -/
  | fib (n : Nat)
  /-- The sum of a list, with a fork for each list longer than a leaf. -/
  | sum (data : List UInt64) (leaf : Nat)
  /-- One more for each element of a list, with a fork for each list of two or more. -/
  | increment (data : List UInt64)
  /-- Forks inside each other, so many deep, all on the same side. -/
  | chain (depth : Nat) (leftSide : Bool)

/-- One thing that code does. -/
inductive Action where
  | log (label : String)
  /-- Writes the sum of a constant and of some cells into a cell. -/
  | store (cell : Nat) (constant : UInt64) (sources : List Nat)
  | panic (text : String)
  /-- Runs two branches, potentially at once, and goes on when both have ended. -/
  | fork (left right : List Action)
  | repeated (times : Nat) (body : List Action)
  /-- Does something as another worker, or as nobody. -/
  | asWorker (identity : Option Nat) (body : List Action)
  | calculate (calculation : Calculation)
  /-- Reports the result that a calculation has left in the cells from the first one on. -/
  | answer (calculation : Calculation) (first : Nat)
  | execute (job : JobId)
  | start (job : JobId)
  | complete (job : JobId)
  | began (job : JobId)
  | ended (job : JobId)
  | joined
  | run (job : JobId) (threads : Nat)
  | runThunk (body : List Action) (threads : Nat)
  | spawn (job : JobId)
  /-- Takes the newest job back. -/
  | takeBack
  /-- Tells the run in progress to end. -/
  | finish
  | wait (condition : Condition)
  | push (deque : Nat) (job : JobId)
  /-- Pops the newest job of a deque into the hand. -/
  | pop (deque : Nat)
  /-- Steals the oldest job of a deque into the hand. -/
  | steal (deque : Nat)
  | resetDeque (deque : Nat)
  | showDeque (deque : Nat)
  | handExecute
  | handSpawn
  | handPush (deque : Nat)
  | stats
  | resetStats
  | info
  | describe
  | bump (place : Nat) (counter : Counter)
  | emit (event : Event)

/-- The code of a job or a script. -/
abbrev Code : Type := List Action

namespace Action

/-- Code that forks, and reports when the fork has been joined. -/
def announceFork (left right : Code) : Code :=
  [.fork left right, .joined]

/-- Code that tells the run to end, and reports it. -/
def announceFinish : Code :=
  [.finish, .emit .finished]

/-- The code of a named job around its body. -/
def namedBody (job : JobId) (body : Code) : Code :=
  .began job :: body ++ [.ended job, .complete job]

/-- The code of the right branch of a fork around the branch. -/
def branchBody (job : JobId) (branch : Code) : Code :=
  .start job :: branch ++ [.complete job]

/-- The code of the first job of a run around its thunk. -/
def rootBody (thunk : Code) : Code :=
  thunk ++ [.finish]

end Action

mutual

/-- Every action is a fork or satisfies the test, inside forks too. -/
def Action.within (test : Action → Bool) : Action → Bool
  | .fork left right => Code.within test left && Code.within test right
  | action => test action

def Code.within (test : Action → Bool) : List Action → Bool
  | [] => true
  | action :: rest => Action.within test action && Code.within test rest

end

/-- The action writes to the log or to a cell, and nothing else. -/
def Action.isPlain : Action → Bool
  | .log _ => true
  | .store _ _ _ => true
  | _ => false

/-- Code of plain actions and forks only. -/
def Code.isStrict (code : Code) : Bool :=
  Code.within Action.isPlain code

end WorkStealing
