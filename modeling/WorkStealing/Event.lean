import WorkStealing.Scheduler

/-!
# Events

Everything that a program lets its observer see, in the order in which it
happens: the entries that actions write, and the trace records that the
scheduler writes when tracing is on.
-/

namespace WorkStealing

/-- The answer to a request that is granted or refused. -/
abbrev Outcome : Type := Except Error Unit

/-- How grave a trace record is. -/
inductive TraceLevel where
  | error
  | debug
  | trace
  deriving DecidableEq, Repr

def TraceLevel.name : TraceLevel → String
  | error => "ERROR"
  | debug => "DEBUG"
  | trace => "TRACE"

/-- The value of a field of a trace record. -/
inductive TraceValue where
  | count (value : Nat)
  | text (value : String)
  deriving DecidableEq, Repr

/-- A record about the course of a run. -/
inductive TraceRecord where
  | starting (threads deques : Nat)
  | leaving (worker : Nat)
  | complete
  | statistics (stats : Stats)
  | fatal (cause : Error)
  deriving DecidableEq, Repr

namespace TraceRecord

def level : TraceRecord → TraceLevel
  | starting _ _ => .debug
  | leaving _ => .trace
  | complete => .debug
  | statistics _ => .trace
  | fatal _ => .error

def message : TraceRecord → String
  | starting _ _ => "starting fork-join run"
  | leaving _ => "worker leaving run"
  | complete => "fork-join run complete"
  | statistics _ => "scheduler statistics"
  | fatal _ => "fatal scheduler error, aborting"

/-- The fields of the record beside its message. How long a run took is not recorded. -/
def fields : TraceRecord → List (String × TraceValue)
  | starting threads deques => [("num_threads", .count threads), ("num_deques", .count deques)]
  | leaving worker => [("worker", .count worker)]
  | complete => [("elapsed", .text "-")]
  | statistics stats => [("stats", .text stats.describe)]
  | fatal cause => [("error", .text cause.message)]

end TraceRecord

/-- The result of a calculation. -/
inductive Answer where
  | fib (value : UInt64)
  | sum (value : UInt64)
  | increment (values : List UInt64)
  /-- A chain of forks has been run, by this worker. -/
  | chain (worker : Option Nat)
  deriving DecidableEq, Repr

/-- Something that an observer sees. -/
inductive Event where
  | log (label : String) (worker : Option Nat)
  | began (job : JobId) (worker : Option Nat)
  | ended (job : JobId) (worker : Option Nat)
  | ran (outcome : Outcome)
  | ranThunk (outcome : Outcome)
  | joined (worker : Option Nat)
  | calculated (answer : Answer)
  /-- A job was spawned, or there was no worker to spawn it. -/
  | spawned (job : JobId) (outcome : Outcome)
  | tookBack (job : Option JobId)
  | finished
  /-- A wait is over, after so many evaluations of its condition. -/
  | waited (evaluations : Nat)
  /-- A job was pushed on a deque, if there is that deque. -/
  | pushed (outcome : Option Outcome)
  /-- A job was popped from a deque, if there is that deque. -/
  | popped (job : Option (Option JobId))
  /-- A job was stolen from a deque, if there is that deque. -/
  | stole (job : Option (Option JobId))
  | resetDeque (found : Bool)
  | deque (text : Option String)
  | handExecuted (job : Option JobId)
  | handSpawned (job : Option (JobId × Outcome))
  | handPushed (job : Option (JobId × Option Outcome))
  | stats (stats : Stats)
  | statsReset
  /-- The number of deques, of workers at most, and of workers in the latest run; whether a run
  is in progress; and who asks. -/
  | info (deques maxWorkers active : Nat) (running : Bool) (worker : Option Nat)
  | described (text : String)
  | trace (record : TraceRecord)

end WorkStealing
