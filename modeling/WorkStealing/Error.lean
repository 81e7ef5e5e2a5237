import WorkStealing.Text.Quoted
import WorkStealing.Text.Record

/-!
# Errors and panics

An `Error` is an answer that a caller can act on, or the reason for which a
process is given up. A `Panic` is a broken assumption: it unwinds the work of
one thread up to a point that can bear it.

Both are causes; the wording is in `Error.message` and `Panic.message`.
-/

namespace WorkStealing

/-- The largest number of slots that a deque can have: its indices are 32-bit words. -/
def maxCapacity : Nat := UInt32.size - 1

/-- What is wrong with a configuration. -/
inductive ConfigFault where
  | noWorkers
  | noDequesPerWorker
  /-- The configured number of slots does not fit a deque. -/
  | capacityField (given : UInt64)
  /-- The number of slots asked of one deque does not fit it. -/
  | dequeCapacity (given : UInt64)
  | noStealRounds
  | notACount (key value : String)
  | unknownWaitPolicy (name : String)
  /-- A fault in the words of whoever found it. -/
  | described (text : String)
  deriving DecidableEq, Repr

def ConfigFault.message : ConfigFault → String
  | noWorkers => "max_workers must be at least 1"
  | noDequesPerWorker => "deques_per_worker must be at least 1"
  | capacityField given =>
    "deque_capacity must be in 1..=" ++ toString maxCapacity ++ ", got " ++ toString given
  | dequeCapacity given =>
    "deque capacity must be in 1..=" ++ toString maxCapacity ++ ", got " ++ toString given
  | noStealRounds => "steal_rounds_per_deque must be at least 1"
  | notACount key value => key ++ ": expected a count, got '" ++ value ++ "'"
  | unknownWaitPolicy name => "unknown wait policy '" ++ name ++ "'"
  | described text => text

/-- Why a request was refused, or why the process was given up. -/
inductive Error where
  | dequeOverflow (capacity : Nat)
  /-- A deque was emptied so often that its tag cannot advance any more. -/
  | tagExhausted
  | tooManyThreads (requested available : Nat)
  /-- A job panicked while others could still refer to it. -/
  | jobPanicked
  | alreadyRunning
  /-- A request that only a worker can make came from elsewhere. -/
  | notInWorker
  | invalidConfig (fault : ConfigFault)
  deriving DecidableEq, Repr

namespace Error

def message : Error → String
  | dequeOverflow capacity =>
    "Work-stealing deque overflow (capacity " ++ toString capacity ++ ")"
  | tagExhausted => "Work-stealing deque age tag exhausted"
  | tooManyThreads requested available =>
    "Requested " ++ toString requested ++ " worker threads but only " ++ toString available ++
      " deques are provisioned"
  | jobPanicked => "Job panicked inside a fork-join region"
  | alreadyRunning => "Scheduler is already running"
  | notInWorker => "Not running on a scheduler worker thread"
  | invalidConfig fault => "Invalid scheduler configuration: " ++ fault.message

def kind : Error → String
  | dequeOverflow _ => "DequeOverflow"
  | tagExhausted => "TagExhausted"
  | tooManyThreads _ _ => "TooManyThreads"
  | jobPanicked => "JobPanicked"
  | alreadyRunning => "AlreadyRunning"
  | notInWorker => "NotInWorker"
  | invalidConfig _ => "InvalidConfig"

def describe (error : Error) : String :=
  match error with
  | dequeOverflow capacity => Text.record error.kind [("capacity", toString capacity)]
  | tooManyThreads requested available =>
    Text.record error.kind
      [("requested", toString requested), ("available", toString available)]
  | invalidConfig fault => error.kind ++ "(" ++ Text.quoted fault.message ++ ")"
  | _ => error.kind

end Error

/-- An assumption that did not hold. -/
inductive Panic where
  | raised (text : String)
  | jobExecutedTwice
  | resetNonEmpty
  /-- A victim was to be chosen among no deques. -/
  | remainderByZero
  | addOverflow
  | multiplyOverflow
  | durationOverflow
  | indexOutOfBounds (length index : Nat)
  | crewPanicked
  deriving DecidableEq, Repr

def Panic.message : Panic → String
  | raised text => text
  | jobExecutedTwice => "job executed twice"
  | resetNonEmpty => "reset of a non-empty deque"
  | remainderByZero => "attempt to calculate the remainder with a divisor of zero"
  | addOverflow => "attempt to add with overflow"
  | multiplyOverflow => "attempt to multiply with overflow"
  | durationOverflow => "overflow when multiplying duration by scalar"
  | indexOutOfBounds length index =>
    "index out of bounds: the len is " ++ toString length ++ " but the index is " ++ toString index
  | crewPanicked => "a scoped thread panicked"

/-- Why work did not come to its end: a panic, or an error about which nothing can be done. -/
inductive Failure where
  | panic (cause : Panic)
  | error (cause : Error)
  deriving DecidableEq, Repr

end WorkStealing
