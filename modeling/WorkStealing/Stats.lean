import WorkStealing.Error

/-!
# Statistics

Eight counters, kept for each deque by the worker that owns it and summed over
all of them. A counter wraps at 2^64; a sum that would leave its word is
refused, with the counters before it already summed.
-/

namespace WorkStealing

/-- The eight things that are counted. -/
inductive Counter where
  /-- Jobs that a worker loop started. -/
  | jobsExecuted
  /-- Jobs pushed by the worker that owns the deque. -/
  | jobsSpawned
  /-- Jobs popped by the worker that owns the deque. -/
  | localPops
  /-- Attempts to steal. -/
  | stealAttempts
  /-- Attempts to steal that brought a job. -/
  | steals
  /-- Pauses after a round of failed attempts. -/
  | idleSleeps
  /-- Forks that took their right branch back. -/
  | inlineJoins
  /-- Forks that had to wait for their right branch. -/
  | stolenJoins
  deriving DecidableEq, Repr

def Counter.name : Counter → String
  | jobsExecuted => "jobs_executed"
  | jobsSpawned => "jobs_spawned"
  | localPops => "local_pops"
  | stealAttempts => "steal_attempts"
  | steals => "steals"
  | idleSleeps => "idle_sleeps"
  | inlineJoins => "inline_joins"
  | stolenJoins => "stolen_joins"

/-- All counters, in the order in which they are written. -/
def Counter.all : List Counter :=
  [.jobsExecuted, .jobsSpawned, .localPops, .stealAttempts, .steals, .idleSleeps, .inlineJoins,
    .stolenJoins]

/-- The values of the eight counters. -/
structure Stats where
  jobsExecuted : UInt64 := 0
  jobsSpawned : UInt64 := 0
  localPops : UInt64 := 0
  stealAttempts : UInt64 := 0
  steals : UInt64 := 0
  idleSleeps : UInt64 := 0
  inlineJoins : UInt64 := 0
  stolenJoins : UInt64 := 0
  deriving DecidableEq, Repr

namespace Stats

def get (stats : Stats) : Counter → UInt64
  | .jobsExecuted => stats.jobsExecuted
  | .jobsSpawned => stats.jobsSpawned
  | .localPops => stats.localPops
  | .stealAttempts => stats.stealAttempts
  | .steals => stats.steals
  | .idleSleeps => stats.idleSleeps
  | .inlineJoins => stats.inlineJoins
  | .stolenJoins => stats.stolenJoins

def set (stats : Stats) (counter : Counter) (value : UInt64) : Stats :=
  match counter with
  | .jobsExecuted => { stats with jobsExecuted := value }
  | .jobsSpawned => { stats with jobsSpawned := value }
  | .localPops => { stats with localPops := value }
  | .stealAttempts => { stats with stealAttempts := value }
  | .steals => { stats with steals := value }
  | .idleSleeps => { stats with idleSleeps := value }
  | .inlineJoins => { stats with inlineJoins := value }
  | .stolenJoins => { stats with stolenJoins := value }

theorem get_set
    (stats : Stats) (counter other : Counter) (value : UInt64) :
    (stats.set counter value).get other =
      if other = counter then value else stats.get other := by
  cases counter <;> cases other <;> rfl

/-- One more of something; the counter wraps at 2^64. -/
def bump (stats : Stats) (counter : Counter) : Stats :=
  stats.set counter (stats.get counter + 1)

/-- Eight values in the order of `Counter.all`; missing ones are zero. -/
def ofList (values : List UInt64) : Stats :=
  (Counter.all.zip values).foldl (fun stats entry => stats.set entry.1 entry.2) {}

def toList (stats : Stats) : List UInt64 :=
  Counter.all.map stats.get

/-- Adds one set of values to another, counter by counter in the order given. The sums made
before one overflows stay, and the answer tells whether all of them were made. -/
def addCounters (total part : Stats) : List Counter → Stats × Except Panic Unit
  | [] => (total, .ok ())
  | counter :: rest =>
    let sum := (total.get counter).toNat + (part.get counter).toNat
    if sum < UInt64.size then addCounters (total.set counter (.ofNat sum)) part rest
    else (total, .error .addOverflow)

def add (total part : Stats) : Stats × Except Panic Unit :=
  addCounters total part Counter.all

/-- The sum of many sets of values, unless one overflows. -/
def sum (parts : List Stats) : Except Panic Stats :=
  parts.foldlM
    (fun total part =>
      match total.add part with
      | (total, .ok ()) => .ok total
      | (_, .error panic) => .error panic)
    {}

def describe (stats : Stats) : String :=
  Text.record "SchedulerStats"
    (Counter.all.map fun counter => (counter.name, toString (stats.get counter)))

/-- A running total of parts: the total after each part, up to the first that overflows. -/
structure Account where
  totals : List Stats
  stopped : Option Panic
  /-- The total at the end, with what the last part added before it overflowed. -/
  final : Stats
  deriving DecidableEq, Repr

/-- Adds parts one after another to a total. -/
def account (total : Stats) : List Stats → Account
  | [] => { totals := [], stopped := none, final := total }
  | part :: rest =>
    match total.add part with
    | (total, .ok ()) =>
      let after := account total rest
      { after with totals := total :: after.totals }
    | (total, .error panic) => { totals := [], stopped := some panic, final := total }

end Stats
end WorkStealing
