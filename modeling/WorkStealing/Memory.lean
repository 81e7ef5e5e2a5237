import WorkStealing.Event

/-!
# Memory

What all threads of a program share, apart from the code of its jobs: the
scheduler, the flags of the jobs, the cells in which calculations leave their
results, the jobs in hand, and the events so far. Conditions for which a worker
waits are functions of it.
-/

namespace WorkStealing

/-- How far a job has come. -/
structure JobFlags where
  /-- Somebody has taken the code of the job to execute it. -/
  taken : Bool := false
  started : Bool := false
  done : Bool := false
  deriving DecidableEq, Repr

/-- What all threads share. -/
structure Memory where
  scheduler : Scheduler
  flags : Array JobFlags := #[]
  cells : Array UInt64 := #[]
  /-- Jobs that were popped and not yet given away, the latest first. -/
  hand : List JobId := []
  transcript : Array Event := #[]
  /-- Trace records are written too. -/
  tracing : Bool := false

namespace Memory

def isDone (m : Memory) (job : JobId) : Bool :=
  match m.flags[job]? with
  | some flags => flags.done
  | none => false

def isStarted (m : Memory) (job : JobId) : Bool :=
  match m.flags[job]? with
  | some flags => flags.started
  | none => false

/-- Changes the flags of a job. -/
def setFlags (m : Memory) (job : JobId) (change : JobFlags → JobFlags) : Memory :=
  { m with flags := m.flags.modify job change }

/-- The value of a cell; zero where there is no cell. -/
def cell (m : Memory) (index : Nat) : UInt64 :=
  m.cells.getD index 0

def emit (m : Memory) (event : Event) : Memory :=
  { m with transcript := m.transcript.push event }

def trace (m : Memory) (record : TraceRecord) : Memory :=
  if m.tracing then m.emit (.trace record) else m

end Memory

/-- A condition to wait for. It is given the number of the evaluation, counted from one, and may
panic. -/
abbrev Condition : Type := Nat → Memory → Except Panic Bool

namespace Condition

/-- Holds from the evaluation of that number on. -/
def polls (count : Nat) : Condition :=
  fun evaluation _ => .ok (count ≤ evaluation)

/-- All of these jobs have ended. -/
def allDone (jobs : List JobId) : Condition :=
  fun _ m => .ok (jobs.all m.isDone)

/-- At least so many of these jobs have ended. -/
def countDone (jobs : List JobId) (count : Nat) : Condition :=
  fun _ m => .ok (count ≤ (jobs.filter m.isDone).length)

/-- The statistic of that number, in the order of `Counter.all`, is at least so large. -/
def statAtLeast (index : Nat) (least : Nat) : Condition :=
  fun _ m => do
    let stats ← m.scheduler.stats
    match stats.toList[index]? with
    | some value => return least ≤ value.toNat
    | none => .error (.indexOutOfBounds stats.toList.length index)

end Condition
end WorkStealing
