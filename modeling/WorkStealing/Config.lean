import WorkStealing.Duration
import WorkStealing.Error

/-!
# Configuration

The settings of a scheduler, the two ready-made configurations, and the check
that a configuration passes before a scheduler is built from it.
-/

namespace WorkStealing

/-- How a worker waits for a job that another worker has taken. -/
inductive WaitPolicy where
  /-- It runs other jobs while it waits. -/
  | cooperative
  /-- It only polls. -/
  | conservative
  deriving DecidableEq, Repr

def WaitPolicy.name : WaitPolicy → String
  | cooperative => "Cooperative"
  | conservative => "Conservative"

/-- The number of slots of a deque unless another is given. -/
def defaultDequeCapacity : UInt64 := 200

/-- The settings of a scheduler. -/
structure Config where
  /-- The number of workers, or as many as the host offers. -/
  maxWorkers : Option UInt64 := none
  dequesPerWorker : UInt64 := 2
  dequeCapacity : UInt64 := defaultDequeCapacity
  waitPolicy : WaitPolicy := .cooperative
  /-- Steal attempts in a round, as a multiple of the number of deques. -/
  stealRoundsPerDeque : UInt64 := 4
  /-- The pause after a round without success, for each deque. -/
  idleSleepPerDeque : Duration := .ofParts 0 500
  deriving DecidableEq

namespace Config

/-- One worker with one deque. -/
def sequential : Config := { maxWorkers := some 1, dequesPerWorker := 1 }

def fault? (config : Config) : Option ConfigFault :=
  if config.maxWorkers = some 0 then some .noWorkers
  else if config.dequesPerWorker = 0 then some .noDequesPerWorker
  else if config.dequeCapacity = 0 ∨ maxCapacity < config.dequeCapacity.toNat then
    some (.capacityField config.dequeCapacity)
  else if config.stealRoundsPerDeque = 0 then some .noStealRounds
  else none

/-- Refuses a configuration that has a fault. -/
def validate (config : Config) : Except Error Unit :=
  match config.fault? with
  | some fault => .error (.invalidConfig fault)
  | none => .ok ()

/-- The number of workers on a host that offers so many; there is always one. -/
def workersOn (config : Config) (offered : UInt64) : UInt64 :=
  let workers := config.maxWorkers.getD offered
  if workers = 0 then 1 else workers

/-- The number of workers, where it does not depend on the host. -/
def resolvedWorkers? (config : Config) : Option UInt64 :=
  config.maxWorkers.map config.workersOn

def describe (config : Config) : String :=
  Text.record "SchedulerConfig"
    [("max_workers", Text.optional (config.maxWorkers.map toString)),
      ("deques_per_worker", toString config.dequesPerWorker),
      ("deque_capacity", toString config.dequeCapacity),
      ("wait_policy", config.waitPolicy.name),
      ("steal_rounds_per_deque", toString config.stealRoundsPerDeque),
      ("idle_sleep_per_deque", config.idleSleepPerDeque.describe)]

end Config
end WorkStealing
