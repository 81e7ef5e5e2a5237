import Mathlib.Algebra.Order.BigOperators.Group.List
import WorkStealing.Proofs.ForkJoin.Balance
import WorkStealing.Proofs.Scheduler.Construction

/-!
# Sessions

In a session nothing is done with a scheduler since it was built but runs of strict
code, one after another, and the statistics are set back between runs now and then
(`Session`). Between two runs nothing is kept but the scheduler. The statistics of a
session are those of whole runs: whatever the order of the steps was, they say how many
runs have returned and how many forks were begun since they were set back
(`Session.conserves_statistics`).
-/

namespace WorkStealing

/-- What was done in a session. -/
structure Tally where
  /-- The runs that have returned, since the statistics were set back. -/
  runs : Nat := 0
  /-- The forks of workers, since the statistics were set back. -/
  forks : Nat := 0
  /-- How often something was counted, since the scheduler was built. -/
  bumps : Nat := 0

namespace ForkJoin

open Machine (System)

/-- The number of runs that have returned since the launch. -/
def Launch.returns (l : Launch) (s : System) : Nat :=
  (s.world.transcript.toList.drop l.world.transcript.size).countP Machine.returned

/-- The same call once more, when so many steps were made. -/
def Launch.again (l : Launch) (schedule : List Nat) : Launch :=
  { l with world := (l.system.run schedule).world }

@[simp] theorem Launch.again_world
    (l : Launch) (schedule : List Nat) :
    (l.again schedule).world = (l.system.run schedule).world :=
  rfl

end ForkJoin

open ForkJoin (Launch)

/-- What was done after so many steps of a run. -/
def Tally.after (tally : Tally) (l : Launch) (schedule : List Nat) : Tally :=
  { runs := tally.runs + l.returns (l.system.run schedule)
    forks := tally.forks + l.system.forked schedule
    bumps := tally.bumps + (l.system.counted schedule).length }

/-- The scheduler, whose deques have so many slots, and what was done in the session so far. -/
inductive Session (capacity : Nat) : Scheduler → Tally → Prop where
  | built {config : Config} {offered : UInt64} {s : Scheduler}
      (hbuild : Scheduler.build config offered = .ok s)
      (hcapacity : config.dequeCapacity.toNat = capacity) :
      Session capacity s {}
  /-- A run was called, and has come back without giving the process up. -/
  | called {s : Scheduler} {tally : Tally}
      (hsession : Session capacity s tally)
      (l : Launch)
      (hfit : l.Fit)
      (hworld : l.world.scheduler = s)
      (schedule : List Nat)
      (hgoing : (l.system.run schedule).aborted = none)
      (hover : (l.system.run schedule).isRunning = false) :
      Session capacity (l.system.run schedule).world.scheduler (tally.after l schedule)
  | reset {s : Scheduler} {tally : Tally}
      (hsession : Session capacity s tally) :
      Session capacity s.resetStats { tally with runs := 0, forks := 0 }

/-- The statistics are those of so many runs with so many forks. -/
structure Stats.Conserved (stats : Stats) (runs forks : Nat) : Prop where
  /-- A loop executes the first job of each run, and each right branch that was stolen. -/
  executed : stats.jobsExecuted.toNat = runs + stats.stolenJoins.toNat
  /-- Each job that was pushed was popped or stolen once. -/
  obtained : stats.localPops.toNat + stats.steals.toNat = stats.jobsSpawned.toNat + runs
  joined : stats.inlineJoins.toNat + stats.stolenJoins.toNat = stats.jobsSpawned.toNat
  spawned : stats.jobsSpawned.toNat = forks

/-- What the laws say of counters to which nothing is owed. -/
theorem Stats.conserved_of_tally
    {stats : Stats} {runs forks : Nat}
    (h : ∀ law : Law, law ≠ .attempts →
      law.tally (fun counter => (stats.get counter).toNat) =
        law.perRun * runs + law.perFork * forks) :
    stats.Conserved runs forks := by
  have hjobs := h .jobs Law.noConfusion
  have hpushes := h .pushes Law.noConfusion
  have hjoins := h .joins Law.noConfusion
  have hexecutions := h .executions Law.noConfusion
  simp only [Law.tally, Law.perRun, Law.perFork, get] at hjobs hpushes hjoins hexecutions
  constructor <;> omega

/-- What was stolen was to be stolen. -/
theorem Stats.steals_le_of_tally
    {stats : Stats}
    (h : Law.attempts.tally (fun counter => (stats.get counter).toNat) ≤ 0) :
    stats.steals.toNat ≤ stats.stealAttempts.toNat := by
  simp only [Law.tally, get] at h
  omega

namespace Scheduler

/-- Nothing was counted yet. -/
theorem total_eq_zero
    {s : Scheduler}
    (h : ∀ place ∈ s.places, place.stats = {})
    (counter : Counter) :
    s.total counter = 0 := by
  refine List.sum_eq_zero fun value hvalue => ?_
  obtain ⟨stats, hstats, rfl⟩ := List.mem_map.mp hvalue
  obtain ⟨place, hplace, rfl⟩ := List.mem_map.mp hstats
  rw [h place (Array.mem_toList_iff.mp hplace)]
  cases counter <;> rfl

/-- The statistics are the totals, if none of these has left its word. -/
theorem exists_stats
    {s : Scheduler} {most : Nat}
    (hbounded : ∀ counter, s.total counter ≤ most)
    (hmost : most < UInt64.size) :
    ∃ stats, s.stats = .ok stats ∧ (fun counter => (stats.get counter).toNat) = s.total := by
  obtain ⟨stats, hstats, hget⟩ := stats_of_fits fun counter =>
    Nat.lt_of_le_of_lt (hbounded counter) hmost
  exact ⟨stats, hstats, funext hget⟩

/-- What is so between two runs of a session, if no counter has left its word. -/
structure Stands (s : Scheduler) (capacity : Nat) (tally : Tally) : Prop where
  idle : s.IsIdle capacity
  workers : 0 < s.maxWorkers
  word : s.dequeCount < UInt64.size
  bounded : ∀ counter, s.total counter ≤ tally.bumps
  even : ∀ law : Law, law ≠ .attempts →
    law.tally s.total = law.perRun * tally.runs + law.perFork * tally.forks
  covered : Law.attempts.tally s.total ≤ 0

/-- Where nothing was counted there is nothing to be shown of the counters. -/
theorem stands_of_zero
    {s : Scheduler} {capacity bumps : Nat}
    (hidle : s.IsIdle capacity)
    (hworkers : 0 < s.maxWorkers)
    (hword : s.dequeCount < UInt64.size)
    (hstats : ∀ place ∈ s.places, place.stats = {}) :
    s.Stands capacity { bumps := bumps } := by
  have hzero := total_eq_zero hstats
  have htally : ∀ law : Law, law.tally s.total = 0 := by
    intro law
    have hnone : s.total = fun _ => 0 := funext hzero
    rw [hnone]
    cases law <;> rfl
  refine ⟨hidle, hworkers, hword, fun counter => ?_, fun law _ => ?_, ?_⟩
  · rw [hzero]
    exact Nat.zero_le _
  · rw [htally]
    cases law <;> rfl
  · exact Int.le_of_eq (htally .attempts)

end Scheduler

namespace ForkJoin.Launch

open Machine (System)

variable {l : Launch} {capacity : Nat} {s : System} {tally : Tally}

/-- The runs that have returned are those that had returned before, and those since the launch. -/
theorem returns_add
    (h : ∃ events, s.world.transcript.toList = l.world.transcript.toList ++ events) :
    s.world.returns = l.world.returns + l.returns s := by
  obtain ⟨events, hevents⟩ := h
  have hdrop : s.world.transcript.toList.drop l.world.transcript.size = events := by
    rw [hevents, ← Array.length_toList, List.drop_left]
  rw [returns, hdrop, Machine.World.returns, Machine.World.returns, hevents, List.countP_append]

/-- What the laws say when the run has come back. -/
theorem tally_of_balanced
    {most forks bumps : Nat}
    (h : l.Balanced capacity most s forks bumps)
    (hidle : l.world.scheduler.IsIdle capacity)
    (hgoing : s.aborted = none)
    (hover : s.isRunning = false)
    (law : Law)
    (hlaw : law ≠ .attempts) :
    law.tally s.world.scheduler.total =
      law.tally l.world.scheduler.total + law.perRun * l.returns s + law.perFork * forks := by
  obtain ⟨hafter, howed⟩ := h.rests hgoing hover
  have heven := h.audit.even hgoing law hlaw
  have hreturns := returns_add h.audit.transcript
  rw [System.balance, howed, Law.value, Law.value, hafter.load_eq, hidle.load_eq, hreturns,
    Int.mul_zero, Int.natCast_add, Int.mul_add] at heven
  omega

/-- No more was stolen than was to be stolen, at any time. -/
theorem covered_of_balanced
    {most forks bumps : Nat}
    (h : l.Balanced capacity most s forks bumps)
    (hbefore : Law.attempts.tally l.world.scheduler.total ≤ 0) :
    Law.attempts.tally s.world.scheduler.total ≤ 0 := by
  have howed : 0 ≤ s.owed .attempts := by
    refine List.sum_nonneg fun part hpart => ?_
    obtain ⟨thread, -, rfl⟩ := List.mem_map.mp hpart
    refine List.sum_nonneg fun owes howes => ?_
    obtain ⟨frame, -, rfl⟩ := List.mem_map.mp howes
    exact Law.attempts_owes_nonneg frame
  have hcovered := h.audit.covered
  rw [System.balance, Law.value_attempts, Law.value_attempts] at hcovered
  omega

end ForkJoin.Launch

namespace Session

open Machine (System)

variable {capacity : Nat} {s : Scheduler} {tally : Tally}

/-- The laws at all times in a run of a session. -/
theorem balanced
    (h : s.Stands capacity tally)
    {l : Launch}
    (hfit : l.Fit)
    (hworld : l.world.scheduler = s)
    (schedule : List Nat)
    (hbumps : (tally.after l schedule).bumps < UInt64.size) :
    l.Balanced capacity tally.bumps (l.system.run schedule) (l.system.forked schedule)
      (l.system.counted schedule).length := by
  subst hworld
  exact Launch.balanced_run hfit h.idle h.workers h.word h.bounded schedule hbumps

/-- Between two runs the scheduler is idle, and the laws hold. -/
theorem stands
    (h : Session capacity s tally)
    (hbumps : tally.bumps < UInt64.size) :
    s.Stands capacity tally := by
  induction h with
  | built hbuild hcapacity =>
      have hnew := Scheduler.isNew_of_build hbuild
      rw [hcapacity] at hnew
      exact Scheduler.stands_of_zero hnew.idle hnew.workers hnew.word hnew.stats
  | @called s tally hsession l hfit hworld schedule hgoing hover ih =>
      have hbefore := ih (Nat.lt_of_le_of_lt (Nat.le_add_right _ _) hbumps)
      have hbalanced := balanced hbefore hfit hworld schedule hbumps
      have hcontinues := (System.continues_run l.system schedule).scheduler
      have hsame : l.system.world.scheduler = s := hworld
      rw [hsame] at hcontinues
      obtain ⟨hidle, -⟩ := hbalanced.rests hgoing hover
      have hstart : l.world.scheduler.IsIdle capacity := hworld ▸ hbefore.idle
      refine ⟨hidle, ?_, ?_, hbalanced.audit.bounded, fun law hlaw => ?_, ?_⟩
      · rw [hcontinues.maxWorkers]
        exact hbefore.workers
      · rw [hcontinues.dequeCount]
        exact hbefore.word
      · have heven := hbefore.even law hlaw
        have htally := Launch.tally_of_balanced hbalanced hstart hgoing hover law hlaw
        rw [hworld] at htally
        rw [htally, heven, Tally.after, Int.natCast_add, Int.natCast_add, Int.mul_add, Int.mul_add]
        omega
      · exact Launch.covered_of_balanced hbalanced (hworld ▸ hbefore.covered)
  | @reset s tally hsession ih =>
      have hbefore := ih hbumps
      have hsize : s.resetStats.dequeCount = s.dequeCount := Array.size_map
      refine Scheduler.stands_of_zero ⟨hbefore.idle.running, hbefore.idle.finished, ?_⟩
        hbefore.workers (hsize ▸ hbefore.word) ?_
      · intro place hplace
        obtain ⟨old, hold, rfl⟩ := Array.mem_map.mp hplace
        exact hbefore.idle.clean old hold
      · intro place hplace
        obtain ⟨old, hold, rfl⟩ := Array.mem_map.mp hplace
        rfl

/-- The statistics are conserved: between two runs, and at all times in a run no more was stolen
than was tried, and a run that comes back leaves the statistics of whole runs. -/
theorem conserves_statistics
    (h : Session capacity s tally)
    (hbumps : tally.bumps < UInt64.size) :
    (∃ stats, s.stats = .ok stats ∧ stats.steals.toNat ≤ stats.stealAttempts.toNat ∧
      stats.Conserved tally.runs tally.forks) ∧
    ∀ l : Launch, l.Fit → l.world.scheduler = s → ∀ schedule : List Nat,
      (tally.after l schedule).bumps < UInt64.size →
      ∃ stats, (l.system.run schedule).world.scheduler.stats = .ok stats ∧
        stats.steals.toNat ≤ stats.stealAttempts.toNat ∧
        ((l.system.run schedule).aborted = none → (l.system.run schedule).isRunning = false →
          stats.Conserved (tally.after l schedule).runs (tally.after l schedule).forks) := by
  have hstands := h.stands hbumps
  refine ⟨?_, fun l hfit hworld schedule hafter => ?_⟩
  · obtain ⟨stats, hstats, htotal⟩ := Scheduler.exists_stats hstands.bounded hbumps
    refine ⟨stats, hstats, Stats.steals_le_of_tally ?_, Stats.conserved_of_tally ?_⟩
    · rw [htotal]
      exact hstands.covered
    · rw [htotal]
      exact hstands.even
  · have hbalanced := balanced hstands hfit hworld schedule hafter
    obtain ⟨stats, hstats, htotal⟩ := Scheduler.exists_stats hbalanced.audit.bounded hafter
    refine ⟨stats, hstats, Stats.steals_le_of_tally ?_, fun hgoing hover => ?_⟩
    · rw [htotal]
      exact Launch.covered_of_balanced hbalanced (hworld ▸ hstands.covered)
    · have hback : Session capacity _ (tally.after l schedule) :=
        h.called l hfit hworld schedule hgoing hover
      refine Stats.conserved_of_tally ?_
      rw [htotal]
      exact (hback.stands hafter).even

/-- Two workers with a deque each. -/
def pairConfig : Config :=
  { maxWorkers := some 2, dequesPerWorker := 1, dequeCapacity := 4, stealRoundsPerDeque := 1 }

/-- The sample, on a scheduler that was just built. -/
def first : Launch :=
  { Launch.sample with
    world :=
      { scheduler :=
          { config := pairConfig, maxWorkers := 2, stealTrials := 2, idleSleep := .ofParts 0 1000
            places := Array.replicate 2
              { deque :=
                  { capacity := 4
                    capacity_pos := Nat.zero_lt_succ 3
                    capacity_le := Nat.le_of_ble_eq_true rfl } } }
        cells := #[0, 0, 0] } }

/-- The same code once more, on what the first run has left. -/
def second : Launch :=
  first.again Launch.sampleSchedule

/-- In both runs the second worker steals the right branch. -/
theorem second_conserves_statistics :
    Session 4 second.world.scheduler (Tally.after {} first Launch.sampleSchedule) ∧ second.Fit ∧
      ∃ stats, (second.system.run Launch.sampleSchedule).world.scheduler.stats = .ok stats ∧
        stats.steals.toNat ≤ stats.stealAttempts.toNat ∧ stats.Conserved 2 2 := by
  have hbuild : Scheduler.build pairConfig 1 = .ok first.world.scheduler := rfl
  have hbuilt : Session 4 first.world.scheduler {} := .built hbuild rfl
  have hfirst : first.Fit := ⟨by decide, rfl, rfl, rfl⟩
  have hsecond : second.Fit := ⟨by decide, by decide +kernel, by decide +kernel, by decide +kernel⟩
  have hsession : Session 4 second.world.scheduler
      (Tally.after {} first Launch.sampleSchedule) := by
    rw [second, Launch.again_world]
    exact hbuilt.called first hfirst rfl _ (by decide +kernel) (by decide +kernel)
  obtain ⟨-, hall⟩ := conserves_statistics hsession (by decide +kernel)
  obtain ⟨stats, hstats, hsteals, hconserved⟩ :=
    hall second hsecond rfl Launch.sampleSchedule (by decide +kernel)
  have hboth := hconserved (by decide +kernel) (by decide +kernel)
  have hruns : (Tally.after (Tally.after {} first Launch.sampleSchedule) second
      Launch.sampleSchedule).runs = 2 := by decide +kernel
  have hforks : (Tally.after (Tally.after {} first Launch.sampleSchedule) second
      Launch.sampleSchedule).forks = 2 := by decide +kernel
  rw [hruns, hforks] at hboth
  exact ⟨hsession, hsecond, stats, hstats, hsteals, hboth⟩

end Session

end WorkStealing
