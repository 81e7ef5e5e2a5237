import WorkStealing.Proofs.ForkJoin.Launch

/-!
# New schedulers

A scheduler is built from a configuration that was checked, so that it has a worker,
a deque, and an attempt in each round. No run is in progress on it, its deques are
empty, and nothing was counted yet.
-/

namespace WorkStealing

/-- The second of two steps is made when the first one has succeeded. -/
theorem exists_of_bind
    {ε α β : Type} {first : Except ε α} {next : α → Except ε β} {answer : β}
    (h : first >>= next = .ok answer) :
    ∃ a, first = .ok a ∧ next a = .ok answer := by
  cases first with
  | error cause =>
      cases h
  | ok a =>
      exact ⟨a, rfl, h⟩

/-- What has succeeded has succeeded also where errors are reported in another way. -/
theorem eq_of_mapError
    {ε δ α : Type} {report : ε → δ} {attempt : Except ε α} {a : α}
    (h : attempt.mapError report = .ok a) :
    attempt = .ok a := by
  cases attempt with
  | error cause =>
      cases h
  | ok b =>
      cases h
      rfl

/-- A new deque is empty and starts with its first slot. -/
theorem Deque.clean_of_ofCapacity
    {α : Type} {capacity : UInt64} {d : Deque α}
    (h : ofCapacity capacity = .ok d) :
    d.capacity = capacity.toNat ∧ d.bottom = 0 ∧ d.age.top = 0 := by
  unfold ofCapacity at h
  split at h
  · cases h
    exact ⟨rfl, rfl, rfl⟩
  · cases h

namespace Config

/-- There is always a worker. -/
theorem workersOn_ne_zero
    (config : Config) (offered : UInt64) :
    config.workersOn offered ≠ 0 := by
  unfold workersOn
  by_cases hzero : config.maxWorkers.getD offered = 0
  · rw [if_pos hzero]
    decide
  · rw [if_neg hzero]
    exact hzero

/-- What a configuration that passes the check has more than none of. -/
theorem ne_zero_of_validate
    {config : Config}
    (h : config.validate = .ok ()) :
    config.dequesPerWorker ≠ 0 ∧ config.stealRoundsPerDeque ≠ 0 := by
  have hnone : config.fault? = none := by
    unfold validate at h
    cases hfault : config.fault? with
    | none =>
        rfl
    | some fault =>
        rw [hfault] at h
        cases h
  unfold fault? at hnone
  constructor
  · intro hzero
    rw [if_pos hzero] at hnone
    split at hnone <;> cases hnone
  · intro hzero
    rw [if_pos hzero] at hnone
    split at hnone
    · cases hnone
    · split at hnone
      · cases hnone
      · split at hnone <;> cases hnone

end Config

namespace Scheduler

theorem times?_eq_ok
    {a b c : UInt64}
    (h : times? a b = .ok c) :
    c.toNat = a.toNat * b.toNat := by
  unfold times? at h
  by_cases hfits : a.toNat * b.toNat < UInt64.size
  · rw [if_pos hfits] at h
    cases h
    rw [UInt64.toNat_mul]
    exact Nat.mod_eq_of_lt hfits
  · rw [if_neg hfits] at h
    cases h

/-- A product of numbers that are not zero is not zero, if it does not leave its word. -/
theorem times?_pos
    {a b c : UInt64}
    (h : times? a b = .ok c)
    (ha : a ≠ 0)
    (hb : b ≠ 0) :
    0 < c.toNat := by
  rw [times?_eq_ok h]
  refine Nat.mul_pos (Nat.pos_of_ne_zero fun hzero => ha ?_)
    (Nat.pos_of_ne_zero fun hzero => hb ?_)
  · exact UInt64.toNat_inj.mp hzero
  · exact UInt64.toNat_inj.mp hzero

/-- A scheduler that was just built. -/
structure IsNew (s : Scheduler) (capacity : Nat) : Prop where
  idle : s.IsIdle capacity
  deques : 0 < s.dequeCount
  word : s.dequeCount < UInt64.size
  workers : 0 < s.maxWorkers
  trials : 0 < s.stealTrials
  stats : ∀ place ∈ s.places, place.stats = {}

theorem isNew_of_build
    {config : Config} {offered : UInt64} {s : Scheduler}
    (h : build config offered = .ok s) :
    s.IsNew config.dequeCapacity.toNat := by
  obtain ⟨_, hvalid, h⟩ := exists_of_bind h
  obtain ⟨hper, hrounds⟩ := Config.ne_zero_of_validate (eq_of_mapError hvalid)
  obtain ⟨count, hcount, h⟩ := exists_of_bind h
  obtain ⟨deque, hdeque, h⟩ := exists_of_bind h
  obtain ⟨trials, htrials, h⟩ := exists_of_bind h
  have hworkers := config.workersOn_ne_zero offered
  have hpos : 0 < count.toNat := times?_pos hcount hworkers hper
  have hclean := Deque.clean_of_ofCapacity (eq_of_mapError hdeque)
  split at h
  · cases h
  · cases h
    refine ⟨⟨rfl, rfl, fun place hplace => ?_⟩, ?_, ?_, ?_, ?_, fun place hplace => ?_⟩
    · rw [(Array.mem_replicate.mp hplace).2]
      exact hclean
    · rw [dequeCount, Array.size_replicate]
      exact hpos
    · rw [dequeCount, Array.size_replicate]
      exact count.toNat_lt
    · exact Nat.pos_of_ne_zero fun hzero => hworkers (UInt64.toNat_inj.mp hzero)
    · refine times?_pos htrials hrounds fun hzero => ?_
      rw [hzero] at hpos
      exact absurd hpos (Nat.lt_irrefl 0)
    · rw [(Array.mem_replicate.mp hplace).2]

end Scheduler
end WorkStealing
