import Mathlib.Algebra.GroupWithZero.Nat
import WorkStealing.Proofs.Scheduler.Places

/-!
# Sums of statistics

A sum of statistics is what it says it is, counter by counter (`Stats.sum_of_fits`);
it fails for one reason only: a counter leaves its word.
-/

namespace WorkStealing

namespace Stats

theorem addCounters_error
    {total part : Stats} {counters : List Counter} {cause : Panic}
    (h : (addCounters total part counters).2 = .error cause) :
    cause = .addOverflow := by
  induction counters generalizing total with
  | nil =>
      cases h
  | cons counter rest ih =>
      rw [addCounters] at h
      by_cases hword : (total.get counter).toNat + (part.get counter).toNat < UInt64.size
      · simp only [if_pos hword] at h
        exact ih h
      · simp only [if_neg hword] at h
        exact (Except.error.inj h).symm

/-- Parts are added one after another to what is there. -/
def sumFrom (before : Stats) (parts : List Stats) : Except Panic Stats :=
  parts.foldlM
    (fun total part =>
      match total.add part with
      | (total, .ok ()) => .ok total
      | (_, .error panic) => .error panic)
    before

theorem sumFrom_of_ok
    {before after part : Stats}
    (h : before.add part = (after, .ok ()))
    (parts : List Stats) :
    sumFrom before (part :: parts) = sumFrom after parts := by
  rw [sumFrom, List.foldlM_cons, h]
  rfl

theorem sumFrom_of_error
    {before after part : Stats} {panic : Panic}
    (h : before.add part = (after, .error panic))
    (parts : List Stats) :
    sumFrom before (part :: parts) = .error panic := by
  rw [sumFrom, List.foldlM_cons, h]
  rfl

theorem sumFrom_error
    {before : Stats} {parts : List Stats} {cause : Panic}
    (h : sumFrom before parts = .error cause) :
    cause = .addOverflow := by
  induction parts generalizing before with
  | nil =>
      cases h
  | cons part rest ih =>
      cases hadd : before.add part with
      | mk after outcome =>
          cases outcome with
          | ok _ =>
              exact ih (sumFrom_of_ok hadd rest ▸ h)
          | error panic =>
              cases (sumFrom_of_error hadd rest).symm.trans h
              exact addCounters_error (congrArg Prod.snd hadd)

theorem sum_error
    {parts : List Stats} {cause : Panic}
    (h : sum parts = .error cause) :
    cause = .addOverflow :=
  sumFrom_error h

def total (parts : List Stats) (counter : Counter) : Nat :=
  (parts.map fun part => (part.get counter).toNat).sum

@[simp] theorem total_nil
    (counter : Counter) :
    total [] counter = 0 := by
  rfl

@[simp] theorem total_cons
    (part : Stats) (parts : List Stats) (counter : Counter) :
    total (part :: parts) counter = (part.get counter).toNat + total parts counter := by
  rw [total, total, List.map_cons, List.sum_cons]

/-- Counters are added one after another, and each of them once. -/
theorem addCounters_of_fits
    {before part : Stats} {counters : List Counter}
    (hnodup : counters.Nodup)
    (hfits : ∀ counter ∈ counters,
      (before.get counter).toNat + (part.get counter).toNat < UInt64.size) :
    ∃ after, addCounters before part counters = (after, .ok ()) ∧ ∀ counter,
      (after.get counter).toNat = (before.get counter).toNat +
        if counter ∈ counters then (part.get counter).toNat else 0 := by
  induction counters generalizing before with
  | nil =>
      exact ⟨before, rfl, fun counter => (Nat.add_zero _).symm⟩
  | cons counter rest ih =>
      obtain ⟨hnew, hrest⟩ := List.nodup_cons.mp hnodup
      have hword := hfits counter List.mem_cons_self
      rw [addCounters]
      simp only [if_pos hword]
      have hothers : ∀ other ∈ rest,
          ((before.set counter (.ofNat ((before.get counter).toNat +
            (part.get counter).toNat))).get other).toNat + (part.get other).toNat <
              UInt64.size := by
        intro other hother
        rw [get_set, if_neg fun heq : other = counter => hnew (heq ▸ hother)]
        exact hfits other (List.mem_cons_of_mem _ hother)
      obtain ⟨after, hafter, hget⟩ := ih hrest hothers
      refine ⟨after, hafter, fun other => ?_⟩
      rw [hget other, get_set]
      by_cases heq : other = counter
      · subst heq
        rw [if_pos rfl, if_neg hnew, if_pos List.mem_cons_self, Nat.add_zero,
          UInt64.toNat_ofNat_of_lt' hword]
      · have hmem : (other ∈ counter :: rest) = (other ∈ rest) := by
          rw [List.mem_cons]
          exact propext (or_iff_right heq)
        simp only [if_neg heq, hmem]

theorem mem_all
    (counter : Counter) :
    counter ∈ Counter.all := by
  cases counter <;> decide

theorem add_of_fits
    (before part : Stats)
    (hfits : ∀ counter, (before.get counter).toNat + (part.get counter).toNat < UInt64.size) :
    ∃ after, before.add part = (after, .ok ()) ∧ ∀ counter,
      (after.get counter).toNat = (before.get counter).toNat + (part.get counter).toNat := by
  have hnodup : Counter.all.Nodup := by decide
  obtain ⟨after, hafter, hget⟩ := addCounters_of_fits hnodup fun counter _ => hfits counter
  refine ⟨after, hafter, fun counter => ?_⟩
  rw [hget, if_pos (mem_all counter)]

theorem sumFrom_of_fits
    (before : Stats) {parts : List Stats}
    (hfits : ∀ counter, (before.get counter).toNat + total parts counter < UInt64.size) :
    ∃ stats, sumFrom before parts = .ok stats ∧ ∀ counter,
      (stats.get counter).toNat = (before.get counter).toNat + total parts counter := by
  induction parts generalizing before with
  | nil =>
      exact ⟨before, rfl, fun counter => rfl⟩
  | cons part rest ih =>
      simp only [total_cons] at hfits
      obtain ⟨after, hafter, hget⟩ := add_of_fits before part
        fun counter => Nat.lt_of_le_of_lt (by omega) (hfits counter)
      obtain ⟨stats, hstats, htotal⟩ := ih after fun counter => by
        rw [hget, Nat.add_assoc]
        exact hfits counter
      refine ⟨stats, (sumFrom_of_ok hafter rest).trans hstats, fun counter => ?_⟩
      rw [htotal, hget, total_cons, Nat.add_assoc]

theorem get_empty
    (counter : Counter) :
    (({} : Stats).get counter).toNat = 0 := by
  cases counter <;> rfl

/-- Where no counter leaves its word, the sum of statistics is the sum of each counter. -/
theorem sum_of_fits
    {parts : List Stats}
    (hfits : ∀ counter, total parts counter < UInt64.size) :
    ∃ stats, sum parts = .ok stats ∧
      ∀ counter, (stats.get counter).toNat = total parts counter := by
  obtain ⟨stats, hstats, hget⟩ := sumFrom_of_fits {} fun counter => by
    rw [get_empty, Nat.zero_add]
    exact hfits counter
  refine ⟨stats, hstats, fun counter => ?_⟩
  rw [hget, get_empty, Nat.zero_add]

/-- Counters that were added have fitted. -/
theorem fits_of_addCounters
    {before after part : Stats} {counters : List Counter}
    (hnodup : counters.Nodup)
    (h : addCounters before part counters = (after, .ok ())) :
    ∀ counter ∈ counters, (before.get counter).toNat + (part.get counter).toNat < UInt64.size := by
  induction counters generalizing before with
  | nil =>
      exact fun counter hmem => absurd hmem List.not_mem_nil
  | cons counter rest ih =>
      obtain ⟨hnew, hrest⟩ := List.nodup_cons.mp hnodup
      rw [addCounters] at h
      by_cases hword : (before.get counter).toNat + (part.get counter).toNat < UInt64.size
      · simp only [if_pos hword] at h
        intro other hother
        rcases List.mem_cons.mp hother with rfl | hmem
        · exact hword
        · have hfits := ih hrest h other hmem
          rw [get_set, if_neg fun heq : other = counter => hnew (heq ▸ hmem)] at hfits
          exact hfits
      · simp only [if_neg hword] at h
        cases h

theorem get_of_add
    {before after part : Stats}
    (h : before.add part = (after, .ok ()))
    (counter : Counter) :
    (after.get counter).toNat = (before.get counter).toNat + (part.get counter).toNat := by
  have hnodup : Counter.all.Nodup := by decide
  obtain ⟨other, hother, hget⟩ := add_of_fits before part fun counter =>
    fits_of_addCounters hnodup h counter (mem_all counter)
  rw [h] at hother
  cases hother
  exact hget counter

theorem get_of_sumFrom
    {before stats : Stats} {parts : List Stats}
    (h : sumFrom before parts = .ok stats)
    (counter : Counter) :
    (stats.get counter).toNat = (before.get counter).toNat + total parts counter := by
  induction parts generalizing before with
  | nil =>
      cases h
      rfl
  | cons part rest ih =>
      cases hadd : before.add part with
      | mk after outcome =>
          cases outcome with
          | ok _ =>
              rw [ih (sumFrom_of_ok hadd rest ▸ h), get_of_add hadd, total_cons, Nat.add_assoc]
          | error panic =>
              cases (sumFrom_of_error hadd rest).symm.trans h

/-- A sum of statistics that could be made is the sum of each counter. -/
theorem get_of_sum
    {parts : List Stats} {stats : Stats}
    (h : sum parts = .ok stats)
    (counter : Counter) :
    (stats.get counter).toNat = total parts counter := by
  rw [get_of_sumFrom h, get_empty, Nat.zero_add]

/-- One of the parts is replaced. -/
theorem total_set
    {parts : List Stats} {i : Nat} {part : Stats}
    (hpart : parts[i]? = some part)
    (other : Stats) (counter : Counter) :
    total (parts.set i other) counter + (part.get counter).toNat =
      total parts counter + (other.get counter).toNat := by
  induction parts generalizing i with
  | nil =>
      cases hpart
  | cons first rest ih =>
      cases i with
      | zero =>
          cases hpart
          rw [List.set_cons_zero, total_cons, total_cons]
          omega
      | succ i =>
          have hrest := ih hpart
          rw [List.set_cons_succ, total_cons, total_cons]
          omega

/-- The counters after some things were counted. -/
def bumps (stats : Stats) (counted : List Counter) : Stats :=
  counted.foldl bump stats

theorem get_bumps
    (stats : Stats) (counted : List Counter) (counter : Counter) :
    (stats.bumps counted).get counter =
      stats.get counter + .ofNat (counted.count counter) := by
  induction counted generalizing stats with
  | nil =>
      exact (UInt64.add_zero _).symm
  | cons one rest ih =>
      have hfold : stats.bumps (one :: rest) = (stats.bump one).bumps rest := rfl
      rw [hfold, ih, bump, get_set]
      by_cases heq : counter = one
      · subst heq
        rw [if_pos rfl, List.count_cons_self, UInt64.ofNat_add, UInt64.add_assoc,
          UInt64.add_comm 1]
        rfl
      · rw [if_neg heq, List.count_cons_of_ne (Ne.symm heq)]

end Stats

namespace Scheduler

/-- The statistics of all places can be summed unless a counter overflows. -/
theorem stats_error
    {s : Scheduler} {cause : Panic}
    (h : s.stats = .error cause) :
    cause = .addOverflow :=
  Stats.sum_error h

def total (s : Scheduler) (counter : Counter) : Nat :=
  Stats.total (s.places.toList.map Place.stats) counter

/-- The statistics of one place are replaced. -/
theorem total_put
    {s : Scheduler} {i : Nat} {place : Place}
    (hplace : s.places[i]? = some place)
    (other : Place) (counter : Counter) :
    (s.put i other).total counter + (place.stats.get counter).toNat =
      s.total counter + (other.stats.get counter).toNat := by
  have hpart : (s.places.toList.map Place.stats)[i]? = some place.stats := by
    rw [List.getElem?_map, Array.getElem?_toList, hplace]
    rfl
  rw [total, total, ← Stats.total_set hpart]
  simp only [put, Array.toList_setIfInBounds, List.map_set]

/-- What one worker has counted is part of it. -/
theorem le_total
    {s : Scheduler} {i : Nat} {place : Place}
    (hplace : s.places[i]? = some place)
    (counter : Counter) :
    (place.stats.get counter).toNat ≤ s.total counter := by
  have hput := total_put hplace { deque := place.deque } counter
  have hzero : ((({ deque := place.deque } : Place).stats).get counter).toNat = 0 := by
    cases counter <;> rfl
  omega

/-- Statistics that could be summed are what the workers have counted. -/
theorem get_of_stats
    {s : Scheduler} {stats : Stats}
    (h : s.stats = .ok stats)
    (counter : Counter) :
    (stats.get counter).toNat = s.total counter :=
  Stats.get_of_sum h counter

/-- Where no counter leaves its word, the statistics are what the workers have counted. -/
theorem stats_of_fits
    {s : Scheduler}
    (hfits : ∀ counter, s.total counter < UInt64.size) :
    ∃ stats, s.stats = .ok stats ∧ ∀ counter, (stats.get counter).toNat = s.total counter :=
  Stats.sum_of_fits hfits

end Scheduler
end WorkStealing
