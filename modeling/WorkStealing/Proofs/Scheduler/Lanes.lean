import Mathlib.Logic.Function.Basic
import WorkStealing.Proofs.Deque.Sequential
import WorkStealing.Proofs.Scheduler.Places

/-!
# Lanes

Seen from the scheduler, each operation of a deque is one step, and a deque is
no more than a list of jobs that starts at some slot: a *lane*. This module
says what the operations of a scheduler do to its lanes. Beside the lanes they
change nothing but statistics and the numbers of steal attempts.
-/

namespace WorkStealing

/-- The jobs of a deque, the oldest first, and the index of the slot of the oldest. -/
structure Lane where
  /-- The index of the slot at the top. -/
  first : Nat := 0
  /-- The jobs, the oldest first. -/
  jobs : List JobId := []

namespace Lane

/-- The number of slots up to the newest job, the unused ones at the front included. -/
def bottom (lane : Lane) : Nat := lane.first + lane.jobs.length

def push (lane : Lane) (job : JobId) : Lane :=
  { lane with jobs := lane.jobs ++ [job] }

/-- The newest job is taken; a lane without jobs starts again at the first slot. -/
def pop (lane : Lane) : Lane :=
  { first := if lane.jobs.dropLast = [] then 0 else lane.first, jobs := lane.jobs.dropLast }

/-- The oldest job is taken, and its slot is not used any more. -/
def steal (lane : Lane) : Lane :=
  match lane.jobs with
  | [] => lane
  | _ :: rest => { first := lane.first + 1, jobs := rest }

@[simp] theorem jobs_push
    (lane : Lane) (job : JobId) :
    (lane.push job).jobs = lane.jobs ++ [job] := by
  rfl

@[simp] theorem jobs_pop
    (lane : Lane) :
    lane.pop.jobs = lane.jobs.dropLast := by
  rfl

@[simp] theorem jobs_steal
    (lane : Lane) :
    lane.steal.jobs = lane.jobs.tail := by
  obtain ⟨first, jobs⟩ := lane
  cases jobs with
  | nil =>
      rfl
  | cons job rest =>
      rfl

end Lane

namespace Deque

/-- The deque holds the jobs of the lane, from the slot on where the lane starts. -/
structure Follows (d : Deque JobId) (lane : Lane) : Prop where
  holds : d.Holds lane.jobs
  top_eq : d.age.top.toNat = lane.first

namespace Follows

variable {d : Deque JobId} {lane : Lane}

theorem bottom_eq
    (h : d.Follows lane) :
    d.bottom.toNat = lane.bottom := by
  rw [h.holds.bottom_eq, h.top_eq]
  rfl

theorem push_of_lt
    (h : d.Follows lane)
    (hroom : lane.bottom < d.capacity)
    (job : JobId) :
    ∃ e, d.push job = (e, .ok (.ok ())) ∧ e.Follows (lane.push job) ∧
      e.capacity = d.capacity ∧ e.age = d.age := by
  rw [← h.bottom_eq] at hroom
  obtain ⟨e, hpush, hholds, hcapacity, hage⟩ := h.holds.push_of_lt hroom job
  refine ⟨e, hpush, ⟨hholds, ?_⟩, hcapacity, hage⟩
  rw [hage]
  exact h.top_eq

theorem pop
    (h : d.Follows lane) :
    (∃ e, d.pop = (e, .ok lane.jobs.getLast?) ∧ e.Follows lane.pop ∧
        e.capacity = d.capacity) ∨
      lane.bottom ≠ 0 ∧ d.age.restarted? = none ∧ d.pop.2 = .error (.error .tagExhausted) := by
  have hused : d.bottom ≠ 0 → lane.bottom ≠ 0 := by
    rw [← h.bottom_eq]
    exact fun hne hzero => hne (UInt32.toNat_inj.mp hzero)
  have hholds := h.holds
  rcases List.eq_nil_or_concat lane.jobs with hnil | ⟨rest, job, hjobs⟩
  · rw [hnil] at hholds ⊢
    rcases hholds.pop_nil with ⟨e, hpop, hleft, hcapacity, htop⟩ | hfail
    · refine Or.inl ⟨e, hpop, ⟨?_, ?_⟩, hcapacity⟩
      · rw [Lane.jobs_pop, hnil]
        exact hleft
      · rw [htop, Lane.pop, hnil]
        rfl
    · exact Or.inr (hfail.imp_left hused)
  · rw [List.concat_eq_append] at hjobs
    rw [hjobs] at hholds ⊢
    rcases hholds.pop_concat with ⟨e, hpop, hleft, hcapacity, htop⟩ | hfail
    · refine Or.inl ⟨e, ?_, ⟨?_, ?_⟩, hcapacity⟩
      · rw [hpop, List.getLast?_concat]
      · rw [Lane.jobs_pop, hjobs, List.dropLast_concat]
        exact hleft
      · rw [htop, Lane.pop, hjobs, List.dropLast_concat]
        by_cases hrest : rest = []
        · simp only [if_pos hrest]
          rfl
        · simp only [if_neg hrest]
          exact h.top_eq
    · exact Or.inr (hfail.imp_left hused)

theorem steal
    (h : d.Follows lane) :
    ∃ e, d.steal = (e, .ok lane.jobs.head?) ∧ e.Follows lane.steal ∧
      e.capacity = d.capacity := by
  obtain ⟨first, jobs⟩ := lane
  cases jobs with
  | nil =>
      exact ⟨d, h.holds.steal_nil, h, rfl⟩
  | cons job rest =>
      obtain ⟨e, hsteal, hleft, hcapacity, htop⟩ := h.holds.steal_cons
      refine ⟨e, hsteal, ⟨hleft, ?_⟩, hcapacity⟩
      rw [htop, h.top_eq]
      rfl

theorem reset
    (h : d.Follows lane)
    (hjobs : lane.jobs = []) :
    (∃ e, d.reset = .ok e ∧ e.Follows {} ∧ e.capacity = d.capacity) ∨
      d.reset = .error (.error .tagExhausted) := by
  have hholds := h.holds
  rw [hjobs] at hholds
  rcases hholds.reset_nil with ⟨e, hreset, hleft, hcapacity, -, htop⟩ | hfail
  · refine Or.inl ⟨e, hreset, ⟨hleft, ?_⟩, hcapacity⟩
    rw [htop]
    rfl
  · exact Or.inr hfail

end Follows
end Deque

namespace Scheduler

def Follows (s : Scheduler) (capacity : Nat) (lanes : Nat → Lane) : Prop :=
  ∀ (i : Nat) (place : Place), s.places[i]? = some place →
    place.deque.Follows (lanes i) ∧ place.deque.capacity = capacity

/-- The second scheduler is the first one, except for what is at its places. -/
structure Keeps (s t : Scheduler) : Prop where
  eq : t = { s with places := t.places }
  size : t.places.size = s.places.size

namespace Keeps

variable {s t : Scheduler}

theorem refl
    (s : Scheduler) :
    s.Keeps s :=
  ⟨rfl, rfl⟩

theorem trans
    {u : Scheduler}
    (h : s.Keeps t)
    (hnext : t.Keeps u) :
    s.Keeps u := by
  refine ⟨?_, hnext.size.trans h.size⟩
  rw [hnext.eq, h.eq]

theorem put
    (s : Scheduler) (i : Nat) (place : Place) :
    s.Keeps (s.put i place) :=
  ⟨rfl, Array.size_setIfInBounds⟩

theorem dequeCount
    (h : s.Keeps t) :
    t.dequeCount = s.dequeCount :=
  h.size

theorem finished
    (h : s.Keeps t) :
    t.finished = s.finished := by
  rw [h.eq]

theorem stealTrials
    (h : s.Keeps t) :
    t.stealTrials = s.stealTrials := by
  rw [h.eq]

theorem workerOf
    (h : s.Keeps t)
    (identity : Option Nat) :
    t.workerOf identity = s.workerOf identity := by
  rw [Scheduler.workerOf, Scheduler.workerOf, h.dequeCount]

end Keeps

/-- The deque at a place cannot be given another tag. -/
def OutOfTags (s : Scheduler) (i : Nat) : Prop :=
  ∃ place, s.places[i]? = some place ∧ place.deque.age.restarted? = none

variable {s : Scheduler} {capacity : Nat} {lanes : Nat → Lane} {i : Nat}

/-- There is a place for each number below the count. -/
theorem exists_place
    (hi : i < s.dequeCount) :
    ∃ place, s.places[i]? = some place :=
  ⟨s.places[i], Array.getElem?_eq_getElem hi⟩

/-- A deque has a slot. -/
theorem Follows.capacity_pos
    (h : s.Follows capacity lanes)
    (hi : i < s.dequeCount) :
    0 < capacity := by
  obtain ⟨place, hplace⟩ := exists_place hi
  rw [← (h i place hplace).2]
  exact place.deque.capacity_pos

/-- What a place follows after another place was changed, or this one. -/
theorem Follows.put
    (h : s.Follows capacity lanes)
    (i : Nat) (place : Place) {lane : Lane}
    (hplace : place.deque.Follows lane)
    (hcapacity : place.deque.capacity = capacity) :
    (s.put i place).Follows capacity (Function.update lanes i lane) := by
  intro k other hother
  rw [Scheduler.put, Array.getElem?_setIfInBounds] at hother
  by_cases hk : i = k
  · subst hk
    rw [if_pos rfl] at hother
    by_cases hin : i < s.places.size
    · rw [if_pos hin] at hother
      cases hother
      rw [Function.update_self]
      exact ⟨hplace, hcapacity⟩
    · rw [if_neg hin] at hother
      cases hother
  · rw [if_neg hk] at hother
    rw [Function.update_of_ne (Ne.symm hk)]
    exact h k other hother

/-- The lanes of a place that was changed without its deque. -/
theorem Follows.put_same
    (h : s.Follows capacity lanes)
    {place : Place}
    (hplace : s.places[i]? = some place)
    (other : Place)
    (hdeque : other.deque = place.deque) :
    (s.put i other).Follows capacity lanes := by
  obtain ⟨hfollows, hcapacity⟩ := h i place hplace
  rw [← hdeque] at hfollows hcapacity
  have hput := h.put i other hfollows hcapacity
  rw [Function.update_eq_self] at hput
  exact hput

theorem Follows.bump
    (h : s.Follows capacity lanes)
    (hi : i < s.dequeCount)
    (counter : Counter) :
    ∃ t, s.bump i counter = .ok (t, ()) ∧ t.Follows capacity lanes ∧ s.Keeps t := by
  obtain ⟨place, hplace⟩ := exists_place hi
  exact ⟨_, bump_of_place hplace counter, h.put_same hplace _ rfl, .put _ _ _⟩

theorem Follows.loadAttempt
    (h : s.Follows capacity lanes)
    (hi : i < s.dequeCount) :
    ∃ t attempt, s.loadAttempt i = .ok (t, attempt) ∧ t.Follows capacity lanes ∧ s.Keeps t := by
  obtain ⟨place, hplace⟩ := exists_place hi
  exact ⟨s, place.attempts, loadAttempt_of_place hplace, h, .refl s⟩

theorem Follows.storeAttempt
    (h : s.Follows capacity lanes)
    (hi : i < s.dequeCount)
    (attempt : UInt64) :
    ∃ t, s.storeAttempt i attempt = .ok (t, ()) ∧ t.Follows capacity lanes ∧ s.Keeps t := by
  obtain ⟨place, hplace⟩ := exists_place hi
  exact ⟨_, storeAttempt_of_place hplace attempt, h.put_same hplace _ rfl, .put _ _ _⟩

theorem Follows.push_of_lt
    (h : s.Follows capacity lanes)
    (hi : i < s.dequeCount)
    (hroom : (lanes i).bottom < capacity)
    (job : JobId) :
    ∃ t, s.push i job = .ok (t, .ok ()) ∧
      t.Follows capacity (Function.update lanes i ((lanes i).push job)) ∧ s.Keeps t ∧
      (t.OutOfTags i → s.OutOfTags i) := by
  obtain ⟨place, hplace⟩ := exists_place hi
  obtain ⟨hfollows, hcapacity⟩ := h i place hplace
  rw [← hcapacity] at hroom
  obtain ⟨e, hpush, hafter, hsame, hage⟩ := hfollows.push_of_lt hroom job
  refine ⟨_, onDeque_of_ok hplace hpush, h.put i _ hafter (hsame.trans hcapacity),
    .put _ _ _, ?_⟩
  rintro ⟨other, hother, hnone⟩
  cases (place_put_self hplace _).symm.trans hother
  refine ⟨place, hplace, ?_⟩
  rw [← hage]
  exact hnone

theorem Follows.push_of_not_lt
    (h : s.Follows capacity lanes)
    (hi : i < s.dequeCount)
    (hfull : ¬ (lanes i).bottom < capacity)
    (job : JobId) :
    ∃ t, s.push i job = .ok (t, .error (.dequeOverflow capacity)) := by
  obtain ⟨place, hplace⟩ := exists_place hi
  obtain ⟨hfollows, hcapacity⟩ := h i place hplace
  rw [← hfollows.bottom_eq, ← hcapacity] at hfull
  have hpush := Deque.push_of_not_lt hfull job
  rw [hcapacity] at hpush
  exact ⟨_, onDeque_of_ok hplace hpush⟩

theorem Follows.pop
    (h : s.Follows capacity lanes)
    (hi : i < s.dequeCount) :
    (∃ t, s.pop i = .ok (t, (lanes i).jobs.getLast?) ∧
        t.Follows capacity (Function.update lanes i (lanes i).pop) ∧ s.Keeps t) ∨
      (lanes i).bottom ≠ 0 ∧ s.OutOfTags i ∧ s.pop i = .error (.error .tagExhausted) := by
  obtain ⟨place, hplace⟩ := exists_place hi
  obtain ⟨hfollows, hcapacity⟩ := h i place hplace
  rcases hfollows.pop with ⟨e, hpop, hafter, hsame⟩ | ⟨hused, hnone, hfail⟩
  · exact Or.inl ⟨_, onDeque_of_ok hplace hpop, h.put i _ hafter (hsame.trans hcapacity),
      .put _ _ _⟩
  · exact Or.inr ⟨hused, ⟨place, hplace, hnone⟩, onDeque_of_error hplace hfail⟩

theorem Follows.steal
    (h : s.Follows capacity lanes)
    (hi : i < s.dequeCount) :
    ∃ t, s.steal i = .ok (t, (lanes i).jobs.head?) ∧
      t.Follows capacity (Function.update lanes i (lanes i).steal) ∧ s.Keeps t := by
  obtain ⟨place, hplace⟩ := exists_place hi
  obtain ⟨hfollows, hcapacity⟩ := h i place hplace
  obtain ⟨e, hsteal, hafter, hsame⟩ := hfollows.steal
  exact ⟨_, onDeque_of_ok hplace hsteal, h.put i _ hafter (hsame.trans hcapacity), .put _ _ _⟩

theorem Follows.resetDeque
    (h : s.Follows capacity lanes)
    (hi : i < s.dequeCount)
    (hjobs : (lanes i).jobs = []) :
    (∃ t, s.resetDeque i = .ok (t, ()) ∧ t.Follows capacity (Function.update lanes i {}) ∧
        s.Keeps t) ∨
      s.resetDeque i = .error (.error .tagExhausted) := by
  obtain ⟨place, hplace⟩ := exists_place hi
  obtain ⟨hfollows, hcapacity⟩ := h i place hplace
  rcases hfollows.reset hjobs with ⟨e, hreset, hafter, hsame⟩ | hfail
  · exact Or.inl ⟨_, resetDeque_of_ok hplace hreset, h.put i _ hafter (hsame.trans hcapacity),
      .put _ _ _⟩
  · exact Or.inr (resetDeque_of_error hplace hfail)

/-- Where there are places, an attempt is aimed at one of them. -/
theorem exists_victim
    (hpos : 0 < s.dequeCount)
    (hword : s.dequeCount < UInt64.size)
    (worker : Nat) (attempt : UInt64) :
    ∃ target, s.victim worker attempt = .ok target ∧ target < s.dequeCount := by
  have hcount : (UInt64.ofNat s.dequeCount).toNat = s.dequeCount := by
    rw [UInt64.toNat_ofNat']
    exact Nat.mod_eq_of_lt hword
  have hzero : UInt64.ofNat s.dequeCount ≠ 0 := by
    intro heq
    rw [heq] at hcount
    simp only [UInt64.toNat_zero] at hcount
    omega
  rw [victim, Victim.choose, if_neg hzero]
  refine ⟨_, rfl, ?_⟩
  rw [UInt64.toNat_mod, hcount]
  exact Nat.mod_lt _ hpos

/-- So is an attempt of a worker who has changed its own place before. -/
theorem Keeps.exists_victim
    {t : Scheduler}
    (h : s.Keeps t)
    (hi : i < s.dequeCount)
    (hword : s.dequeCount < UInt64.size)
    (worker : Nat) (attempt : UInt64) :
    ∃ target, t.victim worker attempt = .ok target ∧ target < s.dequeCount := by
  rw [← h.dequeCount] at hi hword ⊢
  exact Scheduler.exists_victim (Nat.zero_lt_of_lt hi) hword worker attempt

end Scheduler
end WorkStealing
