import WorkStealing.Scheduler

/-!
# One place of a scheduler

An operation of a scheduler reads one place and writes it back. So what it leads to is
the scheduler with another place at that number (`Scheduler.put`), and what it answers
depends on the place alone.
-/

namespace WorkStealing
namespace Scheduler

variable {s t : Scheduler} {i j : Nat} {place other : Place}

def put (s : Scheduler) (i : Nat) (place : Place) : Scheduler :=
  { s with places := s.places.setIfInBounds i place }

/-- A place that is written back is as it was. -/
theorem set_place_self
    (hplace : s.places[i]? = some place) :
    s.places.setIfInBounds i place = s.places := by
  obtain ⟨hlt, rfl⟩ := Array.getElem?_eq_some_iff.mp hplace
  rw [Array.setIfInBounds, dif_pos hlt]
  exact Array.set_getElem_self hlt

theorem put_self
    (hplace : s.places[i]? = some place) :
    s.put i place = s := by
  rw [put, set_place_self hplace]

@[simp] theorem put_put
    (s : Scheduler) (i : Nat) (place other : Place) :
    (s.put i place).put i other = s.put i other := by
  simp only [put, Array.setIfInBounds_setIfInBounds]

theorem put_comm
    (h : i ≠ j)
    (s : Scheduler) (place other : Place) :
    (s.put i place).put j other = (s.put j other).put i place := by
  simp only [put, Array.setIfInBounds_comm place other h]

theorem place_put_self
    (hplace : s.places[i]? = some place)
    (other : Place) :
    (s.put i other).places[i]? = some other :=
  Array.getElem?_setIfInBounds_self_of_lt (Array.getElem?_eq_some_iff.mp hplace).1

theorem place_put_ne
    (h : j ≠ i)
    (s : Scheduler) (place : Place) :
    (s.put i place).places[j]? = s.places[j]? :=
  Array.getElem?_setIfInBounds_ne h.symm

@[simp] theorem dequeCount_put
    (s : Scheduler) (i : Nat) (place : Place) :
    (s.put i place).dequeCount = s.dequeCount :=
  Array.size_setIfInBounds

/-- Whoever has a deque is a worker. -/
theorem workerOf_of_lt
    (hi : i < s.dequeCount) :
    s.workerOf (some i) = some i :=
  Option.filter_some_pos (decide_eq_true hi)

@[simp] theorem victim_put
    (s : Scheduler) (i : Nat) (place : Place) (worker : Nat) (attempt : UInt64) :
    (s.put i place).victim worker attempt = s.victim worker attempt := by
  rw [victim, victim, dequeCount_put]

/-- A change at a place that succeeds has changed that place. -/
theorem exists_of_atPlace
    {β : Type} {change : Place → Except Failure (Place × β)} {answer : β}
    (h : s.atPlace i change = .ok (t, answer)) :
    ∃ place next, s.places[i]? = some place ∧ change place = .ok (next, answer) ∧
      t = s.put i next := by
  rw [atPlace] at h
  cases hplace : s.places[i]? with
  | none =>
      rw [hplace] at h
      cases h
  | some place =>
      simp only [hplace] at h
      cases hchange : change place with
      | error cause =>
          rw [hchange] at h
          cases h
      | ok changed =>
          rw [hchange] at h
          cases h
          exact ⟨place, changed.1, rfl, hchange, rfl⟩

/-- An operation of a deque that succeeds has changed the deque at its place. -/
theorem exists_of_onDeque
    {β : Type} {operation : Deque JobId → Deque JobId × Except Failure β} {answer : β}
    (h : s.onDeque i operation = .ok (t, answer)) :
    ∃ place deque, s.places[i]? = some place ∧ operation place.deque = (deque, .ok answer) ∧
      t = s.put i { place with deque } := by
  obtain ⟨place, next, hplace, hchange, ht⟩ := exists_of_atPlace h
  cases hdeque : operation place.deque with
  | mk deque outcome =>
      simp only [hdeque] at hchange
      cases outcome with
      | error cause =>
          cases hchange
      | ok result =>
          cases hchange
          exact ⟨place, deque, hplace, hdeque, ht⟩

/-- A reset that succeeds has changed the deque at its place. -/
theorem exists_of_resetDeque
    (h : s.resetDeque i = .ok (t, ())) :
    ∃ place deque, s.places[i]? = some place ∧ place.deque.reset = .ok deque ∧
      t = s.put i { place with deque } := by
  obtain ⟨place, next, hplace, hchange, ht⟩ := exists_of_atPlace h
  cases hreset : place.deque.reset with
  | error cause =>
      rw [hreset] at hchange
      cases hchange
  | ok deque =>
      rw [hreset] at hchange
      cases hchange
      exact ⟨place, deque, hplace, hreset, ht⟩

/-- An operation of a deque is made at its place. -/
theorem onDeque_of_ok
    {β : Type} {operation : Deque JobId → Deque JobId × Except Failure β} {answer : β}
    {d : Deque JobId}
    (hplace : s.places[i]? = some place)
    (hoperation : operation place.deque = (d, .ok answer)) :
    s.onDeque i operation = .ok (s.put i { place with deque := d }, answer) := by
  rw [onDeque, atPlace, hplace]
  simp only [hoperation, put]

/-- An operation of a deque fails as it does at its place. -/
theorem onDeque_of_error
    {β : Type} {operation : Deque JobId → Deque JobId × Except Failure β} {cause : Failure}
    (hplace : s.places[i]? = some place)
    (hoperation : (operation place.deque).2 = .error cause) :
    s.onDeque i operation = .error cause := by
  obtain ⟨d, hd⟩ : ∃ d, operation place.deque = (d, .error cause) :=
    ⟨_, Prod.ext rfl hoperation⟩
  rw [onDeque, atPlace, hplace]
  simp only [hd]

theorem resetDeque_of_ok
    {d : Deque JobId}
    (hplace : s.places[i]? = some place)
    (hreset : place.deque.reset = .ok d) :
    s.resetDeque i = .ok (s.put i { place with deque := d }, ()) := by
  rw [resetDeque, atPlace, hplace]
  simp only [hreset]
  rfl

theorem resetDeque_of_error
    {cause : Failure}
    (hplace : s.places[i]? = some place)
    (hreset : place.deque.reset = .error cause) :
    s.resetDeque i = .error cause := by
  rw [resetDeque, atPlace, hplace]
  simp only [hreset]
  rfl

theorem bump_of_place
    (hplace : s.places[i]? = some place)
    (counter : Counter) :
    s.bump i counter = .ok (s.put i { place with stats := place.stats.bump counter }, ()) := by
  rw [bump, atPlace, hplace, put]

theorem loadAttempt_of_place
    (hplace : s.places[i]? = some place) :
    s.loadAttempt i = .ok (s, place.attempts) := by
  rw [loadAttempt, atPlace, hplace]
  simp only [set_place_self hplace]

theorem storeAttempt_of_place
    (hplace : s.places[i]? = some place)
    (attempt : UInt64) :
    s.storeAttempt i attempt = .ok (s.put i { place with attempts := attempt }, ()) := by
  rw [storeAttempt, atPlace, hplace, put]

end Scheduler
end WorkStealing
