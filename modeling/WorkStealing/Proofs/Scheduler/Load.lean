import Mathlib.Algebra.BigOperators.Group.List.Basic
import Mathlib.Algebra.Ring.Int.Defs
import WorkStealing.Proofs.ForkJoin.Launch
import WorkStealing.Proofs.Runs.Upkeep
import WorkStealing.Proofs.Scheduler.Statistics

/-!
# Load and counters

The load of a scheduler is the number of jobs in its deques. An operation at one place
changes it as the lane of that place changes; and it leaves what the workers have
counted as it is, unless it counts something itself.
-/

namespace WorkStealing

/-- A weighted sum over a list of which one entry is replaced. -/
theorem sum_map_set
    {α : Type} {xs : List α} {i : Nat} {x : α}
    (hx : xs[i]? = some x)
    (weight : α → Int) (y : α) :
    ((xs.set i y).map weight).sum = (xs.map weight).sum - weight x + weight y := by
  obtain ⟨hi, hget⟩ := List.getElem?_eq_some_iff.mp hx
  have hlt : i < (xs.map weight).length := by
    rw [List.length_map]
    exact hi
  rw [List.map_set, List.sum_set', dif_pos hlt, List.getElem_map, hget]
  omega

namespace Scheduler

variable {s t : Scheduler} {i : Nat}

def load (s : Scheduler) : Int :=
  (s.places.toList.map fun place => (place.deque.size : Int)).sum

/-- A place is replaced by another one. -/
theorem load_put
    {place : Place}
    (hplace : s.places[i]? = some place)
    (other : Place) :
    (s.put i other).load = s.load - place.deque.size + other.deque.size := by
  rw [← Array.getElem?_toList] at hplace
  rw [load, load, ← sum_map_set hplace (fun place => (place.deque.size : Int)) other]
  simp only [put, Array.toList_setIfInBounds]

/-- An operation at a place changes the load as it changes the lane. -/
theorem load_of_atPlace
    {β : Type} {change : Place → Except Failure (Place × β)} {answer : β} {capacity : Nat}
    {lanes : Nat → Lane} {lane : Lane}
    (h : s.atPlace i change = .ok (t, answer))
    (hs : s.Follows capacity lanes)
    (ht : t.Follows capacity (Function.update lanes i lane)) :
    t.load = s.load - (lanes i).jobs.length + lane.jobs.length := by
  obtain ⟨place, next, hplace, -, rfl⟩ := exists_of_atPlace h
  obtain ⟨hlane, -⟩ := ht i next (place_put_self hplace next)
  rw [Function.update_self] at hlane
  rw [load_put hplace, (hs i place hplace).1.holds.size_eq, hlane.holds.size_eq]

/-- An operation at a place that changes no lane leaves the load as it is. -/
theorem load_of_same
    {β : Type} {change : Place → Except Failure (Place × β)} {answer : β} {capacity : Nat}
    {lanes : Nat → Lane}
    (h : s.atPlace i change = .ok (t, answer))
    (hs : s.Follows capacity lanes)
    (ht : t.Follows capacity lanes) :
    t.load = s.load := by
  rw [← Function.update_eq_self i lanes] at ht
  rw [load_of_atPlace h hs ht]
  omega

/-- The deques of an idle scheduler hold nothing. -/
theorem IsIdle.load_eq
    {capacity : Nat}
    (h : s.IsIdle capacity) :
    s.load = 0 := by
  refine List.sum_eq_zero fun size hsize => ?_
  obtain ⟨place, hplace, rfl⟩ := List.mem_map.mp hsize
  obtain ⟨-, hbottom, htop⟩ := h.clean place (Array.mem_toList_iff.mp hplace)
  rw [Deque.size, hbottom, htop]
  rfl

/-- At one place so much more was counted of something. -/
theorem total_put_add
    {place other : Place} {counter : Counter} {n : Nat}
    (hplace : s.places[i]? = some place)
    (hmore : (other.stats.get counter).toNat = (place.stats.get counter).toNat + n) :
    (s.put i other).total counter = s.total counter + n := by
  have hput := total_put hplace other counter
  omega

/-- An operation at a place that counts nothing. -/
theorem total_of_atPlace
    {β : Type} {change : Place → Except Failure (Place × β)} {answer : β}
    (h : s.atPlace i change = .ok (t, answer))
    (hchange : ∀ place next other, change place = .ok (next, other) → next.stats = place.stats)
    (counter : Counter) :
    t.total counter = s.total counter := by
  obtain ⟨place, next, hplace, hnext, rfl⟩ := exists_of_atPlace h
  refine total_put_add (n := 0) hplace ?_
  rw [hchange place next answer hnext]
  rfl

/-- Deques do not count anything. -/
theorem total_of_onDeque
    {β : Type} {operation : Deque JobId → Deque JobId × Except Failure β} {answer : β}
    (h : s.onDeque i operation = .ok (t, answer))
    (counter : Counter) :
    t.total counter = s.total counter := by
  obtain ⟨place, deque, hplace, -, rfl⟩ := exists_of_onDeque h
  have hsame : (({ place with deque } : Place).stats.get counter).toNat =
      (place.stats.get counter).toNat + 0 := rfl
  exact total_put_add hplace hsame

theorem total_of_resetDeque
    (h : s.resetDeque i = .ok (t, ()))
    (counter : Counter) :
    t.total counter = s.total counter := by
  obtain ⟨place, deque, hplace, -, rfl⟩ := exists_of_resetDeque h
  have hsame : (({ place with deque } : Place).stats.get counter).toNat =
      (place.stats.get counter).toNat + 0 := rfl
  exact total_put_add hplace hsame

/-- What is counted at a place is counted in the sum, if the counter does not leave its word. -/
theorem total_of_bump
    {counter : Counter}
    (h : s.bump i counter = .ok (t, ()))
    (hfits : s.total counter + 1 < UInt64.size)
    (other : Counter) :
    t.total other = s.total other + [counter].count other := by
  obtain ⟨place, next, hplace, hnext, rfl⟩ := exists_of_atPlace h
  cases hnext
  have hle := le_total hplace counter
  refine total_put_add hplace ?_
  show ((place.stats.bump counter).get other).toNat = _
  rw [Stats.bump, Stats.get_set]
  by_cases heq : other = counter
  · subst heq
    rw [if_pos rfl, List.count_singleton_self, UInt64.toNat_add]
    exact Nat.mod_eq_of_lt (Nat.lt_of_le_of_lt (Nat.add_le_add_right hle 1) hfits)
  · rw [if_neg heq, List.count_eq_zero.mpr fun hmem => heq (List.mem_singleton.mp hmem)]
    rfl

end Scheduler
end WorkStealing
