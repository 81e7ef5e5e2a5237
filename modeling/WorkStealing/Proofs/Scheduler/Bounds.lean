import WorkStealing.Proofs.Runs.Upkeep
import WorkStealing.Proofs.Scheduler.Construction

/-!
# Operations within bounds

A scheduler is *sound* when it has the places and its deques the slots that they were
built with, and each bottom is within the slots. Every operation at one of the places
keeps it so, whatever the deques hold, and the only failures are those of its deque.
-/

namespace WorkStealing

/-- What has succeeded is sound and answers as expected; what has failed has an expected cause. -/
def Settles {σ β : Type} (sound : σ → Prop) (answers : β → Prop) (fails : Failure → Prop) :
    Except Failure (σ × β) → Prop
  | .ok (next, answer) => sound next ∧ answers answer
  | .error cause => fails cause

theorem Settles.mono
    {σ β : Type} {sound : σ → Prop} {answers others : β → Prop} {fails causes : Failure → Prop}
    {result : Except Failure (σ × β)}
    (h : Settles sound answers fails result)
    (hanswers : ∀ answer, answers answer → others answer)
    (hfails : ∀ cause, fails cause → causes cause) :
    Settles sound others causes result := by
  cases result with
  | error cause =>
      exact hfails cause h
  | ok result =>
      exact ⟨h.1, hanswers _ h.2⟩

/-- The deque at the place has so many slots and its bottom within them. -/
structure Place.Sound (capacity : Nat) (place : Place) : Prop where
  slots : place.deque.capacity = capacity
  bottom : place.deque.bottom.toNat ≤ capacity

namespace Scheduler

/-- There are so many deques, each with so many slots and its bottom within them. -/
structure Sound (deques capacity : Nat) (s : Scheduler) : Prop where
  count : s.dequeCount = deques
  places : ∀ place ∈ s.places, place.Sound capacity

namespace Sound

variable {deques capacity : Nat} {s : Scheduler} {i : Nat} {β : Type}

/-- A change at a place that there is. -/
theorem atPlace
    (h : s.Sound deques capacity)
    (hi : i < deques)
    {change : Place → Except Failure (Place × β)} {answers : β → Prop} {fails : Failure → Prop}
    (hchange : ∀ place, place.Sound capacity →
      Settles (Place.Sound capacity) answers fails (change place)) :
    Settles (Sound deques capacity) answers fails (s.atPlace i change) := by
  have hsize : i < s.places.size := by
    rw [← h.count] at hi
    exact hi
  have hplace := hchange s.places[i] (h.places _ (Array.getElem_mem hsize))
  simp only [Scheduler.atPlace, Array.getElem?_eq_getElem hsize]
  cases hresult : change s.places[i] with
  | error cause =>
      rw [hresult] at hplace
      exact hplace
  | ok result =>
      rw [hresult] at hplace
      refine ⟨⟨?_, fun place hmem => ?_⟩, hplace.2⟩
      · simpa [dequeCount] using h.count
      · rcases Array.mem_or_eq_of_mem_setIfInBounds hmem with hold | rfl
        · exact h.places place hold
        · exact hplace.1

/-- An operation of the deque at a place, undisturbed. -/
theorem onDeque
    (h : s.Sound deques capacity)
    (hi : i < deques)
    {routine : Deque JobId → Routine JobId β} {expected : Except Failure β → Prop}
    (hconfined : ∀ d, d.capacity = capacity → (routine d).Confined capacity expected) :
    Settles (Sound deques capacity) (expected <| .ok ·) (expected <| .error ·)
      (s.onDeque i fun d => (routine d).run d) := by
  refine h.atPlace hi fun place hplace => ?_
  obtain ⟨deque, attempts, stats⟩ := place
  obtain ⟨rfl, hbottom⟩ := hplace
  obtain ⟨hnext, hexpected⟩ := (hconfined deque rfl).run hbottom
  have hcapacity := Routine.capacity_run deque (routine deque)
  cases hrun : (routine deque).run deque with
  | mk next outcome =>
      rw [hrun] at hnext hexpected hcapacity
      cases outcome with
      | error cause =>
          simpa [Settles, hrun] using hexpected
      | ok answer =>
          simpa [Settles, hrun] using ⟨⟨hcapacity, hnext⟩, hexpected⟩

theorem push
    (h : s.Sound deques capacity)
    (hi : i < deques)
    (job : JobId) :
    Settles (Sound deques capacity)
      (fun outcome => outcome = .ok () ∨ outcome = .error (.dequeOverflow capacity))
      (fun _ => False) (s.push i job) := by
  have hconfined : ∀ d : Deque JobId, d.capacity = capacity →
      (Routine.push d.capacity job).Confined capacity (Routine.PushEnds capacity) :=
    fun d hd => hd ▸ Routine.confined_push d.capacity_le job
  refine (h.onDeque hi hconfined).mono ?_ ?_
  · simp [Routine.PushEnds]
  · simp [Routine.PushEnds]

theorem pop
    (h : s.Sound deques capacity)
    (hi : i < deques) :
    Settles (Sound deques capacity) (fun _ => True) (· = .error .tagExhausted) (s.pop i) := by
  have hconfined : ∀ d : Deque JobId, d.capacity = capacity →
      (Routine.pop : Routine JobId (Option JobId)).Confined capacity Routine.PopEnds :=
    fun _ _ => Routine.confined_pop
  exact (h.onDeque hi hconfined).mono (fun _ _ => trivial) fun cause hcause => hcause cause rfl

theorem steal
    (h : s.Sound deques capacity)
    (hi : i < deques) :
    Settles (Sound deques capacity) (fun _ => True) (fun _ => False) (s.steal i) := by
  have hconfined : ∀ d : Deque JobId, d.capacity = capacity →
      (Routine.steal : Routine JobId (Option JobId)).Confined capacity Routine.StealEnds :=
    fun d hd => hd ▸ Routine.confined_steal d.capacity_le
  exact (h.onDeque hi hconfined).mono (fun _ _ => trivial) fun cause hcause => hcause cause rfl

theorem resetDeque
    (h : s.Sound deques capacity)
    (hi : i < deques) :
    Settles (Sound deques capacity) (fun _ => True)
      (fun cause => cause = .panic .resetNonEmpty ∨ cause = .error .tagExhausted)
      (s.resetDeque i) := by
  refine h.atPlace hi fun place hplace => ?_
  have hconfined : (Routine.reset : Routine JobId Unit).Confined place.deque.capacity
      Routine.ResetEnds :=
    Routine.confined_reset
  have hbottom : place.deque.bottom.toNat ≤ place.deque.capacity :=
    hplace.slots ▸ hplace.bottom
  obtain ⟨hnext, hexpected⟩ := hconfined.run hbottom
  rw [Routine.run_reset] at hnext hexpected
  cases hreset : place.deque.reset with
  | error cause =>
      rw [hreset] at hexpected
      exact hexpected cause rfl
  | ok next =>
      rw [hreset] at hnext
      exact ⟨⟨(capacity_reset hreset).trans hplace.slots, hplace.slots ▸ hnext⟩, trivial⟩

/-- A change at a place that leaves its deque alone. -/
theorem beside
    (h : s.Sound deques capacity)
    (hi : i < deques)
    {change : Place → Place × β}
    (hdeque : ∀ place, (change place).1.deque = place.deque) :
    Settles (Sound deques capacity) (fun _ => True) (fun _ => False)
      (s.atPlace i fun place => .ok (change place)) := by
  refine h.atPlace hi fun place hplace => ⟨⟨?_, ?_⟩, trivial⟩
  · rw [hdeque]
    exact hplace.slots
  · rw [hdeque]
    exact hplace.bottom

theorem bump
    (h : s.Sound deques capacity)
    (hi : i < deques)
    (counter : Counter) :
    Settles (Sound deques capacity) (fun _ => True) (fun _ => False) (s.bump i counter) :=
  h.beside hi fun _ => rfl

theorem loadAttempt
    (h : s.Sound deques capacity)
    (hi : i < deques) :
    Settles (Sound deques capacity) (fun _ => True) (fun _ => False) (s.loadAttempt i) :=
  h.beside hi fun _ => rfl

theorem storeAttempt
    (h : s.Sound deques capacity)
    (hi : i < deques)
    (attempt : UInt64) :
    Settles (Sound deques capacity) (fun _ => True) (fun _ => False)
      (s.storeAttempt i attempt) :=
  h.beside hi fun _ => rfl

theorem resetStats
    (h : s.Sound deques capacity) :
    s.resetStats.Sound deques capacity := by
  refine ⟨?_, fun place hplace => ?_⟩
  · simpa [dequeCount, Scheduler.resetStats] using h.count
  · obtain ⟨old, hold, rfl⟩ := Array.mem_map.mp hplace
    exact ⟨(h.places old hold).slots, (h.places old hold).bottom⟩

/-- Flags and numbers beside the places do not matter. -/
theorem congr
    {t : Scheduler}
    (h : s.Sound deques capacity)
    (hplaces : t.places = s.places) :
    t.Sound deques capacity := by
  refine ⟨?_, fun place hplace => h.places place (hplaces ▸ hplace)⟩
  rw [dequeCount, hplaces]
  exact h.count

/-- What was built like a sound scheduler and comes after it is sound. -/
theorem continues
    {t : Scheduler}
    (h : s.Sound deques capacity)
    (hcontinues : s.Continues t) :
    t.Sound deques capacity := by
  have hslots := hcontinues.capacity_eq fun place hplace => (h.places place hplace).slots
  have hbounded := hcontinues.bounded fun place hplace => by
    rw [Place.IsBounded, (h.places place hplace).slots]
    exact (h.places place hplace).bottom
  refine ⟨hcontinues.dequeCount.trans h.count, fun place hplace => ⟨hslots place hplace, ?_⟩⟩
  rw [← hslots place hplace]
  exact hbounded place hplace

end Sound

theorem sound_of_build
    {config : Config} {offered : UInt64} {s : Scheduler}
    (hbuild : build config offered = .ok s) :
    s.Sound s.dequeCount config.dequeCapacity.toNat := by
  refine ⟨rfl, fun place hplace => ?_⟩
  obtain ⟨hcapacity, hbottom, -⟩ := (isNew_of_build hbuild).idle.clean place hplace
  exact ⟨hcapacity, by simp [hbottom]⟩

end Scheduler
end WorkStealing
