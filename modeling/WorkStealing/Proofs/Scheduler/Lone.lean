import WorkStealing.Proofs.Deque.Tags
import WorkStealing.Proofs.Runs.Upkeep
import WorkStealing.Proofs.Scheduler.Lanes

/-!
# One job in the deques

While at most one job is in the deques of a scheduler, and that in the first one,
each operation is determined (`Scheduler.Lone`): a pop from the first deque or a
steal from it takes the job, and any other finds nothing. No operation then gives
the process up, if the first deque has a tag left for when it is emptied.
-/

namespace WorkStealing

open Function (update)

namespace Scheduler

/-- If something is in use below the first slot of the first deque, it can be given another tag. -/
def Spare (s : Scheduler) : Prop :=
  ∀ place, s.places[0]? = some place → place.deque.bottom ≠ 0 →
    place.deque.age.restarted? ≠ none

/-- Whether there is another tag depends on the tag only. -/
theorem restarted?_congr
    {age other : Age}
    (htag : other.tag = age.tag)
    (hsome : age.restarted? ≠ none) :
    other.restarted? ≠ none := by
  rw [Age.restarted?, htag]
  exact hsome

variable {s t : Scheduler} {capacity count i : Nat} {job? : Option JobId}

/-- A place was changed, and its deque is not used more than before. -/
theorem Spare.put
    (h : s.Spare)
    {place next : Place}
    (hplace : s.places[i]? = some place)
    (hnext : next.deque.bottom ≠ 0 →
      place.deque.bottom ≠ 0 ∧ next.deque.age.tag = place.deque.age.tag) :
    (s.put i next).Spare := by
  intro other hother hbottom
  by_cases hi : i = 0
  · subst hi
    rw [place_put_self hplace] at hother
    cases hother
    obtain ⟨hused, htag⟩ := hnext hbottom
    exact restarted?_congr htag (h place hplace hused)
  · rw [place_put_ne (Ne.symm hi)] at hother
    exact h other hother hbottom

/-- A deque is used by an operation that gives it no tag unless it empties it. -/
theorem Spare.onDeque
    {β : Type} {operation : Deque JobId → Deque JobId × Except Failure β} {answer : β}
    (h : s.Spare)
    (hoperation : ∀ d, (operation d).1.bottom ≠ 0 →
      d.bottom ≠ 0 ∧ (operation d).1.age.tag = d.age.tag)
    (hresult : s.onDeque i operation = .ok (t, answer)) :
    t.Spare := by
  obtain ⟨place, deque, hplace, hdeque, rfl⟩ := exists_of_onDeque hresult
  refine h.put hplace ?_
  have hkeeps := hoperation place.deque
  rw [hdeque] at hkeeps
  exact hkeeps

theorem Spare.pop
    {answer : Option JobId}
    (h : s.Spare)
    (hpop : s.pop i = .ok (t, answer)) :
    t.Spare :=
  h.onDeque (fun d hbottom => (d.pop_keeps hbottom).imp_right (congrArg Age.tag)) hpop

theorem Spare.steal
    {answer : Option JobId}
    (h : s.Spare)
    (hsteal : s.steal i = .ok (t, answer)) :
    t.Spare := by
  refine h.onDeque (fun d hbottom => ?_) hsteal
  obtain ⟨hsame, htag⟩ := d.steal_keeps
  rw [hsame] at hbottom
  exact ⟨hbottom, htag⟩

/-- A place was changed, but not its deque. -/
theorem Spare.atPlace
    {β : Type} {change : Place → Except Failure (Place × β)} {answer : β}
    (h : s.Spare)
    (hchange : ∀ place next other, change place = .ok (next, other) → next.deque = place.deque)
    (hresult : s.atPlace i change = .ok (t, answer)) :
    t.Spare := by
  obtain ⟨place, next, hplace, hnext, rfl⟩ := exists_of_atPlace hresult
  refine h.put hplace ?_
  rw [hchange place next answer hnext]
  exact fun hbottom => ⟨hbottom, rfl⟩

/-- At most this job is in the deques, and that in the first one. -/
structure Lone (s : Scheduler) (capacity count : Nat) (job? : Option JobId) : Prop where
  follows : ∃ lane : Lane, s.Follows capacity (update (fun _ => {}) 0 lane) ∧
    lane.jobs = job?.toList
  count : s.dequeCount = count
  trials : 0 < s.stealTrials
  spare : s.Spare

namespace Lone

/-- The scheduler has changed in nothing but its places. -/
theorem keeps
    (h : s.Lone capacity count job?)
    {other? : Option JobId} {lane : Lane}
    (hkeeps : s.Keeps t)
    (hfollows : t.Follows capacity (update (fun _ => {}) 0 lane))
    (hjobs : lane.jobs = other?.toList)
    (hspare : t.Spare) :
    t.Lone capacity count other? :=
  ⟨⟨lane, hfollows, hjobs⟩, hkeeps.dequeCount.trans h.count,
    by rw [hkeeps.stealTrials]; exact h.trials, hspare⟩

/-- What a scheduler does not use at its places does not matter. -/
theorem congr
    (h : s.Lone capacity count job?)
    (hplaces : t.places = s.places)
    (htrials : t.stealTrials = s.stealTrials) :
    t.Lone capacity count job? := by
  obtain ⟨lane, hfollows, hjobs⟩ := h.follows
  refine ⟨⟨lane, ?_, hjobs⟩, (congrArg Array.size hplaces).trans h.count, ?_, ?_⟩
  · intro k place hplace
    rw [hplaces] at hplace
    exact hfollows k place hplace
  · rw [htrials]
    exact h.trials
  · intro place hplace
    rw [hplaces] at hplace
    exact h.spare place hplace

theorem bump
    (h : s.Lone capacity count job?)
    (hi : i < count)
    (counter : Counter) :
    ∃ t, s.bump i counter = .ok (t, ()) ∧ s.Keeps t ∧ t.Lone capacity count job? := by
  obtain ⟨lane, hfollows, hjobs⟩ := h.follows
  rw [← h.count] at hi
  obtain ⟨t, hbump, hafter, hkeeps⟩ := hfollows.bump hi counter
  refine ⟨t, hbump, hkeeps, h.keeps hkeeps hafter hjobs (h.spare.atPlace ?_ hbump)⟩
  intro place next other hnext
  cases hnext
  rfl

theorem loadAttempt
    (h : s.Lone capacity count job?)
    (hi : i < count) :
    ∃ t attempt, s.loadAttempt i = .ok (t, attempt) ∧ s.Keeps t ∧
      t.Lone capacity count job? := by
  obtain ⟨lane, hfollows, hjobs⟩ := h.follows
  rw [← h.count] at hi
  obtain ⟨t, attempt, hload, hafter, hkeeps⟩ := hfollows.loadAttempt hi
  refine ⟨t, attempt, hload, hkeeps, h.keeps hkeeps hafter hjobs (h.spare.atPlace ?_ hload)⟩
  intro place next other hnext
  cases hnext
  rfl

theorem storeAttempt
    (h : s.Lone capacity count job?)
    (hi : i < count)
    (attempt : UInt64) :
    ∃ t, s.storeAttempt i attempt = .ok (t, ()) ∧ s.Keeps t ∧ t.Lone capacity count job? := by
  obtain ⟨lane, hfollows, hjobs⟩ := h.follows
  rw [← h.count] at hi
  obtain ⟨t, hstore, hafter, hkeeps⟩ := hfollows.storeAttempt hi attempt
  refine ⟨t, hstore, hkeeps, h.keeps hkeeps hafter hjobs (h.spare.atPlace ?_ hstore)⟩
  intro place next other hnext
  cases hnext
  rfl

/-- An operation has answered the job, which is gone then, or nothing. -/
def Yields (t : Scheduler) (capacity count : Nat) (job? answer : Option JobId) : Prop :=
  (answer = none ∧ t.Lone capacity count job?) ∨
    ∃ job, answer = some job ∧ job? = some job ∧ t.Lone capacity count none

/-- The owner of the first deque gets the job. -/
theorem pop
    (h : s.Lone capacity count job?)
    (hi : i < count) :
    ∃ t answer, s.pop i = .ok (t, answer) ∧ s.Keeps t ∧ Yields t capacity count job? answer ∧
      (i = 0 → answer = job?) := by
  obtain ⟨lane, hfollows, hjobs⟩ := h.follows
  rw [← h.count] at hi
  rcases hfollows.pop hi with ⟨t, hpop, hafter, hkeeps⟩ | ⟨hused, ⟨place, hplace, hnone⟩, -⟩
  · refine ⟨t, _, hpop, hkeeps, ?_⟩
    by_cases hzero : i = 0
    · subst hzero
      rw [Function.update_self] at hafter ⊢
      rw [Function.update_idem] at hafter
      have hleft : lane.pop.jobs = (none : Option JobId).toList := by
        rw [Lane.jobs_pop, hjobs]
        cases job? <;> rfl
      have hlone : t.Lone capacity count none := h.keeps hkeeps hafter hleft (h.spare.pop hpop)
      rw [hjobs]
      cases job? with
      | none =>
          exact ⟨Or.inl ⟨rfl, hlone⟩, fun _ => rfl⟩
      | some job =>
          exact ⟨Or.inr ⟨job, rfl, rfl, hlone⟩, fun _ => rfl⟩
    · rw [Function.update_of_ne hzero] at hafter ⊢
      have hsame : update (update (fun _ => ({} : Lane)) 0 lane) i (Lane.pop {}) =
          update (fun _ => {}) 0 lane := by
        refine Function.update_eq_self_iff.mpr ?_
        rw [Function.update_of_ne hzero]
        rfl
      rw [hsame] at hafter
      exact ⟨Or.inl ⟨rfl, h.keeps hkeeps hafter hjobs (h.spare.pop hpop)⟩,
        fun heq => absurd heq hzero⟩
  · exfalso
    by_cases hzero : i = 0
    · subst hzero
      refine h.spare place hplace (fun hbottom => hused ?_) hnone
      rw [← (hfollows 0 place hplace).1.bottom_eq, hbottom]
      rfl
    · rw [Function.update_of_ne hzero] at hused
      exact hused rfl

theorem steal
    (h : s.Lone capacity count job?)
    (hi : i < count) :
    ∃ t answer, s.steal i = .ok (t, answer) ∧ s.Keeps t ∧ Yields t capacity count job? answer := by
  obtain ⟨lane, hfollows, hjobs⟩ := h.follows
  rw [← h.count] at hi
  obtain ⟨t, hsteal, hafter, hkeeps⟩ := hfollows.steal hi
  refine ⟨t, _, hsteal, hkeeps, ?_⟩
  by_cases hzero : i = 0
  · subst hzero
    rw [Function.update_self] at hafter ⊢
    rw [Function.update_idem] at hafter
    have hleft : lane.steal.jobs = (none : Option JobId).toList := by
      rw [Lane.jobs_steal, hjobs]
      cases job? <;> rfl
    have hlone : t.Lone capacity count none := h.keeps hkeeps hafter hleft (h.spare.steal hsteal)
    rw [hjobs]
    cases job? with
    | none =>
        exact Or.inl ⟨rfl, hlone⟩
    | some job =>
        exact Or.inr ⟨job, rfl, rfl, hlone⟩
  · rw [Function.update_of_ne hzero] at hafter ⊢
    have hsame : update (update (fun _ => ({} : Lane)) 0 lane) i (Lane.steal {}) =
        update (fun _ => {}) 0 lane := by
      refine Function.update_eq_self_iff.mpr ?_
      rw [Function.update_of_ne hzero]
      rfl
    rw [hsame] at hafter
    exact Or.inl ⟨rfl, h.keeps hkeeps hafter hjobs (h.spare.steal hsteal)⟩

/-- The first job of a run is pushed on clean deques. -/
theorem push
    (hfollows : s.Follows capacity fun _ => {})
    (hcount : s.dequeCount = count)
    (htrials : 0 < s.stealTrials)
    (htags : ¬ s.OutOfTags 0)
    (hpos : 0 < count)
    (job : JobId) :
    ∃ t, s.push 0 job = .ok (t, .ok ()) ∧ s.Keeps t ∧ t.Lone capacity count (some job) := by
  rw [← hcount] at hpos
  obtain ⟨t, hpush, hafter, hkeeps, hout⟩ :=
    hfollows.push_of_lt hpos (hfollows.capacity_pos hpos) job
  refine ⟨t, hpush, hkeeps, ⟨⟨_, hafter, rfl⟩, hkeeps.dequeCount.trans hcount, ?_, ?_⟩⟩
  · rw [hkeeps.stealTrials]
    exact htrials
  · exact fun place hplace _ hnone => htags (hout ⟨place, hplace, hnone⟩)

/-- The lanes beside the first one are empty, and so is that if there is no job. -/
theorem jobs_nil
    {lane : Lane}
    (hjobs : lane.jobs = (none : Option JobId).toList)
    (i : Nat) :
    (update (fun _ => ({} : Lane)) 0 lane i).jobs = [] := by
  by_cases hzero : i = 0
  · rw [hzero, Function.update_self, hjobs]
    rfl
  · rw [Function.update_of_ne hzero]

/-- A deque that holds nothing is reset. -/
theorem resetDeque
    (h : s.Lone capacity count none)
    (hi : i < count) :
    ∃ t, s.resetDeque i = .ok (t, ()) ∧ s.Keeps t ∧ t.Lone capacity count none := by
  obtain ⟨lane, hfollows, hjobs⟩ := h.follows
  rw [← h.count] at hi
  rcases hfollows.resetDeque hi (jobs_nil hjobs i) with ⟨t, hreset, hafter, hkeeps⟩ | hfail
  · refine ⟨t, hreset, hkeeps, ?_⟩
    have hspare : t.Spare := by
      obtain ⟨other, fresh, hother, hfresh, rfl⟩ := exists_of_resetDeque hreset
      exact h.spare.put hother fun hbottom =>
        absurd (Deque.clean_of_reset hfresh).2.bottom hbottom
    by_cases hzero : i = 0
    · subst hzero
      rw [Function.update_idem] at hafter
      exact h.keeps hkeeps hafter rfl hspare
    · have hsame : update (update (fun _ => ({} : Lane)) 0 lane) i {} =
          update (fun _ => {}) 0 lane := by
        refine Function.update_eq_self_iff.mpr ?_
        rw [Function.update_of_ne hzero]
      rw [hsame] at hafter
      exact h.keeps hkeeps hafter hjobs hspare
  · exfalso
    obtain ⟨place, hplace⟩ := exists_place hi
    obtain ⟨hdeque, -⟩ := hfollows i place hplace
    have hempty : place.deque.isEmpty = true := by
      rw [hdeque.holds.isEmpty_iff]
      exact jobs_nil hjobs i
    have hbottom := hdeque.bottom_eq
    have htop := hdeque.top_eq
    rw [Lane.bottom, jobs_nil hjobs i, List.length_nil, Nat.add_zero, ← htop] at hbottom
    have hspare : place.deque.bottom ≠ 0 → place.deque.age.restarted? ≠ none := by
      intro hused
      by_cases hzero : i = 0
      · subst hzero
        exact h.spare place hplace hused
      · rw [htop, Function.update_of_ne hzero] at hbottom
        exact absurd (UInt32.toNat_inj.mp hbottom) hused
    obtain ⟨e, hreset⟩ := Deque.exists_reset hempty
      (fun hzero => by rw [← UInt32.toNat_inj, ← hbottom, hzero]) hspare
    rw [resetDeque_of_ok hplace hreset] at hfail
    cases hfail

/-- A deque with the job in it is not reset. -/
theorem resetDeque_zero
    {job : JobId}
    (h : s.Lone capacity count (some job))
    (hpos : 0 < count) :
    s.resetDeque 0 = .error (.panic .resetNonEmpty) := by
  obtain ⟨lane, hfollows, hjobs⟩ := h.follows
  rw [← h.count] at hpos
  obtain ⟨place, hplace⟩ := exists_place hpos
  obtain ⟨hdeque, -⟩ := hfollows 0 place hplace
  have hfull : place.deque.isEmpty = false := by
    rw [← Bool.not_eq_true, hdeque.holds.isEmpty_iff, Function.update_self, hjobs]
    exact List.cons_ne_nil job []
  refine resetDeque_of_error hplace ?_
  rw [Deque.reset, if_pos hfull]

end Lone
end Scheduler
end WorkStealing
