import Mathlib.Data.Finset.Card
import WorkStealing.Proofs.Deque.Sequential
import WorkStealing.Proofs.Machine.Passage
import WorkStealing.Proofs.Scheduler.Places

/-!
# Jobs that nobody waits for

Loose code forks like strict code and may spawn named jobs besides, without waiting for
them. This module says what the world of a lone worker is like while it runs such code:
which jobs are in its deque (`Loaded`), what a stretch of steps leaves as it was
(`Conserves`), and which jobs code has left in the deque (`Leftover`).
-/

namespace WorkStealing

/-- The action is plain, says something, or spawns one of the first jobs. -/
def Action.isLoose (count : Nat) : Action → Bool
  | .joined => true
  | .spawn job => decide (job < count)
  | action => action.isPlain

def Code.isLoose (count : Nat) (code : Code) : Bool :=
  Code.within (Action.isLoose count) code

/-- Somebody has taken the code of the job to execute it. -/
def Memory.isTaken (m : Memory) (job : JobId) : Bool :=
  (m.flags[job]?).any JobFlags.taken

namespace Deque

variable {α : Type} {d : Deque α} {jobs : List α} {job : α}

/-- A job that was popped can be put back. -/
theorem Holds.pop_push
    (h : d.Holds (jobs ++ [job])) :
    (∃ e f, d.pop = (e, .ok (some job)) ∧ e.Holds jobs ∧ e.capacity = d.capacity ∧
        e.push job = (f, .ok (.ok ())) ∧ f.Holds (jobs ++ [job]) ∧ f.capacity = d.capacity) ∨
      d.pop.2 = .error (.error .tagExhausted) := by
  rcases h.pop_concat with ⟨e, hpop, hrest, hcapacity, htop⟩ | ⟨-, -, hfail⟩
  · have hroom : e.bottom.toNat < e.capacity := by
      have hends := h.bottom_eq
      have hle := h.bottom_le
      have hbottom := hrest.bottom_eq
      rw [List.length_append, List.length_singleton] at hends
      rw [htop] at hbottom
      split at hbottom
      next hnil =>
        subst hnil
        simp at hbottom
        omega
      next =>
        omega
    obtain ⟨f, hpush, hholds, hsame, -⟩ := hrest.push_of_lt hroom job
    exact .inl ⟨e, f, hpop, hrest, hcapacity, hpush, hholds, hsame.trans hcapacity⟩
  · exact .inr hfail

end Deque

namespace ForkJoin

open Machine (Frame Note System World)

/-- The worker has these jobs in its deque. Of the first jobs, those in the deque and those that
were taken have been seen; the others wait to be spawned and executed. -/
structure Loaded (v capacity count : Nat) (seen : List JobId) (w : World) (jobs : List JobId) :
    Prop where
  deque : ∃ place, w.scheduler.places[v]? = some place ∧ place.deque.Holds jobs ∧
    place.deque.capacity = capacity
  cooperative : w.scheduler.config.waitPolicy = .cooperative
  flags : w.flags.size = w.bodies.size
  count_le : count ≤ w.bodies.size
  made : ∀ job ∈ jobs, job < w.bodies.size
  queued : ∀ job ∈ jobs, job < count → job ∈ seen
  taken : ∀ job < count, w.isTaken job = true → job ∈ seen
  /-- The first jobs run loose code. -/
  named : ∀ job < count, w.isTaken job = false → ∃ code,
    w.bodies[job]? = some (Action.namedBody job code) ∧ Code.isLoose count code = true

theorem Loaded.contents_eq
    {v capacity count : Nat} {seen jobs : List JobId} {w : World}
    (h : Loaded v capacity count seen w jobs) :
    (w.scheduler.places[v]?).map (·.deque.contents) = some (jobs.map some) := by
  obtain ⟨place, hplace, hholds, -⟩ := h.deque
  rw [hplace, Option.map_some, hholds.contents_eq]

/-- The second world comes after the first one with these notes: each job that was taken meanwhile
has begun once, and nothing was done to those that are kept. -/
structure Conserves (kept : List JobId) (w : World) (notes : List Note) (next : World) : Prop where
  bodies : ∀ (job : JobId) body, w.bodies[job]? = some body → next.bodies[job]? = some body
  flags : ∀ job ∈ kept, next.flags[job]? = w.flags[job]?
  began : ∀ job, notes.count (.began job) + (w.isTaken job).toNat = (next.isTaken job).toNat

/-- Above these jobs, the worker has these others in its deque, which were spawned and not taken. -/
structure Leftover (count : Nat) (w : World) (jobs own : List JobId) : Prop where
  nodup : own.Nodup
  apart : ∀ job ∈ own, job ∉ jobs
  named : ∀ job ∈ own, job < count
  untaken : ∀ job ∈ own, w.isTaken job = false

/-- Each job that has begun has ended. -/
def Balanced (notes : List Note) : Prop :=
  ∀ job, notes.count (.ended job) = notes.count (.began job)

/-- The number of those of the first jobs that nobody has taken. -/
def untaken (count : Nat) (w : World) : Nat :=
  ((Finset.range count).filter fun job => w.isTaken job = false).card

theorem Balanced.nil :
    Balanced [] := by
  intro job
  rfl

theorem Balanced.append
    {notes more : List Note}
    (h : Balanced notes)
    (hmore : Balanced more) :
    Balanced (notes ++ more) := by
  intro job
  rw [List.count_append, List.count_append, h job, hmore job]

/-- A job that has begun and ended around others. -/
theorem Balanced.wrap
    {notes : List Note}
    (h : Balanced notes)
    (job : JobId) :
    Balanced (.began job :: (notes ++ [.ended job])) := by
  intro k
  have hsame := h k
  by_cases hk : job = k
  · subst hk
    simp [hsame]
  · simp [hsame, hk]

/-- A job that has ended has begun. -/
theorem Balanced.began
    {notes : List Note} {job : JobId}
    (h : Balanced notes)
    (hended : .ended job ∈ notes) :
    .began job ∈ notes := by
  rw [← List.count_pos_iff, ← h job]
  exact List.count_pos_iff.mpr hended

section Flags

variable {w : World} {job : JobId}

theorem getElem?_setFlags
    (w : World) (job : JobId) (change : JobFlags → JobFlags) (k : JobId) :
    (w.setFlags job change).flags[k]? = if job = k then (w.flags[k]?).map change else w.flags[k]? :=
  Array.getElem?_modify

/-- Nobody takes a job by what is noted about it. -/
theorem isTaken_mark
    (job : JobId) {change : JobFlags → JobFlags}
    (hchange : ∀ flags, (change flags).taken = flags.taken)
    (k : JobId) :
    (w.setFlags job change).isTaken k = w.isTaken k := by
  rw [Memory.isTaken, Memory.isTaken, getElem?_setFlags]
  split
  · cases w.flags[k]? <;> simp [hchange]
  · rfl

theorem isTaken_take
    (hjob : job < w.flags.size)
    (k : JobId) :
    (w.setFlags job fun flags => { flags with taken := true }).isTaken k =
      if job = k then true else w.isTaken k := by
  rw [Memory.isTaken, getElem?_setFlags]
  split
  next heq =>
    subst heq
    simp [hjob]
  next =>
    rfl

theorem isDone_complete
    (hjob : job < w.flags.size) :
    (w.setFlags job fun flags => { flags with done := true }).isDone job = true := by
  rw [Memory.isDone, getElem?_setFlags, if_pos rfl, Array.getElem?_eq_getElem hjob]
  rfl

/-- A new job is not taken. -/
theorem isTaken_addJob
    (w : World) (body : JobId → Code) (k : JobId) :
    (w.addJob body).1.isTaken k = w.isTaken k := by
  have hget : (w.addJob body).1.flags[k]? = if k = w.flags.size then some {} else w.flags[k]? :=
    Array.getElem?_push
  rw [Memory.isTaken, Memory.isTaken, hget]
  split
  next heq =>
    simp [heq]
  next =>
    rfl

theorem untaken_pos
    {count : Nat}
    (hjob : job < count)
    (hbefore : w.isTaken job = false) :
    0 < untaken count w :=
  Finset.card_pos.mpr ⟨job, by simp [hjob, hbefore]⟩

end Flags

namespace Conserves

variable {kept : List JobId} {w next last : World} {notes more : List Note} {job : JobId}

theorem trans
    (h : Conserves kept w notes next)
    (hnext : Conserves kept next more last) :
    Conserves kept w (notes ++ more) last := by
  refine ⟨fun job body hbody => hnext.bodies job body (h.bodies job body hbody),
    fun job hjob => (hnext.flags job hjob).trans (h.flags job hjob), fun job => ?_⟩
  rw [List.count_append, ← hnext.began job, ← h.began job]
  omega

theorem mono
    {fewer : List JobId}
    (h : Conserves kept w notes next)
    (hfewer : fewer ⊆ kept) :
    Conserves fewer w notes next :=
  ⟨h.bodies, fun job hjob => h.flags job (hfewer hjob), h.began⟩

/-- Neither jobs nor flags have changed. -/
theorem of_eq
    (hbodies : next.bodies = w.bodies)
    (hflags : next.flags = w.flags)
    (hnotes : ∀ job, .began job ∉ notes) :
    Conserves kept w notes next := by
  refine ⟨fun job body hbody => by rwa [hbodies], fun job _ => by rw [hflags], fun job => ?_⟩
  rw [List.count_eq_zero.mpr (hnotes job), Nat.zero_add, Memory.isTaken, Memory.isTaken, hflags]

/-- Something is noted about a job that is not kept. -/
theorem mark
    (hjob : job ∉ kept)
    {change : JobFlags → JobFlags}
    (hchange : ∀ flags, (change flags).taken = flags.taken)
    (hnotes : ∀ k, .began k ∉ notes) :
    Conserves kept w notes { w with toMemory := w.setFlags job change } := by
  refine ⟨fun _ _ hbody => hbody, fun k hk => ?_, fun k => ?_⟩
  · refine (getElem?_setFlags w job change k).trans (if_neg ?_)
    rintro rfl
    exact hjob hk
  · rw [List.count_eq_zero.mpr (hnotes k), Nat.zero_add]
    exact congrArg Bool.toNat (isTaken_mark job hchange k).symm

/-- A job is taken that is not kept. -/
theorem take
    (hjob : job ∉ kept)
    (hlt : job < w.flags.size)
    (hbefore : w.isTaken job = false) :
    Conserves kept w [.began job]
      { w with toMemory := w.setFlags job fun flags => { flags with taken := true } } := by
  refine ⟨fun _ _ hbody => hbody, fun k hk => ?_, fun k => ?_⟩
  · refine (getElem?_setFlags w job _ k).trans (if_neg ?_)
    rintro rfl
    exact hjob hk
  · show _ = ((w.setFlags job _).isTaken k).toNat
    rw [isTaken_take hlt k]
    by_cases hsame : job = k
    · subst hsame
      simp [hbefore]
    · rw [if_neg hsame, List.count_eq_zero.mpr (by simpa using Ne.symm hsame), Nat.zero_add]

theorem size_le
    (h : Conserves kept w notes next) :
    w.bodies.size ≤ next.bodies.size := by
  by_contra hless
  have hlt : next.bodies.size < w.bodies.size := by omega
  have hbody := h.bodies _ _ (Array.getElem?_eq_getElem hlt)
  simp at hbody

/-- What was taken stays so. -/
theorem isTaken
    (h : Conserves kept w notes next)
    (htaken : w.isTaken job = true) :
    next.isTaken job = true := by
  have hbegan := h.began job
  rw [htaken] at hbegan
  cases hnext : next.isTaken job with
  | true =>
      rfl
  | false =>
      simp [hnext] at hbegan

/-- A job that is kept is not taken. -/
theorem isTaken_of_mem
    (h : Conserves kept w notes next)
    (hjob : job ∈ kept) :
    next.isTaken job = w.isTaken job := by
  simp [Memory.isTaken, h.flags job hjob]

/-- A job that is kept has ended just as before. -/
theorem isDone_of_mem
    (h : Conserves kept w notes next)
    (hjob : job ∈ kept) :
    next.isDone job = w.isDone job := by
  simp [Memory.isDone, h.flags job hjob]

/-- A job that has begun is taken. -/
theorem isTaken_of_began
    (h : Conserves kept w notes next)
    (hbegan : .began job ∈ notes) :
    next.isTaken job = true := by
  have hcount := h.began job
  have hpos := List.count_pos_iff.mpr hbegan
  cases hnext : next.isTaken job with
  | true =>
      rfl
  | false =>
      rw [hnext, Bool.toNat_false] at hcount
      omega

/-- A job that is kept has not begun. -/
theorem not_began
    (h : Conserves kept w notes next)
    (hjob : job ∈ kept) :
    .began job ∉ notes := by
  have hbegan := h.began job
  rw [h.isTaken_of_mem hjob] at hbegan
  exact List.count_eq_zero.mp (by omega)

/-- A job that was taken meanwhile has begun once. -/
theorem count_began
    (h : Conserves kept w notes next)
    (hbefore : w.isTaken job = false)
    (hafter : next.isTaken job = true) :
    notes.count (.began job) = 1 := by
  have hbegan := h.began job
  simpa [hbefore, hafter] using hbegan

theorem untaken_subset
    (h : Conserves kept w notes next)
    (count : Nat) :
    (Finset.range count).filter (fun job => next.isTaken job = false) ⊆
      (Finset.range count).filter fun job => w.isTaken job = false := by
  intro job hjob
  rw [Finset.mem_filter] at hjob ⊢
  refine ⟨hjob.1, ?_⟩
  cases htaken : w.isTaken job with
  | false =>
      rfl
  | true =>
      exact (h.isTaken htaken).symm.trans hjob.2

theorem untaken_le
    (h : Conserves kept w notes next)
    (count : Nat) :
    untaken count next ≤ untaken count w :=
  Finset.card_le_card (h.untaken_subset count)

/-- Fewer are left when one of the first jobs was taken. -/
theorem untaken_lt
    {count : Nat}
    (h : Conserves kept w notes next)
    (hjob : job < count)
    (hbefore : w.isTaken job = false)
    (hafter : next.isTaken job = true) :
    untaken count next < untaken count w := by
  refine Finset.card_lt_card ((Finset.ssubset_iff_of_subset (h.untaken_subset count)).mpr ?_)
  exact ⟨job, by simp [hjob, hbefore], by simp [hafter]⟩

end Conserves

theorem conserves_addJob
    {w : World} (kept : List JobId) (body : JobId → Code)
    (hflags : w.flags.size = w.bodies.size)
    (hkept : ∀ job ∈ kept, job < w.bodies.size) :
    Conserves kept w [] (w.addJob body).1 := by
  refine ⟨fun k code hbody => ?_, fun k hk => ?_, fun k => ?_⟩
  · have hlt := (Array.getElem?_eq_some_iff.mp hbody).1
    exact (Array.getElem?_push.trans (if_neg (Nat.ne_of_lt hlt))).trans hbody
  · refine Array.getElem?_push.trans (if_neg ?_)
    rw [hflags]
    exact Nat.ne_of_lt (hkept k hk)
  · rw [isTaken_addJob w body k]
    simp

namespace Leftover

variable {count : Nat} {w next : World} {jobs own more : List JobId} {notes : List Note}

theorem nil
    (count : Nat) (w : World) (jobs : List JobId) :
    Leftover count w jobs [] := by
  constructor <;> simp

/-- What is left over stays so while it is kept. -/
theorem conserve
    (h : Leftover count w jobs own)
    (hconserves : Conserves (jobs ++ own) w notes next) :
    Leftover count next jobs own := by
  refine ⟨h.nodup, h.apart, h.named, fun job hjob => ?_⟩
  rw [hconserves.isTaken_of_mem (List.mem_append_right _ hjob)]
  exact h.untaken job hjob

/-- More is left over above. -/
theorem append
    (h : Leftover count w jobs own)
    (hmore : Leftover count w (jobs ++ own) more) :
    Leftover count w jobs (own ++ more) := by
  refine ⟨?_, ?_, ?_, ?_⟩
  · refine List.nodup_append.mpr ⟨h.nodup, hmore.nodup, ?_⟩
    rintro job hjob other hother rfl
    exact hmore.apart job hother (List.mem_append_right _ hjob)
  · intro job hjob
    rcases List.mem_append.mp hjob with hown | hnew
    · exact h.apart job hown
    · exact fun hold => hmore.apart job hnew (List.mem_append_left _ hold)
  · intro job hjob
    exact (List.mem_append.mp hjob).elim (h.named job) (hmore.named job)
  · intro job hjob
    exact (List.mem_append.mp hjob).elim (h.untaken job) (hmore.untaken job)

/-- Without the newest job. -/
theorem init
    {job : JobId}
    (h : Leftover count w jobs (own ++ [job])) :
    Leftover count w jobs own ∧ job ∉ jobs ++ own ∧ job < count ∧ w.isTaken job = false := by
  have hnodup := List.nodup_append.mp h.nodup
  refine ⟨⟨hnodup.1, fun k hk => h.apart k (by simp [hk]), fun k hk => h.named k (by simp [hk]),
    fun k hk => h.untaken k (by simp [hk])⟩, ?_, h.named job (by simp), h.untaken job (by simp)⟩
  intro hmem
  rcases List.mem_append.mp hmem with hold | hown
  · exact h.apart job (by simp) hold
  · exact hnodup.2.2 job hown job (by simp) rfl

end Leftover

namespace Loaded

variable {v capacity count : Nat} {seen : List JobId} {w next : World} {jobs more : List JobId}
  {job : JobId}

theorem lt
    (h : Loaded v capacity count seen w jobs) :
    v < w.scheduler.dequeCount := by
  obtain ⟨place, hplace, -⟩ := h.deque
  exact (Array.getElem?_eq_some_iff.mp hplace).1

theorem workerOf
    (h : Loaded v capacity count seen w jobs) :
    w.scheduler.workerOf (some v) = some v :=
  Scheduler.workerOf_of_lt h.lt

/-- More may have been seen. -/
theorem see
    (h : Loaded v capacity count seen w jobs)
    (others : List JobId) :
    Loaded v capacity count (seen ++ others) w jobs :=
  ⟨h.deque, h.cooperative, h.flags, h.count_le, h.made,
    fun job hjob hlt => List.mem_append_left _ (h.queued job hjob hlt),
    fun job hlt htaken => List.mem_append_left _ (h.taken job hlt htaken), h.named⟩

/-- Neither the scheduler nor the jobs have changed. -/
theorem of_eq
    (h : Loaded v capacity count seen w jobs)
    (hscheduler : next.scheduler = w.scheduler)
    (hbodies : next.bodies = w.bodies)
    (hflags : next.flags = w.flags) :
    Loaded v capacity count seen next jobs := by
  obtain ⟨hdeque, hcooperative, hsize, hcount, hmade, hqueued, htaken, hnamed⟩ := h
  refine ⟨?_, ?_, ?_, ?_, ?_, hqueued, ?_, ?_⟩ <;>
    simpa only [hscheduler, hbodies, hflags, Memory.isTaken]

/-- The worker's place was changed. -/
theorem put
    (h : Loaded v capacity count seen w jobs)
    {other : Place}
    (hholds : other.deque.Holds more)
    (hcapacity : other.deque.capacity = capacity)
    (hmade : ∀ job ∈ more, job < w.bodies.size)
    (hqueued : ∀ job ∈ more, job < count → job ∈ seen) :
    Loaded v capacity count seen { w with scheduler := w.scheduler.put v other } more := by
  obtain ⟨place, hplace, -⟩ := h.deque
  exact ⟨⟨other, Scheduler.place_put_self hplace other, hholds, hcapacity⟩, h.cooperative, h.flags,
    h.count_le, hmade, hqueued, h.taken, h.named⟩

/-- The worker's place was changed without its deque. -/
theorem put_same
    (h : Loaded v capacity count seen w jobs)
    {place other : Place}
    (hplace : w.scheduler.places[v]? = some place)
    (hdeque : other.deque = place.deque) :
    Loaded v capacity count seen { w with scheduler := w.scheduler.put v other } jobs := by
  obtain ⟨own, hown, hholds, hcapacity⟩ := h.deque
  obtain rfl := Option.some.inj (hplace.symm.trans hown)
  rw [← hdeque] at hholds hcapacity
  exact h.put hholds hcapacity h.made h.queued

/-- The worker counts something. -/
theorem bump
    (h : Loaded v capacity count seen w jobs)
    (counter : Counter) :
    ∃ t, w.scheduler.bump v counter = .ok (t, ()) ∧
      Loaded v capacity count seen { w with scheduler := t } jobs := by
  obtain ⟨place, hplace, -⟩ := h.deque
  exact ⟨_, Scheduler.bump_of_place hplace counter, h.put_same hplace rfl⟩

/-- A job is pushed, if there is a slot for it. -/
theorem push
    (h : Loaded v capacity count seen w jobs)
    (hjob : job < w.bodies.size)
    (hseen : job < count → job ∈ seen) :
    (∃ t, w.scheduler.push v job = .ok (t, .ok ()) ∧
        Loaded v capacity count seen { w with scheduler := t } (jobs ++ [job])) ∨
      ∃ t, w.scheduler.push v job = .ok (t, .error (.dequeOverflow capacity)) := by
  obtain ⟨place, hplace, hholds, rfl⟩ := h.deque
  by_cases hroom : place.deque.bottom.toNat < place.deque.capacity
  · obtain ⟨d, hpush, hafter, hsame, -⟩ := hholds.push_of_lt hroom job
    refine .inl ⟨_, Scheduler.onDeque_of_ok hplace hpush, h.put hafter hsame ?_ ?_⟩
    · intro k hk
      rcases List.mem_append.mp hk with hold | hnew
      · exact h.made k hold
      · exact List.mem_singleton.mp hnew ▸ hjob
    · intro k hk hlt
      rcases List.mem_append.mp hk with hold | hnew
      · exact h.queued k hold hlt
      · rw [List.mem_singleton] at hnew
        subst hnew
        exact hseen hlt
  · exact .inr ⟨_, Scheduler.onDeque_of_ok hplace (Deque.push_of_not_lt hroom job)⟩

/-- The newest job is popped, if the deque can be put back to its first slot. -/
theorem pop
    (h : Loaded v capacity count seen w (jobs ++ [job])) :
    (∃ t, w.scheduler.pop v = .ok (t, some job) ∧
        Loaded v capacity count seen { w with scheduler := t } jobs) ∨
      w.scheduler.pop v = .error (.error .tagExhausted) := by
  obtain ⟨place, hplace, hholds, rfl⟩ := h.deque
  rcases hholds.pop_concat with ⟨d, hpop, hafter, hsame, -⟩ | ⟨-, -, hfail⟩
  · refine .inl ⟨_, Scheduler.onDeque_of_ok hplace hpop, h.put hafter hsame ?_ ?_⟩
    · exact fun k hk => h.made k (List.mem_append_left _ hk)
    · exact fun k hk => h.queued k (List.mem_append_left _ hk)
  · exact .inr (Scheduler.onDeque_of_error hplace hfail)

/-- Something is noted about a job, which nobody takes by that. -/
theorem mark
    (h : Loaded v capacity count seen w jobs)
    (job : JobId) {change : JobFlags → JobFlags}
    (hchange : ∀ flags, (change flags).taken = flags.taken) :
    Loaded v capacity count seen { w with toMemory := w.setFlags job change } jobs := by
  have hsame := isTaken_mark (w := w) job hchange
  refine ⟨h.deque, h.cooperative, Array.size_modify.trans h.flags, h.count_le, h.made, h.queued,
    fun k hk htaken => h.taken k hk ?_, fun k hk hnot => h.named k hk ?_⟩
  · exact (hsame k).symm.trans htaken
  · exact (hsame k).symm.trans hnot

/-- A job is taken that was seen before. -/
theorem take
    (h : Loaded v capacity count seen w jobs)
    (hjob : job < w.flags.size)
    (hseen : job < count → job ∈ seen) :
    Loaded v capacity count seen
      { w with toMemory := w.setFlags job fun flags => { flags with taken := true } } jobs := by
  have htake := isTaken_take hjob
  refine ⟨h.deque, h.cooperative, Array.size_modify.trans h.flags, h.count_le, h.made, h.queued,
    fun k hk htaken => ?_, fun k hk hnot => h.named k hk ?_⟩
  · by_cases hsame : job = k
    · subst hsame
      exact hseen hk
    · refine h.taken k hk ?_
      rw [← htaken, htake k, if_neg hsame]
  · by_cases hsame : job = k
    · rw [htake k, if_pos hsame] at hnot
      cases hnot
    · rwa [htake k, if_neg hsame] at hnot

/-- A fork makes a job of its right branch. -/
theorem addJob
    (h : Loaded v capacity count seen w jobs)
    (body : JobId → Code) :
    Loaded v capacity count seen (w.addJob body).1 jobs := by
  have hsame := isTaken_addJob w body
  have hsize : (w.addJob body).1.bodies.size = w.bodies.size + 1 := Array.size_push _
  refine ⟨h.deque, h.cooperative, ?_, ?_, ?_, h.queued, fun k hk htaken => ?_, fun k hk hnot => ?_⟩
  · rw [hsize, ← h.flags]
    exact Array.size_push _
  · rw [hsize]
    exact Nat.le_succ_of_le h.count_le
  · intro k hk
    rw [hsize]
    exact Nat.lt_succ_of_lt (h.made k hk)
  · exact h.taken k hk ((hsame k).symm.trans htaken)
  · obtain ⟨code, hbody, hloose⟩ := h.named k hk ((hsame k).symm.trans hnot)
    exact ⟨code, (conserves_addJob [] body h.flags (by simp)).bodies k _ hbody, hloose⟩

end Loaded
end ForkJoin
end WorkStealing
