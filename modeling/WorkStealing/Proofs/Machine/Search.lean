import Mathlib.Data.Nat.Find
import WorkStealing.Proofs.Deque.Sequential
import WorkStealing.Proofs.Machine.Leads
import WorkStealing.Proofs.Scheduler.Places
import WorkStealing.Proofs.Victim.Permutation

/-!
# The search for a job

A worker that looks for a job while nobody else acts finds one if there is one. From its
own deque it takes the newest job. Else it tries one deque after another, as the number
of the attempt tells it, and takes the oldest job of the first one that is not empty.
After a number of failed attempts only the worker's own place has changed, and how is
known from that number (`Place.searched`), so that the whole search is an induction on
it. It ends because the victims of 2^32 attempts in a row are all deques.
-/

namespace WorkStealing

namespace Deque

variable {α : Type} {d : Deque α} {jobs : List α}

/-- The second deque is the first one put back to its first slot while it is empty, under the next
tag unless it was there before. -/
structure Emptied (d e : Deque α) : Prop where
  holds : e.Holds []
  bottom : e.bottom = 0
  top : e.age.top = 0
  tag : e.age.tag.toNat = d.age.tag.toNat + if d.bottom = 0 then 0 else 1
  slots : e.slots = d.slots
  capacity : e.capacity = d.capacity

namespace Holds

/-- A pop from an empty deque puts it back to its first slot. -/
theorem pop_emptied
    (h : d.Holds [])
    (htag : d.age.restarted? ≠ none) :
    ∃ e, d.pop = (e, .ok none) ∧ d.Emptied e := by
  by_cases hzero : d.bottom = 0
  · have hends : d.bottom.toNat = d.age.top.toNat := h.bottom_eq
    have htop : d.age.top = 0 := by
      rw [← UInt32.toNat_inj, ← hends, hzero]
    refine ⟨d, ?_, h, hzero, htop, by rw [if_pos hzero]; rfl, rfl, rfl⟩
    rw [Deque.pop, Routine.pop, Routine.run, if_pos hzero]
    rfl
  · obtain ⟨fresh, hfresh⟩ := Option.ne_none_iff_exists'.mp htag
    obtain ⟨htagNext, htop⟩ := Age.restarted?_eq_some.mp hfresh
    obtain ⟨hnil, hage⟩ := restarted d htop
    have hpop := h.pop_of_few (Nat.zero_le 1) hzero
    rw [hfresh] at hpop
    exact ⟨_, hpop, hnil, rfl, by rw [hage, htop], by rw [hage, if_neg hzero, htagNext], rfl, rfl⟩

/-- A pop takes the newest job, if the deque can be put back to its first slot. -/
theorem pop_newest
    {job : α}
    (h : d.Holds jobs)
    (hjob : jobs.getLast? = some job)
    (htag : d.age.restarted? ≠ none) :
    ∃ e, d.pop = (e, .ok (some job)) ∧ e.Holds jobs.dropLast ∧ e.capacity = d.capacity := by
  obtain ⟨rest, rfl⟩ := List.getLast?_eq_some_iff.mp hjob
  rw [List.dropLast_concat]
  obtain ⟨e, hpop, hrest, hcapacity, -⟩ | ⟨-, hnone, -⟩ := h.pop_concat
  · exact ⟨e, hpop, hrest, hcapacity⟩
  · exact absurd hnone htag

end Holds
end Deque

/-- The place of a worker after so many failed attempts, with as many attempts in a round. -/
def Place.searched (place : Place) (trials misses : Nat) : Place :=
  { place with
    attempts := place.attempts + .ofNat misses
    stats :=
      { place.stats with
        stealAttempts := place.stats.stealAttempts + .ofNat misses
        idleSleeps := place.stats.idleSleeps + .ofNat (misses / trials) } }

/-- A round goes on with another attempt. -/
theorem round_goes_on
    {trials misses : Nat}
    (h : misses % trials + 1 < trials) :
    (misses + 1) / trials = misses / trials ∧ (misses + 1) % trials = misses % trials + 1 := by
  rw [Nat.div_mod_unique (Nat.zero_lt_of_lt h)]
  have hmisses := Nat.mod_add_div misses trials
  omega

/-- A round ends with its last attempt. -/
theorem round_ends
    {trials misses : Nat}
    (h : misses % trials + 1 = trials) :
    (misses + 1) / trials = misses / trials + 1 ∧ (misses + 1) % trials = 0 := by
  rw [Nat.div_mod_unique (Nat.lt_of_lt_of_eq (Nat.succ_pos _) h)]
  have hmisses := Nat.mod_add_div misses trials
  rw [Nat.mul_add]
  omega

/-- A word advances with the number that is added to it. -/
theorem add_ofNat_succ
    (word : UInt64) (n : Nat) :
    word + .ofNat (n + 1) = word + .ofNat n + 1 := by
  rw [UInt64.ofNat_add, ← UInt64.add_assoc]
  rfl

namespace Place

def aimed (place : Place) : Place :=
  { place with attempts := place.attempts + 1, stats := place.stats.bump .stealAttempts }

theorem searched_zero
    (place : Place) (trials : Nat) :
    place.searched trials 0 = place := by
  simp [searched]

/-- Another attempt has failed within a round. -/
theorem aimed_searched
    {trials misses : Nat}
    (hround : (misses + 1) / trials = misses / trials)
    (place : Place) :
    (place.searched trials misses).aimed = place.searched trials (misses + 1) := by
  simp only [searched, aimed, hround, add_ofNat_succ]
  rfl

/-- Another attempt has failed, and the round has ended with a pause. -/
theorem aimed_searched_round
    {trials misses : Nat}
    (hround : (misses + 1) / trials = misses / trials + 1)
    (place : Place) :
    { (place.searched trials misses).aimed with
        stats := (place.searched trials misses).aimed.stats.bump .idleSleeps } =
      place.searched trials (misses + 1) := by
  simp only [searched, aimed, hround, add_ofNat_succ]
  rfl

/-- The attempt after so many failed ones has succeeded. -/
theorem aimed_searched_stolen
    (place : Place) (trials misses : Nat) :
    { (place.searched trials misses).aimed with
        stats := (place.searched trials misses).aimed.stats.bump .steals } =
      { place with
        attempts := place.attempts + .ofNat (misses + 1)
        stats :=
          { place.stats with
            stealAttempts := place.stats.stealAttempts + .ofNat (misses + 1)
            steals := place.stats.steals + 1
            idleSleeps := place.stats.idleSleeps + .ofNat (misses / trials) } } := by
  simp only [searched, aimed, add_ofNat_succ]
  rfl

end Place

namespace Scheduler

variable {s : Scheduler} {id i : Nat} {place : Place}

/-- There is a deque of that number, and it is empty. -/
def Bare (s : Scheduler) (i : Nat) : Prop :=
  ∃ place, s.places[i]? = some place ∧ place.deque.Holds []

/-- An empty deque stays one when its place, or another one, is given an empty deque. -/
theorem Bare.put
    (h : s.Bare i)
    (id : Nat) (place : Place)
    (hplace : place.deque.Holds []) :
    (s.put id place).Bare i := by
  obtain ⟨other, hother, hnil⟩ := h
  by_cases hi : i = id
  · subst hi
    exact ⟨place, place_put_self hother place, hplace⟩
  · exact ⟨other, (place_put_ne hi s place).trans hother, hnil⟩

theorem Bare.steal_eq
    (h : s.Bare i) :
    s.steal i = .ok (s, none) := by
  obtain ⟨place, hplace, hnil⟩ := h
  rw [steal, onDeque_of_ok hplace hnil.steal_nil, put_self hplace]

/-- What the search for a job starts from: each deque holds the jobs that are said to be in it, and
there is a job. -/
structure Stocked (s : Scheduler) (contents : Nat → List JobId) : Prop where
  holds : ∀ (i : Nat) (place : Place), s.places[i]? = some place → place.deque.Holds (contents i)
  few : s.dequeCount ≤ UInt32.size
  rounds : s.config.stealRoundsPerDeque ≠ 0
  trials : s.stealTrials = s.config.stealRoundsPerDeque.toNat * s.dequeCount
  filled : ∃ i < s.dequeCount, contents i ≠ []

namespace Stocked

variable {contents : Nat → List JobId}

theorem trials_pos
    (h : s.Stocked contents) :
    0 < s.stealTrials := by
  obtain ⟨i, hi, -⟩ := h.filled
  have hrounds : s.config.stealRoundsPerDeque.toNat ≠ 0 :=
    fun hzero => h.rounds (UInt64.toNat_inj.mp hzero)
  rw [h.trials]
  exact Nat.mul_pos (Nat.pos_of_ne_zero hrounds) (Nat.zero_lt_of_lt hi)

theorem toNat_dequeCount
    (h : s.Stocked contents) :
    (UInt64.ofNat s.dequeCount).toNat = s.dequeCount := by
  rw [UInt64.toNat_ofNat']
  exact Nat.mod_eq_of_lt (Nat.lt_of_le_of_lt h.few (by decide))

/-- An attempt is aimed at a deque, of which it is known what it holds. -/
theorem exists_victim
    (h : s.Stocked contents)
    (worker : Nat) (attempt : UInt64) :
    ∃ target place, s.victim worker attempt = .ok target ∧ s.places[target]? = some place ∧
      place.deque.Holds (contents target) := by
  obtain ⟨i, hi, -⟩ := h.filled
  have hzero : UInt64.ofNat s.dequeCount ≠ 0 := by
    intro heq
    have hcount := h.toNat_dequeCount
    rw [heq] at hcount
    exact Nat.ne_of_gt (Nat.zero_lt_of_lt hi) hcount.symm
  have hvictim : s.victim worker attempt =
      .ok ((Victim.mix (UInt64.ofNat worker).toUInt32 +
        Victim.mix attempt.toUInt32).toUInt64 % UInt64.ofNat s.dequeCount).toNat := by
    rw [victim, Victim.choose, if_neg hzero]
    rfl
  have hin : ((Victim.mix (UInt64.ofNat worker).toUInt32 +
      Victim.mix attempt.toUInt32).toUInt64 % UInt64.ofNat s.dequeCount).toNat < s.places.size := by
    rw [UInt64.toNat_mod, h.toNat_dequeCount]
    exact Nat.mod_lt _ (Nat.zero_lt_of_lt hi)
  exact ⟨_, s.places[_], hvictim, Array.getElem?_eq_getElem hin,
    h.holds _ _ (Array.getElem?_eq_getElem hin)⟩

/-- One of 2^32 attempts in a row is aimed at a deque that is not empty. -/
theorem exists_filled
    (h : s.Stocked contents)
    (worker : Nat) (attempt : UInt64) :
    ∃ misses < UInt32.size, ∃ target,
      s.victim worker (attempt + .ofNat misses) = .ok target ∧ contents target ≠ [] := by
  obtain ⟨i, hi, hfilled⟩ := h.filled
  have htarget : (UInt64.ofNat i).toNat = i := by
    rw [UInt64.toNat_ofNat']
    exact Nat.mod_eq_of_lt (Nat.lt_trans hi (Nat.lt_of_le_of_lt h.few (by decide)))
  have hfew : (UInt64.ofNat s.dequeCount).toNat ≤ UInt32.size := h.toNat_dequeCount.symm ▸ h.few
  have hin : (UInt64.ofNat i).toNat < (UInt64.ofNat s.dequeCount).toNat := by
    rw [h.toNat_dequeCount, htarget]
    exact hi
  obtain ⟨misses, hmisses, hchoose⟩ := Victim.exists_choose_eq hfew hin (.ofNat worker) attempt
  refine ⟨misses, hmisses, i, ?_, hfilled⟩
  rw [victim, hchoose]
  exact congrArg Except.ok htarget

/-- There is a first attempt that is aimed at a deque that is not empty. -/
theorem exists_first_filled
    (h : s.Stocked contents)
    (worker : Nat) (attempt : UInt64) :
    ∃ misses < UInt32.size,
      (∃ target, s.victim worker (attempt + .ofNat misses) = .ok target ∧ contents target ≠ []) ∧
      ∀ i < misses, ∃ earlier,
        s.victim worker (attempt + .ofNat i) = .ok earlier ∧ contents earlier = [] := by
  classical
  obtain ⟨bound, hbound, hfilled⟩ := h.exists_filled worker attempt
  have hsome : ∃ misses, ∃ target,
      s.victim worker (attempt + .ofNat misses) = .ok target ∧ contents target ≠ [] :=
    ⟨bound, hfilled⟩
  refine ⟨Nat.find hsome, Nat.lt_of_le_of_lt (Nat.find_min' hsome hfilled) hbound,
    Nat.find_spec hsome, fun i hi => ?_⟩
  obtain ⟨earlier, -, hvictim, -⟩ := h.exists_victim worker (attempt + .ofNat i)
  refine ⟨earlier, hvictim, ?_⟩
  by_contra hnot
  exact Nat.find_min hsome hi ⟨earlier, hvictim, hnot⟩

end Stocked

/-- The scheduler when a worker at this place has found its own deque empty, and so many attempts
have failed. -/
def searched (s : Scheduler) (id : Nat) (place : Place) (misses : Nat) : Scheduler :=
  s.put id (Place.searched { place with deque := place.deque.pop.1 } s.stealTrials misses)

/-- What a search leads to: the job that is found, the scheduler then, and the number of times that
the worker has asked whether to end. -/
inductive Finds (s : Scheduler) (contents : Nat → List JobId) (id : Nat) (place : Place) :
    JobId → Scheduler → Nat → Prop where
  /-- The newest job of the worker's own deque. -/
  | own {job : JobId} {deque : Deque JobId}
      (hjob : (contents id).getLast? = some job)
      (hpop : place.deque.pop = (deque, .ok (some job)))
      (hrest : deque.Holds (contents id).dropLast) :
      Finds s contents id place job
        (s.put id
          { place with
            deque
            stats := { place.stats with localPops := place.stats.localPops + 1 } })
        1
  /-- The oldest job of the first victim that has one. -/
  | other {job : JobId} {misses target : Nat} {deque taken : Deque JobId} {robbed : Place}
      (hown : contents id = [])
      (hemptied : place.deque.Emptied deque)
      (hmisses : misses < UInt32.size)
      (hvictim : s.victim id (place.attempts + .ofNat misses) = .ok target)
      (hleast : ∀ i < misses, ∃ earlier,
        s.victim id (place.attempts + .ofNat i) = .ok earlier ∧ contents earlier = [])
      (hrobbed : s.places[target]? = some robbed)
      (hjob : (contents target).head? = some job)
      (hsteal : robbed.deque.steal = (taken, .ok (some job)))
      (hrest : taken.Holds (contents target).tail) :
      Finds s contents id place job
        ((s.put target { robbed with deque := taken }).put id
          { deque
            attempts := place.attempts + .ofNat (misses + 1)
            stats :=
              { place.stats with
                stealAttempts := place.stats.stealAttempts + .ofNat (misses + 1)
                steals := place.stats.steals + 1
                idleSleeps := place.stats.idleSleeps +
                  .ofNat (misses / (s.config.stealRoundsPerDeque.toNat * s.dequeCount)) } })
        (misses + 2)

end Scheduler

namespace Machine

/-- The loop is not told to end while its worker searches: neither when it starts, nor after any
number of failed attempts. -/
structure Stop.StaysOff (stop : Stop) (w : World) (id : Nat) (place : Place)
    (evaluations : Nat) : Prop where
  first : stop.holds (evaluations + 1) w.toMemory = .ok false
  later : ∀ misses, stop.holds (evaluations + 2 + misses)
    { w.toMemory with scheduler := w.scheduler.searched id place misses } = .ok false

/-!
### The points of a loop

What a loop does at one point, where the place of its worker or the answer of the
scheduler is known.
-/

section Points

variable {w : World} {place : Place}
variable (identity : Option Nat) (id : Nat) (stop : Stop) (evaluations : Nat)

/-- A loop that is not told to end looks into its own deque. -/
theorem step_poll
    (hstop : stop.holds (evaluations + 1) w.toMemory = .ok false) :
    Frame.step w identity (.loop .poll id stop evaluations) =
      .go w identity [.loop .pop id stop (evaluations + 1)] := by
  rw [Frame.step, LoopPoint.step]
  simp only [hstop]

/-- A loop that is not told to end makes another attempt. -/
theorem step_trial
    (hstop : stop.holds (evaluations + 1) w.toMemory = .ok false)
    (left : Nat) :
    Frame.step w identity (.loop (.trial (left + 1)) id stop evaluations) =
      .go w identity [.loop (.aim left) id stop (evaluations + 1)] := by
  rw [Frame.step, LoopPoint.step]
  simp only [hstop]

theorem step_pop_some
    {deque : Deque JobId} {job : JobId}
    (hplace : w.scheduler.places[id]? = some place)
    (hpop : place.deque.pop = (deque, .ok (some job))) :
    Frame.step w identity (.loop .pop id stop evaluations) =
      .go { w with scheduler := w.scheduler.put id { place with deque } } identity
        [.loop (.popped job) id stop evaluations] := by
  rw [Frame.step, LoopPoint.step, w.schedule_of_ok (·.pop id) _
    (Scheduler.onDeque_of_ok hplace hpop)]

theorem step_pop_none
    {deque : Deque JobId}
    (hplace : w.scheduler.places[id]? = some place)
    (hpop : place.deque.pop = (deque, .ok none)) :
    Frame.step w identity (.loop .pop id stop evaluations) =
      .go { w with scheduler := w.scheduler.put id { place with deque } } identity
        [.loop (.trial w.scheduler.stealTrials) id stop evaluations] := by
  rw [Frame.step, LoopPoint.step, w.schedule_of_ok (·.pop id) _
    (Scheduler.onDeque_of_ok hplace hpop)]
  rfl

theorem step_popped
    (hplace : w.scheduler.places[id]? = some place)
    (job : JobId) :
    Frame.step w identity (.loop (.popped job) id stop evaluations) =
      .go { w with scheduler :=
          w.scheduler.put id { place with stats := place.stats.bump .localPops } } identity
        [.loop (.dispatch job) id stop evaluations] := by
  rw [Frame.step, LoopPoint.step, w.schedule_of_ok (·.bump id .localPops) _
    (Scheduler.bump_of_place hplace .localPops)]

/-- The pause after a round without success. -/
theorem step_pause
    (hplace : w.scheduler.places[id]? = some place) :
    Frame.step w identity (.loop (.trial 0) id stop evaluations) =
      .go { w with scheduler :=
          w.scheduler.put id { place with stats := place.stats.bump .idleSleeps } } identity
        [.loop (.trial w.scheduler.stealTrials) id stop evaluations] := by
  rw [Frame.step, LoopPoint.step, w.schedule_of_ok (·.bump id .idleSleeps) _
    (Scheduler.bump_of_place hplace .idleSleeps)]
  rfl

theorem step_aim
    (hplace : w.scheduler.places[id]? = some place)
    (left : Nat) :
    Frame.step w identity (.loop (.aim left) id stop evaluations) =
      .go w identity [.loop (.advance left place.attempts) id stop evaluations] := by
  rw [Frame.step, LoopPoint.step, w.schedule_of_ok (·.loadAttempt id) _
    (Scheduler.loadAttempt_of_place hplace)]

theorem step_advance
    {attempt : UInt64} {target : Nat}
    (hplace : w.scheduler.places[id]? = some place)
    (hvictim : w.scheduler.victim id attempt = .ok target)
    (left : Nat) :
    Frame.step w identity (.loop (.advance left attempt) id stop evaluations) =
      .go { w with scheduler := w.scheduler.put id { place with attempts := attempt + 1 } }
        identity [.loop (.count left target) id stop evaluations] := by
  rw [Frame.step, LoopPoint.step, w.schedule_of_ok (·.storeAttempt id (attempt + 1)) _
    (Scheduler.storeAttempt_of_place hplace (attempt + 1))]
  simp only [Scheduler.victim_put, hvictim]

theorem step_count
    (hplace : w.scheduler.places[id]? = some place)
    (left target : Nat) :
    Frame.step w identity (.loop (.count left target) id stop evaluations) =
      .go { w with scheduler :=
          w.scheduler.put id { place with stats := place.stats.bump .stealAttempts } } identity
        [.loop (.steal left target) id stop evaluations] := by
  rw [Frame.step, LoopPoint.step, w.schedule_of_ok (·.bump id .stealAttempts) _
    (Scheduler.bump_of_place hplace .stealAttempts)]

theorem step_steal_some
    {target : Nat} {deque : Deque JobId} {job : JobId}
    (hplace : w.scheduler.places[target]? = some place)
    (hsteal : place.deque.steal = (deque, .ok (some job)))
    (left : Nat) :
    Frame.step w identity (.loop (.steal left target) id stop evaluations) =
      .go { w with scheduler := w.scheduler.put target { place with deque } } identity
        [.loop (.stolen job) id stop evaluations] := by
  rw [Frame.step, LoopPoint.step, w.schedule_of_ok (·.steal target) _
    (Scheduler.onDeque_of_ok hplace hsteal)]

theorem step_steal_bare
    {target : Nat}
    (hbare : w.scheduler.Bare target)
    (left : Nat) :
    Frame.step w identity (.loop (.steal left target) id stop evaluations) =
      .go w identity [.loop (.trial left) id stop evaluations] := by
  rw [Frame.step, LoopPoint.step, w.schedule_of_ok (·.steal target) _ hbare.steal_eq]

theorem step_stolen
    (hplace : w.scheduler.places[id]? = some place)
    (job : JobId) :
    Frame.step w identity (.loop (.stolen job) id stop evaluations) =
      .go { w with scheduler :=
          w.scheduler.put id { place with stats := place.stats.bump .steals } } identity
        [.loop (.dispatch job) id stop evaluations] := by
  rw [Frame.step, LoopPoint.step, w.schedule_of_ok (·.bump id .steals) _
    (Scheduler.bump_of_place hplace .steals)]

end Points

namespace Leads

variable (identity : Option Nat) {w : World} {id : Nat} {place : Place}

/-- An attempt up to the steal. -/
theorem aims
    (hplace : w.scheduler.places[id]? = some place)
    {target : Nat}
    (hvictim : w.scheduler.victim id place.attempts = .ok target)
    {stop : Stop} {evaluations : Nat}
    (hstop : stop.holds (evaluations + 1) w.toMemory = .ok false)
    (left : Nat) (below : List Frame) :
    Leads identity w (.loop (.trial (left + 1)) id stop evaluations :: below)
      { w with scheduler := w.scheduler.put id place.aimed }
      (.loop (.steal left target) id stop (evaluations + 1) :: below) := by
  let stored : Place := { place with attempts := place.attempts + 1 }
  have hstored := Scheduler.place_put_self hplace stored
  have hpoll := step_trial identity id stop evaluations hstop left
  have hload := step_aim identity id stop (evaluations + 1) hplace left
  have hstore := step_advance identity id stop (evaluations + 1) hplace hvictim left
  have hcount := step_count identity id stop (evaluations + 1)
    (w := { w with scheduler := w.scheduler.put id stored }) hstored left target
  rw [Scheduler.put_put] at hcount
  exact .step hpoll (.step hload (.step hstore (.single hcount)))

/-- An attempt that is aimed at an empty deque. -/
theorem goes_by
    (hplace : w.scheduler.places[id]? = some place)
    (hown : place.deque.Holds [])
    {target : Nat}
    (hvictim : w.scheduler.victim id place.attempts = .ok target)
    (hbare : w.scheduler.Bare target)
    {stop : Stop} {evaluations : Nat}
    (hstop : stop.holds (evaluations + 1) w.toMemory = .ok false)
    (left : Nat) (below : List Frame) :
    Leads identity w (.loop (.trial (left + 1)) id stop evaluations :: below)
      { w with scheduler := w.scheduler.put id place.aimed }
      (.loop (.trial left) id stop (evaluations + 1) :: below) := by
  have haims := aims identity hplace hvictim hstop left below
  have hsteal := step_steal_bare identity id stop (evaluations + 1)
    (w := { w with scheduler := w.scheduler.put id place.aimed })
    (hbare.put id place.aimed hown) left
  exact haims.trans (.single hsteal)

/-- So many attempts fail, one after another, with a pause after each round. The induction is on
their number; the trials that are left in the round follow from it. -/
theorem searches
    (hplace : w.scheduler.places[id]? = some place)
    (hown : place.deque.Holds [])
    (htrials : 0 < w.scheduler.stealTrials)
    {stop : Stop} {evaluations : Nat} {misses : Nat}
    (hmiss : ∀ i < misses, ∃ target,
      w.scheduler.victim id (place.attempts + .ofNat i) = .ok target ∧ w.scheduler.Bare target)
    (hstop : ∀ i < misses, stop.holds (evaluations + 1 + i)
      { w.toMemory with scheduler :=
          w.scheduler.put id (place.searched w.scheduler.stealTrials i) } = .ok false)
    (below : List Frame) :
    Leads identity w (.loop (.trial w.scheduler.stealTrials) id stop evaluations :: below)
      { w with scheduler := w.scheduler.put id (place.searched w.scheduler.stealTrials misses) }
      (.loop (.trial (w.scheduler.stealTrials - misses % w.scheduler.stealTrials)) id stop
        (evaluations + misses) :: below) := by
  induction misses with
  | zero =>
      rw [Place.searched_zero, Scheduler.put_self hplace, Nat.zero_mod]
      exact .refl w _
  | succ misses ih =>
      have hbefore := ih (fun i hi => hmiss i (Nat.lt_succ_of_lt hi))
        (fun i hi => hstop i (Nat.lt_succ_of_lt hi))
      obtain ⟨target, hvictim, hbare⟩ := hmiss misses (Nat.lt_succ_self misses)
      have hpoll := hstop misses (Nat.lt_succ_self misses)
      have hsearched := Scheduler.place_put_self hplace
        (place.searched w.scheduler.stealTrials misses)
      have hlt := Nat.mod_lt misses htrials
      obtain ⟨left, hleft⟩ : ∃ left,
          w.scheduler.stealTrials - misses % w.scheduler.stealTrials = left + 1 :=
        ⟨_, (Nat.succ_pred_eq_of_pos (Nat.sub_pos_of_lt hlt)).symm⟩
      rw [hleft] at hbefore
      rw [Nat.add_right_comm] at hpoll
      have hstill := hbare.put id (place.searched w.scheduler.stealTrials misses) hown
      have hpass := goes_by identity
        (w := { w with scheduler :=
          w.scheduler.put id (place.searched w.scheduler.stealTrials misses) }) hsearched hown
        ((w.scheduler.victim_put id _ id _).trans hvictim) hstill hpoll left below
      rw [Scheduler.put_put] at hpass
      refine hbefore.trans (hpass.trans ?_)
      cases left with
      | zero =>
          have hlast : misses % w.scheduler.stealTrials + 1 = w.scheduler.stealTrials := by
            omega
          obtain ⟨hdiv, hmod⟩ := round_ends hlast
          have haimed := Scheduler.place_put_self hplace
            (place.searched w.scheduler.stealTrials misses).aimed
          have hpause := step_pause identity id stop (evaluations + misses + 1)
            (w := { w with scheduler :=
              w.scheduler.put id (place.searched w.scheduler.stealTrials misses).aimed }) haimed
          rw [Scheduler.put_put, Place.aimed_searched_round hdiv] at hpause
          rw [hmod]
          exact .single hpause
      | succ left =>
          have hmore : misses % w.scheduler.stealTrials + 1 < w.scheduler.stealTrials := by
            omega
          obtain ⟨hdiv, hmod⟩ := round_goes_on hmore
          have hnext : w.scheduler.stealTrials - (misses + 1) % w.scheduler.stealTrials =
              left + 1 := by
            omega
          rw [Place.aimed_searched hdiv, hnext]
          exact .refl _ _

/-- An attempt that is aimed at a deque in which there is a job. -/
theorem takes
    (hplace : w.scheduler.places[id]? = some place)
    {target : Nat} {robbed : Place} {taken : Deque JobId} {job : JobId}
    (hvictim : w.scheduler.victim id place.attempts = .ok target)
    (hapart : target ≠ id)
    (hrobbed : w.scheduler.places[target]? = some robbed)
    (hsteal : robbed.deque.steal = (taken, .ok (some job)))
    {stop : Stop} {evaluations : Nat}
    (hstop : stop.holds (evaluations + 1) w.toMemory = .ok false)
    (left : Nat) (below : List Frame) :
    Leads identity w (.loop (.trial (left + 1)) id stop evaluations :: below)
      { w with
        scheduler :=
          (w.scheduler.put target { robbed with deque := taken }).put id
            { place.aimed with stats := place.aimed.stats.bump .steals } }
      (.loop (.dispatch job) id stop (evaluations + 1) :: below) := by
  have hother := (Scheduler.place_put_ne hapart w.scheduler place.aimed).trans hrobbed
  have hown := Scheduler.place_put_self
    ((Scheduler.place_put_ne hapart.symm w.scheduler { robbed with deque := taken }).trans hplace)
    place.aimed
  have haims := aims identity hplace hvictim hstop left below
  have htake := step_steal_some identity id stop (evaluations + 1)
    (w := { w with scheduler := w.scheduler.put id place.aimed }) hother hsteal left
  rw [Scheduler.put_comm hapart.symm] at htake
  have hcount := step_stolen identity id stop (evaluations + 1)
    (w := { w with
      scheduler := (w.scheduler.put target { robbed with deque := taken }).put id place.aimed })
    hown job
  rw [Scheduler.put_put] at hcount
  exact haims.trans (.step htake (.single hcount))

variable {contents : Nat → List JobId}

/-- A worker whose own deque is not empty finds its newest job there. -/
theorem finds_own
    {job : JobId}
    (hplace : w.scheduler.places[id]? = some place)
    (hholds : place.deque.Holds (contents id))
    (hjob : (contents id).getLast? = some job)
    (htag : place.deque.age.restarted? ≠ none)
    {stop : Stop} {evaluations : Nat}
    (hstop : stop.holds (evaluations + 1) w.toMemory = .ok false)
    (below : List Frame) :
    ∃ t, w.scheduler.Finds contents id place job t 1 ∧
      Leads identity w (.loop .poll id stop evaluations :: below) { w with scheduler := t }
        (.loop (.dispatch job) id stop (evaluations + 1) :: below) := by
  obtain ⟨deque, hpop, hrest, -⟩ := hholds.pop_newest hjob htag
  have hpopped := Scheduler.place_put_self hplace { place with deque }
  have hpoll := step_poll identity id stop evaluations hstop
  have htake := step_pop_some identity id stop (evaluations + 1) hplace hpop
  have hcount := step_popped identity id stop (evaluations + 1)
    (w := { w with scheduler := w.scheduler.put id { place with deque } }) hpopped job
  rw [Scheduler.put_put] at hcount
  exact ⟨_, .own hjob hpop hrest, .step hpoll (.step htake (.single hcount))⟩

/-- A worker whose own deque is empty finds the oldest job of the first victim that has one. -/
theorem finds_other
    (hstocked : w.scheduler.Stocked contents)
    (hplace : w.scheduler.places[id]? = some place)
    (hown : contents id = [])
    (htag : place.deque.age.restarted? ≠ none)
    {stop : Stop} {evaluations : Nat}
    (hstop : stop.StaysOff w id place evaluations)
    (below : List Frame) :
    ∃ job t polls, w.scheduler.Finds contents id place job t polls ∧
      Leads identity w (.loop .poll id stop evaluations :: below) { w with scheduler := t }
        (.loop (.dispatch job) id stop (evaluations + polls) :: below) := by
  have hholds := hstocked.holds id place hplace
  rw [hown] at hholds
  obtain ⟨deque, hpop, hemptied⟩ := hholds.pop_emptied htag
  have hfirst : place.deque.pop.1 = deque := congrArg Prod.fst hpop
  let own : Place := { place with deque }
  have hpopped := Scheduler.place_put_self hplace own
  obtain ⟨misses, hmisses, ⟨target, hvictim, hfilled⟩, hleast⟩ :=
    hstocked.exists_first_filled id place.attempts
  have hmiss : ∀ i < misses, ∃ earlier,
      (w.scheduler.put id own).victim id (own.attempts + .ofNat i) = .ok earlier ∧
        (w.scheduler.put id own).Bare earlier := by
    intro i hi
    obtain ⟨earlier, hearlier, hnil⟩ := hleast i hi
    obtain ⟨other, spot, hother, hspot, hspotHolds⟩ :=
      hstocked.exists_victim id (place.attempts + .ofNat i)
    cases hearlier.symm.trans hother
    rw [hnil] at hspotHolds
    exact ⟨earlier, (Scheduler.victim_put ..).trans hearlier,
      Scheduler.Bare.put ⟨spot, hspot, hspotHolds⟩ id own hemptied.holds⟩
  have hpolls : ∀ i, stop.holds (evaluations + 2 + i)
      { w.toMemory with scheduler :=
          w.scheduler.put id (own.searched w.scheduler.stealTrials i) } = .ok false := by
    intro i
    have hlater := hstop.later i
    rw [Scheduler.searched, hfirst] at hlater
    exact hlater
  have hagain : ∀ i < misses, stop.holds (evaluations + 1 + 1 + i)
      { w.toMemory with scheduler :=
          (w.scheduler.put id own).put id (own.searched w.scheduler.stealTrials i) } =
        .ok false := by
    intro i _
    rw [Scheduler.put_put]
    exact hpolls i
  have hsearch := searches identity (w := { w with scheduler := w.scheduler.put id own }) hpopped
    hemptied.holds hstocked.trials_pos hmiss hagain below
  rw [Scheduler.put_put] at hsearch
  obtain ⟨job, rest, hjobs⟩ := List.exists_cons_of_ne_nil hfilled
  obtain ⟨other, robbed, hother, hrobbed, hrobbedHolds⟩ :=
    hstocked.exists_victim id (place.attempts + .ofNat misses)
  cases hvictim.symm.trans hother
  rw [hjobs] at hrobbedHolds
  obtain ⟨taken, hsteal, hrest, -⟩ := hrobbedHolds.steal_cons
  have hapart : target ≠ id := by
    rintro rfl
    exact hfilled hown
  have hlt := Nat.mod_lt misses hstocked.trials_pos
  obtain ⟨left, hleft⟩ : ∃ left,
      w.scheduler.stealTrials - misses % w.scheduler.stealTrials = left + 1 :=
    ⟨_, (Nat.succ_pred_eq_of_pos (Nat.sub_pos_of_lt hlt)).symm⟩
  have hlast := hpolls misses
  rw [show evaluations + 2 + misses = evaluations + 1 + misses + 1 by omega] at hlast
  have htake := takes identity
    (w := { w with scheduler := w.scheduler.put id (own.searched w.scheduler.stealTrials misses) })
    (Scheduler.place_put_self hplace _) ((Scheduler.victim_put ..).trans hvictim) hapart
    ((Scheduler.place_put_ne hapart ..).trans hrobbed) hsteal hlast left below
  rw [Scheduler.put_comm hapart.symm, Scheduler.put_put, Place.aimed_searched_stolen,
    ← hleft, show evaluations + 1 + misses + 1 = evaluations + (misses + 2) by omega] at htake
  have hpoll := step_poll identity id stop evaluations hstop.first
  have hnone := step_pop_none identity id stop (evaluations + 1) hplace hpop
  have hfound := Scheduler.Finds.other hown hemptied hmisses hvictim hleast hrobbed
    (congrArg List.head? hjobs) hsteal (by rw [hjobs]; exact hrest)
  rw [← hstocked.trials] at hfound
  exact ⟨job, _, misses + 2, hfound, .step hpoll (.step hnone (hsearch.trans htake))⟩

/-- A worker that nobody disturbs finds a job if there is one, before it is told to end. -/
theorem search_finds
    (hstocked : w.scheduler.Stocked contents)
    (hplace : w.scheduler.places[id]? = some place)
    (htag : place.deque.age.restarted? ≠ none)
    {stop : Stop} {evaluations : Nat}
    (hstop : stop.StaysOff w id place evaluations)
    (below : List Frame) :
    ∃ job t polls, w.scheduler.Finds contents id place job t polls ∧
      Leads identity w (.loop .poll id stop evaluations :: below) { w with scheduler := t }
        (.loop (.dispatch job) id stop (evaluations + polls) :: below) := by
  cases hjob : (contents id).getLast? with
  | none =>
      have hown := List.getLast?_eq_none_iff.mp hjob
      exact finds_other identity hstocked hplace hown htag hstop below
  | some job =>
      have hholds := hstocked.holds id place hplace
      obtain ⟨t, hfinds, hleads⟩ := finds_own identity hplace hholds hjob htag hstop.first below
      exact ⟨job, t, 1, hfinds, hleads⟩

theorem four_pos :
    0 < 4 := by
  decide

theorem four_le_maxCapacity :
    4 ≤ maxCapacity := by
  decide

/-- A deque with so many jobs, of which none was stolen, and room for four. -/
def shelf (bottom : UInt32) (top : UInt32) : Deque JobId :=
  { capacity := 4
    capacity_pos := four_pos
    capacity_le := four_le_maxCapacity
    ageWord := Age.pack { tag := 0, top }
    bottom
    slots := #[some 5, some 6, some 7, some 8] }

/-- Three deques of a worker who is about to make the last attempt that a word can count. The
deque of the worker is empty, but not at its first slot; only the last deque holds jobs. -/
def searching : World :=
  { scheduler :=
      { config := { maxWorkers := some 1, dequesPerWorker := 3 }
        maxWorkers := 1
        stealTrials := 12
        idleSleep := .ofParts 0 1500
        places :=
          #[{ deque := shelf 2 2, attempts := 18446744073709551615 }, { deque := shelf 0 0 },
            { deque := shelf 4 2 }] } }

def searchingContents (i : Nat) : List JobId :=
  if i = 2 then [7, 8] else []

theorem searching_stocked : searching.scheduler.Stocked searchingContents := by
  refine ⟨fun i place hplace => ?_, by decide, by decide, by decide, ⟨2, by decide, by decide⟩⟩
  match i, hplace with
  | 0, hplace | 1, hplace =>
      cases hplace
      exact ⟨by decide, by decide, trivial⟩
  | 2, hplace =>
      cases hplace
      exact ⟨by decide, by decide, rfl, rfl, trivial⟩

theorem searching_finds :
    searching.scheduler.Stocked searchingContents ∧
    ∃ job t polls,
      searching.scheduler.Finds searchingContents 0
        { deque := shelf 2 2, attempts := 18446744073709551615 } job t polls ∧
      Leads (some 0) searching [.loop .poll 0 .finished 0] { searching with scheduler := t }
        [.loop (.dispatch job) 0 .finished (0 + polls)] :=
  ⟨searching_stocked,
    search_finds (some 0) searching_stocked rfl (by decide) ⟨rfl, fun _ => rfl⟩ []⟩

end Leads
end Machine
end WorkStealing
