import WorkStealing.Proofs.Machine.Leads
import WorkStealing.Proofs.Scheduler.Lanes
import WorkStealing.Proofs.Victim.Permutation

/-!
# The search for a victim

A worker loop that has found its own deque empty aims at one deque after another,
as the number of the attempt tells it, and goes on to do so until it gets a job
or is told to end. When only one deque holds a job, the loop comes to that job as
soon as an attempt is aimed there (`Leads.hunt`).
-/

namespace WorkStealing
namespace Scheduler

/-- The number of the next steal attempt made from a place. -/
def attempts (s : Scheduler) (i : Nat) : UInt64 :=
  ((s.places[i]?).map Place.attempts).getD 0

variable {s t : Scheduler} {capacity : Nat} {lanes : Nat → Lane} {i : Nat}

/-- A change at one place that leaves the attempts made from there as they are. -/
theorem attempts_atPlace
    {β : Type} {j : Nat} {change : Place → Except Failure (Place × β)} {answer : β}
    (h : s.atPlace j change = .ok (t, answer))
    (hkeep : ∀ place next other, change place = .ok (next, other) →
      next.attempts = place.attempts)
    (i : Nat) :
    t.attempts i = s.attempts i := by
  obtain ⟨place, next, hplace, hchange, rfl⟩ := exists_of_atPlace h
  by_cases hi : i = j
  · subst hi
    rw [attempts, attempts, place_put_self hplace, hplace]
    exact hkeep place next answer hchange
  · rw [attempts, attempts, place_put_ne hi]

theorem attempts_bump
    {j : Nat} {counter : Counter}
    (h : s.bump j counter = .ok (t, ()))
    (i : Nat) :
    t.attempts i = s.attempts i := by
  refine attempts_atPlace h ?_ i
  intro place next other hnext
  cases hnext
  rfl

theorem attempts_steal
    {j : Nat} {answer : Option JobId}
    (h : s.steal j = .ok (t, answer))
    (i : Nat) :
    t.attempts i = s.attempts i := by
  refine attempts_atPlace h ?_ i
  intro place next other hnext
  cases hsteal : place.deque.steal with
  | mk deque outcome =>
      rw [hsteal] at hnext
      cases outcome with
      | error cause =>
          cases hnext
      | ok result =>
          cases hnext
          rfl

/-- What is read is the number of the next attempt. -/
theorem attempts_loadAttempt
    {attempt : UInt64}
    (h : s.loadAttempt i = .ok (t, attempt)) :
    attempt = s.attempts i ∧ t.attempts i = s.attempts i := by
  have hkeep : t.attempts i = s.attempts i := by
    refine attempts_atPlace h ?_ i
    intro place next other hnext
    cases hnext
    rfl
  refine ⟨?_, hkeep⟩
  obtain ⟨place, next, hplace, hnext, -⟩ := exists_of_atPlace h
  cases hnext
  rw [attempts, hplace]
  rfl

/-- What is written is the number of the next attempt. -/
theorem attempts_storeAttempt
    {attempt : UInt64}
    (h : s.storeAttempt i attempt = .ok (t, ())) :
    t.attempts i = attempt := by
  obtain ⟨place, next, hplace, hnext, rfl⟩ := exists_of_atPlace h
  cases hnext
  rw [attempts, place_put_self hplace]
  rfl

/-- The victim depends on the number of deques only. -/
theorem Keeps.victim
    (h : s.Keeps t)
    (worker : Nat) (attempt : UInt64) :
    t.victim worker attempt = s.victim worker attempt := by
  rw [Scheduler.victim, Scheduler.victim, h.dequeCount]

/-- An attempt whose mix adds up to zero with that of the worker is aimed at the first deque. -/
theorem exists_victim_zero
    (hpos : 0 < s.dequeCount)
    (hword : s.dequeCount < UInt64.size)
    {worker : Nat} {wanted : UInt32}
    (hmix : Victim.mix (UInt64.ofNat worker).toUInt32 + Victim.mix wanted = 0) :
    ∃ more : Nat, s.victim worker (s.attempts worker + UInt64.ofNat more) = .ok 0 := by
  obtain ⟨more, -, hmore⟩ := Victim.exists_attempt_eq (s.attempts worker) wanted
  have hzero : UInt64.ofNat s.dequeCount ≠ 0 := by
    intro heq
    have hcount : (UInt64.ofNat s.dequeCount).toNat = s.dequeCount := by
      rw [UInt64.toNat_ofNat']
      exact Nat.mod_eq_of_lt hword
    rw [heq] at hcount
    exact Nat.ne_of_gt hpos hcount.symm
  refine ⟨more, ?_⟩
  rw [victim, Victim.choose, if_neg hzero, hmore, hmix]
  simp [Except.map]

end Scheduler

namespace Machine

/-- Where a loop is after a steal that has given this, with so many attempts left. -/
def LoopPoint.afterSteal (left : Nat) : Option JobId → LoopPoint
  | some job => .stolen job
  | none => .trial left

namespace Leads

open Function (update)

variable (identity : Option Nat) {w : World} {capacity v : Nat} {lanes : Nat → Lane}

/-- One attempt: the loop reads the number of the attempt and advances it, and steals where the
attempt is aimed. -/
theorem attempt
    (hfollows : w.scheduler.Follows capacity lanes)
    (hv : v < w.scheduler.dequeCount)
    {target : Nat}
    (htarget : target < w.scheduler.dequeCount)
    (hvictim : w.scheduler.victim v (w.scheduler.attempts v) = .ok target)
    (stop : Stop) (evaluations left : Nat) (below : List Frame) :
    ∃ t, w.scheduler.Keeps t ∧
      t.Follows capacity (update lanes target (lanes target).steal) ∧
      t.attempts v = w.scheduler.attempts v + 1 ∧
      Leads identity w (.loop (.aim left) v stop evaluations :: below) { w with scheduler := t }
        (.loop (.afterSteal left (lanes target).jobs.head?) v stop evaluations :: below) := by
  obtain ⟨t, attempt, hload, hfollows, hkeeps⟩ := hfollows.loadAttempt hv
  obtain ⟨hattempt, -⟩ := Scheduler.attempts_loadAttempt hload
  rw [← hkeeps.dequeCount] at hv htarget
  rw [← hattempt, ← hkeeps.victim] at hvictim
  rw [← hattempt]
  obtain ⟨u, hstore, hfollows, hkeepsStore⟩ := hfollows.storeAttempt hv (attempt + 1)
  have hadvanced := Scheduler.attempts_storeAttempt hstore
  rw [← hkeepsStore.dequeCount] at hv htarget
  rw [← hkeepsStore.victim] at hvictim
  obtain ⟨x, hbump, hfollows, hkeepsBump⟩ := hfollows.bump hv .stealAttempts
  rw [← hkeepsBump.dequeCount] at htarget
  obtain ⟨y, hsteal, hfollows, hkeepsSteal⟩ := hfollows.steal htarget
  refine ⟨y, hkeeps.trans (hkeepsStore.trans (hkeepsBump.trans hkeepsSteal)), hfollows, ?_, ?_⟩
  · rw [Scheduler.attempts_steal hsteal, Scheduler.attempts_bump hbump, hadvanced]
  have hfirst : Frame.step w identity (.loop (.aim left) v stop evaluations) =
      .go { w with scheduler := t } identity
        [.loop (.advance left attempt) v stop evaluations] := by
    rw [Frame.step, LoopPoint.step, w.schedule_of_ok (·.loadAttempt v) _ hload]
  have hsecond : Frame.step { w with scheduler := t } identity
      (.loop (.advance left attempt) v stop evaluations) =
      .go { w with scheduler := u } identity [.loop (.count left target) v stop evaluations] := by
    rw [Frame.step, LoopPoint.step,
      World.schedule_of_ok _ (·.storeAttempt v (attempt + 1)) _ hstore]
    simp only [hvictim]
  have hthird : Frame.step { w with scheduler := u } identity
      (.loop (.count left target) v stop evaluations) =
      .go { w with scheduler := x } identity [.loop (.steal left target) v stop evaluations] := by
    rw [Frame.step, LoopPoint.step, World.schedule_of_ok _ (·.bump v .stealAttempts) _ hbump]
  have hfourth : Frame.step { w with scheduler := x } identity
      (.loop (.steal left target) v stop evaluations) =
      .go { w with scheduler := y } identity
        [.loop (.afterSteal left (lanes target).jobs.head?) v stop evaluations] := by
    rw [Frame.step, LoopPoint.step, World.schedule_of_ok _ (·.steal target) _ hsteal]
    cases (lanes target).jobs.head? <;> rfl
  exact .step hfirst (.step hsecond (.step hthird (.single hfourth)))

/-- A round without success ends with a pause, after which the next attempt is made all the same. -/
theorem exists_trial
    (hfollows : w.scheduler.Follows capacity lanes)
    (hv : v < w.scheduler.dequeCount)
    (htrials : 0 < w.scheduler.stealTrials)
    (stop : Stop) (evaluations left : Nat) (below : List Frame) :
    ∃ t count, w.scheduler.Keeps t ∧ t.Follows capacity lanes ∧
      t.attempts v = w.scheduler.attempts v ∧
      Leads identity w (.loop (.trial left) v stop evaluations :: below)
        { w with scheduler := t } (.loop (.trial (count + 1)) v stop evaluations :: below) := by
  cases left with
  | succ left =>
      exact ⟨w.scheduler, left, .refl _, hfollows, rfl, .refl _ _⟩
  | zero =>
      obtain ⟨t, hbump, hfollows, hkeeps⟩ := hfollows.bump hv .idleSleeps
      obtain ⟨count, hcount⟩ := Nat.exists_eq_succ_of_ne_zero (Nat.ne_of_gt htrials)
      have hmove : Frame.step w identity (.loop (.trial 0) v stop evaluations) =
          .go { w with scheduler := t } identity
            [.loop (.trial (count + 1)) v stop evaluations] := by
        rw [Frame.step, LoopPoint.step, w.schedule_of_ok (·.bump v .idleSleeps) _ hbump]
        simp only [hkeeps.stealTrials, hcount]
      exact ⟨t, count, hkeeps, hfollows, Scheduler.attempts_bump hbump v, .single hmove⟩

/-- A loop that is not told to end makes its next attempt. -/
theorem exists_attempt
    (hfollows : w.scheduler.Follows capacity lanes)
    (hv : v < w.scheduler.dequeCount)
    (hfinished : w.scheduler.finished = false)
    (htrials : 0 < w.scheduler.stealTrials)
    {target : Nat}
    (htarget : target < w.scheduler.dequeCount)
    (hvictim : w.scheduler.victim v (w.scheduler.attempts v) = .ok target)
    (evaluations left : Nat) (below : List Frame) :
    ∃ t count, w.scheduler.Keeps t ∧
      t.Follows capacity (update lanes target (lanes target).steal) ∧
      t.attempts v = w.scheduler.attempts v + 1 ∧
      Leads identity w (.loop (.trial left) v .finished evaluations :: below)
        { w with scheduler := t }
        (.loop (.afterSteal count (lanes target).jobs.head?) v .finished (evaluations + 1) ::
          below) := by
  obtain ⟨t, count, hkeeps, hfollows, hattempts, htrial⟩ := exists_trial identity
    hfollows hv htrials .finished evaluations left below
  have hmove : Frame.step { w with scheduler := t } identity
      (.loop (.trial (count + 1)) v .finished evaluations) =
      .go { w with scheduler := t } identity
        [.loop (.aim count) v .finished (evaluations + 1)] := by
    have hnot : t.finished = false := hkeeps.finished.trans hfinished
    rw [Frame.step, LoopPoint.step]
    simp only [Stop.holds, hnot]
  rw [← hkeeps.dequeCount] at hv htarget
  rw [← hkeeps.victim, ← hattempts] at hvictim
  obtain ⟨u, hkeepsAttempt, hfollows, hadvanced, hattempt⟩ :=
    attempt identity (w := { w with scheduler := t }) hfollows hv htarget hvictim
      .finished (evaluations + 1) count below
  refine ⟨u, count, hkeeps.trans hkeepsAttempt, hfollows, ?_, htrial.trans (.step hmove hattempt)⟩
  rw [hadvanced, ← hattempts]

/-- A loop that only one deque can give a job to comes to that job when an attempt is aimed at the
deque. The induction is on the number of attempts that are aimed elsewhere before. -/
theorem hunt
    {target : Nat} {job : JobId} (attempts : Nat)
    (hfollows : w.scheduler.Follows capacity lanes)
    (hv : v < w.scheduler.dequeCount)
    (hword : w.scheduler.dequeCount < UInt64.size)
    (hfinished : w.scheduler.finished = false)
    (htrials : 0 < w.scheduler.stealTrials)
    (htarget : target < w.scheduler.dequeCount)
    (hvictim : w.scheduler.victim v (w.scheduler.attempts v + UInt64.ofNat attempts) = .ok target)
    (hjob : (lanes target).jobs.head? = some job)
    (hothers : ∀ u, u ≠ target → (lanes u).jobs = [])
    (evaluations left : Nat) (below : List Frame) :
    ∃ t later, w.scheduler.Keeps t ∧
      t.Follows capacity (update lanes target (lanes target).steal) ∧
      Leads identity w (.loop (.trial left) v .finished evaluations :: below)
        { w with scheduler := t } (.loop (.stolen job) v .finished later :: below) := by
  induction attempts generalizing w evaluations left with
  | zero =>
      rw [show UInt64.ofNat 0 = 0 from rfl, UInt64.add_zero] at hvictim
      obtain ⟨t, count, hkeeps, hfollows, -, hleads⟩ := exists_attempt identity
        hfollows hv hfinished htrials htarget hvictim evaluations left below
      rw [hjob] at hleads
      exact ⟨t, evaluations + 1, hkeeps, hfollows, hleads⟩
  | succ attempts ih =>
      obtain ⟨place, hplace, hin⟩ :=
        Scheduler.exists_victim (Nat.zero_lt_of_lt hv) hword v (w.scheduler.attempts v)
      obtain ⟨t, count, hkeeps, hfollows, hadvanced, hleads⟩ := exists_attempt
        identity hfollows hv hfinished htrials hin hplace evaluations left below
      by_cases hfound : place = target
      · subst hfound
        rw [hjob] at hleads
        exact ⟨t, evaluations + 1, hkeeps, hfollows, hleads⟩
      · have hnil := hothers place hfound
        have hsame : (lanes place).steal = lanes place := by
          rw [Lane.steal, hnil]
        rw [hsame, Function.update_eq_self] at hfollows
        rw [hnil] at hleads
        have hnext : t.victim v (t.attempts v + UInt64.ofNat attempts) = .ok target := by
          rw [hkeeps.victim, hadvanced, UInt64.add_assoc, ← hvictim, UInt64.ofNat_add]
          rw [UInt64.add_comm 1]
          rfl
        obtain ⟨u, later, hkeepsHunt, hfollows, hrest⟩ := ih (w := { w with scheduler := t })
          hfollows (by rw [hkeeps.dequeCount]; exact hv) (by rw [hkeeps.dequeCount]; exact hword)
          (hkeeps.finished.trans hfinished) (by rw [hkeeps.stealTrials]; exact htrials)
          (by rw [hkeeps.dequeCount]; exact htarget) hnext (evaluations + 1) count
        exact ⟨u, later, hkeeps.trans hkeepsHunt, hfollows, hleads.trans hrest⟩

end Leads
end Machine
end WorkStealing
