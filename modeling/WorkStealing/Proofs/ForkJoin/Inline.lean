import WorkStealing.Proofs.Deque.Tags
import WorkStealing.Proofs.ForkJoin.Outline
import WorkStealing.Proofs.Machine.Solo
import WorkStealing.Proofs.Scheduler.Places
import WorkStealing.Proofs.Scheduler.Statistics

/-!
# Forks without thieves

A worker that is alone takes back each right branch that it has pushed. So it runs
strict code in order, as long as there is a slot for the right branch of each fork that
it enters, and gives the process up at the first for which there is none
(`ForkJoin.runs_code`). What it counts meanwhile, and what it does not change, is
`ForkJoin.Strides`.
-/

namespace WorkStealing

namespace Scheduler

variable {s : Scheduler}

/-- The first worker has counted this, and nobody has changed any other place. -/
def Counts (s t : Scheduler) (counted : List Counter) : Prop :=
  ∀ place, s.places[0]? = some place → ∃ other,
    t.places = s.places.setIfInBounds 0 other ∧ other.stats = place.stats.bumps counted

namespace Counts

variable {t : Scheduler} {counted : List Counter}

/-- No place was changed. -/
theorem of_eq
    (hplaces : t.places = s.places) :
    s.Counts t [] :=
  fun place hplace => ⟨place, hplaces.trans (set_place_self hplace).symm, rfl⟩

theorem trans
    {u : Scheduler} {more : List Counter}
    (h : s.Counts t counted)
    (hnext : t.Counts u more) :
    s.Counts u (counted ++ more) := by
  intro place hplace
  obtain ⟨middle, hplaces, hstats⟩ := h place hplace
  have hmiddle : t.places[0]? = some middle := by
    rw [hplaces]
    exact Array.getElem?_setIfInBounds_self_of_lt (Array.getElem?_eq_some_iff.mp hplace).1
  obtain ⟨other, hlast, hmore⟩ := hnext middle hmiddle
  refine ⟨other, ?_, ?_⟩
  · rw [hlast, hplaces, Array.setIfInBounds_setIfInBounds]
  · rw [hmore, hstats, Stats.bumps, Stats.bumps, Stats.bumps, List.foldl_append]

/-- What was counted is counted in the sum, if the counter does not leave its word. -/
theorem total
    (h : s.Counts t counted)
    (hdeques : 0 < s.dequeCount)
    {counter : Counter}
    (hfits : s.total counter + counted.count counter < UInt64.size) :
    t.total counter = s.total counter + counted.count counter := by
  obtain ⟨place, hplace⟩ := Scheduler.exists_place hdeques
  obtain ⟨other, hplaces, hstats⟩ := h place hplace
  have hput := total_put hplace other counter
  have hle := Scheduler.le_total hplace counter
  have hvalue : (other.stats.get counter).toNat =
      (place.stats.get counter).toNat + counted.count counter := by
    rw [hstats, Stats.get_bumps, UInt64.toNat_add, UInt64.toNat_ofNat', Nat.add_mod_mod]
    exact Nat.mod_eq_of_lt (Nat.lt_of_le_of_lt (Nat.add_le_add_right hle _) hfits)
  have htotal : t.total counter = (s.put 0 other).total counter := by
    rw [Scheduler.total, Scheduler.total, put, hplaces]
  omega

end Counts

end Scheduler

/-- How often something is counted for a fork whose right branch is taken back. -/
def Counter.perFork : Counter → Nat
  | .jobsSpawned => 1
  | .localPops => 1
  | .inlineJoins => 1
  | _ => 0

namespace ForkJoin

open Machine (Frame World System)

/-- The deque of the first worker holds these jobs from its first slot on, and has so many tags
left. -/
structure Holding (w : World) (capacity : Nat) (jobs : List JobId) (spare : Nat) : Prop where
  place : ∃ place, w.scheduler.places[0]? = some place ∧ place.deque.Follows ⟨0, jobs⟩ ∧
    place.deque.capacity = capacity ∧ place.deque.age.tag.toNat + spare < UInt32.size
  flags : w.flags.size = w.bodies.size

/-- The second world comes after the first one, in which the first worker has counted this, and has
changed nothing of the scheduler but its own place. -/
structure Strides (w next : World) (counted : List Counter) : Prop where
  counts : w.scheduler.Counts next.scheduler counted
  keeps : w.scheduler.Keeps next.scheduler
  /-- What is known of the jobs that there were stays. -/
  jobs : ∀ job, job < w.bodies.size →
    next.bodies[job]? = w.bodies[job]? ∧ next.flags[job]? = w.flags[job]?
  grows : w.bodies.size ≤ next.bodies.size
  style : next.style = w.style
  tracing : next.tracing = w.tracing
  transcript : ∃ events, next.transcript.toList = w.transcript.toList ++ events

namespace Strides

variable {w next last : World} {counted more : List Counter}

/-- Nothing of the scheduler and of the jobs has changed. -/
theorem of_eq
    (hscheduler : next.scheduler = w.scheduler)
    (hbodies : next.bodies = w.bodies)
    (hflags : next.flags = w.flags)
    (hstyle : next.style = w.style)
    (htracing : next.tracing = w.tracing)
    (htranscript : ∃ events, next.transcript.toList = w.transcript.toList ++ events) :
    Strides w next [] := by
  refine ⟨.of_eq (congrArg Scheduler.places hscheduler), hscheduler ▸ .refl _, fun job _ => ?_,
    Nat.le_of_eq (congrArg Array.size hbodies.symm), hstyle, htracing, htranscript⟩
  rw [hbodies, hflags]
  exact ⟨rfl, rfl⟩

theorem trans
    (h : Strides w next counted)
    (hnext : Strides next last more) :
    Strides w last (counted ++ more) := by
  refine ⟨h.counts.trans hnext.counts, h.keeps.trans hnext.keeps, fun job hjob => ?_,
    Nat.le_trans h.grows hnext.grows, hnext.style.trans h.style,
    hnext.tracing.trans h.tracing, ?_⟩
  · obtain ⟨hbodies, hflags⟩ := h.jobs job hjob
    obtain ⟨hbodiesAfter, hflagsAfter⟩ := hnext.jobs job (Nat.lt_of_lt_of_le hjob h.grows)
    exact ⟨hbodiesAfter.trans hbodies, hflagsAfter.trans hflags⟩
  · obtain ⟨events, hevents⟩ := h.transcript
    obtain ⟨others, hothers⟩ := hnext.transcript
    exact ⟨events ++ others, by rw [hothers, hevents, List.append_assoc]⟩

/-- The flags of a job that was not there at first do not matter. -/
theorem setFlags
    (h : Strides w next counted)
    {job : JobId}
    (hjob : w.bodies.size ≤ job)
    (change : JobFlags → JobFlags) :
    Strides w { next with toMemory := next.setFlags job change } counted := by
  refine ⟨h.counts, h.keeps, fun k hk => ⟨(h.jobs k hk).1, ?_⟩, h.grows, h.style, h.tracing,
    h.transcript⟩
  rw [← (h.jobs k hk).2]
  exact Array.getElem?_modify.trans (if_neg (Nat.ne_of_gt (Nat.lt_of_lt_of_le hk hjob)))

/-- A job more was made. -/
theorem addJob
    (w : World) (body : JobId → Code)
    (hflags : w.flags.size = w.bodies.size) :
    Strides w (w.addJob body).1 [] := by
  refine ⟨.of_eq rfl, .refl _, fun job hjob => ⟨?_, ?_⟩, ?_, rfl, rfl,
    ⟨[], (List.append_nil _).symm⟩⟩
  · exact Array.getElem?_push.trans (if_neg (Nat.ne_of_lt hjob))
  · refine Array.getElem?_push.trans (if_neg ?_)
    rw [hflags]
    exact Nat.ne_of_lt hjob
  · show w.bodies.size ≤ (w.bodies.push _).size
    rw [Array.size_push]
    exact Nat.le_succ _

/-- The first worker has changed its own place. -/
theorem schedule
    {place other : Place}
    (hplace : w.scheduler.places[0]? = some place)
    (hstats : other.stats = place.stats.bumps counted) :
    Strides w { w with scheduler := w.scheduler.put 0 other } counted := by
  refine ⟨fun one hone => ⟨other, rfl, ?_⟩, .put _ 0 other, fun _ _ => ⟨rfl, rfl⟩, Nat.le_refl _,
    rfl, rfl, ⟨[], (List.append_nil _).symm⟩⟩
  cases hplace.symm.trans hone
  exact hstats

end Strides

namespace Holding

variable {w : World} {capacity spare : Nat} {jobs : List JobId}

theorem deques_pos
    (h : Holding w capacity jobs spare) :
    0 < w.scheduler.dequeCount := by
  obtain ⟨place, hplace, -⟩ := h.place
  exact (Array.getElem?_eq_some_iff.mp hplace).1

theorem workerOf
    (h : Holding w capacity jobs spare) :
    w.scheduler.workerOf (some 0) = some 0 :=
  Scheduler.workerOf_of_lt h.deques_pos

/-- Neither the scheduler nor the number of jobs has changed. -/
theorem of_eq
    (h : Holding w capacity jobs spare)
    {next : World}
    (hscheduler : next.scheduler = w.scheduler)
    (hflags : next.flags.size = next.bodies.size) :
    Holding next capacity jobs spare := by
  refine ⟨?_, hflags⟩
  rw [hscheduler]
  exact h.place

theorem setFlags
    (h : Holding w capacity jobs spare)
    (job : JobId) (change : JobFlags → JobFlags) :
    Holding { w with toMemory := w.setFlags job change } capacity jobs spare :=
  h.of_eq rfl (Array.size_modify.trans h.flags)

/-- The place of the first worker was changed. -/
theorem put
    (h : Holding w capacity jobs spare)
    {other : Place} {more : List JobId} {less : Nat}
    (hdeque : other.deque.Follows ⟨0, more⟩)
    (hcapacity : other.deque.capacity = capacity)
    (htag : other.deque.age.tag.toNat + less < UInt32.size) :
    Holding { w with scheduler := w.scheduler.put 0 other } capacity more less :=
  ⟨⟨other, Array.getElem?_setIfInBounds_self_of_lt h.deques_pos, hdeque, hcapacity, htag⟩, h.flags⟩

theorem push
    (h : Holding w capacity jobs spare)
    (hroom : jobs.length < capacity)
    (job : JobId) :
    ∃ t, w.scheduler.push 0 job = .ok (t, .ok ()) ∧
      Holding { w with scheduler := t } capacity (jobs ++ [job]) spare ∧
      Strides w { w with scheduler := t } [] := by
  obtain ⟨place, hplace, hdeque, hcapacity, htag⟩ := h.place
  have hbottom : Lane.bottom ⟨0, jobs⟩ < place.deque.capacity := by
    rw [hcapacity, Lane.bottom, Nat.zero_add]
    exact hroom
  obtain ⟨d, hpush, hafter, hsame, hage⟩ := hdeque.push_of_lt hbottom job
  refine ⟨_, Scheduler.onDeque_of_ok hplace hpush, h.put hafter (hsame.trans hcapacity) ?_,
    .schedule hplace rfl⟩
  rw [hage]
  exact htag

/-- There is no slot for another job. -/
theorem push_full
    (h : Holding w capacity jobs spare)
    (hfull : ¬ jobs.length < capacity)
    (job : JobId) :
    ∃ t, w.scheduler.push 0 job = .ok (t, .error (.dequeOverflow capacity)) := by
  obtain ⟨place, hplace, hdeque, hcapacity, -⟩ := h.place
  have hbottom : ¬ place.deque.bottom.toNat < place.deque.capacity := by
    rw [hdeque.bottom_eq, hcapacity, Lane.bottom, Nat.zero_add]
    exact hfull
  have hpush := Deque.push_of_not_lt hbottom job
  rw [hcapacity] at hpush
  exact ⟨_, Scheduler.onDeque_of_ok hplace hpush⟩

theorem pop
    {job : JobId}
    (h : Holding w capacity (jobs ++ [job]) (spare + 1)) :
    ∃ t, w.scheduler.pop 0 = .ok (t, some job) ∧
      Holding { w with scheduler := t } capacity jobs spare ∧
      Strides w { w with scheduler := t } [] := by
  obtain ⟨place, hplace, hdeque, hcapacity, htag⟩ := h.place
  rcases hdeque.pop with ⟨d, hpop, hafter, hsame⟩ | ⟨-, hnone, -⟩
  · rw [List.getLast?_concat] at hpop
    have hlane : Lane.pop ⟨0, jobs ++ [job]⟩ = ⟨0, jobs⟩ := by
      rw [Lane.pop, List.dropLast_concat]
      split <;> rfl
    rw [hlane] at hafter
    refine ⟨_, Scheduler.onDeque_of_ok hplace hpop, h.put hafter (hsame.trans hcapacity) ?_,
      .schedule hplace rfl⟩
    have hle := Deque.tag_pop hpop
    show d.age.tag.toNat + spare < UInt32.size
    omega
  · rw [Age.restarted?_eq_none] at hnone
    omega

theorem bump
    (h : Holding w capacity jobs spare)
    (counter : Counter) :
    ∃ t, w.scheduler.bump 0 counter = .ok (t, ()) ∧
      Holding { w with scheduler := t } capacity jobs spare ∧
      Strides w { w with scheduler := t } [counter] := by
  obtain ⟨place, hplace, hdeque, hcapacity, htag⟩ := h.place
  exact ⟨_, Scheduler.bump_of_place hplace counter, h.put hdeque hcapacity htag,
    .schedule hplace rfl⟩

end Holding

/-- A job that was made for the right branch of a fork, and that nobody has taken. -/
structure Waiting (w : World) (job : JobId) (body : Code) : Prop where
  flags : w.flags[job]? = some {}
  body : w.bodies[job]? = some body

theorem Waiting.lt
    {w : World} {job : JobId} {body : Code}
    (h : Waiting w job body) :
    job < w.bodies.size :=
  (Array.getElem?_eq_some_iff.mp h.body).1

/-- A job that waits goes on to do so while others are made and run. -/
theorem Strides.waiting
    {w next : World} {counted : List Counter} {job : JobId} {body : Code}
    (h : Strides w next counted)
    (hwaiting : Waiting w job body) :
    Waiting next job body := by
  obtain ⟨hbodies, hflags⟩ := h.jobs job hwaiting.lt
  exact ⟨hflags.trans hwaiting.flags, hbodies.trans hwaiting.body⟩

section Steps

variable {w : World} {capacity spare : Nat} {jobs : List JobId} {job : JobId}
  {left right rest : Code} {below : List Frame}

/-- The worker counts something. -/
theorem comes_bump
    (h : Holding w capacity jobs spare)
    (frame : Frame) (frames : List Frame) {counter : Counter}
    (hstep : Frame.step w (some 0) frame =
      w.schedule (·.bump 0 counter) fun next _ => .go next (some 0) frames)
    (haction : frame.action? = none) :
    ∃ next, System.Comes (.solo w (frame :: below) (some 0)) []
        (.solo next (frames ++ below) (some 0)) ∧
      Strides w next [counter] ∧ Holding next capacity jobs spare := by
  obtain ⟨t, hbump, hholding, hstrides⟩ := h.bump counter
  rw [w.schedule_of_ok (·.bump 0 counter) _ hbump] at hstep
  exact ⟨_, .next_step hstep haction (.refl _), hstrides, hholding⟩

/-- The job of the right branch is made. -/
theorem comes_fork
    (left right rest : Code) (below : List Frame)
    (h : Holding w capacity jobs spare) :
    ∃ next, System.Comes (.solo w (.perform (.fork left right :: rest) :: below) (some 0)) []
        (.solo next (.fork .publish 0 w.bodies.size left :: .perform rest :: below) (some 0)) ∧
      Strides w next [] ∧ Holding next capacity jobs spare ∧
      Waiting next w.bodies.size (Action.branchBody w.bodies.size right) := by
  have hstep : Frame.step w (some 0) (.perform (.fork left right :: rest)) =
      .go (w.addJob fun job => Action.branchBody job right).1 (some 0)
        [.fork .publish 0 w.bodies.size left, .perform rest] := by
    rw [Frame.step, Machine.Action.step, h.workerOf]
    rfl
  refine ⟨_, .next_step hstep rfl (.refl _), .addJob w _ h.flags, h.of_eq rfl ?_, ?_,
    Array.getElem?_push_size⟩
  · rw [World.addJob]
    simp only [Array.size_push, h.flags]
  · rw [← h.flags]
    exact Array.getElem?_push_size

/-- The right branch is pushed when there is a slot for it. -/
theorem comes_publish
    (job : JobId) (left : Code) (below : List Frame)
    (h : Holding w capacity jobs spare)
    (hroom : jobs.length < capacity) :
    ∃ next, System.Comes (.solo w (.fork .publish 0 job left :: below) (some 0)) []
        (.solo next (.fork .published 0 job left :: below) (some 0)) ∧
      Strides w next [] ∧ Holding next capacity (jobs ++ [job]) spare := by
  obtain ⟨t, hpush, hholding, hstrides⟩ := h.push hroom job
  have hstep : Frame.step w (some 0) (.fork .publish 0 job left) =
      .go { w with scheduler := t } (some 0) [.fork .published 0 job left] := by
    rw [Frame.step, Machine.ForkPoint.step, w.schedule_of_ok (·.push 0 job) _ hpush]
    rfl
  exact ⟨_, .next_step hstep rfl (.refl _), hstrides, hholding⟩

/-- The process is given up when there is no slot for the right branch. -/
theorem aborts_publish
    (job : JobId) (left : Code) (below : List Frame)
    (h : Holding w capacity jobs spare)
    (hfull : ¬ jobs.length < capacity) :
    ∃ t, System.Comes (.solo w (.fork .publish 0 job left :: below) (some 0)) [] t ∧
      t.aborted = some (.dequeOverflow capacity) := by
  obtain ⟨t, hpush⟩ := h.push_full hfull job
  have hstep : Frame.step w (some 0) (.fork .publish 0 job left) =
      .fail { w with scheduler := t } (.error (.dequeOverflow capacity)) := by
    rw [Frame.step, Machine.ForkPoint.step, w.schedule_of_ok (·.push 0 job) _ hpush]
    rfl
  exact System.Comes.abort hstep

/-- The left branch has ended, and nobody has started the right one: it is popped. -/
theorem comes_reclaimed
    (h : Holding w capacity (jobs ++ [job]) (spare + 1))
    (hwaiting : Waiting w job (Action.branchBody job right)) :
    ∃ next, System.Comes (.solo w (.perform [] :: .fork .check 0 job [] :: below) (some 0)) []
        (.solo next (.fork (.reclaimed job) 0 job [] :: below) (some 0)) ∧
      Strides w next [] ∧ Holding next capacity jobs spare := by
  obtain ⟨t, hpop, hholding, hstrides⟩ := h.pop
  have hend : Frame.step w (some 0) (.perform []) = .go w (some 0) [] := rfl
  have hcheck : Frame.step w (some 0) (.fork .check 0 job []) =
      .go w (some 0) [.fork .reclaim 0 job []] := by
    have hstarted : w.isStarted job = false := by
      rw [Memory.isStarted, hwaiting.flags]
    rw [Frame.step, Machine.ForkPoint.step, hstarted]
    rfl
  have hreclaim : Frame.step w (some 0) (.fork .reclaim 0 job []) =
      .go { w with scheduler := t } (some 0) [.fork (.reclaimed job) 0 job []] := by
    rw [Frame.step, Machine.ForkPoint.step, w.schedule_of_ok (·.pop 0) _ hpop]
  exact ⟨_, .next_step hend rfl (.next_step hcheck rfl (.next_step hreclaim rfl (.refl _))),
    hstrides, hholding⟩

/-- The right branch is begun. -/
theorem comes_right
    (hwaiting : Waiting w job (Action.branchBody job right)) :
    ∃ next, System.Comes (.solo w (.execute job :: below) (some 0)) []
        (.solo next (.perform (right ++ [.complete job]) :: .guarded job :: below) (some 0)) ∧
      (∀ base counted, Strides base w counted → base.bodies.size ≤ job →
        Strides base next counted) ∧
      (∀ jobs spare, Holding w capacity jobs spare → Holding next capacity jobs spare) := by
  have hexecute : Frame.step w (some 0) (.execute job) =
      .go { w with toMemory := w.setFlags job fun flags => { flags with taken := true } } (some 0)
        [.perform (Action.branchBody job right), .guarded job] := by
    rw [Frame.step, hwaiting.flags, hwaiting.body]
    rfl
  refine ⟨_, .next_step hexecute rfl (.next_step rfl rfl (.refl _)), fun base counted h hjob => ?_,
    fun jobs spare h => ?_⟩
  · exact (h.setFlags hjob _).setFlags hjob _
  · exact (h.setFlags job _).setFlags job _

/-- The right branch has ended, and so has the fork. -/
theorem comes_closing
    (w : World) (capacity : Nat) (job : JobId) (below : List Frame) :
    ∃ next, System.Comes
        (.solo w (.perform [.complete job] :: .guarded job :: .fork .closing 0 job [] :: below)
          (some 0)) []
        (.solo next below (some 0)) ∧
      (∀ base counted, Strides base w counted → base.bodies.size ≤ job →
        Strides base next counted) ∧
      (∀ jobs spare, Holding w capacity jobs spare → Holding next capacity jobs spare) := by
  refine ⟨_, .next_step rfl rfl (.next_step rfl rfl (.next_step rfl rfl (.next_step rfl rfl
    (.refl _)))), fun base counted h hjob => h.setFlags hjob _, fun jobs spare h => ?_⟩
  exact h.setFlags job _

/-- A fork for whose right branch there is a slot comes to its left branch. -/
theorem comes_left
    (left right rest : Code) (below : List Frame)
    (h : Holding w capacity jobs spare)
    (hroom : jobs.length < capacity) :
    ∃ next, System.Comes (.solo w (.perform (.fork left right :: rest) :: below) (some 0)) []
        (.solo next (.perform left :: .fork .check 0 w.bodies.size [] :: .perform rest :: below)
          (some 0)) ∧
      Strides w next [.jobsSpawned] ∧ Holding next capacity (jobs ++ [w.bodies.size]) spare ∧
      Waiting next w.bodies.size (Action.branchBody w.bodies.size right) := by
  obtain ⟨v₁, hfork, hmade, hholding, hwaiting⟩ := comes_fork left right rest below h
  obtain ⟨v₂, hpublish, hpushed, hholding⟩ := comes_publish _ left _ hholding hroom
  obtain ⟨v₃, hcount, hcounted, hholding⟩ := comes_bump hholding
    (.fork .published 0 w.bodies.size left) [.perform left, .fork .check 0 w.bodies.size []] rfl rfl
  exact ⟨v₃, (hfork.trans hpublish).trans hcount, (hmade.trans hpushed).trans hcounted, hholding,
    (hpushed.trans hcounted).waiting hwaiting⟩

/-- After its left branch a fork comes to its right one, which it has popped. -/
theorem comes_between
    (below : List Frame)
    (h : Holding w capacity (jobs ++ [job]) (spare + 1))
    (hwaiting : Waiting w job (Action.branchBody job right)) :
    ∃ next, System.Comes (.solo w (.perform [] :: .fork .check 0 job [] :: below) (some 0)) []
        (.solo next
          (.perform (right ++ [.complete job]) :: .guarded job :: .fork .closing 0 job [] :: below)
          (some 0)) ∧
      (∀ base counted, Strides base w counted → base.bodies.size ≤ job →
        Strides base next (counted ++ [.localPops, .inlineJoins])) ∧
      Holding next capacity jobs spare := by
  obtain ⟨v₁, hreclaim, hpopped, hholding⟩ := comes_reclaimed h hwaiting
  have hmine : Frame.step v₁ (some 0) (.fork (.reclaimed job) 0 job []) =
      v₁.schedule (·.bump 0 .localPops) fun next _ =>
        .go next (some 0) [.fork .inlineJoin 0 job []] := by
    rw [Frame.step, Machine.ForkPoint.step]
    simp only [if_pos]
  obtain ⟨v₂, hpop, hpops, hholding⟩ := comes_bump hholding _ _ hmine rfl
  obtain ⟨v₃, hjoin, hjoins, hholding⟩ := comes_bump hholding (.fork .inlineJoin 0 job [])
    [.execute job, .fork .closing 0 job []] rfl rfl
  have hcounted := (hpopped.trans hpops).trans hjoins
  obtain ⟨v₄, hright, hstrides, hkeeps⟩ := comes_right (hcounted.waiting hwaiting)
  exact ⟨v₄, ((hreclaim.trans hpop).trans hjoin).trans hright,
    fun base counted hbase hjob => hstrides base _ (hbase.trans hcounted) hjob,
    hkeeps _ _ hholding⟩

/-- A plain action is performed. -/
theorem comes_plain
    (action : Action) (rest : Code) (below : List Frame)
    (h : Holding w capacity jobs spare)
    (hplain : action.isPlain = true) :
    ∃ next, System.Comes (.solo w (.perform (action :: rest) :: below) (some 0)) [action]
        (.solo next (.perform rest :: below) (some 0)) ∧
      Strides w next [] ∧ Holding next capacity jobs spare := by
  cases action with
  | log label =>
      exact ⟨_, .plain rfl rfl, .of_eq rfl rfl rfl rfl rfl ⟨[_], Array.toList_push⟩,
        h.of_eq rfl h.flags⟩
  | store cell constant sources =>
      exact ⟨_, .plain rfl rfl, .of_eq rfl rfl rfl rfl rfl ⟨[], (List.append_nil _).symm⟩,
        h.of_eq rfl h.flags⟩
  | _ =>
      cases hplain

end Steps

/-- The worker does what these marks say: it comes to their end if there is a slot for each fork
that is entered, else to the first fork for which there is none. -/
inductive Executes (capacity : Nat) (jobs : List JobId) (spare : Nat) (w : World) (s : System)
    (marks : List Mark) (finish : World → System) : Prop where
  | through {next : World} {counted : List Counter}
      (hcomes : System.Comes s (Mark.actions marks) (finish next))
      (hfits : marks.all (Mark.fits capacity) = true)
      (hstrides : Strides w next counted)
      (hcounted : ∀ counter, counted.count counter = Mark.entries marks * counter.perFork)
      (hholding : Holding next capacity jobs spare) :
      Executes capacity jobs spare w s marks finish
  | overflows {t : System}
      (hcomes : System.Comes s (Mark.actions (Mark.fitting capacity marks)) t)
      (hover : ¬ marks.all (Mark.fits capacity) = true)
      (haborted : t.aborted = some (.dequeOverflow capacity)) :
      Executes capacity jobs spare w s marks finish

namespace Executes

variable {capacity spare : Nat} {jobs : List JobId} {w : World} {s : System}
  {first second : List Mark} {middle finish : World → System}

/-- Some marks after others. -/
theorem append
    (h : Executes capacity jobs (spare + Mark.entries second) w s first middle)
    (hnext : ∀ next, Holding next capacity jobs (spare + Mark.entries second) →
      Executes capacity jobs spare next (middle next) second finish) :
    Executes capacity jobs spare w s (first ++ second) finish := by
  cases h with
  | through hcomes hfits hstrides hcounted hholding =>
      cases hnext _ hholding with
      | through hcomesNext hfitsNext hstridesNext hcountedNext hholdingNext =>
          refine .through ?_ ?_ (hstrides.trans hstridesNext) (fun counter => ?_) hholdingNext
          · rw [Mark.actions_append]
            exact hcomes.trans hcomesNext
          · rw [List.all_append, hfits, hfitsNext]
            rfl
          · rw [List.count_append, hcounted, hcountedNext, Mark.entries_append, Nat.add_mul]
      | overflows hcomesNext hover haborted =>
          refine .overflows ?_ (fun hall => hover ?_) haborted
          · rw [Mark.fitting_append_of_all hfits, Mark.actions_append]
            exact hcomes.trans hcomesNext
          · rw [List.all_append, Bool.and_eq_true] at hall
            exact hall.2
  | overflows hcomes hover haborted =>
      refine .overflows ?_ (fun hall => hover ?_) haborted
      · rw [Mark.fitting_append_of_not_all hover]
        exact hcomes
      · rw [List.all_append, Bool.and_eq_true] at hall
        exact hall.1

end Executes

/-- Code is executed wherever it stands, if there are tags for its forks. -/
def Runs (capacity : Nat) (code : Code) : Prop :=
  ∀ {w : World} {jobs : List JobId} (spare : Nat) (rest : Code) (below : List Frame),
    Holding w capacity jobs (spare + Mark.entries (Code.marks jobs.length code)) →
    jobs.length ≤ capacity →
    Executes capacity jobs spare w (.solo w (.perform (code ++ rest) :: below) (some 0))
      (Code.marks jobs.length code) fun next => .solo next (.perform rest :: below) (some 0)

/-- Both branches of a fork are executed, the left one first. -/
theorem executes_fork
    {capacity spare : Nat} {jobs : List JobId} {w : World} {left right rest : Code}
    {below : List Frame}
    (h : Holding w capacity jobs
      (spare + Mark.entries (Action.marks jobs.length (.fork left right))))
    (hroom : jobs.length ≤ capacity)
    (hleft : Runs capacity left)
    (hright : Runs capacity right) :
    Executes capacity jobs spare w (.solo w (.perform (.fork left right :: rest) :: below) (some 0))
      (Action.marks jobs.length (.fork left right))
      fun next => .solo next (.perform rest :: below) (some 0) := by
  rw [Action.marks] at h ⊢
  by_cases hslot : jobs.length < capacity
  · have hfits : (Mark.enter jobs.length).fits capacity = true := decide_eq_true hslot
    have hlength : (jobs ++ [w.bodies.size]).length = jobs.length + 1 := List.length_append
    obtain ⟨v₁, hentered, hstrides, hholding, hwaiting⟩ := comes_left left right rest below h hslot
    have hbudget : spare + Mark.entries (.enter jobs.length ::
        (Code.marks (jobs.length + 1) left ++ Code.marks jobs.length right)) =
        spare + Mark.entries (Code.marks jobs.length right) + 1 +
          Mark.entries (Code.marks (jobs.length + 1) left) := by
      rw [Mark.entries_enter, Mark.entries_append]
      omega
    rw [hbudget, ← hlength] at hholding
    have hexecuted := hleft _ [] (.fork .check 0 w.bodies.size [] :: .perform rest :: below)
      hholding (by rw [hlength]; exact hslot)
    rw [List.append_nil, hlength] at hexecuted
    cases hexecuted with
    | overflows hcomes hover haborted =>
        refine .overflows ?_ (fun hall => hover ?_) haborted
        · rw [Mark.fitting, List.takeWhile_cons_of_pos hfits, Mark.actions_enter, ← Mark.fitting,
            Mark.fitting_append_of_not_all hover]
          exact hentered.trans hcomes
        · rw [List.all_cons, List.all_append, Bool.and_eq_true, Bool.and_eq_true] at hall
          exact hall.2.1
    | @through v₂ countedLeft hcomes hfitsLeft hstridesLeft hcountedLeft hholding =>
        obtain ⟨v₃, hbetween, hstridesBetween, hholding⟩ :=
          comes_between (.perform rest :: below) hholding (hstridesLeft.waiting hwaiting)
        have hthird := hstridesBetween w _ (hstrides.trans hstridesLeft) (Nat.le_refl _)
        have hbefore := (hentered.trans hcomes).trans hbetween
        rw [List.append_nil] at hbefore
        cases hright spare [.complete w.bodies.size]
          (.guarded w.bodies.size :: .fork .closing 0 w.bodies.size [] :: .perform rest :: below)
          hholding hroom with
        | overflows hcomesRight hover haborted =>
            refine .overflows ?_ (fun hall => hover ?_) haborted
            · rw [Mark.fitting, List.takeWhile_cons_of_pos hfits, Mark.actions_enter,
                ← Mark.fitting, Mark.fitting_append_of_all hfitsLeft, Mark.actions_append]
              exact hbefore.trans hcomesRight
            · rw [List.all_cons, List.all_append, Bool.and_eq_true, Bool.and_eq_true] at hall
              exact hall.2.2
        | @through v₄ countedRight hcomesRight hfitsRight hstridesRight hcountedRight hholding =>
            obtain ⟨v₅, hclosing, hstridesClosing, hkeeps⟩ :=
              comes_closing v₄ capacity w.bodies.size (.perform rest :: below)
            have hlast := hstridesClosing w _ (hthird.trans hstridesRight) (Nat.le_refl _)
            have hwhole := (hbefore.trans hcomesRight).trans hclosing
            rw [List.append_nil] at hwhole
            refine .through ?_ ?_ hlast (fun counter => ?_) (hkeeps _ _ hholding)
            · rw [Mark.actions_enter, Mark.actions_append]
              exact hwhole
            · rw [List.all_cons, List.all_append, hfits, hfitsLeft, hfitsRight]
              rfl
            · have hown : List.count counter [.jobsSpawned] +
                  List.count counter [.localPops, .inlineJoins] = counter.perFork := by
                cases counter <;> rfl
              rw [List.count_append, List.count_append, List.count_append, hcountedLeft,
                hcountedRight, Mark.entries_enter, Mark.entries_append, Nat.add_mul, Nat.add_mul,
                Nat.one_mul]
              omega
  · have hover : ¬ (Mark.enter jobs.length).fits capacity = true := by
      rw [Mark.fits, decide_eq_true_iff]
      exact hslot
    obtain ⟨v, hfork, -, hholding, -⟩ := comes_fork left right rest below h
    obtain ⟨t, hcomes, haborted⟩ := aborts_publish _ left (.perform rest :: below) hholding hslot
    refine .overflows ?_ (fun hall => hover ?_) haborted
    · rw [Mark.fitting, List.takeWhile_cons_of_neg hover]
      exact hfork.trans hcomes
    · rw [List.all_cons, Bool.and_eq_true] at hall
      exact hall.1

mutual

/-- A strict action is executed wherever it stands, if there are tags for its forks. -/
theorem executes_action
    {capacity spare : Nat} {jobs : List JobId} {w : World}
    (action : Action)
    (hstrict : Action.within Action.isPlain action = true)
    (rest : Code) (below : List Frame)
    (h : Holding w capacity jobs (spare + Mark.entries (Action.marks jobs.length action)))
    (hroom : jobs.length ≤ capacity) :
    Executes capacity jobs spare w (.solo w (.perform (action :: rest) :: below) (some 0))
      (Action.marks jobs.length action)
      fun next => .solo next (.perform rest :: below) (some 0) := by
  cases action with
  | fork left right =>
      rw [Action.within, Bool.and_eq_true] at hstrict
      exact executes_fork h hroom (runs_code left hstrict.1) (runs_code right hstrict.2)
  | log label =>
      obtain ⟨next, hcomes, hstrides, hholding⟩ := comes_plain (.log label) rest below h rfl
      exact .through hcomes rfl hstrides (fun _ => (Nat.zero_mul _).symm) hholding
  | store cell constant sources =>
      obtain ⟨next, hcomes, hstrides, hholding⟩ :=
        comes_plain (.store cell constant sources) rest below h rfl
      exact .through hcomes rfl hstrides (fun _ => (Nat.zero_mul _).symm) hholding
  | _ =>
      cases hstrict

/-- Strict code is executed wherever it stands, if there are tags for its forks. -/
theorem runs_code
    {capacity : Nat}
    (code : List Action)
    (hstrict : Code.within Action.isPlain code = true) :
    Runs capacity code := by
  intro w jobs spare rest below h hroom
  cases code with
  | nil =>
      exact .through (.refl _) rfl
        (.of_eq rfl rfl rfl rfl rfl ⟨[], (List.append_nil _).symm⟩)
        (fun _ => (Nat.zero_mul _).symm) h
  | cons action more =>
      rw [Code.within, Bool.and_eq_true] at hstrict
      rw [Code.marks, Mark.entries_append, Nat.add_comm (Mark.entries _), ← Nat.add_assoc] at h
      rw [Code.marks, List.cons_append]
      exact (executes_action action hstrict.1 (more ++ rest) below h hroom).append
        fun next hnext => runs_code more hstrict.2 spare rest below hnext hroom

end

end ForkJoin
end WorkStealing
