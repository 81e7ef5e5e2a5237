import WorkStealing.Proofs.ForkJoin.Simulation
import WorkStealing.Proofs.Machine.Laws

/-!
# The accounts of a crew

Each step of a worker of a crew is fair: what it counts, what it pushes, pops or steals,
and what it owes afterwards agree (`isFair_step`). The one thing that needs the crew is
that a fork that pops a job from its own deque pops its own right branch, so that it
never pushes a job again.
-/

namespace WorkStealing
namespace Machine

variable {w : World} {frame : Frame}

/-- A step by which nothing at the places changes. -/
theorem Fair.of_places
    {next : World} {frames : List Frame} {events : List Event}
    (hcounter : frame.counter? = none)
    (hplaces : next.scheduler.places = w.scheduler.places)
    (htranscript : next.transcript.toList = w.transcript.toList ++ events)
    (heven : ∀ law, frame.Allows frames 0 (events.countP returned) law) :
    Fair w frame next frames := by
  refine .of (fun counter => ?_) ?_ htranscript heven
  · rw [Scheduler.total, Scheduler.total, hplaces, Frame.counts, hcounter]
    rfl
  · rw [Scheduler.load, Scheduler.load, hplaces]
    exact (Int.add_zero _).symm

/-- A step by which nothing at the places changes, and that reports nothing. -/
theorem Fair.quiet
    {next : World} {frames : List Frame}
    (hcounter : frame.counter? = none)
    (hplaces : next.scheduler.places = w.scheduler.places)
    (htranscript : next.transcript = w.transcript)
    (heven : ∀ law, frame.Allows frames 0 0 law) :
    Fair w frame next frames :=
  .of_places hcounter hplaces ((congrArg _ htranscript).trans (List.append_nil _).symm) heven

/-- A step by which nothing changes but the frame. -/
theorem Move.IsFair.of_same
    {identity : Option Nat} {frames : List Frame}
    (hcounter : frame.counter? = none)
    (heven : ∀ law, frame.Allows frames 0 0 law) :
    Move.IsFair w frame (.go w identity frames) :=
  .go (.quiet hcounter rfl rfl heven)

/-- An operation at a place that counts nothing, and that no lane shows. -/
theorem Move.IsFair.of_atPlace
    {β : Type} {change : Place → Except Failure (Place × β)} {answer : β} {t : Scheduler}
    {capacity : Nat} {lanes : Nat → Lane} {place : Nat} {identity : Option Nat}
    {frames : List Frame}
    (hcounter : frame.counter? = none)
    (hoperation : w.scheduler.atPlace place change = .ok (t, answer))
    (hchange : ∀ place next other, change place = .ok (next, other) → next.stats = place.stats)
    (hbefore : w.scheduler.Follows capacity lanes)
    (hafter : t.Follows capacity lanes)
    (heven : ∀ law, frame.Allows frames 0 0 law) :
    Move.IsFair w frame (.go { w with scheduler := t } identity frames) := by
  refine .go (.of (fun counter => ?_) ?_ (List.append_nil _).symm heven)
  · rw [Frame.counts, hcounter]
    exact Scheduler.total_of_atPlace hoperation hchange counter
  · rw [Int.add_zero]
    exact Scheduler.load_of_same hoperation hbefore hafter

/-- An operation of a deque that counts nothing. -/
theorem Move.IsFair.of_onDeque
    {β : Type} {operation : Deque JobId → Deque JobId × Except Failure β} {answer : β}
    {t : Scheduler} {place : Nat} {identity : Option Nat} {frames : List Frame} {n : Int}
    (hcounter : frame.counter? = none)
    (hoperation : w.scheduler.onDeque place operation = .ok (t, answer))
    (hload : t.load = w.scheduler.load + n)
    (heven : ∀ law, frame.Allows frames n 0 law) :
    Move.IsFair w frame (.go { w with scheduler := t } identity frames) := by
  refine .go (.of (fun counter => ?_) hload (List.append_nil _).symm heven)
  rw [Frame.counts, hcounter]
  exact Scheduler.total_of_onDeque hoperation counter

/-- Something is counted. -/
theorem Move.IsFair.bump
    {capacity : Nat} {lanes : Nat → Lane} {place : Nat} {counter : Counter}
    {identity : Option Nat} {frames : World → List Frame}
    (hfollows : w.scheduler.Follows capacity lanes)
    (hplace : place < w.scheduler.dequeCount)
    (hcounter : frame.counter? = some counter)
    (hfits : w.scheduler.total counter + 1 < UInt64.size)
    (heven : ∀ next law, frame.Allows (frames next) 0 0 law) :
    Move.IsFair w frame
      (w.schedule (·.bump place counter) fun next _ => .go next identity (frames next)) := by
  obtain ⟨t, hbump, hafter, -⟩ := hfollows.bump hplace counter
  rw [w.schedule_of_ok (·.bump place counter) _ hbump]
  refine .go (.of (fun other => ?_) ?_ (List.append_nil _).symm (heven _))
  · rw [Frame.counts, hcounter]
    exact Scheduler.total_of_bump hbump hfits other
  · rw [Int.add_zero]
    exact Scheduler.load_of_same hbump hfollows hafter

end Machine

namespace ForkJoin

open Machine (Fair Frame ForkPoint LoopPoint Move Stop World)

variable {thunk : Code} {g : Setting} {v : Nat} {a : Crew} {below : List Call} {w : World}

/-- A loop asks whether to end. -/
theorem isFair_ask
    (stop : Option JobId) (worker : Nat)
    {evaluation : Nat} {frame next : Frame}
    (hcounter : frame.counter? = none)
    (hnext : ∀ law, frame.Allows [next] 0 0 law)
    (hend : ∀ law, frame.Allows [] 0 0 law) :
    Move.IsFair w frame
      (match (Stop.ofJob stop).holds evaluation w.toMemory with
        | .error cause => .fail w (.panic cause)
        | .ok true => .go ((Stop.ofJob stop).leave evaluation worker w) (some v) []
        | .ok false => .go w (some v) [next]) := by
  obtain ⟨holds, hholds⟩ := Stop.exists_holds_ofJob stop evaluation w.toMemory
  rw [hholds]
  cases holds with
  | true =>
      cases stop with
      | none =>
          obtain ⟨events, hevents, hreturns, hscheduler⟩ := w.exists_trace (.leaving worker)
          refine .go (.of_places hcounter (congrArg Scheduler.places hscheduler) hevents ?_)
          rw [hreturns]
          exact hend
      | some job =>
          exact .of_same hcounter hend
  | false =>
      exact .of_same hcounter hnext

theorem isFair_loop_pop
    {stop : Option JobId} {evaluations : Nat}
    (hv : v < g.deques)
    (hbacked : a.Backed g w) :
    Move.IsFair w (.loop .pop v (.ofJob stop) evaluations)
      (LoopPoint.step w (some v) v (.ofJob stop) evaluations .pop) := by
  rw [← hbacked.deques] at hv
  rcases hbacked.follows.pop hv with ⟨t, hpop, hfollows, -⟩ | ⟨-, -, hfail⟩
  · have hload := Scheduler.load_of_atPlace hpop hbacked.follows hfollows
    rw [LoopPoint.step, w.schedule_of_ok (·.pop v) _ hpop]
    rcases List.eq_nil_or_concat (a.lanes v).jobs with hnil | ⟨older, job, hjobs⟩
    · rw [Lane.jobs_pop, hnil] at hload
      rw [hnil]
      refine .of_onDeque (n := 0) rfl hpop ?_ fun law => by cases law <;> rfl
      rw [hload, List.dropLast_nil, List.length_nil]
      omega
    · rw [List.concat_eq_append] at hjobs
      rw [Lane.jobs_pop, hjobs, List.dropLast_concat, List.length_append] at hload
      simp only [hjobs, List.getLast?_concat]
      refine .of_onDeque (n := -1) rfl hpop ?_ fun law => by cases law <;> rfl
      rw [hload, List.length_singleton]
      omega
  · rw [LoopPoint.step, w.schedule_of_error (·.pop v) _ hfail]
    exact .stop (fun _ => rfl) rfl

theorem isFair_loop_steal
    {stop : Option JobId} {evaluations left target : Nat}
    (htarget : target < g.deques)
    (hbacked : a.Backed g w) :
    Move.IsFair w (.loop (.steal left target) v (.ofJob stop) evaluations)
      (LoopPoint.step w (some v) v (.ofJob stop) evaluations (.steal left target)) := by
  rw [← hbacked.deques] at htarget
  obtain ⟨t, hsteal, hfollows, -⟩ := hbacked.follows.steal htarget
  have hload := Scheduler.load_of_atPlace hsteal hbacked.follows hfollows
  rw [LoopPoint.step, w.schedule_of_ok (·.steal target) _ hsteal]
  rw [Lane.jobs_steal] at hload
  cases hjobs : (a.lanes target).jobs with
  | nil =>
      rw [hjobs, List.tail_nil, List.length_nil] at hload
      have hsame : t.load = w.scheduler.load + 0 := by
        rw [hload]
        omega
      refine .go (.of_le (fun counter => ?_) hsame (List.append_nil _).symm
        (fun law hlaw => ?_) ?_)
      · exact Scheduler.total_of_onDeque hsteal counter
      · cases law <;> first | rfl | exact absurd rfl hlaw
      · exact Int.one_nonneg
  | cons job rest =>
      rw [hjobs, List.tail_cons, List.length_cons] at hload
      refine .of_onDeque (n := -1) rfl hsteal ?_ fun law => by cases law <;> rfl
      rw [hload]
      omega

/-- An attempt is numbered. -/
theorem isFair_loop_advance
    {stop : Option JobId} {evaluations left : Nat} {attempt : UInt64}
    (hv : v < g.deques)
    (hword : g.deques < UInt64.size)
    (hbacked : a.Backed g w) :
    Move.IsFair w (.loop (.advance left attempt) v (.ofJob stop) evaluations)
      (LoopPoint.step w (some v) v (.ofJob stop) evaluations (.advance left attempt)) := by
  rw [← hbacked.deques] at hv hword
  obtain ⟨t, hstore, hfollows, hkeeps⟩ := hbacked.follows.storeAttempt hv (attempt + 1)
  obtain ⟨target, hvictim, -⟩ := hkeeps.exists_victim hv hword v attempt
  rw [LoopPoint.step, w.schedule_of_ok (·.storeAttempt v (attempt + 1)) _ hstore]
  simp only [hvictim]
  refine .of_atPlace rfl hstore (fun place next other hchange => ?_) hbacked.follows hfollows
    fun law => by cases law <;> rfl
  cases hchange
  rfl

theorem isFair_loop_aim
    {stop : Option JobId} {evaluations left : Nat}
    (hv : v < g.deques)
    (hbacked : a.Backed g w) :
    Move.IsFair w (.loop (.aim left) v (.ofJob stop) evaluations)
      (LoopPoint.step w (some v) v (.ofJob stop) evaluations (.aim left)) := by
  rw [← hbacked.deques] at hv
  obtain ⟨t, attempt, hread, hfollows, -⟩ := hbacked.follows.loadAttempt hv
  rw [LoopPoint.step, w.schedule_of_ok (·.loadAttempt v) _ hread]
  refine .of_atPlace rfl hread (fun place next other hchange => ?_) hbacked.follows hfollows
    fun law => by cases law <;> rfl
  cases hchange
  rfl

theorem isFair_loop
    {point : LoopPoint} {stop : Option JobId} {evaluations : Nat}
    (hv : v < g.deques)
    (hword : g.deques < UInt64.size)
    (haim : point.AimsBelow g.deques)
    (hbacked : a.Backed g w)
    (hfits : ∀ counter, Frame.counter? (.loop point v (.ofJob stop) evaluations) = some counter →
      w.scheduler.total counter + 1 < UInt64.size) :
    Move.IsFair w (.loop point v (.ofJob stop) evaluations)
      (point.step w (some v) v (.ofJob stop) evaluations) := by
  have hplace : v < w.scheduler.dequeCount := by
    rw [hbacked.deques]
    exact hv
  cases point with
  | poll =>
      exact isFair_ask _ _ rfl (fun law => by cases law <;> rfl) fun law => by cases law <;> rfl
  | pop =>
      exact isFair_loop_pop hv hbacked
  | popped job =>
      rw [LoopPoint.step]
      exact .bump hbacked.follows hplace rfl (hfits _ rfl) fun _ law => by cases law <;> rfl
  | trial left =>
      cases left with
      | zero =>
          rw [LoopPoint.step]
          exact .bump hbacked.follows hplace rfl (hfits _ rfl) fun _ law => by cases law <;> rfl
      | succ left =>
          exact isFair_ask _ _ rfl (fun law => by cases law <;> rfl) fun law => by cases law <;> rfl
  | aim left =>
      exact isFair_loop_aim hv hbacked
  | advance left attempt =>
      exact isFair_loop_advance hv hword hbacked
  | count left target =>
      rw [LoopPoint.step]
      exact .bump hbacked.follows hplace rfl (hfits _ rfl) fun _ law => by cases law <;> rfl
  | steal left target =>
      exact isFair_loop_steal haim hbacked
  | stolen job =>
      rw [LoopPoint.step]
      exact .bump hbacked.follows hplace rfl (hfits _ rfl) fun _ law => by cases law <;> rfl
  | dispatch job =>
      rw [LoopPoint.step]
      exact .bump hbacked.follows hplace rfl (hfits _ rfl) fun _ law => by cases law <;> rfl

/-- The right branch of a fork is pushed, or the process is given up. -/
theorem isFair_publish
    {right : JobId} {left : Code}
    (hv : v < g.deques)
    (hbacked : a.Backed g w) :
    Move.IsFair w (.fork .publish v right left)
      (ForkPoint.step w (some v) v right left .publish) := by
  rw [← hbacked.deques] at hv
  by_cases hroom : (a.lanes v).bottom < g.capacity
  · obtain ⟨t, hpush, hfollows, -, -⟩ := hbacked.follows.push_of_lt hv hroom right
    have hload := Scheduler.load_of_atPlace hpush hbacked.follows hfollows
    rw [Lane.jobs_push, List.length_append, List.length_singleton] at hload
    rw [ForkPoint.step, w.schedule_of_ok (·.push v right) _ hpush]
    refine .of_onDeque (n := 1) rfl hpush ?_ fun law => by cases law <;> rfl
    rw [hload]
    omega
  · obtain ⟨t, hpush⟩ := hbacked.follows.push_of_not_lt hv hroom right
    rw [ForkPoint.step, w.schedule_of_ok (·.push v right) _ hpush]
    exact .stop (Scheduler.total_of_onDeque hpush) rfl

/-- A fork pops its right branch, or finds its own deque empty. -/
theorem isFair_reclaim
    (h : Inv thunk g.root a)
    {right : JobId} {left : Code}
    (hv : v < g.deques)
    (hstack : a.stack v = .fork .reclaim right :: below)
    (hbacked : a.Backed g w) :
    Move.IsFair w (.fork .reclaim v right left)
      (ForkPoint.step w (some v) v right left .reclaim) := by
  rw [← hbacked.deques] at hv
  rcases hbacked.follows.pop hv with ⟨t, hpop, hfollows, -⟩ | ⟨-, -, hfail⟩
  · have hload := Scheduler.load_of_atPlace hpop hbacked.follows hfollows
    rw [ForkPoint.step, w.schedule_of_ok (·.pop v) _ hpop]
    have hsuffix := h.suffix hstack
    rw [spine_of_isLive _ rfl] at hsuffix
    rcases List.suffix_concat_iff.mp hsuffix with hnil | ⟨older, hjobs, -⟩
    · rw [Lane.jobs_pop, hnil, List.dropLast_nil, List.length_nil] at hload
      rw [hnil]
      refine .of_onDeque (n := 0) rfl hpop ?_ fun law => by cases law <;> rfl
      rw [hload]
      omega
    · rw [Lane.jobs_pop, hjobs, List.dropLast_concat, List.length_append,
        List.length_singleton] at hload
      simp only [hjobs, List.getLast?_concat]
      refine .of_onDeque (n := -1) rfl hpop ?_ fun law => by cases law <;> rfl
      rw [hload]
      omega
  · rw [ForkPoint.step, w.schedule_of_error (·.pop v) _ hfail]
    exact .stop (fun _ => rfl) rfl

/-- A wait owes nothing, whatever the policy is. -/
theorem owes_waitFrame
    (scheduler : Scheduler) (identity : Option Nat) (stop : Stop) (law : Law) :
    law.owes (Machine.waitFrame scheduler identity stop) = 0 := by
  unfold Machine.waitFrame
  split <;> cases law <;> rfl

/-- A fork that could not take its right branch back waits for it. -/
theorem isFair_stolenJoin
    {right : JobId} {left : Code}
    (hv : v < g.deques)
    (hbacked : a.Backed g w)
    (hfits : w.scheduler.total .stolenJoins + 1 < UInt64.size) :
    Move.IsFair w (.fork .stolenJoin v right left)
      (ForkPoint.step w (some v) v right left .stolenJoin) := by
  rw [← hbacked.deques] at hv
  rw [ForkPoint.step]
  refine .bump hbacked.follows hv rfl hfits fun next law => ?_
  rw [Frame.Allows, Law.owed_cons, owes_waitFrame]
  cases law <;> rfl

/-- Code that a worker of the crew performs. -/
theorem isFair_perform
    (h : Inv thunk g.root a)
    {code : Code}
    (hv : v < g.deques)
    (hstack : a.stack v = .code code :: below)
    (hbacked : a.Backed g w) :
    Move.IsFair w (.perform code) (Frame.step w (some v) (.perform code)) := by
  have hworker : w.scheduler.workerOf (some v) = some v :=
    Scheduler.workerOf_of_lt (hbacked.deques ▸ hv)
  cases code with
  | nil =>
      exact .of_same rfl fun law => by cases law <;> rfl
  | cons action rest =>
      have hwell := h.shape.wellFormed v
      rw [hstack] at hwell
      obtain ⟨job, howner⟩ := exists_owner hwell.1 hwell.2 (Or.inl ⟨_, rfl⟩)
      obtain ⟨-, -, htidy⟩ := h.items_code hstack howner
      have hcode := htidy.within (List.mem_append_right _ List.mem_cons_self)
      rw [Code.within, Bool.and_eq_true] at hcode
      cases action with
      | log label =>
          exact .go (.of_places rfl rfl (Array.toList_push) fun law => by cases law <;> rfl)
      | fork left right =>
          simp only [Frame.step, Machine.Action.step, hworker]
          exact .go (.quiet rfl rfl rfl fun law => by cases law <;> rfl)
      | store cell constant sources =>
          exact .go (.quiet rfl rfl rfl fun law => by cases law <;> rfl)
      | start other =>
          exact .go (.quiet rfl rfl rfl fun law => by cases law <;> rfl)
      | complete other =>
          exact .go (.quiet rfl rfl rfl fun law => by cases law <;> rfl)
      | finish =>
          exact .go (.quiet rfl rfl rfl fun law => by cases law <;> rfl)
      | _ =>
          exact absurd hcode.1 Bool.false_ne_true

/-- A job is taken for execution. -/
theorem isFair_execute
    (h : Inv thunk g.root a)
    {job : JobId}
    (hstack : a.stack v = .fetch job :: below)
    (hbacked : a.Backed g w) :
    Move.IsFair w (.execute job) (Frame.step w (some v) (.execute job)) := by
  have hgoes := goes_execute h hstack hbacked
  cases hflags : w.flags[job]? with
  | none =>
      simp only [Frame.step, hflags] at hgoes
      cases hgoes
  | some flags =>
      cases hbody : w.bodies[job]? with
      | none =>
          simp only [Frame.step, hflags, hbody] at hgoes
          cases hgoes
      | some body =>
          simp only [Frame.step, hflags, hbody] at hgoes ⊢
          by_cases htaken : flags.taken = true
          · rw [if_pos htaken] at hgoes
            cases hgoes
          · rw [if_neg htaken]
            exact .go (.quiet rfl rfl rfl fun law => by cases law <;> rfl)

/-- Each step of a frame that shows the innermost call of a worker is fair. -/
theorem isFair_step
    (h : Inv thunk g.root a)
    {frame : Frame} {call : Call}
    (hv : v < g.deques)
    (hword : g.deques < UInt64.size)
    (hstack : a.stack v = call :: below)
    (hdepicts : Depicts g.deques v frame call)
    (hbacked : a.Backed g w)
    (hfits : ∀ counter, frame.counter? = some counter →
      w.scheduler.total counter + 1 < UInt64.size) :
    Move.IsFair w frame (frame.step w (some v)) := by
  have hplace : v < w.scheduler.dequeCount := by
    rw [hbacked.deques]
    exact hv
  cases hdepicts with
  | perform rest =>
      exact isFair_perform h hv hstack hbacked
  | execute job =>
      exact isFair_execute h hstack hbacked
  | guarded job =>
      exact .of_same rfl fun law => by cases law <;> rfl
  | publish right left =>
      exact isFair_publish hv hbacked
  | published right left =>
      rw [Frame.step, ForkPoint.step]
      exact .bump hbacked.follows hplace rfl (hfits _ rfl) fun _ law => by cases law <;> rfl
  | check right left =>
      rw [Frame.step, ForkPoint.step]
      split <;> exact .of_same rfl fun law => by cases law <;> rfl
  | reclaim right left =>
      exact isFair_reclaim h hv hstack hbacked
  | reclaimed right left =>
      rw [Frame.step, ForkPoint.step]
      simp only [if_pos]
      exact .bump hbacked.follows hplace rfl (hfits _ rfl) fun _ law => by cases law <;> rfl
  | inlineJoin right left =>
      rw [Frame.step, ForkPoint.step]
      exact .bump hbacked.follows hplace rfl (hfits _ rfl) fun _ law => by cases law <;> rfl
  | stolenJoin right left =>
      exact isFair_stolenJoin hv hbacked (hfits _ rfl)
  | closing right left =>
      exact .of_same rfl fun law => by cases law <;> rfl
  | loop point stop evaluations haim =>
      exact isFair_loop hv hword haim hbacked hfits
  | poll job evaluations =>
      exact isFair_ask (some job) 0 rfl (fun law => by cases law <;> rfl)
        fun law => by cases law <;> rfl

end ForkJoin
end WorkStealing
