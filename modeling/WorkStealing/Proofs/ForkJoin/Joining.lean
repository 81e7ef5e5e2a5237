import WorkStealing.Proofs.ForkJoin.Course

/-!
# What forks find in their own deques

A fork that comes back from its left branch pops its own deque. In a run of strict code it gets
its right branch there or nothing at all, and in the second case another worker has stolen the
right branch and the deque stays empty while the fork waits (`Launch.joins_own`).

The deque of a worker holds no more than the right branches of its innermost forks, the newest
last, so nothing else can be popped. That nothing is lost on the way is shown for each step of a
crew: a right branch leaves the deque when its fork pops it, or when another worker steals it
(`Step.out`). The steps before a fork waits therefore contain the theft.
-/

namespace WorkStealing

/-- A pop from the deque of that number answers like this, or finds no further tag. -/
def Scheduler.Pops (s : Scheduler) (i : Nat) (p : Option JobId → Prop) : Prop :=
  (∃ next answer, s.pop i = .ok (next, answer) ∧ p answer) ∨
    s.pop i = .error (.error .tagExhausted)

/-- What is popped is the newest job. -/
theorem Scheduler.Follows.pops
    {s : Scheduler} {capacity : Nat} {lanes : Nat → Lane} {i : Nat} {p : Option JobId → Prop}
    (h : s.Follows capacity lanes)
    (hi : i < s.dequeCount)
    (hp : p (lanes i).jobs.getLast?) :
    s.Pops i p := by
  rcases h.pop hi with ⟨t, hpop, -⟩ | ⟨-, -, hfail⟩
  · exact .inl ⟨t, _, hpop, hp⟩
  · exact .inr hfail

namespace Machine

/-- A step of a loop without a job ends the loop or stays in it; it gets a job from its own deque,
or from the one that it steals from. -/
theorem LoopPoint.step_of_held_eq_none
    {w next : World} {identity other : Option Nat} {worker evaluations : Nat} {stop : Stop}
    {point : LoopPoint} {frames : List Frame}
    (hpoint : point.held = none)
    (hmove : point.step w identity worker stop evaluations = .go next other frames) :
    frames = [] ∨ ∃ after count, frames = [.loop after worker stop count] ∧
      ∀ job, after.held = some job →
        (∃ t, w.scheduler.pop worker = .ok (t, some job)) ∨
          ∃ left target, point = .steal left target ∧ after = .stolen job ∧ count = evaluations ∧
            ∃ t, w.scheduler.steal target = .ok (t, some job) := by
  cases point with
  | popped job | stolen job | dispatch job =>
      cases hpoint
  | poll =>
      simp only [LoopPoint.step] at hmove
      split at hmove <;> cases hmove
      · exact .inl rfl
      · exact .inr ⟨_, _, rfl, by simp [LoopPoint.held]⟩
  | pop =>
      simp only [LoopPoint.step, World.schedule] at hmove
      split at hmove
      next =>
        cases hmove
      next t answer hpop =>
        cases answer with
        | none =>
            cases hmove
            exact .inr ⟨_, _, rfl, by simp [LoopPoint.held]⟩
        | some job =>
            cases hmove
            refine .inr ⟨_, _, rfl, fun other hother => .inl ⟨t, ?_⟩⟩
            cases hother
            exact hpop
  | trial left =>
      cases left with
      | zero =>
          simp only [LoopPoint.step, World.schedule] at hmove
          split at hmove <;> cases hmove
          exact .inr ⟨_, _, rfl, by simp [LoopPoint.held]⟩
      | succ left =>
          simp only [LoopPoint.step] at hmove
          split at hmove <;> cases hmove
          · exact .inl rfl
          · exact .inr ⟨_, _, rfl, by simp [LoopPoint.held]⟩
  | aim left | count left target =>
      simp only [LoopPoint.step, World.schedule] at hmove
      split at hmove <;> cases hmove
      exact .inr ⟨_, _, rfl, by simp [LoopPoint.held]⟩
  | advance left attempt =>
      simp only [LoopPoint.step, World.schedule] at hmove
      split at hmove
      · cases hmove
      · split at hmove <;> cases hmove
        exact .inr ⟨_, _, rfl, by simp [LoopPoint.held]⟩
  | steal left target =>
      simp only [LoopPoint.step, World.schedule] at hmove
      split at hmove
      next =>
        cases hmove
      next t answer hsteal =>
        cases answer with
        | none =>
            cases hmove
            exact .inr ⟨_, _, rfl, by simp [LoopPoint.held]⟩
        | some job =>
            cases hmove
            refine .inr ⟨_, _, rfl, fun other hother => .inr ⟨left, target, rfl, ?_⟩⟩
            cases hother
            exact ⟨rfl, rfl, t, hsteal⟩

namespace System

/-- In one of these steps another worker has stolen the job from the deque of that number. -/
def Robs (s : System) (schedule : List Nat) (place : Nat) (job : JobId) : Prop :=
  ∃ before thief after left worker stop evaluations, schedule = before ++ thief :: after ∧
    worker ≠ place ∧
    (s.run before).frameAt thief = some (.loop (.steal left place) worker stop evaluations) ∧
    (s.run (before ++ [thief])).frameAt thief = some (.loop (.stolen job) worker stop evaluations)

theorem Robs.append
    {s : System} {schedule : List Nat} {place : Nat} {job : JobId}
    (h : s.Robs schedule place job)
    (more : List Nat) :
    s.Robs (schedule ++ more) place job := by
  obtain ⟨before, thief, after, left, worker, stop, evaluations, rfl, hsteal⟩ := h
  exact ⟨before, thief, after ++ more, left, worker, stop, evaluations, by simp, hsteal⟩

end System
end Machine

namespace ForkJoin

open Function (update)
open Machine (Frame LoopPoint Moment Stop System)

def Phase.isOut : Phase → Bool
  | stolen => true
  | phase => phase.isLive

/-- A loop of the worker gets a job from the deque of another one. -/
structure Crew.Takes (a b : Crew) (v u : Nat) (job : JobId) : Prop where
  other : v ≠ u
  queued : job ∈ (a.lanes u).jobs
  loop : ∃ stop below, a.stack v = .loop none stop :: below ∧
    b.stack v = .loop (some job) stop :: below

section Steps

variable {thunk : Code} {root : JobId} {v u : Nat} {a b : Crew} {phase : Phase} {right : JobId}

theorem exists_out
    {calls : List Call}
    (hfork : Call.fork phase right ∈ update a.stack v calls u)
    (hout : phase.isOut = true)
    (hcalls : Call.fork phase right ∈ calls →
      ∃ old : Phase, old.isOut = true ∧ Call.fork old right ∈ a.stack v) :
    ∃ old : Phase, old.isOut = true ∧ Call.fork old right ∈ a.stack u := by
  by_cases hu : u = v
  · subst hu
    rw [Function.update_self] at hfork
    exact hcalls hfork
  · rw [Function.update_of_ne hu] at hfork
    exact ⟨phase, hout, hfork⟩

/-- After a step the right branch of a fork is in the deque, or was not there before the step, or
has just been taken by another worker. -/
theorem Step.out
    (hstep : Step root v a b)
    (h : Inv thunk root a)
    (hfork : Call.fork phase right ∈ b.stack u)
    (hout : phase.isOut = true) :
    right ∈ (b.lanes u).jobs ∨
      (right ∉ (a.lanes u).jobs ∧ ∃ old : Phase, old.isOut = true ∧
        Call.fork old right ∈ a.stack u) ∨
      a.Takes b v u right := by
  have hsame : (b.lanes u).jobs = (a.lanes u).jobs →
      (∃ old : Phase, old.isOut = true ∧ Call.fork old right ∈ a.stack u) →
      right ∈ (b.lanes u).jobs ∨
        (right ∉ (a.lanes u).jobs ∧ ∃ old : Phase, old.isOut = true ∧
          Call.fork old right ∈ a.stack u) ∨
        a.Takes b v u right := by
    intro hlanes hold
    rw [hlanes]
    by_cases hmem : right ∈ (a.lanes u).jobs
    · exact .inl hmem
    · exact .inr (.inl ⟨hmem, hold⟩)
  cases hstep with
  | idle =>
      exact hsame rfl ⟨phase, hout, hfork⟩
  | leave hstack | dispatch hstack | take hstack | retire hstack | endCode hstack | act hstack
  | note hstack | fork hstack | goLeft hstack | look hstack | miss hstack | inline hstack
  | wait hstack | close hstack =>
      refine hsame rfl (exists_out hfork hout fun hmem => ?_)
      grind [Phase.isOut, Phase.isLive]
  | @obtain stop below place job lane hstack hjobs hlane =>
      have hold := exists_out hfork hout fun hmem => ⟨phase, hout, by simpa [hstack] using hmem⟩
      by_cases hplace : u = place
      · subst hplace
        -- The job that is obtained is the only one that leaves the deque.
        by_cases hjob : right = job
        · subst hjob
          rcases hlane with ⟨hother, -⟩ | ⟨rfl, -⟩
          · refine .inr (.inr ⟨hother.symm, by simp [hjobs], stop, below, hstack, ?_⟩)
            exact Function.update_self ..
          · obtain ⟨old, -, hmem⟩ := hold
            have hroot := (h.shape.forks u old right hmem).2.1
            rcases h.jobs_of_loop hstack with hnil | hone
            · simp [hnil] at hjobs
            · rw [hone, List.cons.injEq] at hjobs
              exact absurd hjobs.1 (Nat.ne_of_lt hroot)
        · have hlanes : ((update a.lanes u lane) u).jobs = lane.jobs := by simp
          by_cases hmem : right ∈ lane.jobs
          · exact .inl (by rw [hlanes]; exact hmem)
          · exact .inr (.inl ⟨by simp [hjobs, hjob, hmem], hold⟩)
      · exact hsame (by simp [hplace]) hold
  | @rewind stop below hstack hjobs =>
      by_cases hu : u = v
      · subst hu
        exact .inr (.inl ⟨by simp [hjobs], phase, hout, hfork⟩)
      · exact hsame (by simp [hu]) ⟨phase, hout, hfork⟩
  | @publish below left pushed hstack =>
      by_cases hu : u = v
      · subst hu
        simp only [Function.update_self, List.mem_cons, Call.fork.injEq] at hfork
        rcases hfork with ⟨-, rfl⟩ | hmem
        · exact .inl (by simp)
        · by_cases hqueued : right ∈ (a.lanes u).jobs
          · exact .inl (by simp [hqueued])
          · exact .inr (.inl ⟨hqueued, phase, hout, by simp [hstack, hmem]⟩)
      · exact hsame (by simp [hu]) ⟨phase, hout, by simpa [hu] using hfork⟩
  | @reclaim below popped older hstack hjobs =>
      by_cases hu : u = v
      · subst hu
        simp only [Function.update_self, List.mem_cons, Call.fork.injEq] at hfork
        rcases hfork with ⟨rfl, -⟩ | hmem
        · cases hout
        · have hne : right ≠ popped := by
            rintro rfl
            exact h.shape.fork_not_mem hstack hmem
          by_cases hqueued : right ∈ older
          · exact .inl (by simp [hjobs, hqueued])
          · exact .inr (.inl ⟨by simp [hjobs, hqueued, hne], phase, hout, by simp [hstack, hmem]⟩)
      · exact hsame (by simp [hu]) ⟨phase, hout, by simpa [hu] using hfork⟩
  | @lose below missed hstack hjobs =>
      by_cases hu : u = v
      · subst hu
        refine .inr (.inl ⟨by simp [hjobs], exists_out hfork hout fun hmem => ?_⟩)
        grind [Phase.isOut, Phase.isLive]
      · exact hsame (by simp [hu]) ⟨phase, hout, by simpa [hu] using hfork⟩

end Steps

section Thefts

variable {g : Setting} {beneath : List Frame} {s : System} {thunk : Code} {a b : Crew} {t v u : Nat}
  {job : JobId}

/-- The frame of a loop that has got nothing yet. -/
theorem Depicts.loop_none_inv
    {deques : Nat} {frame : Frame} {stop : Option JobId}
    (h : Depicts deques v frame (.loop none stop)) :
    (∃ point evaluations, frame = .loop point v (.ofJob stop) evaluations ∧ point.held = none ∧
        point.AimsBelow deques) ∨
      ∃ evaluations, frame = .poll (.ofJob stop) evaluations := by
  generalize hcall : Call.loop none stop = call at h
  cases h with
  | loop point other evaluations haim =>
      obtain ⟨hheld, rfl⟩ := Call.loop.inj hcall
      exact .inl ⟨point, evaluations, rfl, hheld.symm, haim⟩
  | poll job evaluations =>
      cases hcall
      exact .inr ⟨evaluations, rfl⟩
  | _ =>
      cases hcall

theorem Depicts.loop_some_inv
    {deques : Nat} {frame : Frame} {stop : Option JobId}
    (h : Depicts deques v frame (.loop (some job) stop)) :
    ∃ point evaluations, frame = .loop point v (.ofJob stop) evaluations ∧
      point.held = some job := by
  generalize hcall : Call.loop (some job) stop = call at h
  cases h with
  | loop point other evaluations haim =>
      obtain ⟨hheld, rfl⟩ := Call.loop.inj hcall
      exact ⟨point, evaluations, rfl, hheld.symm⟩
  | _ =>
      cases hcall

/-- The loop of a worker that waits for a job. -/
theorem Depicts.waiting_inv
    {deques worker evaluations : Nat} {point : LoopPoint} {call : Call}
    (h : Depicts deques v (.loop point worker (.jobDone job) evaluations) call) :
    worker = v ∧ call = .loop point.held (some job) := by
  generalize hframe : Frame.loop point worker (.jobDone job) evaluations = frame at h
  cases h with
  | loop other stop count haim =>
      obtain ⟨rfl, rfl, hstop, -⟩ := Frame.loop.inj hframe
      cases stop with
      | none =>
          cases hstop
      | some other =>
          cases hstop
          exact ⟨rfl, rfl⟩
  | _ =>
      cases hframe

/-- When a loop has got a job in a step, this is what the frames were before and after the step. -/
theorem Shows.exists_gain
    (h : Shows g beneath s a)
    (hg : g.Valid)
    (hinv : Inv thunk g.root a)
    (ht : g.workers[t]? = some v)
    {stop : Option JobId} {below : List Call}
    (hbefore : a.stack v = .loop none stop :: below)
    (hnext : Shows g beneath (s.advance t) b)
    (hafter : b.stack v = .loop (some job) stop :: below) :
    ∃ point evaluations after count next,
      s.frameAt t = some (.loop point v (.ofJob stop) evaluations) ∧
      (s.advance t).frameAt t = some (.loop after v (.ofJob stop) count) ∧
      point.step s.world (some v) v (.ofJob stop) evaluations =
        .go next (some v) [.loop after v (.ofJob stop) count] ∧
      point.held = none ∧ point.AimsBelow g.deques ∧ after.held = some job := by
  obtain ⟨thread, frame, frames, call, calls, hthread, hframes, hidentity, hstack, hdepicts, hrest,
    hlooks⟩ := h.exists_frame ht (by simp [hbefore])
  obtain ⟨later, top, others, _, _, hlater, htop, -, hsame, hshown, hunder, -⟩ :=
    hnext.exists_frame ht (by simp [hafter])
  cases hbefore.symm.trans hstack
  cases hafter.symm.trans hsame
  have hgoes := goes_step hinv (hg.below v (List.mem_of_getElem? ht)) hg.word hbefore hdepicts
    h.backed hlooks.top
  generalize hmove : frame.step s.world (some v) = move at hgoes
  rw [← hidentity] at hmove
  cases hgoes with
  | full | exhausted =>
      have hgave := hnext.going
      rw [System.advance_of_error h.going hthread hframes hmove] at hgave
      cases hgave
  | @on next moved _ _ _ _ _ _ _ _ _ =>
      have hin : t < s.threads.size := (Array.getElem?_eq_some_iff.mp hthread).1
      have hgone := System.advance_of_go h.going hthread hframes hmove
      rw [hgone, Array.getElem?_setIfInBounds_self_of_lt hin] at hlater
      cases hlater
      obtain rfl : moved = [top] := by
        have hlength := congrArg List.length htop
        simp only [List.length_append, List.length_cons, hrest.length_eq,
          hunder.length_eq] at hlength
        cases moved with
        | nil =>
            simp at hlength
        | cons first more =>
            obtain rfl : more = [] := by
              rw [List.length_cons] at hlength
              exact List.eq_nil_of_length_eq_zero (by omega)
            rw [(List.cons.inj htop).1]
      obtain ⟨after, count, rfl, hgained⟩ := hshown.loop_some_inv
      have hfound := System.frameAt_of_thread h.going hthread hframes
      rw [hidentity] at hmove
      rcases hdepicts.loop_none_inv with ⟨point, evaluations, rfl, hheld, haim⟩ |
        ⟨evaluations, rfl⟩
      · refine ⟨point, evaluations, after, count, next, hfound, ?_, hmove, hheld, haim, hgained⟩
        rw [hgone]
        exact System.frameAt_of_thread rfl (Array.getElem?_setIfInBounds_self_of_lt hin) rfl
      · simp only [Frame.step] at hmove
        split at hmove <;> cases hmove

/-- When a worker has taken a job from the deque of another one, its loop was about to steal
there. -/
theorem Crew.Takes.steals
    (htakes : a.Takes b v u job)
    (h : Shows g beneath s a)
    (hg : g.Valid)
    (hinv : Inv thunk g.root a)
    (ht : g.workers[t]? = some v)
    (hnext : Shows g beneath (s.advance t) b) :
    ∃ left stop evaluations, s.frameAt t = some (.loop (.steal left u) v stop evaluations) ∧
      (s.advance t).frameAt t = some (.loop (.stolen job) v stop evaluations) := by
  obtain ⟨hother, hqueued, stop, below, hbefore, hafter⟩ := htakes
  obtain ⟨point, evaluations, after, count, next, hfirst, hlast, hmove, hheld, haim, hgained⟩ :=
    h.exists_gain hg hinv ht hbefore hnext hafter
  have hhome := (hinv.places.queued u job).mp hqueued
  have hfrom : ∀ place, job ∈ (a.lanes place).jobs → place = u := by
    intro place hmem
    have hplace := (hinv.places.queued place job).mp hmem
    exact Home.queued.inj (hplace.symm.trans hhome)
  rcases LoopPoint.step_of_held_eq_none hheld hmove with hnil | ⟨_, _, heq, hgains⟩
  · cases hnil
  · cases heq
    rcases hgains job hgained with ⟨t, hpop⟩ | ⟨left, target, rfl, rfl, rfl, t, hsteal⟩
    · have hv : v < s.world.scheduler.dequeCount := by
        rw [h.backed.deques]
        exact hg.below v (List.mem_of_getElem? ht)
      rcases h.backed.follows.pop hv with ⟨_, hanswer, -⟩ | ⟨-, -, hfail⟩
      · obtain ⟨-, hlast⟩ := Prod.mk.inj (Except.ok.inj (hpop.symm.trans hanswer))
        exact absurd (hfrom v (List.mem_of_getLast? hlast.symm)) hother
      · cases hpop.symm.trans hfail
    · have htarget : target < s.world.scheduler.dequeCount := by
        rw [h.backed.deques]
        exact haim
      obtain ⟨_, hanswer, -⟩ := h.backed.follows.steal htarget
      obtain ⟨-, hhead⟩ := Prod.mk.inj (Except.ok.inj (hsteal.symm.trans hanswer))
      obtain rfl := hfrom target (List.mem_of_head? hhead.symm)
      exact ⟨left, _, _, hfirst, hlast⟩

end Thefts

namespace Launch

/-- Each right branch that a fork has pushed and not got back is in the deque of the fork's worker,
or was stolen from there in one of these steps. -/
def Tracks (l : Launch) (schedule : List Nat) (a : Crew) : Prop :=
  ∀ v phase right, Call.fork phase right ∈ a.stack v → phase.isOut = true →
    right ∈ (a.lanes v).jobs ∨ l.system.Robs schedule v right

/-- What forks find in their own deques after these steps. -/
structure JoinsOwn (l : Launch) (schedule : List Nat) : Prop where
  /-- A fork that pops its own deque gets its right branch or nothing. -/
  reclaim : ∀ {thread worker right left},
    (l.system.run schedule).frameAt thread = some (.fork .reclaim worker right left) →
    (l.system.run schedule).world.scheduler.Pops worker fun answer =>
      answer = none ∨ answer = some right
  /-- A job that a fork has popped is its right branch. -/
  reclaimed : ∀ {thread worker job right left},
    (l.system.run schedule).frameAt thread = some (.fork (.reclaimed job) worker right left) →
    job = right
  /-- No fork puts a job back. -/
  putBack : ∀ {thread job worker right left},
    (l.system.run schedule).frameAt thread ≠ some (.fork (.putBack job) worker right left) ∧
    (l.system.run schedule).frameAt thread ≠ some (.fork .putBackCount worker right left)
  /-- A fork that begins to wait has an empty deque, and another worker has stolen its right
  branch. -/
  waits : ∀ {thread worker right left},
    (l.system.run schedule).frameAt thread = some (.fork .stolenJoin worker right left) →
    (∃ place, (l.system.run schedule).world.scheduler.places[worker]? = some place ∧
      place.deque.Holds []) ∧
    l.system.Robs schedule worker right
  /-- While it waits, it pops nothing from its own deque. -/
  polls : ∀ {thread worker right evaluations},
    (l.system.run schedule).frameAt thread =
      some (.loop .pop worker (.jobDone right) evaluations) →
    (l.system.run schedule).world.scheduler.Pops worker fun answer => answer = none

variable {l : Launch} {capacity : Nat}

/-- A step of a worker keeps track of the right branches. -/
theorem Tracks.step
    {schedule : List Nat} {index v : Nat} {beneath : List Frame} {a b : Crew}
    (h : l.Tracks schedule a)
    (hready : l.Ready capacity)
    (hshows : Shows (l.setting capacity) beneath (l.system.run schedule) a)
    (hinv : Inv l.thunk l.root a)
    (hv : l.workers[index]? = some v)
    (hstep : Step l.root v a b)
    (hnext : Shows (l.setting capacity) beneath ((l.system.run schedule).advance index) b) :
    l.Tracks (schedule ++ [index]) b := by
  intro u phase right hfork hout
  rcases hstep.out hinv hfork hout with hqueued | ⟨hgone, old, hold, hbefore⟩ | htakes
  · exact .inl hqueued
  · exact .inr (((h u old right hbefore hold).resolve_left hgone).append [index])
  · obtain ⟨left, stop, evaluations, hfirst, hlast⟩ :=
      htakes.steals hshows hready.valid hinv hv hnext
    refine .inr ⟨schedule, index, [], left, v, stop, evaluations, rfl, htakes.other, hfirst, ?_⟩
    rw [System.run_append]
    exact hlast

/-- The stages of a run, where the crews keep track of the right branches. -/
theorem Ready.tracks
    (h : l.Ready capacity)
    (schedule : List Nat) :
    Course l capacity (l.Tracks schedule) (schedule.count 0) (l.system.run schedule)
      (l.system.performed schedule) (l.system.history schedule) := by
  refine Course.run_along h ?_ ?_ ?_ schedule
  · intro schedule v phase right hfork
    rcases l.stack_crew v with heq | heq <;> simp [heq] at hfork
  · intro schedule index a ha v phase right hfork hout
    exact (ha v phase right hfork hout).imp_right (·.append [index])
  · intro schedule index beneath a b v hshows hinv ha hv hstep hnext
    exact ha.step h hshows hinv hv hstep hnext

/-- A frame that only a worker has shows the innermost call of a crew that keeps track of the right
branches. -/
theorem Ready.exists_call
    (h : l.Ready capacity)
    {schedule : List Nat} {thread : Nat} {frame : Frame}
    (hframe : (l.system.run schedule).frameAt thread = some frame)
    (hinside : isOutside frame = false) :
    ∃ a v call calls, Crew.Backed (l.setting capacity) a (l.system.run schedule).world ∧
      Inv l.thunk l.root a ∧ l.Tracks schedule a ∧
      v < (l.system.run schedule).world.scheduler.dequeCount ∧ a.stack v = call :: calls ∧
      Depicts l.world.scheduler.dequeCount v frame call := by
  obtain ⟨_, _, hat⟩ := System.exists_at hframe
  rcases (h.tracks schedule).at_cases hat with houtside |
    ⟨_, a, v, call, calls, hshows, hinv, htracks, hv, -, hstack, hdepicts⟩
  · rw [hinside] at houtside
    cases houtside
  · refine ⟨a, v, call, calls, hshows.backed, hinv, htracks, ?_, hstack, hdepicts⟩
    rw [hshows.backed.deques]
    exact h.valid.below v hv

/-- When a fork of strict code pops its own deque after its left branch, it gets its own right
branch or nothing, whatever the order of the steps is. When it waits, its own deque is empty and
another worker has stolen its right branch. -/
theorem joins_own
    (h : l.Ready capacity)
    (schedule : List Nat) :
    l.JoinsOwn schedule := by
  constructor
  · intro thread worker right left hframe
    obtain ⟨a, v, call, calls, hbacked, hinv, -, hv, hstack, hdepicts⟩ := h.exists_call hframe rfl
    cases hdepicts
    refine hbacked.follows.pops hv ?_
    have hsuffix := hinv.suffix hstack
    rw [spine_of_isLive _ rfl] at hsuffix
    rcases List.suffix_concat_iff.mp hsuffix with hnil | ⟨older, hjobs, -⟩
    · exact .inl (by simp [hnil])
    · exact .inr (by simp [hjobs])
  · intro thread worker job right left hframe
    obtain ⟨a, v, call, calls, -, -, -, -, -, hdepicts⟩ := h.exists_call hframe rfl
    cases hdepicts
    rfl
  · intro thread job worker right left
    constructor
    all_goals
      intro hframe
      obtain ⟨a, v, call, calls, -, -, -, -, -, hdepicts⟩ := h.exists_call hframe rfl
      cases hdepicts
  · intro thread worker right left hframe
    obtain ⟨a, v, call, calls, hbacked, hinv, htracks, hv, hstack, hdepicts⟩ :=
      h.exists_call hframe rfl
    cases hdepicts
    have hempty : (a.lanes worker).jobs = [] := hinv.places.lost worker right calls hstack
    constructor
    · obtain ⟨place, hplace⟩ := Scheduler.exists_place hv
      refine ⟨place, hplace, ?_⟩
      rw [← hempty]
      exact (hbacked.follows worker place hplace).1.holds
    · refine (htracks worker .stolen right (by simp [hstack]) rfl).resolve_left ?_
      simp [hempty]
  · intro thread worker right evaluations hframe
    obtain ⟨a, v, call, calls, hbacked, hinv, -, hv, hstack, hdepicts⟩ := h.exists_call hframe rfl
    obtain ⟨rfl, rfl⟩ := hdepicts.waiting_inv
    have hsuffix : (a.lanes worker).jobs <:+ [] := hinv.suffix hstack
    exact hbacked.follows.pops hv (by simp [List.suffix_nil.mp hsuffix])

/-- The steps of the sample in which the second worker steals the right branch before the first one
comes back from the left branch. -/
def theft : List Nat :=
  List.replicate 14 0 ++ List.replicate 13 1 ++ List.replicate 4 0

/-- The right branch that the fork on top is about to wait for. -/
def awaited? : Frame → Option JobId
  | .fork .stolenJoin _ right _ => some right
  | _ => none

/-- The first worker is about to wait for the right branch. -/
theorem sample_joins_own :
    sample.Ready 4 ∧ ((sample.system.run theft).frameAt 0).bind awaited? = some 1 ∧
      sample.JoinsOwn theft :=
  ⟨sample_ready, by decide +kernel, joins_own sample_ready theft⟩

end Launch
end ForkJoin
end WorkStealing
