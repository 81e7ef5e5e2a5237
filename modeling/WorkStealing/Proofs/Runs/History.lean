import WorkStealing.Proofs.Runs.Dismissal
import WorkStealing.Proofs.Scheduler.Construction

/-!
# Histories of calls

Calls are made of a scheduler one after another since it was built: runs, and calls
that spawn a job, take one back or end the run. Between two calls nothing is kept but
the scheduler (`Scheduler.Reached`). The jobs of the runs do whatever they do, in any
order of the steps.

Outside of runs nobody steals, so that the deques start with their first slots
whenever nobody has the scheduler (`Scheduler.Reached.isSound`). Hence an errand that
is called when the deques are empty finds them clean. Whether it is completed depends
on one thing only: on whether the flag that ends a run was set meanwhile
(`Errand.Posed.completes_iff`).
-/

namespace WorkStealing

namespace Scheduler

/-- All deques start with their first slots. -/
def IsLevel (s : Scheduler) : Prop :=
  ∀ place ∈ s.places, place.deque.age.top = 0

/-- Nobody has claimed or released the scheduler meanwhile, and nobody has stolen. -/
structure Rests (s t : Scheduler) : Prop where
  running : t.running = s.running
  level : s.IsLevel → t.IsLevel

namespace Rests

variable {s t : Scheduler} {i : Nat}

theorem refl
    (s : Scheduler) :
    s.Rests s :=
  ⟨rfl, id⟩

theorem trans
    {u : Scheduler}
    (h : s.Rests t)
    (hnext : t.Rests u) :
    s.Rests u :=
  ⟨hnext.running.trans h.running, fun hlevel => hnext.level (h.level hlevel)⟩

/-- One place is changed, and its deque stays at its first slot. -/
theorem put
    {place next : Place}
    (hplace : s.places[i]? = some place)
    (hnext : place.deque.age.top = 0 → next.deque.age.top = 0) :
    s.Rests (s.put i next) := by
  refine ⟨rfl, fun hlevel other hother => ?_⟩
  rcases Array.mem_or_eq_of_mem_setIfInBounds hother with hsame | rfl
  · exact hlevel other hsame
  · exact hnext (hlevel place (Array.mem_of_getElem? hplace))

theorem push
    {job : JobId} {answer : Except Error Unit}
    (h : s.push i job = .ok (t, answer)) :
    s.Rests t := by
  obtain ⟨place, deque, hplace, hpush, rfl⟩ := exists_of_onDeque h
  have hage := place.deque.push_keeps job
  rw [hpush] at hage
  exact .put hplace fun htop => (congrArg Age.top hage).trans htop

theorem pop
    {answer : Option JobId}
    (h : s.pop i = .ok (t, answer)) :
    s.Rests t := by
  obtain ⟨place, deque, hplace, hpop, rfl⟩ := exists_of_onDeque h
  refine .put hplace fun htop => ?_
  rcases Deque.pop_age hpop with hage | hage
  · exact (congrArg Age.top hage).trans htop
  · exact (Age.restarted?_eq_some.mp hage).2

theorem bump
    {counter : Counter} {answer : Unit}
    (h : s.bump i counter = .ok (t, answer)) :
    s.Rests t := by
  obtain ⟨place, next, hplace, hnext, rfl⟩ := exists_of_atPlace h
  cases hnext
  exact .put hplace id

end Rests
end Scheduler

/-- What is done outside of runs: nothing is stolen, and a run is refused. -/
def Action.isOutside (running : Bool) : Action → Bool
  | .spawn _ => true
  | .takeBack => true
  | .finish => true
  | .bump _ _ => true
  | .emit _ => true
  | .run _ _ => running
  | .runThunk _ _ => running
  | _ => false

namespace Machine

/-- A call outside of runs. -/
def Frame.isOutside (running : Bool) : Frame → Bool
  | .perform code => code.all (Action.isOutside running)
  | .run (.claim _) _ _ => running
  | _ => false

/-- The frame goes on outside of runs or fails. -/
inductive Move.Rests (w : World) : Move → Prop where
  | go {next : World} {identity : Option Nat} {frames : List Frame}
      (hrests : w.scheduler.Rests next.scheduler)
      (hframes : frames.all (Frame.isOutside w.scheduler.running) = true) :
      Rests w (.go next identity frames)
  | fail {next : World} {cause : Failure}
      (hrests : w.scheduler.Rests next.scheduler) :
      Rests w (.fail next cause)

section Steps

variable {w : World} {rest : Code}

/-- Code outside of runs. -/
theorem all_isOutside
    {running : Bool}
    (hrest : rest.all (Action.isOutside running) = true) :
    [Frame.perform rest].all (Frame.isOutside running) = true := by
  rw [List.all_cons, Frame.isOutside, hrest]
  rfl

theorem rests_spawnStep
    (hrest : rest.all (Action.isOutside w.scheduler.running) = true)
    (identity : Option Nat) (job : JobId) (report : Outcome → Event) :
    Move.Rests w (spawnStep w identity job report rest) := by
  unfold spawnStep
  cases w.scheduler.workerOf identity with
  | none =>
      exact .go (.refl _) (all_isOutside hrest)
  | some worker =>
      simp only [World.schedule]
      cases hpush : w.scheduler.push worker job with
      | error cause =>
          exact .fail (.refl _)
      | ok result =>
          obtain ⟨t, outcome⟩ := result
          cases outcome with
          | ok =>
              exact .go (.push hpush) (all_isOutside hrest)
          | error cause =>
              exact .fail (.push hpush)

theorem rests_takeBack
    (hrest : rest.all (Action.isOutside w.scheduler.running) = true)
    (identity : Option Nat) :
    Move.Rests w (Action.step w identity rest .takeBack) := by
  unfold Action.step
  cases w.scheduler.workerOf identity with
  | none =>
      exact .go (.refl _) (all_isOutside hrest)
  | some worker =>
      simp only [World.schedule]
      cases hpop : w.scheduler.pop worker with
      | error cause =>
          exact .fail (.refl _)
      | ok result =>
          obtain ⟨t, answer⟩ := result
          cases answer with
          | none =>
              exact .go (.pop hpop) (all_isOutside hrest)
          | some job =>
              exact .go (.pop hpop) (all_isOutside hrest)

theorem rests_bump
    (hrest : rest.all (Action.isOutside w.scheduler.running) = true)
    (identity : Option Nat) (place : Nat) (counter : Counter) :
    Move.Rests w (Action.step w identity rest (.bump place counter)) := by
  simp only [Action.step, World.schedule]
  cases hbump : w.scheduler.bump place counter with
  | error cause =>
      exact .fail (.refl _)
  | ok result =>
      obtain ⟨t, answer⟩ := result
      exact .go (.bump hbump) (all_isOutside hrest)

/-- Every step outside of runs stays there. -/
theorem Frame.rests_step
    {frame : Frame}
    (hframe : frame.isOutside w.scheduler.running = true)
    (identity : Option Nat) :
    Move.Rests w (frame.step w identity) := by
  cases frame with
  | perform code =>
      cases code with
      | nil =>
          exact .go (.refl _) rfl
      | cons action rest =>
          rw [Frame.isOutside, List.all_cons, Bool.and_eq_true] at hframe
          obtain ⟨haction, hrest⟩ := hframe
          cases action with
          | spawn job =>
              exact rests_spawnStep hrest identity job _
          | takeBack =>
              exact rests_takeBack hrest identity
          | bump place counter =>
              exact rests_bump hrest identity place counter
          | finish =>
              exact .go ⟨rfl, id⟩ (all_isOutside hrest)
          | emit event =>
              exact .go (.refl _) (all_isOutside hrest)
          | run job threads | runThunk body threads =>
              refine .go (.refl _) ?_
              rw [List.all_cons, Frame.isOutside, all_isOutside hrest]
              exact (Bool.and_true _).trans haction
          | _ =>
              cases haction
  | run point job thunk =>
      cases point with
      | claim threads =>
          have hrunning : w.scheduler.running = true := hframe
          rw [Frame.step, RunPoint.step_claim]
          by_cases hmany : w.scheduler.dequeCount < w.scheduler.asked threads
          · rw [if_pos hmany]
            exact .go (.refl _) rfl
          · rw [if_neg hmany, if_pos hrunning]
            exact .go (.refl _) rfl
      | _ =>
          cases hframe
  | _ =>
      cases hframe

end Steps

/-- A panic outside of runs is let through. -/
theorem unwind_outside
    {running : Bool} {frames : List Frame}
    (hframes : frames.all (Frame.isOutside running) = true)
    (cause : Panic) (identity : Option Nat) :
    unwind cause identity frames = .over identity := by
  induction frames with
  | nil =>
      rfl
  | cons frame frames ih =>
      rw [List.all_cons, Bool.and_eq_true] at hframes
      cases frame with
      | perform code | run point job thunk =>
          exact ih hframes.2
      | _ =>
          cases hframes.1

/-- Since the scheduler was like this, all threads have been outside of runs. -/
structure Outside (before : Scheduler) (s : System) : Prop where
  rests : before.Rests s.world.scheduler
  frames : ∀ (t : Nat) (thread : Thread), s.threads[t]? = some thread →
    thread.frames.all (Frame.isOutside before.running) = true

namespace Outside

variable {before : Scheduler} {s : System}

/-- One thread has gone on, and is still outside of runs. -/
theorem set
    (h : Outside before s)
    {world : World} {index : Nat} {thread : Thread}
    (hrests : s.world.scheduler.Rests world.scheduler)
    (hthread : thread.frames.all (Frame.isOutside before.running) = true) :
    Outside before { world, threads := s.threads.setIfInBounds index thread } := by
  refine ⟨h.rests.trans hrests, fun t other hother => ?_⟩
  by_cases ht : t = index
  · subst ht
    have hin : t < (s.threads.setIfInBounds t thread).size :=
      (Array.getElem?_eq_some_iff.mp hother).1
    rw [Array.size_setIfInBounds] at hin
    rw [Array.getElem?_setIfInBounds_self_of_lt hin] at hother
    cases hother
    exact hthread
  · rw [Array.getElem?_setIfInBounds_ne (Ne.symm ht)] at hother
    exact h.frames t other hother

theorem advance
    (h : Outside before s)
    (index : Nat) :
    Outside before (s.advance index) := by
  by_cases hgoing : s.aborted = none
  · cases hthread : s.threads[index]? with
    | none =>
        rw [(System.advance_of_none hthread).1]
        exact h
    | some thread =>
        cases hframes : thread.frames with
        | nil =>
            rw [(System.advance_of_over hthread hframes).1]
            exact h
        | cons frame below =>
            have hall := h.frames index thread hthread
            rw [hframes, List.all_cons, Bool.and_eq_true] at hall
            have hframe : frame.isOutside s.world.scheduler.running = true := by
              rw [h.rests.running]
              exact hall.1
            have hstep := Frame.rests_step hframe thread.identity
            cases hmove : frame.step s.world thread.identity with
            | go next identity frames =>
                rw [hmove] at hstep
                cases hstep with
                | go hrests houtside =>
                    rw [h.rests.running] at houtside
                    rw [System.advance_of_go hgoing hthread hframes hmove]
                    refine h.set hrests ?_
                    rw [List.all_append, houtside, hall.2]
                    rfl
            | fail next failure =>
                rw [hmove] at hstep
                cases hstep with
                | fail hrests =>
                    cases failure with
                    | error cause =>
                        rw [System.advance_of_error hgoing hthread hframes hmove]
                        refine ⟨h.rests.trans ?_, h.frames⟩
                        rw [System.abort, World.scheduler_trace]
                        exact hrests
                    | panic cause =>
                        rw [System.advance_of_panic hgoing hthread hframes hmove, System.raise,
                          unwind_outside hall.2]
                        exact h.set hrests rfl
            | recruit next workers | await next others pending =>
                rw [hmove] at hstep
                cases hstep
  · rw [(System.advance_of_aborted (Option.isSome_iff_ne_none.mpr hgoing) index).1]
    exact h

theorem run
    (h : Outside before s)
    (schedule : List Nat) :
    Outside before (s.run schedule) := by
  induction schedule generalizing s with
  | nil =>
      exact h
  | cons index schedule ih =>
      exact ih (h.advance index)

end Outside

/-- A call of a scheduler. -/
inductive Call where
  | run (job : JobId) (threads : Nat)
  | runThunk (body : Code) (threads : Nat)
  | spawn (job : JobId)
  | takeBack
  | finish

namespace Call

def action : Call → Action
  | run job threads => .run job threads
  | runThunk body threads => .runThunk body threads
  | spawn job => .spawn job
  | takeBack => .takeBack
  | finish => .finish

def system (call : Call) (world : World) (identity : Option Nat) : System :=
  { world, threads := #[{ frames := [.perform [call.action]], identity }] }

variable {call : Call} {w : World}

/-- A call that is made while a run is in progress, or that is not a run, is outside of runs. -/
theorem outside
    (hcall : call.action.isOutside w.scheduler.running = true)
    (identity : Option Nat) (schedule : List Nat) :
    w.scheduler.Rests ((call.system w identity).run schedule).world.scheduler := by
  have houtside : Outside w.scheduler (call.system w identity) := by
    refine ⟨.refl _, fun t thread hthread => ?_⟩
    rw [Array.mem_singleton.mp (Array.mem_of_getElem? hthread)]
    exact all_isOutside (List.all_cons.trans (by rw [hcall]; rfl))
  exact (houtside.run schedule).rests

end Call

end Machine

open Machine (Call Errand IsFair Request System World turns)

namespace Scheduler

/-- The schedulers to which calls lead that are made one after another since it was built. Whoever
calls, whatever the jobs are and whatever the order of the steps is, the next call is made when the
one before was left. -/
inductive Reached : Scheduler → Prop where
  | built {config : Config} {offered : UInt64} {s : Scheduler}
      (hbuild : build config offered = .ok s) :
      Reached s
  | called {w : World} {call : Call} {identity : Option Nat} {schedule : List Nat}
      (h : Reached w.scheduler)
      (hleft : ((call.system w identity).run schedule).hasLeft = true) :
      Reached ((call.system w identity).run schedule).world.scheduler

/-- What calls rely on. -/
structure IsSound (s : Scheduler) : Prop where
  deques : 0 < s.dequeCount
  word : s.dequeCount < UInt64.size
  workers : 0 < s.maxWorkers
  trials : 0 < s.stealTrials
  capacity : ∃ capacity, ∀ place ∈ s.places, place.deque.capacity = capacity
  level : s.running = false → s.IsLevel

/-- A run that was left has left the deques at their first slots, or the scheduler claimed. -/
theorem level_of_request
    (r : Request)
    (hidle : r.world.scheduler.running = false)
    (hlevel : r.world.scheduler.IsLevel)
    (identity : Option Nat) {schedule : List Nat}
    (hleft : ((r.system identity).run schedule).hasLeft = true)
    (hrunning : ((r.system identity).run schedule).world.scheduler.running = false) :
    ((r.system identity).run schedule).world.scheduler.IsLevel := by
  obtain ⟨hmany, hfew⟩ := r.gives_back_iff hidle identity hleft
  by_cases hasked : r.asked ≤ r.world.scheduler.dequeCount
  · obtain ⟨hiff, hkept⟩ := hfew hasked
    by_cases hdrained : r.Drained (r.system identity) schedule
    · exact fun place hplace => ((hiff.mpr hdrained).clean place hplace).top
    · rw [hkept hdrained] at hrunning
      cases hrunning
  · rw [hmany (Nat.lt_of_not_le hasked)]
    exact hlevel

namespace Reached

variable {s : Scheduler}

theorem isSound
    (h : s.Reached) :
    s.IsSound := by
  induction h with
  | built hbuild =>
      have hnew := isNew_of_build hbuild
      exact ⟨hnew.deques, hnew.word, hnew.workers, hnew.trials,
        ⟨_, fun place hplace => (hnew.idle.clean place hplace).1⟩,
        fun _ place hplace => (hnew.idle.clean place hplace).2.2⟩
  | @called w call identity schedule _ hleft ih =>
      have hcontinues : w.scheduler.Continues _ :=
        (System.continues_run (call.system w identity) schedule).scheduler
      obtain ⟨capacity, hcapacity⟩ := ih.capacity
      refine ⟨?_, ?_, ?_, ?_, ⟨capacity, hcontinues.capacity_eq hcapacity⟩, fun hrunning => ?_⟩
      · rw [hcontinues.dequeCount]
        exact ih.deques
      · rw [hcontinues.dequeCount]
        exact ih.word
      · rw [hcontinues.maxWorkers]
        exact ih.workers
      · rw [hcontinues.stealTrials]
        exact ih.trials
      · by_cases hcall : call.action.isOutside w.scheduler.running = true
        · have hrests := Call.outside hcall identity schedule
          exact hrests.level (ih.level (hrests.running.symm.trans hrunning))
        · have hidle : w.scheduler.running = false ∧
              ∃ r : Request, r.world = w ∧ r.system identity = call.system w identity := by
            cases call with
            | run job threads =>
                exact ⟨Bool.eq_false_of_not_eq_true hcall, .ofJob w job threads, rfl, rfl⟩
            | runThunk body threads =>
                exact ⟨Bool.eq_false_of_not_eq_true hcall, .ofThunk w body threads, rfl, rfl⟩
            | spawn job | takeBack | finish =>
                exact absurd rfl hcall
          obtain ⟨hclaimed, r, rfl, hsystem⟩ := hidle
          rw [← hsystem] at hleft hrunning ⊢
          exact level_of_request r hclaimed (ih.level hclaimed) identity hleft hrunning

/-- Whenever nobody has a scheduler and its deques are empty, they are clean. -/
theorem follows
    (h : s.Reached)
    (hrunning : s.running = false)
    (hdrained : s.IsDrained) :
    ∃ capacity, s.Follows capacity fun _ => {} := by
  obtain ⟨capacity, hcapacity⟩ := h.isSound.capacity
  refine ⟨capacity, fun i place hplace => ?_⟩
  have hmem := Array.mem_of_getElem? hplace
  have htop := h.isSound.level hrunning place hmem
  have hempty := hdrained place hmem
  have hbottom : place.deque.bottom = 0 := by
    rw [Deque.isEmpty, Deque.size, htop, beq_iff_eq] at hempty
    exact UInt32.toNat_inj.mp hempty
  refine ⟨⟨Deque.holds_nil_of_bottom_eq_zero hbottom htop, ?_⟩, hcapacity place hmem⟩
  rw [htop]
  rfl

end Reached

end Scheduler

namespace Machine.Errand

variable {e : Errand}

/-- An errand is ready when it is called while nobody has the scheduler and its deques are empty,
whatever was called before. -/
theorem Posed.ready
    (h : e.Posed)
    (hreached : e.request.world.scheduler.Reached)
    (hrunning : e.request.world.scheduler.running = false)
    (hdrained : e.request.world.scheduler.IsDrained)
    (htags : ¬ e.request.world.scheduler.OutOfTags 0) :
    e.Ready := by
  have hsound := hreached.isSound
  obtain ⟨capacity, hfollows⟩ := hreached.follows hrunning hdrained
  obtain ⟨place, hplace⟩ := Scheduler.exists_place hsound.deques
  have hcapacity : e.capacity = capacity := by
    rw [Errand.capacity, hplace]
    exact (hfollows 0 place hplace).2
  refine ⟨h, ?_, hsound.word, hrunning, hcapacity ▸ hfollows, hsound.trials, htags⟩
  show 0 < Scheduler.asked _ _
  unfold Scheduler.asked
  split
  · exact hsound.workers
  · exact Nat.pos_of_ne_zero ‹_›

/-- Whatever calls were made before, an errand that is called while nobody has the scheduler and its
deques are empty is completed under all fair schedules if and only if the flag that ends a run is
not set. If it is set the job is never begun, and the run never reports. -/
theorem Posed.completes_iff
    (h : e.Posed)
    (hreached : e.request.world.scheduler.Reached)
    (hrunning : e.request.world.scheduler.running = false)
    (hdrained : e.request.world.scheduler.IsDrained)
    (htags : ¬ e.request.world.scheduler.OutOfTags 0)
    (identity : Option Nat) :
    ((∀ σ, IsFair e.asked σ → ∃ n, ∀ m, n ≤ m →
      e.Completed ((e.request.system identity).run (turns σ m))
        ((e.request.system identity).performed (turns σ m))
        ((e.request.system identity).history (turns σ m))) ↔
      e.request.world.scheduler.finished = false) ∧
    (e.request.world.scheduler.finished = true → ∀ schedule,
      (e.request.system identity).performed schedule = [] ∧
        (e.request.system identity).history schedule = [] ∧
        ∀ outcome, ¬ e.request.world.Reports e.request.thunk ((e.request.system identity).run schedule) outcome) := by
  have hready := h.ready hreached hrunning hdrained htags
  refine ⟨⟨fun hcompletes => ?_,
      fun hfinished σ hfair => completes hready hfinished identity hfair⟩,
    fun hfinished => dismissed hready hfinished identity⟩
  refine Bool.eq_false_of_not_eq_true fun hfinished => ?_
  obtain ⟨n, hn⟩ := hcompletes _ (isFair_mod e.asked)
  have honce := (hn n (Nat.le_refl n)).once
  rw [(dismissed hready hfinished identity _).2.1] at honce
  cases honce

/-- A scheduler that was just built for one worker, and a job that ends the run. -/
def first : World :=
  { scheduler :=
      { config := { maxWorkers := some 1 }, maxWorkers := 1, stealTrials := 8
        idleSleep := .ofParts 0 1000
        places := Array.replicate 2
          { deque := { capacity := 200, capacity_pos := by decide, capacity_le := by decide } } }
    bodies := #[[.log "x", .finish]]
    flags := #[{}] }

theorem first_reached :
    first.scheduler.Reached := by
  have hbuild : Scheduler.build { maxWorkers := some 1 } 1 = .ok first.scheduler := rfl
  exact .built hbuild

def single (w : World) : Errand :=
  { request := .ofJob w 0 1, body := [.log "x"] }

theorem first_errand_completes :
    (single first).Posed ∧ first.scheduler.Reached ∧ first.scheduler.IsDrained ∧
      ∀ σ, IsFair 1 σ → ∃ n, ∀ m, n ≤ m →
        (single first).Completed (((single first).request.system none).run (turns σ m))
          (((single first).request.system none).performed (turns σ m))
          (((single first).request.system none).history (turns σ m)) := by
  have hposed : (single first).Posed := ⟨by decide, rfl, rfl, rfl, by decide⟩
  have hdrained : first.scheduler.IsDrained := by
    intro place hplace
    rw [(Array.mem_replicate.mp hplace).2]
    rfl
  have htags : ¬ first.scheduler.OutOfTags 0 := by
    rintro ⟨place, hplace, hnone⟩
    rw [(Array.mem_replicate.mp (Array.mem_of_getElem? hplace)).2] at hnone
    cases hnone
  exact ⟨hposed, first_reached, hdrained,
    (hposed.completes_iff first_reached rfl hdrained htags none).1.mpr rfl⟩

/-- The same scheduler after the run was ended that there was not. -/
def forgotten : World :=
  ((Call.finish.system first none).run [0, 0]).world

theorem forgotten_errand_dismissed :
    forgotten.scheduler.Reached ∧ forgotten.scheduler.running = false ∧
      forgotten.scheduler.IsDrained ∧ (single forgotten).Posed ∧
      (((single forgotten).request.system none).run (List.replicate 40 0)).hasLeft = true ∧
      ∀ schedule, ¬ (single forgotten).Completed
        (((single forgotten).request.system none).run schedule)
        (((single forgotten).request.system none).performed schedule)
        (((single forgotten).request.system none).history schedule) := by
  have hreached : forgotten.scheduler.Reached := .called first_reached (by decide)
  have hposed : (single forgotten).Posed := ⟨by decide, rfl, rfl, rfl, by decide⟩
  have hplaces : forgotten.scheduler.places = first.scheduler.places := rfl
  have hdrained : forgotten.scheduler.IsDrained := by
    intro place hplace
    rw [hplaces] at hplace
    rw [(Array.mem_replicate.mp hplace).2]
    rfl
  have htags : ¬ forgotten.scheduler.OutOfTags 0 := by
    rintro ⟨place, hplace, hnone⟩
    rw [hplaces] at hplace
    rw [(Array.mem_replicate.mp (Array.mem_of_getElem? hplace)).2] at hnone
    cases hnone
  refine ⟨hreached, rfl, hdrained, hposed, by decide +kernel, fun schedule hcompleted => ?_⟩
  have hready := hposed.ready hreached rfl hdrained htags
  have honce := hcompleted.once
  rw [(dismissed hready rfl none schedule).2.1] at honce
  cases honce

end Machine.Errand
end WorkStealing
