import WorkStealing.Proofs.ForkJoin.Safety

/-!
# Runs do not get stuck

While the first job has not ended, some worker makes progress. A worker that
does not is in a wait for a right branch that has not ended, or in its outermost
loop. The right branch that it waits for may be in some deque or in some hands,
where a worker is busy; or it has been started by a worker that waits as well.
But then it was started later than all jobs below the wait, so that there is no
circle of waits: the proof goes from each wait to a job that was started later.
-/

namespace WorkStealing
namespace Machine

/-- The frame does something for a job. A loop that has got a job is about to execute it. -/
def Frame.isAtWork : Frame → Bool
  | .perform _ => true
  | .execute _ => true
  | .guarded _ => true
  | .fork _ _ _ _ => true
  | .loop point _ _ _ => point.held.isSome
  | _ => false

/-- The frame waits for a job to end. -/
def Frame.waitsFor : Frame → Option JobId
  | .loop _ _ (.jobDone job) _ => some job
  | .poll (.jobDone job) _ => some job
  | _ => none

def Frame.isLoopOf (worker : Nat) : Frame → Bool
  | .loop _ other _ _ => other == worker
  | _ => false

/-- The thread that plays the worker makes progress: it is at work, or the job for which it waits
has ended, or it is in a loop while the worker's own deque holds a job. -/
def System.Progresses (s : System) (thread worker : Nat) : Prop :=
  ∃ frame ∈ s.frameAt thread,
    frame.isAtWork = true ∨
      (∃ job ∈ frame.waitsFor, s.world.isDone job = true) ∨
      frame.isLoopOf worker = true ∧
        ∃ place ∈ s.world.scheduler.places[worker]?, place.deque.isEmpty = false

instance (s : System) (thread worker : Nat) :
    Decidable (s.Progresses thread worker) :=
  inferInstanceAs (Decidable (∃ frame ∈ s.frameAt thread, _))

end Machine

namespace ForkJoin

open Machine (Frame LoopPoint Moment RunPoint System)

def Call.isAtWork : Call → Bool
  | .loop held _ => held.isSome
  | _ => true

/-- What the innermost call of a worker may be when the worker makes progress. -/
inductive Crew.Advances (a : Crew) (v : Nat) : Prop where
  | works {call : Call} {below : List Call}
      (hstack : a.stack v = call :: below)
      (hwork : call.isAtWork = true)
  | released {job : JobId} {below : List Call}
      (hstack : a.stack v = .loop none (some job) :: below)
      (hended : a.items job = [])
  /-- It is the outermost loop, and the worker's own deque holds a job. -/
  | finds
      (hstack : a.stack v = [.loop none none])
      (hjobs : (a.lanes v).jobs ≠ [])

namespace Inv

variable {thunk : Code} {root : JobId} {a : Crew} {u : Nat} {job : JobId}

/-- A worker with a job in its hands is at work. -/
theorem advances_of_held
    (h : Inv thunk root a)
    (hhome : a.home job = .held u) :
    a.Advances u := by
  have hhand := (h.places.held u job).mpr hhome
  cases hstack : a.stack u with
  | nil =>
      rw [hstack] at hhand
      cases hhand
  | cons call below =>
      rw [hstack] at hhand
      refine .works hstack ?_
      cases call with
      | loop held stop =>
          cases hhand
          rfl
      | _ =>
          rfl

/-- A worker with a job in its deque is at work, or sees the job from its outermost loop. -/
theorem advances_of_queued
    (h : Inv thunk root a)
    (hpresent : ∀ v, a.stack v = [] → v ≠ 0)
    (hhome : a.home job = .queued u) :
    a.Advances u := by
  have hjob : job ∈ (a.lanes u).jobs := (h.places.queued u job).mpr hhome
  have hspine : job ∈ spine (base root u) (a.stack u) := (h.suffix rfl).subset hjob
  cases hstack : a.stack u with
  | nil =>
      rw [hstack] at hspine
      have hbase : job ∈ base root u := hspine
      rw [base, if_neg (hpresent u hstack)] at hbase
      cases hbase
  | cons call below =>
      rw [hstack] at hspine
      cases call with
      | loop held stop =>
          cases held with
          | some other =>
              exact .works hstack rfl
          | none =>
              cases stop with
              | some other =>
                  cases hspine
              | none =>
                  cases h.sits hstack
                  exact .finds hstack (List.ne_nil_of_mem hjob)
      | _ =>
          exact .works hstack rfl

/-- A job that was not started is in some deque or in some hands. -/
theorem exists_advances_of_not_taken
    (h : Inv thunk root a)
    (hpresent : ∀ v, a.stack v = [] → v ≠ 0)
    (hjob : job < a.count)
    (htaken : (a.home job).isTaken = false) :
    ∃ v, a.Advances v := by
  cases hhome : a.home job with
  | unborn =>
      exact absurd hjob (Nat.not_lt_of_le ((h.places.unborn job).mp hhome))
  | queued u =>
      exact ⟨u, h.advances_of_queued hpresent hhome⟩
  | held u =>
      exact ⟨u, h.advances_of_held hhome⟩
  | stacked u =>
      rw [hhome] at htaken
      cases htaken
  | gone =>
      rw [hhome] at htaken
      cases htaken

/-- A worker that does not make progress waits for a right branch, which was started later than
the jobs that the worker has started, if at all. -/
theorem advances_or_waits
    (h : Inv thunk root a)
    (hhome : a.home job = .stacked u) :
    a.Advances u ∨ ∃ right, right < a.count ∧ a.items right ≠ [] ∧
      ((a.home right).isTaken = true → a.start job < a.start right) := by
  have hguard := (h.places.stacked u job).mpr hhome
  cases hstack : a.stack u with
  | nil =>
      rw [hstack] at hguard
      cases hguard
  | cons call below =>
      have hsits := h.sits hstack
      cases call with
      | loop held stop =>
          cases held with
          | some other =>
              exact Or.inl (.works hstack rfl)
          | none =>
              rw [hstack] at hguard
              cases hsits with
              | outermost =>
                  cases hguard
              | waiting _ right deeper =>
                  by_cases hended : a.items right = []
                  · exact Or.inl (.released hstack hended)
                  · right
                    have hfork : Call.fork .closing right ∈ a.stack u := by
                      rw [hstack]
                      exact List.mem_cons_of_mem _ List.mem_cons_self
                    have habove := h.shape.above u
                    rw [hstack, List.pairwise_cons, List.pairwise_cons] at habove
                    exact ⟨right, (h.shape.forks u .closing right hfork).2.2, hended,
                      habove.2.1 (.guarded job) (mem_guards.mp hguard)⟩
      | _ =>
          exact Or.inl (.works hstack rfl)

/-- While a job has not ended, some worker makes progress. -/
theorem exists_advances
    (h : Inv thunk root a)
    (hpresent : ∀ v, a.stack v = [] → v ≠ 0)
    (hjob : job < a.count)
    (hopen : a.items job ≠ []) :
    ∃ v, a.Advances v := by
  -- Each wait on the way is for a job that was started later.
  induction hremaining : a.clock - a.start job using Nat.strongRecOn generalizing job with
  | ind remaining ih =>
      cases hhome : a.home job with
      | gone =>
          exact absurd (h.work.gone job hhome) hopen
      | stacked u =>
          rcases h.advances_or_waits hhome with hadvances | ⟨right, hright, hleft, hlater⟩
          · exact ⟨u, hadvances⟩
          · cases htaken : (a.home right).isTaken with
            | false =>
                exact h.exists_advances_of_not_taken hpresent hright htaken
            | true =>
                refine ih (a.clock - a.start right) ?_ hright hleft rfl
                rw [← hremaining]
                exact Nat.sub_lt_sub_left (h.shape.started job (by rw [hhome]; rfl))
                  (hlater htaken)
      | _ =>
          exact h.exists_advances_of_not_taken hpresent hjob (by rw [hhome]; rfl)

end Inv

namespace Depicts

variable {deques worker : Nat} {frame : Frame} {call : Call}

/-- A frame is at work when the call is that it shows. -/
theorem isAtWork
    (h : Depicts deques worker frame call) :
    frame.isAtWork = call.isAtWork := by
  cases h <;> rfl

/-- A frame that shows a wait waits for the same job. -/
theorem waitsFor
    (h : Depicts deques worker frame call)
    {held : Option JobId} {job : JobId}
    (hcall : call = .loop held (some job)) :
    frame.waitsFor = some job := by
  cases h with
  | loop point stop evaluations haim =>
      cases hcall
      rfl
  | poll other evaluations =>
      cases hcall
      rfl
  | _ =>
      cases hcall

/-- A frame that shows an outermost loop is a loop of the worker. -/
theorem isLoopOf
    (h : Depicts deques worker frame call)
    {held : Option JobId}
    (hcall : call = .loop held none) :
    frame.isLoopOf worker = true := by
  cases h with
  | loop point stop evaluations haim =>
      exact beq_self_eq_true worker
  | _ =>
      cases hcall

end Depicts

/-- A worker that makes progress in a crew does so in the system. -/
theorem Shows.progresses
    {thunk : Code} {g : Setting} {below : List Frame} {s : System} {a : Crew} {v : Nat}
    (h : Shows g below s a)
    (hg : g.Valid)
    (hinv : Inv thunk g.root a)
    (hadvances : a.Advances v) :
    ∃ t, g.workers[t]? = some v ∧ s.Progresses t v := by
  have hstack : a.stack v ≠ [] := by
    cases hadvances with
    | works hstack hwork =>
        rw [hstack]
        exact List.cons_ne_nil _ _
    | released hstack hended =>
        rw [hstack]
        exact List.cons_ne_nil _ _
    | finds hstack hjobs =>
        rw [hstack]
        exact List.cons_ne_nil _ _
  have hv : v ∈ g.workers := Decidable.byContradiction fun hno => hstack (h.others v hno)
  obtain ⟨t, ht⟩ := List.mem_iff_getElem?.mp hv
  obtain ⟨thread, frame, frames, call, calls, hthread, hframes, -, hcalls, hdepicts, -, -⟩ :=
    h.exists_frame ht hstack
  refine ⟨t, ht, frame, System.frameAt_of_thread h.going hthread hframes, ?_⟩
  cases hadvances with
  | works hworks hwork =>
      left
      rw [hcalls] at hworks
      cases hworks
      rw [hdepicts.isAtWork]
      exact hwork
  | @released job deeper hreleased hended =>
      refine Or.inr (Or.inl ⟨job, ?_, ?_⟩)
      · rw [hcalls] at hreleased
        exact hdepicts.waitsFor (List.cons.inj hreleased).1
      · obtain ⟨hroot, hjob⟩ : g.root < job ∧ job < a.count := by
          cases hinv.sits hreleased
          refine (hinv.shape.forks v .closing job ?_).2
          rw [hreleased]
          exact List.mem_cons_of_mem _ List.mem_cons_self
        exact h.backed.isDone_of_ended (Nat.le_of_lt hroot) hjob
          ((hinv.told.ended job).mpr ⟨hroot, hjob, hended⟩)
  | finds hfinds hjobs =>
      refine Or.inr (Or.inr ⟨?_, ?_⟩)
      · rw [hcalls] at hfinds
        exact hdepicts.isLoopOf (List.cons.inj hfinds).1
      · have hplace : v < s.world.scheduler.dequeCount := by
          rw [h.backed.deques]
          exact hg.below v hv
        obtain ⟨place, hget⟩ := Scheduler.exists_place hplace
        refine ⟨place, hget, ?_⟩
        rw [← Bool.not_eq_true, (h.backed.follows v place hget).1.holds.isEmpty_iff]
        exact hjobs

namespace Launch

variable {l : Launch} {capacity : Nat}

/-- When the region is open, some worker makes progress at all times until the first job has ended,
unless the process was given up. The region opens with the sixth turn of the calling thread,
whatever the others do. -/
theorem run_progresses
    (h : l.Ready capacity)
    (hzero : 0 ∈ l.workers)
    (hasked : l.asked ≤ l.world.scheduler.dequeCount)
    (schedule : List Nat)
    (hturns : openingTurns ≤ schedule.count 0)
    (hgoing : (l.system.run schedule).aborted = none)
    (hopen : .finished ∉ l.system.history schedule) :
    ∃ t v, l.workers[t]? = some v ∧ (l.system.run schedule).Progresses t v := by
  have hcourse := Course.run h (P := fun _ => True) trivial (fun _ _ _ _ _ _ _ => trivial) schedule
  generalize l.system.run schedule = s at hcourse hgoing ⊢
  generalize l.system.performed schedule = performed at hcourse
  generalize l.system.history schedule = history at hcourse hopen
  cases hcourse with
  | opening hopening =>
      exact absurd hopening.turns_lt (Nat.not_lt_of_le hturns)
  | @working below a hbelow hshows hinv hcrew =>
      have hitems : a.items l.root ≠ [] := fun hnil => hopen (hinv.told.finished.mpr hnil)
      have hpresent : ∀ v, a.stack v = [] → v ≠ 0 := by
        rintro v hnil rfl
        exact hopen (hshows.left 0 hzero hnil)
      obtain ⟨v, hadvances⟩ := hinv.exists_advances hpresent hinv.root_lt hitems
      obtain ⟨t, ht, hprogresses⟩ := hshows.progresses h.valid hinv hadvances
      exact ⟨t, v, ht, hprogresses⟩
  | closing lanes halone hsettled hcleared hquiet =>
      exact absurd hsettled.finished hopen
  | returned halone hframes hsettled hrunning hfinished =>
      exact absurd hsettled.finished hopen
  | failed hover hnone horderly hfinished hcomplete hquiet =>
      exact absurd hfinished hopen
  | refused hmany halone hframes hreport =>
      exact absurd hmany (Nat.not_lt_of_le hasked)
  | gaveUp error haborted hsound hquiet horderly hcompletes hcause =>
      rw [haborted] at hgoing
      cases hgoing

/-- A run of the sample up to a wait of the first worker for the branch that the second one has
stolen. -/
def waitSchedule : List Nat :=
  List.replicate 14 0 ++ List.replicate 16 1 ++ List.replicate 12 0

/-- The first worker makes no progress then, so that it is the second one that does. -/
theorem sample_run_progresses :
    openingTurns ≤ waitSchedule.count 0 ∧ sample.asked ≤ sample.world.scheduler.dequeCount ∧
      (sample.system.run waitSchedule).aborted = none ∧
      .finished ∉ sample.system.history waitSchedule ∧
      ¬ (sample.system.run waitSchedule).Progresses 0 0 ∧
      sample.workers[1]? = some 1 ∧ (sample.system.run waitSchedule).Progresses 1 1 := by
  have hturns : openingTurns ≤ waitSchedule.count 0 := by
    decide
  have hgoing : (sample.system.run waitSchedule).aborted = none := by
    decide +kernel
  have hopen : .finished ∉ sample.system.history waitSchedule := by
    decide +kernel
  have hwaits : ¬ (sample.system.run waitSchedule).Progresses 0 0 := by
    decide +kernel
  obtain ⟨t, v, hv, hprogresses⟩ :=
    run_progresses sample_ready (by decide) (by decide) waitSchedule hturns hgoing hopen
  have hworker : t = v ∧ (v = 0 ∨ v = 1) := by
    rw [show sample.workers = [0, 1] by decide] at hv
    rcases t with _ | _ | t <;> simp at hv <;> omega
  obtain ⟨rfl, rfl | rfl⟩ := hworker
  · exact absurd hprogresses hwaits
  · exact ⟨hturns, by decide, hgoing, hopen, hwaits, hv, hprogresses⟩

end Launch
end ForkJoin
end WorkStealing
