import WorkStealing.Proofs.ForkJoin.Course

/-!
# Safety of runs

Whatever the order is in which the threads of a run make their steps: no branch
of a fork is run twice, no fork returns too early, no assertion fails, and a run
that returns has run its thunk once and leaves an idle scheduler. If moreover
no branch uses what the other one writes, then the cells are as if each left
branch had been run before the right one.
-/

namespace WorkStealing
namespace ForkJoin

open Machine (Frame Moment Orderly System)

/-- What holds of a run at all times, with the plain actions and the moments so far. -/
structure Launch.Safe (l : Launch) (capacity : Nat) (s : System) (performed : List Action)
    (history : List Moment) : Prop where
  /-- Each branch of each fork begins and ends at most once, and each fork returns at most once,
  after both its branches have begun and ended. -/
  orderly : Orderly history
  /-- What was performed is the beginning of what the thunk asks for. -/
  begun : ∃ rest, Interleaving l.thunk (performed ++ rest)
  /-- If the process was given up, then for a full deque or for a tag at its limit. -/
  aborted : ∀ error, s.aborted = some error →
    error = .tagExhausted ∨ error = .dequeOverflow capacity
  /-- No thread panics, unless the statistics of the run cannot be summed. -/
  panicked : ∀ thread ∈ s.threads, ∀ cause, thread.panicked = some cause → cause = .addOverflow
  /-- A run that has returned has run its thunk from the beginning to the end. -/
  returned : l.world.Reports true s (.ok ()) → Interleaving l.thunk performed
  /-- It leaves an idle scheduler. -/
  idle : l.world.Reports true s (.ok ()) → s.world.scheduler.IsIdle capacity
  /-- It leaves the result of running each left branch before the right one, if the branches leave
  each other's cells alone. -/
  result : l.world.Reports true s (.ok ()) → Code.isRaceFree l.thunk = true →
    s.world.cells = Action.effects (Code.inOrder l.thunk) l.world.cells

namespace Launch

variable {l : Launch} {capacity turns : Nat} {P : Crew → Prop} {s : System}

/-- While the world is quiet no run has reported anything. -/
theorem not_reports_of_quiet
    (h : Quiet l.world.transcript.toList s.world.transcript)
    (outcome : Outcome) :
    ¬ l.world.Reports true s outcome := by
  rintro ⟨events, heq, hmem⟩
  obtain ⟨others, hothers, hnone⟩ := h
  rw [hothers] at heq
  rw [← List.append_cancel_left heq] at hmem
  exact hnone outcome hmem

/-- A scheduler whose deques follow empty lanes is idle. -/
theorem isIdle_of_follows
    {t : Scheduler}
    (hrunning : t.running = false)
    (hfinished : t.finished = false)
    (hfollows : t.Follows capacity fun _ => {}) :
    t.IsIdle capacity := by
  refine ⟨hrunning, hfinished, fun place hplace => ?_⟩
  obtain ⟨i, hi, hget⟩ := Array.mem_iff_getElem.mp hplace
  have hsome : t.places[i]? = some place := by
    rw [Array.getElem?_eq_getElem hi, hget]
  obtain ⟨hlane, hcapacity⟩ := hfollows i place hsome
  refine ⟨hcapacity, ?_, ?_⟩
  · exact UInt32.toNat_inj.mp hlane.bottom_eq
  · exact UInt32.toNat_inj.mp hlane.top_eq

/-- Strict code can be run in order. -/
theorem interleaving_nil
    (hstrict : Code.isStrict l.thunk = true) :
    ∃ rest, Interleaving l.thunk ([] ++ rest) :=
  ⟨_, Code.interleaving_inOrder l.thunk (Code.within_of_isStrict l.thunk hstrict)⟩

/-- While nothing has been reported there is nothing to be shown of a run that has returned. -/
theorem safe_of_not_reports
    {performed : List Action} {history : List Moment}
    (hnone : ¬ l.world.Reports true s (.ok ()))
    (horderly : Orderly history)
    (hbegun : ∃ rest, Interleaving l.thunk (performed ++ rest))
    (haborted : ∀ error, s.aborted = some error →
      error = .tagExhausted ∨ error = .dequeOverflow capacity)
    (hpanicked : ∀ thread ∈ s.threads, ∀ cause, thread.panicked = some cause →
      cause = .addOverflow) :
    l.Safe capacity s performed history :=
  ⟨horderly, hbegun, haborted, hpanicked, fun hreports => absurd hreports hnone,
    fun hreports => absurd hreports hnone, fun hreports => absurd hreports hnone⟩

/-- Before the region opens nothing has happened. -/
theorem safe_of_alone
    {frames : List Frame}
    (hstrict : Code.isStrict l.thunk = true)
    (halone : Alone s frames)
    (hnone : ¬ l.world.Reports true s (.ok ())) :
    l.Safe capacity s [] [] := by
  refine safe_of_not_reports hnone .nil (interleaving_nil hstrict) ?_ ?_
  · intro error herror
    rw [halone.going] at herror
    cases herror
  · intro thread hthread cause hcause
    rw [halone.sound hthread] at hcause
    cases hcause

/-- All stages are safe. -/
theorem safe_of_course
    {performed : List Action} {history : List Moment}
    (hstrict : Code.isStrict l.thunk = true)
    (h : Course l capacity P turns s performed history) :
    l.Safe capacity s performed history := by
  have haborted : ∀ error, s.aborted = some error →
      error = .tagExhausted ∨ error = .dequeOverflow capacity :=
    fun error herror => (h.cause_of_aborted herror).imp_right And.left
  cases h with
  | opening hopening =>
      obtain ⟨frame, frames, halone, -⟩ := hopening.exists_alone
      exact safe_of_alone hstrict halone (not_reports_of_quiet hopening.quiet _)
  | working hbelow hshows hinv hcrew =>
      refine safe_of_not_reports (not_reports_of_quiet hshows.backed.quiet _) hinv.told.orderly
        (Course.exists_completion hinv) haborted ?_
      intro thread hthread cause hcause
      rw [hshows.sound hthread] at hcause
      cases hcause
  | closing lanes halone hsettled hcleared hquiet =>
      refine safe_of_not_reports (not_reports_of_quiet hquiet _) hsettled.orderly ⟨[], ?_⟩ haborted
        ?_
      · rw [List.append_nil]
        exact hsettled.complete
      · intro thread hthread cause hcause
        rw [halone.sound hthread] at hcause
        cases hcause
  | returned halone hframes hsettled hrunning hfinished =>
      refine ⟨hsettled.orderly, ⟨[], ?_⟩, haborted, ?_, fun _ => hsettled.complete,
        fun _ => isIdle_of_follows hrunning hfinished hsettled.follows, fun _ hfree => ?_⟩
      · rw [List.append_nil]
        exact hsettled.complete
      · intro thread hthread cause hcause
        rw [halone.sound hthread] at hcause
        cases hcause
      · rw [hsettled.cells]
        exact hsettled.complete.effects_eq hfree _
  | failed hgoing hover horderly hfinished hcomplete hquiet =>
      refine safe_of_not_reports (not_reports_of_quiet hquiet _) horderly ⟨[], ?_⟩ haborted
        fun thread hthread => (hover thread hthread).2
      rw [List.append_nil]
      exact hcomplete
  | refused hmany halone hframes hreport =>
      refine safe_of_alone hstrict halone ?_
      rintro ⟨events, heq, hmem⟩
      obtain ⟨error, herror⟩ := hreport
      rw [herror, Array.toList_push] at heq
      rw [← List.append_cancel_left heq, List.mem_singleton] at hmem
      cases hmem
  | gaveUp error hgivenUp hsound hquiet horderly hcompletes hcause =>
      refine safe_of_not_reports (not_reports_of_quiet hquiet _) horderly hcompletes haborted ?_
      intro thread hthread cause hcause
      rw [hsound thread hthread] at hcause
      cases hcause

/-- Runs are safe, whatever the order of the steps is. -/
theorem run_safe
    (h : l.Ready capacity)
    (schedule : List Nat) :
    l.Safe capacity (l.system.run schedule) (l.system.performed schedule)
      (l.system.history schedule) :=
  safe_of_course (P := fun _ => True) h.strict
    (Course.run h trivial (fun _ _ _ _ _ _ _ => trivial) schedule)

/-- The event reports a run that went well. -/
def returnedOk : Event → Bool
  | .ranThunk (.ok _) => true
  | _ => false

theorem eq_of_returnedOk
    {event : Event}
    (hevent : returnedOk event = true) :
    event = .ranThunk (.ok ()) := by
  cases event with
  | ranThunk outcome =>
      cases outcome with
      | ok _ =>
          rfl
      | error cause =>
          cases hevent
  | _ =>
      cases hevent

/-- A run of the sample in which the second worker steals the right branch. -/
def sampleSchedule : List Nat :=
  List.replicate 14 0 ++ List.replicate 25 1 ++ List.replicate 12 0 ++ List.replicate 8 1 ++
    List.replicate 10 0

theorem sample_run_safe :
    sample.Ready 4 ∧ sample.world.Reports true (sample.system.run sampleSchedule) (.ok ()) ∧
      sample.Safe 4 (sample.system.run sampleSchedule) (sample.system.performed sampleSchedule)
        (sample.system.history sampleSchedule) := by
  have hreported :
      (sample.system.run sampleSchedule).world.transcript.toList.any returnedOk = true := by
    decide +kernel
  obtain ⟨event, hmem, hevent⟩ := List.any_eq_true.mp hreported
  rw [eq_of_returnedOk hevent] at hmem
  exact ⟨sample_ready, ⟨_, (List.nil_append _).symm, hmem⟩, run_safe sample_ready _⟩

end Launch
end ForkJoin
end WorkStealing
