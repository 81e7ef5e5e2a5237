import Mathlib.Data.List.Forall2
import WorkStealing.Proofs.ForkJoin.Crew
import WorkStealing.Proofs.ForkJoin.Determinacy
import WorkStealing.Proofs.Machine.Advance

/-!
# What a machine shows of a crew

The frames of a thread that plays a worker show the calls of that worker
(`Depicts`), where counters, pauses and the search for a victim are left out.
The world shows the lanes of the deques, the jobs and what was told of them, and
the cells as the plain actions have left them (`Backs`).
-/

namespace WorkStealing
namespace Machine

/-- The job that a loop has got. -/
def LoopPoint.held : LoopPoint → Option JobId
  | .popped job => some job
  | .stolen job => some job
  | .dispatch job => some job
  | _ => none

/-- The place at which a loop aims is one of so many. -/
def LoopPoint.AimsBelow (deques : Nat) : LoopPoint → Prop
  | .count _ target => target < deques
  | .steal _ target => target < deques
  | _ => True

/-- The loop has found its own deque empty, and is looking for a job elsewhere. -/
def LoopPoint.hasLooked : LoopPoint → Bool
  | .trial _ => true
  | .aim _ => true
  | .advance _ _ => true
  | .count _ _ => true
  | .steal _ _ => true
  | _ => false

def Frame.hasLooked : Frame → Bool
  | .loop point _ _ _ => point.hasLooked
  | _ => false

/-- When a loop inside a region ends: with a job, or else with the run. -/
def Stop.ofJob : Option JobId → Stop
  | none => .finished
  | some job => .jobDone job

/-- Such a loop can always tell whether it is to end. -/
theorem Stop.exists_holds_ofJob
    (stop : Option JobId) (evaluation : Nat) (memory : Memory) :
    ∃ holds, (Stop.ofJob stop).holds evaluation memory = .ok holds := by
  cases stop <;> exact ⟨_, rfl⟩

end Machine

namespace ForkJoin

open Function (update)
open Machine (Frame World Moment Stop LoopPoint)

/-- The frame is this call of the worker, where there are so many deques. -/
inductive Depicts (deques worker : Nat) : Frame → Call → Prop where
  | perform (rest : Code) : Depicts deques worker (.perform rest) (.code rest)
  | execute (job : JobId) : Depicts deques worker (.execute job) (.fetch job)
  | guarded (job : JobId) : Depicts deques worker (.guarded job) (.guarded job)
  | publish (right : JobId) (left : Code) :
      Depicts deques worker (.fork .publish worker right left) (.fork (.publish left) right)
  | published (right : JobId) (left : Code) :
      Depicts deques worker (.fork .published worker right left) (.fork (.published left) right)
  | check (right : JobId) (left : Code) :
      Depicts deques worker (.fork .check worker right left) (.fork .check right)
  | reclaim (right : JobId) (left : Code) :
      Depicts deques worker (.fork .reclaim worker right left) (.fork .reclaim right)
  | reclaimed (right : JobId) (left : Code) :
      Depicts deques worker (.fork (.reclaimed right) worker right left) (.fork .inline right)
  | inlineJoin (right : JobId) (left : Code) :
      Depicts deques worker (.fork .inlineJoin worker right left) (.fork .inline right)
  | stolenJoin (right : JobId) (left : Code) :
      Depicts deques worker (.fork .stolenJoin worker right left) (.fork .stolen right)
  | closing (right : JobId) (left : Code) :
      Depicts deques worker (.fork .closing worker right left) (.fork .closing right)
  | loop (point : LoopPoint) (stop : Option JobId) (evaluations : Nat) :
      point.AimsBelow deques →
      Depicts deques worker (.loop point worker (.ofJob stop) evaluations) (.loop point.held stop)
  | poll (job : JobId) (evaluations : Nat) :
      Depicts deques worker (.poll (.jobDone job) evaluations) (.loop none (some job))

/-- Of these frames only the innermost one may be a loop that looks for a job elsewhere, and then
there are no jobs in the own deque. -/
structure Looks (frames : List Frame) (jobs : List JobId) : Prop where
  top : frames.head?.any Frame.hasLooked = true → jobs = []
  deeper : frames.tail.any Frame.hasLooked = false

/-- None of the frames looks for a job. -/
theorem Looks.of_any
    {frames : List Frame}
    (h : frames.any Frame.hasLooked = false)
    (jobs : List JobId) :
    Looks frames jobs := by
  cases frames with
  | nil =>
      exact ⟨fun hlooked => absurd hlooked Bool.false_ne_true, rfl⟩
  | cons frame rest =>
      rw [List.any_cons, Bool.or_eq_false_iff] at h
      exact ⟨fun hlooked => absurd (h.1.symm.trans hlooked) Bool.false_ne_true, h.2⟩

/-- Other frames in place of the innermost one. -/
theorem Looks.replace
    {frame : Frame} {frames deeper : List Frame} {jobs after : List JobId}
    (h : Looks (frame :: deeper) jobs)
    (hframes : Looks frames after) :
    Looks (frames ++ deeper) after := by
  have hnone : deeper.any Frame.hasLooked = false := h.deeper
  cases frames with
  | nil =>
      cases deeper with
      | nil =>
          exact hframes
      | cons next rest =>
          rw [List.any_cons, Bool.or_eq_false_iff] at hnone
          refine ⟨fun hlooked => ?_, hnone.2⟩
          exact absurd (hnone.1.symm.trans hlooked) Bool.false_ne_true
  | cons first rest =>
      refine ⟨hframes.top, ?_⟩
      show (rest ++ deeper).any Frame.hasLooked = false
      rw [List.any_append, Bool.or_eq_false_iff]
      exact ⟨hframes.deeper, hnone⟩

/-- What does not change while a region is open. -/
structure Setting where
  root : JobId
  /-- The workers, by the number of the thread that plays them. -/
  workers : List Nat
  deques : Nat
  capacity : Nat
  cells : Array UInt64
  events : List Event

/-- Each worker has a thread of its own and a deque of its own, and the number of deques fits in
a word. -/
structure Setting.Valid (g : Setting) : Prop where
  manned : g.workers ≠ []
  nodup : g.workers.Nodup
  below : ∀ v ∈ g.workers, v < g.deques
  word : g.deques < UInt64.size

/-- The flags of a job agree with what was told about it. -/
structure Agrees (history : List Moment) (job : JobId) (flags : JobFlags) : Prop where
  taken : flags.taken = true ↔ .jobBegan job ∈ history
  /-- It is marked as started later. -/
  started : flags.started = true → .jobBegan job ∈ history
  done : flags.done = true ↔ .jobEnded job ∈ history

def Quiet (before : List Event) (transcript : Array Event) : Prop :=
  ∃ events, transcript.toList = before ++ events ∧ ∀ outcome, .ranThunk outcome ∉ events

/-- The world behind a crew with these lanes and jobs, after these actions and moments. -/
structure Backs (g : Setting) (w : World) (lanes : Nat → Lane) (count : Nat) (body : JobId → Code)
    (performed : List Action) (history : List Moment) : Prop where
  deques : w.scheduler.dequeCount = g.deques
  follows : w.scheduler.Follows g.capacity lanes
  /-- The run is to end when the first job has ended. -/
  finished : w.scheduler.finished = true ↔ .finished ∈ history
  bodies : w.bodies.size = count
  body : ∀ job, g.root ≤ job → job < count → w.bodies[job]? = some (body job)
  flags : w.flags.size = count
  agrees : ∀ job flags, g.root ≤ job → w.flags[job]? = some flags → Agrees history job flags
  /-- The cells are as the plain actions have left them. -/
  cells : w.cells = Action.effects performed g.cells
  quiet : Quiet g.events w.transcript

theorem Quiet.push
    {before : List Event} {transcript : Array Event}
    (h : Quiet before transcript)
    {event : Event}
    (hevent : ∀ outcome, event ≠ .ranThunk outcome) :
    Quiet before (transcript.push event) := by
  obtain ⟨events, heq, hnone⟩ := h
  refine ⟨events ++ [event], ?_, ?_⟩
  · rw [Array.toList_push, heq, List.append_assoc]
  · intro outcome hmem
    rcases List.mem_append.mp hmem with hold | hnew
    · exact hnone outcome hold
    · exact hevent outcome (List.mem_singleton.mp hnew).symm

/-- A trace record reports no run. -/
theorem Quiet.trace
    {before : List Event} {w : World}
    (h : Quiet before w.transcript)
    (record : TraceRecord) :
    Quiet before (w.trace record).transcript := by
  rcases w.trace_cases record with heq | heq
  · rw [heq]
    exact h.push fun _ => Event.noConfusion
  · rw [heq]
    exact h

/-- Only moments of the job itself matter for its flags. -/
theorem Agrees.congr
    {history later : List Moment} {job : JobId} {flags : JobFlags}
    (h : Agrees history job flags)
    (hbegan : .jobBegan job ∈ later ↔ .jobBegan job ∈ history)
    (hended : .jobEnded job ∈ later ↔ .jobEnded job ∈ history) :
    Agrees later job flags := by
  refine ⟨?_, ?_, ?_⟩
  · rw [hbegan]
    exact h.taken
  · rw [hbegan]
    exact h.started
  · rw [hended]
    exact h.done

namespace Backs

variable {g : Setting} {w : World} {lanes : Nat → Lane} {count : Nat} {body : JobId → Code}
  {performed : List Action} {history : List Moment}

/-- A job of the run has flags. -/
theorem exists_flags
    (h : Backs g w lanes count body performed history)
    {job : JobId}
    (hroot : g.root ≤ job)
    (hjob : job < count) :
    ∃ flags, w.flags[job]? = some flags ∧ Agrees history job flags := by
  have hsize : job < w.flags.size := by
    rw [h.flags]
    exact hjob
  have hget := Array.getElem?_eq_getElem hsize
  exact ⟨_, hget, h.agrees job _ hroot hget⟩

/-- A job that is seen as done has ended. -/
theorem ended_of_isDone
    (h : Backs g w lanes count body performed history)
    {job : JobId}
    (hroot : g.root ≤ job)
    (hdone : w.isDone job = true) :
    .jobEnded job ∈ history := by
  unfold Memory.isDone at hdone
  cases hget : w.flags[job]? with
  | none =>
      rw [hget] at hdone
      cases hdone
  | some flags =>
      rw [hget] at hdone
      exact (h.agrees job flags hroot hget).done.mp hdone

theorem isDone_of_ended
    (h : Backs g w lanes count body performed history)
    {job : JobId}
    (hroot : g.root ≤ job)
    (hjob : job < count)
    (hended : .jobEnded job ∈ history) :
    w.isDone job = true := by
  obtain ⟨flags, hget, hagrees⟩ := h.exists_flags hroot hjob
  unfold Memory.isDone
  rw [hget]
  exact hagrees.done.mpr hended

/-- A job that is seen as started has begun. -/
theorem began_of_isStarted
    (h : Backs g w lanes count body performed history)
    {job : JobId}
    (hroot : g.root ≤ job)
    (hstarted : w.isStarted job = true) :
    .jobBegan job ∈ history := by
  unfold Memory.isStarted at hstarted
  cases hget : w.flags[job]? with
  | none =>
      rw [hget] at hstarted
      cases hstarted
  | some flags =>
      rw [hget] at hstarted
      exact (h.agrees job flags hroot hget).started hstarted

/-- An operation of the scheduler changes no more than the lanes. -/
theorem schedule
    (h : Backs g w lanes count body performed history)
    {scheduler : Scheduler} {after : Nat → Lane}
    (hkeeps : w.scheduler.Keeps scheduler)
    (hfollows : scheduler.Follows g.capacity after) :
    Backs g { w with scheduler } after count body performed history := by
  refine ⟨?_, hfollows, ?_, h.bodies, h.body, h.flags, h.agrees, h.cells, h.quiet⟩
  · exact hkeeps.dequeCount.trans h.deques
  · show scheduler.finished = true ↔ _
    rw [hkeeps.finished]
    exact h.finished

theorem emit
    (h : Backs g w lanes count body performed history)
    {event : Event}
    (hevent : ∀ outcome, event ≠ .ranThunk outcome) :
    Backs g (w.emit event) lanes count body performed history :=
  ⟨h.deques, h.follows, h.finished, h.bodies, h.body, h.flags, h.agrees, h.cells,
    h.quiet.push hevent⟩

theorem trace
    (h : Backs g w lanes count body performed history)
    (record : TraceRecord) :
    Backs g (w.trace record) lanes count body performed history := by
  rcases w.trace_cases record with heq | heq
  · rw [heq]
    exact h.emit fun _ => Event.noConfusion
  · rw [heq]
    exact h

/-- A moment of a fork leaves no trace in the world. -/
theorem tell
    (h : Backs g w lanes count body performed history)
    {moment : Moment}
    (hfinished : moment ≠ .finished)
    (hjobs : ∀ job, moment ≠ .jobBegan job ∧ moment ≠ .jobEnded job) :
    Backs g w lanes count body performed (history ++ [moment]) := by
  refine ⟨h.deques, h.follows, ?_, h.bodies, h.body, h.flags, ?_, h.cells, h.quiet⟩
  · rw [Moment.mem_concat_of_ne hfinished.symm]
    exact h.finished
  · intro job flags hroot hget
    exact (h.agrees job flags hroot hget).congr (Moment.mem_concat_of_ne (hjobs job).1.symm)
      (Moment.mem_concat_of_ne (hjobs job).2.symm)

theorem setFlags
    (h : Backs g w lanes count body performed history)
    {later : List Moment}
    (job : JobId) (change : JobFlags → JobFlags)
    (hjob : ∀ flags, Agrees history job flags → Agrees later job (change flags))
    (hothers : ∀ k flags, k ≠ job → Agrees history k flags → Agrees later k flags)
    (hfinished : .finished ∈ later ↔ .finished ∈ history) :
    Backs g { w with toMemory := w.setFlags job change } lanes count body performed later := by
  refine ⟨h.deques, h.follows, ?_, h.bodies, h.body, ?_, ?_, h.cells, h.quiet⟩
  · rw [hfinished]
    exact h.finished
  · exact Array.size_modify.trans h.flags
  · intro k flags hroot hget
    have hmodify : (w.flags.modify job change)[k]? = some flags := hget
    rw [Array.getElem?_modify] at hmodify
    by_cases hk : job = k
    · subst hk
      rw [if_pos rfl, Option.map_eq_some_iff] at hmodify
      obtain ⟨old, hold, rfl⟩ := hmodify
      exact hjob old (h.agrees job old hroot hold)
    · rw [if_neg hk] at hmodify
      exact hothers k flags (Ne.symm hk) (h.agrees k flags hroot hmodify)

theorem take
    (h : Backs g w lanes count body performed history)
    (job : JobId) :
    Backs g { w with toMemory := w.setFlags job fun flags => { flags with taken := true } }
      lanes count body performed (history ++ [.jobBegan job]) := by
  refine h.setFlags job _ ?_ ?_ ?_
  · intro flags hflags
    have hbegan : Moment.jobBegan job ∈ history ++ [.jobBegan job] :=
      List.mem_append_right _ List.mem_cons_self
    refine ⟨iff_of_true rfl hbegan, fun _ => hbegan, ?_⟩
    rw [Moment.mem_concat_of_ne Moment.noConfusion]
    exact hflags.done
  · intro k flags hk hflags
    refine hflags.congr (Moment.mem_concat_of_ne ?_) (Moment.mem_concat_of_ne Moment.noConfusion)
    intro heq
    exact hk (Moment.jobBegan.inj heq)
  · exact Moment.mem_concat_of_ne Moment.noConfusion

theorem start
    (h : Backs g w lanes count body performed history)
    {job : JobId}
    (hbegan : .jobBegan job ∈ history) :
    Backs g { w with toMemory := w.setFlags job fun flags => { flags with started := true } }
      lanes count body performed history := by
  refine h.setFlags job _ ?_ (fun _ _ _ hflags => hflags) Iff.rfl
  intro flags hflags
  exact ⟨hflags.taken, fun _ => hbegan, hflags.done⟩

theorem complete
    (h : Backs g w lanes count body performed history)
    (job : JobId) :
    Backs g { w with toMemory := w.setFlags job fun flags => { flags with done := true } }
      lanes count body performed (history ++ [.jobEnded job]) := by
  refine h.setFlags job _ ?_ ?_ ?_
  · intro flags hflags
    refine ⟨?_, ?_, iff_of_true rfl (List.mem_append_right _ List.mem_cons_self)⟩
    · rw [Moment.mem_concat_of_ne Moment.noConfusion]
      exact hflags.taken
    · rw [Moment.mem_concat_of_ne Moment.noConfusion]
      exact hflags.started
  · intro k flags hk hflags
    refine hflags.congr (Moment.mem_concat_of_ne Moment.noConfusion) (Moment.mem_concat_of_ne ?_)
    intro heq
    exact hk (Moment.jobEnded.inj heq)
  · exact Moment.mem_concat_of_ne Moment.noConfusion

theorem finish
    (h : Backs g w lanes count body performed history) :
    Backs g { w with scheduler := { w.scheduler with finished := true } }
      lanes count body performed (history ++ [.finished]) := by
  refine ⟨h.deques, h.follows, ?_, h.bodies, h.body, h.flags, ?_, h.cells, h.quiet⟩
  · exact iff_of_true rfl (List.mem_append_right _ List.mem_cons_self)
  · intro job flags hroot hget
    exact (h.agrees job flags hroot hget).congr (Moment.mem_concat_of_ne Moment.noConfusion)
      (Moment.mem_concat_of_ne Moment.noConfusion)

theorem log
    (h : Backs g w lanes count body performed history)
    (label : String) (worker : Option Nat) :
    Backs g (w.emit (.log label worker)) lanes count body (performed ++ [.log label]) history := by
  have hemit : Backs g (w.emit (.log label worker)) lanes count body performed history :=
    h.emit fun _ => Event.noConfusion
  refine ⟨hemit.deques, hemit.follows, hemit.finished, hemit.bodies, hemit.body, hemit.flags,
    hemit.agrees, ?_, hemit.quiet⟩
  rw [Action.effects_append]
  exact hemit.cells

theorem store
    (h : Backs g w lanes count body performed history)
    (cell : Nat) (constant : UInt64) (sources : List Nat) :
    Backs g
      { w with
        cells := w.cells.setIfInBounds cell
          (sources.foldl (fun sum source => sum + w.cell source) constant) }
      lanes count body (performed ++ [.store cell constant sources]) history := by
  refine ⟨h.deques, h.follows, h.finished, h.bodies, h.body, h.flags, h.agrees, ?_, h.quiet⟩
  rw [Action.effects_append, ← h.cells]
  rfl

/-- A fork makes a job of its right branch. -/
theorem addJob
    (h : Backs g w lanes count body performed history)
    (make : JobId → Code)
    (hbegan : .jobBegan count ∉ history)
    (hended : .jobEnded count ∉ history) :
    Backs g (w.addJob make).1 lanes (count + 1) (update body count (make count)) performed
      history := by
  refine ⟨h.deques, h.follows, h.finished, ?_, ?_, ?_, ?_, h.cells, h.quiet⟩
  · exact (Array.size_push _).trans (congrArg Nat.succ h.bodies)
  · intro job hroot hjob
    show (w.bodies.push (make w.bodies.size))[job]? = _
    rw [Array.getElem?_push, h.bodies]
    by_cases hlast : job = count
    · rw [if_pos hlast, hlast, Function.update_self]
    · rw [if_neg hlast, Function.update_of_ne hlast]
      exact h.body job hroot (Nat.lt_of_le_of_ne (Nat.le_of_lt_succ hjob) hlast)
  · exact (Array.size_push _).trans (congrArg Nat.succ h.flags)
  · intro job flags hroot hget
    have hpush : (w.flags.push {})[job]? = some flags := hget
    rw [Array.getElem?_push, h.flags] at hpush
    by_cases hlast : job = count
    · rw [if_pos hlast] at hpush
      cases hpush
      subst hlast
      exact ⟨iff_of_false Bool.false_ne_true hbegan, fun hno => absurd hno Bool.false_ne_true,
        iff_of_false Bool.false_ne_true hended⟩
    · rw [if_neg hlast] at hpush
      exact h.agrees job flags hroot hpush

end Backs
end ForkJoin
end WorkStealing
