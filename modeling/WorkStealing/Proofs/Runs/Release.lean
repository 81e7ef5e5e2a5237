import WorkStealing.Proofs.Deque.Tags
import WorkStealing.Proofs.ForkJoin.Course
import WorkStealing.Proofs.Machine.Staff
import WorkStealing.Proofs.Runs.Upkeep

/-!
# Giving the scheduler back

A run claims the scheduler, and at its end puts all deques back and releases the
scheduler. In between lies whatever the jobs do. The deques can only be put back
when no job is left in them, and a panic on the way leaves the scheduler claimed:
so a run that ends gives the scheduler back exactly when all deques were empty at
the moment when its workers had left (`System.gives_back_iff`).

The stages of a run are those of `Tenure`. While the region is open they know
nothing about the jobs, but that all calls above the region are internal.
-/

namespace WorkStealing

/-- No deque holds a job. -/
def Scheduler.IsDrained (s : Scheduler) : Prop :=
  ∀ place ∈ s.places, place.deque.isEmpty = true

/-- The scheduler can be used for another run. -/
structure Scheduler.IsGivenBack (s : Scheduler) : Prop where
  running : s.running = false
  finished : s.finished = false
  clean : ∀ place ∈ s.places, place.deque.IsClean

namespace Machine

open ForkJoin (Alone)

/-- A panic is not let through by internal calls, or goes on below them. -/
theorem unwind_internal
    (cause : Panic) {upper : List Frame}
    (hupper : upper.all Frame.isInternal = true)
    (identity : Option Nat) (rest : List Frame) :
    unwind cause identity (upper ++ rest) = .blocked ∨
      ∃ other, unwind cause identity (upper ++ rest) = unwind cause other rest := by
  induction upper generalizing identity with
  | nil =>
      exact Or.inr ⟨identity, rfl⟩
  | cons frame upper ih =>
      rw [List.all_cons, Bool.and_eq_true] at hupper
      cases frame with
      | guarded job | fork point worker right left =>
          exact Or.inl rfl
      | restore outer =>
          exact ih hupper.2 outer
      | turns pending outer | recruit workers | crew threads outer | disband threads pending =>
          cases hupper.1
      | perform code | execute job | loop point worker stop evaluations | poll stop evaluations
      | run point job thunk =>
          exact ih hupper.2 identity

namespace System

variable {s : System} {index : Nat}

/-- All threads but the first are inside internal calls. -/
def OthersInternal (threads : Array Thread) : Prop :=
  ∀ t thread, t ≠ 0 → threads[t]? = some thread → thread.frames.all Frame.isInternal = true

theorem OthersInternal.set
    {threads : Array Thread}
    (h : OthersInternal threads)
    {thread : Thread}
    (hindex : index ≠ 0 → thread.frames.all Frame.isInternal = true) :
    OthersInternal (threads.setIfInBounds index thread) := by
  intro t other ht hother
  by_cases hsame : t = index
  · subst hsame
    have hin : t < (threads.setIfInBounds t thread).size :=
      (Array.getElem?_eq_some_iff.mp hother).1
    rw [Array.size_setIfInBounds] at hin
    rw [Array.getElem?_setIfInBounds_self_of_lt hin] at hother
    cases hother
    exact hindex ht
  · rw [Array.getElem?_setIfInBounds_ne (Ne.symm hsame)] at hother
    exact h t other ht hother

/-- How a thread goes on whose frame on top is internal: with internal calls above the same rest,
or with a panic that has come down to that rest. -/
inductive Goes (s : System) (index : Nat) (rest : List Frame) : System → Prop where
  | stays {next : World} {identity : Option Nat} {upper : List Frame}
      (hworld : s.world.Upholds next)
      (hupper : upper.all Frame.isInternal = true) :
      Goes s index rest
        { world := next
          threads := s.threads.setIfInBounds index { frames := upper ++ rest, identity } }
  | falls {next : World} (identity : Option Nat) (cause : Panic)
      (hworld : s.world.Upholds next) :
      Goes s index rest (raise next s.threads index identity rest cause)
  | aborts {t : System}
      (haborted : t.aborted.isSome = true) :
      Goes s index rest t

/-- While somebody has the scheduler, a thread keeps to its internal calls. -/
theorem advance_internal
    {thread : Thread} {frame : Frame} {upper rest : List Frame}
    (hgoing : s.aborted = none)
    (hrunning : s.world.scheduler.running = true)
    (hthread : s.threads[index]? = some thread)
    (hframes : thread.frames = frame :: (upper ++ rest))
    (hframe : frame.isInternal = true)
    (hupper : upper.all Frame.isInternal = true) :
    Goes s index rest (s.advance index) := by
  have hstep : Move.Upholds s.world (frame.step s.world thread.identity) :=
    Frame.upholds_step hframe (fun _ _ _ _ => hrunning) thread.identity
  cases hmove : frame.step s.world thread.identity with
  | go next identity frames =>
      rw [hmove] at hstep
      cases hstep with
      | go hworld hinternal =>
          rw [advance_of_go hgoing hthread hframes hmove, ← List.append_assoc]
          refine .stays hworld ?_
          rw [List.all_append, hinternal, hupper]
          rfl
  | fail next failure =>
      rw [hmove] at hstep
      cases hstep with
      | fail hworld =>
          cases failure with
          | error cause =>
              rw [advance_of_error hgoing hthread hframes hmove]
              exact .aborts rfl
          | panic cause =>
              rw [advance_of_panic hgoing hthread hframes hmove]
              rcases unwind_internal cause hupper thread.identity rest with hblocked | ⟨other, heq⟩
              · rw [raise, hblocked]
                exact .aborts rfl
              · rw [raise, heq]
                exact .falls other cause hworld
  | recruit next workers =>
      rw [hmove] at hstep
      cases hstep
  | await next others pending =>
      rw [hmove] at hstep
      cases hstep

/-- A thread other than the first one makes a step while somebody has the scheduler. -/
theorem advance_other
    (hgoing : s.aborted = none)
    (hrunning : s.world.scheduler.running = true)
    (hothers : OthersInternal s.threads)
    (hindex : index ≠ 0) :
    (s.advance index).aborted.isSome = true ∨
      (s.advance index).aborted = none ∧ (s.advance index).world.scheduler.running = true ∧
        (s.advance index).threads[0]? = s.threads[0]? ∧
        (s.advance index).threads.size = s.threads.size ∧
        OthersInternal (s.advance index).threads := by
  have hsame : s.aborted = none ∧ s.world.scheduler.running = true ∧
      s.threads[0]? = s.threads[0]? ∧ s.threads.size = s.threads.size ∧
      OthersInternal s.threads :=
    ⟨hgoing, hrunning, rfl, rfl, hothers⟩
  cases hthread : s.threads[index]? with
  | none =>
      rw [(advance_of_none hthread).1]
      exact Or.inr hsame
  | some thread =>
      cases hframes : thread.frames with
      | nil =>
          rw [(advance_of_over hthread hframes).1]
          exact Or.inr hsame
      | cons frame upper =>
          have hinternal := hothers index thread hindex hthread
          rw [hframes, List.all_cons, Bool.and_eq_true] at hinternal
          rw [← List.append_nil upper] at hframes
          have hgoes := advance_internal hgoing hrunning hthread hframes hinternal.1 hinternal.2
          generalize s.advance index = t at hgoes
          cases hgoes with
          | aborts haborted =>
              exact Or.inl haborted
          | stays hworld hupper =>
              refine Or.inr ⟨rfl, hworld.running.trans hrunning,
                Array.getElem?_setIfInBounds_ne hindex, Array.size_setIfInBounds,
                hothers.set fun _ => ?_⟩
              show (_ ++ []).all Frame.isInternal = true
              rw [List.append_nil]
              exact hupper
          | falls identity cause hworld =>
              exact Or.inr ⟨rfl, hworld.running.trans hrunning,
                Array.getElem?_setIfInBounds_ne hindex, Array.size_setIfInBounds,
                hothers.set fun _ => rfl⟩

end System

/-- A call for a run: what the thread that calls does first is to come to the run of a job. -/
structure Request where
  world : World
  action : Action
  /-- The world when the run is called, which may have one job more. -/
  called : World
  job : JobId
  thunk : Bool
  threads : Nat
  calls : ∀ identity, Action.step world identity [] action =
    .go called identity [.run (.claim threads) job thunk, .perform []]
  called_eq : called = { world with bodies := called.bodies, flags := called.flags }

namespace Request

/-- A call for the run of a job that is known. -/
def ofJob (world : World) (job : JobId) (threads : Nat) : Request :=
  { world, action := .run job threads, called := world, job, thunk := false, threads
    calls := fun _ => rfl
    called_eq := rfl }

def ofThunk (world : World) (body : Code) (threads : Nat) : Request :=
  { world, action := .runThunk body threads
    called := (world.addJob fun _ => Action.rootBody body).1
    job := world.bodies.size
    thunk := true
    threads
    calls := fun _ => rfl
    called_eq := rfl }

variable (r : Request)

theorem scheduler_called :
    r.called.scheduler = r.world.scheduler := by
  rw [r.called_eq]

theorem transcript_called :
    r.called.transcript = r.world.transcript := by
  rw [r.called_eq]

theorem style_called :
    r.called.style = r.world.style := by
  rw [r.called_eq]

def system (identity : Option Nat) : System :=
  { world := r.world, threads := #[{ frames := [.perform [r.action]], identity }] }

def asked : Nat :=
  r.world.scheduler.asked r.threads

def after : List Frame :=
  [.run .clear r.job r.thunk, .perform []]

/-- The next step of this thread ends the region, and no job is left in the deques. -/
def Drains (s : System) (index : Nat) : Prop :=
  index = 0 ∧ s.frameAt 0 = some (.run .clear r.job r.thunk) ∧ s.world.scheduler.IsDrained

/-- When the workers of the run had left, no job was left in the deques. -/
def Drained (s : System) (schedule : List Nat) : Prop :=
  ∃ before, before ++ [0] <+: schedule ∧
    (s.run before).frameAt 0 = some (.run .clear r.job r.thunk) ∧
    (s.run before).world.scheduler.IsDrained

theorem drained_concat
    (s : System) (schedule : List Nat) (index : Nat) :
    r.Drained s (schedule ++ [index]) ↔
      r.Drained s schedule ∨ r.Drains (s.run schedule) index := by
  constructor
  · rintro ⟨before, hprefix, hframe, hdrained⟩
    rcases List.prefix_concat_iff.mp hprefix with heq | hearlier
    · obtain ⟨rfl, hindex⟩ := List.append_inj' heq rfl
      exact Or.inr ⟨(List.cons.inj hindex).1.symm, hframe, hdrained⟩
    · exact Or.inl ⟨before, hearlier, hframe, hdrained⟩
  · rintro (⟨before, hprefix, hframe, hdrained⟩ | ⟨rfl, hframe, hdrained⟩)
    · exact ⟨before, hprefix.trans (List.prefix_append _ _), hframe, hdrained⟩
    · exact ⟨schedule, List.prefix_rfl, hframe, hdrained⟩

theorem not_drained_nil
    (s : System) :
    ¬ r.Drained s [] := by
  rintro ⟨before, hprefix, -⟩
  exact absurd (List.prefix_nil.mp hprefix)
    (List.append_ne_nil_of_right_ne_nil before (List.cons_ne_nil 0 []))

end Request

/-- The frame holds a region open in a system of so many threads. -/
def Frame.Governs (count : Nat) : Frame → Prop
  | .recruit _ => count = 1
  | .turns _ _ => count = 1
  | .crew threads _ => ∀ t, t ≠ 0 → t < count → t ∈ threads
  | .disband threads _ => ∀ t, t ≠ 0 → t < count → t ∈ threads
  | _ => False

/-- How far the scheduler has been put back; `drained` says that no job was left in the deques. -/
def Swept (drained : Prop) (s : Scheduler) : RunPoint → Prop
  | .clear => s.running = true ∧ ¬ drained
  | .reset deque => s.running = true ∧ s.finished = false ∧
      (∀ k place, k < deque → s.places[k]? = some place → place.deque.IsClean) ∧
      (drained ↔ ∀ k place, deque ≤ k → s.places[k]? = some place → place.deque.isEmpty = true)
  | .release => drained ∧ s.finished = false ∧ ∀ place ∈ s.places, place.deque.IsClean
  | .complete => drained ∧ s.IsGivenBack
  | _ => False

namespace Swept

variable {drained : Prop} {s t : Scheduler} {deque : Nat}

/-- A deque that cannot be reset holds a job. -/
theorem not_drained
    (h : Swept drained s (.reset deque))
    (hdeque : deque < s.dequeCount)
    {cause : Panic}
    (hreset : s.resetDeque deque = .error (.panic cause)) :
    ¬ drained := by
  obtain ⟨-, -, -, hleft⟩ := h
  obtain ⟨place, hplace⟩ := Scheduler.exists_place hdeque
  rw [Scheduler.resetDeque, Scheduler.atPlace, hplace] at hreset
  have hfull : place.deque.isEmpty = false := by
    cases hone : place.deque.reset with
    | ok next =>
        simp only [hone] at hreset
        cases hreset
    | error failure =>
        simp only [hone] at hreset
        cases hreset
        exact Deque.nonempty_of_reset hone
  intro hdrained
  rw [hleft.mp hdrained deque place (Nat.le_refl deque) hplace] at hfull
  cases hfull

/-- One deque more is clean, and there is no job in it. -/
theorem resetDeque
    (h : Swept drained s (.reset deque))
    (hdeque : deque < s.dequeCount)
    (hreset : s.resetDeque deque = .ok (t, ())) :
    Swept drained t (.reset (deque + 1)) := by
  obtain ⟨hrunning, hfinished, hclean, hleft⟩ := h
  obtain ⟨place, fresh, hplace, hfresh, rfl⟩ := Scheduler.exists_of_resetDeque hreset
  obtain ⟨hempty, hcleanNow⟩ := Deque.clean_of_reset hfresh
  refine ⟨hrunning, hfinished, ?_, hleft.trans ⟨?_, ?_⟩⟩
  · intro k other hk hother
    by_cases hsame : k = deque
    · subst hsame
      rw [Scheduler.place_put_self hplace] at hother
      cases hother
      exact hcleanNow
    · rw [Scheduler.place_put_ne hsame] at hother
      exact hclean k other (Nat.lt_of_le_of_ne (Nat.le_of_lt_succ hk) hsame) hother
  · intro hrest k other hk hother
    rw [Scheduler.place_put_ne (Nat.ne_of_gt hk)] at hother
    exact hrest k other (Nat.le_of_succ_le hk) hother
  · intro hrest k other hk hother
    rcases Nat.eq_or_lt_of_le hk with rfl | hlater
    · cases hplace.symm.trans hother
      exact hempty
    · refine hrest k other hlater ?_
      rw [Scheduler.place_put_ne (Nat.ne_of_gt hlater)]
      exact hother

/-- When all deques are clean, there was no job in them. -/
theorem all
    (h : Swept drained s (.reset deque))
    (hdeque : s.dequeCount ≤ deque) :
    Swept drained s .release := by
  obtain ⟨-, hfinished, hclean, hleft⟩ := h
  have hin : ∀ k place, s.places[k]? = some place → k < deque := fun k place hplace =>
    Nat.lt_of_lt_of_le (Array.getElem?_eq_some_iff.mp hplace).1 hdeque
  refine ⟨hleft.mpr fun k place hk hplace => ?_, hfinished, fun place hplace => ?_⟩
  · exact absurd (hin k place hplace) (Nat.not_lt_of_le hk)
  · obtain ⟨k, hk⟩ := Array.mem_iff_getElem?.mp hplace
    exact hclean k place (hin k place hk) hk

end Swept

/-- The run has the scheduler, and has not opened the region. -/
def RunPoint.isOpening : RunPoint → Bool
  | .enqueue _ => true
  | .announce _ => true
  | .open _ => true
  | _ => false

/-- The stages of a run that has claimed the scheduler; `drained` says that its workers have left
with no job in the deques. -/
inductive Held (r : Request) (drained : Prop) : System → Prop where
  | opening {s : System} {point : RunPoint}
      (hpoint : point.isOpening = true)
      (halone : Alone s [.run point r.job r.thunk, .perform []])
      (hsize : s.threads.size = 1)
      (hrunning : s.world.scheduler.running = true)
      (hbefore : ¬ drained) :
      Held r drained s
  /-- The region is open. -/
  | engaged {s : System} {thread : Thread} (upper : List Frame) (region : Frame)
      (hgoing : s.aborted = none)
      (hrunning : s.world.scheduler.running = true)
      (hfirst : s.threads[0]? = some thread)
      (hframes : thread.frames = upper ++ region :: r.after)
      (hupper : upper.all Frame.isInternal = true)
      (hregion : region.Governs s.threads.size)
      (hothers : System.OthersInternal s.threads)
      (hbefore : ¬ drained) :
      Held r drained s
  /-- The deques are put back. -/
  | closing {s : System} {point : RunPoint}
      (halone : Alone s [.run point r.job r.thunk, .perform []])
      (hswept : Swept drained s.world.scheduler point) :
      Held r drained s
  | returned {s : System} {frames : List Frame}
      (halone : Alone s frames)
      (hframes : frames = [.perform []] ∨ frames = [])
      (hdrained : drained)
      (hgiven : s.world.scheduler.IsGivenBack) :
      Held r drained s
  /-- The run was left by a panic after it had given the scheduler back. -/
  | spoiled {s : System}
      (hgoing : s.aborted = none)
      (hover : ∀ (t : Nat) (thread : Thread), s.threads[t]? = some thread → thread.frames = [])
      (hdrained : drained)
      (hgiven : s.world.scheduler.IsGivenBack) :
      Held r drained s
  /-- The run was left by a panic, and still has the scheduler. -/
  | stuck {s : System}
      (hgoing : s.aborted = none)
      (hrunning : s.world.scheduler.running = true)
      (hover : ∀ thread : Thread, s.threads[0]? = some thread → thread.frames = [])
      (hothers : System.OthersInternal s.threads)
      (hbefore : ¬ drained) :
      Held r drained s
  | gaveUp {s : System}
      (haborted : s.aborted.isSome = true) :
      Held r drained s

namespace Held

variable {r : Request} {drained : Prop} {s : System} {index : Nat}

/-- Where the region does not end, it is as it was whether jobs are left. -/
theorem of_not_drains
    (h : Held r drained (s.advance index))
    (hnot : ¬ r.Drains s index) :
    Held r (drained ∨ r.Drains s index) (s.advance index) := by
  rwa [propext (or_iff_left hnot)]

/-- A step that changes nothing. -/
theorem unchanged
    (h : Held r drained s)
    (hadvance : s.advance index = s ∧ s.frameAt index = none) :
    Held r (drained ∨ r.Drains s index) (s.advance index) := by
  refine of_not_drains ?_ ?_
  · rw [hadvance.1]
    exact h
  · rintro ⟨rfl, hframe, -⟩
    rw [hadvance.2] at hframe
    cases hframe

theorem not_drains
    {frame : Frame} {frames : List Frame}
    (halone : Alone s (frame :: frames))
    (hframe : frame ≠ .run .clear r.job r.thunk) :
    ¬ r.Drains s index := by
  rintro ⟨-, hclear, -⟩
  rw [halone.frameAt] at hclear
  exact hframe (Option.some.inj hclear)

theorem othersInternal
    {frames : List Frame}
    (halone : Alone s frames) :
    System.OthersInternal s.threads := by
  intro t thread ht hthread
  rw [(halone.others t thread ht hthread).1]
  rfl

/-- The only thread that does something panics below all regions and forks. -/
theorem advance_of_panic
    {point : RunPoint} {w : World} {cause : Panic}
    (halone : Alone s [.run point r.job r.thunk, .perform []])
    (hmove : ∀ identity, Frame.step s.world identity (.run point r.job r.thunk) =
      .fail w (.panic cause)) :
    (s.advance 0).aborted = none ∧ (s.advance 0).world = w ∧
      ∀ (t : Nat) (thread : Thread),
        (s.advance 0).threads[t]? = some thread → thread.frames = [] := by
  obtain ⟨first, hfirst, hframes, -⟩ := halone.first
  obtain ⟨hgoing, hworld, hafter⟩ :=
    System.thread_of_panic halone.going hfirst hframes (hmove first.identity) rfl
  refine ⟨hgoing, hworld, fun t other hnext => ?_⟩
  rcases hafter t other hnext with ⟨hover, -⟩ | ⟨ht, hother⟩
  · exact hover
  · exact (halone.others t other ht hother).1

/-- The run is left by a panic before it has given the scheduler back. -/
theorem stuck_of_panic
    {point : RunPoint} {w : World} {cause : Panic}
    (halone : Alone s [.run point r.job r.thunk, .perform []])
    (hmove : ∀ identity, Frame.step s.world identity (.run point r.job r.thunk) =
      .fail w (.panic cause))
    (hrunning : w.scheduler.running = true)
    (hbefore : ¬ drained) :
    Held r drained (s.advance 0) := by
  obtain ⟨hgoing, hworld, hover⟩ := advance_of_panic halone hmove
  refine .stuck hgoing (by rw [hworld]; exact hrunning) (fun thread => hover 0 thread) ?_ hbefore
  intro t thread ht hthread
  rw [hover t thread hthread]
  rfl

theorem gaveUp_of_error
    {frame : Frame} {frames : List Frame} {w : World} {cause : Error}
    (halone : Alone s (frame :: frames))
    (hmove : ∀ identity, frame.step s.world identity = .fail w (.error cause)) :
    Held r drained (s.advance 0) := by
  rw [halone.advance_of_error hmove]
  exact .gaveUp rfl

/-- The run pushes its job, announces its workers and opens the region. -/
theorem step_opening
    {point : RunPoint}
    (hpoint : point.isOpening = true)
    (halone : Alone s [.run point r.job r.thunk, .perform []])
    (hsize : s.threads.size = 1)
    (hrunning : s.world.scheduler.running = true)
    (hbefore : ¬ drained) :
    Held r drained (s.advance 0) := by
  cases point with
  | enqueue threads =>
      cases hpush : s.world.scheduler.push 0 r.job with
      | error cause =>
          have hmove : ∀ identity, Frame.step s.world identity
              (.run (.enqueue threads) r.job r.thunk) = .fail s.world cause := by
            intro identity
            rw [Frame.step, RunPoint.step, s.world.schedule_of_error (·.push 0 r.job) _ hpush]
          cases cause with
          | error cause =>
              exact gaveUp_of_error halone hmove
          | panic cause =>
              exact stuck_of_panic halone hmove hrunning hbefore
      | ok result =>
          obtain ⟨t, outcome⟩ := result
          have hkept : t.running = true :=
            (Scheduler.Upholds.push hpush).running.trans hrunning
          cases outcome with
          | error cause =>
              exact gaveUp_of_error halone fun identity =>
                Frame.step_enqueue_of_refused hpush identity threads r.thunk
          | ok _ =>
              obtain ⟨hafter, hworld, hcount⟩ := halone.advance_of_go fun identity =>
                ⟨identity, Frame.step_enqueue_of_ok hpush identity threads r.thunk⟩
              exact .opening rfl hafter (hcount.trans hsize) (by rw [hworld]; exact hkept) hbefore
  | announce threads =>
      obtain ⟨hafter, hworld, hcount⟩ := halone.advance_of_go fun identity => ⟨identity, rfl⟩
      refine .opening rfl hafter (hcount.trans hsize) ?_ hbefore
      rw [hworld]
      exact (World.Upholds.trace _ _).running.trans hrunning
  | «open» threads =>
      obtain ⟨thread, hthread, hframes, -⟩ := halone.first
      have hin : 0 < s.threads.size := (Array.getElem?_eq_some_iff.mp hthread).1
      rw [System.advance_of_go halone.going hthread hframes (by rw [Frame.step, RunPoint.step])]
      refine .engaged [] (regionFrame s.world.style threads thread.identity) rfl hrunning
        (Array.getElem?_setIfInBounds_self_of_lt hin) rfl rfl ?_
        ((othersInternal halone).set fun h => absurd rfl h) hbefore
      rw [regionFrame, Array.size_setIfInBounds]
      split <;> exact hsize
  | claim | clear | reset | release | complete =>
      cases hpoint

/-- The workers have left, and only the calling thread is left. -/
theorem closing_of_frames
    {thread : Thread}
    (hgoing : s.aborted = none)
    (hrunning : s.world.scheduler.running = true)
    (hfirst : s.threads[0]? = some thread)
    (hframes : thread.frames = r.after)
    (hsound : thread.panicked = none)
    (hothers : ∀ t other, t ≠ 0 → s.threads[t]? = some other →
      other.frames = [] ∧ other.panicked = none)
    (hbefore : ¬ drained) :
    Held r drained s :=
  .closing ⟨hgoing, ⟨thread, hfirst, hframes, hsound⟩, hothers⟩ ⟨hrunning, hbefore⟩

/-- The first thread has been replaced by one that is over. -/
theorem over_of_set
    {threads : Array Thread} {thread : Thread}
    (hin : 0 < threads.size)
    (hframes : thread.frames = []) :
    ∀ other, (threads.setIfInBounds 0 thread)[0]? = some other → other.frames = [] := by
  intro other hother
  rw [Array.getElem?_setIfInBounds_self_of_lt hin] at hother
  cases hother
  exact hframes

/-- Nothing can be said about threads that are not there. -/
theorem others_of_size
    {threads : Array Thread}
    (hsize : threads.size = 1) :
    ∀ t other, t ≠ 0 → threads[t]? = some other → other.frames = [] ∧ other.panicked = none := by
  intro t other ht hother
  have hlt := (Array.getElem?_eq_some_iff.mp hother).1
  rw [hsize] at hlt
  exact absurd (Nat.lt_one_iff.mp hlt) ht

/-- The calling thread opens the region. -/
theorem step_recruit
    {thread : Thread} {workers : List Nat}
    (hgoing : s.aborted = none)
    (hrunning : s.world.scheduler.running = true)
    (hfirst : s.threads[0]? = some thread)
    (hframes : thread.frames = .recruit workers :: r.after)
    (hsize : s.threads.size = 1)
    (hbefore : ¬ drained) :
    Held r drained (s.advance 0) := by
  have hin : 0 < s.threads.size := (Array.getElem?_eq_some_iff.mp hfirst).1
  rw [System.advance_of_recruit hgoing hfirst hframes rfl]
  cases workers with
  | nil =>
      rw [System.recruit]
      refine closing_of_frames rfl hrunning (Array.getElem?_setIfInBounds_self_of_lt hin) rfl
        rfl (others_of_size ?_) hbefore
      rw [Array.size_setIfInBounds]
      exact hsize
  | cons worker others =>
      rw [System.recruit]
      have hcaller : ∀ caller : Thread,
          (s.threads.setIfInBounds 0 caller ++ (others.map System.workerThread).toArray)[0]? =
            some caller := by
        intro caller
        rw [Array.getElem?_append_left (by rwa [Array.size_setIfInBounds])]
        exact Array.getElem?_setIfInBounds_self_of_lt hin
      refine .engaged [System.workerFrame worker]
        (.crew ((List.range others.length).map fun i => s.threads.size + i) thread.identity)
        rfl hrunning (hcaller _) rfl rfl ?_ ?_ hbefore
      · intro t ht hlt
        have hcount : t < 1 + others.length := by
          simpa [hsize] using hlt
        rw [hsize, List.mem_map]
        exact ⟨t - 1, List.mem_range.mpr (by omega), by omega⟩
      · intro t other ht hother
        have hlater : (s.threads.setIfInBounds 0
            { frames := System.workerFrame worker ::
                .crew ((List.range others.length).map fun i => s.threads.size + i)
                  thread.identity :: r.after,
              identity := some worker }).size ≤ t := by
          rw [Array.size_setIfInBounds, hsize]
          exact Nat.one_le_iff_ne_zero.mpr ht
        rw [Array.getElem?_append_right hlater] at hother
        have hmem := Array.mem_of_getElem? hother
        rw [List.mem_toArray, List.mem_map] at hmem
        obtain ⟨v, -, rfl⟩ := hmem
        rfl

/-- The calling thread waits for the other threads of the region. -/
theorem step_disband
    {thread : Thread} {threads : List Nat} {pending : Option Panic}
    (hgoing : s.aborted = none)
    (hrunning : s.world.scheduler.running = true)
    (hfirst : s.threads[0]? = some thread)
    (hframes : thread.frames = .disband threads pending :: r.after)
    (hall : ∀ t, t ≠ 0 → t < s.threads.size → t ∈ threads)
    (hothers : System.OthersInternal s.threads)
    (hbefore : ¬ drained) :
    Held r drained (s.advance 0) := by
  have hin : 0 < s.threads.size := (Array.getElem?_eq_some_iff.mp hfirst).1
  rw [System.advance_of_await hgoing hfirst hframes rfl]
  by_cases hover : System.allOver s.threads threads = true
  · rw [if_pos hover]
    cases hpanic : System.regionPanic s.threads threads pending with
    | some cause =>
        exact .stuck rfl hrunning (over_of_set hin rfl) (hothers.set fun h => absurd rfl h) hbefore
    | none =>
        have hsound : System.anyPanicked s.threads threads = false := by
          have hnone := (Option.or_eq_none_iff.mp hpanic).2
          by_contra h
          rw [Bool.not_eq_false] at h
          rw [if_pos h] at hnone
          cases hnone
        refine closing_of_frames rfl hrunning (Array.getElem?_setIfInBounds_self_of_lt hin) rfl
          rfl ?_ hbefore
        intro t other ht hother
        have hold : s.threads[t]? = some other := by
          rw [← Array.getElem?_setIfInBounds_ne (Ne.symm ht)]
          exact hother
        have hmem := hall t ht (Array.getElem?_eq_some_iff.mp hold).1
        have hdone := List.all_eq_true.mp hover t hmem
        have hfree := List.any_eq_false.mp hsound t hmem
        rw [hold] at hdone hfree
        exact ⟨List.isEmpty_iff.mp hdone, Option.not_isSome_iff_eq_none.mp hfree⟩
  · rw [if_neg hover]
    exact .engaged [] _ rfl hrunning hfirst hframes rfl hall hothers hbefore

/-- What the region itself does when nothing is above it. -/
theorem step_region
    {thread : Thread} {region : Frame}
    (hgoing : s.aborted = none)
    (hrunning : s.world.scheduler.running = true)
    (hfirst : s.threads[0]? = some thread)
    (hframes : thread.frames = region :: r.after)
    (hregion : region.Governs s.threads.size)
    (hothers : System.OthersInternal s.threads)
    (hbefore : ¬ drained) :
    Held r drained (s.advance 0) := by
  have hin : 0 < s.threads.size := (Array.getElem?_eq_some_iff.mp hfirst).1
  cases region with
  | recruit workers =>
      exact step_recruit hgoing hrunning hfirst hframes hregion hbefore
  | turns pending outer =>
      have hsize : s.threads.size = 1 := hregion
      cases pending with
      | nil =>
          rw [System.advance_of_go hgoing hfirst hframes rfl]
          refine closing_of_frames rfl hrunning (Array.getElem?_setIfInBounds_self_of_lt hin) rfl
            rfl (others_of_size ?_) hbefore
          rw [Array.size_setIfInBounds]
          exact hsize
      | cons worker pending =>
          rw [System.advance_of_go hgoing hfirst hframes rfl]
          refine .engaged [.loop .poll worker .finished 0] (.turns pending outer) rfl hrunning
            (Array.getElem?_setIfInBounds_self_of_lt hin) rfl rfl ?_
            (hothers.set fun h => absurd rfl h) hbefore
          rw [Array.size_setIfInBounds]
          exact hsize
  | crew threads outer =>
      rw [System.advance_of_go hgoing hfirst hframes rfl]
      refine .engaged [] (.disband threads none) rfl hrunning
        (Array.getElem?_setIfInBounds_self_of_lt hin) rfl rfl ?_
        (hothers.set fun h => absurd rfl h) hbefore
      rw [Array.size_setIfInBounds]
      exact hregion
  | disband threads pending =>
      exact step_disband hgoing hrunning hfirst hframes hregion hothers hbefore
  | _ =>
      exact absurd hregion id

/-- A step while the region is open. -/
theorem step_engaged
    {thread : Thread} {upper : List Frame} {region : Frame}
    (hgoing : s.aborted = none)
    (hrunning : s.world.scheduler.running = true)
    (hfirst : s.threads[0]? = some thread)
    (hframes : thread.frames = upper ++ region :: r.after)
    (hupper : upper.all Frame.isInternal = true)
    (hregion : region.Governs s.threads.size)
    (hothers : System.OthersInternal s.threads)
    (hbefore : ¬ drained)
    (index : Nat) :
    Held r drained (s.advance index) := by
  by_cases hindex : index = 0
  · subst hindex
    have hin : 0 < s.threads.size := (Array.getElem?_eq_some_iff.mp hfirst).1
    cases upper with
    | nil =>
        exact step_region hgoing hrunning hfirst hframes hregion hothers hbefore
    | cons frame upper =>
        rw [List.all_cons, Bool.and_eq_true] at hupper
        have hgoes := System.advance_internal hgoing hrunning hfirst hframes hupper.1 hupper.2
        generalize s.advance 0 = t at hgoes
        cases hgoes with
        | aborts haborted =>
            exact .gaveUp haborted
        | stays hworld hnext =>
            refine .engaged _ _ rfl (hworld.running.trans hrunning)
              (Array.getElem?_setIfInBounds_self_of_lt hin) rfl hnext ?_
              (hothers.set fun h => absurd rfl h) hbefore
            rw [Array.size_setIfInBounds]
            exact hregion
        | falls identity cause hworld =>
            cases region with
            | crew threads outer =>
                refine .engaged [] (.disband threads (some cause)) rfl
                  (hworld.running.trans hrunning) (Array.getElem?_setIfInBounds_self_of_lt hin) rfl
                  rfl ?_ (hothers.set fun h => absurd rfl h) hbefore
                show Frame.Governs (s.threads.setIfInBounds 0 _).size _
                rw [Array.size_setIfInBounds]
                exact hregion
            | turns pending outer | recruit workers | disband threads pending =>
                exact .stuck rfl (hworld.running.trans hrunning) (over_of_set hin rfl)
                  (hothers.set fun h => absurd rfl h) hbefore
            | _ =>
                exact absurd hregion id
  · rcases System.advance_other hgoing hrunning hothers hindex with
      haborted | ⟨hnext, hkept, hsame, hcount, hinternal⟩
    · exact .gaveUp haborted
    · exact .engaged _ _ hnext hkept (hsame.trans hfirst) hframes hupper (hcount ▸ hregion)
        hinternal hbefore

/-- The flag that ended the run is cleared; what the deques hold then decides. -/
theorem step_clear
    (halone : Alone s [.run .clear r.job r.thunk, .perform []])
    (hrunning : s.world.scheduler.running = true)
    (hbefore : ¬ drained) :
    Held r (drained ∨ r.Drains s 0) (s.advance 0) := by
  obtain ⟨hafter, hworld, -⟩ := halone.advance_of_go fun identity => ⟨identity, rfl⟩
  refine .closing hafter ?_
  rw [hworld]
  refine ⟨hrunning, rfl, fun k place hk => absurd hk (Nat.not_lt_zero k), ?_⟩
  rw [or_iff_right hbefore]
  constructor
  · rintro ⟨-, -, hdrained⟩ k place - hplace
    exact hdrained place (Array.mem_of_getElem? hplace)
  · refine fun hempty => ⟨rfl, halone.frameAt, fun place hplace => ?_⟩
    obtain ⟨k, hk⟩ := Array.mem_iff_getElem?.mp hplace
    exact hempty k place (Nat.zero_le k) hk

/-- A deque with a job in it is not reset: the run is left by a panic. -/
theorem step_reset
    {deque : Nat}
    (halone : Alone s [.run (.reset deque) r.job r.thunk, .perform []])
    (hswept : Swept drained s.world.scheduler (.reset deque)) :
    Held r drained (s.advance 0) := by
  by_cases hdeque : deque < s.world.scheduler.dequeCount
  · cases hreset : s.world.scheduler.resetDeque deque with
    | error failure =>
        have hmove : ∀ identity, Frame.step s.world identity
            (.run (.reset deque) r.job r.thunk) = .fail s.world failure :=
          fun identity => Frame.step_reset_of_error hdeque hreset identity r.job r.thunk
        cases failure with
        | error cause =>
            exact gaveUp_of_error halone hmove
        | panic cause =>
            exact stuck_of_panic halone hmove hswept.1 (hswept.not_drained hdeque hreset)
    | ok result =>
        obtain ⟨t, answer⟩ := result
        obtain ⟨hafter, hworld, -⟩ := halone.advance_of_go fun identity =>
          ⟨identity, Frame.step_reset_of_ok hdeque hreset identity r.job r.thunk⟩
        exact .closing hafter (hworld ▸ hswept.resetDeque hdeque hreset)
  · obtain ⟨hafter, hworld, -⟩ := halone.advance_of_go fun identity =>
      ⟨identity, Frame.step_reset_of_not_lt hdeque identity r.job r.thunk⟩
    exact .closing hafter (hworld ▸ hswept.all (Nat.le_of_not_lt hdeque))

/-- The scheduler is released, and the run reports. -/
theorem step_complete
    (halone : Alone s [.run .complete r.job r.thunk, .perform []])
    (hdrained : drained)
    (hgiven : s.world.scheduler.IsGivenBack) :
    Held r drained (s.advance 0) := by
  rcases Frame.step_complete s.world r.job r.thunk with
    ⟨traced, htraces, hmove⟩ | ⟨-, cause, -, hmove⟩
  · obtain ⟨hafter, hworld, -⟩ := halone.advance_of_go fun identity => ⟨identity, hmove identity⟩
    refine .returned hafter (Or.inl rfl) hdrained ?_
    rw [hworld]
    show traced.scheduler.IsGivenBack
    rw [htraces.scheduler]
    exact hgiven
  · obtain ⟨hgoing, hworld, hover⟩ := advance_of_panic halone hmove
    refine .spoiled hgoing hover hdrained ?_
    rw [hworld, World.scheduler_trace]
    exact hgiven

theorem step_closing
    {point : RunPoint}
    (halone : Alone s [.run point r.job r.thunk, .perform []])
    (hswept : Swept drained s.world.scheduler point) :
    Held r (drained ∨ r.Drains s 0) (s.advance 0) := by
  cases point with
  | clear =>
      exact step_clear halone hswept.1 hswept.2
  | reset deque =>
      exact (step_reset halone hswept).of_not_drains (not_drains halone (by simp))
  | release =>
      refine of_not_drains ?_ (not_drains halone (by simp))
      obtain ⟨hdrained, hfinished, hclean⟩ := hswept
      obtain ⟨hafter, hworld, -⟩ := halone.advance_of_go fun identity => ⟨identity, rfl⟩
      refine .closing hafter ?_
      rw [hworld]
      exact ⟨hdrained, rfl, hfinished, hclean⟩
  | complete =>
      exact (step_complete halone hswept.1 hswept.2).of_not_drains (not_drains halone (by simp))
  | claim | enqueue | announce | «open» =>
      exact absurd hswept id

/-- Every step of a run that has the scheduler leads to one of the stages again. -/
theorem advance
    (h : Held r drained s)
    (index : Nat) :
    Held r (drained ∨ r.Drains s index) (s.advance index) := by
  have hother : ∀ {frames : List Frame}, Alone s frames → index ≠ 0 →
      Held r (drained ∨ r.Drains s index) (s.advance index) :=
    fun halone hindex => unchanged h (halone.advance_other hindex)
  cases h with
  | opening hpoint halone hsize hrunning hbefore =>
      by_cases hindex : index = 0
      · subst hindex
        refine (step_opening hpoint halone hsize hrunning hbefore).of_not_drains
          (not_drains halone ?_)
        rintro hclear
        cases hclear
        cases hpoint
      · exact hother halone hindex
  | engaged upper region hgoing hrunning hfirst hframes hupper hregion hothers hbefore =>
      refine (step_engaged hgoing hrunning hfirst hframes hupper hregion hothers hbefore
        index).of_not_drains ?_
      rintro ⟨-, hclear, -⟩
      cases upper with
      | nil =>
          rw [System.frameAt_of_thread hgoing hfirst hframes] at hclear
          rw [Option.some.inj hclear] at hregion
          exact hregion
      | cons frame upper =>
          rw [System.frameAt_of_thread hgoing hfirst hframes] at hclear
          rw [Option.some.inj hclear] at hupper
          cases hupper
  | closing halone hswept =>
      by_cases hindex : index = 0
      · subst hindex
        exact step_closing halone hswept
      · exact hother halone hindex
  | returned halone hframes hdrained hgiven =>
      rcases hframes with rfl | rfl
      · by_cases hindex : index = 0
        · subst hindex
          obtain ⟨hafter, hworld⟩ := halone.advance_of_return
          refine of_not_drains ?_ (not_drains halone (by simp))
          refine .returned hafter (Or.inr rfl) hdrained ?_
          rw [hworld]
          exact hgiven
        · exact hother halone hindex
      · exact (Held.returned halone (Or.inr rfl) hdrained hgiven).unchanged
          (halone.advance_nil index)
  | spoiled hgoing hover hdrained hgiven =>
      exact (Held.spoiled hgoing hover hdrained hgiven).unchanged
        (System.advance_of_idle hover index)
  | stuck hgoing hrunning hover hothers hbefore =>
      by_cases hindex : index = 0
      · subst hindex
        refine (Held.stuck hgoing hrunning hover hothers hbefore).unchanged ?_
        cases hthread : s.threads[0]? with
        | none =>
            exact System.advance_of_none hthread
        | some thread =>
            exact System.advance_of_over hthread (hover thread hthread)
      · refine of_not_drains ?_ fun hdrains => hindex hdrains.1
        rcases System.advance_other hgoing hrunning hothers hindex with
          haborted | ⟨hnext, hkept, hsame, -, hinternal⟩
        · exact .gaveUp haborted
        · exact .stuck hnext hkept (by rw [hsame]; exact hover) hinternal hbefore
  | gaveUp haborted =>
      exact (Held.gaveUp haborted).unchanged (System.advance_of_aborted haborted index)

end Held

/-- The stages of a call for a run. -/
inductive Tenure (r : Request) (drained : Prop) : System → Prop where
  | asking {s : System}
      (halone : Alone s [.perform [r.action]])
      (hsize : s.threads.size = 1)
      (hworld : s.world = r.world)
      (hbefore : ¬ drained) :
      Tenure r drained s
  | claiming {s : System}
      (halone : Alone s [.run (.claim r.threads) r.job r.thunk, .perform []])
      (hsize : s.threads.size = 1)
      (hworld : s.world = r.called)
      (hbefore : ¬ drained) :
      Tenure r drained s
  /-- More workers were asked for than there are deques. -/
  | refused {s : System} {frames : List Frame}
      (halone : Alone s frames)
      (hframes : frames = [.perform []] ∨ frames = [])
      (hmany : r.world.scheduler.dequeCount < r.asked)
      (hscheduler : s.world.scheduler = r.world.scheduler)
      (hbefore : ¬ drained) :
      Tenure r drained s
  | held {s : System}
      (hfew : ¬ r.world.scheduler.dequeCount < r.asked)
      (hheld : Held r drained s) :
      Tenure r drained s

namespace Tenure

variable {r : Request} {drained : Prop} {s : System}

/-- The thread claims the scheduler, or is refused. -/
theorem step_claiming
    (hidle : r.world.scheduler.running = false)
    (halone : Alone s [.run (.claim r.threads) r.job r.thunk, .perform []])
    (hsize : s.threads.size = 1)
    (hworld : s.world = r.called)
    (hbefore : ¬ drained) :
    Tenure r drained (s.advance 0) := by
  have hscheduler : s.world.scheduler = r.world.scheduler :=
    (congrArg (fun w : World => w.scheduler) hworld).trans r.scheduler_called
  by_cases hmany : r.world.scheduler.dequeCount < r.asked
  · have hmove : ∀ identity, ∃ other, Frame.step s.world identity
        (.run (.claim r.threads) r.job r.thunk) =
          .go (s.world.emit (ranEvent r.thunk (.error
            (.tooManyThreads r.asked r.world.scheduler.dequeCount)))) other [] := by
      intro identity
      refine ⟨identity, ?_⟩
      rw [Frame.step, RunPoint.step_claim, hscheduler]
      exact if_pos hmany
    obtain ⟨hafter, hnext, -⟩ := halone.advance_of_go hmove
    refine .refused hafter (Or.inl rfl) hmany ?_ hbefore
    rw [hnext]
    exact hscheduler
  · have hmove : ∀ identity, ∃ other, Frame.step s.world identity
        (.run (.claim r.threads) r.job r.thunk) =
          .go { s.world with scheduler := { s.world.scheduler with running := true } } other
            [.run (.enqueue r.asked) r.job r.thunk] := by
      intro identity
      refine ⟨identity, ?_⟩
      rw [Frame.step, RunPoint.step_claim, hscheduler]
      exact (if_neg hmany).trans (if_neg (by rw [hidle]; exact Bool.false_ne_true))
    obtain ⟨hafter, hnext, hcount⟩ := halone.advance_of_go hmove
    refine .held hmany (.opening rfl hafter (hcount.trans hsize) ?_ hbefore)
    rw [hnext]

theorem advance
    (hidle : r.world.scheduler.running = false)
    (h : Tenure r drained s)
    (index : Nat) :
    Tenure r (drained ∨ r.Drains s index) (s.advance index) := by
  have hnot : ∀ {frame : Frame} {frames : List Frame}, Alone s (frame :: frames) →
      frame ≠ .run .clear r.job r.thunk → Tenure r drained (s.advance index) →
      Tenure r (drained ∨ r.Drains s index) (s.advance index) := by
    intro frame frames halone hframe hnext
    rwa [propext (or_iff_left (Held.not_drains halone hframe))]
  have hother : ∀ {frames : List Frame}, Alone s frames → index ≠ 0 →
      Tenure r (drained ∨ r.Drains s index) (s.advance index) := by
    intro frames halone hindex
    rwa [propext (or_iff_left fun hdrains => hindex hdrains.1),
      (halone.advance_other hindex).1]
  cases h with
  | asking halone hsize hworld hbefore =>
      by_cases hindex : index = 0
      · subst hindex
        refine hnot halone (by simp) ?_
        have hmove : ∀ identity, ∃ other, Frame.step s.world identity (.perform [r.action]) =
            .go r.called other [.run (.claim r.threads) r.job r.thunk, .perform []] := by
          intro identity
          rw [hworld]
          exact ⟨identity, r.calls identity⟩
        obtain ⟨hafter, hnext, hcount⟩ := halone.advance_of_go hmove
        exact .claiming hafter (hcount.trans hsize) hnext hbefore
      · exact hother halone hindex
  | claiming halone hsize hworld hbefore =>
      by_cases hindex : index = 0
      · subst hindex
        exact hnot halone (by simp) (step_claiming hidle halone hsize hworld hbefore)
      · exact hother halone hindex
  | refused halone hframes hmany hscheduler hbefore =>
      rcases hframes with rfl | rfl
      · by_cases hindex : index = 0
        · subst hindex
          obtain ⟨hafter, hworld⟩ := halone.advance_of_return
          refine hnot halone (by simp) (.refused hafter (Or.inr rfl) hmany ?_ hbefore)
          rw [hworld]
          exact hscheduler
        · exact hother halone hindex
      · have hnone : ¬ r.Drains s index := by
          rintro ⟨rfl, hframe, -⟩
          rw [(halone.advance_nil 0).2] at hframe
          cases hframe
        rw [(halone.advance_nil index).1, propext (or_iff_left hnone)]
        exact .refused halone (Or.inr rfl) hmany hscheduler hbefore
  | held hfew hheld =>
      exact .held hfew (hheld.advance index)

/-- A call for a run keeps to the stages. -/
theorem run
    (hidle : r.world.scheduler.running = false)
    (identity : Option Nat) (schedule : List Nat) :
    Tenure r (r.Drained (r.system identity) schedule) ((r.system identity).run schedule) := by
  induction schedule using List.reverseRecOn with
  | nil =>
      refine .asking ⟨rfl, ⟨_, rfl, rfl, rfl⟩, ?_⟩ rfl rfl (r.not_drained_nil _)
      intro t thread ht hget
      obtain ⟨hlt, -⟩ := Array.getElem?_eq_some_iff.mp hget
      exact absurd (Nat.lt_one_iff.mp hlt) ht
  | append_singleton schedule index ih =>
      rw [System.run_append, propext (r.drained_concat _ schedule index)]
      exact ih.advance hidle index

end Tenure

/-- The first thread has nothing left to do, and the process was not given up. -/
def System.hasLeft (s : System) : Bool :=
  s.aborted.isNone && ((s.threads[0]?).map Thread.isOver).getD true

namespace Request

variable {r : Request} {drained : Prop} {s : System}

/-- Where a run that was left has left the scheduler. -/
theorem given_back_of_held
    (h : Held r drained s)
    (hleft : s.hasLeft = true) :
    (drained ∧ s.world.scheduler.IsGivenBack) ∨
      (¬ drained ∧ s.world.scheduler.running = true) := by
  rw [System.hasLeft, Bool.and_eq_true, Option.isNone_iff_eq_none] at hleft
  obtain ⟨hgoing, hover⟩ := hleft
  have hbusy : ∀ {frame : Frame} {frames : List Frame} {thread : Thread},
      s.threads[0]? = some thread → thread.frames = frame :: frames → False := by
    intro frame frames thread hthread hframes
    rw [hthread, Option.map_some, Option.getD_some, Thread.isOver, hframes] at hover
    cases hover
  cases h with
  | opening hpoint halone hsize hrunning hbefore | closing halone hswept =>
      obtain ⟨thread, hthread, hframes, -⟩ := halone.first
      exact absurd hframes (fun h => hbusy hthread h)
  | engaged upper region hnone hrunning hfirst hframes hupper hregion hothers hbefore =>
      exact Or.inr ⟨hbefore, hrunning⟩
  | returned halone hframes hdrained hgiven | spoiled hnone hall hdrained hgiven =>
      exact Or.inl ⟨hdrained, hgiven⟩
  | stuck hnone hrunning hall hothers hbefore =>
      exact Or.inr ⟨hbefore, hrunning⟩
  | gaveUp haborted =>
      rw [hgoing] at haborted
      cases haborted

/-- A run on a scheduler that nobody has, of any job, leaves the scheduler as follows when it
returns or is left by a panic, whatever the jobs do and whatever the order of the steps is. A run
that asks for too many workers changes nothing. Any other gives the scheduler back exactly when no
job was left in the deques after its workers had left; else the scheduler stays claimed. -/
theorem gives_back_iff
    (r : Request)
    (hidle : r.world.scheduler.running = false)
    (identity : Option Nat) {schedule : List Nat}
    (hleft : ((r.system identity).run schedule).hasLeft = true) :
    (r.world.scheduler.dequeCount < r.asked →
      ((r.system identity).run schedule).world.scheduler = r.world.scheduler) ∧
    (r.asked ≤ r.world.scheduler.dequeCount →
      (((r.system identity).run schedule).world.scheduler.IsGivenBack ↔
        r.Drained (r.system identity) schedule) ∧
      (¬ r.Drained (r.system identity) schedule →
        ((r.system identity).run schedule).world.scheduler.running = true)) := by
  have htenure := Tenure.run hidle identity schedule
  generalize (r.system identity).run schedule = s at hleft htenure
  have hbusy : ∀ {frame : Frame} {frames : List Frame}, ¬ Alone s (frame :: frames) := by
    intro frame frames halone
    obtain ⟨thread, hthread, hframes, -⟩ := halone.first
    rw [System.hasLeft, hthread, Option.map_some, Option.getD_some, Thread.isOver, hframes,
      List.isEmpty_cons, Bool.and_false] at hleft
    cases hleft
  cases htenure with
  | asking halone hsize hworld hbefore | claiming halone hsize hworld hbefore =>
      exact absurd halone hbusy
  | refused halone hframes hmany hscheduler hbefore =>
      exact ⟨fun _ => hscheduler, fun hfew => absurd hmany (Nat.not_lt_of_le hfew)⟩
  | held hfew hheld =>
      refine ⟨fun hmany => absurd hmany hfew, fun _ => ?_⟩
      rcases given_back_of_held hheld hleft with ⟨hdrained, hgiven⟩ | ⟨hbefore, hrunning⟩
      · exact ⟨⟨fun _ => hdrained, fun _ => hgiven⟩, fun hnot => absurd hdrained hnot⟩
      · refine ⟨⟨fun hgiven => ?_, fun hdrained => absurd hdrained hbefore⟩, fun _ => hrunning⟩
        rw [hgiven.running] at hrunning
        cases hrunning

/-- A clean scheduler, and a first job that spawns another one and ends the run. -/
def litter : World :=
  { ForkJoin.Launch.sample.world with
    bodies := #[Action.namedBody 0 (.spawn 1 :: Action.announceFinish), Action.namedBody 1 []]
    flags := #[{}, {}] }

theorem litter_given_back :
    litter.scheduler.IsGivenBack := by
  refine ⟨rfl, rfl, fun place hplace => ?_⟩
  rw [(Array.mem_replicate.mp hplace).2]
  exact ⟨rfl, rfl, rfl⟩

def tidy : World :=
  { litter with bodies := #[Action.namedBody 0 Action.announceFinish], flags := #[{}] }

theorem tidy_gives_back :
    (((ofJob tidy 0 1).system none).run (List.replicate 40 0)).hasLeft = true ∧
      (((ofJob tidy 0 1).system none).run
        (List.replicate 40 0)).world.scheduler.IsGivenBack := by
  have hleft : (((ofJob tidy 0 1).system none).run (List.replicate 40 0)).hasLeft = true := by
    decide +kernel
  have hrunning : (((ofJob tidy 0 1).system none).run
      (List.replicate 40 0)).world.scheduler.running = false := by
    decide +kernel
  refine ⟨hleft, ?_⟩
  obtain ⟨hgives, hkept⟩ := (gives_back_iff (ofJob tidy 0 1) rfl none hleft).2 (by decide)
  refine hgives.mpr ?_
  by_contra hnot
  rw [hkept hnot] at hrunning
  cases hrunning

/-- The job that was spawned is still in the deque when the run ends: the deque cannot be put back,
and the scheduler stays claimed. -/
theorem litter_stays_claimed :
    litter.scheduler.IsGivenBack ∧
      (((ofJob litter 0 1).system none).run (List.replicate 40 0)).hasLeft = true ∧
      ¬ (((ofJob litter 0 1).system none).run
        (List.replicate 40 0)).world.scheduler.IsGivenBack := by
  refine ⟨litter_given_back, by decide +kernel, fun hgiven => ?_⟩
  have hrunning : (((ofJob litter 0 1).system none).run
      (List.replicate 40 0)).world.scheduler.running = true := by
    decide +kernel
  rw [hgiven.running] at hrunning
  cases hrunning

end Request

end Machine
end WorkStealing
