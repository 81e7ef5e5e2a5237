import WorkStealing.Proofs.ForkJoin.Observation

/-!
# Steps of one thread

What a step of a system is, by what the frame on top of the thread does. Each
lemma also serves as the description of the system after the step.
-/

namespace WorkStealing

/-- The number of workers that a run asks for with this number; zero asks for as many as there may
be. -/
def Scheduler.asked (s : Scheduler) (threads : Nat) : Nat :=
  if threads = 0 then s.maxWorkers else threads

namespace Machine
namespace World

/-- An operation of the scheduler that answers. -/
theorem schedule_of_ok
    {β : Type} (w : World) (operation : Scheduler → Except Failure (Scheduler × β))
    (next : World → β → Move) {scheduler : Scheduler} {answer : β}
    (h : operation w.scheduler = .ok (scheduler, answer)) :
    w.schedule operation next = next { w with scheduler } answer := by
  rw [World.schedule, h]

/-- An operation of the scheduler that fails. -/
theorem schedule_of_error
    {β : Type} (w : World) (operation : Scheduler → Except Failure (Scheduler × β))
    (next : World → β → Move) {cause : Failure}
    (h : operation w.scheduler = .error cause) :
    w.schedule operation next = .fail w cause := by
  rw [World.schedule, h]

/-- A trace record is an event, or nothing is done. -/
theorem trace_cases
    (w : World) (record : TraceRecord) :
    w.trace record = w.emit (.trace record) ∨ w.trace record = w := by
  unfold trace Memory.trace
  split
  · exact Or.inl rfl
  · exact Or.inr rfl

@[simp] theorem scheduler_trace
    (w : World) (record : TraceRecord) :
    (w.trace record).scheduler = w.scheduler := by
  rcases w.trace_cases record with heq | heq
  · rw [heq]
    rfl
  · rw [heq]

@[simp] theorem cells_trace
    (w : World) (record : TraceRecord) :
    (w.trace record).cells = w.cells := by
  rcases w.trace_cases record with heq | heq
  · rw [heq]
    rfl
  · rw [heq]

@[simp] theorem tracing_trace
    (w : World) (record : TraceRecord) :
    (w.trace record).tracing = w.tracing := by
  rcases w.trace_cases record with heq | heq
  · rw [heq]
    rfl
  · rw [heq]

/-- The second world is the first one after some trace records. -/
inductive Traces (w : World) : World → Prop where
  | refl : w.Traces w
  | trace {traced : World} (h : w.Traces traced) (record : TraceRecord) :
      w.Traces (traced.trace record)

namespace Traces

variable {w traced : World}

theorem scheduler
    (h : w.Traces traced) :
    traced.scheduler = w.scheduler := by
  induction h with
  | refl =>
      rfl
  | trace h record ih =>
      rw [scheduler_trace, ih]

theorem cells
    (h : w.Traces traced) :
    traced.cells = w.cells := by
  induction h with
  | refl =>
      rfl
  | trace h record ih =>
      rw [cells_trace, ih]

theorem transcript
    (h : w.Traces traced) :
    ∃ events, traced.transcript.toList = w.transcript.toList ++ events := by
  induction h with
  | refl =>
      exact ⟨[], (List.append_nil _).symm⟩
  | @trace traced h record ih =>
      obtain ⟨events, hevents⟩ := ih
      rcases traced.trace_cases record with heq | heq
      · refine ⟨events ++ [.trace record], ?_⟩
        rw [heq, ← List.append_assoc, ← hevents]
        exact Array.toList_push
      · exact ⟨events, by rw [heq, hevents]⟩

end Traces
end World

namespace Frame

variable {w : World} {t : Scheduler} {deque : Nat} {cause : Failure}

/-- A run has pushed its job. -/
theorem step_enqueue_of_ok
    {job : JobId}
    (hpush : w.scheduler.push 0 job = .ok (t, .ok ()))
    (identity : Option Nat) (threads : Nat) (thunk : Bool) :
    step w identity (.run (.enqueue threads) job thunk) =
      .go { w with scheduler := t } identity [.run (.announce threads) job thunk] := by
  rw [step, RunPoint.step, w.schedule_of_ok (·.push 0 job) _ hpush]
  rfl

/-- A run has found no slot for its job. -/
theorem step_enqueue_of_refused
    {job : JobId} {cause : Error}
    (hpush : w.scheduler.push 0 job = .ok (t, .error cause))
    (identity : Option Nat) (threads : Nat) (thunk : Bool) :
    step w identity (.run (.enqueue threads) job thunk) =
      .fail { w with scheduler := t } (.error cause) := by
  rw [step, RunPoint.step, w.schedule_of_ok (·.push 0 job) _ hpush]
  rfl

/-- A run has put back one deque more. -/
theorem step_reset_of_ok
    (hdeque : deque < w.scheduler.dequeCount)
    (hreset : w.scheduler.resetDeque deque = .ok (t, ()))
    (identity : Option Nat) (job : JobId) (thunk : Bool) :
    step w identity (.run (.reset deque) job thunk) =
      .go { w with scheduler := t } identity [.run (.reset (deque + 1)) job thunk] := by
  rw [step, RunPoint.step, if_pos hdeque, w.schedule_of_ok (·.resetDeque deque) _ hreset]

/-- A run cannot put back a deque. -/
theorem step_reset_of_error
    (hdeque : deque < w.scheduler.dequeCount)
    (hreset : w.scheduler.resetDeque deque = .error cause)
    (identity : Option Nat) (job : JobId) (thunk : Bool) :
    step w identity (.run (.reset deque) job thunk) = .fail w cause := by
  rw [step, RunPoint.step, if_pos hdeque, w.schedule_of_error (·.resetDeque deque) _ hreset]

/-- A run has put back all deques. -/
theorem step_reset_of_not_lt
    (hdeque : ¬ deque < w.scheduler.dequeCount)
    (identity : Option Nat) (job : JobId) (thunk : Bool) :
    step w identity (.run (.reset deque) job thunk) = .go w identity [.run .release job thunk] :=
  if_neg hdeque

/-- At its end a run reports, unless statistics are to be traced that cannot be summed. -/
theorem step_complete
    (w : World) (job : JobId) (thunk : Bool) :
    (∃ traced, w.Traces traced ∧ ∀ identity, step w identity (.run .complete job thunk) =
        .go (traced.emit (ranEvent thunk (.ok ()))) identity []) ∨
      w.tracing = true ∧ ∃ cause, w.scheduler.stats = .error cause ∧
        ∀ identity, step w identity (.run .complete job thunk) =
          .fail (w.trace .complete) (.panic cause) := by
  by_cases htracing : w.tracing = true
  · cases hstats : w.scheduler.stats with
    | error cause =>
        refine Or.inr ⟨htracing, cause, rfl, fun identity => ?_⟩
        rw [step, RunPoint.step, if_pos htracing, hstats]
    | ok stats =>
        refine Or.inl ⟨_, (World.Traces.refl.trace .complete).trace (.statistics stats),
          fun identity => ?_⟩
        rw [step, RunPoint.step, if_pos htracing, hstats]
  · exact Or.inl ⟨w, .refl, fun identity => if_neg htracing⟩

end Frame

namespace System

variable {s : System} {index : Nat} {thread : Thread} {frame : Frame} {below : List Frame}

/-- Once the process was given up nothing happens. -/
theorem advance_of_aborted
    (haborted : s.aborted.isSome = true)
    (index : Nat) :
    s.advance index = s ∧ s.frameAt index = none := by
  rw [advance, frameAt, if_pos haborted, if_pos haborted]
  exact ⟨rfl, rfl⟩

theorem advance_of_none
    (hthread : s.threads[index]? = none) :
    s.advance index = s ∧ s.frameAt index = none := by
  rw [advance, frameAt, hthread]
  refine ⟨ite_self s, ?_⟩
  exact ite_self none

theorem advance_of_over
    (hthread : s.threads[index]? = some thread)
    (hframes : thread.frames = []) :
    s.advance index = s ∧ s.frameAt index = none := by
  obtain ⟨frames, identity, panicked⟩ := thread
  cases hframes
  rw [advance, frameAt, hthread]
  refine ⟨ite_self s, ?_⟩
  exact ite_self none

/-- When all threads are over, no turn changes anything. -/
theorem advance_of_forall_over
    (hover : ∀ thread ∈ s.threads, thread.frames = [])
    (index : Nat) :
    s.advance index = s ∧ s.frameAt index = none := by
  cases hthread : s.threads[index]? with
  | none =>
      exact advance_of_none hthread
  | some thread =>
      exact advance_of_over hthread (hover thread (Array.mem_of_getElem? hthread))

theorem frameAt_of_thread
    (haborted : s.aborted = none)
    (hthread : s.threads[index]? = some thread)
    (hframes : thread.frames = frame :: below) :
    s.frameAt index = some frame := by
  rw [frameAt, haborted, hthread]
  show thread.frames.head? = some frame
  rw [hframes]
  rfl

theorem advance_of_go
    (haborted : s.aborted = none)
    (hthread : s.threads[index]? = some thread)
    (hframes : thread.frames = frame :: below)
    {world : World} {identity : Option Nat} {frames : List Frame}
    (hmove : frame.step s.world thread.identity = .go world identity frames) :
    s.advance index =
      { world
        threads := s.threads.setIfInBounds index { frames := frames ++ below, identity } } := by
  obtain ⟨_, old, panicked⟩ := thread
  cases hframes
  simp only [advance, haborted, hthread, hmove]
  rfl

theorem advance_of_error
    (haborted : s.aborted = none)
    (hthread : s.threads[index]? = some thread)
    (hframes : thread.frames = frame :: below)
    {world : World} {cause : Error}
    (hmove : frame.step s.world thread.identity = .fail world (.error cause)) :
    s.advance index = abort world s.threads cause := by
  obtain ⟨_, old, panicked⟩ := thread
  cases hframes
  simp only [advance, haborted, hthread, hmove]
  rfl

theorem advance_of_panic
    (haborted : s.aborted = none)
    (hthread : s.threads[index]? = some thread)
    (hframes : thread.frames = frame :: below)
    {world : World} {cause : Panic}
    (hmove : frame.step s.world thread.identity = .fail world (.panic cause)) :
    s.advance index = raise world s.threads index thread.identity below cause := by
  obtain ⟨_, old, panicked⟩ := thread
  cases hframes
  simp only [advance, haborted, hthread, hmove]
  rfl

/-- A panic that nothing below stops ends the thread, and the others are as they were. -/
theorem thread_of_panic
    (haborted : s.aborted = none)
    (hthread : s.threads[index]? = some thread)
    (hframes : thread.frames = frame :: below)
    {world : World} {cause : Panic}
    (hmove : frame.step s.world thread.identity = .fail world (.panic cause))
    (hunwind : unwind cause thread.identity below = .over thread.identity) :
    (s.advance index).aborted = none ∧ (s.advance index).world = world ∧
      ∀ (t : Nat) (other : Thread), (s.advance index).threads[t]? = some other →
        other.frames = [] ∧ other.panicked = some cause ∨
          t ≠ index ∧ s.threads[t]? = some other := by
  rw [advance_of_panic haborted hthread hframes hmove, raise, hunwind]
  refine ⟨rfl, rfl, fun t other hother => ?_⟩
  have hset : (s.threads.setIfInBounds index
      { frames := [], identity := thread.identity, panicked := some cause })[t]? = some other :=
    hother
  by_cases ht : t = index
  · subst ht
    rw [Array.getElem?_setIfInBounds_self_of_lt (Array.getElem?_eq_some_iff.mp hthread).1] at hset
    cases hset
    exact Or.inl ⟨rfl, rfl⟩
  · rw [Array.getElem?_setIfInBounds_ne (Ne.symm ht)] at hset
    exact Or.inr ⟨ht, hset⟩

theorem advance_of_recruit
    (haborted : s.aborted = none)
    (hthread : s.threads[index]? = some thread)
    (hframes : thread.frames = frame :: below)
    {world : World} {workers : List Nat}
    (hmove : frame.step s.world thread.identity = .recruit world workers) :
    s.advance index = recruit world s.threads index thread.identity below workers := by
  obtain ⟨_, old, panicked⟩ := thread
  cases hframes
  simp only [advance, haborted, hthread, hmove]
  rfl

/-- A step of a thread that waits for others. -/
theorem advance_of_await
    {s : System} {index : Nat} {thread : Thread} {frame : Frame} {below : List Frame}
    (haborted : s.aborted = none)
    (hthread : s.threads[index]? = some thread)
    (hframes : thread.frames = frame :: below)
    {world : World} {others : List Nat} {pending : Option Panic}
    (hmove : frame.step s.world thread.identity = .await world others pending) :
    s.advance index =
      if allOver s.threads others then
        match regionPanic s.threads others pending with
        | some cause => raise world s.threads index thread.identity below cause
        | none =>
          { world
            threads := s.threads.setIfInBounds index
              { frames := below, identity := thread.identity } }
      else { world, threads := s.threads } := by
  obtain ⟨_, old, panicked⟩ := thread
  cases hframes
  simp only [advance, haborted, hthread, hmove]
  rfl

/-- The end of a region, while some of its threads are not over. -/
theorem advance_of_busy
    (haborted : s.aborted = none)
    (hthread : s.threads[index]? = some thread)
    {others : List Nat} {pending : Option Panic}
    (hframes : thread.frames = .disband others pending :: below)
    (hbusy : allOver s.threads others = false) :
    s.advance index = s := by
  obtain ⟨world, threads, _⟩ := s
  obtain ⟨_, old, panicked⟩ := thread
  cases hframes
  cases haborted
  simp only [advance, hthread, Frame.step, hbusy]
  rfl

/-- The end of a region, when all of its threads are over. -/
theorem advance_of_allOver
    (haborted : s.aborted = none)
    (hthread : s.threads[index]? = some thread)
    {others : List Nat}
    (hframes : thread.frames = .disband others none :: below)
    (hover : allOver s.threads others = true)
    (hpanicked : anyPanicked s.threads others = false) :
    s.advance index =
      { world := s.world
        threads := s.threads.setIfInBounds index
          { frames := below, identity := thread.identity } } := by
  obtain ⟨_, old, panicked⟩ := thread
  cases hframes
  simp only [advance, haborted, hthread, Frame.step, hover, regionPanic, hpanicked]
  rfl

end System

/-- A panic that is caught leaves the end of a region in the place of the region. -/
theorem unwind_frames
    {cause : Panic} {identity other : Option Nat} {below frames : List Frame}
    (h : unwind cause identity below = .caught other frames) :
    ∃ crew rest, frames = .disband crew (some cause) :: rest ∧
      .crew crew other :: rest <:+ below := by
  induction below generalizing identity with
  | nil =>
      cases h
  | cons frame below ih =>
      cases frame with
      | guarded job | fork point worker right left =>
          cases h
      | crew threads outer =>
          cases h
          exact ⟨threads, below, rfl, List.suffix_refl _⟩
      | _ =>
          obtain ⟨crew, rest, rfl, hsuffix⟩ := ih h
          exact ⟨crew, rest, rfl, hsuffix.trans (List.suffix_cons _ _)⟩

namespace System

section Threads

variable {p : Nat → Thread → Prop} {threads : Array Thread} {index : Nat}

theorem forall_mem
    {q : Thread → Prop}
    (h : ∀ (i : Nat) thread, threads[i]? = some thread → q thread) :
    ∀ thread ∈ threads, q thread := by
  intro thread hthread
  obtain ⟨i, hi⟩ := Array.mem_iff_getElem?.mp hthread
  exact h i thread hi

/-- What holds of the threads holds of them after one was changed, if it holds of that one. -/
theorem forall_set
    (hall : ∀ (i : Nat) thread, threads[i]? = some thread → p i thread)
    {next : Thread}
    (hnext : p index next) :
    ∀ (i : Nat) thread, (threads.setIfInBounds index next)[i]? = some thread → p i thread := by
  intro i thread hthread
  by_cases hsame : index = i
  · subst hsame
    rw [Array.getElem?_setIfInBounds_self] at hthread
    split at hthread
    · cases hthread
      exact hnext
    · cases hthread
  · rw [Array.getElem?_setIfInBounds_ne hsame] at hthread
    exact hall i thread hthread

/-- The threads after a panic went through one of them. -/
theorem forall_raise
    {cause : Panic} {below : List Frame}
    (hall : ∀ (i : Nat) thread, threads[i]? = some thread → p i thread)
    (hover : ∀ identity, p index { frames := [], identity, panicked := some cause })
    (hcaught : ∀ crew outer rest, .crew crew outer :: rest <:+ below →
      p index { frames := .disband crew (some cause) :: rest, identity := outer })
    (w : World) (identity : Option Nat) :
    ∀ (i : Nat) thread, (raise w threads index identity below cause).threads[i]? = some thread →
      p i thread := by
  unfold raise
  split
  next hunwind =>
    obtain ⟨crew, rest, rfl, hsuffix⟩ := unwind_frames hunwind
    exact forall_set hall (hcaught crew _ rest hsuffix)
  next =>
    exact forall_set hall (hover _)
  next =>
    exact hall

/-- The threads after one of them has opened a region. -/
theorem forall_recruit
    {identity : Option Nat} {below : List Frame} {workers : List Nat}
    (hall : ∀ (i : Nat) thread, threads[i]? = some thread → p i thread)
    (hempty : p index { frames := below, identity })
    (hcaller : ∀ worker ∈ workers, ∀ crew, p index
      { frames := workerFrame worker :: .crew crew identity :: below, identity := some worker })
    (hcrew : ∀ i, threads.size ≤ i → ∀ worker ∈ workers, p i (workerThread worker))
    (w : World) :
    ∀ (i : Nat) thread,
      (recruit w threads index identity below workers).threads[i]? = some thread → p i thread := by
  cases workers with
  | nil =>
      exact forall_set hall hempty
  | cons worker others =>
      intro i thread hthread
      simp only [recruit, Array.getElem?_append, Array.size_setIfInBounds] at hthread
      split at hthread
      · exact forall_set hall (hcaller worker List.mem_cons_self _) i thread hthread
      next hnew =>
        simp only [List.getElem?_toArray, List.getElem?_map, Option.map_eq_some_iff] at hthread
        obtain ⟨number, hnumber, rfl⟩ := hthread
        exact hcrew i (Nat.le_of_not_lt hnew) number
          (List.mem_cons_of_mem _ (List.mem_of_getElem? hnumber))

/-- A panic changes no job. -/
theorem bodies_raise
    (w : World) (threads : Array Thread) (index : Nat) (identity : Option Nat) (below : List Frame)
    (cause : Panic) :
    (raise w threads index identity below cause).world.bodies = w.bodies := by
  unfold raise
  split <;> rfl

theorem bodies_recruit
    (w : World) (threads : Array Thread) (index : Nat) (identity : Option Nat) (below : List Frame)
    (workers : List Nat) :
    (recruit w threads index identity below workers).world.bodies = w.bodies := by
  cases workers <;> rfl

end Threads

/-- The frame is on top of the thread of that number, and the process was not given up. -/
structure At (s : System) (index : Nat) (thread : Thread) (frame : Frame)
    (below : List Frame) : Prop where
  going : s.aborted = none
  found : s.threads[index]? = some thread
  frames : thread.frames = frame :: below

theorem exists_at
    {s : System} {index : Nat} {frame : Frame}
    (h : s.frameAt index = some frame) :
    ∃ thread below, s.At index thread frame below := by
  unfold frameAt at h
  split at h
  · cases h
  next hgoing =>
    obtain ⟨thread, hthread, hhead⟩ := Option.bind_eq_some_iff.mp h
    obtain ⟨below, hframes⟩ := List.head?_eq_some_iff.mp hhead
    exact ⟨thread, below, by simpa using hgoing, hthread, hframes⟩

/-- How a system goes on with a step of a thread. -/
inductive Advances (s : System) (index : Nat) : System → Prop where
  /-- There is no frame that could make a step. -/
  | rest (hframe : s.frameAt index = none) : Advances s index s
  | go {thread : Thread} {frame : Frame} {below : List Frame}
      {world : World} {identity : Option Nat} {frames : List Frame}
      (hat : s.At index thread frame below)
      (hmove : frame.step s.world thread.identity = .go world identity frames) :
      Advances s index
        { world
          threads := s.threads.setIfInBounds index { frames := frames ++ below, identity } }
  | error {thread : Thread} {frame : Frame} {below : List Frame}
      {world : World} {cause : Error}
      (hat : s.At index thread frame below)
      (hmove : frame.step s.world thread.identity = .fail world (.error cause)) :
      Advances s index (abort world s.threads cause)
  | panic {thread : Thread} {frame : Frame} {below : List Frame}
      {world : World} {cause : Panic}
      (hat : s.At index thread frame below)
      (hmove : frame.step s.world thread.identity = .fail world (.panic cause)) :
      Advances s index (raise world s.threads index thread.identity below cause)
  | recruit {thread : Thread} {frame : Frame} {below : List Frame}
      {world : World} {workers : List Nat}
      (hat : s.At index thread frame below)
      (hmove : frame.step s.world thread.identity = .recruit world workers) :
      Advances s index (recruit world s.threads index thread.identity below workers)
  /-- The region has threads that are not over. -/
  | busy {thread : Thread} {frame : Frame} {below : List Frame}
      {world : World} {others : List Nat} {pending : Option Panic}
      (hat : s.At index thread frame below)
      (hmove : frame.step s.world thread.identity = .await world others pending)
      (hbusy : allOver s.threads others = false) :
      Advances s index { world, threads := s.threads }
  | closed {thread : Thread} {frame : Frame} {below : List Frame}
      {world : World} {others : List Nat} {pending : Option Panic}
      (hat : s.At index thread frame below)
      (hmove : frame.step s.world thread.identity = .await world others pending)
      (hover : allOver s.threads others = true)
      (hcalm : regionPanic s.threads others pending = none) :
      Advances s index
        { world
          threads := s.threads.setIfInBounds index
            { frames := below, identity := thread.identity } }
  /-- The region has ended with a panic. -/
  | passed {thread : Thread} {frame : Frame} {below : List Frame}
      {world : World} {others : List Nat} {pending : Option Panic} {cause : Panic}
      (hat : s.At index thread frame below)
      (hmove : frame.step s.world thread.identity = .await world others pending)
      (hover : allOver s.threads others = true)
      (hpanic : regionPanic s.threads others pending = some cause) :
      Advances s index (raise world s.threads index thread.identity below cause)

/-- Each step is one of these. -/
theorem advances
    (s : System) (index : Nat) :
    Advances s index (s.advance index) := by
  cases haborted : s.aborted with
  | some error =>
      have hrest := advance_of_aborted (by rw [haborted]; rfl) index
      exact hrest.1.symm ▸ .rest hrest.2
  | none =>
      cases hthread : s.threads[index]? with
      | none =>
          have hrest := advance_of_none hthread
          exact hrest.1.symm ▸ .rest hrest.2
      | some thread =>
          cases hframes : thread.frames with
          | nil =>
              have hrest := advance_of_over hthread hframes
              exact hrest.1.symm ▸ .rest hrest.2
          | cons frame below =>
              have hat : s.At index thread frame below := ⟨haborted, hthread, hframes⟩
              cases hmove : frame.step s.world thread.identity with
              | go world identity frames =>
                  rw [advance_of_go haborted hthread hframes hmove]
                  exact .go hat hmove
              | fail world cause =>
                  cases cause with
                  | panic cause =>
                      rw [advance_of_panic haborted hthread hframes hmove]
                      exact .panic hat hmove
                  | error cause =>
                      rw [advance_of_error haborted hthread hframes hmove]
                      exact .error hat hmove
              | recruit world workers =>
                  rw [advance_of_recruit haborted hthread hframes hmove]
                  exact .recruit hat hmove
              | await world others pending =>
                  rw [advance_of_await haborted hthread hframes hmove]
                  cases hover : allOver s.threads others with
                  | false =>
                      simp only [Bool.false_eq_true, if_false]
                      exact .busy hat hmove hover
                  | true =>
                      cases hpanic : regionPanic s.threads others pending with
                      | none =>
                          simp only [if_true]
                          exact .closed hat hmove hover hpanic
                      | some cause =>
                          simp only [if_true]
                          exact .passed hat hmove hover hpanic

theorem frameAt_of_at
    {s : System} {index : Nat} {thread : Thread} {frame : Frame} {below : List Frame}
    (hat : s.At index thread frame below) :
    s.frameAt index = some frame :=
  frameAt_of_thread hat.going hat.found hat.frames

/-- Without a frame that could make a step nothing happens. -/
theorem advance_of_rest
    {s : System} {index : Nat}
    (h : s.frameAt index = none) :
    s.advance index = s := by
  have hnever : ∀ {thread frame below}, ¬ s.At index thread frame below := by
    intro thread frame below hat
    rw [frameAt_of_at hat] at h
    cases h
  have hadvances := s.advances index
  generalize s.advance index = t at hadvances ⊢
  cases hadvances with
  | rest hframe =>
      rfl
  | go hat | error hat | panic hat | recruit hat | busy hat | closed hat | passed hat =>
      exact absurd hat hnever

end System
end Machine
end WorkStealing
