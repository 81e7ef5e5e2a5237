import WorkStealing.Proofs.Runs.Faults
import WorkStealing.Proofs.Runs.Sessions

/-!
# No stray panic

Take a scheduler that was built, and let anybody do anything with it: threads come at
any time with any code and prepare jobs, the host plays the workers of each region as
it likes and tells a thread any number when it asks who it is. All that is asked is
that a region has no worker beyond those it was opened for, and that statistics can be
summed. Then nothing fails but what is listed in `Frame.Fault`, and each panic that
has ended a thread, or is on its way through one, is explained: it is one of those, or
it stands for one that has ended another thread (`Machine.System.Contained`).
-/

namespace WorkStealing

/-- The panics that steps raise themselves: two of the library, and those in a program's own
words. -/
def Panic.IsOrigin : Panic → Prop
  | .resetNonEmpty => True
  | .jobExecutedTwice => True
  | .raised _ => True
  | _ => False

/-- The errors for which a process is given up, where deques have so many slots. -/
def Error.IsFatal (capacity : Nat) (cause : Error) : Prop :=
  cause = .dequeOverflow capacity ∨ cause = .tagExhausted ∨ cause = .jobPanicked

namespace Machine

theorem Frame.Fault.isOrigin
    {capacity : Nat} {frame : Frame} {cause : Panic}
    (h : frame.Fault capacity (.panic cause)) :
    cause.IsOrigin := by
  cases h <;> trivial

theorem Frame.Fault.isFatal
    {capacity : Nat} {frame : Frame} {cause : Error}
    (h : frame.Fault capacity (.error cause)) :
    cause.IsFatal capacity := by
  cases h with
  | overflow hpush =>
      exact .inl rfl
  | exhausted hrestart =>
      exact .inr (.inl rfl)

/-- The panic was raised by a step, or stands for one that was and has ended a thread. -/
def Explained (threads : Array Thread) (cause : Panic) : Prop :=
  cause.IsOrigin ∨ cause = .crewPanicked ∧
    ∃ thread ∈ threads, ∃ origin, thread.panicked = some origin ∧ origin.IsOrigin

/-- Each panic that has ended one of the first threads has ended one of the others too. -/
def Recalls (threads others : Array Thread) : Prop :=
  ∀ thread ∈ threads, ∀ origin, thread.panicked = some origin →
    ∃ other ∈ others, other.panicked = some origin

/-- One thread is replaced, and if a panic has ended it then that has ended the new one. -/
theorem recalls_set
    {threads : Array Thread} {index : Nat} {thread next : Thread}
    (hthread : threads[index]? = some thread)
    (hnext : ∀ origin, thread.panicked = some origin → next.panicked = some origin) :
    Recalls threads (threads.setIfInBounds index next) := by
  intro other hother origin hpanicked
  obtain ⟨i, hi⟩ := Array.mem_iff_getElem?.mp hother
  by_cases heq : index = i
  · subst heq
    have hsame : other = thread := Option.some.inj (hi.symm.trans hthread)
    have hsize := (Array.getElem?_eq_some_iff.mp hthread).1
    refine ⟨next, Array.mem_iff_getElem?.mpr ⟨index, ?_⟩, hnext origin (hsame ▸ hpanicked)⟩
    simp [hsize]
  · refine ⟨other, Array.mem_iff_getElem?.mpr ⟨i, ?_⟩, hpanicked⟩
    simpa [heq] using hi

theorem recalls_append
    (threads more : Array Thread) :
    Recalls threads (threads ++ more) :=
  fun thread hthread _ horigin => ⟨thread, Array.mem_append.mpr (.inl hthread), horigin⟩

/-- Threads that a panic has ended stay among the threads. -/
theorem Explained.mono
    {threads others : Array Thread} {cause : Panic}
    (h : Explained threads cause)
    (hkeep : Recalls threads others) :
    Explained others cause := by
  rcases h with horigin | ⟨hcrew, thread, hmem, origin, hpanicked, horigin⟩
  · exact .inl horigin
  · obtain ⟨other, hother, hsame⟩ := hkeep thread hmem origin hpanicked
    exact .inr ⟨hcrew, other, hother, origin, hsame, horigin⟩

/-- The frame is within bounds, or passes an explained panic on. -/
def Frame.Fits (deques : Nat) (threads : Array Thread) (frame : Frame) : Prop :=
  frame.Within deques ∨
    ∃ others cause, frame = .disband others (some cause) ∧ Explained threads cause

structure Thread.Fits (deques : Nat) (threads : Array Thread) (thread : Thread) : Prop where
  frames : ∀ frame ∈ thread.frames, frame.Fits deques threads
  panicked : ∀ cause, thread.panicked = some cause →
    thread.frames = [] ∧ Explained threads cause

theorem Thread.Fits.mono
    {deques : Nat} {threads others : Array Thread} {thread : Thread}
    (h : thread.Fits deques threads)
    (hkeep : Recalls threads others) :
    thread.Fits deques others where
  frames frame hframe := by
    rcases h.frames frame hframe with hwithin | ⟨crew, cause, hdisband, hexplained⟩
    · exact .inl hwithin
    · exact .inr ⟨crew, cause, hdisband, hexplained.mono hkeep⟩
  panicked cause hpanicked :=
    ⟨(h.panicked cause hpanicked).1, (h.panicked cause hpanicked).2.mono hkeep⟩

namespace System

/-- All places that anybody is about to use are places that there are, and all that has failed has
failed as it can. -/
structure Bounded (deques capacity : Nat) (s : System) : Prop where
  scheduler : s.world.scheduler.Sound deques capacity
  threads : ∀ thread ∈ s.threads, thread.Fits deques s.threads
  aborted : ∀ cause, s.aborted = some cause → cause.IsFatal capacity

section Steps

variable {deques capacity : Nat} {s : System} {index : Nat} {thread : Thread} {frame : Frame}
  {below : List Frame}

/-- A thread that can make a step was not ended by a panic. -/
theorem Bounded.recalls
    (h : s.Bounded deques capacity)
    (hat : s.At index thread frame below)
    (next : Thread) :
    Recalls s.threads (s.threads.setIfInBounds index next) := by
  refine recalls_set hat.found fun origin horigin => ?_
  have hover := ((h.threads thread (Array.mem_of_getElem? hat.found)).panicked origin horigin).1
  rw [hat.frames] at hover
  cases hover

/-- One thread has changed. -/
theorem Bounded.set
    (h : s.Bounded deques capacity)
    (hat : s.At index thread frame below)
    {world : World} {next : Thread}
    (hsound : world.scheduler.Sound deques capacity)
    (hnext : next.Fits deques s.threads) :
    Bounded deques capacity { world, threads := s.threads.setIfInBounds index next } where
  scheduler := hsound
  threads other hother := by
    rcases Array.mem_or_eq_of_mem_setIfInBounds hother with hold | rfl
    · exact (h.threads other hold).mono (h.recalls hat next)
    · exact hnext.mono (h.recalls hat other)
  aborted := nofun

/-- The frames of a thread that goes on. -/
theorem fits_of_frames
    {threads : Array Thread} {frames : List Frame} {identity : Option Nat}
    (hframes : ∀ frame ∈ frames, frame.Fits deques threads) :
    Thread.Fits deques threads { frames, identity } :=
  ⟨hframes, nofun⟩

theorem Bounded.frames_fit
    (h : s.Bounded deques capacity)
    (hat : s.At index thread frame below) :
    frame.Fits deques s.threads ∧ ∀ other ∈ below, other.Fits deques s.threads := by
  have hall := (h.threads thread (Array.mem_of_getElem? hat.found)).frames
  rw [hat.frames, List.forall_mem_cons] at hall
  exact hall

/-- A panic that is explained goes through a thread. -/
theorem Bounded.raise
    (h : s.Bounded deques capacity)
    (hat : s.At index thread frame below)
    {world : World} {cause : Panic}
    (hsound : world.scheduler.Sound deques capacity)
    (hexplained : Explained s.threads cause) :
    Bounded deques capacity
      (System.raise world s.threads index thread.identity below cause) := by
  unfold System.raise
  split
  next other frames hcaught =>
    obtain ⟨crew, rest, rfl, hsuffix⟩ := unwind_frames hcaught
    refine h.set hat hsound (fits_of_frames ?_)
    rw [List.forall_mem_cons]
    exact ⟨.inr ⟨crew, cause, rfl, hexplained⟩,
      fun frame hframe => (h.frames_fit hat).2 frame
        (((List.suffix_cons _ _).trans hsuffix).subset hframe)⟩
  next other hover =>
    refine h.set hat hsound ⟨by simp, fun origin horigin => ⟨rfl, ?_⟩⟩
    cases horigin
    exact hexplained
  next =>
    refine ⟨?_, h.threads, ?_⟩
    · simpa [abort] using hsound
    · rintro _ ⟨⟩
      exact .inr (.inr rfl)

/-- The panic with which a region ends is explained. -/
theorem Bounded.explained
    (h : s.Bounded deques capacity)
    {others : List Nat} {pending : Option Panic} {cause : Panic}
    (hframe : (Frame.disband others pending).Fits deques s.threads)
    (hpanic : regionPanic s.threads others pending = some cause) :
    Explained s.threads cause := by
  cases pending with
  | some own =>
      rcases hframe with hwithin | ⟨crew, origin, hdisband, hexplained⟩
      · cases hwithin
      · cases hdisband
        cases hpanic
        exact hexplained
  | none =>
      simp only [regionPanic, Option.none_or, Option.ite_none_right_eq_some,
        Option.some.injEq] at hpanic
      obtain ⟨hany, rfl⟩ := hpanic
      obtain ⟨i, -, hi⟩ := List.any_eq_true.mp hany
      obtain ⟨origin, horigin⟩ := Option.isSome_iff_exists.mp hi
      obtain ⟨other, hother, hpanicked⟩ := Option.bind_eq_some_iff.mp horigin
      have hmem := Array.mem_of_getElem? hother
      rcases ((h.threads other hmem).panicked origin hpanicked).2 with hown | ⟨-, hfirst⟩
      · exact .inr ⟨rfl, other, hmem, origin, hpanicked, hown⟩
      · exact .inr ⟨rfl, hfirst⟩

theorem fits_workerThread
    {threads : Array Thread} {worker : Nat}
    (hworker : worker < deques) :
    (workerThread worker).Fits deques threads :=
  fits_of_frames (by simpa [workerFrame, Frame.Fits, Frame.Within, LoopPoint.Within])

/-- A region is opened. -/
theorem Bounded.recruit
    (h : s.Bounded deques capacity)
    (hat : s.At index thread frame below)
    {world : World} {workers : List Nat}
    (hsound : world.scheduler.Sound deques capacity)
    (hworkers : ∀ worker ∈ workers, worker < deques) :
    Bounded deques capacity
      (System.recruit world s.threads index thread.identity below workers) := by
  have hbelow := (h.frames_fit hat).2
  cases workers with
  | nil =>
      exact h.set hat hsound (fits_of_frames hbelow)
  | cons worker others =>
      rw [List.forall_mem_cons] at hworkers
      obtain ⟨hworker, hothers⟩ := hworkers
      let crew := (List.range others.length).map fun i => s.threads.size + i
      let caller : Thread :=
        { frames := workerFrame worker :: .crew crew thread.identity :: below
          identity := some worker }
      have hcaller : caller.Fits deques s.threads := by
        refine fits_of_frames ?_
        rw [List.forall_mem_cons, List.forall_mem_cons]
        exact ⟨.inl ⟨hworker, trivial⟩, .inl trivial, hbelow⟩
      have hset := h.set hat hsound hcaller
      refine ⟨hsound, fun other hother => ?_, nofun⟩
      rcases Array.mem_append.mp hother with hold | hnew
      · exact (hset.threads other hold).mono (recalls_append _ _)
      · simp only [List.mem_toArray, List.mem_map] at hnew
        obtain ⟨number, hnumber, rfl⟩ := hnew
        exact fits_workerThread (hothers number hnumber)

/-- The host gives a region only workers that it was opened for, if the next step of this thread
opens one. -/
def HostKeeps (s : System) (index : Nat) : Prop :=
  ∀ threads job thunk, s.frameAt index = some (.run (.open threads) job thunk) →
    ∀ worker ∈ s.world.style.workersOf threads, worker < threads

/-- A step of a thread keeps everything within bounds, and fails only as the frame can. -/
theorem Bounded.advance
    (hpos : 0 < deques)
    (hword : deques < UInt64.size)
    (h : s.Bounded deques capacity)
    (hcareful : s.Everywhere (Action.IsCareful deques))
    (hfits : ∀ counter, s.world.scheduler.total counter < UInt64.size)
    (hhost : s.HostKeeps index) :
    (s.advance index).Bounded deques capacity := by
  have hstep : ∀ {thread frame below move}, s.At index thread frame below →
      frame.step s.world thread.identity = move → Move.Bounded deques capacity frame move := by
    intro thread frame below move hat hmove
    subst hmove
    have hall := hcareful.frames thread (Array.mem_of_getElem? hat.found)
    rw [hat.frames, List.forall_mem_cons] at hall
    rcases (h.frames_fit hat).1 with hwithin | ⟨others, cause, rfl, -⟩
    · refine Frame.bounded_step hpos hword h.scheduler hfits thread.identity ?_ hall.1 hwithin
      rintro threads job thunk rfl
      exact hhost threads job thunk (frameAt_of_at hat)
    · exact .await h.scheduler rfl
  have hadvances := s.advances index
  generalize s.advance index = t at hadvances ⊢
  cases hadvances with
  | rest hframe =>
      exact h
  | go hat hmove =>
      cases hstep hat hmove with
      | go hsound hframes =>
          refine h.set hat hsound (fits_of_frames fun frame hframe => ?_)
          exact (List.mem_append.mp hframe).elim (fun hnew => .inl (hframes frame hnew))
            ((h.frames_fit hat).2 frame)
  | error hat hmove =>
      cases hstep hat hmove with
      | fail hsound hfault =>
          refine ⟨?_, h.threads, ?_⟩
          · simpa [abort] using hsound
          · rintro _ ⟨⟩
            exact hfault.isFatal
  | panic hat hmove =>
      cases hstep hat hmove with
      | fail hsound hfault =>
          exact h.raise hat hsound (.inl hfault.isOrigin)
  | recruit hat hmove =>
      cases hstep hat hmove with
      | recruit hsound hworkers =>
          exact h.recruit hat hsound hworkers
  | busy hat hmove hbusy =>
      cases hstep hat hmove with
      | await hsound hframe =>
          exact ⟨hsound, h.threads, nofun⟩
  | closed hat hmove hover hcalm =>
      cases hstep hat hmove with
      | await hsound hframe =>
          exact h.set hat hsound (fits_of_frames (h.frames_fit hat).2)
  | passed hat hmove hover hpanic =>
      cases hstep hat hmove with
      | await hsound hframe =>
          have hfits := (h.frames_fit hat).1
          rw [hframe] at hfits
          exact h.raise hat hsound (h.explained hfits hpanic)

end Steps

/-- What can come of a scheduler, whatever anybody does with it. Code that is brought in waits for
careful conditions, and leaves it to workers to count. -/
inductive Attains (start : Scheduler) : System → Prop where
  /-- At first there are no threads. -/
  | begins {world : World}
      (hscheduler : world.scheduler = start)
      (hcareful : world.Everywhere (Action.IsCareful start.dequeCount)) :
      Attains start { world }
  /-- A thread makes its next step, when statistics can be summed. -/
  | steps {s : System}
      (h : Attains start s)
      (index : Nat)
      (hhost : s.HostKeeps index)
      (hfits : ∀ counter, s.world.scheduler.total counter < UInt64.size) :
      Attains start (s.advance index)
  /-- Another thread comes. -/
  | comes {s : System}
      (h : Attains start s)
      (code : Code)
      (hcareful : Code.Everywhere (Action.IsCareful start.dequeCount) code) :
      Attains start { s with threads := s.threads.push (.ofCode code) }
  /-- A job is prepared. -/
  | prepares {s : System}
      (h : Attains start s)
      (body : JobId → Code)
      (hcareful : ∀ job, Code.Everywhere (Action.IsCareful start.dequeCount) (body job)) :
      Attains start { s with world := (s.world.addJob body).1 }
  /-- The host tells a thread from now on that it is this worker, or nobody. -/
  | tells {s : System}
      (h : Attains start s)
      {index : Nat} {thread : Thread}
      (hthread : s.threads[index]? = some thread)
      (identity : Option Nat) :
      Attains start
        { s with threads := s.threads.setIfInBounds index { thread with identity } }
  /-- The host plays the workers of regions in another way. -/
  | plays {s : System}
      (h : Attains start s)
      (style : HostStyle) :
      Attains start { s with world := { s.world with style } }

/-- What can have failed, and what can fail next. -/
structure Contained (capacity : Nat) (s : System) : Prop where
  /-- Whoever a thread is told that it is, its next step fails only as the frame on top can. -/
  fault : ∀ index thread frame below, s.At index thread frame below →
    ∀ identity world cause, frame.step s.world identity = .fail world cause →
      frame.Fault capacity cause
  /-- The process was given up for nothing else. -/
  aborted : ∀ cause, s.aborted = some cause → cause.IsFatal capacity
  /-- No thread was ended by any other panic. -/
  panicked : ∀ thread ∈ s.threads, ∀ cause, thread.panicked = some cause →
    Explained s.threads cause
  /-- However many users make accesses to a deque in whatever order, nothing else fails. -/
  accesses : ∀ place ∈ s.world.scheduler.places, ∀ moves,
    ∀ task ∈ (Deque.Crowd.play { deque := place.deque } moves).tasks, ∀ cause,
      task.Failed cause → cause = .panic .resetNonEmpty ∨ cause = .error .tagExhausted

section Attains

variable {start : Scheduler} {s : System} {capacity : Nat}

/-- Whatever anybody does keeps everything within bounds. -/
theorem Attains.bounded
    (hpos : 0 < start.dequeCount)
    (hword : start.dequeCount < UInt64.size)
    (hstart : start.Sound start.dequeCount capacity)
    (h : Attains start s) :
    s.Bounded start.dequeCount capacity ∧ s.Everywhere (Action.IsCareful start.dequeCount) := by
  induction h with
  | begins hscheduler hcareful =>
      exact ⟨⟨hscheduler ▸ hstart, by simp, nofun⟩, hcareful, by simp⟩
  | steps h index hhost hfits ih =>
      obtain ⟨hbounded, hcareful⟩ := ih
      refine ⟨hbounded.advance hpos hword hcareful hfits hhost,
        everywhere_advance ?_ hcareful index⟩
      rw [hbounded.scheduler.count]
      exact admits_isCareful _
  | @comes s h code hcode ih =>
      obtain ⟨hbounded, hcareful⟩ := ih
      have hkeep : Recalls s.threads (s.threads.push (.ofCode code)) :=
        Array.push_eq_append ▸ recalls_append s.threads #[.ofCode code]
      refine ⟨⟨hbounded.scheduler, fun thread hthread => ?_, hbounded.aborted⟩, hcareful.bodies,
        fun thread hthread => ?_⟩
      · rcases Array.mem_push.mp hthread with hold | rfl
        · exact (hbounded.threads thread hold).mono hkeep
        · exact fits_of_frames (by simp [Frame.Fits, Frame.Within])
      · rcases Array.mem_push.mp hthread with hold | rfl
        · exact hcareful.frames thread hold
        · simpa [Thread.ofCode, Frame.Everywhere] using hcode
  | prepares h body hbody ih =>
      obtain ⟨hbounded, hcareful⟩ := ih
      exact ⟨⟨hbounded.scheduler, hbounded.threads, hbounded.aborted⟩,
        hcareful.bodies.addJob hbody, hcareful.frames⟩
  | @tells s h index thread hthread identity ih =>
      obtain ⟨hbounded, hcareful⟩ := ih
      have hmem := Array.mem_of_getElem? hthread
      let told : Thread := { thread with identity }
      have hkeep : Recalls s.threads (s.threads.setIfInBounds index told) :=
        recalls_set hthread fun _ horigin => horigin
      have hold := hbounded.threads thread hmem
      have htold : told.Fits start.dequeCount s.threads := ⟨hold.frames, hold.panicked⟩
      have hcode : ∀ frame ∈ told.frames, frame.Everywhere (Action.IsCareful start.dequeCount) :=
        hcareful.frames thread hmem
      refine ⟨⟨hbounded.scheduler, fun other hother => ?_, hbounded.aborted⟩,
        hcareful.set hcareful.bodies index hcode _⟩
      rcases Array.mem_or_eq_of_mem_setIfInBounds hother with hother | rfl
      · exact (hbounded.threads other hother).mono hkeep
      · exact htold.mono hkeep
  | plays h style ih =>
      obtain ⟨hbounded, hcareful⟩ := ih
      exact ⟨⟨hbounded.scheduler, hbounded.threads, hbounded.aborted⟩, hcareful.bodies,
        hcareful.frames⟩

/-- A frame within bounds fails only as it can. -/
theorem Bounded.fault
    (hpos : 0 < start.dequeCount)
    (hword : start.dequeCount < UInt64.size)
    (h : s.Bounded start.dequeCount capacity)
    (hcareful : s.Everywhere (Action.IsCareful start.dequeCount))
    (hfits : ∀ counter, s.world.scheduler.total counter < UInt64.size)
    {index : Nat} {thread : Thread} {frame : Frame} {below : List Frame}
    (hat : s.At index thread frame below)
    {identity : Option Nat} {world : World} {cause : Failure}
    (hmove : frame.step s.world identity = .fail world cause) :
    frame.Fault capacity cause := by
  have hall := hcareful.frames thread (Array.mem_of_getElem? hat.found)
  rw [hat.frames, List.forall_mem_cons] at hall
  rcases (h.frames_fit hat).1 with hwithin | ⟨others, origin, rfl, -⟩
  · have hhost : ∀ threads job thunk, frame = .run (.open threads) job thunk →
        ∀ worker ∈ s.world.style.workersOf threads, worker < threads := by
      rintro threads job thunk rfl
      cases hmove
    have hbounded := Frame.bounded_step hpos hword h.scheduler hfits identity hhost hall.1 hwithin
    rw [hmove] at hbounded
    cases hbounded with
    | fail hsound hfault =>
        exact hfault
  · cases hmove

/-- Whatever anybody does with a scheduler that was built, no step looks beyond its places or
slots or leaves a word, and nothing fails but what is listed. -/
theorem contained_of_attains
    {config : Config} {offered : UInt64}
    (hbuild : Scheduler.build config offered = .ok start)
    (h : Attains start s)
    (hfits : ∀ counter, s.world.scheduler.total counter < UInt64.size) :
    s.Contained config.dequeCapacity.toNat := by
  have hnew := Scheduler.isNew_of_build hbuild
  obtain ⟨hbounded, hcareful⟩ := h.bounded hnew.deques hnew.word (Scheduler.sound_of_build hbuild)
  refine ⟨fun index thread frame below hat identity world cause hmove => ?_, hbounded.aborted,
    fun thread hthread cause hcause => ((hbounded.threads thread hthread).panicked cause hcause).2,
    fun place hplace moves task htask cause hfailed => ?_⟩
  · exact hbounded.fault hnew.deques hnew.word hcareful hfits hat hmove
  · have hsound := hbounded.scheduler.places place hplace
    have hbottom : place.deque.bottom.toNat ≤ place.deque.capacity :=
      hsound.slots ▸ hsound.bottom
    exact Deque.Crowd.cause_of_play hbottom moves htask hfailed

/-- A thread that leaves a job in the second deque and then resets it. -/
def careless : System :=
  { world := { scheduler := Session.first.world.scheduler }
    threads := #[.ofCode [.push 1 0, .resetDeque 1]] }

/-- The reset panics, and nothing else goes wrong. -/
theorem careless_contained :
    Scheduler.build Session.pairConfig 1 = .ok Session.first.world.scheduler ∧
      Attains Session.first.world.scheduler (careless.run [0, 0]) ∧
      (∀ counter, (careless.run [0, 0]).world.scheduler.total counter < UInt64.size) ∧
      (careless.run [0, 0]).threads.toList.map Thread.panicked = [some .resetNonEmpty] ∧
      (careless.run [0, 0]).Contained 4 := by
  have hbuild : Scheduler.build Session.pairConfig 1 = .ok Session.first.world.scheduler := rfl
  have hbegins : Attains Session.first.world.scheduler
      { world := { scheduler := Session.first.world.scheduler } } :=
    .begins rfl (by simp [World.Everywhere])
  have hcomes : Attains Session.first.world.scheduler careless :=
    hbegins.comes [.push 1 0, .resetDeque 1] (by simp [Action.Everywhere, Action.IsCareful])
  have hpush : Attains Session.first.world.scheduler (careless.run [0]) :=
    hcomes.steps 0 (fun _ _ _ hopen => by cases hopen) fun counter => by cases counter <;> decide
  have hreset : Attains Session.first.world.scheduler (careless.run [0, 0]) :=
    hpush.steps 0 (fun _ _ _ hopen => by cases hopen) fun counter => by cases counter <;> decide
  have hfits : ∀ counter, (careless.run [0, 0]).world.scheduler.total counter < UInt64.size := by
    intro counter
    cases counter <;> decide
  exact ⟨hbuild, hreset, hfits, by decide, contained_of_attains hbuild hreset hfits⟩

end Attains
end System
end Machine
end WorkStealing
