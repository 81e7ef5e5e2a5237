import WorkStealing.Proofs.Scheduler.Load

/-!
# Laws of the counters

Jobs and forks are counted at several points of a program, at some of them late: a job
that was stolen is counted as stolen by the next step of the worker who has it. So what
the counters have to agree on holds only together with what the frames still owe to
them. Each *law* weighs the counters, the jobs in the deques and the frames
(`Law.value`, `Law.owes`), so that a step of a frame changes the sum by no more than the
forks that it begins (`Fair`). A system of threads keeps the laws when all its steps are
fair (`System.Audit`).

One law is no equation: not every attempt to steal brings a job.
-/

namespace WorkStealing

/-- What the counters have to agree on. -/
inductive Law where
  /-- What was pushed was popped or stolen, or is in a deque. -/
  | jobs
  /-- Each fork has pushed its right branch. -/
  | pushes
  /-- Each fork has taken its right branch back, or had to wait for it. -/
  | joins
  /-- What was popped or stolen was executed by a loop, or by the fork that took it back. -/
  | executions
  /-- What was stolen was to be stolen. -/
  | attempts

namespace Law

/-- The counters, weighed. -/
def tally (law : Law) (count : Counter → Nat) : Int :=
  match law with
  | jobs => count .localPops + count .steals - count .jobsSpawned
  | pushes => count .jobsSpawned
  | joins => count .inlineJoins + count .stolenJoins
  | executions => count .localPops + count .steals - count .jobsExecuted - count .inlineJoins
  | attempts => count .steals - count .stealAttempts

/-- The weight of a job in a deque. -/
def perJob : Law → Int
  | jobs => 1
  | _ => 0

/-- The weight of a run that has returned: its first job was pushed, and not counted. -/
def perRun : Law → Int
  | jobs => 1
  | _ => 0

def perFork : Law → Int
  | pushes => 1
  | joins => 1
  | _ => 0

theorem tally_add
    (law : Law) {count more total : Counter → Nat}
    (h : ∀ counter, total counter = count counter + more counter) :
    law.tally total = law.tally count + law.tally more := by
  cases law <;> simp only [tally, h] <;> omega

theorem tally_congr
    (law : Law) {count total : Counter → Nat}
    (h : ∀ counter, total counter = count counter) :
    law.tally total = law.tally count := by
  rw [funext h]

end Law

namespace Machine

/-- What a step of the frame counts. -/
def Frame.counter? : Frame → Option Counter
  | .loop (.popped _) _ _ _ => some .localPops
  | .loop (.trial 0) _ _ _ => some .idleSleeps
  | .loop (.count _ _) _ _ _ => some .stealAttempts
  | .loop (.stolen _) _ _ _ => some .steals
  | .loop (.dispatch _) _ _ _ => some .jobsExecuted
  | .fork .published _ _ _ => some .jobsSpawned
  | .fork (.reclaimed _) _ _ _ => some .localPops
  | .fork .inlineJoin _ _ _ => some .inlineJoins
  | .fork .putBackCount _ _ _ => some .jobsSpawned
  | .fork .stolenJoin _ _ _ => some .stolenJoins
  | .perform (.bump _ counter :: _) => some counter
  | _ => none

def Frame.counts (frame : Frame) (counter : Counter) : Nat :=
  frame.counter?.toList.count counter

def Frame.isFork : Frame → Bool
  | .perform (.fork _ _ :: _) => true
  | _ => false

def Frame.isRun : Frame → Bool
  | .run _ _ _ => true
  | _ => false

/-- The event reports a run of a thunk that went well. -/
def returned (event : Event) : Bool :=
  match event with
  | .ranThunk (.ok _) => true
  | _ => false

/-- The number of runs that have returned. -/
def World.returns (w : World) : Nat :=
  w.transcript.toList.countP returned

def RunPoint.isOpened : RunPoint → Bool
  | .claim _ => false
  | .enqueue _ => false
  | _ => true

end Machine

namespace Law

open Machine (Frame RunPoint World)

/-- What a frame owes to the counters, weighed. -/
def owes (law : Law) (frame : Frame) : Int :=
  match law, frame with
  | jobs, .loop (.popped _) _ _ _ => 1
  | jobs, .loop (.stolen _) _ _ _ => 1
  | jobs, .fork (.reclaimed _) _ _ _ => 1
  | jobs, .fork .published _ _ _ => -1
  | jobs, .run point _ _ => if point.isOpened then -1 else 0
  | pushes, .fork .publish _ _ _ => 1
  | pushes, .fork .published _ _ _ => 1
  | joins, .fork .closing _ _ _ => 0
  | joins, .fork _ _ _ _ => 1
  | executions, .loop (.dispatch _) _ _ _ => -1
  | executions, .fork .inlineJoin _ _ _ => -1
  | attempts, .loop (.steal _ _) _ _ _ => 1
  | attempts, .loop (.stolen _) _ _ _ => 1
  | _, _ => 0

def owed (law : Law) (frames : List Frame) : Int :=
  (frames.map law.owes).sum

@[simp] theorem owed_nil
    (law : Law) :
    law.owed [] = 0 := by
  rfl

@[simp] theorem owed_cons
    (law : Law) (frame : Frame) (frames : List Frame) :
    law.owed (frame :: frames) = law.owes frame + law.owed frames := by
  rw [owed, owed, List.map_cons, List.sum_cons]

@[simp] theorem owed_append
    (law : Law) (first second : List Frame) :
    law.owed (first ++ second) = law.owed first + law.owed second := by
  rw [owed, owed, owed, List.map_append, List.sum_append]

/-- A frame owes no more attempts than were made. -/
theorem attempts_owes_nonneg
    (frame : Frame) :
    0 ≤ attempts.owes frame := by
  cases frame with
  | loop point worker stop evaluations =>
      cases point <;> first | exact Int.le_refl 0 | exact Int.one_nonneg
  | _ =>
      exact Int.le_refl 0

/-- What the world shows, weighed. -/
def value (law : Law) (w : World) : Int :=
  law.tally w.scheduler.total + law.perJob * w.scheduler.load - law.perRun * w.returns

/-- Only counters matter for the attempts. -/
theorem value_attempts
    (w : World) :
    attempts.value w = attempts.tally w.scheduler.total := by
  have hload : attempts.perJob * w.scheduler.load = 0 := Int.zero_mul _
  have hrun : attempts.perRun * (w.returns : Int) = 0 := Int.zero_mul _
  rw [value, hload, hrun]
  omega

end Law

namespace Machine

/-- The law allows a step from the frame to others by which there are so many jobs more in the
deques, and so many runs have returned. -/
def Frame.Allows (frame : Frame) (frames : List Frame) (load : Int) (returns : Nat) (law : Law) :
    Prop :=
  law.tally frame.counts + law.perJob * load - law.perRun * returns + law.owed frames =
    law.owes frame + law.perFork * frame.isFork.toNat

/-- A trace record is written or not. It reports no run, and nothing else is changed. -/
theorem World.exists_trace
    (w : World) (record : TraceRecord) :
    ∃ events, (w.trace record).transcript.toList = w.transcript.toList ++ events ∧
      events.countP returned = 0 ∧ (w.trace record).scheduler = w.scheduler := by
  rcases w.trace_cases record with heq | heq
  · rw [heq]
    exact ⟨[.trace record], Array.toList_push, rfl, rfl⟩
  · rw [heq]
    exact ⟨[], (List.append_nil _).symm, rfl, rfl⟩

/-- Trace records report no run. -/
theorem World.Traces.exists_events
    {w traced : World}
    (h : w.Traces traced) :
    ∃ events, traced.transcript.toList = w.transcript.toList ++ events ∧
      events.countP returned = 0 := by
  induction h with
  | refl =>
      exact ⟨[], (List.append_nil _).symm, rfl⟩
  | @trace traced h record ih =>
      obtain ⟨first, hfirst, hnone⟩ := ih
      obtain ⟨second, hsecond, hneither, -⟩ := traced.exists_trace record
      refine ⟨first ++ second, ?_, ?_⟩
      · rw [hsecond, hfirst, List.append_assoc]
      · rw [List.countP_append, hnone, hneither]

variable {w next : World} {frame : Frame} {frames : List Frame}

/-- The step of the frame to the next world and to other frames keeps the laws. -/
structure Fair (w : World) (frame : Frame) (next : World) (frames : List Frame) : Prop where
  counted : ∀ counter,
    next.scheduler.total counter = w.scheduler.total counter + frame.counts counter
  transcript : ∃ events, next.transcript.toList = w.transcript.toList ++ events
  even : ∀ law : Law, law ≠ .attempts →
    law.value next + law.owed frames =
      law.value w + law.owes frame + law.perFork * frame.isFork.toNat
  covered : Law.attempts.value next + Law.attempts.owed frames ≤
    Law.attempts.value w + Law.attempts.owes frame

/-- A step that keeps the laws, by what it changes. -/
theorem Fair.of_le
    {load : Int} {events : List Event}
    (hcounted : ∀ counter,
      next.scheduler.total counter = w.scheduler.total counter + frame.counts counter)
    (hload : next.scheduler.load = w.scheduler.load + load)
    (htranscript : next.transcript.toList = w.transcript.toList ++ events)
    (heven : ∀ law, law ≠ .attempts → frame.Allows frames load (events.countP returned) law)
    (hcovered : Law.attempts.tally frame.counts + Law.attempts.owed frames ≤
      Law.attempts.owes frame) :
    Fair w frame next frames := by
  have hreturns : next.returns = w.returns + events.countP returned := by
    rw [World.returns, World.returns, htranscript, List.countP_append]
  have hvalue : ∀ law : Law, law.value next = law.value w + law.tally frame.counts +
      law.perJob * load - law.perRun * events.countP returned := by
    intro law
    rw [Law.value, Law.value, law.tally_add hcounted, hload, hreturns, Int.mul_add, Int.natCast_add,
      Int.mul_add]
    omega
  refine ⟨hcounted, ⟨events, htranscript⟩, fun law hlaw => ?_, ?_⟩
  · have h := heven law hlaw
    rw [Frame.Allows] at h
    rw [hvalue]
    omega
  · have hzero : Law.attempts.perJob * load = 0 := Int.zero_mul load
    have hnone : Law.attempts.perRun * (events.countP returned : Int) = 0 := Int.zero_mul _
    rw [hvalue]
    omega

/-- A step that keeps all laws to the point. -/
theorem Fair.of
    {load : Int} {events : List Event}
    (hcounted : ∀ counter,
      next.scheduler.total counter = w.scheduler.total counter + frame.counts counter)
    (hload : next.scheduler.load = w.scheduler.load + load)
    (htranscript : next.transcript.toList = w.transcript.toList ++ events)
    (heven : ∀ law, frame.Allows frames load (events.countP returned) law) :
    Fair w frame next frames := by
  refine .of_le hcounted hload htranscript (fun law _ => heven law) ?_
  have hsame := heven .attempts
  rw [Frame.Allows] at hsame
  have hload : Law.attempts.perJob * load = 0 := Int.zero_mul load
  have hrun : Law.attempts.perRun * (events.countP returned : Int) = 0 := Int.zero_mul _
  have hfork : Law.attempts.perFork * (frame.isFork.toNat : Int) = 0 := Int.zero_mul _
  omega

/-- The frame goes on by a fair step, or gives the process up and counts nothing. -/
inductive Move.IsFair (w : World) (frame : Frame) : Move → Prop where
  | go {next : World} {identity : Option Nat} {frames : List Frame}
      (hfair : Fair w frame next frames) :
      IsFair w frame (.go next identity frames)
  | stop {next : World} {cause : Error}
      (hcounted : ∀ counter, next.scheduler.total counter = w.scheduler.total counter)
      (htranscript : next.transcript = w.transcript) :
      IsFair w frame (.fail next (.error cause))

namespace System

def owed (s : System) (law : Law) : Int :=
  (s.threads.toList.map fun thread => law.owed thread.frames).sum

/-- The world and all frames, weighed. -/
def balance (s : System) (law : Law) : Int :=
  law.value s.world + s.owed law

/-- The next step of the thread begins a fork of a worker. -/
def forksAt (s : System) (index : Nat) : Bool :=
  (s.frameAt index).any Frame.isFork &&
    (s.threads[index]?).any fun thread => (s.world.scheduler.workerOf thread.identity).isSome

/-- The number of forks that workers begin in a run. -/
def forked (s : System) : List Nat → Nat
  | [] => 0
  | index :: schedule => (s.forksAt index).toNat + (s.advance index).forked schedule

/-- What is counted in a run, one after another. -/
def counted (s : System) : List Nat → List Counter
  | [] => []
  | index :: schedule =>
    ((s.frameAt index).bind Frame.counter?).toList ++ (s.advance index).counted schedule

/-- A run was called and has not returned. -/
def isRunning (s : System) : Bool :=
  s.threads.any fun thread => thread.frames.any Frame.isRun

theorem forked_append
    (s : System) (first second : List Nat) :
    s.forked (first ++ second) = s.forked first + (s.run first).forked second := by
  induction first generalizing s with
  | nil =>
      exact (Nat.zero_add _).symm
  | cons index rest ih =>
      rw [List.cons_append, forked, ih, forked, Nat.add_assoc]
      rfl

theorem counted_append
    (s : System) (first second : List Nat) :
    s.counted (first ++ second) = s.counted first ++ (s.run first).counted second := by
  induction first generalizing s with
  | nil =>
      rfl
  | cons index rest ih =>
      rw [List.cons_append, counted, ih, counted, List.append_assoc]
      rfl

/-- The laws at some time since the world was like this, when so many forks were begun and so many
things were counted; before, the counters were at most so large. -/
structure Audit (start : World) (most : Nat) (s : System) (forks bumps : Nat) : Prop where
  bounded : ∀ counter, s.world.scheduler.total counter ≤ most + bumps
  transcript : ∃ events, s.world.transcript.toList = start.transcript.toList ++ events
  even : s.aborted = none → ∀ law : Law, law ≠ .attempts →
    s.balance law = law.value start + law.perFork * forks
  covered : s.balance .attempts ≤ Law.attempts.value start

namespace Audit

variable {start : World} {most forks bumps index : Nat} {s : System} {thread : Thread}
  {below : List Frame}

/-- The books of a thread that has gone on. -/
theorem owed_set
    (hthread : s.threads[index]? = some thread)
    (world : World) (other : Thread) (law : Law) :
    System.owed { world, threads := s.threads.setIfInBounds index other } law =
      s.owed law - law.owed thread.frames + law.owed other.frames := by
  rw [← Array.getElem?_toList] at hthread
  rw [owed, owed, ← sum_map_set hthread (fun thread => law.owed thread.frames) other]
  simp only [Array.toList_setIfInBounds]

/-- The frames below the one on top owe what they did before. -/
theorem owed_replace
    (hthread : s.threads[index]? = some thread)
    (hframes : thread.frames = frame :: below)
    (frames : List Frame) (world : World) (identity : Option Nat) (law : Law) :
    System.owed
        { world
          threads := s.threads.setIfInBounds index { frames := frames ++ below, identity } } law =
      s.owed law - law.owes frame + law.owed frames := by
  rw [owed_set hthread, hframes, Law.owed_cons, Law.owed_append]
  omega

/-- The opening of a region owes nothing, and neither do the workers who enter it. -/
theorem owed_recruit
    (hthread : s.threads[index]? = some thread)
    {workers : List Nat}
    (hframes : thread.frames = .recruit workers :: below)
    (world : World) (law : Law) :
    (System.recruit world s.threads index thread.identity below workers).owed law = s.owed law := by
  have hrecruit : law.owes (.recruit workers) = 0 := by
    cases law <;> rfl
  have hworker : ∀ worker, law.owes (workerFrame worker) = 0 := by
    intro worker
    cases law <;> rfl
  have hcrew : ∀ crew, law.owes (.crew crew thread.identity) = 0 := by
    intro crew
    cases law <;> rfl
  cases workers with
  | nil =>
      rw [System.recruit, owed_set hthread, hframes, Law.owed_cons, hrecruit]
      show s.owed law - (0 + law.owed below) + law.owed below = s.owed law
      omega
  | cons worker others =>
      have hothers : ((others.map workerThread).map fun thread => law.owed thread.frames).sum =
          0 := by
        refine List.sum_eq_zero fun part hpart => ?_
        obtain ⟨other, hother, rfl⟩ := List.mem_map.mp hpart
        obtain ⟨v, -, rfl⟩ := List.mem_map.mp hother
        rw [workerThread, Law.owed_cons, hworker]
        rfl
      have hcaller := owed_set hthread world
        { frames := workerFrame worker ::
            .crew ((List.range others.length).map fun i => s.threads.size + i) thread.identity ::
              below
          identity := some worker } law
      rw [hframes, Law.owed_cons, Law.owed_cons, Law.owed_cons, hrecruit, hworker, hcrew] at hcaller
      rw [System.recruit, owed, Array.toList_append, List.map_append, List.sum_append, hothers]
      refine (Int.add_zero _).trans (hcaller.trans ?_)
      omega

theorem world_recruit
    (world : World) (threads : Array Thread) (index : Nat) (identity : Option Nat)
    (below : List Frame) (workers : List Nat) :
    (System.recruit world threads index identity below workers).world = world := by
  cases workers <;> rfl

/-- A thread that is in the call of a run. -/
theorem isRunning_of_thread
    (hthread : s.threads[index]? = some thread)
    (hrun : thread.frames.any Frame.isRun = true) :
    s.isRunning = true := by
  obtain ⟨hindex, rfl⟩ := Array.getElem?_eq_some_iff.mp hthread
  rw [isRunning, Array.any_eq_true]
  exact ⟨index, hindex, hrun⟩

/-- The thread that opens a region stays in the call of the run. -/
theorem isRunning_recruit
    (hindex : index < s.threads.size)
    (hbelow : below.any Frame.isRun = true)
    (world : World) (identity : Option Nat) (workers : List Nat) :
    (System.recruit world s.threads index identity below workers).isRunning = true := by
  cases workers with
  | nil =>
      exact isRunning_of_thread (Array.getElem?_setIfInBounds_self_of_lt hindex) hbelow
  | cons worker others =>
      have hsize : index < (s.threads.setIfInBounds index
          { frames := workerFrame worker :: .crew ((List.range others.length).map
              fun i => s.threads.size + i) identity :: below
            identity := some worker }).size := by
        rw [Array.size_setIfInBounds]
        exact hindex
      refine isRunning_of_thread ((Array.getElem?_append_left hsize).trans
        (Array.getElem?_setIfInBounds_self_of_lt hindex)) ?_
      rw [List.any_cons, List.any_cons, hbelow, Bool.or_true, Bool.or_true]

/-- A step is counted as a fork when its frame begins one. -/
theorem forksAt_eq
    (hgoing : s.aborted = none)
    (hthread : s.threads[index]? = some thread)
    (hframes : thread.frames = frame :: below)
    (hworker : frame.isFork = true → (s.world.scheduler.workerOf thread.identity).isSome = true) :
    s.forksAt index = frame.isFork := by
  rw [forksAt, frameAt_of_thread hgoing hthread hframes, hthread, Option.any_some, Option.any_some]
  cases hfork : frame.isFork with
  | false =>
      rfl
  | true =>
      exact hworker hfork

/-- A thread makes a fair step. -/
theorem go
    (h : Audit start most s forks bumps)
    (hgoing : s.aborted = none)
    (hthread : s.threads[index]? = some thread)
    (hframes : thread.frames = frame :: below)
    {identity : Option Nat}
    (hmove : frame.step s.world thread.identity = .go next identity frames)
    (hfair : Fair s.world frame next frames)
    (hworker : frame.isFork = true → (s.world.scheduler.workerOf thread.identity).isSome = true) :
    Audit start most (s.advance index) (forks + (s.forksAt index).toNat)
      (bumps + ((s.frameAt index).bind Frame.counter?).toList.length) := by
  have hframe := frameAt_of_thread hgoing hthread hframes
  have howed := owed_replace hthread hframes frames next identity
  rw [advance_of_go hgoing hthread hframes hmove, forksAt_eq hgoing hthread hframes hworker, hframe]
  refine ⟨fun counter => ?_, ?_, fun _ law hlaw => ?_, ?_⟩
  · have hle := h.bounded counter
    have hcount : frame.counts counter ≤ frame.counter?.toList.length := List.count_le_length
    show next.scheduler.total counter ≤ most + (bumps + frame.counter?.toList.length)
    rw [hfair.counted]
    omega
  · obtain ⟨events, hevents⟩ := h.transcript
    obtain ⟨more, hmore⟩ := hfair.transcript
    refine ⟨events ++ more, ?_⟩
    show next.transcript.toList = _
    rw [hmore, hevents, List.append_assoc]
  · have heven := h.even hgoing law hlaw
    have hstep := hfair.even law hlaw
    rw [balance] at heven ⊢
    rw [howed, Int.natCast_add, Int.mul_add]
    show law.value next + _ = _
    omega
  · have hcovered := h.covered
    have hstep := hfair.covered
    rw [balance] at hcovered ⊢
    rw [howed]
    show Law.attempts.value next + _ ≤ _
    omega

/-- Nothing happens. -/
theorem unchanged
    (h : Audit start most s forks bumps)
    (hsame : s.advance index = s ∧ s.frameAt index = none) :
    Audit start most (s.advance index) (forks + (s.forksAt index).toNat)
      (bumps + ((s.frameAt index).bind Frame.counter?).toList.length) := by
  rw [forksAt, hsame.1, hsame.2]
  exact h

/-- The threads change, and neither the world does nor what is owed. -/
theorem still
    (h : Audit start most s forks bumps)
    (hframe : s.frameAt index = some frame)
    (hfork : frame.isFork = false)
    (hgoing : s.aborted = none)
    (hworld : (s.advance index).world = s.world)
    (howed : ∀ law, (s.advance index).owed law = s.owed law) :
    Audit start most (s.advance index) (forks + (s.forksAt index).toNat)
      (bumps + ((s.frameAt index).bind Frame.counter?).toList.length) := by
  have hnone : s.forksAt index = false := by
    rw [forksAt, hframe, Option.any_some, hfork]
    rfl
  have hsame : ∀ law, (s.advance index).balance law = s.balance law := by
    intro law
    rw [balance, balance, hworld, howed]
  rw [hnone]
  refine ⟨fun counter => ?_, ?_, fun _ law hlaw => ?_, ?_⟩
  · rw [hworld]
    exact Nat.le_trans (h.bounded counter) (by omega)
  · rw [hworld]
    exact h.transcript
  · rw [hsame]
    exact h.even hgoing law hlaw
  · rw [hsame]
    exact h.covered

/-- A thread gives the process up, and counts nothing in this. -/
theorem abort
    (h : Audit start most s forks bumps)
    (hgoing : s.aborted = none)
    (hthread : s.threads[index]? = some thread)
    (hframes : thread.frames = frame :: below)
    {cause : Error}
    (hmove : frame.step s.world thread.identity = .fail next (.error cause))
    (hcounted : ∀ counter, next.scheduler.total counter = s.world.scheduler.total counter)
    (htranscript : next.transcript = s.world.transcript)
    (more : Nat) :
    Audit start most (s.advance index) more
      (bumps + ((s.frameAt index).bind Frame.counter?).toList.length) := by
  obtain ⟨written, hwritten, -, hscheduler⟩ := World.exists_trace next (.fatal cause)
  rw [advance_of_error hgoing hthread hframes hmove]
  refine ⟨fun counter => ?_, ?_, fun haborted => (Option.some_ne_none cause haborted).elim, ?_⟩
  · show (next.trace (.fatal cause)).scheduler.total counter ≤ _
    rw [hscheduler, hcounted]
    exact Nat.le_trans (h.bounded counter) (by omega)
  · obtain ⟨events, hevents⟩ := h.transcript
    refine ⟨events ++ written, ?_⟩
    show (next.trace (.fatal cause)).transcript.toList = _
    rw [hwritten, htranscript, hevents, List.append_assoc]
  · have hcovered := h.covered
    rw [balance, Law.value_attempts] at hcovered ⊢
    show Law.attempts.tally (next.trace (.fatal cause)).scheduler.total + s.owed _ ≤ _
    rw [hscheduler, Law.attempts.tally_congr hcounted]
    exact hcovered

/-- A thread makes a step that is fair or gives the process up. -/
theorem advance
    (h : Audit start most s forks bumps)
    (hgoing : s.aborted = none)
    (hthread : s.threads[index]? = some thread)
    (hframes : thread.frames = frame :: below)
    (hfair : Move.IsFair s.world frame (frame.step s.world thread.identity))
    (hworker : frame.isFork = true → (s.world.scheduler.workerOf thread.identity).isSome = true) :
    Audit start most (s.advance index) (forks + (s.forksAt index).toNat)
      (bumps + ((s.frameAt index).bind Frame.counter?).toList.length) := by
  generalize hmove : frame.step s.world thread.identity = move at hfair
  cases hfair with
  | go hfair =>
      exact h.go hgoing hthread hframes hmove hfair hworker
  | stop hcounted htranscript =>
      exact h.abort hgoing hthread hframes hmove hcounted htranscript _

end Audit
end System

end Machine
end WorkStealing
