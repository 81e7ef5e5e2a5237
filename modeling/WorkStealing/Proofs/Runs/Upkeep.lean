import WorkStealing.Proofs.Deque.Accesses
import WorkStealing.Proofs.Machine.Advance
import WorkStealing.Proofs.Scheduler.Places

/-!
# What no step changes

However a program goes on, some things stay as they were when it began: how the
scheduler was built, how the host runs the workers of a region, and that each
job has flags. A world that comes after another one in a program *continues*
it (`World.Continues`); every step of every frame leads to such a world.
-/

namespace WorkStealing

namespace Routine

variable {α β : Type}

/-- No access to a deque changes the number of its slots. -/
theorem capacity_run
    (d : Deque α) (routine : Routine α β) :
    (routine.run d).1.capacity = d.capacity := by
  induction routine generalizing d with
  | done result =>
      rfl
  | fail cause =>
      rfl
  | loadAge next ih =>
      exact ih d.ageWord d
  | storeAge word next ih =>
      exact ih { d with ageWord := word }
  | swapAge expected word next ih =>
      by_cases hword : d.ageWord = expected
      · rw [run, if_pos hword]
        exact ih true { d with ageWord := word }
      · rw [run, if_neg hword]
        exact ih false d
  | loadBottom next ih =>
      exact ih d.bottom d
  | storeBottom bottom next ih =>
      exact ih { d with bottom }
  | loadSlot index next ih =>
      by_cases hindex : index.toNat < d.capacity
      · rw [run, if_pos hindex]
        exact ih (d.slot index.toNat) d
      · rw [run, if_neg hindex]
  | storeSlot index job next ih =>
      by_cases hindex : index.toNat < d.capacity
      · rw [run, if_pos hindex]
        exact ih (d.setSlot index.toNat job)
      · rw [run, if_neg hindex]

end Routine

/-- The bottom of the deque at the place is within its slots. -/
def Place.IsBounded (place : Place) : Prop :=
  place.deque.bottom.toNat ≤ place.deque.capacity

namespace Scheduler

/-- The second scheduler was built like the first one. -/
structure Continues (s t : Scheduler) : Prop where
  config : t.config = s.config
  maxWorkers : t.maxWorkers = s.maxWorkers
  stealTrials : t.stealTrials = s.stealTrials
  /-- There are as many deques, of the same sizes. -/
  capacities : t.places.map (fun place => place.deque.capacity) =
    s.places.map (fun place => place.deque.capacity)
  /-- If all bottoms were within their slots, they still are. -/
  bounded : (∀ place ∈ s.places, place.IsBounded) → ∀ place ∈ t.places, place.IsBounded

namespace Continues

variable {s t u : Scheduler}

theorem refl
    (s : Scheduler) :
    s.Continues s :=
  ⟨rfl, rfl, rfl, rfl, id⟩

theorem trans
    (h : s.Continues t)
    (hnext : t.Continues u) :
    s.Continues u :=
  ⟨hnext.config.trans h.config, hnext.maxWorkers.trans h.maxWorkers,
    hnext.stealTrials.trans h.stealTrials, hnext.capacities.trans h.capacities,
    fun hs => hnext.bounded (h.bounded hs)⟩

theorem dequeCount
    (h : s.Continues t) :
    t.dequeCount = s.dequeCount := by
  have hsize := congrArg Array.size h.capacities
  rwa [Array.size_map, Array.size_map] at hsize

/-- If all deques had so many slots, they still do. -/
theorem capacity_eq
    (h : s.Continues t)
    {capacity : Nat}
    (hs : ∀ place ∈ s.places, place.deque.capacity = capacity) :
    ∀ place ∈ t.places, place.deque.capacity = capacity := by
  intro place hplace
  have hmem : place.deque.capacity ∈ t.places.map (fun place => place.deque.capacity) :=
    Array.mem_map_of_mem hplace
  rw [h.capacities] at hmem
  obtain ⟨other, hother, heq⟩ := Array.mem_map.mp hmem
  rw [← heq]
  exact hs other hother

/-- One place is changed, and its deque keeps its slots and its bottom within them. -/
theorem put
    {i : Nat} {place next : Place}
    (hplace : s.places[i]? = some place)
    (hcapacity : next.deque.capacity = place.deque.capacity)
    (hbounded : place.IsBounded → next.IsBounded) :
    s.Continues (s.put i next) := by
  refine ⟨rfl, rfl, rfl, Array.ext_getElem? fun k => ?_, fun hs other hother => ?_⟩
  · rw [Scheduler.put, Array.getElem?_map, Array.getElem?_map, Array.getElem?_setIfInBounds]
    by_cases hk : i = k
    · subst hk
      rw [if_pos rfl, if_pos (Array.getElem?_eq_some_iff.mp hplace).1, hplace]
      exact congrArg some hcapacity
    · rw [if_neg hk]
  · rcases Array.mem_or_eq_of_mem_setIfInBounds hother with hold | rfl
    · exact hs other hold
    · exact hbounded (hs place (Array.mem_of_getElem? hplace))

end Continues

variable {s t : Scheduler} {i : Nat}

theorem capacity_reset
    {d e : Deque JobId}
    (h : d.reset = .ok e) :
    e.capacity = d.capacity := by
  obtain ⟨-, ⟨-, rfl⟩ | ⟨fresh, -, rfl⟩⟩ := Deque.reset_eq_ok h <;> rfl

/-- Nor does a reset leave a bottom outside the slots. -/
theorem bounded_reset
    {d e : Deque JobId}
    (hbottom : d.bottom.toNat ≤ d.capacity)
    (h : d.reset = .ok e) :
    e.bottom.toNat ≤ e.capacity := by
  have hconfined : (Routine.reset : Routine JobId Unit).Confined d.capacity Routine.ResetEnds :=
    Routine.confined_reset
  obtain ⟨hnext, -⟩ := hconfined.run hbottom
  rw [Routine.run_reset, h] at hnext
  rw [capacity_reset h]
  exact hnext

/-- The second scheduler was built like the first one, and a run is in progress on both or on
neither. -/
structure Upholds (s t : Scheduler) : Prop extends s.Continues t where
  running : t.running = s.running

namespace Upholds

/-- A change at a place that leaves its deque alone. -/
theorem beside
    {β : Type} {change : Place → Except Failure (Place × β)} {answer : β}
    (hchange : ∀ place next other, change place = .ok (next, other) → next.deque = place.deque)
    (h : s.atPlace i change = .ok (t, answer)) :
    s.Upholds t := by
  obtain ⟨place, next, hplace, hnext, rfl⟩ := exists_of_atPlace h
  have hdeque := hchange place next answer hnext
  refine ⟨.put hplace (by rw [hdeque]) fun hbounded => ?_, rfl⟩
  rw [Place.IsBounded, hdeque]
  exact hbounded

/-- A routine of the deque at a place. -/
theorem routine
    {β : Type} {routine : Deque JobId → Routine JobId β} {answer : β}
    (hconfined : ∀ d, ∃ expected, (routine d).Confined d.capacity expected)
    (h : s.onDeque i (fun d => (routine d).run d) = .ok (t, answer)) :
    s.Upholds t := by
  obtain ⟨place, deque, hplace, hdeque, rfl⟩ := exists_of_onDeque h
  have hcapacity := Routine.capacity_run place.deque (routine place.deque)
  rw [hdeque] at hcapacity
  refine ⟨.put hplace hcapacity fun hbounded => ?_, rfl⟩
  obtain ⟨expected, hdone⟩ := hconfined place.deque
  obtain ⟨hbottom, -⟩ := hdone.run hbounded
  rw [hdeque] at hbottom
  rw [Place.IsBounded, hcapacity]
  exact hbottom

theorem push
    {job : JobId} {answer : Except Error Unit}
    (h : s.push i job = .ok (t, answer)) :
    s.Upholds t :=
  .routine (fun d => ⟨_, Routine.confined_push d.capacity_le _⟩) h

theorem pop
    {answer : Option JobId}
    (h : s.pop i = .ok (t, answer)) :
    s.Upholds t :=
  .routine (fun _ => ⟨_, Routine.confined_pop⟩) h

theorem steal
    {answer : Option JobId}
    (h : s.steal i = .ok (t, answer)) :
    s.Upholds t :=
  .routine (fun d => ⟨_, Routine.confined_steal d.capacity_le⟩) h

theorem resetDeque
    {answer : Unit}
    (h : s.resetDeque i = .ok (t, answer)) :
    s.Upholds t := by
  obtain ⟨place, deque, hplace, hdeque, rfl⟩ := exists_of_resetDeque h
  exact ⟨.put hplace (capacity_reset hdeque) fun hbounded => bounded_reset hbounded hdeque, rfl⟩

theorem bump
    {counter : Counter} {answer : Unit}
    (h : s.bump i counter = .ok (t, answer)) :
    s.Upholds t := by
  refine .beside ?_ h
  intro place next other hnext
  cases hnext
  rfl

theorem loadAttempt
    {answer : UInt64}
    (h : s.loadAttempt i = .ok (t, answer)) :
    s.Upholds t := by
  refine .beside ?_ h
  intro place next other hnext
  cases hnext
  rfl

theorem storeAttempt
    {attempt : UInt64} {answer : Unit}
    (h : s.storeAttempt i attempt = .ok (t, answer)) :
    s.Upholds t := by
  refine .beside ?_ h
  intro place next other hnext
  cases hnext
  rfl

end Upholds

/-- Statistics are no part of how a scheduler was built. -/
theorem Upholds.resetStats
    (s : Scheduler) :
    s.Upholds s.resetStats := by
  refine ⟨⟨rfl, rfl, rfl, ?_, fun hs place hplace => ?_⟩, rfl⟩
  · rw [Scheduler.resetStats, Array.map_map]
    rfl
  · obtain ⟨old, hold, rfl⟩ := Array.mem_map.mp hplace
    exact hs old hold

end Scheduler

namespace Machine

/-- The second world comes after the first one: its scheduler was built like that of the first
one, and each new job has flags. -/
structure World.Continues (w next : World) : Prop where
  style : next.style = w.style
  scheduler : w.scheduler.Continues next.scheduler
  jobs : next.flags.size + w.bodies.size = w.flags.size + next.bodies.size

/-- The second world comes after the first one, and nobody has claimed or released the scheduler
in between. -/
structure World.Upholds (w next : World) : Prop extends w.Continues next where
  running : next.scheduler.running = w.scheduler.running

theorem World.Continues.trans
    {w next last : World}
    (h : w.Continues next)
    (hlast : next.Continues last) :
    w.Continues last :=
  ⟨hlast.style.trans h.style, h.scheduler.trans hlast.scheduler, by
    have hfirst := h.jobs
    have hsecond := hlast.jobs
    omega⟩

namespace World.Upholds

variable {w next last : World}

theorem trans
    (h : w.Upholds next)
    (hlast : next.Upholds last) :
    w.Upholds last :=
  ⟨h.toContinues.trans hlast.toContinues, hlast.running.trans h.running⟩

/-- Only the scheduler has changed. -/
theorem schedule
    {t : Scheduler}
    (h : w.scheduler.Upholds t) :
    w.Upholds { w with scheduler := t } :=
  ⟨⟨rfl, h.toContinues, rfl⟩, h.running⟩

/-- Neither the scheduler has changed nor the number of jobs. -/
theorem of_eq
    (hstyle : next.style = w.style)
    (hscheduler : next.scheduler = w.scheduler)
    (hflags : next.flags.size = w.flags.size)
    (hbodies : next.bodies.size = w.bodies.size) :
    w.Upholds next := by
  refine ⟨⟨hstyle, ?_, ?_⟩, congrArg Scheduler.running hscheduler⟩
  · rw [hscheduler]
    exact .refl _
  · rw [hflags, hbodies]

theorem refl
    (w : World) :
    w.Upholds w :=
  .of_eq rfl rfl rfl rfl

theorem emit
    (w : World) (event : Event) :
    w.Upholds (w.emit event) :=
  .of_eq rfl rfl rfl rfl

theorem trace
    (w : World) (record : TraceRecord) :
    w.Upholds (w.trace record) := by
  rcases w.trace_cases record with heq | heq
  · rw [heq]
    exact .emit w _
  · rw [heq]
    exact .refl w

theorem setFlags
    (w : World) (job : JobId) (change : JobFlags → JobFlags) :
    w.Upholds { w with toMemory := w.setFlags job change } :=
  .of_eq rfl rfl Array.size_modify rfl

theorem addJob
    (w : World) (body : JobId → Code) :
    w.Upholds (w.addJob body).1 := by
  refine ⟨⟨rfl, .refl _, ?_⟩, rfl⟩
  show (w.flags.push {}).size + w.bodies.size = w.flags.size + (w.bodies.push _).size
  rw [Array.size_push, Array.size_push]
  omega

end World.Upholds

/-- A call that neither holds the scheduler for a run nor belongs to a parallel region. -/
def Frame.isInternal : Frame → Bool
  | .run (.claim _) _ _ => true
  | .run _ _ _ => false
  | .turns _ _ => false
  | .recruit _ => false
  | .crew _ _ => false
  | .disband _ _ => false
  | _ => true

/-- The frame goes on with internal calls or fails, and leaves the scheduler to whom has it. -/
inductive Move.Upholds (w : World) : Move → Prop where
  | go {next : World} {identity : Option Nat} {frames : List Frame}
      (hworld : w.Upholds next)
      (hframes : frames.all Frame.isInternal = true := by rfl) :
      Upholds w (.go next identity frames)
  | fail {next : World} {cause : Failure}
      (hworld : w.Upholds next) :
      Upholds w (.fail next cause)

namespace Move.Upholds

variable {w next : World}

/-- What is upheld after a change of the world is upheld from before the change. -/
theorem after
    {move : Move}
    (hworld : w.Upholds next)
    (h : Move.Upholds next move) :
    Move.Upholds w move := by
  cases h with
  | go hnext hframes =>
      exact .go (hworld.trans hnext) hframes
  | fail hnext =>
      exact .fail (hworld.trans hnext)

/-- An operation of the scheduler, and what comes after it. -/
theorem schedule
    {β : Type} {operation : Scheduler → Except Failure (Scheduler × β)}
    {continuation : World → β → Move}
    (hoperation : ∀ t answer, operation w.scheduler = .ok (t, answer) → w.scheduler.Upholds t)
    (hnext : ∀ next answer, Move.Upholds next (continuation next answer)) :
    Move.Upholds w (w.schedule operation continuation) := by
  cases hresult : operation w.scheduler with
  | error cause =>
      rw [w.schedule_of_error operation continuation hresult]
      exact .fail (.refl w)
  | ok result =>
      rw [w.schedule_of_ok operation continuation hresult]
      exact .after (.schedule (hoperation _ _ hresult)) (hnext _ _)

end Move.Upholds

/-- A run that is called is refused, or claims the scheduler. -/
theorem RunPoint.step_claim
    (w : World) (identity : Option Nat) (job : JobId) (thunk : Bool) (threads : Nat) :
    RunPoint.step w identity job thunk (.claim threads) =
      if w.scheduler.dequeCount < w.scheduler.asked threads then
        .go (w.emit (ranEvent thunk (.error
          (.tooManyThreads (w.scheduler.asked threads) w.scheduler.dequeCount)))) identity []
      else if w.scheduler.running then
        .go (w.emit (ranEvent thunk (.error .alreadyRunning))) identity []
      else
        .go { w with scheduler := { w.scheduler with running := true } } identity
          [.run (.enqueue (w.scheduler.asked threads)) job thunk] :=
  rfl

section Steps

variable {w : World}

theorem Stop.upholds_leave
    (stop : Stop) (evaluations worker : Nat) (w : World) :
    w.Upholds (stop.leave evaluations worker w) := by
  cases stop with
  | finished =>
      exact .trace w _
  | jobDone job =>
      exact .refl w
  | condition test =>
      exact .emit w _

/-- A frame asks whether to end. -/
theorem upholds_ask
    (identity : Option Nat) (stop : Stop) (evaluation worker : Nat) {frame : Frame}
    (hframe : frame.isInternal = true) :
    Move.Upholds w
      (match stop.holds evaluation w.toMemory with
        | .error cause => .fail w (.panic cause)
        | .ok true => .go (stop.leave evaluation worker w) identity []
        | .ok false => .go w identity [frame]) := by
  cases stop.holds evaluation w.toMemory with
  | error cause =>
      exact .fail (.refl w)
  | ok holds =>
      cases holds with
      | true =>
          exact .go (stop.upholds_leave _ _ _)
      | false =>
          refine .go (.refl w) ?_
          rw [List.all_cons, hframe]
          rfl

/-- Something is counted, and then the frame is replaced by others. -/
theorem upholds_bump
    {place : Nat} {counter : Counter} {identity : Option Nat} {frames : World → List Frame}
    (hframes : ∀ next, (frames next).all Frame.isInternal = true) :
    Move.Upholds w
      (w.schedule (·.bump place counter) fun next _ => .go next identity (frames next)) :=
  .schedule (fun _ _ => .bump) fun next _ => .go (.refl next) (hframes next)

theorem LoopPoint.upholds_step
    (w : World) (identity : Option Nat) (worker : Nat) (stop : Stop) (evaluations : Nat)
    (point : LoopPoint) :
    Move.Upholds w (point.step w identity worker stop evaluations) := by
  cases point with
  | poll =>
      exact upholds_ask identity stop _ worker rfl
  | pop =>
      simp only [LoopPoint.step]
      refine .schedule (fun _ _ => .pop) fun next answer => ?_
      cases answer <;> exact .go (.refl next)
  | trial left =>
      cases left with
      | zero =>
          simp only [LoopPoint.step]
          exact upholds_bump fun _ => rfl
      | succ left =>
          exact upholds_ask identity stop _ worker rfl
  | aim left =>
      simp only [LoopPoint.step]
      exact .schedule (fun _ _ => .loadAttempt) fun next _ => .go (.refl next)
  | advance left attempt =>
      simp only [LoopPoint.step]
      refine .schedule (fun _ _ => .storeAttempt) fun next _ => ?_
      cases next.scheduler.victim worker attempt with
      | error cause =>
          exact .fail (.refl next)
      | ok target =>
          exact .go (.refl next)
  | steal left target =>
      simp only [LoopPoint.step]
      refine .schedule (fun _ _ => .steal) fun next answer => ?_
      cases answer <;> exact .go (.refl next)
  | popped job | count left target | stolen job | dispatch job =>
      simp only [LoopPoint.step]
      exact upholds_bump fun _ => rfl

theorem isInternal_waitFrame
    (scheduler : Scheduler) (identity : Option Nat) (stop : Stop) :
    (waitFrame scheduler identity stop).isInternal = true := by
  unfold waitFrame
  split <;> rfl

/-- A job is pushed that must be pushed. -/
theorem upholds_push
    {place : Nat} {job : JobId} {identity : Option Nat} {frames : World → List Frame}
    (hframes : ∀ next, (frames next).all Frame.isInternal = true) :
    Move.Upholds w
      (w.schedule (·.push place job) fun next outcome =>
        mustPush next outcome (.go next identity (frames next))) := by
  refine .schedule (fun _ _ => .push) fun next outcome => ?_
  cases outcome with
  | ok _ =>
      exact .go (.refl next) (hframes next)
  | error cause =>
      exact .fail (.refl next)

theorem ForkPoint.upholds_step
    (w : World) (identity : Option Nat) (worker : Nat) (right : JobId) (left : Code)
    (point : ForkPoint) :
    Move.Upholds w (point.step w identity worker right left) := by
  cases point with
  | publish | putBack job =>
      simp only [ForkPoint.step]
      exact upholds_push fun _ => rfl
  | published | inlineJoin | putBackCount =>
      simp only [ForkPoint.step]
      exact upholds_bump fun _ => rfl
  | check =>
      simp only [ForkPoint.step]
      split <;> exact .go (.refl w)
  | reclaim =>
      simp only [ForkPoint.step]
      refine .schedule (fun _ _ => .pop) fun next answer => ?_
      cases answer <;> exact .go (.refl next)
  | reclaimed job =>
      simp only [ForkPoint.step]
      refine .schedule (fun _ _ => .bump) fun next _ => ?_
      split <;> exact .go (.refl next)
  | stolenJoin =>
      simp only [ForkPoint.step]
      refine upholds_bump fun next => ?_
      rw [List.all_cons, isInternal_waitFrame]
      rfl
  | closing =>
      exact .go (.refl w)

theorem upholds_spawnStep
    (w : World) (identity : Option Nat) (job : JobId) (report : Outcome → Event) (rest : Code) :
    Move.Upholds w (spawnStep w identity job report rest) := by
  unfold spawnStep
  cases w.scheduler.workerOf identity with
  | none =>
      exact .go (.emit w _)
  | some worker =>
      exact upholds_push fun _ => rfl

theorem upholds_dequeStep
    {β : Type} (w : World) (identity : Option Nat) (deque : Nat)
    {operation : Scheduler → Except Failure (Scheduler × β)} (report : Option β → Event)
    {note : World → β → World} (rest : Code)
    (hoperation : ∀ t answer, operation w.scheduler = .ok (t, answer) → w.scheduler.Upholds t)
    (hnote : ∀ next answer, World.Upholds next (note next answer)) :
    Move.Upholds w (dequeStep w identity deque operation report note rest) := by
  unfold dequeStep
  split
  · exact .schedule hoperation fun next answer => .go ((hnote next answer).trans (.emit _ _))
  · exact .go (.emit w _)

theorem upholds_intoHand
    (w : World) (job : Option JobId) :
    w.Upholds (intoHand w job) := by
  cases job with
  | none =>
      exact .refl w
  | some job =>
      exact .of_eq rfl rfl rfl rfl

theorem upholds_takeBack
    (w : World) (identity : Option Nat) (rest : Code) :
    Move.Upholds w (Action.step w identity rest .takeBack) := by
  simp only [Action.step]
  cases w.scheduler.workerOf identity with
  | none =>
      exact .go (.emit w _)
  | some worker =>
      refine .schedule (fun _ _ => .pop) fun next answer => ?_
      cases answer with
      | none =>
          exact .go (.emit next _)
      | some job =>
          exact .go (upholds_intoHand next (some job))

theorem Action.upholds_step
    (w : World) (identity : Option Nat) (rest : Code) (action : Action) :
    Move.Upholds w (Action.step w identity rest action) := by
  cases action with
  | log label | answer calculation first | began job | ended job | joined | showDeque deque
  | info | describe | emit event =>
      exact .go (.emit w _)
  | asWorker other body | execute job | run job threads =>
      exact .go (.refl w)
  | store cell constant sources | calculate calculation =>
      exact .go (.of_eq rfl rfl rfl rfl)
  | start job | complete job =>
      exact .go (.setFlags w _ _)
  | runThunk body threads =>
      exact .go (.addJob w _)
  | panic text =>
      exact .fail (.refl w)
  | fork left right =>
      simp only [Action.step]
      cases w.scheduler.workerOf identity with
      | none =>
          exact .go (.refl w)
      | some worker =>
          exact .go (.addJob w _)
  | repeated times body =>
      cases times <;> exact .go (.refl w)
  | spawn job =>
      exact upholds_spawnStep w identity job _ rest
  | takeBack =>
      exact upholds_takeBack w identity rest
  | finish =>
      exact .go (.schedule ⟨⟨rfl, rfl, rfl, rfl, id⟩, rfl⟩)
  | wait condition =>
      refine .go (.refl w) ?_
      rw [List.all_cons, isInternal_waitFrame]
      rfl
  | push deque job =>
      simp only [Action.step]
      exact upholds_dequeStep w identity deque _ rest (fun _ _ => .push) fun next _ => .refl next
  | pop deque =>
      simp only [Action.step]
      exact upholds_dequeStep w identity deque _ rest (fun _ _ => .pop) upholds_intoHand
  | steal deque =>
      simp only [Action.step]
      exact upholds_dequeStep w identity deque _ rest (fun _ _ => .steal) upholds_intoHand
  | resetDeque deque =>
      simp only [Action.step]
      exact upholds_dequeStep w identity deque _ rest (fun _ _ => .resetDeque)
        fun next _ => .refl next
  | handExecute =>
      simp only [Action.step]
      cases w.hand with
      | nil =>
          exact .go (.emit w _)
      | cons job hand =>
          exact .go (.of_eq rfl rfl rfl rfl)
  | handSpawn =>
      simp only [Action.step]
      cases w.hand with
      | nil =>
          exact .go (.emit w _)
      | cons job hand =>
          have hworld : w.Upholds { w with hand } := .of_eq rfl rfl rfl rfl
          exact .after hworld (upholds_spawnStep _ identity job _ rest)
  | handPush deque =>
      simp only [Action.step]
      cases w.hand with
      | nil =>
          exact .go (.emit w _)
      | cons job hand =>
          have hworld : w.Upholds { w with hand } := .of_eq rfl rfl rfl rfl
          exact .after hworld
            (upholds_dequeStep _ identity deque _ rest (fun _ _ => .push) fun next _ => .refl next)
  | stats =>
      simp only [Action.step]
      cases w.scheduler.stats with
      | error cause =>
          exact .fail (.refl w)
      | ok stats =>
          exact .go (.emit w _)
  | resetStats =>
      exact .go ((World.Upholds.schedule (.resetStats w.scheduler)).trans (.emit _ _))
  | bump place counter =>
      simp only [Action.step]
      exact upholds_bump fun _ => rfl

/-- Every step of an internal call leaves the scheduler to whom has it; while somebody has it, a
run that is called is refused. -/
theorem Frame.upholds_step
    {frame : Frame}
    (hframe : frame.isInternal = true)
    (hclaim : ∀ threads job thunk, frame = .run (.claim threads) job thunk →
      w.scheduler.running = true)
    (identity : Option Nat) :
    Move.Upholds w (frame.step w identity) := by
  cases frame with
  | perform code =>
      cases code with
      | nil =>
          exact .go (.refl w)
      | cons action rest =>
          exact Action.upholds_step w identity rest action
  | execute job =>
      simp only [Frame.step]
      split
      · split
        · exact .fail (.refl w)
        · exact .go (.setFlags w _ _)
      · exact .fail (.refl w)
  | guarded job | restore outer =>
      exact .go (.refl w)
  | fork point worker right left =>
      exact point.upholds_step w identity worker right left
  | loop point worker stop evaluations =>
      exact point.upholds_step w identity worker stop evaluations
  | poll stop evaluations =>
      exact upholds_ask identity stop _ 0 rfl
  | run point job thunk =>
      cases point with
      | claim threads =>
          simp only [Frame.step, RunPoint.step_claim, hclaim threads job thunk rfl, if_true]
          split <;> exact .go (.emit w _)
      | _ =>
          cases hframe
  | turns pending outer | recruit workers | crew threads outer | disband threads pending =>
      cases hframe

def Move.world : Move → World
  | .go w _ _ => w
  | .fail w _ => w
  | .recruit w _ => w
  | .await w _ _ => w

theorem Move.Upholds.continues
    {move : Move}
    (h : Move.Upholds w move) :
    w.Continues move.world := by
  cases h with
  | go hworld hframes =>
      exact hworld.toContinues
  | fail hworld =>
      exact hworld.toContinues

/-- Only what a run itself writes has changed in the scheduler. -/
theorem World.Continues.mark
    {w : World} {t : Scheduler}
    (h : w.scheduler.Continues t) :
    w.Continues { w with scheduler := t } :=
  ⟨rfl, h, rfl⟩

theorem RunPoint.continues_step
    (w : World) (identity : Option Nat) (job : JobId) (thunk : Bool) (point : RunPoint) :
    w.Continues (point.step w identity job thunk).world := by
  have hrefl : w.Continues w := (World.Upholds.refl w).toContinues
  cases point with
  | claim threads =>
      rw [RunPoint.step_claim]
      split
      · exact (World.Upholds.emit w _).toContinues
      · split
        · exact (World.Upholds.emit w _).toContinues
        · exact .mark ⟨rfl, rfl, rfl, rfl, id⟩
  | enqueue threads =>
      simp only [RunPoint.step]
      cases hpush : w.scheduler.push 0 job with
      | error cause =>
          rw [w.schedule_of_error _ _ hpush]
          exact hrefl
      | ok result =>
          rw [w.schedule_of_ok _ _ hpush]
          have hnext : w.Continues { w with scheduler := result.1 } :=
            .mark (Scheduler.Upholds.push hpush).toContinues
          cases result.2 <;> exact hnext
  | announce threads =>
      have hmark : w.Continues
          { w with scheduler := { w.scheduler with activeWorkers := threads } } :=
        .mark ⟨rfl, rfl, rfl, rfl, id⟩
      exact hmark.trans (World.Upholds.trace _ _).toContinues
  | «open» threads =>
      exact hrefl
  | clear | release =>
      exact .mark ⟨rfl, rfl, rfl, rfl, id⟩
  | reset deque =>
      simp only [RunPoint.step]
      split
      · cases hreset : w.scheduler.resetDeque deque with
        | error cause =>
            rw [w.schedule_of_error _ _ hreset]
            exact hrefl
        | ok result =>
            rw [w.schedule_of_ok _ _ hreset]
            exact .mark (Scheduler.Upholds.resetDeque hreset).toContinues
      · exact hrefl
  | complete =>
      simp only [RunPoint.step]
      split
      · cases w.scheduler.stats with
        | error cause =>
            exact (World.Upholds.trace w _).toContinues
        | ok stats =>
            exact (((World.Upholds.trace w _).trans (.trace _ _)).trans (.emit _ _)).toContinues
      · exact (World.Upholds.emit w _).toContinues

/-- Every step leads to a world that continues the one before. -/
theorem Frame.continues_step
    (w : World) (identity : Option Nat) (frame : Frame) :
    w.Continues (frame.step w identity).world := by
  cases frame with
  | run point job thunk =>
      exact point.continues_step w identity job thunk
  | turns pending outer =>
      cases pending <;> exact (World.Upholds.refl w).toContinues
  | recruit workers | crew threads outer | disband threads pending =>
      exact (World.Upholds.refl w).toContinues
  | _ =>
      exact (Frame.upholds_step rfl (fun _ _ _ => Frame.noConfusion) identity).continues

end Steps

namespace System

/-- Only the threads have changed, or the process was given up. -/
theorem continues_raise
    (w : World) (threads : Array Thread) (index : Nat) (identity : Option Nat) (below : List Frame)
    (cause : Panic) :
    w.Continues (raise w threads index identity below cause).world := by
  unfold raise
  split
  · exact (World.Upholds.refl w).toContinues
  · exact (World.Upholds.refl w).toContinues
  · exact (World.Upholds.trace w _).toContinues

/-- A step of a thread leads to a world that continues the one before. -/
theorem continues_advance
    (s : System) (index : Nat) :
    s.world.Continues (s.advance index).world := by
  have hworld : ∀ {identity : Option Nat} {frame : Frame} {move : Move},
      frame.step s.world identity = move → s.world.Continues move.world :=
    fun hmove => hmove ▸ Frame.continues_step s.world _ _
  have hadvances := s.advances index
  generalize s.advance index = t at hadvances ⊢
  cases hadvances with
  | rest hframe =>
      exact (World.Upholds.refl s.world).toContinues
  | go hat hmove | busy hat hmove hbusy | closed hat hmove hover hcalm =>
      exact hworld hmove
  | recruit hat hmove =>
      unfold recruit
      split <;> exact hworld hmove
  | panic hat hmove | passed hat hmove hover hpanic =>
      exact (hworld hmove).trans (continues_raise _ _ _ _ _ _)
  | error hat hmove =>
      exact (hworld hmove).trans (World.Upholds.trace _ _).toContinues

/-- Whatever the order of the steps is, the world continues the one at the beginning. -/
theorem continues_run
    (s : System) (schedule : List Nat) :
    s.world.Continues (s.run schedule).world := by
  induction schedule generalizing s with
  | nil =>
      exact (World.Upholds.refl s.world).toContinues
  | cons index schedule ih =>
      exact (s.continues_advance index).trans (ih (s.advance index))

end System
end Machine
end WorkStealing
