import WorkStealing.Proofs.Machine.Coverage
import WorkStealing.Proofs.Scheduler.Bounds
import WorkStealing.Proofs.Scheduler.Construction
import WorkStealing.Proofs.Scheduler.Statistics

/-!
# What a step can fail with

Every number of a place in a frame is that of a place: a worker was found to have a
deque when it asked who it is, a region is opened for no more workers than there are
deques, and a thief aims where there is a deque. So no step looks beyond the places or
beyond the slots of a deque. The failures that are left are listed, each with the
frames that it can come from (`Frame.Fault`).
-/

namespace WorkStealing

/-- Where statistics can be summed, the condition panics at most in words of its own. -/
def Condition.IsCareful (test : Condition) : Prop :=
  ∀ evaluation (m : Memory) cause, (∀ counter, m.scheduler.total counter < UInt64.size) →
    test evaluation m = .error cause → ∃ text, cause = .raised text

/-- A program waits for careful conditions only, and leaves it to workers to count. -/
def Action.IsCareful (deques : Nat) : Action → Prop
  | .wait test => test.IsCareful
  | .bump place _ => place < deques
  | _ => True

theorem admits_isCareful
    (deques : Nat) :
    Admits (Action.IsCareful deques) deques :=
  ⟨fun _ _ _ => trivial, fun _ => trivial, fun _ => trivial, trivial, fun _ _ => trivial,
    fun _ => trivial, fun _ _ hplace => hplace⟩

namespace Machine

/-- A thief aims where there is a deque. -/
def LoopPoint.Within (deques : Nat) : LoopPoint → Prop
  | .count _ target => target < deques
  | .steal _ target => target < deques
  | _ => True

def RunPoint.Within (deques : Nat) : RunPoint → Prop
  | .enqueue threads => threads ≤ deques
  | .announce threads => threads ≤ deques
  | .open threads => threads ≤ deques
  | _ => True

def Frame.Within (deques : Nat) : Frame → Prop
  | .fork _ worker _ _ => worker < deques
  | .loop point worker _ _ => worker < deques ∧ point.Within deques
  | .run point _ _ => point.Within deques
  | .turns pending _ => ∀ worker ∈ pending, worker < deques
  | .recruit workers => ∀ worker ∈ workers, worker < deques
  | .disband _ pending => pending = none
  | _ => True

/-- The frame is about to push a job that must be pushed. -/
def Frame.mustPush : Frame → Bool
  | .fork .publish _ _ _ => true
  | .fork (.putBack _) _ _ _ => true
  | .run (.enqueue _) _ _ => true
  | .perform (.spawn _ :: _) => true
  | .perform (.handSpawn :: _) => true
  | _ => false

/-- The frame is about to do what may take a new tag. -/
def Frame.mayRestart : Frame → Bool
  | .fork .reclaim _ _ _ => true
  | .loop .pop _ _ _ => true
  | .run (.reset _) _ _ => true
  | .perform (.takeBack :: _) => true
  | .perform (.pop _ :: _) => true
  | .perform (.resetDeque _ :: _) => true
  | _ => false

/-- What a frame can fail with where deques have so many slots. -/
inductive Frame.Fault (capacity : Nat) : Frame → Failure → Prop where
  /-- Code panics in words of its own. -/
  | raised {text : String} {rest : Code} :
      Fault capacity (.perform (.panic text :: rest)) (.panic (.raised text))
  /-- The condition of a waiting worker does. -/
  | looping {point : LoopPoint} {worker : Nat} {test : Condition} {evaluations : Nat}
      {text : String} :
      Fault capacity (.loop point worker (.condition test) evaluations) (.panic (.raised text))
  /-- The condition of a wait that only polls does. -/
  | polling {test : Condition} {evaluations : Nat} {text : String} :
      Fault capacity (.poll (.condition test) evaluations) (.panic (.raised text))
  /-- The code of a job is gone. -/
  | twice {job : JobId} :
      Fault capacity (.execute job) (.panic .jobExecutedTwice)
  /-- A run ends with jobs left in a deque. -/
  | left {deque : Nat} {job : JobId} {thunk : Bool} :
      Fault capacity (.run (.reset deque) job thunk) (.panic .resetNonEmpty)
  /-- A program resets a deque with jobs in it. -/
  | reset {deque : Nat} {rest : Code} :
      Fault capacity (.perform (.resetDeque deque :: rest)) (.panic .resetNonEmpty)
  | overflow {frame : Frame}
      (hpush : frame.mustPush = true) :
      Fault capacity frame (.error (.dequeOverflow capacity))
  | exhausted {frame : Frame}
      (hrestart : frame.mayRestart = true) :
      Fault capacity frame (.error .tagExhausted)

/-- The move of a frame leaves the scheduler sound, and either fails as this frame can or leads to
frames within bounds. -/
inductive Move.Bounded (deques capacity : Nat) (frame : Frame) : Move → Prop where
  | go {next : World} {identity : Option Nat} {frames : List Frame}
      (hsound : next.scheduler.Sound deques capacity)
      (hframes : ∀ upper ∈ frames, upper.Within deques) :
      Bounded deques capacity frame (.go next identity frames)
  | fail {next : World} {cause : Failure}
      (hsound : next.scheduler.Sound deques capacity)
      (hfault : frame.Fault capacity cause) :
      Bounded deques capacity frame (.fail next cause)
  | recruit {next : World} {workers : List Nat}
      (hsound : next.scheduler.Sound deques capacity)
      (hworkers : ∀ worker ∈ workers, worker < deques) :
      Bounded deques capacity frame (.recruit next workers)
  | await {next : World} {threads : List Nat} {pending : Option Panic}
      (hsound : next.scheduler.Sound deques capacity)
      (hframe : frame = .disband threads pending) :
      Bounded deques capacity frame (.await next threads pending)

section Steps

variable {deques capacity : Nat} {frame : Frame} {w : World}

namespace Move.Bounded

/-- The thread goes on with one frame. -/
theorem one
    {identity : Option Nat} {upper : Frame}
    (hsound : w.scheduler.Sound deques capacity)
    (hupper : upper.Within deques) :
    Move.Bounded deques capacity frame (.go w identity [upper]) :=
  .go hsound (by simpa using hupper)

/-- The thread goes on with two frames. -/
theorem two
    {identity : Option Nat} {upper below : Frame}
    (hsound : w.scheduler.Sound deques capacity)
    (hupper : upper.Within deques)
    (hbelow : below.Within deques) :
    Move.Bounded deques capacity frame (.go w identity [upper, below]) :=
  .go hsound (by simpa using ⟨hupper, hbelow⟩)

theorem none
    {identity : Option Nat}
    (hsound : w.scheduler.Sound deques capacity) :
    Move.Bounded deques capacity frame (.go w identity []) :=
  .go hsound (by simp)

/-- An operation of the scheduler, and what comes after it. -/
theorem schedule
    {β : Type} {operation : Scheduler → Except Failure (Scheduler × β)}
    {answers : β → Prop} {fails : Failure → Prop} {continuation : World → β → Move}
    (hsound : w.scheduler.Sound deques capacity)
    (hsettles : Settles (Scheduler.Sound deques capacity) answers fails (operation w.scheduler))
    (hfails : ∀ cause, fails cause → frame.Fault capacity cause)
    (hnext : ∀ scheduler answer, scheduler.Sound deques capacity → answers answer →
      Move.Bounded deques capacity frame (continuation { w with scheduler } answer)) :
    Move.Bounded deques capacity frame (w.schedule operation continuation) := by
  cases hresult : operation w.scheduler with
  | error cause =>
      rw [hresult] at hsettles
      rw [World.schedule_of_error _ _ _ hresult]
      exact .fail hsound (hfails cause hsettles)
  | ok result =>
      rw [hresult] at hsettles
      rw [World.schedule_of_ok _ _ _ hresult]
      exact hnext _ _ hsettles.1 hsettles.2

/-- An operation of the scheduler that cannot fail, and what comes after it. -/
theorem infallible
    {β : Type} {operation : Scheduler → Except Failure (Scheduler × β)}
    {answers : β → Prop} {continuation : World → β → Move}
    (hsound : w.scheduler.Sound deques capacity)
    (hsettles : Settles (Scheduler.Sound deques capacity) answers (fun _ => False)
      (operation w.scheduler))
    (hnext : ∀ scheduler answer, scheduler.Sound deques capacity → answers answer →
      Move.Bounded deques capacity frame (continuation { w with scheduler } answer)) :
    Move.Bounded deques capacity frame (w.schedule operation continuation) :=
  schedule hsound hsettles (fun _ => False.elim) hnext

end Move.Bounded

@[simp] theorem Stop.scheduler_leave
    (stop : Stop) (evaluations worker : Nat) (w : World) :
    (stop.leave evaluations worker w).scheduler = w.scheduler := by
  cases stop <;> simp [leave, World.emit, Memory.emit]

/-- A careful condition that panics does so in words of its own; the other ends of a loop never
panic. -/
theorem Stop.cause_of_holds
    {stop : Stop}
    (hcareful : stop.Everywhere (Action.IsCareful deques))
    (hfits : ∀ counter, w.scheduler.total counter < UInt64.size)
    {evaluation : Nat} {cause : Panic}
    (h : stop.holds evaluation w.toMemory = .error cause) :
    ∃ test text, stop = .condition test ∧ cause = .raised text := by
  cases stop with
  | finished | jobDone job =>
      cases h
  | condition test =>
      obtain ⟨text, hcause⟩ := hcareful evaluation w.toMemory cause hfits h
      exact ⟨test, text, rfl, hcause⟩

/-- A frame asks whether to end. -/
theorem bounded_ask
    (hsound : w.scheduler.Sound deques capacity)
    (hfits : ∀ counter, w.scheduler.total counter < UInt64.size)
    {stop : Stop}
    (hcareful : stop.Everywhere (Action.IsCareful deques))
    (hfault : ∀ test text, stop = .condition test →
      frame.Fault capacity (.panic (.raised text)))
    (identity : Option Nat) (evaluation worker : Nat) {upper : Frame}
    (hupper : upper.Within deques) :
    Move.Bounded deques capacity frame
      (match stop.holds evaluation w.toMemory with
        | .error cause => .fail w (.panic cause)
        | .ok true => .go (stop.leave evaluation worker w) identity []
        | .ok false => .go w identity [upper]) := by
  split
  next cause hholds =>
    obtain ⟨test, text, hstop, rfl⟩ := stop.cause_of_holds hcareful hfits hholds
    exact .fail hsound (hfault test text hstop)
  next =>
    exact .none (by simpa using hsound)
  next =>
    exact .one hsound hupper

theorem LoopPoint.bounded_step
    (hword : deques < UInt64.size)
    (hsound : w.scheduler.Sound deques capacity)
    (hfits : ∀ counter, w.scheduler.total counter < UInt64.size)
    (identity : Option Nat) {worker : Nat} {stop : Stop} (evaluations : Nat) {point : LoopPoint}
    (hcareful : stop.Everywhere (Action.IsCareful deques))
    (hwithin : (Frame.loop point worker stop evaluations).Within deques) :
    Move.Bounded deques capacity (.loop point worker stop evaluations)
      (point.step w identity worker stop evaluations) := by
  obtain ⟨hworker, hpoint⟩ := hwithin
  have hfault : ∀ test text, stop = .condition test →
      (Frame.loop point worker stop evaluations).Fault capacity (.panic (.raised text)) := by
    intro test text hstop
    rw [hstop]
    exact .looping
  have hstay : ∀ (next : World) (last : LoopPoint) (count : Nat),
      next.scheduler.Sound deques capacity → last.Within deques →
      Move.Bounded deques capacity (.loop point worker stop evaluations)
        (.go next identity [.loop last worker stop count]) :=
    fun next last count hnext hlast => .one hnext ⟨hworker, hlast⟩
  cases point with
  | poll =>
      exact bounded_ask hsound hfits hcareful hfault identity _ worker ⟨hworker, trivial⟩
  | pop =>
      simp only [LoopPoint.step]
      refine .schedule hsound (hsound.pop hworker) ?_ fun scheduler answer hnext _ => ?_
      · rintro cause rfl
        exact .exhausted rfl
      · cases answer <;> exact hstay _ _ _ hnext trivial
  | trial left =>
      cases left with
      | zero =>
          simp only [LoopPoint.step]
          exact .infallible hsound (hsound.bump hworker _)
            fun _ _ hnext _ => hstay _ _ _ hnext trivial
      | succ left =>
          exact bounded_ask hsound hfits hcareful hfault identity _ worker ⟨hworker, trivial⟩
  | aim left =>
      simp only [LoopPoint.step]
      exact .infallible hsound (hsound.loadAttempt hworker)
        fun _ _ hnext _ => hstay _ _ _ hnext trivial
  | advance left attempt =>
      simp only [LoopPoint.step]
      refine .infallible hsound (hsound.storeAttempt hworker _) fun scheduler _ hnext _ => ?_
      have hcount := hnext.count
      obtain ⟨target, hvictim, htarget⟩ :=
        scheduler.exists_victim (by omega) (by omega) worker attempt
      simp only [hvictim]
      exact hstay _ _ _ hnext (hcount ▸ htarget)
  | count left target =>
      simp only [LoopPoint.step]
      exact .infallible hsound (hsound.bump hworker _)
        fun _ _ hnext _ => hstay _ _ _ hnext hpoint
  | steal left target =>
      simp only [LoopPoint.step]
      refine .infallible hsound (hsound.steal hpoint) fun scheduler answer hnext _ => ?_
      cases answer <;> exact hstay _ _ _ hnext trivial
  | popped job | stolen job =>
      simp only [LoopPoint.step]
      exact .infallible hsound (hsound.bump hworker _)
        fun _ _ hnext _ => hstay _ _ _ hnext trivial
  | dispatch job =>
      simp only [LoopPoint.step]
      exact .infallible hsound (hsound.bump hworker _)
        fun _ _ hnext _ => .two hnext trivial ⟨hworker, trivial⟩

theorem within_waitFrame
    (hsound : w.scheduler.Sound deques capacity)
    (identity : Option Nat) (stop : Stop) :
    (waitFrame w.scheduler identity stop).Within deques := by
  unfold waitFrame
  split
  next worker _ hworker =>
    exact ⟨hsound.count ▸ (lt_of_workerOf hworker).2, trivial⟩
  next =>
    trivial

/-- A job is pushed that must be pushed. -/
theorem bounded_push
    (hsound : w.scheduler.Sound deques capacity)
    {place : Nat} {job : JobId} {identity : Option Nat} {upper : Frame}
    (hplace : place < deques)
    (hpush : frame.mustPush = true)
    (hupper : upper.Within deques) :
    Move.Bounded deques capacity frame
      (w.schedule (·.push place job) fun next outcome =>
        mustPush next outcome (.go next identity [upper])) := by
  refine .infallible hsound (hsound.push hplace job) fun scheduler outcome hnext houtcome => ?_
  rcases houtcome with rfl | rfl
  · exact .one hnext hupper
  · exact .fail hnext (.overflow hpush)

theorem ForkPoint.bounded_step
    (hsound : w.scheduler.Sound deques capacity)
    (identity : Option Nat) {worker : Nat} (right : JobId) (left : Code) (point : ForkPoint)
    (hworker : worker < deques) :
    Move.Bounded deques capacity (.fork point worker right left)
      (point.step w identity worker right left) := by
  have hstay : ∀ (next : World) (last : ForkPoint), next.scheduler.Sound deques capacity →
      Move.Bounded deques capacity (.fork point worker right left)
        (.go next identity [.fork last worker right left]) :=
    fun next last hnext => .one hnext hworker
  cases point with
  | publish | putBack job =>
      simp only [ForkPoint.step]
      exact bounded_push hsound hworker rfl hworker
  | published | inlineJoin =>
      simp only [ForkPoint.step]
      exact .infallible hsound (hsound.bump hworker _)
        fun _ _ hnext _ => .two hnext trivial hworker
  | check =>
      simp only [ForkPoint.step]
      split <;> exact hstay _ _ hsound
  | reclaim =>
      simp only [ForkPoint.step]
      refine .schedule hsound (hsound.pop hworker) ?_ fun scheduler answer hnext _ => ?_
      · rintro cause rfl
        exact .exhausted rfl
      · cases answer <;> exact hstay _ _ hnext
  | reclaimed job =>
      simp only [ForkPoint.step]
      refine .infallible hsound (hsound.bump hworker _) fun _ _ hnext _ => ?_
      split <;> exact hstay _ _ hnext
  | putBackCount =>
      simp only [ForkPoint.step]
      exact .infallible hsound (hsound.bump hworker _) fun _ _ hnext _ => hstay _ _ hnext
  | stolenJoin =>
      simp only [ForkPoint.step]
      exact .infallible hsound (hsound.bump hworker _) fun scheduler _ hnext _ =>
        .two hnext (within_waitFrame (w := { w with scheduler }) hnext _ _) hworker
  | closing =>
      exact .none hsound

theorem RunPoint.bounded_step
    (hpos : 0 < deques)
    (hsound : w.scheduler.Sound deques capacity)
    (hfits : ∀ counter, w.scheduler.total counter < UInt64.size)
    (identity : Option Nat) (job : JobId) (thunk : Bool) {point : RunPoint}
    (hhost : ∀ threads, point = .open threads →
      ∀ worker ∈ w.style.workersOf threads, worker < threads)
    (hwithin : point.Within deques) :
    Move.Bounded deques capacity (.run point job thunk) (point.step w identity job thunk) := by
  have hstay : ∀ (next : World) (last : RunPoint), next.scheduler.Sound deques capacity →
      last.Within deques →
      Move.Bounded deques capacity (.run point job thunk)
        (.go next identity [.run last job thunk]) :=
    fun next last hnext hlast => .one hnext hlast
  cases point with
  | claim threads =>
      rw [RunPoint.step_claim]
      split
      · exact .none hsound
      next hroom =>
        split
        · exact .none hsound
        · refine hstay _ _ (hsound.congr rfl) ?_
          have hcount := hsound.count
          simp only [RunPoint.Within]
          omega
  | enqueue threads =>
      simp only [RunPoint.step]
      exact bounded_push hsound hpos rfl hwithin
  | announce threads =>
      refine hstay _ _ ?_ hwithin
      rw [World.scheduler_trace]
      exact hsound.congr rfl
  | «open» threads =>
      have hworkers : ∀ worker ∈ w.style.workersOf threads, worker < deques :=
        fun worker hmem => Nat.lt_of_lt_of_le (hhost threads rfl worker hmem) hwithin
      refine .two hsound ?_ trivial
      unfold regionFrame
      split <;> exact hworkers
  | clear | release =>
      exact hstay _ _ (hsound.congr rfl) trivial
  | reset deque =>
      simp only [RunPoint.step]
      split
      next hdeque =>
        have hplace : deque < deques := hsound.count ▸ hdeque
        refine .schedule hsound (hsound.resetDeque hplace) ?_
          fun _ _ hnext _ => hstay _ _ hnext trivial
        rintro cause (rfl | rfl)
        · exact .left
        · exact .exhausted rfl
      next =>
        exact hstay _ _ hsound trivial
  | complete =>
      obtain ⟨stats, hstats, -⟩ := Scheduler.stats_of_fits hfits
      simp only [RunPoint.step, hstats]
      split
      · refine .none ?_
        simpa [World.emit, Memory.emit] using hsound
      · exact .none hsound

theorem bounded_spawnStep
    (hsound : w.scheduler.Sound deques capacity)
    (hpush : frame.mustPush = true)
    (identity : Option Nat) (job : JobId) (report : Outcome → Event) (rest : Code) :
    Move.Bounded deques capacity frame (spawnStep w identity job report rest) := by
  unfold spawnStep
  split
  next =>
    exact .one hsound trivial
  next worker hworker =>
    exact bounded_push hsound (hsound.count ▸ (lt_of_workerOf hworker).2) hpush trivial

theorem bounded_dequeStep
    {β : Type}
    (hsound : w.scheduler.Sound deques capacity)
    (identity : Option Nat) (deque : Nat)
    {operation : Scheduler → Except Failure (Scheduler × β)} (report : Option β → Event)
    {note : World → β → World} (rest : Code) {answers : β → Prop} {fails : Failure → Prop}
    (hsettles : deque < deques →
      Settles (Scheduler.Sound deques capacity) answers fails (operation w.scheduler))
    (hfails : ∀ cause, fails cause → frame.Fault capacity cause)
    (hnote : ∀ next answer, (note next answer).scheduler = next.scheduler) :
    Move.Bounded deques capacity frame
      (dequeStep w identity deque operation report note rest) := by
  unfold dequeStep
  split
  next hdeque =>
    refine .schedule hsound (hsettles (hsound.count ▸ hdeque)) hfails fun _ _ hnext _ => ?_
    refine .one ?_ trivial
    simpa [World.emit, Memory.emit, hnote] using hnext
  next =>
    exact .one hsound trivial

theorem scheduler_intoHand
    (w : World) (job : Option JobId) :
    (intoHand w job).scheduler = w.scheduler := by
  cases job <;> rfl

theorem Action.bounded_step
    (hsound : w.scheduler.Sound deques capacity)
    (hfits : ∀ counter, w.scheduler.total counter < UInt64.size)
    (identity : Option Nat) {action : Action} (rest : Code)
    (hcareful : action.Everywhere (Action.IsCareful deques)) :
    Move.Bounded deques capacity (.perform (action :: rest))
      (Action.step w identity rest action) := by
  have hgoOn : ∀ next : World, next.scheduler.Sound deques capacity →
      Move.Bounded deques capacity (.perform (action :: rest))
        (.go next identity [.perform rest]) :=
    fun next hnext => .one hnext trivial
  cases action with
  | log label | store cell constant sources | answer calculation first | start job | complete job
  | began job | ended job | joined | showDeque deque | info | describe | emit event =>
      exact hgoOn _ hsound
  | finish =>
      exact hgoOn _ (hsound.congr rfl)
  | resetStats =>
      exact hgoOn _ hsound.resetStats
  | panic text =>
      exact .fail hsound .raised
  | fork left right =>
      simp only [Action.step]
      split
      next =>
        exact .go hsound (by simp [Frame.Within])
      next worker hworker =>
        exact .two hsound (hsound.count ▸ (lt_of_workerOf hworker).2) trivial
  | repeated times body =>
      cases times with
      | zero =>
          exact hgoOn _ hsound
      | succ times =>
          simp only [Action.step]
          exact .two hsound trivial trivial
  | asWorker other body =>
      exact .go hsound (by simp [Frame.Within])
  | calculate calculation | execute job | run job threads | runThunk body threads =>
      simp only [Action.step]
      exact .two hsound trivial trivial
  | spawn job =>
      exact bounded_spawnStep hsound rfl identity job _ rest
  | takeBack =>
      simp only [Action.step]
      split
      next =>
        exact hgoOn _ hsound
      next worker hworker =>
        have hplace : worker < deques := hsound.count ▸ (lt_of_workerOf hworker).2
        refine .schedule hsound (hsound.pop hplace) ?_ fun _ answer hnext _ => ?_
        · rintro cause rfl
          exact .exhausted rfl
        · cases answer <;> exact .one hnext trivial
  | wait condition =>
      simp only [Action.step]
      exact .two hsound (within_waitFrame hsound _ _) trivial
  | push deque job =>
      exact bounded_dequeStep hsound identity deque _ rest (hsound.push · job)
        (fun _ => False.elim) fun _ _ => rfl
  | pop deque =>
      refine bounded_dequeStep hsound identity deque _ rest hsound.pop ?_ scheduler_intoHand
      rintro cause rfl
      exact .exhausted rfl
  | steal deque =>
      exact bounded_dequeStep hsound identity deque _ rest hsound.steal (fun _ => False.elim)
        scheduler_intoHand
  | resetDeque deque =>
      simp only [Action.step]
      refine bounded_dequeStep hsound identity deque _ rest hsound.resetDeque ?_ fun _ _ => rfl
      rintro cause (rfl | rfl)
      · exact .reset
      · exact .exhausted rfl
  | handExecute =>
      simp only [Action.step]
      split
      · exact hgoOn _ hsound
      · exact .two hsound trivial trivial
  | handSpawn =>
      simp only [Action.step]
      split
      next =>
        exact hgoOn _ hsound
      next job hand _ =>
        exact bounded_spawnStep (w := { w with hand }) hsound rfl identity job _ rest
  | handPush deque =>
      simp only [Action.step]
      split
      next =>
        exact hgoOn _ hsound
      next job hand _ =>
        exact bounded_dequeStep (w := { w with hand }) hsound identity deque _ rest
          (hsound.push · job) (fun _ => False.elim) fun _ _ => rfl
  | stats =>
      obtain ⟨stats, hstats, -⟩ := Scheduler.stats_of_fits hfits
      simp only [Action.step, hstats]
      exact hgoOn _ hsound
  | bump place counter =>
      simp only [Action.step]
      exact .infallible hsound (hsound.bump hcareful counter) fun _ _ hnext _ => hgoOn _ hnext

/-- Every step of a frame within bounds leads to frames within bounds, or fails as the frame
can. -/
theorem Frame.bounded_step
    (hpos : 0 < deques)
    (hword : deques < UInt64.size)
    (hsound : w.scheduler.Sound deques capacity)
    (hfits : ∀ counter, w.scheduler.total counter < UInt64.size)
    (identity : Option Nat)
    (hhost : ∀ threads job thunk, frame = .run (.open threads) job thunk →
      ∀ worker ∈ w.style.workersOf threads, worker < threads)
    (hcareful : frame.Everywhere (Action.IsCareful deques))
    (hwithin : frame.Within deques) :
    Move.Bounded deques capacity frame (frame.step w identity) := by
  cases frame with
  | perform code =>
      cases code with
      | nil =>
          exact .none hsound
      | cons action rest =>
          exact Action.bounded_step hsound hfits identity rest hcareful.1
  | execute job =>
      simp only [Frame.step]
      split
      · split
        · exact .fail hsound .twice
        · exact .two hsound trivial trivial
      · exact .fail hsound .twice
  | guarded job | restore outer =>
      exact .none hsound
  | fork point worker right left =>
      exact point.bounded_step hsound identity right left hwithin
  | loop point worker stop evaluations =>
      exact point.bounded_step hword hsound hfits identity evaluations hcareful hwithin
  | poll stop evaluations =>
      refine bounded_ask hsound hfits hcareful ?_ identity _ 0 trivial
      rintro test text rfl
      exact .polling
  | run point job thunk =>
      exact point.bounded_step hpos hsound hfits identity job thunk
        (fun threads hopen => hhost threads job thunk (hopen ▸ rfl)) hwithin
  | turns pending outer =>
      cases pending with
      | nil =>
          exact .none hsound
      | cons worker pending =>
          have hall := List.forall_mem_cons.mp hwithin
          simp only [Frame.step]
          exact .two hsound ⟨hall.1, trivial⟩ hall.2
  | recruit workers =>
      exact .recruit hsound hwithin
  | crew threads outer =>
      simp only [Frame.step]
      exact .one hsound rfl
  | disband threads pending =>
      exact .await hsound rfl

end Steps
end Machine
end WorkStealing
