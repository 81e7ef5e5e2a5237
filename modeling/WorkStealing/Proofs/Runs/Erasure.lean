import WorkStealing.Proofs.ForkJoin.Launch
import WorkStealing.Proofs.Runs.Exclusion

/-!
# Refused runs leave no trace

No step depends on what happened to be written to the transcript before, unless a
program waits for a condition that looks at it. So what the threads do can be told
after any other beginning (`System.advance_after`). A run that is refused does no more
than to say so: without it, everything else happens as before, and the transcript
lacks the refusals only (`System.exists_kept`). Together with the exclusion of runs,
this is `System.runs_apart`.
-/

namespace WorkStealing

/-- The condition does not depend on what was written before. -/
def Condition.IsBlind (test : Condition) : Prop :=
  ∀ evaluation m events, test evaluation { m with transcript := events } = test evaluation m

def Action.IsBlind : Action → Prop
  | .wait test => test.IsBlind
  | _ => True

theorem admits_isBlind
    (deques : Nat) :
    Admits Action.IsBlind deques :=
  ⟨fun _ _ _ => trivial, fun _ => trivial, fun _ => trivial, trivial, fun _ _ => trivial,
    fun _ => trivial, fun _ _ _ => trivial⟩

namespace Machine

/-- The world when these events were written before all others. -/
def World.after (events : Array Event) (w : World) : World :=
  { w with transcript := events ++ w.transcript }

def Move.after (events : Array Event) : Move → Move
  | .go w identity frames => .go (w.after events) identity frames
  | .fail w cause => .fail (w.after events) cause
  | .recruit w workers => .recruit (w.after events) workers
  | .await w threads pending => .await (w.after events) threads pending

def System.after (events : Array Event) (s : System) : System :=
  { s with world := s.world.after events }

section Steps

variable {events : Array Event} {w : World}

@[simp] theorem World.scheduler_after :
    (w.after events).scheduler = w.scheduler := by
  rfl

@[simp] theorem World.flags_after :
    (w.after events).flags = w.flags := by
  rfl

@[simp] theorem World.bodies_after :
    (w.after events).bodies = w.bodies := by
  rfl

@[simp] theorem World.hand_after :
    (w.after events).hand = w.hand := by
  rfl

@[simp] theorem World.tracing_after :
    (w.after events).tracing = w.tracing := by
  rfl

@[simp] theorem World.isStarted_after
    (job : JobId) :
    (w.after events).isStarted job = w.isStarted job := by
  rfl

@[simp] theorem World.emit_after
    (event : Event) :
    (w.after events).emit event = (w.emit event).after events := by
  simp [World.after, World.emit, Memory.emit]

@[simp] theorem World.trace_after
    (record : TraceRecord) :
    (w.after events).trace record = (w.trace record).after events := by
  unfold World.trace Memory.trace
  by_cases htracing : w.tracing = true
  · simp [htracing, World.after, Memory.emit]
  · simp [htracing, World.after]

@[simp] theorem World.addJob_after
    (body : JobId → Code) :
    (w.after events).addJob body = ((w.addJob body).1.after events, (w.addJob body).2) := by
  rfl

@[simp] theorem intoHand_after
    (job : Option JobId) :
    intoHand (w.after events) job = (intoHand w job).after events := by
  cases job <;> rfl

@[simp] theorem Stop.leave_after
    (stop : Stop) (evaluations worker : Nat) :
    stop.leave evaluations worker (w.after events) =
      (stop.leave evaluations worker w).after events := by
  cases stop <;> simp [Stop.leave]

theorem Stop.holds_after
    {stop : Stop}
    (hblind : stop.Everywhere Action.IsBlind)
    (evaluation : Nat) :
    stop.holds evaluation (w.after events).toMemory = stop.holds evaluation w.toMemory := by
  cases stop with
  | finished | jobDone job =>
      rfl
  | condition test =>
      exact hblind evaluation w.toMemory _

/-- An operation of the scheduler, and what comes after it. -/
theorem schedule_after
    {β : Type} {operation : Scheduler → Except Failure (Scheduler × β)}
    {next : World → β → Move}
    (hnext : ∀ scheduler answer, next (World.after events { w with scheduler }) answer =
      (next { w with scheduler } answer).after events) :
    (w.after events).schedule operation next = (w.schedule operation next).after events := by
  unfold World.schedule
  rw [World.scheduler_after]
  split
  · rfl
  · exact hnext _ _

/-- A frame asks whether to end. -/
theorem ask_after
    {stop : Stop}
    (hblind : stop.Everywhere Action.IsBlind)
    (identity : Option Nat) (evaluation worker : Nat) (frame : Frame) :
    (match stop.holds evaluation (w.after events).toMemory with
      | .error cause => Move.fail (w.after events) (.panic cause)
      | .ok true => .go (stop.leave evaluation worker (w.after events)) identity []
      | .ok false => .go (w.after events) identity [frame]) =
    Move.after events
      (match stop.holds evaluation w.toMemory with
        | .error cause => .fail w (.panic cause)
        | .ok true => .go (stop.leave evaluation worker w) identity []
        | .ok false => .go w identity [frame]) := by
  rw [Stop.holds_after hblind]
  split <;> simp [Move.after]

theorem LoopPoint.step_after
    {stop : Stop}
    (hblind : stop.Everywhere Action.IsBlind)
    (identity : Option Nat) (worker evaluations : Nat) (point : LoopPoint) :
    point.step (w.after events) identity worker stop evaluations =
      (point.step w identity worker stop evaluations).after events := by
  cases point with
  | poll =>
      exact ask_after hblind identity _ worker _
  | trial left =>
      cases left with
      | zero =>
          simp only [LoopPoint.step]
          refine schedule_after fun _ _ => ?_
          rfl
      | succ left =>
          exact ask_after hblind identity _ worker _
  | pop | steal left target =>
      simp only [LoopPoint.step]
      refine schedule_after fun _ answer => ?_
      cases answer <;> rfl
  | advance left attempt =>
      simp only [LoopPoint.step]
      refine schedule_after fun _ answer => ?_
      simp only [World.scheduler_after]
      split <;> rfl
  | popped job | aim left | count left target | stolen job | dispatch job =>
      simp only [LoopPoint.step]
      refine schedule_after fun _ _ => ?_
      rfl

/-- A job is pushed that must be pushed. -/
theorem push_after
    {place : Nat} {job : JobId} {identity : Option Nat} {frame : Frame} :
    (w.after events).schedule (·.push place job) (fun next outcome =>
        mustPush next outcome (.go next identity [frame])) =
      Move.after events (w.schedule (·.push place job) fun next outcome =>
        mustPush next outcome (.go next identity [frame])) := by
  refine schedule_after fun _ outcome => ?_
  cases outcome <;> rfl

theorem ForkPoint.step_after
    (identity : Option Nat) (worker : Nat) (right : JobId) (left : Code) (point : ForkPoint) :
    point.step (w.after events) identity worker right left =
      (point.step w identity worker right left).after events := by
  cases point with
  | publish | putBack job =>
      simp only [ForkPoint.step]
      exact push_after
  | check =>
      simp only [ForkPoint.step, World.isStarted_after]
      split <;> rfl
  | reclaim =>
      simp only [ForkPoint.step]
      refine schedule_after fun _ answer => ?_
      cases answer <;> rfl
  | reclaimed job =>
      simp only [ForkPoint.step]
      refine schedule_after fun _ _ => ?_
      split <;> rfl
  | closing =>
      rfl
  | published | inlineJoin | putBackCount | stolenJoin =>
      simp only [ForkPoint.step]
      refine schedule_after fun _ _ => ?_
      rfl

theorem RunPoint.step_after
    (identity : Option Nat) (job : JobId) (thunk : Bool) (point : RunPoint) :
    point.step (w.after events) identity job thunk =
      (point.step w identity job thunk).after events := by
  cases point with
  | claim threads =>
      simp only [RunPoint.step_claim, World.scheduler_after, World.emit_after]
      split
      · rfl
      · split <;> rfl
  | enqueue threads =>
      simp only [RunPoint.step]
      exact push_after
  | announce threads =>
      have htrace : ∀ next record, (World.after events next).trace record =
          (next.trace record).after events :=
        fun _ => World.trace_after
      exact congrArg (Move.go · identity _) (htrace { w with scheduler := _ } _)
  | reset deque =>
      simp only [RunPoint.step, World.scheduler_after]
      split
      · refine schedule_after fun _ _ => ?_
        rfl
      · rfl
  | complete =>
      simp only [RunPoint.step, World.tracing_after, World.scheduler_after, World.trace_after,
        World.emit_after]
      split
      · split <;> rfl
      · rfl
  | _ =>
      rfl

theorem spawnStep_after
    (identity : Option Nat) (job : JobId) (report : Outcome → Event) (rest : Code) :
    spawnStep (w.after events) identity job report rest =
      (spawnStep w identity job report rest).after events := by
  simp only [spawnStep, World.scheduler_after, World.emit_after]
  split
  · rfl
  · exact push_after

theorem dequeStep_after
    {β : Type} (identity : Option Nat) (deque : Nat)
    (operation : Scheduler → Except Failure (Scheduler × β)) (report : Option β → Event)
    {note : World → β → World}
    (hnote : ∀ next answer, note (World.after events next) answer = (note next answer).after events)
    (rest : Code) :
    dequeStep (w.after events) identity deque operation report note rest =
      (dequeStep w identity deque operation report note rest).after events := by
  simp only [dequeStep, World.scheduler_after, World.emit_after]
  split
  · refine schedule_after fun _ answer => ?_
    simp only [hnote, World.emit_after]
    rfl
  · rfl

theorem Action.step_after
    {action : Action}
    (hblind : action.Everywhere Action.IsBlind)
    (identity : Option Nat) (rest : Code) :
    Action.step (w.after events) identity rest action =
      (Action.step w identity rest action).after events := by
  have hemit : ∀ next event, (World.after events next).emit event =
      (next.emit event).after events :=
    fun _ => World.emit_after
  cases action with
  | fork left right =>
      simp only [Action.step, World.scheduler_after, World.addJob_after]
      split <;> rfl
  | repeated times body =>
      cases times <;> rfl
  | spawn job =>
      exact spawnStep_after identity job _ rest
  | takeBack =>
      simp only [Action.step, World.scheduler_after, World.emit_after]
      split
      · rfl
      · refine schedule_after fun _ answer => ?_
        cases answer <;> simp [Move.after]
  | push deque job | resetDeque deque =>
      simp only [Action.step]
      exact dequeStep_after identity deque _ _ (fun _ _ => rfl) rest
  | pop deque | steal deque =>
      exact dequeStep_after identity deque _ _ (fun _ answer => intoHand_after answer) rest
  | handExecute =>
      simp only [Action.step, World.hand_after, World.emit_after]
      cases w.hand with
      | nil =>
          rfl
      | cons job hand =>
          exact congrArg (Move.go · identity _) (hemit { w with hand } _)
  | handSpawn =>
      simp only [Action.step, World.hand_after, World.emit_after]
      cases w.hand with
      | nil =>
          rfl
      | cons job hand =>
          exact spawnStep_after (w := { w with hand }) identity job _ rest
  | handPush deque =>
      simp only [Action.step, World.hand_after, World.emit_after]
      cases w.hand with
      | nil =>
          rfl
      | cons job hand =>
          exact dequeStep_after (w := { w with hand }) identity deque _ _ (fun _ _ => rfl) rest
  | stats =>
      simp only [Action.step, World.scheduler_after, World.emit_after]
      split <;> rfl
  | bump place counter =>
      simp only [Action.step]
      refine schedule_after fun _ _ => ?_
      rfl
  | log label | answer calculation first | began job | ended job | joined | showDeque deque
  | info | describe | emit event =>
      simp only [Action.step, World.scheduler_after, World.emit_after]
      rfl
  | resetStats =>
      exact congrArg (Move.go · identity _) (hemit { w with scheduler := _ } _)
  | _ =>
      rfl

/-- What was written before does not matter for a step, but stays there. -/
theorem Frame.step_after
    {frame : Frame}
    (hblind : frame.Everywhere Action.IsBlind)
    (identity : Option Nat) :
    frame.step (w.after events) identity = (frame.step w identity).after events := by
  cases frame with
  | perform code =>
      cases code with
      | nil =>
          rfl
      | cons action rest =>
          exact Action.step_after hblind.1 identity rest
  | execute job =>
      simp only [Frame.step, World.flags_after, World.bodies_after]
      split
      · split <;> rfl
      · rfl
  | fork point worker right left =>
      exact point.step_after identity worker right left
  | loop point worker stop evaluations =>
      exact point.step_after hblind identity worker evaluations
  | poll stop evaluations =>
      exact ask_after hblind identity _ 0 _
  | run point job thunk =>
      exact point.step_after identity job thunk
  | turns pending outer =>
      cases pending <;> rfl
  | _ =>
      rfl

end Steps
namespace System

section After

variable {s : System} {events : Array Event} {index : Nat}

theorem At.after
    {thread : Thread} {frame : Frame} {below : List Frame}
    (hat : s.At index thread frame below)
    (events : Array Event) :
    (s.after events).At index thread frame below :=
  ⟨hat.going, hat.found, hat.frames⟩

theorem raise_after
    (w : World) (threads : Array Thread) (index : Nat) (identity : Option Nat)
    (below : List Frame) (cause : Panic) :
    raise (w.after events) threads index identity below cause =
      (raise w threads index identity below cause).after events := by
  unfold raise
  split
  · rfl
  · rfl
  · simp [abort, after]

theorem recruit_after
    (w : World) (threads : Array Thread) (index : Nat) (identity : Option Nat)
    (below : List Frame) (workers : List Nat) :
    recruit (w.after events) threads index identity below workers =
      (recruit w threads index identity below workers).after events := by
  cases workers <;> rfl

/-- A system goes on in the same way, whatever was written before. -/
theorem advance_after
    (hblind : s.Everywhere Action.IsBlind)
    (events : Array Event) (index : Nat) :
    (s.after events).advance index = (s.advance index).after events := by
  have hstep : ∀ {thread frame below move}, s.At index thread frame below →
      frame.step s.world thread.identity = move →
      frame.step (s.after events).world thread.identity = move.after events := by
    intro thread frame below move hat hmove
    have hmem : frame ∈ thread.frames := by simp [hat.frames]
    have hframe := hblind.frames thread (Array.mem_of_getElem? hat.found) frame hmem
    exact (Frame.step_after hframe thread.identity).trans (congrArg _ hmove)
  have hadvances := s.advances index
  generalize s.advance index = t at hadvances ⊢
  cases hadvances with
  | rest hframe =>
      exact advance_of_rest hframe
  | go hat hmove =>
      have hthere := hat.after events
      exact advance_of_go hthere.going hthere.found hthere.frames (hstep hat hmove)
  | error hat hmove =>
      have hthere := hat.after events
      rw [advance_of_error hthere.going hthere.found hthere.frames (hstep hat hmove)]
      simp [abort, after]
  | panic hat hmove =>
      have hthere := hat.after events
      rw [advance_of_panic hthere.going hthere.found hthere.frames (hstep hat hmove)]
      exact raise_after _ _ _ _ _ _
  | recruit hat hmove =>
      have hthere := hat.after events
      rw [advance_of_recruit hthere.going hthere.found hthere.frames (hstep hat hmove)]
      exact recruit_after _ _ _ _ _ _
  | busy hat hmove hbusy =>
      have hthere := hat.after events
      rw [advance_of_await hthere.going hthere.found hthere.frames (hstep hat hmove)]
      simp only [after, hbusy]
      rfl
  | closed hat hmove hover hcalm =>
      have hthere := hat.after events
      rw [advance_of_await hthere.going hthere.found hthere.frames (hstep hat hmove)]
      simp only [after, hover, hcalm]
      rfl
  | passed hat hmove hover hpanic =>
      have hthere := hat.after events
      rw [advance_of_await hthere.going hthere.found hthere.frames (hstep hat hmove)]
      simp only [after, hover, hpanic, if_true]
      exact raise_after _ _ _ _ _ _

end After

/-- The system with another transcript. -/
def retell (s : System) (events : Array Event) : System :=
  { s with world := { s.world with transcript := events } }

/-- What the next step of a thread writes as the refusal of a run, if that is what it does. -/
def refusal? (s : System) (index : Nat) : Option Event :=
  match s.frameAt index with
  | some (.run (.claim threads) _ thunk) =>
    (s.world.scheduler.refusal? threads).map fun error => ranEvent thunk (.error error)
  | _ => none

/-- The system with nothing in the place of the innermost call of a thread. -/
def blank (s : System) (index : Nat) : System :=
  { s with
    threads := s.threads.modify index fun thread =>
      { thread with frames := .perform [] :: thread.frames.tail } }

/-- A step of a thread, where a run that would be refused is not called. -/
def advanceErased (s : System) (index : Nat) : System :=
  if (s.refusal? index).isSome then (s.blank index).advance index else s.advance index

/-- The system after these steps, where no run is called that would be refused. -/
def runErased (s : System) (schedule : List Nat) : System :=
  schedule.foldl advanceErased s

/-- What is written for the runs that are refused. -/
def refusals (s : System) : List Nat → List Event
  | [] => []
  | index :: schedule => (s.refusal? index).toList ++ (s.advance index).refusals schedule

section Retell

variable {s : System} {index : Nat}

theorem retell_eq_after
    (s : System) (events : Array Event) :
    s.retell events = (s.retell #[]).after events := by
  simp [retell, after, World.after]

/-- A step writes the same, whatever was written before. -/
theorem exists_written
    (hblind : s.Everywhere Action.IsBlind)
    (index : Nat) :
    ∃ written : List Event,
      (s.advance index).world.transcript.toList = s.world.transcript.toList ++ written ∧
        ∀ events, (s.retell events).advance index =
          (s.advance index).retell (events ++ written.toArray) := by
  have hsilent : (s.retell #[]).Everywhere Action.IsBlind := ⟨hblind.bodies, hblind.frames⟩
  have hafter := fun events => advance_after hsilent events index
  have hself : s.advance index = ((s.retell #[]).advance index).after s.world.transcript := by
    rw [← hafter, ← retell_eq_after]
    rfl
  refine ⟨((s.retell #[]).advance index).world.transcript.toList, ?_, fun events => ?_⟩
  · rw [hself]
    simp [after, World.after]
  · rw [retell_eq_after, hafter, hself]
    rfl

/-- The system after the innermost call of a thread has returned. -/
def leave (s : System) (index : Nat) : System :=
  { s with
    threads := s.threads.modify index fun thread =>
      { frames := thread.frames.tail, identity := thread.identity } }

theorem At.modify_eq
    {thread : Thread} {frame : Frame} {below : List Frame}
    (hat : s.At index thread frame below)
    (change : Thread → Thread) :
    s.threads.modify index change = s.threads.setIfInBounds index (change thread) := by
  refine Array.ext_getElem? fun i => ?_
  rw [Array.getElem?_modify, Array.getElem?_setIfInBounds]
  by_cases hi : index = i
  · subst hi
    obtain ⟨hin, hvalue⟩ := Array.getElem?_eq_some_iff.mp hat.found
    simp [hin, hvalue]
  · simp [hi]

/-- A call that goes away in one step. -/
theorem At.advance_of_leave
    {thread : Thread} {frame : Frame} {below : List Frame}
    (hat : s.At index thread frame below)
    {world : World}
    (hmove : frame.step s.world thread.identity = .go world thread.identity []) :
    s.advance index = { s.leave index with world } := by
  rw [advance_of_go hat.going hat.found hat.frames hmove]
  simp [leave, hat.modify_eq, hat.frames, hat.going]

theorem leave_blank
    (s : System) (index : Nat) :
    (s.blank index).leave index = s.leave index := by
  simp only [leave, blank, System.mk.injEq, true_and, and_true]
  refine Array.ext_getElem? fun i => ?_
  simp only [Array.getElem?_modify]
  split
  · simp [Function.comp_def]
  · rfl

/-- A run that is refused says so and returns. -/
theorem advance_of_refusal
    {event : Event}
    (h : s.refusal? index = some event) :
    s.advance index = { s.leave index with world := s.world.emit event } ∧
      (s.blank index).advance index = s.leave index := by
  unfold refusal? at h
  split at h
  next threads job thunk hframe =>
    obtain ⟨thread, below, hat⟩ := exists_at hframe
    obtain ⟨error, herror, rfl⟩ := Option.map_eq_some_iff.mp h
    have hmove : (Frame.run (.claim threads) job thunk).step s.world thread.identity =
        .go (s.world.emit (ranEvent thunk (.error error))) thread.identity [] := by
      unfold Scheduler.refusal? at herror
      simp only [Frame.step, RunPoint.step_claim]
      split
      · simp_all
      · split <;> simp_all
    have hblank : (s.blank index).At index
        { thread with frames := .perform [] :: thread.frames.tail } (.perform []) below := by
      refine ⟨hat.going, ?_, by simp [hat.frames]⟩
      simp [blank, Array.getElem?_modify, hat.found]
    refine ⟨hat.advance_of_leave hmove, ?_⟩
    rw [hblank.advance_of_leave rfl, leave_blank]
    rfl
  next =>
    cases h

/-- Without the runs that are refused, all else happens as before, and is written as before. -/
theorem exists_kept
    (hblind : s.Everywhere Action.IsBlind)
    (schedule : List Nat) (events : Array Event) :
    ∃ kept all : List Event,
      (s.run schedule).world.transcript.toList = s.world.transcript.toList ++ all ∧
        (s.retell events).runErased schedule =
          (s.run schedule).retell (events ++ kept.toArray) ∧
        Shuffle (s.refusals schedule) kept all := by
  induction schedule generalizing s events with
  | nil =>
      exact ⟨[], [], by simp, by simp [runErased], .nil⟩
  | cons index schedule ih =>
      have hnext := everywhere_advance (admits_isBlind _) hblind index
      have hsame : (s.retell events).refusal? index = s.refusal? index := rfl
      rw [runErased, List.foldl_cons, ← runErased, advanceErased, hsame, refusals, run_cons]
      cases hrefusal : s.refusal? index with
      | none =>
          obtain ⟨written, hwritten, hretell⟩ := exists_written hblind index
          obtain ⟨kept, all, hall, herased, hmix⟩ := ih hnext (events ++ written.toArray)
          refine ⟨written ++ kept, written ++ all, ?_, ?_, ?_⟩
          · rw [hall, hwritten, List.append_assoc]
          · simp only [Option.isSome_none, Bool.false_eq_true, if_false]
            rw [hretell, herased]
            simp
          · exact hmix.right_append written
      | some event =>
          obtain ⟨hsaid, -⟩ := advance_of_refusal hrefusal
          obtain ⟨-, hunsaid⟩ := advance_of_refusal (hsame.trans hrefusal)
          have hretell : ((s.retell events).blank index).advance index =
              (s.advance index).retell events := by
            rw [hunsaid, hsaid]
            rfl
          obtain ⟨kept, all, hall, herased, hmix⟩ := ih hnext events
          refine ⟨kept, event :: all, ?_, ?_, hmix.left⟩
          · rw [hall, hsaid]
            simp [World.emit, Memory.emit]
          · simp only [Option.isSome_some, if_true]
            rw [hretell, herased]

end Retell

/-- How a call for a run is decided. -/
structure Decided (s : System) (index threads : Nat) (thunk : Bool) : Prop where
  /-- More workers are asked for than there are deques: the call says so and returns. -/
  tooMany : s.world.scheduler.dequeCount < s.world.scheduler.asked threads →
    s.advance index =
      { s.leave index with
        world := s.world.emit (ranEvent thunk (.error
          (.tooManyThreads (s.world.scheduler.asked threads) s.world.scheduler.dequeCount))) }
  /-- Somebody else has the scheduler: the call says so and returns. -/
  already : ¬ s.world.scheduler.dequeCount < s.world.scheduler.asked threads →
    s.world.scheduler.running = true →
    s.advance index =
      { s.leave index with world := s.world.emit (ranEvent thunk (.error .alreadyRunning)) }
  /-- The call wins the scheduler. -/
  wins : ¬ s.world.scheduler.dequeCount < s.world.scheduler.asked threads →
    s.world.scheduler.running = false →
    s.turn? index = some (.won (s.caller index)) ∧ (s.advance index).Holds (s.caller index) ∧
      (s.advance index).world =
        { s.world with scheduler := { s.world.scheduler with running := true } }

theorem decided
    {s : System} {index threads : Nat} {job : JobId} {thunk : Bool}
    (hframe : s.frameAt index = some (.run (.claim threads) job thunk)) :
    s.Decided index threads thunk := by
  obtain ⟨thread, below, hat⟩ := exists_at hframe
  refine ⟨fun hmany => ?_, fun hroom hrunning => ?_, fun hroom hfree => ?_⟩
  · refine hat.advance_of_leave ?_
    simp [Frame.step, RunPoint.step_claim, hmany]
  · refine hat.advance_of_leave ?_
    simp [Frame.step, RunPoint.step_claim, hroom, hrunning]
  · have hmove : (Frame.run (.claim threads) job thunk).step s.world thread.identity =
        .go { s.world with scheduler := { s.world.scheduler with running := true } }
          thread.identity [.run (.enqueue (s.world.scheduler.asked threads)) job thunk] := by
      simp [Frame.step, RunPoint.step_claim, hroom, hfree]
    rw [hat.turn?_eq, hat.caller_eq, advance_of_go hat.going hat.found hat.frames hmove]
    refine ⟨by simp [Frame.turn?, Scheduler.refusal?, hroom, hfree], ?_, rfl⟩
    have hin := (Array.getElem?_eq_some_iff.mp hat.found).1
    exact ⟨_, Array.getElem?_setIfInBounds_self_of_lt hin, heldIn_cons.mpr (.inr ⟨rfl, rfl⟩)⟩

/-- The runs that threads call for keep apart, after any steps of the threads. -/
structure RunsApart (s : System) (schedule : List Nat) : Prop where
  /-- Wins and releases have taken turns, and nobody but who has won last is between the two. -/
  leased : ∃ owner, s.Leased schedule owner
  /-- Who is between the two has been so since its win, and nobody has won or released since. -/
  since : ∀ call, (s.run schedule).Holds call →
    ∃ before after, schedule = before ++ call.thread :: after ∧
      (s.run before).turn? call.thread = some (.won call) ∧
      (s.run (before ++ [call.thread])).turns after = [] ∧
      ∀ first, first <+: after → (s.run (before ++ call.thread :: first)).Holds call
  /-- Who cleans up has won last. -/
  cleans : ∀ index frame, (s.run schedule).frameAt index = some frame → frame.cleans = true →
    (s.turns schedule).getLast? = some (.won ((s.run schedule).caller index))
  decided : ∀ index threads job thunk,
    (s.run schedule).frameAt index = some (.run (.claim threads) job thunk) →
      (s.run schedule).Decided index threads thunk
  /-- Without the calls that are refused, the system is in the same state, and lacks nothing in the
  transcript but what was written for them. -/
  erased : s.Everywhere Action.IsBlind →
    ∃ kept all : List Event,
      (s.run schedule).world.transcript.toList = s.world.transcript.toList ++ all ∧
        s.runErased schedule =
          (s.run schedule).retell (s.world.transcript ++ kept.toArray) ∧
        Shuffle (s.refusals schedule) kept all

/-- Whatever threads there are and whatever code they and the jobs perform, the runs that they call
for keep apart, if there is no run in the beginning. -/
theorem runs_apart
    (s : System)
    (hfree : ∀ call, ¬ s.Holds call)
    (schedule : List Nat) :
    s.RunsApart schedule := by
  refine ⟨exists_leased hfree schedule, fun call => held_since hfree schedule, ?_,
    fun _ _ _ _ => decided, fun hblind => exists_kept hblind schedule s.world.transcript⟩
  intro index frame hframe hcleans
  obtain ⟨owner, howner⟩ := exists_leased hfree schedule
  obtain ⟨thread, below, hat⟩ := exists_at hframe
  have hholds := hat.holds_caller (Frame.holds_of_cleans hcleans)
  have htenancy := howner.tenancy
  rw [howner.holder _ hholds] at htenancy
  exact htenancy.last_turn

/-- Two threads call for runs of one job, which calls for a run itself. -/
def rivals : System :=
  { world :=
      { ForkJoin.Launch.sample.world with
        bodies := #[[.run 0 1, .wait (.polls 2), .finish]], flags := #[{}] }
    threads := #[.ofCode [.run 0 1], .ofCode [.run 0 2]] }

/-- The second thread calls while the first one has the scheduler, and is refused. -/
theorem rivals_run_apart :
    (∀ call, ¬ rivals.Holds call) ∧ rivals.Everywhere Action.IsBlind ∧
      rivals.turns [0, 0, 1, 1] = [.won ⟨0, 1⟩] ∧ (rivals.refusals [0, 0, 1, 1]).length = 1 ∧
      rivals.RunsApart [0, 0, 1, 1] := by
  have hfree : ∀ call, ¬ rivals.Holds call :=
    free_of_frames (by simp [rivals, Thread.ofCode, Frame.holds])
  have hblind : rivals.Everywhere Action.IsBlind := by
    constructor
    · simp [rivals, World.Everywhere, Action.Everywhere, Action.IsBlind, Condition.IsBlind,
        Condition.polls]
    · simp [rivals, Thread.ofCode, Frame.Everywhere, Action.Everywhere, Action.IsBlind]
  exact ⟨hfree, hblind, by decide, by decide, runs_apart rivals hfree [0, 0, 1, 1]⟩

end System
end Machine
end WorkStealing
