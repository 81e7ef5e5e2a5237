import Mathlib.Data.List.Induction
import WorkStealing.Proofs.Machine.Coverage

/-!
# One run at a time

A call for a run wins the scheduler, is refused, or has not been decided yet. From its
win to its release a run *holds* the scheduler. Whoever the threads are and whatever
code they perform, wins and releases take turns, each release is by the call that has
won last, and only that call can hold the scheduler (`System.turns_take_turns`). So
what a run does to clean up is done before another run wins.
-/

namespace WorkStealing

/-- Why a run for which so many workers are asked is refused, if it is. -/
def Scheduler.refusal? (s : Scheduler) (threads : Nat) : Option Error :=
  if s.dequeCount < s.asked threads then some (.tooManyThreads (s.asked threads) s.dequeCount)
  else if s.running then some .alreadyRunning
  else none

namespace Machine

/-- A call, by its thread and the number of calls below it there. -/
structure Caller where
  thread : Nat
  depth : Nat
  deriving DecidableEq, Repr

/-- The frame is a run that has won the scheduler and has not released it. -/
def Frame.holds : Frame → Bool
  | .run (.claim _) _ _ => false
  | .run .complete _ _ => false
  | .run _ _ _ => true
  | _ => false

/-- The frame is a run that is about to clear the flag that ended it or to reset a deque. -/
def Frame.cleans : Frame → Bool
  | .run .clear _ _ => true
  | .run (.reset _) _ _ => true
  | _ => false

theorem Frame.holds_of_cleans
    {frame : Frame}
    (h : frame.cleans = true) :
    frame.holds = true := by
  unfold Frame.cleans at h
  split at h
  · rfl
  · rfl
  · cases h

/-- What happens to the scheduler when it is won or released. -/
inductive Turn where
  | won (call : Caller)
  | released (call : Caller)
  deriving DecidableEq, Repr

/-- What the next step of the frame does to whom the scheduler belongs. -/
def Frame.turn? (w : World) (call : Caller) : Frame → Option Turn
  | .run (.claim threads) _ _ =>
    if (w.scheduler.refusal? threads).isNone then some (.won call) else none
  | .run .release _ _ => some (.released call)
  | _ => none

/-- Wins and releases in turn, each release by the call that has won last; and who has won
without a release. -/
inductive Tenancy : List Turn → Option Caller → Prop where
  | free : Tenancy [] none
  | won {turns : List Turn} (call : Caller) (h : Tenancy turns none) :
      Tenancy (turns ++ [.won call]) (some call)
  | released {turns : List Turn} {call : Caller} (h : Tenancy turns (some call)) :
      Tenancy (turns ++ [.released call]) none

theorem Tenancy.last_turn
    {turns : List Turn} {call : Caller}
    (h : Tenancy turns (some call)) :
    turns.getLast? = some (.won call) := by
  cases h with
  | won call h =>
      simp

/-- Among these frames, the one with so many others below holds the scheduler. -/
def HeldIn (frames : List Frame) (depth : Nat) : Prop :=
  ∃ frame, frames.reverse[depth]? = some frame ∧ frame.holds = true

section HeldIn

variable {frame : Frame} {frames below : List Frame} {depth : Nat}

theorem HeldIn.lt
    (h : HeldIn frames depth) :
    depth < frames.length := by
  obtain ⟨frame, hframe, -⟩ := h
  simpa using (List.getElem?_eq_some_iff.mp hframe).1

theorem heldIn_cons :
    HeldIn (frame :: frames) depth ↔
      HeldIn frames depth ∨ depth = frames.length ∧ frame.holds = true := by
  unfold HeldIn
  rw [List.reverse_cons]
  rcases Nat.lt_trichotomy depth frames.length with hlt | heq | hgt
  · rw [List.getElem?_append_left (by simpa using hlt)]
    simp [Nat.ne_of_lt hlt]
  · subst heq
    simp
  · rw [List.getElem?_append_right (by simp; omega), List.getElem?_eq_none (by simp; omega),
      List.getElem?_eq_none (by simp; omega)]
    simp
    omega

/-- Calls above that hold nothing do not matter. -/
theorem heldIn_append
    (hframes : ∀ frame ∈ frames, frame.holds = false) :
    HeldIn (frames ++ below) depth ↔ HeldIn below depth := by
  induction frames with
  | nil =>
      rfl
  | cons frame frames ih =>
      rw [List.forall_mem_cons] at hframes
      rw [List.cons_append, heldIn_cons, ih hframes.2, hframes.1]
      simp

/-- What is held below is held. -/
theorem HeldIn.suffix
    (h : HeldIn frames depth)
    (hsuffix : frames <:+ below) :
    HeldIn below depth := by
  obtain ⟨upper, rfl⟩ := hsuffix
  induction upper with
  | nil =>
      exact h
  | cons frame upper ih =>
      exact heldIn_cons.mpr (.inl ih)

end HeldIn

namespace System

/-- The call is a run that has won the scheduler and has not released it. -/
def Holds (s : System) (call : Caller) : Prop :=
  ∃ thread, s.threads[call.thread]? = some thread ∧ HeldIn thread.frames call.depth

/-- Where no frame is a run that holds the scheduler, nobody does. -/
theorem free_of_frames
    {s : System}
    (h : ∀ thread ∈ s.threads, ∀ frame ∈ thread.frames, frame.holds = false)
    (call : Caller) :
    ¬ s.Holds call := by
  rintro ⟨thread, hthread, frame, hframe, hholds⟩
  have hmem : frame ∈ thread.frames := by
    simpa using List.mem_of_getElem? hframe
  rw [h thread (Array.mem_of_getElem? hthread) frame hmem] at hholds
  cases hholds

/-- The innermost call of a thread. -/
def caller (s : System) (index : Nat) : Caller :=
  { thread := index
    depth := ((s.threads[index]?).map fun thread => thread.frames.tail.length).getD 0 }

/-- What the next step of a thread does to whom the scheduler belongs. -/
def turn? (s : System) (index : Nat) : Option Turn :=
  (s.frameAt index).bind (Frame.turn? s.world (s.caller index))

/-- The wins and releases of a run of the system, one after another. -/
def turns (s : System) : List Nat → List Turn
  | [] => []
  | index :: schedule => (s.turn? index).toList ++ (s.advance index).turns schedule

theorem turns_append
    (s : System) (first second : List Nat) :
    s.turns (first ++ second) = s.turns first ++ (s.run first).turns second := by
  induction first generalizing s with
  | nil =>
      rfl
  | cons index rest ih =>
      simp [turns, ih]

section Threads

variable {s : System} {index : Nat} {thread : Thread} {frame : Frame} {below : List Frame}

theorem At.caller_eq
    (hat : s.At index thread frame below) :
    s.caller index = ⟨index, below.length⟩ := by
  simp [caller, hat.found, hat.frames]

theorem At.turn?_eq
    (hat : s.At index thread frame below) :
    s.turn? index = frame.turn? s.world ⟨index, below.length⟩ := by
  rw [turn?, frameAt_of_at hat, hat.caller_eq]
  rfl

/-- What is held below the innermost call of a thread is not held by that call. -/
theorem At.holds_below
    (hat : s.At index thread frame below)
    {depth : Nat}
    (h : HeldIn below depth) :
    s.Holds ⟨index, depth⟩ ∧ (⟨index, depth⟩ : Caller) ≠ s.caller index := by
  refine ⟨⟨thread, hat.found, ?_⟩, ?_⟩
  · rw [hat.frames]
    exact heldIn_cons.mpr (.inl h)
  · rw [hat.caller_eq]
    have hlt := h.lt
    simp
    omega

/-- The innermost call of a thread holds the scheduler. -/
theorem At.holds_caller
    (hat : s.At index thread frame below)
    (hholds : frame.holds = true) :
    s.Holds (s.caller index) := by
  rw [hat.caller_eq]
  refine ⟨thread, hat.found, ?_⟩
  rw [hat.frames]
  exact heldIn_cons.mpr (.inr ⟨rfl, hholds⟩)

/-- Who holds the scheduler after the frames of one thread have changed. -/
theorem Holds.of_set
    {world : World} {next : Thread} {aborted : Option Error} {call : Caller}
    (h : Holds { world, threads := s.threads.setIfInBounds index next, aborted } call) :
    call.thread = index ∧ HeldIn next.frames call.depth ∨
      call.thread ≠ index ∧ s.Holds call := by
  obtain ⟨other, hother, hheld⟩ := h
  by_cases hsame : call.thread = index
  · simp only [hsame, Array.getElem?_setIfInBounds, if_true] at hother
    split at hother
    · cases hother
      exact .inl ⟨hsame, hheld⟩
    · cases hother
  · simp only [Array.getElem?_setIfInBounds_ne (Ne.symm hsame)] at hother
    exact .inr ⟨hsame, other, hother, hheld⟩

/-- The innermost call of a thread has given way to frames that hold nothing. -/
theorem At.holds_of_set
    (hat : s.At index thread frame below)
    {world : World} {next : Thread} {aborted : Option Error} {call : Caller}
    (hnext : ∀ depth, HeldIn next.frames depth → HeldIn below depth)
    (h : Holds { world, threads := s.threads.setIfInBounds index next, aborted } call) :
    s.Holds call ∧ call ≠ s.caller index := by
  rcases h.of_set with ⟨hthread, hheld⟩ | ⟨hthread, hheld⟩
  · obtain ⟨t, depth⟩ := call
    cases hthread
    exact hat.holds_below (hnext depth hheld)
  · refine ⟨hheld, fun heq => hthread ?_⟩
    rw [heq, hat.caller_eq]

/-- The innermost call of a thread has gone on, with others above that hold nothing. -/
theorem At.holds_of_go
    (hat : s.At index thread frame below)
    {world : World} {identity : Option Nat} {upper : List Frame} {last : Frame}
    {aborted : Option Error} {call : Caller}
    (hupper : ∀ frame ∈ upper, frame.holds = false)
    (h : Holds
      { world
        threads := s.threads.setIfInBounds index { frames := upper ++ [last] ++ below, identity }
        aborted } call) :
    call = s.caller index ∨ s.Holds call := by
  rcases h.of_set with ⟨hthread, hheld⟩ | ⟨hthread, hheld⟩
  · obtain ⟨t, depth⟩ := call
    cases hthread
    rw [List.append_assoc, heldIn_append hupper] at hheld
    rcases heldIn_cons.mp hheld with hold | ⟨rfl, -⟩
    · exact .inr (hat.holds_below hold).1
    · exact .inl hat.caller_eq.symm
  · exact .inr hheld

/-- A panic brings nobody to hold the scheduler. -/
theorem At.holds_of_raise
    (hat : s.At index thread frame below)
    {world : World} {identity : Option Nat} {cause : Panic} {call : Caller}
    (h : (raise world s.threads index identity below cause).Holds call) :
    s.Holds call := by
  obtain ⟨other, hother, hheld⟩ := h
  refine forall_raise
    (p := fun i thread => ∀ depth, HeldIn thread.frames depth → s.Holds ⟨i, depth⟩)
    (fun i thread hthread depth hheld => ⟨thread, hthread, hheld⟩) ?_ ?_ world identity _ _ hother
    _ hheld
  · intro _ depth hnone
    exact absurd hnone.lt (Nat.not_lt_zero _)
  · intro crew outer rest hsuffix depth hheld
    rcases heldIn_cons.mp hheld with hrest | ⟨-, hholds⟩
    · exact (hat.holds_below (hrest.suffix ((List.suffix_cons _ _).trans hsuffix))).1
    · cases hholds

/-- The workers of a region do not hold the scheduler. -/
theorem At.holds_of_recruit
    (hat : s.At index thread frame below)
    {world : World} {identity : Option Nat} {workers : List Nat} {call : Caller}
    (h : (recruit world s.threads index identity below workers).Holds call) :
    s.Holds call := by
  obtain ⟨other, hother, hheld⟩ := h
  refine forall_recruit
    (p := fun i thread => ∀ depth, HeldIn thread.frames depth → s.Holds ⟨i, depth⟩)
    (fun i thread hthread depth hheld => ⟨thread, hthread, hheld⟩)
    (fun depth hheld => (hat.holds_below hheld).1) ?_ ?_ world _ _ hother _ hheld
  · intro worker _ crew depth hheld
    rcases heldIn_cons.mp hheld with hcrew | ⟨-, hholds⟩
    · rcases heldIn_cons.mp hcrew with hbelow | ⟨-, hholds⟩
      · exact (hat.holds_below hbelow).1
      · cases hholds
    · cases hholds
  · intro i _ worker _ depth hheld
    rcases heldIn_cons.mp hheld with hnone | ⟨-, hholds⟩
    · exact absurd hnone.lt (Nat.not_lt_zero _)
    · cases hholds

end Threads

end System

/-- The frame goes on without a win or a release: what comes in its place holds the scheduler only
if the frame did. -/
inductive Move.Idle (w : World) (held : Bool) : Move → Prop where
  | go {next : World} {identity : Option Nat} {frames : List Frame}
      (hrunning : next.scheduler.running = w.scheduler.running)
      (hframes : ∀ frame ∈ frames, frame.holds = false) :
      Idle w held (.go next identity frames)
  | keep {next : World} {identity : Option Nat} {upper : List Frame} {last : Frame}
      (hrunning : next.scheduler.running = w.scheduler.running)
      (hheld : held = true)
      (hupper : ∀ frame ∈ upper, frame.holds = false) :
      Idle w held (.go next identity (upper ++ [last]))
  | fail {next : World} {cause : Failure}
      (hrunning : next.scheduler.running = w.scheduler.running) :
      Idle w held (.fail next cause)
  | recruit {next : World} {workers : List Nat}
      (hrunning : next.scheduler.running = w.scheduler.running) :
      Idle w held (.recruit next workers)
  | await {next : World} {threads : List Nat} {pending : Option Panic}
      (hrunning : next.scheduler.running = w.scheduler.running) :
      Idle w held (.await next threads pending)

section Steps

variable {w : World} {frame : Frame}

theorem Frame.holds_of_internal
    (h : frame.isInternal = true) :
    frame.holds = false := by
  cases frame with
  | run point job thunk =>
      cases point with
      | claim threads =>
          rfl
      | _ =>
          cases h
  | _ =>
      rfl

/-- The scheduler is won by a run that is not refused, and released by one that holds it. -/
theorem Frame.of_turn
    {call : Caller} {turn : Turn}
    (h : frame.turn? w call = some turn) :
    (∃ threads job thunk, frame = .run (.claim threads) job thunk ∧
        w.scheduler.refusal? threads = none ∧ turn = .won call) ∨
      ∃ job thunk, frame = .run .release job thunk ∧ turn = .released call := by
  unfold Frame.turn? at h
  split at h
  · simp only [Option.isNone_iff_eq_none, Option.ite_none_right_eq_some, Option.some.injEq] at h
    exact .inl ⟨_, _, _, rfl, h.1, h.2.symm⟩
  · simp only [Option.some.injEq] at h
    exact .inr ⟨_, _, rfl, h.symm⟩
  · cases h

theorem refusal?_eq_none
    {s : Scheduler} {threads : Nat}
    (h : s.refusal? threads = none) :
    ¬ s.dequeCount < s.asked threads ∧ s.running = false := by
  unfold Scheduler.refusal? at h
  split at h
  · cases h
  · split at h
    · cases h
    · simp_all

theorem Move.Upholds.idle
    {move : Move}
    (h : Move.Upholds w move) (held : Bool) :
    Move.Idle w held move := by
  cases h with
  | go hworld hframes =>
      rw [List.all_eq_true] at hframes
      exact .go hworld.running fun frame hframe => frame.holds_of_internal (hframes frame hframe)
  | fail hworld =>
      exact .fail hworld.running

theorem World.running_trace
    (w : World) (record : TraceRecord) :
    (w.trace record).scheduler.running = w.scheduler.running := by
  rw [scheduler_trace]

/-- A run that neither wins nor releases the scheduler. -/
theorem RunPoint.idle_step
    {call : Caller} {point : RunPoint} {job : JobId} {thunk : Bool}
    (hturn : Frame.turn? w call (.run point job thunk) = none)
    (identity : Option Nat) :
    Move.Idle w (Frame.run point job thunk).holds (point.step w identity job thunk) := by
  have hkeep : ∀ (next : World) (last : Frame),
      next.scheduler.running = w.scheduler.running → (Frame.run point job thunk).holds = true →
      Move.Idle w (Frame.run point job thunk).holds (.go next identity [last]) :=
    fun next last hrunning hheld =>
      .keep hrunning hheld (List.forall_mem_nil fun frame : Frame => frame.holds = false)
  cases point with
  | claim threads =>
      simp only [Frame.turn?, Scheduler.refusal?] at hturn
      rw [RunPoint.step_claim]
      split
      · exact .go rfl (by simp)
      · split
        · exact .go rfl (by simp)
        · simp_all
  | enqueue threads =>
      simp only [RunPoint.step]
      cases hpush : w.scheduler.push 0 job with
      | error cause =>
          rw [w.schedule_of_error _ _ hpush]
          exact .fail rfl
      | ok result =>
          rw [w.schedule_of_ok _ _ hpush]
          have hrunning := (Scheduler.Upholds.push hpush).running
          cases result.2 with
          | ok _ =>
              exact hkeep _ _ hrunning rfl
          | error cause =>
              exact .fail hrunning
  | announce threads =>
      exact hkeep _ _ (World.running_trace _ _) rfl
  | «open» threads =>
      have hregion : ∀ frame ∈ [regionFrame w.style threads identity], frame.holds = false := by
        simp only [List.mem_singleton, forall_eq, regionFrame]
        split <;> rfl
      exact .keep rfl rfl hregion
  | clear =>
      exact hkeep _ _ rfl rfl
  | reset deque =>
      simp only [RunPoint.step]
      split
      · cases hreset : w.scheduler.resetDeque deque with
        | error cause =>
            rw [w.schedule_of_error _ _ hreset]
            exact .fail rfl
        | ok result =>
            rw [w.schedule_of_ok _ _ hreset]
            exact hkeep _ _ (Scheduler.Upholds.resetDeque hreset).running rfl
      · exact hkeep _ _ rfl rfl
  | release =>
      cases hturn
  | complete =>
      simp only [RunPoint.step]
      split
      · cases w.scheduler.stats with
        | error cause =>
            exact .fail (World.running_trace _ _)
        | ok stats =>
            exact .go ((World.running_trace _ _).trans (World.running_trace _ _)) (by simp)
      · exact .go rfl (by simp)

/-- A step that neither wins nor releases the scheduler. -/
theorem Frame.idle_step
    {call : Caller}
    (hturn : frame.turn? w call = none)
    (identity : Option Nat) :
    Move.Idle w frame.holds (frame.step w identity) := by
  cases frame with
  | run point job thunk =>
      exact RunPoint.idle_step hturn identity
  | turns pending outer =>
      cases pending with
      | nil =>
          exact .go rfl (by simp)
      | cons worker pending =>
          exact .go rfl (by simp [Frame.holds])
  | recruit workers =>
      exact .recruit rfl
  | crew threads outer =>
      exact .go rfl (by simp [Frame.holds])
  | disband threads pending =>
      exact .await rfl
  | _ =>
      exact (Frame.upholds_step rfl (fun _ _ _ => Frame.noConfusion) identity).idle _

end Steps

namespace System

/-- What a step does to whom the scheduler belongs. -/
inductive Handover (s : System) (index : Nat) (t : System) : Option Turn → Prop where
  | none
      (hrunning : t.world.scheduler.running = s.world.scheduler.running)
      (hholds : ∀ call, t.Holds call → s.Holds call) :
      Handover s index t none
  | won
      (hfree : s.world.scheduler.running = false)
      (hrunning : t.world.scheduler.running = true)
      (hholds : ∀ call, t.Holds call → call = s.caller index ∨ s.Holds call) :
      Handover s index t (some (.won (s.caller index)))
  | released
      (hheld : s.Holds (s.caller index))
      (hrunning : t.world.scheduler.running = false)
      (hholds : ∀ call, t.Holds call → s.Holds call ∧ call ≠ s.caller index) :
      Handover s index t (some (.released (s.caller index)))

variable {s : System} {index : Nat}

theorem running_raise
    (w : World) (threads : Array Thread) (index : Nat) (identity : Option Nat)
    (below : List Frame) (cause : Panic) :
    (raise w threads index identity below cause).world.scheduler.running =
      w.scheduler.running := by
  unfold raise
  split
  · rfl
  · rfl
  · exact World.running_trace _ _

/-- A step of a frame that neither wins nor releases the scheduler. -/
theorem handover_none
    (hturn : s.turn? index = none) :
    Handover s index (s.advance index) none := by
  have hstep : ∀ {thread frame below move}, s.At index thread frame below →
      frame.step s.world thread.identity = move → Move.Idle s.world frame.holds move := by
    intro thread frame below move hat hmove
    rw [hat.turn?_eq] at hturn
    exact hmove ▸ Frame.idle_step hturn thread.identity
  have hadvances := s.advances index
  generalize s.advance index = t at hadvances ⊢
  cases hadvances with
  | rest hframe =>
      exact .none rfl fun _ => id
  | go hat hmove =>
      cases hstep hat hmove with
      | go hrunning hframes =>
          refine .none hrunning fun call hcall => ?_
          exact (hat.holds_of_set (fun _ => (heldIn_append hframes).mp) hcall).1
      | keep hrunning hheld hupper =>
          refine .none hrunning fun call hcall => ?_
          rcases hat.holds_of_go hupper hcall with rfl | hold
          · exact hat.holds_caller hheld
          · exact hold
  | error hat hmove =>
      cases hstep hat hmove with
      | fail hrunning =>
          exact .none ((World.running_trace _ _).trans hrunning) fun _ => id
  | panic hat hmove =>
      cases hstep hat hmove with
      | fail hrunning =>
          exact .none ((running_raise _ _ _ _ _ _).trans hrunning) fun _ => hat.holds_of_raise
  | recruit hat hmove =>
      cases hstep hat hmove with
      | recruit hrunning =>
          refine .none ?_ fun _ => hat.holds_of_recruit
          unfold System.recruit
          split <;> exact hrunning
  | busy hat hmove hbusy =>
      cases hstep hat hmove with
      | await hrunning =>
          exact .none hrunning fun _ => id
  | closed hat hmove hover hcalm =>
      cases hstep hat hmove with
      | await hrunning =>
          exact .none hrunning fun call hcall => (hat.holds_of_set (fun _ => id) hcall).1
  | passed hat hmove hover hpanic =>
      cases hstep hat hmove with
      | await hrunning =>
          exact .none ((running_raise _ _ _ _ _ _).trans hrunning) fun _ => hat.holds_of_raise

/-- Each step leaves the scheduler to whom has it, wins it when nobody has it, or is its release by
whom has it. -/
theorem handover
    (s : System) (index : Nat) :
    Handover s index (s.advance index) (s.turn? index) := by
  cases hturn : s.turn? index with
  | none =>
      exact handover_none hturn
  | some turn =>
      obtain ⟨frame, hframe, hof⟩ := Option.bind_eq_some_iff.mp hturn
      obtain ⟨thread, below, hat⟩ := exists_at hframe
      rcases Frame.of_turn hof with
        ⟨threads, job, thunk, rfl, hrefusal, rfl⟩ | ⟨job, thunk, rfl, rfl⟩
      · obtain ⟨hroom, hfree⟩ := refusal?_eq_none hrefusal
        have hmove : (Frame.run (.claim threads) job thunk).step s.world thread.identity =
            .go { s.world with scheduler := { s.world.scheduler with running := true } }
              thread.identity [.run (.enqueue (s.world.scheduler.asked threads)) job thunk] := by
          simp [Frame.step, RunPoint.step_claim, hroom, hfree]
        rw [advance_of_go hat.going hat.found hat.frames hmove]
        exact .won hfree rfl fun call => hat.holds_of_go (List.forall_mem_nil _)
      · rw [advance_of_go hat.going hat.found hat.frames rfl]
        refine .released (hat.holds_caller rfl) rfl fun call hcall => ?_
        refine hat.holds_of_set (fun depth hheld => ?_) hcall
        have hcomplete : ∀ frame ∈ [Frame.run .complete job thunk], frame.holds = false := by
          simp [Frame.holds]
        exact (heldIn_append hcomplete).mp hheld

/-- Who has the scheduler after a run of the system, if nobody holds it before. -/
structure Leased (s : System) (schedule : List Nat) (owner : Option Caller) : Prop where
  /-- Wins and releases have taken turns, and this is who has won last without a release. -/
  tenancy : Tenancy (s.turns schedule) owner
  /-- Nobody else is between a win and a release. -/
  holder : ∀ call, (s.run schedule).Holds call → owner = some call
  running : owner ≠ none → (s.run schedule).world.scheduler.running = true

theorem Leased.owner_eq_none
    {schedule : List Nat} {owner : Option Caller}
    (h : s.Leased schedule owner)
    (hfree : (s.run schedule).world.scheduler.running = false) :
    owner = none := by
  cases owner with
  | none =>
      rfl
  | some call =>
      rw [h.running (by simp)] at hfree
      cases hfree

/-- One more step. -/
theorem Leased.step
    {schedule : List Nat} {owner : Option Caller}
    (h : s.Leased schedule owner)
    (index : Nat) :
    ∃ next, s.Leased (schedule ++ [index]) next := by
  have hhandover := (s.run schedule).handover index
  have hturns : s.turns (schedule ++ [index]) =
      s.turns schedule ++ ((s.run schedule).turn? index).toList := by
    simp [turns_append, turns]
  have hrun : s.run (schedule ++ [index]) = (s.run schedule).advance index := by
    simp [run_append]
  generalize (s.run schedule).turn? index = turn at hhandover hturns
  cases hhandover with
  | none hrunning hholds =>
      refine ⟨owner, ?_, ?_, ?_⟩
      · simpa [hturns] using h.tenancy
      · intro call hcall
        rw [hrun] at hcall
        exact h.holder call (hholds call hcall)
      · intro hsome
        rw [hrun, hrunning]
        exact h.running hsome
  | won hfree hrunning hholds =>
      obtain rfl : owner = none := h.owner_eq_none hfree
      refine ⟨_, by rw [hturns]; exact .won _ h.tenancy, ?_, ?_⟩
      · intro call hcall
        rw [hrun] at hcall
        rcases hholds call hcall with rfl | hold
        · rfl
        · cases h.holder call hold
      · intro _
        rw [hrun, hrunning]
  | released hheld hrunning hholds =>
      have howner := h.holder _ hheld
      subst howner
      refine ⟨none, by rw [hturns]; exact .released h.tenancy, ?_, fun hsome => absurd rfl hsome⟩
      intro call hcall
      rw [hrun] at hcall
      obtain ⟨hold, hne⟩ := hholds call hcall
      exact absurd (Option.some.inj (h.holder call hold)).symm hne

/-- Wins and releases take turns, whatever the threads do and in whatever order. -/
theorem exists_leased
    (hfree : ∀ call, ¬ s.Holds call)
    (schedule : List Nat) :
    ∃ owner, s.Leased schedule owner := by
  induction schedule using List.reverseRecOn with
  | nil =>
      exact ⟨none, .free, fun call hcall => absurd hcall (hfree call),
        fun hsome => absurd rfl hsome⟩
  | append_singleton schedule index ih =>
      obtain ⟨owner, howner⟩ := ih
      exact howner.step index

/-- A call that holds the scheduler has held it ever since it has won it, and in between nobody has
won or released it. -/
theorem held_since
    (hfree : ∀ call, ¬ s.Holds call)
    (schedule : List Nat)
    {call : Caller}
    (hcall : (s.run schedule).Holds call) :
    ∃ before after, schedule = before ++ call.thread :: after ∧
      (s.run before).turn? call.thread = some (.won call) ∧
      (s.run (before ++ [call.thread])).turns after = [] ∧
      ∀ first, first <+: after → (s.run (before ++ call.thread :: first)).Holds call := by
  induction schedule using List.reverseRecOn with
  | nil =>
      exact absurd hcall (hfree call)
  | append_singleton schedule index ih =>
      have hhandover := (s.run schedule).handover index
      obtain ⟨owner, howner⟩ := exists_leased hfree schedule
      have hrun : s.run (schedule ++ [index]) = (s.run schedule).advance index := by
        simp [run_append]
      have hstayed : (s.run schedule).turn? index = none → (s.run schedule).Holds call →
          ∃ before after, schedule ++ [index] = before ++ call.thread :: after ∧
            (s.run before).turn? call.thread = some (.won call) ∧
            (s.run (before ++ [call.thread])).turns after = [] ∧
            ∀ first, first <+: after → (s.run (before ++ call.thread :: first)).Holds call := by
        intro hturn hbefore
        obtain ⟨before, after, rfl, hwon, hquiet, hsince⟩ := ih hbefore
        refine ⟨before, after ++ [index], by simp, hwon, ?_, fun first hfirst => ?_⟩
        · rw [turns_append, hquiet]
          have hlast : (s.run (before ++ [call.thread])).run after =
              s.run (before ++ call.thread :: after) := by
            simp [← run_append]
          simp [turns, hlast, hturn]
        · rcases List.prefix_concat_iff.mp hfirst with rfl | hfirst
          · simpa [hrun, run_append] using hcall
          · exact hsince first hfirst
      generalize hturn : (s.run schedule).turn? index = turn at hhandover
      rw [hrun] at hcall
      cases hhandover with
      | none hrunning hholds =>
          exact hstayed hturn (hholds call hcall)
      | won hfree hrunning hholds =>
          rcases hholds call hcall with rfl | hold
          · refine ⟨schedule, [], rfl, hturn, rfl, fun first hfirst => ?_⟩
            rw [List.prefix_nil.mp hfirst]
            exact hrun ▸ hcall
          · have hnone := howner.owner_eq_none hfree
            have hsome := howner.holder call hold
            rw [hnone] at hsome
            cases hsome
      | released hheld hrunning hholds =>
          obtain ⟨hold, hne⟩ := hholds call hcall
          have hsame := (howner.holder _ hheld).symm.trans (howner.holder call hold)
          exact absurd (Option.some.inj hsame).symm hne

end System
end Machine
end WorkStealing
