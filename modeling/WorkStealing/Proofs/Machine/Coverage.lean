import WorkStealing.Proofs.Runs.Upkeep

/-!
# What holds of all code

A property of actions holds of a whole system when it holds of each action in the
code of the jobs and in what is left of the code that threads perform, at any
depth. Steps take code apart, but make up no more than the entries that jobs and
workers write in their own books. So if the property holds of those, each step keeps
it (`System.everywhere_advance`).
-/

namespace WorkStealing

mutual

/-- The property holds of the action; of one that is made of code, at any depth in the code. -/
def Action.Everywhere (p : Action → Prop) : Action → Prop
  | .fork left right => Code.Everywhere p left ∧ Code.Everywhere p right
  | .repeated _ body => Code.Everywhere p body
  | .asWorker _ body => Code.Everywhere p body
  | .runThunk body _ => Code.Everywhere p body
  | action => p action

def Code.Everywhere (p : Action → Prop) : List Action → Prop
  | [] => True
  | action :: rest => Action.Everywhere p action ∧ Code.Everywhere p rest

end

variable {p : Action → Prop}

/-- The property holds of all actions that steps add to the code of a program, where there are so
many deques. -/
structure Admits (p : Action → Prop) (deques : Nat) : Prop where
  store : ∀ cell constant sources, p (.store cell constant sources)
  start : ∀ job, p (.start job)
  complete : ∀ job, p (.complete job)
  finish : p .finish
  answer : ∀ calculation first, p (.answer calculation first)
  emit : ∀ event, p (.emit event)
  bump : ∀ place counter, place < deques → p (.bump place counter)

namespace Code

@[simp] theorem everywhere_nil :
    Everywhere p [] := by
  trivial

@[simp] theorem everywhere_cons
    {action : Action} {rest : Code} :
    Everywhere p (action :: rest) ↔ action.Everywhere p ∧ Everywhere p rest := by
  rfl

@[simp] theorem everywhere_append
    {first second : Code} :
    Everywhere p (first ++ second) ↔ Everywhere p first ∧ Everywhere p second := by
  induction first with
  | nil =>
      simp
  | cons action rest ih =>
      simp [ih, and_assoc]

end Code

namespace Admits

variable {deques : Nat}

theorem branchBody
    (h : Admits p deques)
    {branch : Code}
    (hbranch : Code.Everywhere p branch)
    (job : JobId) :
    Code.Everywhere p (Action.branchBody job branch) := by
  simp [Action.branchBody, Action.Everywhere, hbranch, h.start, h.complete]

theorem rootBody
    (h : Admits p deques)
    {thunk : Code}
    (hthunk : Code.Everywhere p thunk) :
    Code.Everywhere p (Action.rootBody thunk) := by
  simp [Action.rootBody, Action.Everywhere, hthunk, h.finish]

section Calculation

open Calculation (Layout)

theorem addBranches
    (h : Admits p deques)
    {left right : Nat → Nat → Layout}
    (hleft : ∀ result free, Code.Everywhere p (left result free).code)
    (hright : ∀ result free, Code.Everywhere p (right result free).code)
    (result free : Nat) :
    Code.Everywhere p (Layout.addBranches result free left right).code := by
  simp [Layout.addBranches, Action.Everywhere, hleft, hright, h.store]

theorem fibLayout
    (h : Admits p deques)
    (n result free : Nat) :
    Code.Everywhere p (Calculation.fibLayout n result free).code := by
  induction n using Nat.strongRecOn generalizing result free with
  | ind n ih =>
      match n with
      | 0 | 1 =>
          simp [Calculation.fibLayout, Action.Everywhere, h.store]
      | n + 2 =>
          rw [Calculation.fibLayout]
          exact h.addBranches (ih (n + 1) (by omega)) (ih n (by omega)) result free

theorem sumLayout
    (h : Admits p deques)
    (leaf : Nat) (data : List UInt64) (result free : Nat) :
    Code.Everywhere p (Calculation.sumLayout leaf data result free).code := by
  induction hlength : data.length using Nat.strongRecOn generalizing data result free with
  | ind length ih =>
      rw [Calculation.sumLayout]
      split
      · simp [Action.Everywhere, h.store]
      · refine h.addBranches (ih (data.length / 2) (by omega) _ · · ?_)
          (ih (data.length - data.length / 2) (by omega) _ · · ?_) result free
        · simp only [List.length_take]
          omega
        · simp only [List.length_drop]

theorem incrementCode
    (h : Admits p deques)
    (first count : Nat) :
    Code.Everywhere p (Calculation.incrementCode first count) := by
  induction first, count using Calculation.incrementCode.induct with
  | case1 first count hfew =>
      have hcells : ∀ cells : List Nat,
          Code.Everywhere p (cells.map fun i => .store (first + i) 1 [first + i]) := by
        intro cells
        induction cells with
        | nil =>
            trivial
        | cons i rest ih =>
            exact ⟨h.store _ _ _, ih⟩
      rw [Calculation.incrementCode, dif_pos hfew]
      exact hcells _
  | case2 first count hmany ihleft ihright =>
      rw [Calculation.incrementCode, dif_neg hmany]
      exact ⟨⟨ihleft, ihright⟩, trivial⟩

theorem chainCode
    (leftSide : Bool) (depth : Nat) :
    Code.Everywhere p (Calculation.chainCode leftSide depth) := by
  induction depth with
  | zero =>
      trivial
  | succ depth ih =>
      cases leftSide <;> simp [Calculation.chainCode, Action.Everywhere, ih]

/-- The code of a calculation stores and forks only. -/
theorem layout
    (h : Admits p deques)
    (calculation : Calculation) (first : Nat) :
    Code.Everywhere p (calculation.layout first).code := by
  cases calculation with
  | fib n =>
      exact h.fibLayout n _ _
  | sum data leaf =>
      exact h.sumLayout leaf data _ _
  | increment data =>
      exact h.incrementCode _ _
  | chain depth leftSide =>
      exact chainCode leftSide depth

end Calculation

end Admits

namespace Machine

/-- A loop that ends with a condition stands for the wait that it came from. -/
def Stop.Everywhere (p : Action → Prop) : Stop → Prop
  | .condition test => p (.wait test)
  | _ => True

def Frame.Everywhere (p : Action → Prop) : Frame → Prop
  | .perform rest => Code.Everywhere p rest
  | .fork _ _ _ left => Code.Everywhere p left
  | .loop _ _ stop _ => stop.Everywhere p
  | .poll stop _ => stop.Everywhere p
  | _ => True

def World.Everywhere (p : Action → Prop) (w : World) : Prop :=
  ∀ body ∈ w.bodies, Code.Everywhere p body

def Thread.Everywhere (p : Action → Prop) (thread : Thread) : Prop :=
  ∀ frame ∈ thread.frames, frame.Everywhere p

/-- The property holds of all code of the system. -/
structure System.Everywhere (p : Action → Prop) (s : System) : Prop where
  bodies : s.world.Everywhere p
  frames : ∀ thread ∈ s.threads, ∀ frame ∈ thread.frames, frame.Everywhere p

inductive Move.Everywhere (p : Action → Prop) : Move → Prop where
  | go {next : World} {identity : Option Nat} {frames : List Frame}
      (hworld : next.Everywhere p)
      (hframes : ∀ frame ∈ frames, frame.Everywhere p) :
      Everywhere p (.go next identity frames)
  | fail {next : World} {cause : Failure}
      (hworld : next.Everywhere p) :
      Everywhere p (.fail next cause)
  | recruit {next : World} {workers : List Nat}
      (hworld : next.Everywhere p) :
      Everywhere p (.recruit next workers)
  | await {next : World} {threads : List Nat} {pending : Option Panic}
      (hworld : next.Everywhere p) :
      Everywhere p (.await next threads pending)

namespace Move.Everywhere

variable {w : World}

/-- The thread goes on with one frame. -/
theorem one
    {identity : Option Nat} {frame : Frame}
    (hworld : w.Everywhere p)
    (hframe : frame.Everywhere p) :
    Move.Everywhere p (.go w identity [frame]) :=
  .go hworld (by simpa using hframe)

/-- The thread goes on with two frames. -/
theorem two
    {identity : Option Nat} {frame below : Frame}
    (hworld : w.Everywhere p)
    (hframe : frame.Everywhere p)
    (hbelow : below.Everywhere p) :
    Move.Everywhere p (.go w identity [frame, below]) :=
  .go hworld (by simpa using ⟨hframe, hbelow⟩)

theorem none
    {identity : Option Nat}
    (hworld : w.Everywhere p) :
    Move.Everywhere p (.go w identity []) :=
  .go hworld (by simp)

/-- An operation of the scheduler changes no code. -/
theorem schedule
    {β : Type} {operation : Scheduler → Except Failure (Scheduler × β)}
    {continuation : World → β → Move}
    (hworld : w.Everywhere p)
    (hnext : ∀ scheduler answer, Move.Everywhere p (continuation { w with scheduler } answer)) :
    Move.Everywhere p (w.schedule operation continuation) := by
  unfold World.schedule
  split
  · exact .fail hworld
  · exact hnext _ _

end Move.Everywhere

section Steps

variable {w : World}

theorem World.Everywhere.trace
    (h : w.Everywhere p) (record : TraceRecord) :
    (w.trace record).Everywhere p := by
  rcases w.trace_cases record with heq | heq <;> rw [heq] <;> exact h

theorem World.Everywhere.addJob
    (h : w.Everywhere p)
    {body : JobId → Code}
    (hbody : ∀ job, Code.Everywhere p (body job)) :
    (w.addJob body).1.Everywhere p := by
  intro code hcode
  rcases Array.mem_push.mp hcode with hold | rfl
  · exact h code hold
  · exact hbody _

theorem Stop.everywhere_leave
    (h : w.Everywhere p) (stop : Stop) (evaluations worker : Nat) :
    (stop.leave evaluations worker w).Everywhere p := by
  cases stop with
  | finished =>
      exact h.trace _
  | jobDone job | condition test =>
      exact h

/-- A frame asks whether to end. -/
theorem everywhere_ask
    (h : w.Everywhere p)
    (identity : Option Nat) (stop : Stop) (evaluation worker : Nat) {frame : Frame}
    (hframe : frame.Everywhere p) :
    Move.Everywhere p
      (match stop.holds evaluation w.toMemory with
        | .error cause => .fail w (.panic cause)
        | .ok true => .go (stop.leave evaluation worker w) identity []
        | .ok false => .go w identity [frame]) := by
  split
  · exact .fail h
  · exact .none (stop.everywhere_leave h _ _)
  · exact .one h hframe

theorem LoopPoint.everywhere_step
    (h : w.Everywhere p)
    (identity : Option Nat) (worker : Nat)
    {stop : Stop}
    (hstop : stop.Everywhere p)
    (evaluations : Nat) (point : LoopPoint) :
    Move.Everywhere p (point.step w identity worker stop evaluations) := by
  have hone : ∀ (next : World) (point : LoopPoint) (evaluations : Nat), next.Everywhere p →
      Move.Everywhere p (.go next identity [.loop point worker stop evaluations]) :=
    fun next point evaluations hnext => .one hnext hstop
  cases point with
  | poll =>
      exact everywhere_ask h identity stop _ worker hstop
  | pop | steal left target =>
      simp only [LoopPoint.step]
      refine .schedule h fun scheduler answer => ?_
      cases answer <;> exact hone _ _ _ h
  | trial left =>
      cases left with
      | zero =>
          simp only [LoopPoint.step]
          exact .schedule h fun _ _ => hone _ _ _ h
      | succ left =>
          exact everywhere_ask h identity stop _ worker hstop
  | advance left attempt =>
      simp only [LoopPoint.step]
      refine .schedule h fun scheduler _ => ?_
      split
      · exact .fail h
      · exact hone _ _ _ h
  | popped job | aim left | count left target | stolen job =>
      simp only [LoopPoint.step]
      exact .schedule h fun _ _ => hone _ _ _ h
  | dispatch job =>
      simp only [LoopPoint.step]
      exact .schedule h fun _ _ => .two h trivial hstop

theorem everywhere_waitFrame
    (scheduler : Scheduler) (identity : Option Nat) {stop : Stop}
    (hstop : stop.Everywhere p) :
    (waitFrame scheduler identity stop).Everywhere p := by
  unfold waitFrame
  split <;> exact hstop

/-- A job is pushed that must be pushed. -/
theorem everywhere_push
    (h : w.Everywhere p)
    {place : Nat} {job : JobId} {identity : Option Nat} {frame : Frame}
    (hframe : frame.Everywhere p) :
    Move.Everywhere p
      (w.schedule (·.push place job) fun next outcome =>
        mustPush next outcome (.go next identity [frame])) := by
  refine .schedule h fun scheduler outcome => ?_
  cases outcome with
  | ok _ =>
      exact .one h hframe
  | error cause =>
      exact .fail h

theorem ForkPoint.everywhere_step
    (h : w.Everywhere p)
    (identity : Option Nat) (worker : Nat) (right : JobId)
    {left : Code}
    (hleft : Code.Everywhere p left)
    (point : ForkPoint) :
    Move.Everywhere p (point.step w identity worker right left) := by
  have hone : ∀ (next : World) (point : ForkPoint), next.Everywhere p →
      Move.Everywhere p (.go next identity [.fork point worker right left]) :=
    fun next point hnext => .one hnext hleft
  cases point with
  | publish | putBack job =>
      simp only [ForkPoint.step]
      exact everywhere_push h hleft
  | published =>
      simp only [ForkPoint.step]
      exact .schedule h fun _ _ => .two h hleft trivial
  | check =>
      simp only [ForkPoint.step]
      split <;> exact hone _ _ h
  | reclaim =>
      simp only [ForkPoint.step]
      refine .schedule h fun _ answer => ?_
      cases answer <;> exact hone _ _ h
  | reclaimed job =>
      simp only [ForkPoint.step]
      refine .schedule h fun _ _ => ?_
      split <;> exact hone _ _ h
  | inlineJoin =>
      simp only [ForkPoint.step]
      exact .schedule h fun _ _ => .two h trivial trivial
  | putBackCount =>
      simp only [ForkPoint.step]
      exact .schedule h fun _ _ => hone _ _ h
  | stolenJoin =>
      simp only [ForkPoint.step]
      refine .schedule h fun _ _ => .two h (everywhere_waitFrame _ _ ?_) trivial
      trivial
  | closing =>
      exact .none h

theorem RunPoint.everywhere_step
    (h : w.Everywhere p)
    (identity : Option Nat) (job : JobId) (thunk : Bool) (point : RunPoint) :
    Move.Everywhere p (point.step w identity job thunk) := by
  cases point with
  | claim threads =>
      rw [RunPoint.step_claim]
      split
      · exact .none h
      · split
        · exact .none h
        · exact .one h trivial
  | enqueue threads =>
      simp only [RunPoint.step]
      exact everywhere_push h trivial
  | announce threads =>
      exact .one (World.Everywhere.trace (w := { w with
        scheduler := { w.scheduler with activeWorkers := threads } }) h _) trivial
  | «open» threads =>
      refine .two h ?_ trivial
      unfold regionFrame
      split <;> trivial
  | clear | release =>
      exact .one h trivial
  | reset deque =>
      simp only [RunPoint.step]
      split
      · exact .schedule h fun _ _ => .one h trivial
      · exact .one h trivial
  | complete =>
      simp only [RunPoint.step]
      split
      · cases w.scheduler.stats with
        | error cause =>
            exact .fail (h.trace _)
        | ok stats =>
            have htraced := h.trace .complete
            exact .none (htraced.trace (.statistics stats))
      · exact .none h

/-- The deque of a worker is one of the deques. -/
theorem lt_of_workerOf
    {s : Scheduler} {identity : Option Nat} {worker : Nat}
    (h : s.workerOf identity = some worker) :
    identity = some worker ∧ worker < s.dequeCount := by
  simpa [Scheduler.workerOf, Option.filter_eq_some_iff] using h

variable (hadmits : Admits p w.scheduler.dequeCount)
include hadmits

theorem everywhere_spawnStep
    (h : w.Everywhere p)
    (identity : Option Nat) (job : JobId) (report : Outcome → Event)
    {rest : Code}
    (hrest : Code.Everywhere p rest) :
    Move.Everywhere p (spawnStep w identity job report rest) := by
  unfold spawnStep
  cases hworker : w.scheduler.workerOf identity with
  | none =>
      exact .one h hrest
  | some worker =>
      have hbump := hadmits.bump worker .jobsSpawned (lt_of_workerOf hworker).2
      have hcode : Code.Everywhere p
          (.bump worker .jobsSpawned :: .emit (report (.ok ())) :: rest) :=
        ⟨hbump, hadmits.emit _, hrest⟩
      exact everywhere_push h hcode

omit hadmits in
theorem everywhere_dequeStep
    {β : Type}
    (h : w.Everywhere p)
    (identity : Option Nat) (deque : Nat)
    (operation : Scheduler → Except Failure (Scheduler × β)) (report : Option β → Event)
    {note : World → β → World}
    (hnote : ∀ next answer, (note next answer).bodies = next.bodies)
    {rest : Code}
    (hrest : Code.Everywhere p rest) :
    Move.Everywhere p (dequeStep w identity deque operation report note rest) := by
  unfold dequeStep
  split
  · refine .schedule h fun scheduler answer => .one ?_ hrest
    intro body hbody
    have hold : body ∈ (note { w with scheduler } answer).bodies := hbody
    rw [hnote] at hold
    exact h body hold
  · exact .one h hrest

omit hadmits in
theorem bodies_intoHand
    (w : World) (job : Option JobId) :
    (intoHand w job).bodies = w.bodies := by
  cases job <;> rfl

theorem Action.everywhere_step
    (h : w.Everywhere p)
    (identity : Option Nat)
    {rest : Code} {action : Action}
    (haction : action.Everywhere p)
    (hrest : Code.Everywhere p rest) :
    Move.Everywhere p (Action.step w identity rest action) := by
  have hone : ∀ next : World, next.Everywhere p →
      Move.Everywhere p (.go next identity [.perform rest]) :=
    fun next hnext => .one hnext hrest
  cases action with
  | log label | store cell constant sources | answer calculation first | start job | complete job
  | began job | ended job | joined | finish | showDeque deque | resetStats | info | describe
  | emit event =>
      exact hone _ h
  | panic text =>
      exact .fail h
  | execute job | run job threads =>
      simp only [Action.step]
      exact .two h trivial hrest
  | fork left right =>
      simp only [Action.step]
      cases w.scheduler.workerOf identity with
      | none =>
          exact .go h (by simpa [Frame.Everywhere] using ⟨haction.1, haction.2, hrest⟩)
      | some worker =>
          exact .two (h.addJob (hadmits.branchBody haction.2)) haction.1 hrest
  | repeated times body =>
      cases times with
      | zero =>
          exact hone _ h
      | succ times =>
          have hcode : Code.Everywhere p (.repeated times body :: rest) := ⟨haction, hrest⟩
          simp only [Action.step]
          exact .two h haction hcode
  | asWorker other body =>
      have hcode : Code.Everywhere p body := haction
      simp only [Action.step]
      exact .go h (by simpa [Frame.Everywhere] using ⟨hcode, hrest⟩)
  | calculate calculation =>
      have hlayout := hadmits.layout calculation w.cells.size
      have hcode : Code.Everywhere p (.answer calculation w.cells.size :: rest) :=
        ⟨hadmits.answer _ _, hrest⟩
      simp only [Action.step]
      exact .two h hlayout hcode
  | runThunk body threads =>
      simp only [Action.step]
      exact .two (h.addJob fun _ => hadmits.rootBody haction) trivial hrest
  | spawn job =>
      exact everywhere_spawnStep hadmits h identity job _ hrest
  | takeBack =>
      simp only [Action.step]
      cases hworker : w.scheduler.workerOf identity with
      | none =>
          exact hone _ h
      | some worker =>
          have hbump := hadmits.bump worker .localPops (lt_of_workerOf hworker).2
          refine .schedule h fun _ answer => ?_
          cases answer with
          | none =>
              exact hone _ h
          | some job =>
              have hcode : Code.Everywhere p
                  (.bump worker .localPops :: .emit (.tookBack (some job)) :: rest) :=
                ⟨hbump, hadmits.emit _, hrest⟩
              exact .one h hcode
  | wait condition =>
      simp only [Action.step]
      refine .two h (everywhere_waitFrame _ _ ?_) hrest
      exact haction
  | push deque job =>
      exact everywhere_dequeStep h identity deque _ _ (fun _ _ => rfl) hrest
  | pop deque =>
      exact everywhere_dequeStep h identity deque _ _ bodies_intoHand hrest
  | steal deque =>
      exact everywhere_dequeStep h identity deque _ _ bodies_intoHand hrest
  | resetDeque deque =>
      simp only [Action.step]
      exact everywhere_dequeStep h identity deque _ _ (fun _ _ => rfl) hrest
  | handExecute =>
      simp only [Action.step]
      split
      · exact hone _ h
      · exact .two h trivial hrest
  | handSpawn =>
      simp only [Action.step]
      cases w.hand with
      | nil =>
          exact hone _ h
      | cons job hand =>
          have hworld : World.Everywhere p { w with hand } := h
          exact everywhere_spawnStep (w := { w with hand }) hadmits hworld identity job _ hrest
  | handPush deque =>
      simp only [Action.step]
      cases w.hand with
      | nil =>
          exact hone _ h
      | cons job hand =>
          have hworld : World.Everywhere p { w with hand } := h
          exact everywhere_dequeStep hworld identity deque _ _ (fun _ _ => rfl) hrest
  | stats =>
      simp only [Action.step]
      split
      · exact .fail h
      · exact hone _ h
  | bump place counter =>
      simp only [Action.step]
      exact .schedule h fun _ _ => hone _ h

/-- Every step leads to code of which the property holds. -/
theorem Frame.everywhere_step
    (h : w.Everywhere p)
    (identity : Option Nat) {frame : Frame}
    (hframe : frame.Everywhere p) :
    Move.Everywhere p (frame.step w identity) := by
  cases frame with
  | perform code =>
      cases code with
      | nil =>
          exact .none h
      | cons action rest =>
          exact Action.everywhere_step hadmits h identity hframe.1 hframe.2
  | execute job =>
      simp only [Frame.step]
      split
      next flags body _ hbody =>
        split
        · exact .fail h
        · exact .two h (h body (Array.mem_of_getElem? hbody)) trivial
      next =>
        exact .fail h
  | guarded job | restore outer =>
      exact .none h
  | crew threads outer =>
      simp only [Frame.step]
      exact .one h trivial
  | fork point worker right left =>
      exact point.everywhere_step h identity worker right hframe
  | loop point worker stop evaluations =>
      exact point.everywhere_step h identity worker hframe evaluations
  | poll stop evaluations =>
      exact everywhere_ask h identity stop _ 0 hframe
  | run point job thunk =>
      exact point.everywhere_step h identity job thunk
  | turns pending outer =>
      cases pending with
      | nil =>
          exact .none h
      | cons worker pending =>
          simp only [Frame.step]
          exact .two h trivial trivial
  | recruit workers =>
      exact .recruit h
  | disband threads pending =>
      exact .await h

end Steps

namespace System

variable {s : System}

/-- One thread has other code now. -/
theorem Everywhere.set
    (h : s.Everywhere p)
    {w : World}
    (hworld : w.Everywhere p)
    (index : Nat) {thread : Thread}
    (hthread : thread.Everywhere p)
    (aborted : Option Error) :
    Everywhere p { world := w, threads := s.threads.setIfInBounds index thread, aborted } :=
  ⟨hworld, forall_mem (forall_set (fun _ other hother => h.frames other
    (Array.mem_of_getElem? hother)) hthread)⟩

theorem everywhere_raise
    {w : World} {threads : Array Thread}
    (hworld : w.Everywhere p)
    (hthreads : ∀ (i : Nat) thread, threads[i]? = some thread → thread.Everywhere p)
    (index : Nat) (identity : Option Nat) {below : List Frame}
    (hbelow : ∀ frame ∈ below, frame.Everywhere p)
    (cause : Panic) :
    (raise w threads index identity below cause).Everywhere p := by
  refine ⟨?_, forall_mem (forall_raise hthreads ?_ ?_ w identity)⟩
  · simpa [World.Everywhere, bodies_raise] using hworld
  · simp [Thread.Everywhere]
  · intro crew outer rest hsuffix
    have hrest : rest <:+ below := (List.suffix_cons _ _).trans hsuffix
    exact List.forall_mem_cons.mpr ⟨trivial, fun frame hframe => hbelow frame (hrest.subset hframe)⟩

theorem everywhere_recruit
    {w : World} {threads : Array Thread}
    (hworld : w.Everywhere p)
    (hthreads : ∀ (i : Nat) thread, threads[i]? = some thread → thread.Everywhere p)
    (index : Nat) (identity : Option Nat) {below : List Frame}
    (hbelow : ∀ frame ∈ below, frame.Everywhere p)
    (workers : List Nat) :
    (recruit w threads index identity below workers).Everywhere p := by
  have hworker : ∀ worker, (workerFrame worker).Everywhere p :=
    fun worker => trivial
  refine ⟨?_, forall_mem (forall_recruit hthreads hbelow ?_ ?_ w)⟩
  · simpa [World.Everywhere, bodies_recruit] using hworld
  · intro worker _ crew
    exact List.forall_mem_cons.mpr ⟨hworker worker, List.forall_mem_cons.mpr ⟨trivial, hbelow⟩⟩
  · intro i _ worker _
    simpa [Thread.Everywhere, workerThread] using hworker worker

/-- What holds of all code of a system holds of all code after a step. -/
theorem everywhere_advance
    (hadmits : Admits p s.world.scheduler.dequeCount)
    (h : s.Everywhere p)
    (index : Nat) :
    (s.advance index).Everywhere p := by
  have hthreads : ∀ (i : Nat) thread, s.threads[i]? = some thread → thread.Everywhere p :=
    fun _ thread hthread => h.frames thread (Array.mem_of_getElem? hthread)
  have hstep : ∀ {thread frame below move}, s.At index thread frame below →
      frame.step s.world thread.identity = move →
      Move.Everywhere p move ∧ ∀ other ∈ below, other.Everywhere p := by
    intro thread frame below move hat hmove
    subst hmove
    have hall := hthreads index thread hat.found
    rw [Thread.Everywhere, hat.frames, List.forall_mem_cons] at hall
    exact ⟨Frame.everywhere_step hadmits h.bodies thread.identity hall.1, hall.2⟩
  have hadvances := s.advances index
  generalize s.advance index = t at hadvances ⊢
  cases hadvances with
  | rest hframe =>
      exact h
  | go hat hmove =>
      obtain ⟨hnext, hbelow⟩ := hstep hat hmove
      cases hnext with
      | go hworld hnew =>
          refine h.set hworld index ?_ _
          exact fun frame hmem => (List.mem_append.mp hmem).elim (hnew _) (hbelow _)
  | error hat hmove =>
      obtain ⟨hnext, -⟩ := hstep hat hmove
      cases hnext with
      | fail hworld =>
          exact ⟨hworld.trace _, h.frames⟩
  | panic hat hmove =>
      obtain ⟨hnext, hbelow⟩ := hstep hat hmove
      cases hnext with
      | fail hworld =>
          exact everywhere_raise hworld hthreads index _ hbelow _
  | recruit hat hmove =>
      obtain ⟨hnext, hbelow⟩ := hstep hat hmove
      cases hnext with
      | recruit hworld =>
          exact everywhere_recruit hworld hthreads index _ hbelow _
  | busy hat hmove hbusy =>
      obtain ⟨hnext, -⟩ := hstep hat hmove
      cases hnext with
      | await hworld =>
          exact ⟨hworld, h.frames⟩
  | closed hat hmove hover hcalm =>
      obtain ⟨hnext, hbelow⟩ := hstep hat hmove
      cases hnext with
      | await hworld =>
          refine h.set hworld index ?_ _
          exact hbelow
  | passed hat hmove hover hpanic =>
      obtain ⟨hnext, hbelow⟩ := hstep hat hmove
      cases hnext with
      | await hworld =>
          exact everywhere_raise hworld hthreads index _ hbelow _

end System

end Machine
end WorkStealing
