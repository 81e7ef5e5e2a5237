import WorkStealing.Proofs.ForkJoin.Depiction
import WorkStealing.Proofs.ForkJoin.Preservation
import WorkStealing.Proofs.Machine.Advance

/-!
# Steps of frames are steps of crews

The frame on top of a thread that plays a worker shows the innermost call of
the worker. This module goes through all frames and shows that what a frame
does next is a step of the crew (`Goes`), or an error that gives the process up:
a push on a deque that is full, or a tag that cannot be counted further.
-/

namespace WorkStealing
namespace ForkJoin

open Function (update)
open Machine (Frame ForkPoint LoopPoint Moment Move Stop World)

/-- The world behind a crew. -/
def Crew.Backed (g : Setting) (a : Crew) (w : World) : Prop :=
  Backs g w a.lanes a.count a.body a.performed a.history

/-- What the frame does that shows the innermost call of a worker, where `below` are the calls
under that one. -/
inductive Goes (g : Setting) (v : Nat) (a : Crew) (below : List Call) (frame : Frame) :
    Move → Prop where
  /-- It makes a step of the crew, and goes on with frames that show the calls after it. -/
  | on {w : World} {frames : List Frame} {b : Crew} (calls : List Call)
      (hstep : Step g.root v a b)
      (hstack : b.stack = update a.stack v (calls ++ below))
      (hframes : List.Forall₂ (Depicts g.deques v) frames calls)
      (hbacked : b.Backed g w)
      (hlooks : Looks frames (b.lanes v).jobs)
      (hperformed : b.performed = a.performed ++ frame.action?.toList)
      (hhistory : b.history = a.history ++ frame.moment?.toList) :
      Goes g v a below frame (.go w (some v) frames)
  /-- It does not find a slot for the right branch of a fork. -/
  | full {w : World} {left : Code} {right : JobId}
      (hstack : a.stack v = .fork (.publish left) right :: below)
      (hfull : g.capacity ≤ (a.lanes v).bottom)
      (hframe : frame = .fork .publish v right left)
      (hquiet : Quiet g.events w.transcript) :
      Goes g v a below frame (.fail w (.error (.dequeOverflow g.capacity)))
  /-- It does not find a new tag for an empty deque. -/
  | exhausted {w : World}
      (haction : frame.action? = none)
      (hmoment : frame.moment? = none)
      (hquiet : Quiet g.events w.transcript) :
      Goes g v a below frame (.fail w (.error .tagExhausted))

namespace Goes

variable {thunk : Code} {g : Setting} {v : Nat} {a : Crew} {below : List Call} {w : World}

/-- A step of which an observer sees nothing. -/
theorem unseen
    {frame : Frame} {frames : List Frame} {b : Crew} (calls : List Call)
    (hstep : Step g.root v a b)
    (hstack : b.stack = update a.stack v (calls ++ below))
    (hframes : List.Forall₂ (Depicts g.deques v) frames calls)
    (hbacked : b.Backed g w)
    (hlooks : Looks frames (b.lanes v).jobs)
    (haction : frame.action? = none)
    (hmoment : frame.moment? = none)
    (hperformed : b.performed = a.performed)
    (hhistory : b.history = a.history) :
    Goes g v a below frame (.go w (some v) frames) := by
  refine .on calls hstep hstack hframes hbacked hlooks ?_ ?_
  · rw [haction, hperformed]
    exact (List.append_nil _).symm
  · rw [hmoment, hhistory]
    exact (List.append_nil _).symm

theorem stay
    {call : Call} {frame next : Frame}
    (hstack : a.stack v = call :: below)
    (hdepicts : Depicts g.deques v next call)
    (haction : frame.action? = none)
    (hmoment : frame.moment? = none)
    (hbacked : a.Backed g w)
    (hlooked : next.hasLooked = true → (a.lanes v).jobs = []) :
    Goes g v a below frame (.go w (some v) [next]) := by
  have hsame : a.stack = update a.stack v ([call] ++ below) :=
    (Function.update_eq_self_iff.mpr hstack.symm).symm
  exact .unseen [call] (.idle a) hsame (.cons hdepicts .nil) hbacked ⟨hlooked, rfl⟩ haction hmoment
    rfl rfl

end Goes

section Steps

variable {thunk : Code} {g : Setting} {v : Nat} {a : Crew} {below : List Call} {w : World}

/-- Something is counted, and the innermost call stays what it is. -/
theorem goes_bump
    {call : Call} {frame next : Frame}
    (hv : v < g.deques)
    (hstack : a.stack v = call :: below)
    (hbacked : a.Backed g w)
    (counter : Counter)
    (hdepicts : Depicts g.deques v next call)
    (haction : frame.action? = none)
    (hmoment : frame.moment? = none)
    (hlooked : next.hasLooked = true → (a.lanes v).jobs = []) :
    Goes g v a below frame
      (w.schedule (·.bump v counter) fun w _ => .go w (some v) [next]) := by
  rw [← hbacked.deques] at hv
  obtain ⟨t, hbump, hfollows, hkeeps⟩ := hbacked.follows.bump hv counter
  rw [w.schedule_of_ok _ _ hbump]
  exact .stay hstack hdepicts haction hmoment (hbacked.schedule hkeeps hfollows) hlooked

/-- A job that a loop waits for has ended when the loop is told to end. -/
theorem Inv.items_of_holds
    (h : Inv thunk g.root a)
    {held stop : Option JobId} {evaluation : Nat}
    (hstack : a.stack v = .loop held stop :: below)
    (hbacked : a.Backed g w)
    (hholds : (Stop.ofJob stop).holds evaluation w.toMemory = .ok true) :
    a.items (stop.getD g.root) = [] := by
  cases stop with
  | none =>
      have hfinished : w.scheduler.finished = true := Except.ok.inj hholds
      exact h.told.finished.mp (hbacked.finished.mp hfinished)
  | some job =>
      have hdone : w.isDone job = true := Except.ok.inj hholds
      have hroot : g.root < job := by
        cases h.sits hstack
        refine (h.shape.forks v .closing job ?_).2.1
        rw [hstack]
        exact List.mem_cons_of_mem _ List.mem_cons_self
      exact ((h.told.ended job).mp
        (hbacked.ended_of_isDone (Nat.le_of_lt hroot) hdone)).2.2

theorem goes_ask
    (h : Inv thunk g.root a)
    {stop : Option JobId} {evaluation worker : Nat} {frame next : Frame}
    (hstack : a.stack v = .loop none stop :: below)
    (hbacked : a.Backed g w)
    (hdepicts : Depicts g.deques v next (.loop none stop))
    (haction : frame.action? = none)
    (hmoment : frame.moment? = none)
    (hlooked : next.hasLooked = true → (a.lanes v).jobs = []) :
    Goes g v a below frame
      (match (Stop.ofJob stop).holds evaluation w.toMemory with
        | .error cause => .fail w (.panic cause)
        | .ok true => .go ((Stop.ofJob stop).leave evaluation worker w) (some v) []
        | .ok false => .go w (some v) [next]) := by
  obtain ⟨holds, hholds⟩ := Stop.exists_holds_ofJob stop evaluation w.toMemory
  rw [hholds]
  cases holds with
  | true =>
      refine .on [] (.leave hstack (h.items_of_holds hstack hbacked hholds)) rfl .nil ?_
        (.of_any rfl _) ?_ ?_
      · cases stop with
        | none =>
            exact hbacked.trace _
        | some job =>
            exact hbacked
      · rw [haction]
        exact (List.append_nil _).symm
      · rw [hmoment]
        exact (List.append_nil _).symm
  | false =>
      exact .stay hstack hdepicts haction hmoment hbacked hlooked

theorem goes_obtain
    {stop : Option JobId} {frame next : Frame} {place : Nat} {job : JobId} {lane : Lane}
    (hstack : a.stack v = .loop none stop :: below)
    (hbacks : Backs g w (update a.lanes place lane) a.count a.body a.performed a.history)
    (hjobs : (a.lanes place).jobs = job :: lane.jobs)
    (hlane : place ≠ v ∧ lane = (a.lanes place).steal ∨ place = v ∧ lane = (a.lanes place).pop)
    (hdepicts : Depicts g.deques v next (.loop (some job) stop))
    (haction : frame.action? = none)
    (hmoment : frame.moment? = none)
    (hnext : next.hasLooked = false) :
    Goes g v a below frame (.go w (some v) [next]) := by
  exact .unseen [.loop (some job) stop] (.obtain hstack hjobs hlane) rfl (.cons hdepicts .nil)
    hbacks ⟨fun hlooked => absurd (hnext.symm.trans hlooked) Bool.false_ne_true, rfl⟩ haction
    hmoment rfl rfl

theorem goes_loop_pop
    (h : Inv thunk g.root a)
    {stop : Option JobId} {evaluations : Nat}
    (hv : v < g.deques)
    (hstack : a.stack v = .loop none stop :: below)
    (hbacked : a.Backed g w) :
    Goes g v a below (.loop .pop v (.ofJob stop) evaluations)
      (LoopPoint.step w (some v) v (.ofJob stop) evaluations .pop) := by
  rw [← hbacked.deques] at hv
  rcases hbacked.follows.pop hv with ⟨t, hpop, hfollows, hkeeps⟩ | ⟨-, -, hfail⟩
  · have hbacks := hbacked.schedule hkeeps hfollows
    rw [LoopPoint.step, w.schedule_of_ok (·.pop v) _ hpop]
    rcases h.jobs_of_loop hstack with hnil | hroot
    · rw [hnil]
      refine .unseen [.loop none stop] (.rewind hstack hnil) ?_
        (.cons (.loop (.trial _) stop evaluations trivial) .nil) ?_ ⟨fun _ => ?_, rfl⟩
        rfl rfl rfl rfl
      · exact (Function.update_eq_self_iff.mpr hstack.symm).symm
      · have hpopped : (a.lanes v).pop = {} := by
          rw [Lane.pop, hnil]
          rfl
        rw [hpopped] at hbacks
        exact hbacks
      · exact congrArg Lane.jobs (Function.update_self v ({} : Lane) a.lanes)
    · rw [hroot]
      refine goes_obtain hstack hbacks ?_ (Or.inr ⟨rfl, rfl⟩)
        (.loop (.popped g.root) stop evaluations trivial) rfl rfl rfl
      rw [Lane.jobs_pop, hroot]
      rfl
  · rw [LoopPoint.step, w.schedule_of_error (·.pop v) _ hfail]
    exact .exhausted rfl rfl hbacked.quiet

theorem goes_loop_steal
    {stop : Option JobId} {evaluations left target : Nat}
    (htarget : target < g.deques)
    (hstack : a.stack v = .loop none stop :: below)
    (hbacked : a.Backed g w)
    (hown : (a.lanes v).jobs = []) :
    Goes g v a below (.loop (.steal left target) v (.ofJob stop) evaluations)
      (LoopPoint.step w (some v) v (.ofJob stop) evaluations (.steal left target)) := by
  rw [← hbacked.deques] at htarget
  obtain ⟨t, hsteal, hfollows, hkeeps⟩ := hbacked.follows.steal htarget
  have hbacks := hbacked.schedule hkeeps hfollows
  rw [LoopPoint.step, w.schedule_of_ok (·.steal target) _ hsteal]
  cases hjobs : (a.lanes target).jobs with
  | nil =>
      have hsame : (a.lanes target).steal = a.lanes target := by
        rw [Lane.steal, hjobs]
      rw [hsame, Function.update_eq_self] at hbacks
      exact .stay hstack (.loop (.trial left) stop evaluations trivial) rfl rfl hbacks fun _ => hown
  | cons job rest =>
      have hother : target ≠ v := by
        rintro rfl
        rw [hown] at hjobs
        cases hjobs
      refine goes_obtain hstack hbacks ?_ (Or.inl ⟨hother, rfl⟩)
        (.loop (.stolen job) stop evaluations trivial) rfl rfl rfl
      rw [Lane.jobs_steal, hjobs]
      rfl

theorem goes_loop_advance
    {stop : Option JobId} {evaluations left : Nat} {attempt : UInt64}
    (hv : v < g.deques)
    (hword : g.deques < UInt64.size)
    (hstack : a.stack v = .loop none stop :: below)
    (hbacked : a.Backed g w)
    (hown : (a.lanes v).jobs = []) :
    Goes g v a below (.loop (.advance left attempt) v (.ofJob stop) evaluations)
      (LoopPoint.step w (some v) v (.ofJob stop) evaluations (.advance left attempt)) := by
  rw [← hbacked.deques] at hv hword
  obtain ⟨t, hstore, hfollows, hkeeps⟩ := hbacked.follows.storeAttempt hv (attempt + 1)
  obtain ⟨target, hvictim, htarget⟩ := hkeeps.exists_victim hv hword v attempt
  rw [LoopPoint.step, w.schedule_of_ok (·.storeAttempt v (attempt + 1)) _ hstore]
  simp only [hvictim]
  rw [hbacked.deques] at htarget
  exact .stay hstack (.loop (.count left target) stop evaluations htarget) rfl rfl
    (hbacked.schedule hkeeps hfollows) fun _ => hown

theorem goes_loop
    (h : Inv thunk g.root a)
    {point : LoopPoint} {stop : Option JobId} {evaluations : Nat}
    (hv : v < g.deques)
    (hword : g.deques < UInt64.size)
    (haim : point.AimsBelow g.deques)
    (hstack : a.stack v = .loop point.held stop :: below)
    (hbacked : a.Backed g w)
    (hown : point.hasLooked = true → (a.lanes v).jobs = []) :
    Goes g v a below (.loop point v (.ofJob stop) evaluations)
      (point.step w (some v) v (.ofJob stop) evaluations) := by
  cases point with
  | poll =>
      exact goes_ask h hstack hbacked (.loop .pop stop (evaluations + 1) trivial) rfl rfl
        (absurd · Bool.false_ne_true)
  | pop =>
      exact goes_loop_pop h hv hstack hbacked
  | popped job =>
      exact goes_bump hv hstack hbacked .localPops (.loop (.dispatch job) stop evaluations trivial)
        rfl rfl (absurd · Bool.false_ne_true)
  | trial left =>
      cases left with
      | zero =>
          have hcount : v < w.scheduler.dequeCount := by
            rw [hbacked.deques]
            exact hv
          obtain ⟨t, hbump, hfollows, hkeeps⟩ := hbacked.follows.bump hcount .idleSleeps
          rw [LoopPoint.step, w.schedule_of_ok (·.bump v .idleSleeps) _ hbump]
          exact .stay hstack (.loop (.trial t.stealTrials) stop evaluations trivial) rfl rfl
            (hbacked.schedule hkeeps hfollows) hown
      | succ left =>
          exact goes_ask h hstack hbacked (.loop (.aim left) stop (evaluations + 1) trivial) rfl rfl
            hown
  | aim left =>
      have hcount : v < w.scheduler.dequeCount := by
        rw [hbacked.deques]
        exact hv
      obtain ⟨t, attempt, hload, hfollows, hkeeps⟩ := hbacked.follows.loadAttempt hcount
      rw [LoopPoint.step, w.schedule_of_ok (·.loadAttempt v) _ hload]
      exact .stay hstack (.loop (.advance left attempt) stop evaluations trivial) rfl rfl
        (hbacked.schedule hkeeps hfollows) hown
  | advance left attempt =>
      exact goes_loop_advance hv hword hstack hbacked (hown rfl)
  | count left target =>
      exact goes_bump hv hstack hbacked .stealAttempts
        (.loop (.steal left target) stop evaluations haim) rfl rfl hown
  | steal left target =>
      exact goes_loop_steal haim hstack hbacked (hown rfl)
  | stolen job =>
      exact goes_bump hv hstack hbacked .steals (.loop (.dispatch job) stop evaluations trivial)
        rfl rfl (absurd · Bool.false_ne_true)
  | dispatch job =>
      have hcount : v < w.scheduler.dequeCount := by
        rw [hbacked.deques]
        exact hv
      obtain ⟨t, hbump, hfollows, hkeeps⟩ := hbacked.follows.bump hcount .jobsExecuted
      rw [LoopPoint.step, w.schedule_of_ok (·.bump v .jobsExecuted) _ hbump]
      exact .unseen [.fetch job, .loop none stop] (.dispatch hstack) rfl
        (.cons (.execute job) (.cons (.loop .poll stop evaluations trivial) .nil))
        (hbacked.schedule hkeeps hfollows) (.of_any rfl _) rfl rfl rfl rfl

/-- The right branch of a fork was made after the first job of the run. -/
theorem Inv.root_lt_right
    (h : Inv thunk g.root a)
    {phase : Phase} {right : JobId}
    (hstack : a.stack v = .fork phase right :: below) :
    g.root < right := by
  refine (h.shape.forks v phase right ?_).2.1
  rw [hstack]
  exact List.mem_cons_self

theorem goes_publish
    {right : JobId} {left : Code}
    (hv : v < g.deques)
    (hstack : a.stack v = .fork (.publish left) right :: below)
    (hbacked : a.Backed g w) :
    Goes g v a below (.fork .publish v right left)
      (ForkPoint.step w (some v) v right left .publish) := by
  rw [← hbacked.deques] at hv
  by_cases hroom : (a.lanes v).bottom < g.capacity
  · obtain ⟨t, hpush, hfollows, hkeeps, -⟩ := hbacked.follows.push_of_lt hv hroom right
    rw [ForkPoint.step, w.schedule_of_ok (·.push v right) _ hpush]
    exact .unseen [.fork (.published left) right] (.publish hstack) rfl
      (.cons (.published right left) .nil) (hbacked.schedule hkeeps hfollows) (.of_any rfl _)
      rfl rfl rfl rfl
  · obtain ⟨t, hpush⟩ := hbacked.follows.push_of_not_lt hv hroom right
    rw [ForkPoint.step, w.schedule_of_ok (·.push v right) _ hpush]
    exact .full hstack (Nat.le_of_not_lt hroom) rfl hbacked.quiet

theorem goes_published
    {right : JobId} {left : Code}
    (hv : v < g.deques)
    (hstack : a.stack v = .fork (.published left) right :: below)
    (hbacked : a.Backed g w) :
    Goes g v a below (.fork .published v right left)
      (ForkPoint.step w (some v) v right left .published) := by
  rw [← hbacked.deques] at hv
  obtain ⟨t, hbump, hfollows, hkeeps⟩ := hbacked.follows.bump hv .jobsSpawned
  rw [ForkPoint.step, w.schedule_of_ok (·.bump v .jobsSpawned) _ hbump]
  refine .on [.code left, .fork .check right] (.goLeft hstack) rfl
    (.cons (.perform left) (.cons (.check right []) .nil)) ?_ (.of_any rfl _)
    (List.append_nil _).symm rfl
  refine (hbacked.schedule hkeeps hfollows).tell Moment.noConfusion fun job => ?_
  exact ⟨Moment.noConfusion, Moment.noConfusion⟩

theorem goes_check
    (h : Inv thunk g.root a)
    {right : JobId} {left : Code}
    (hstack : a.stack v = .fork .check right :: below)
    (hbacked : a.Backed g w) :
    Goes g v a below (.fork .check v right left)
      (ForkPoint.step w (some v) v right left .check) := by
  have hroot := Nat.le_of_lt (h.root_lt_right hstack)
  have hbacks : Backs g w a.lanes a.count a.body a.performed (a.history ++ [.leftEnded right]) :=
    Backs.tell hbacked Moment.noConfusion fun job => ⟨Moment.noConfusion, Moment.noConfusion⟩
  rw [ForkPoint.step]
  by_cases hstarted : w.isStarted right = true
  · have htaken : (a.home right).isTaken = true :=
      (h.told.began right hroot).mp (hbacked.began_of_isStarted hroot hstarted)
    rw [if_pos hstarted]
    exact .on [.fork .stolen right] (.miss hstack htaken) rfl (.cons (.stolenJoin right left) .nil)
      hbacks (.of_any rfl _) (List.append_nil _).symm rfl
  · rw [if_neg hstarted]
    exact .on [.fork .reclaim right] (.look hstack) rfl (.cons (.reclaim right left) .nil)
      hbacks (.of_any rfl _) (List.append_nil _).symm rfl

/-- A fork pops its right branch, or finds its own deque empty. -/
theorem goes_reclaim
    (h : Inv thunk g.root a)
    {right : JobId} {left : Code}
    (hv : v < g.deques)
    (hstack : a.stack v = .fork .reclaim right :: below)
    (hbacked : a.Backed g w) :
    Goes g v a below (.fork .reclaim v right left)
      (ForkPoint.step w (some v) v right left .reclaim) := by
  rw [← hbacked.deques] at hv
  rcases hbacked.follows.pop hv with ⟨t, hpop, hfollows, hkeeps⟩ | ⟨-, -, hfail⟩
  · have hbacks := hbacked.schedule hkeeps hfollows
    rw [ForkPoint.step, w.schedule_of_ok (·.pop v) _ hpop]
    have hsuffix := h.suffix hstack
    rw [spine_of_isLive _ rfl] at hsuffix
    rcases List.suffix_concat_iff.mp hsuffix with hnil | ⟨older, hjobs, -⟩
    · have hpopped : (a.lanes v).pop = {} := by
        rw [Lane.pop, hnil]
        rfl
      rw [hpopped] at hbacks
      rw [hnil]
      exact .unseen [.fork .stolen right] (.lose hstack hnil) rfl
        (.cons (.stolenJoin right left) .nil) hbacks (.of_any rfl _) rfl rfl rfl rfl
    · simp only [hjobs, List.getLast?_concat]
      exact .unseen [.fork .inline right] (.reclaim hstack hjobs) rfl
        (.cons (.reclaimed right left) .nil) hbacks (.of_any rfl _) rfl rfl rfl rfl
  · rw [ForkPoint.step, w.schedule_of_error (·.pop v) _ hfail]
    exact .exhausted rfl rfl hbacked.quiet

/-- A fork that has popped its right branch. -/
theorem goes_inline
    {right : JobId} {left : Code}
    (hv : v < g.deques)
    (hstack : a.stack v = .fork .inline right :: below)
    (hbacked : a.Backed g w) :
    Goes g v a below (.fork (.reclaimed right) v right left)
        (ForkPoint.step w (some v) v right left (.reclaimed right)) ∧
      Goes g v a below (.fork .inlineJoin v right left)
        (ForkPoint.step w (some v) v right left .inlineJoin) := by
  rw [← hbacked.deques] at hv
  constructor
  · obtain ⟨t, hbump, hfollows, hkeeps⟩ := hbacked.follows.bump hv .localPops
    rw [ForkPoint.step, w.schedule_of_ok (·.bump v .localPops) _ hbump, if_pos rfl]
    exact .stay hstack (.inlineJoin right left) rfl rfl (hbacked.schedule hkeeps hfollows)
      (absurd · Bool.false_ne_true)
  · obtain ⟨t, hbump, hfollows, hkeeps⟩ := hbacked.follows.bump hv .inlineJoins
    rw [ForkPoint.step, w.schedule_of_ok (·.bump v .inlineJoins) _ hbump]
    exact .unseen [.fetch right, .fork .closing right] (.inline hstack) rfl
      (.cons (.execute right) (.cons (.closing right []) .nil))
      (hbacked.schedule hkeeps hfollows) (.of_any rfl _) rfl rfl rfl rfl

/-- A wait for a job shows as a loop, whatever the policy is. -/
theorem depicts_waitFrame
    (scheduler : Scheduler) (right : JobId)
    (hworker : scheduler.workerOf (some v) = some v) :
    Depicts g.deques v (Machine.waitFrame scheduler (some v) (.jobDone right))
        (.loop none (some right)) ∧
      (Machine.waitFrame scheduler (some v) (.jobDone right)).hasLooked = false := by
  unfold Machine.waitFrame
  rw [hworker]
  cases scheduler.config.waitPolicy with
  | cooperative =>
      exact ⟨.loop .poll (some right) 0 trivial, rfl⟩
  | conservative =>
      exact ⟨.poll right 0, rfl⟩

theorem goes_stolen
    {right : JobId} {left : Code}
    (hv : v < g.deques)
    (hstack : a.stack v = .fork .stolen right :: below)
    (hbacked : a.Backed g w) :
    Goes g v a below (.fork .stolenJoin v right left)
      (ForkPoint.step w (some v) v right left .stolenJoin) := by
  rw [← hbacked.deques] at hv
  obtain ⟨t, hbump, hfollows, hkeeps⟩ := hbacked.follows.bump hv .stolenJoins
  have hworker : t.workerOf (some v) = some v := by
    rw [hkeeps.workerOf]
    exact Scheduler.workerOf_of_lt hv
  obtain ⟨hdepicts, hnot⟩ := depicts_waitFrame (g := g) t right hworker
  rw [ForkPoint.step, w.schedule_of_ok (·.bump v .stolenJoins) _ hbump]
  exact .unseen [.loop none (some right), .fork .closing right] (.wait hstack) rfl
    (.cons hdepicts (.cons (.closing right []) .nil)) (hbacked.schedule hkeeps hfollows)
    ⟨fun hlooked => absurd (hnot.symm.trans hlooked) Bool.false_ne_true, rfl⟩
    rfl rfl rfl rfl

theorem goes_closing
    (h : Inv thunk g.root a)
    {right : JobId} {left : Code}
    (hstack : a.stack v = .fork .closing right :: below)
    (hbacked : a.Backed g w) :
    Goes g v a below (.fork .closing v right left)
      (ForkPoint.step w (some v) v right left .closing) := by
  have hwell := h.shape.wellFormed v
  rw [hstack] at hwell
  obtain ⟨job, howner⟩ := exists_owner hwell.1 hwell.2 (Or.inr ⟨_, _, rfl⟩)
  exact .on [] (.close hstack howner) rfl .nil
    (Backs.tell hbacked Moment.noConfusion fun job => ⟨Moment.noConfusion, Moment.noConfusion⟩)
    (.of_any rfl _) (List.append_nil _).symm rfl

/-- A job is started; it was not started before. -/
theorem goes_execute
    (h : Inv thunk g.root a)
    {job : JobId}
    (hstack : a.stack v = .fetch job :: below)
    (hbacked : a.Backed g w) :
    Goes g v a below (.execute job) (Frame.step w (some v) (.execute job)) := by
  have hhome := h.home_fetch hstack
  have hroot : g.root ≤ job := by
    apply h.root_le
    rw [hhome]
    exact Home.noConfusion
  have hjob : job < a.count := by
    apply h.lt_count
    rw [hhome]
    exact Home.noConfusion
  obtain ⟨flags, hflags, hagrees⟩ := hbacked.exists_flags hroot hjob
  have hfresh : flags.taken = false := by
    rw [← Bool.not_eq_true, hagrees.taken, h.told.began job hroot, hhome]
    exact Bool.false_ne_true
  rw [Frame.step, hflags, hbacked.body job hroot hjob]
  simp only [hfresh, if_neg Bool.false_ne_true]
  exact .on [.code (a.body job), .guarded job] (.take hstack) rfl
    (.cons (.perform _) (.cons (.guarded job) .nil)) (Backs.take hbacked job) (.of_any rfl _)
    (List.append_nil _).symm rfl

theorem goes_perform
    (h : Inv thunk g.root a)
    {code : Code}
    (hv : v < g.deques)
    (hstack : a.stack v = .code code :: below)
    (hbacked : a.Backed g w) :
    Goes g v a below (.perform code) (Frame.step w (some v) (.perform code)) := by
  have hworker : w.scheduler.workerOf (some v) = some v :=
    Scheduler.workerOf_of_lt (hbacked.deques ▸ hv)
  cases code with
  | nil =>
      exact .unseen [] (.endCode hstack) rfl .nil hbacked (.of_any rfl _) rfl rfl rfl rfl
  | cons action rest =>
      have hwell := h.shape.wellFormed v
      rw [hstack] at hwell
      obtain ⟨job, howner⟩ := exists_owner hwell.1 hwell.2 (Or.inl ⟨_, rfl⟩)
      have hhome := Work.home_owner h.places hstack howner
      obtain ⟨-, -, htidy⟩ := h.items_code hstack howner
      have hcode := htidy.within (List.mem_append_right _ List.mem_cons_self)
      rw [Code.within, Bool.and_eq_true] at hcode
      cases action with
      | log label =>
          exact .on [.code rest] (.act hstack rfl howner) rfl (.cons (.perform rest) .nil)
            (Backs.log hbacked label _) (.of_any rfl _) rfl (List.append_nil _).symm
      | store cell constant sources =>
          exact .on [.code rest] (.act hstack rfl howner) rfl (.cons (.perform rest) .nil)
            (Backs.store hbacked cell constant sources) (.of_any rfl _) rfl (List.append_nil _).symm
      | fork left right =>
          have hunborn : a.home a.count = .unborn :=
            (h.places.unborn a.count).mpr (Nat.le_refl _)
          have hbegan : .jobBegan a.count ∉ a.history := by
            rw [h.told.began a.count (Nat.le_of_lt h.root_lt), hunborn]
            exact Bool.false_ne_true
          have hended : .jobEnded a.count ∉ a.history := by
            rw [h.told.ended a.count]
            exact fun hno => Nat.lt_irrefl _ hno.2.1
          have hbacks := Backs.addJob hbacked (fun job => Action.branchBody job right) hbegan hended
          simp only [Frame.step, Machine.Action.step, hworker]
          have hjob : (w.addJob fun job => Action.branchBody job right).2 = a.count :=
            hbacked.bodies
          rw [hjob]
          exact .unseen [.fork (.publish left) a.count, .code rest] (.fork hstack howner) rfl
            (.cons (.publish a.count left) (.cons (.perform rest) .nil)) hbacks
            (.of_any rfl _) rfl rfl rfl rfl
      | start other =>
          have hother : other = job := by
            rcases htidy.note rfl with ⟨heq, -⟩ | ⟨heq, -⟩
            · exact Action.start.inj heq
            · unfold closing at heq
              by_cases hroot : job = g.root
              · rw [if_pos hroot] at heq
                cases heq
              · rw [if_neg hroot] at heq
                cases heq
          subst hother
          have hbegan : .jobBegan other ∈ a.history := by
            refine (h.told.began other (h.root_le ?_)).mpr ?_
            · rw [hhome]
              exact Home.noConfusion
            · rw [hhome]
              rfl
          exact .on [.code rest] (.note hstack rfl howner) rfl (.cons (.perform rest) .nil)
            (by
              show Backs g _ _ _ _ _ (a.history ++ [])
              rw [List.append_nil]
              exact Backs.start hbacked hbegan)
            (.of_any rfl _) (List.append_nil _).symm rfl
      | complete other =>
          exact .on [.code rest] (.note hstack rfl howner) rfl (.cons (.perform rest) .nil)
            (Backs.complete hbacked other) (.of_any rfl _) (List.append_nil _).symm rfl
      | finish =>
          exact .on [.code rest] (.note hstack rfl howner) rfl (.cons (.perform rest) .nil)
            (Backs.finish hbacked) (.of_any rfl _) (List.append_nil _).symm rfl
      | _ =>
          exact absurd hcode.1 Bool.false_ne_true

/-- Each step of a frame that shows the innermost call of a worker is a step of the crew, or gives
the process up. -/
theorem goes_step
    (h : Inv thunk g.root a)
    {frame : Frame} {call : Call}
    (hv : v < g.deques)
    (hword : g.deques < UInt64.size)
    (hstack : a.stack v = call :: below)
    (hdepicts : Depicts g.deques v frame call)
    (hbacked : a.Backed g w)
    (hown : frame.hasLooked = true → (a.lanes v).jobs = []) :
    Goes g v a below frame (frame.step w (some v)) := by
  cases hdepicts with
  | perform rest =>
      exact goes_perform h hv hstack hbacked
  | execute job =>
      exact goes_execute h hstack hbacked
  | guarded job =>
      exact .unseen [] (.retire hstack) rfl .nil hbacked (.of_any rfl _) rfl rfl rfl rfl
  | publish right left =>
      exact goes_publish hv hstack hbacked
  | published right left =>
      exact goes_published hv hstack hbacked
  | check right left =>
      exact goes_check h hstack hbacked
  | reclaim right left =>
      exact goes_reclaim h hv hstack hbacked
  | reclaimed right left =>
      exact (goes_inline hv hstack hbacked).1
  | inlineJoin right left =>
      exact (goes_inline hv hstack hbacked).2
  | stolenJoin right left =>
      exact goes_stolen hv hstack hbacked
  | closing right left =>
      exact goes_closing h hstack hbacked
  | loop point stop evaluations haim =>
      exact goes_loop h hv hword haim hstack hbacked hown
  | poll job evaluations =>
      exact goes_ask h hstack hbacked (.poll job (evaluations + 1)) rfl rfl
        (absurd · Bool.false_ne_true)

end Steps
end ForkJoin
end WorkStealing
