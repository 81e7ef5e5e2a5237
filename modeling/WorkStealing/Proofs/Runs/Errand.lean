import WorkStealing.Proofs.Machine.Fairness
import WorkStealing.Proofs.Machine.Staff
import WorkStealing.Proofs.Runs.Release
import WorkStealing.Proofs.Scheduler.Lone

/-!
# Errands

An errand is the run of one job that neither forks nor spawns: some plain actions,
and then the end of the run. This module says what the threads of an errand may be
doing, from the call up to the region in which all workers look for the job.
-/

namespace WorkStealing
namespace Machine

open Function (update)

/-- Since then no run has reported. -/
def Unanswered (before after : Array Event) : Prop :=
  ∃ events, after.toList = before.toList ++ events ∧
    ∀ outcome, .ran outcome ∉ events ∧ .ranThunk outcome ∉ events

namespace Unanswered

variable {before after : Array Event}

theorem refl
    (before : Array Event) :
    Unanswered before before :=
  ⟨[], (List.append_nil _).symm, fun _ => ⟨List.not_mem_nil, List.not_mem_nil⟩⟩

theorem push
    (h : Unanswered before after)
    {event : Event}
    (hevent : ∀ outcome, event ≠ .ran outcome ∧ event ≠ .ranThunk outcome) :
    Unanswered before (after.push event) := by
  obtain ⟨events, heq, hnone⟩ := h
  refine ⟨events ++ [event], ?_, fun outcome => ?_⟩
  · rw [Array.toList_push, heq, List.append_assoc]
  · rw [List.mem_append, List.mem_append, List.mem_singleton, List.mem_singleton]
    exact ⟨not_or.mpr ⟨(hnone outcome).1, (hevent outcome).1.symm⟩,
      not_or.mpr ⟨(hnone outcome).2, (hevent outcome).2.symm⟩⟩

theorem trace
    {w : World}
    (h : Unanswered before w.transcript)
    (record : TraceRecord) :
    Unanswered before (w.trace record).transcript := by
  rcases w.trace_cases record with heq | heq
  · rw [heq]
    exact h.push fun _ => ⟨Event.noConfusion, Event.noConfusion⟩
  · rw [heq]
    exact h

end Unanswered

/-- A worker loop looks for a job, and has none. -/
def LoopPoint.Seeks (count : Nat) : LoopPoint → Prop
  | .popped _ => False
  | .stolen _ => False
  | .dispatch _ => False
  | .count _ target => target < count
  | .steal _ target => target < count
  | _ => True

/-- A number of steps after which a loop has ended that finds no job and is told to end. -/
def LoopPoint.span : LoopPoint → Nat
  | .poll => 1
  | .pop => 3
  | .trial 0 => 2
  | .trial (_ + 1) => 1
  | .aim _ => 6
  | .advance _ _ => 5
  | .count _ _ => 4
  | .steal _ _ => 3
  | _ => 0

theorem LoopPoint.span_trial_le
    (left : Nat) :
    (LoopPoint.trial left).span ≤ 2 := by
  cases left with
  | zero =>
      exact Nat.le_refl 2
  | succ left =>
      exact Nat.le_succ 1

/-- The call itself is nothing that is observed of a job. -/
theorem Request.silent
    (r : Request) :
    (Frame.perform [r.action]).action? = none ∧ (Frame.perform [r.action]).moment? = none := by
  have hcalls := r.calls none
  cases haction : r.action with
  | log label | store cell constant sources | complete job | finish =>
      rw [haction] at hcalls
      have hframes : [Frame.perform []] = [.run (.claim r.threads) r.job r.thunk, .perform []] :=
        (Move.go.inj hcalls).2.2
      cases hframes
  | _ =>
      exact ⟨rfl, rfl⟩

/-- The run of one job that neither forks nor spawns. -/
structure Errand where
  request : Request
  /-- What the job does before it ends the run. -/
  body : Code

namespace Errand

variable (e : Errand)

def root : JobId := e.request.job

def deques : Nat := e.request.world.scheduler.dequeCount

def asked : Nat := e.request.asked

def capacity : Nat :=
  ((e.request.world.scheduler.places[0]?).map fun place => place.deque.capacity).getD 0

def code : Code := e.body ++ [.finish]

/-- The job is fresh, and as many workers take part as are asked for, each with a deque. -/
structure Posed : Prop where
  plain : e.body.all Action.isPlain = true
  code : e.request.called.bodies[e.root]? = some e.code
  fresh : e.request.called.flags[e.root]? = some {}
  /-- The host plays all workers that are asked for. -/
  pool : e.request.world.style.workers = none
  few : e.asked ≤ e.deques

/-- No run is in progress either, and the deques are clean. -/
structure Ready : Prop extends e.Posed where
  manned : 0 < e.asked
  word : e.deques < UInt64.size
  running : e.request.world.scheduler.running = false
  follows : e.request.world.scheduler.Follows e.capacity fun _ => {}
  trials : 0 < e.request.world.scheduler.stealTrials
  tags : ¬ e.request.world.scheduler.OutOfTags 0

/-- What the threads of the errand share: where the job is, whether it was taken, and whether the
run is to end. -/
structure Scene (w : World) (job? : Option JobId) (taken finished : Bool) : Prop where
  lone : w.scheduler.Lone e.capacity e.deques job?
  finished : w.scheduler.finished = finished
  flags : ∃ flags, w.flags[e.root]? = some flags ∧ flags.taken = taken
  body : w.bodies[e.root]? = some e.code
  quiet : Unanswered e.request.world.transcript w.transcript

variable {e} {w : World} {job? : Option JobId} {taken finished : Bool}

namespace Scene

theorem schedule
    (h : e.Scene w job? taken finished)
    {t : Scheduler} {other? : Option JobId}
    (hkeeps : w.scheduler.Keeps t)
    (hlone : t.Lone e.capacity e.deques other?) :
    e.Scene { w with scheduler := t } other? taken finished :=
  ⟨hlone, hkeeps.finished.trans h.finished, h.flags, h.body, h.quiet⟩

theorem trace
    (h : e.Scene w job? taken finished)
    (record : TraceRecord) :
    e.Scene (w.trace record) job? taken finished := by
  have hquiet := h.quiet.trace record
  rcases w.trace_cases record with heq | heq
  · rw [heq] at hquiet ⊢
    exact ⟨h.lone, h.finished, h.flags, h.body, hquiet⟩
  · rw [heq]
    exact h

theorem traces
    (h : e.Scene w job? taken finished)
    {traced : World}
    (htraces : w.Traces traced) :
    e.Scene traced job? taken finished := by
  induction htraces with
  | refl =>
      exact h
  | trace _ record ih =>
      exact ih.trace record

end Scene

/-- What a loop does that has no job: it goes on to seek, it leaves because it is told to, or it
obtains the job. -/
inductive Sought (e : Errand) (job? : Option JobId) (taken finished : Bool) (v : Nat)
    (point : LoopPoint) : Move → Prop where
  | stays {next : World} {identity : Option Nat} {other : LoopPoint} {evaluations : Nat}
      (hscene : e.Scene next job? taken finished)
      (hother : other.Seeks e.deques)
      (hspan : finished = true → other.span < point.span) :
      Sought e job? taken finished v point
        (.go next identity [.loop other v .finished evaluations])
  | leaves {next : World} {identity : Option Nat}
      (hscene : e.Scene next job? taken finished)
      (hfinished : finished = true)
      (hspan : 0 < point.span) :
      Sought e job? taken finished v point (.go next identity [])
  | obtains {next : World} {identity : Option Nat} {job : JobId} {other : LoopPoint}
      {evaluations : Nat}
      (hjob : job? = some job)
      (hother : other = .popped job ∨ other = .stolen job)
      (hscene : e.Scene next none taken finished) :
      Sought e job? taken finished v point
        (.go next identity [.loop other v .finished evaluations])

theorem Sought.goes
    {v : Nat} {point : LoopPoint} {move : Move}
    (h : Sought e job? taken finished v point move) :
    ∃ w other next, move = .go w other next := by
  cases h <;> exact ⟨_, _, _, rfl⟩

section Seeking

variable {v : Nat} (hscene : e.Scene w job? taken finished) (identity : Option Nat)
include hscene

/-- The loop asks whether to end, and goes on if not. -/
theorem sought_ask
    {point ifNot : LoopPoint} {evaluations : Nat}
    (hspan : 0 < point.span)
    (hifNot : ifNot.Seeks e.deques) :
    Sought e job? taken finished v point
      (match Stop.finished.holds (evaluations + 1) w.toMemory with
        | .error cause => .fail w (.panic cause)
        | .ok true => .go (Stop.finished.leave (evaluations + 1) v w) identity []
        | .ok false => .go w identity [.loop ifNot v .finished (evaluations + 1)]) := by
  show Sought e job? taken finished v point
    (match (Except.ok w.scheduler.finished : Except Panic Bool) with
      | .error cause => .fail w (.panic cause)
      | .ok true => .go (Stop.finished.leave (evaluations + 1) v w) identity []
      | .ok false => .go w identity [.loop ifNot v .finished (evaluations + 1)])
  rw [hscene.finished]
  cases finished with
  | true =>
      exact .leaves (hscene.trace _) rfl hspan
  | false =>
      exact .stays hscene hifNot Bool.noConfusion

/-- A loop that looks for a job goes on to do so, unless it obtains the job or is told to end. -/
theorem step_seeking
    (hready : e.Ready)
    (hv : v < e.deques)
    {point : LoopPoint}
    (hpoint : point.Seeks e.deques)
    (evaluations : Nat) :
    Sought e job? taken finished v point
      (Frame.step w identity (.loop point v .finished evaluations)) := by
  have htrials : ∀ t, w.scheduler.Keeps t → (LoopPoint.trial t.stealTrials).span = 1 := by
    intro t hkeeps
    rw [hkeeps.stealTrials, ← Nat.succ_pred_eq_of_pos hscene.lone.trials]
    rfl
  rw [Frame.step]
  cases point with
  | poll =>
      exact sought_ask hscene identity Nat.one_pos trivial
  | pop =>
      obtain ⟨t, answer, hpop, hkeeps, hyields, -⟩ := hscene.lone.pop hv
      rw [LoopPoint.step, w.schedule_of_ok (·.pop v) _ hpop]
      rcases hyields with ⟨rfl, hlone⟩ | ⟨job, rfl, hjob, hlone⟩
      · refine .stays (hscene.schedule hkeeps hlone) trivial fun _ => ?_
        rw [htrials t hkeeps]
        exact Nat.lt_of_sub_eq_succ rfl
      · exact .obtains hjob (Or.inl rfl) (hscene.schedule hkeeps hlone)
  | trial left =>
      cases left with
      | zero =>
          obtain ⟨t, hbump, hkeeps, hlone⟩ := hscene.lone.bump hv .idleSleeps
          rw [LoopPoint.step, w.schedule_of_ok (·.bump v .idleSleeps) _ hbump]
          refine .stays (hscene.schedule hkeeps hlone) trivial fun _ => ?_
          rw [htrials t hkeeps]
          exact Nat.lt_succ_self 1
      | succ left =>
          exact sought_ask hscene identity Nat.one_pos trivial
  | aim left =>
      obtain ⟨t, attempt, hload, hkeeps, hlone⟩ := hscene.lone.loadAttempt hv
      rw [LoopPoint.step, w.schedule_of_ok (·.loadAttempt v) _ hload]
      exact .stays (hscene.schedule hkeeps hlone) trivial fun _ => Nat.lt_succ_self 5
  | advance left attempt =>
      obtain ⟨t, hstore, hkeeps, hlone⟩ := hscene.lone.storeAttempt hv (attempt + 1)
      have hword : t.dequeCount < UInt64.size := by
        rw [hlone.count]
        exact hready.word
      obtain ⟨target, hvictim, htarget⟩ :=
        Scheduler.exists_victim (Nat.zero_lt_of_lt (hlone.count ▸ hv)) hword v attempt
      rw [LoopPoint.step, w.schedule_of_ok (·.storeAttempt v (attempt + 1)) _ hstore]
      simp only [hvictim]
      rw [hlone.count] at htarget
      exact .stays (hscene.schedule hkeeps hlone) htarget fun _ => Nat.lt_succ_self 4
  | count left target =>
      obtain ⟨t, hbump, hkeeps, hlone⟩ := hscene.lone.bump hv .stealAttempts
      rw [LoopPoint.step, w.schedule_of_ok (·.bump v .stealAttempts) _ hbump]
      exact .stays (hscene.schedule hkeeps hlone) hpoint fun _ => Nat.lt_succ_self 3
  | steal left target =>
      obtain ⟨t, answer, hsteal, hkeeps, hyields⟩ := hscene.lone.steal hpoint
      rw [LoopPoint.step, w.schedule_of_ok (·.steal target) _ hsteal]
      rcases hyields with ⟨rfl, hlone⟩ | ⟨job, rfl, hjob, hlone⟩
      · exact .stays (hscene.schedule hkeeps hlone) trivial fun _ =>
          Nat.lt_succ_of_le (LoopPoint.span_trial_le left)
      · exact .obtains hjob (Or.inr rfl) (hscene.schedule hkeeps hlone)
  | popped job | stolen job | dispatch job =>
      exact absurd hpoint id

end Seeking

/-- A plain action is performed, and nothing else that matters is changed. -/
theorem step_plain
    (hscene : e.Scene w job? taken finished)
    {action : Action}
    (hplain : action.isPlain = true)
    (identity : Option Nat) (rest : Code) :
    ∃ next, Frame.step w identity (.perform (action :: rest)) =
      .go next identity [.perform rest] ∧ e.Scene next job? taken finished := by
  cases action with
  | log label =>
      exact ⟨_, rfl, hscene.lone, hscene.finished, hscene.flags, hscene.body,
        hscene.quiet.push fun _ => ⟨Event.noConfusion, Event.noConfusion⟩⟩
  | store cell constant sources =>
      exact ⟨_, rfl, hscene.lone, hscene.finished, hscene.flags, hscene.body, hscene.quiet⟩
  | _ =>
      cases hplain

/-- The job is taken for execution. -/
theorem step_execute
    (hscene : e.Scene w job? false finished)
    (identity : Option Nat) :
    ∃ next, Frame.step w identity (.execute e.root) =
      .go next identity [.perform e.code, .guarded e.root] ∧
        e.Scene next job? true finished := by
  obtain ⟨flags, hflags, hfresh⟩ := hscene.flags
  refine ⟨{ w with toMemory := w.setFlags e.root fun flags => { flags with taken := true } }, ?_,
    hscene.lone, hscene.finished, ?_, hscene.body, hscene.quiet⟩
  · rw [Frame.step, hflags, hscene.body]
    simp only [hfresh]
    rfl
  · refine ⟨{ flags with taken := true }, ?_, rfl⟩
    show (w.flags.modify e.root _)[e.root]? = _
    rw [Array.getElem?_modify, if_pos rfl, hflags]
    rfl

/-- The frame that is left of a run after its region. -/
def stack (e : Errand) (region : Frame) (upper : Nat → List Frame) (t : Nat) : List Frame :=
  upper t ++ if t = 0 then region :: e.request.after else []

theorem stack_update
    (e : Errand) (region : Frame) (upper : Nat → List Frame) (t : Nat) (next : List Frame) :
    update (e.stack region upper) t (next ++ if t = 0 then region :: e.request.after else []) =
      e.stack region (update upper t next) := by
  funext u
  by_cases hu : u = t
  · subst hu
    rw [stack, Function.update_self, Function.update_self]
  · rw [stack, Function.update_of_ne hu, Function.update_of_ne hu, stack]

/-- The frame holds the region of the errand open, on a system of so many threads. -/
def Closes (e : Errand) (count : Nat) : Frame → Prop
  | .crew crew _ => ∀ t, t ∈ crew ↔ t ≠ 0 ∧ t < count
  | .disband crew pending => pending = none ∧ ∀ t, t ∈ crew ↔ t ≠ 0 ∧ t < count
  | .turns pending _ => count = 1 ∧ ∀ v ∈ pending, v < e.deques
  | _ => False

/-- The region of the errand is open, and all workers are about to look for the job. -/
structure Opened (e : Errand) (finished : Bool) (s : System) (count : Nat) (region : Frame)
    (upper : Nat → List Frame) : Prop where
  staffed : Staffed s count (e.stack region upper)
  manned : 0 < count
  few : count ≤ e.asked
  closes : e.Closes count region
  first : upper 0 = [.loop .poll 0 .finished 0]
  others : ∀ t, t < count → ∃ v, v < e.deques ∧ upper t = [.loop .poll v .finished 0]
  scene : e.Scene s.world (some e.root) false finished

/-- The errand before its region is open. The number falls with each step. -/
inductive Outset (e : Errand) (finished : Bool) : Nat → System → Prop where
  | calling {s : System}
      (hstaffed : Staffed s 1 fun _ => [.perform [e.request.action]])
      (hworld : s.world = e.request.world) :
      Outset e finished 6 s
  | claiming {s : System}
      (hstaffed : Staffed s 1 fun _ =>
        [.run (.claim e.request.threads) e.root e.request.thunk, .perform []])
      (hworld : s.world = e.request.called) :
      Outset e finished 5 s
  | enqueuing {s : System}
      (hstaffed : Staffed s 1 fun _ =>
        [.run (.enqueue e.asked) e.root e.request.thunk, .perform []])
      (hworld : s.world = { e.request.called with
        scheduler := { e.request.called.scheduler with running := true } }) :
      Outset e finished 4 s
  | announcing {s : System}
      (hstaffed : Staffed s 1 fun _ =>
        [.run (.announce e.asked) e.root e.request.thunk, .perform []])
      (hstyle : s.world.style = e.request.world.style)
      (hscene : e.Scene s.world (some e.root) false finished) :
      Outset e finished 3 s
  | opening {s : System}
      (hstaffed : Staffed s 1 fun _ =>
        [.run (.open e.asked) e.root e.request.thunk, .perform []])
      (hstyle : s.world.style = e.request.world.style)
      (hscene : e.Scene s.world (some e.root) false finished) :
      Outset e finished 2 s
  | entering {s : System} {region : Frame}
      (hstaffed : Staffed s 1 fun _ => region :: e.request.after)
      (hregion : region = .recruit (List.range e.asked) ∨
        ∃ outer, region = .turns (List.range e.asked) outer)
      (hscene : e.Scene s.world (some e.root) false finished) :
      Outset e finished 1 s

namespace Outset

variable {k : Nat} {s : System}

/-- The thread is alone, so that all of its frames are those. -/
theorem single
    {frames : List Frame} {next : List Frame}
    (h : Staffed s 1 (update (fun _ => frames) 0 next)) :
    Staffed s 1 fun _ => next := by
  refine h.congr fun t ht => ?_
  rw [Nat.lt_one_iff.mp ht, Function.update_self]

/-- The threads that there are not yet do nothing. -/
theorem advance_other
    (h : Outset e finished k s)
    {index : Nat}
    (hindex : index ≠ 0) :
    s.advance index = s ∧ s.frameAt index = none := by
  have hnone : ∀ {frames : Nat → List Frame}, Staffed s 1 frames →
      s.advance index = s ∧ s.frameAt index = none :=
    fun hstaffed => hstaffed.advance_of_over fun hlt => absurd (Nat.lt_one_iff.mp hlt) hindex
  cases h with
  | calling hstaffed | claiming hstaffed | enqueuing hstaffed | announcing hstaffed
  | opening hstaffed | entering hstaffed =>
      exact hnone hstaffed

/-- Nothing of the job is performed yet. -/
theorem silent
    (h : Outset e finished k s) :
    (s.frameAt 0).bind Frame.action? = none ∧ (s.frameAt 0).bind Frame.moment? = none := by
  have hsilent : ∀ {frame : Frame} {frames : List Frame},
      Staffed s 1 (fun _ => frame :: frames) → frame.action? = none ∧ frame.moment? = none →
      (s.frameAt 0).bind Frame.action? = none ∧ (s.frameAt 0).bind Frame.moment? = none := by
    intro frame frames hstaffed hframe
    rw [hstaffed.frameAt Nat.one_pos rfl]
    exact hframe
  cases h with
  | calling hstaffed =>
      exact hsilent hstaffed e.request.silent
  | claiming hstaffed | enqueuing hstaffed | announcing hstaffed | opening hstaffed =>
      exact hsilent hstaffed ⟨rfl, rfl⟩
  | entering hstaffed hregion =>
      refine hsilent hstaffed ?_
      rcases hregion with rfl | ⟨outer, rfl⟩ <;> exact ⟨rfl, rfl⟩

theorem step_claiming
    (hready : e.Ready)
    (hstaffed : Staffed s 1 fun _ =>
      [.run (.claim e.request.threads) e.root e.request.thunk, .perform []])
    (hworld : s.world = e.request.called) :
    Outset e finished 4 (s.advance 0) := by
  have hscheduler := e.request.scheduler_called
  have hmove : ∀ identity, ∃ other, Frame.step s.world identity
      (.run (.claim e.request.threads) e.root e.request.thunk) =
        .go { e.request.called with
          scheduler := { e.request.called.scheduler with running := true } } other
          [.run (.enqueue e.asked) e.root e.request.thunk] := by
    intro identity
    refine ⟨identity, ?_⟩
    rw [hworld, Frame.step, RunPoint.step_claim, hscheduler]
    refine (if_neg (Nat.not_lt_of_le hready.few)).trans (if_neg ?_)
    rw [hready.running]
    exact Bool.false_ne_true
  obtain ⟨hnext, hafter⟩ := hstaffed.advance_of_go Nat.one_pos rfl hmove
  exact .enqueuing (single hnext) hafter

theorem step_enqueuing
    (hready : e.Ready)
    (hfinished : e.request.world.scheduler.finished = finished)
    (hstaffed : Staffed s 1 fun _ =>
      [.run (.enqueue e.asked) e.root e.request.thunk, .perform []])
    (hworld : s.world = { e.request.called with
      scheduler := { e.request.called.scheduler with running := true } }) :
    Outset e finished 3 (s.advance 0) := by
  have hscheduler := e.request.scheduler_called
  have hpos : 0 < e.deques := Nat.lt_of_lt_of_le hready.manned hready.few
  have hclaimed : Scheduler.Follows { e.request.called.scheduler with running := true }
      e.capacity fun _ => {} := by
    rw [hscheduler]
    exact hready.follows
  obtain ⟨t, hpush, hkeeps, hlone⟩ := Scheduler.Lone.push hclaimed (by rw [hscheduler]; rfl)
    (by rw [hscheduler]; exact hready.trials) (by rw [hscheduler]; exact hready.tags) hpos e.root
  have hmove : ∀ identity, ∃ other, Frame.step s.world identity
      (.run (.enqueue e.asked) e.root e.request.thunk) =
        .go { e.request.called with scheduler := t } other
          [.run (.announce e.asked) e.root e.request.thunk] := by
    intro identity
    rw [hworld]
    exact ⟨identity, Frame.step_enqueue_of_ok hpush identity e.asked e.request.thunk⟩
  obtain ⟨hnext, hafter⟩ := hstaffed.advance_of_go Nat.one_pos rfl hmove
  refine .announcing (single hnext) (by rw [hafter]; exact e.request.style_called) ?_
  rw [hafter]
  refine ⟨hlone, ?_, ⟨{}, hready.fresh, rfl⟩, hready.code, ?_⟩
  · rw [hkeeps.finished, hscheduler]
    exact hfinished
  · rw [← e.request.transcript_called]
    exact .refl _

/-- The thread comes to the region, whose workers are those that are asked for. -/
theorem step_opening
    (hready : e.Ready)
    (hstaffed : Staffed s 1 fun _ =>
      [.run (.open e.asked) e.root e.request.thunk, .perform []])
    (hstyle : s.world.style = e.request.world.style)
    (hscene : e.Scene s.world (some e.root) false finished) :
    Outset e finished 1 (s.advance 0) := by
  have hworkers : s.world.style.workersOf e.asked = List.range e.asked := by
    rw [HostStyle.workersOf, hstyle, hready.pool]
    rfl
  have hregion : ∀ identity, regionFrame s.world.style e.asked identity =
      .recruit (List.range e.asked) ∨
        ∃ outer,
          regionFrame s.world.style e.asked identity = .turns (List.range e.asked) outer := by
    intro identity
    rw [regionFrame, hworkers]
    split
    · exact Or.inl rfl
    · exact Or.inr ⟨identity, rfl⟩
  obtain ⟨w, other, next, ⟨identity, hmove⟩, hnext, hafter⟩ :=
    hstaffed.advance_of_moves Nat.one_pos rfl
      (fun move (h : ∃ identity, move = .go s.world identity
        [regionFrame s.world.style e.asked identity, .run .clear e.root e.request.thunk]) => by
          obtain ⟨identity, rfl⟩ := h
          exact ⟨_, _, _, rfl⟩)
      fun identity => ⟨identity, rfl⟩
  cases hmove
  exact .entering (single hnext) (hregion _) (by rw [hafter]; exact hscene)

/-- The region is entered by one thread for each worker, or by the only thread for the first one. -/
theorem step_entering
    (hready : e.Ready)
    {region : Frame}
    (hstaffed : Staffed s 1 fun _ => region :: e.request.after)
    (hregion : region = .recruit (List.range e.asked) ∨
      ∃ outer, region = .turns (List.range e.asked) outer)
    (hscene : e.Scene s.world (some e.root) false finished) :
    ∃ count frame upper, Opened e finished (s.advance 0) count frame upper := by
  obtain ⟨more, hmore⟩ := Nat.exists_eq_succ_of_ne_zero (Nat.ne_of_gt hready.manned)
  rcases hregion with rfl | ⟨outer, rfl⟩
  · rw [hmore] at hstaffed
    obtain ⟨outer, hnext, hworld⟩ := hstaffed.advance_of_recruit rfl
    refine ⟨more + 1, .crew ((List.range more).map (1 + ·)) outer,
      fun t => [System.workerFrame t], hnext, Nat.succ_pos more, Nat.le_of_eq hmore.symm, ?_, rfl,
      fun t ht => ⟨t, ?_, rfl⟩, ?_⟩
    · intro t
      rw [List.mem_map]
      constructor
      · rintro ⟨u, hu, rfl⟩
        rw [List.mem_range] at hu
        omega
      · rintro ⟨hne, hlt⟩
        exact ⟨t - 1, List.mem_range.mpr (by omega), by omega⟩
    · exact Nat.lt_of_lt_of_le (hmore ▸ ht) hready.few
    · rw [hworld]
      exact hscene
  · have hrange : List.range e.asked = 0 :: (List.range more).map Nat.succ := by
      rw [hmore, Nat.succ_eq_add_one, List.range_succ_eq_map]
    rw [hrange] at hstaffed
    obtain ⟨hnext, hworld⟩ := hstaffed.advance_of_go Nat.one_pos rfl fun identity => ⟨_, rfl⟩
    refine ⟨1, .turns ((List.range more).map Nat.succ) outer, fun _ => [.loop .poll 0 .finished 0],
      hnext.congr fun t ht => ?_, Nat.one_pos, hready.manned, ⟨rfl, ?_⟩, rfl,
      fun t _ => ⟨0, Nat.lt_of_lt_of_le hready.manned hready.few, rfl⟩, ?_⟩
    · rw [Nat.lt_one_iff.mp ht, Function.update_self]
      rfl
    · intro v hv
      obtain ⟨u, hu, rfl⟩ := List.mem_map.mp hv
      rw [List.mem_range] at hu
      exact Nat.lt_of_lt_of_le (by omega) hready.few
    · rw [hworld]
      exact hscene

/-- Each step of the calling thread comes nearer to the open region. -/
theorem advance
    (h : Outset e finished k s)
    (hready : e.Ready)
    (hfinished : e.request.world.scheduler.finished = finished) :
    (∃ l, l < k ∧ Outset e finished l (s.advance 0)) ∨
      ∃ count region upper, Opened e finished (s.advance 0) count region upper := by
  cases h with
  | calling hstaffed hworld =>
      have hmove : ∀ identity, ∃ other, Frame.step s.world identity
          (.perform [e.request.action]) = .go e.request.called other
            [.run (.claim e.request.threads) e.root e.request.thunk, .perform []] := by
        intro identity
        rw [hworld]
        exact ⟨identity, e.request.calls identity⟩
      obtain ⟨hnext, hafter⟩ := hstaffed.advance_of_go Nat.one_pos rfl hmove
      exact Or.inl ⟨5, Nat.lt_succ_self 5, .claiming (single hnext) hafter⟩
  | claiming hstaffed hworld =>
      exact Or.inl ⟨4, Nat.lt_succ_self 4, step_claiming hready hstaffed hworld⟩
  | enqueuing hstaffed hworld =>
      exact Or.inl ⟨3, Nat.lt_succ_self 3, step_enqueuing hready hfinished hstaffed hworld⟩
  | announcing hstaffed hstyle hscene =>
      obtain ⟨hnext, hafter⟩ := hstaffed.advance_of_go Nat.one_pos rfl
        fun identity => ⟨identity, rfl⟩
      refine Or.inl ⟨2, Nat.lt_succ_self 2, .opening (single hnext) ?_ ?_⟩
      · rw [hafter]
        exact (World.Upholds.trace _ _).style.trans hstyle
      · have hmarked : e.Scene { s.world with
            scheduler := { s.world.scheduler with activeWorkers := e.asked } }
            (some e.root) false finished :=
          ⟨hscene.lone.congr rfl rfl, hscene.finished, hscene.flags, hscene.body, hscene.quiet⟩
        rw [hafter]
        exact hmarked.trace _
  | opening hstaffed hstyle hscene =>
      exact Or.inl ⟨1, Nat.lt_succ_self 1, step_opening hready hstaffed hstyle hscene⟩
  | entering hstaffed hregion hscene =>
      exact Or.inr (step_entering hready hstaffed hregion hscene)

end Outset

end Errand
end Machine
end WorkStealing
