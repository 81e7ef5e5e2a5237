import WorkStealing.Proofs.ForkJoin.Accounts
import WorkStealing.Proofs.ForkJoin.Safety

/-!
# The balance of a run

All steps of a run are fair: those of the thread that calls, and those of the workers in
the region. So the laws of the counters hold at all times, and when the run has returned
nothing is owed any more (`Launch.Balanced`).
-/

namespace WorkStealing
namespace ForkJoin

open Machine (Fair Frame Move RunPoint System Thread World)

namespace Alone

variable {s : System} {frames : List Frame}

/-- The first thread, and the others, which are over. -/
theorem exists_threads
    (h : Alone s frames) :
    ∃ thread others, s.threads.toList = thread :: others ∧ thread.frames = frames ∧
      ∀ other ∈ others, other.frames = [] := by
  obtain ⟨thread, hthread, hframes, -⟩ := h.first
  rw [← Array.getElem?_toList] at hthread
  cases hlist : s.threads.toList with
  | nil =>
      rw [hlist] at hthread
      cases hthread
  | cons one others =>
      rw [hlist] at hthread
      cases hthread
      refine ⟨thread, others, rfl, hframes, fun other hother => ?_⟩
      obtain ⟨t, hget⟩ := List.mem_iff_getElem?.mp hother
      refine (h.others (t + 1) other (Nat.succ_ne_zero t) ?_).1
      rw [← Array.getElem?_toList, hlist, List.getElem?_cons_succ]
      exact hget

/-- Only the first thread owes something. -/
theorem owed
    (h : Alone s frames)
    (law : Law) :
    s.owed law = law.owed frames := by
  obtain ⟨thread, others, hlist, hframes, hover⟩ := h.exists_threads
  have hnone : (others.map fun thread => law.owed thread.frames).sum = 0 := by
    refine List.sum_eq_zero fun part hpart => ?_
    obtain ⟨other, hother, rfl⟩ := List.mem_map.mp hpart
    rw [hover other hother]
    rfl
  rw [System.owed, hlist, List.map_cons, List.sum_cons, hnone, hframes, Int.add_zero]

theorem isRunning
    (h : Alone s frames) :
    s.isRunning = frames.any Frame.isRun := by
  obtain ⟨thread, others, hlist, hframes, hover⟩ := h.exists_threads
  have hnone : (others.any fun thread => thread.frames.any Frame.isRun) = false := by
    refine List.any_eq_false.mpr fun other hother => ?_
    rw [hover other hother]
    exact Bool.false_ne_true
  rw [System.isRunning, ← Array.any_toList, hlist, List.any_cons, hnone, hframes, Bool.or_false]

end Alone

/-- What holds of the counters at all times in a run, if they were at most so large before. -/
structure Launch.Balanced (l : Launch) (capacity most : Nat) (s : System) (forks bumps : Nat) :
    Prop where
  audit : System.Audit l.world most s forks bumps
  /-- When no run is going on, the scheduler is idle, and nothing is owed. -/
  rests : s.aborted = none → s.isRunning = false →
    s.world.scheduler.IsIdle capacity ∧ ∀ law, s.owed law = 0

/-- What holds after a step of a thread. -/
abbrev Launch.BalancedAfter (l : Launch) (capacity most : Nat) (s : System)
    (forks bumps index : Nat) : Prop :=
  l.Balanced capacity most (s.advance index) (forks + (s.forksAt index).toNat)
    (bumps + ((s.frameAt index).bind Frame.counter?).toList.length)

namespace Launch.Balanced

variable {l : Launch} {capacity most forks bumps index : Nat} {s : System} {w : World}
  {frame : Frame} {frames below : List Frame}

/-- Nothing happens. -/
theorem unchanged
    (h : l.Balanced capacity most s forks bumps)
    (hsame : s.advance index = s ∧ s.frameAt index = none) :
    l.BalancedAfter capacity most s forks bumps index := by
  refine ⟨h.audit.unchanged hsame, ?_⟩
  rw [hsame.1]
  exact h.rests

/-- The only thread that is not over makes a fair step. -/
theorem alone
    (h : l.Balanced capacity most s forks bumps)
    (halone : Alone s (frame :: below))
    (hmove : ∀ identity, ∃ other, frame.step s.world identity = .go w other frames)
    (hfair : Fair s.world frame w frames)
    (hfork : frame.isFork = false)
    (hrests : (frames ++ below).any Frame.isRun = false →
      w.scheduler.IsIdle capacity ∧ ∀ law : Law, law.owed (frames ++ below) = 0) :
    l.BalancedAfter capacity most s forks bumps 0 := by
  obtain ⟨hafter, hnext, -⟩ := halone.advance_of_go hmove
  obtain ⟨thread, hthread, hframes, -⟩ := halone.first
  obtain ⟨other, hother⟩ := hmove thread.identity
  refine ⟨h.audit.go halone.going hthread hframes hother hfair fun htrue =>
    absurd (hfork.symm.trans htrue) Bool.false_ne_true, fun _ hrunning => ?_⟩
  rw [hafter.isRunning] at hrunning
  obtain ⟨hidle, howed⟩ := hrests hrunning
  refine ⟨?_, fun law => ?_⟩
  · rw [hnext]
    exact hidle
  · rw [hafter.owed]
    exact howed law

/-- The only thread that is not over makes a fair step in a call of a run, and stays in it. -/
theorem stays
    (h : l.Balanced capacity most s forks bumps)
    (halone : Alone s (frame :: below))
    (hmove : ∀ identity, ∃ other, frame.step s.world identity = .go w other frames)
    (hfair : Fair s.world frame w frames)
    (hfork : frame.isFork = false)
    (hrunning : (frames ++ below).any Frame.isRun = true) :
    l.BalancedAfter capacity most s forks bumps 0 :=
  h.alone halone hmove hfair hfork fun hnot => absurd (hnot.symm.trans hrunning) Bool.false_ne_true

section Before

/-- The thread calls. -/
theorem calling
    (h : l.Balanced capacity most s forks bumps)
    (halone : Alone s [.perform [.runThunk l.thunk l.threads]])
    (hworld : s.world = l.world) :
    l.BalancedAfter capacity most s forks bumps 0 := by
  refine h.stays halone (fun identity => ⟨identity, l.calls hworld identity⟩) ?_ rfl rfl
  rw [hworld]
  exact .quiet rfl rfl rfl fun law => by cases law <;> rfl

/-- The run is refused, or claims the scheduler. -/
theorem claiming
    (h : l.Balanced capacity most s forks bumps)
    (hidle : l.world.scheduler.IsIdle capacity)
    (halone : Alone s [.run (.claim l.threads) l.root true, .perform []])
    (hworld : s.world = l.called) :
    l.BalancedAfter capacity most s forks bumps 0 := by
  by_cases hmany : l.world.scheduler.dequeCount < l.asked
  · refine h.alone halone (fun identity => ⟨identity, l.refuses hworld hmany identity⟩) ?_ rfl
      fun _ => ⟨⟨hidle.running, hidle.finished, hidle.clean⟩, ?_⟩
    · rw [hworld]
      exact .of_places rfl rfl Array.toList_push fun law => by cases law <;> rfl
    · intro law
      cases law <;> rfl
  · refine h.stays halone
      (fun identity => ⟨identity, l.claims hworld hidle.running hmany identity⟩) ?_ rfl rfl
    rw [hworld]
    exact .quiet rfl rfl rfl fun law => by cases law <;> rfl

/-- The first job is pushed. -/
theorem enqueuing
    (h : l.Balanced capacity most s forks bumps)
    (hready : l.Ready capacity)
    (halone : Alone s [.run (.enqueue l.asked) l.root true, .perform []])
    (hbacked : l.Backed capacity s.world fun _ => {}) :
    l.BalancedAfter capacity most s forks bumps 0 := by
  obtain ⟨-, hbacks⟩ := hbacked
  obtain ⟨v, hv⟩ := List.exists_mem_of_ne_nil _ hready.valid.manned
  have hzero : 0 < s.world.scheduler.dequeCount := by
    rw [hbacks.deques]
    exact Nat.zero_lt_of_lt (hready.valid.below v hv)
  have hroom : (Lane.bottom {}) < capacity := hbacks.follows.capacity_pos hzero
  obtain ⟨t, hpush, hfollows, -, -⟩ := hbacks.follows.push_of_lt hzero hroom l.root
  have hload := Scheduler.load_of_atPlace hpush hbacks.follows hfollows
  have hmove : ∀ identity, ∃ other, Frame.step s.world identity
      (.run (.enqueue l.asked) l.root true) =
        .go { s.world with scheduler := t } other [.run (.announce l.asked) l.root true] :=
    fun identity => ⟨identity, l.enqueues hpush identity⟩
  have hmore : t.load = s.world.scheduler.load + 1 := by
    rw [hload]
    show s.world.scheduler.load - ((0 : Nat) : Int) + ((1 : Nat) : Int) = _
    omega
  exact h.stays halone hmove (.of (Scheduler.total_of_onDeque hpush) hmore
    (List.append_nil _).symm fun law => by cases law <;> rfl) rfl rfl

/-- The number of workers is announced. -/
theorem announcing
    (h : l.Balanced capacity most s forks bumps)
    (halone : Alone s [.run (.announce l.asked) l.root true, .perform []]) :
    l.BalancedAfter capacity most s forks bumps 0 := by
  obtain ⟨events, hevents, hreturns, hscheduler⟩ :=
    World.exists_trace
      { s.world with scheduler := { s.world.scheduler with activeWorkers := l.asked } }
      (.starting l.asked s.world.scheduler.dequeCount)
  have hplaces := congrArg Scheduler.places hscheduler
  refine h.stays halone (fun identity => ⟨identity, rfl⟩)
    (.of_places rfl hplaces hevents ?_) rfl rfl
  rw [hreturns]
  intro law
  cases law <;> rfl

/-- The workers of the region are found. -/
theorem finding
    (h : l.Balanced capacity most s forks bumps)
    (hready : l.Ready capacity)
    (halone : Alone s [.run (.open l.asked) l.root true, .perform []])
    (hbacked : l.Backed capacity s.world l.lanes) :
    l.BalancedAfter capacity most s forks bumps 0 := by
  have hmove : ∀ identity, ∃ other, Frame.step s.world identity
      (.run (.open l.asked) l.root true) =
        .go s.world other [.recruit l.workers, .run .clear l.root true] :=
    fun identity => ⟨identity, l.finds hbacked.1 hready.atOnce identity⟩
  exact h.stays halone hmove (.quiet rfl rfl rfl
    fun law => by cases law <;> rfl) rfl rfl

/-- The region is opened. -/
theorem recruiting
    (h : l.Balanced capacity most s forks bumps)
    (halone : Alone s (.recruit l.workers :: l.after)) :
    l.BalancedAfter capacity most s forks bumps 0 := by
  obtain ⟨thread, hthread, hframes, -⟩ := halone.first
  have hadvance := System.advance_of_recruit halone.going hthread hframes
    (rfl : Frame.step s.world thread.identity (.recruit l.workers) = .recruit s.world l.workers)
  have hin : 0 < s.threads.size := (Array.getElem?_eq_some_iff.mp hthread).1
  refine ⟨h.audit.still halone.frameAt rfl halone.going ?_ fun law => ?_, fun _ hnot => ?_⟩
  · rw [hadvance]
    exact System.Audit.world_recruit _ _ _ _ _ _
  · rw [hadvance]
    exact System.Audit.owed_recruit hthread hframes _ law
  · rw [hadvance, System.Audit.isRunning_recruit hin rfl] at hnot
    cases hnot

/-- The laws hold on until the region is open. -/
theorem before
    (h : l.Balanced capacity most s forks bumps)
    (hready : l.Ready capacity)
    {turns : Nat}
    (hopening : Opening l capacity turns s) :
    l.BalancedAfter capacity most s forks bumps 0 := by
  cases hopening with
  | calling halone hsize hworld =>
      exact h.calling halone hworld
  | claiming halone hsize hworld =>
      exact h.claiming hready.idle halone hworld
  | enqueuing halone hsize hbacked =>
      exact h.enqueuing hready halone hbacked
  | announcing halone hsize hbacked =>
      exact h.announcing halone
  | finding halone hsize hbacked =>
      exact h.finding hready halone hbacked
  | recruiting halone hsize hbacked =>
      exact h.recruiting halone

end Before

section Working

variable {a : Crew} {v : Nat}

/-- The thread that calls is in the call of the run while the region is open. -/
theorem any_beneath
    (hbelow : l.Beneath below) :
    below.any Frame.isRun = true := by
  rcases hbelow with ⟨outer, rfl⟩ | rfl <;> rfl

theorem isRunning_of_shows
    {g : Setting}
    (hshows : Shows g below s a)
    (hmanned : g.workers ≠ [])
    (hbelow : l.Beneath below) :
    s.isRunning = true := by
  obtain ⟨v, others, hworkers⟩ := List.exists_cons_of_ne_nil hmanned
  obtain ⟨thread, hthread, hplays⟩ := hshows.plays 0 v (by rw [hworkers]; rfl)
  obtain ⟨frames, -, hframes⟩ := hplays.frames
  refine System.Audit.isRunning_of_thread hthread ?_
  rw [hframes, List.any_append, Setting.beneath, if_pos rfl, any_beneath hbelow, Bool.or_true]

/-- The thread that calls has come back from its worker, and waits for the others. -/
theorem leaving
    (h : l.Balanced capacity most s forks bumps)
    (hmanned : l.workers ≠ [])
    (hbelow : l.Beneath below)
    (hshows : Shows (l.setting capacity) below s a)
    (hv : l.workers[0]? = some v)
    (hstack : a.stack v = []) :
    l.BalancedAfter capacity most s forks bumps 0 := by
  obtain ⟨thread, hthread, hframes⟩ := hshows.exists_left hv hstack
  rw [Setting.beneath, if_pos rfl] at hframes
  have hin : 0 < s.threads.size := (Array.getElem?_eq_some_iff.mp hthread).1
  have hgoing := hshows.going
  rcases hbelow with ⟨outer, rfl⟩ | rfl
  · have hmove : Frame.step s.world thread.identity
        (.crew ((List.range l.workers.tail.length).map (1 + ·)) outer) =
          .go s.world outer [.disband ((List.range l.workers.tail.length).map (1 + ·)) none] := rfl
    refine ⟨h.audit.go hgoing hthread hframes hmove (.quiet rfl rfl rfl
      fun law => by cases law <;> rfl) (absurd · Bool.false_ne_true), fun _ hnot => ?_⟩
    rw [System.advance_of_go hgoing hthread hframes hmove,
      System.Audit.isRunning_of_thread (Array.getElem?_setIfInBounds_self_of_lt hin) rfl] at hnot
    cases hnot
  · have hframe := System.frameAt_of_thread hgoing hthread hframes
    cases hover : System.allOver s.threads ((List.range l.workers.tail.length).map (1 + ·)) with
    | false =>
        have hadvance := System.advance_of_busy hgoing hthread hframes hover
        refine ⟨h.audit.still hframe rfl hgoing (by rw [hadvance]) fun law => by rw [hadvance],
          fun _ hnot => ?_⟩
        rw [hadvance, isRunning_of_shows hshows hmanned (Or.inr rfl)] at hnot
        cases hnot
    | true =>
        have hadvance := System.advance_of_allOver hgoing hthread hframes hover
          (Course.anyPanicked_eq_false hshows _)
        refine ⟨h.audit.still hframe rfl hgoing (by rw [hadvance]) fun law => ?_, fun _ hnot => ?_⟩
        · rw [hadvance, System.Audit.owed_set hthread, hframes, Law.owed_cons]
          have hnone : law.owes
              (.disband ((List.range l.workers.tail.length).map (1 + ·)) none) = 0 := by
            cases law <;> rfl
          rw [hnone]
          show s.owed law - (0 + law.owed l.after) + law.owed l.after = s.owed law
          omega
        · rw [hadvance, System.Audit.isRunning_of_thread
            (Array.getElem?_setIfInBounds_self_of_lt hin) rfl] at hnot
          cases hnot

/-- A thread makes a step while the region is open. -/
theorem working
    (h : l.Balanced capacity most s forks bumps)
    (hready : l.Ready capacity)
    (hbelow : l.Beneath below)
    (hshows : Shows (l.setting capacity) below s a)
    (hinv : Inv l.thunk l.root a)
    (index : Nat)
    (hbound : most + (bumps + ((s.frameAt index).bind Frame.counter?).toList.length) <
      UInt64.size) :
    l.BalancedAfter capacity most s forks bumps index := by
  cases hv : l.workers[index]? with
  | none =>
      exact h.unchanged (hshows.advance_of_none hv)
  | some v =>
      by_cases hstack : a.stack v = []
      · by_cases hindex : index = 0
        · subst hindex
          exact h.leaving hready.valid.manned hbelow hshows hv hstack
        · exact h.unchanged (hshows.advance_of_left hv hstack hindex)
      · obtain ⟨thread, frame, frames, call, calls, hthread, hframes, hidentity, hcalls, hdepicts,
          -⟩ := hshows.exists_frame hv hstack
        have hin : v < s.world.scheduler.dequeCount := by
          rw [hshows.backed.deques]
          exact hready.valid.below v (List.mem_of_getElem? hv)
        have hworker : s.world.scheduler.workerOf thread.identity = some v := by
          rw [hidentity]
          exact Scheduler.workerOf_of_lt hin
        have hfits : ∀ counter, frame.counter? = some counter →
            s.world.scheduler.total counter + 1 < UInt64.size := by
          intro counter hcounter
          rw [System.frameAt_of_thread hshows.going hthread hframes, Option.bind_some,
            hcounter] at hbound
          exact Nat.lt_of_le_of_lt (Nat.add_le_add_right (h.audit.bounded counter) 1) hbound
        have hfair := isFair_step hinv (hready.valid.below v (List.mem_of_getElem? hv))
          hready.valid.word hcalls hdepicts hshows.backed hfits
        rw [← hidentity] at hfair
        refine ⟨h.audit.advance hshows.going hthread hframes hfair fun _ => ?_,
          fun hgoing hnot => ?_⟩
        · rw [hworker]
          rfl
        · rcases hshows.advance hready.valid hinv hv hstack with ⟨b, -, hnext, -⟩ | hgives
          · rw [isRunning_of_shows hnext hready.valid.manned hbelow] at hnot
            cases hnot
          · rcases hgives.cause with hcause | ⟨hcause, -⟩
            · rw [hcause] at hgoing
              cases hgoing
            · rw [hcause] at hgoing
              cases hgoing

end Working

section After

variable {lanes : Nat → Lane} {performed : List Action} {history : List Machine.Moment}

/-- A deque is reset, or all of them have been. -/
theorem resetting
    (h : l.Balanced capacity most s forks bumps)
    {deque : Nat}
    (halone : Alone s [.run (.reset deque) l.root true, .perform []])
    (hsettled : Settled l capacity s.world lanes performed history) :
    l.BalancedAfter capacity most s forks bumps 0 := by
  by_cases hdeque : deque < s.world.scheduler.dequeCount
  · rcases hsettled.follows.resetDeque hdeque (hsettled.empty deque) with
      ⟨t, hok, hfollows, -⟩ | hfail
    · have hload := Scheduler.load_of_atPlace hok hsettled.follows hfollows
      have hsame : t.load = s.world.scheduler.load + 0 := by
        rw [hload, hsettled.empty deque, List.length_nil]
        omega
      exact h.stays halone
        (fun identity => ⟨identity, Frame.step_reset_of_ok hdeque hok identity l.root true⟩)
        (.of (Scheduler.total_of_resetDeque hok) hsame (List.append_nil _).symm
          fun law => by cases law <;> rfl) rfl rfl
    · obtain ⟨thread, hthread, hframes, -⟩ := halone.first
      have hmove := Frame.step_reset_of_error hdeque hfail thread.identity l.root true
      refine ⟨h.audit.abort halone.going hthread hframes hmove (fun _ => rfl) rfl _,
        fun hgoing => ?_⟩
      rw [System.advance_of_error halone.going hthread hframes hmove] at hgoing
      cases hgoing
  · exact h.stays halone
      (fun identity => ⟨identity, Frame.step_reset_of_not_lt hdeque identity l.root true⟩)
      (.quiet rfl rfl rfl fun law => by cases law <;> rfl) rfl rfl

/-- The run reports and returns; the statistics can be written. -/
theorem completing
    (h : l.Balanced capacity most s forks bumps)
    (halone : Alone s [.run .complete l.root true, .perform []])
    (hsettled : Settled l capacity s.world lanes performed history)
    (hcleared : Cleared s.world.scheduler lanes .complete)
    (hbound : most + bumps < UInt64.size) :
    l.BalancedAfter capacity most s forks bumps 0 := by
  obtain ⟨hrunning, hfinished, hlanes⟩ := hcleared
  have hidle : s.world.scheduler.IsIdle capacity :=
    isIdle_of_follows hrunning hfinished (Course.settled_cleared hsettled hlanes).follows
  rcases Frame.step_complete s.world l.root true with
    ⟨traced, htraces, hmove⟩ | ⟨-, cause, hfail, -⟩
  · obtain ⟨events, hevents, hnone⟩ := htraces.exists_events
    have htranscript : (traced.emit (.ranThunk (.ok ()))).transcript.toList =
        s.world.transcript.toList ++ (events ++ [.ranThunk (.ok ())]) := by
      rw [← List.append_assoc, ← hevents]
      exact Array.toList_push
    refine h.alone halone (fun identity => ⟨identity, hmove identity⟩)
      (.of_places rfl ?_ htranscript ?_) rfl fun _ => ⟨?_, ?_⟩
    · exact congrArg Scheduler.places htraces.scheduler
    · rw [List.countP_append, hnone]
      intro law
      cases law <;> rfl
    · show traced.scheduler.IsIdle capacity
      rw [htraces.scheduler]
      exact hidle
    · intro law
      cases law <;> rfl
  · obtain ⟨stats, hstats, -⟩ := Scheduler.stats_of_fits fun counter =>
      Nat.lt_of_le_of_lt (h.audit.bounded counter) hbound
    cases hfail.symm.trans hstats

/-- The thread that calls puts the scheduler back. -/
theorem closing
    (h : l.Balanced capacity most s forks bumps)
    {point : RunPoint}
    (halone : Alone s [.run point l.root true, .perform []])
    (hsettled : Settled l capacity s.world lanes performed history)
    (hcleared : Cleared s.world.scheduler lanes point)
    (hbound : most + bumps < UInt64.size) :
    l.BalancedAfter capacity most s forks bumps 0 := by
  cases point with
  | clear =>
      exact h.stays halone (fun identity => ⟨identity, rfl⟩)
        (.quiet rfl rfl rfl fun law => by cases law <;> rfl) rfl rfl
  | reset deque =>
      exact h.resetting halone hsettled
  | release =>
      exact h.stays halone (fun identity => ⟨identity, rfl⟩)
        (.quiet rfl rfl rfl fun law => by cases law <;> rfl) rfl rfl
  | complete =>
      exact h.completing halone hsettled hcleared hbound
  | _ =>
      exact absurd hcleared id

/-- The run has returned, and the thread has nothing left to do. -/
theorem ended
    (h : l.Balanced capacity most s forks bumps)
    (halone : Alone s frames)
    (hframes : frames = [.perform []] ∨ frames = [])
    (index : Nat) :
    l.BalancedAfter capacity most s forks bumps index := by
  rcases hframes with rfl | rfl
  · by_cases hindex : index = 0
    · subst hindex
      refine h.alone halone (fun identity => ⟨identity, rfl⟩)
        (.quiet rfl rfl rfl fun law => by cases law <;> rfl) rfl
        fun _ => ⟨(h.rests halone.going halone.isRunning).1, fun _ => rfl⟩
    · exact h.unchanged (halone.advance_other hindex)
  · exact h.unchanged (halone.advance_nil index)

end After

/-- The laws hold on at each stage of a run. -/
theorem of_course
    (h : l.Balanced capacity most s forks bumps)
    (hready : l.Ready capacity)
    {P : Crew → Prop} {turns : Nat} {performed : List Action} {history : List Machine.Moment}
    (hcourse : Course l capacity P turns s performed history)
    (index : Nat)
    (hbound : most + (bumps + ((s.frameAt index).bind Frame.counter?).toList.length) <
      UInt64.size) :
    l.BalancedAfter capacity most s forks bumps index := by
  have hfirst : ∀ {frames : List Frame}, Alone s frames →
      l.BalancedAfter capacity most s forks bumps 0 →
      l.BalancedAfter capacity most s forks bumps index := by
    intro frames halone hnext
    by_cases hindex : index = 0
    · subst hindex
      exact hnext
    · exact h.unchanged (halone.advance_other hindex)
  cases hcourse with
  | opening hopening =>
      obtain ⟨frame, frames, halone, -⟩ := hopening.exists_alone
      exact hfirst halone (h.before hready hopening)
  | working hbelow hshows hinv hcrew =>
      exact h.working hready hbelow hshows hinv index hbound
  | closing lanes halone hsettled hcleared hquiet =>
      exact hfirst halone (h.closing halone hsettled hcleared (by omega))
  | returned halone hframes hsettled hrunning hfinished =>
      exact h.ended halone hframes index
  | failed hgoing hover horderly hfinished hcomplete hquiet =>
      exact h.unchanged
        (System.advance_of_forall_over (fun thread hthread => (hover thread hthread).1) index)
  | refused hmany halone hframes hreport =>
      exact h.ended halone hframes index
  | gaveUp error haborted hsound hquiet horderly hcompletes hcause =>
      exact h.unchanged (System.advance_of_aborted (by rw [haborted]; rfl) index)

end Launch.Balanced

/-- The stages of a run that asks for too many workers. -/
inductive Refusal (l : Launch) : System → Prop where
  | calling {s : System}
      (halone : Alone s [.perform [.runThunk l.thunk l.threads]])
      (hworld : s.world = l.world) :
      Refusal l s
  | claiming {s : System}
      (halone : Alone s [.run (.claim l.threads) l.root true, .perform []])
      (hworld : s.world = l.called) :
      Refusal l s
  | ended {s : System} {frames : List Frame}
      (halone : Alone s frames)
      (hframes : frames = [.perform []] ∨ frames = []) :
      Refusal l s

namespace Refusal

variable {l : Launch} {capacity most forks bumps : Nat} {s : System}

/-- A step of a run that is refused. -/
theorem advance
    (h : Refusal l s)
    (hmany : l.world.scheduler.dequeCount < l.asked)
    (hidle : l.world.scheduler.IsIdle capacity)
    (hbalanced : l.Balanced capacity most s forks bumps)
    (index : Nat) :
    Refusal l (s.advance index) ∧ l.BalancedAfter capacity most s forks bumps index := by
  have hother : ∀ {frames : List Frame}, Alone s frames → index ≠ 0 →
      Refusal l (s.advance index) ∧ l.BalancedAfter capacity most s forks bumps index := by
    intro frames halone hindex
    refine ⟨?_, hbalanced.unchanged (halone.advance_other hindex)⟩
    rw [(halone.advance_other hindex).1]
    exact h
  cases h with
  | calling halone hworld =>
      by_cases hindex : index = 0
      · subst hindex
        obtain ⟨hafter, hnext, -⟩ := halone.advance_of_go fun identity =>
          ⟨identity, l.calls hworld identity⟩
        exact ⟨.claiming hafter hnext, hbalanced.calling halone hworld⟩
      · exact hother halone hindex
  | claiming halone hworld =>
      by_cases hindex : index = 0
      · subst hindex
        obtain ⟨hafter, -, -⟩ := halone.advance_of_go fun identity =>
          ⟨identity, l.refuses hworld hmany identity⟩
        exact ⟨.ended hafter (Or.inl rfl), hbalanced.claiming hidle halone hworld⟩
      · exact hother halone hindex
  | ended halone hframes =>
      refine ⟨?_, hbalanced.ended halone hframes index⟩
      rcases hframes with rfl | rfl
      · by_cases hindex : index = 0
        · subst hindex
          exact .ended halone.advance_of_return.1 (Or.inr rfl)
        · rw [(halone.advance_other hindex).1]
          exact .ended halone (Or.inl rfl)
      · rw [(halone.advance_nil index).1]
        exact .ended halone (Or.inr rfl)

end Refusal

/-- A launch of strict code on a host that plays each worker that is asked for on a thread of its
own. -/
structure Launch.Fit (l : Launch) : Prop where
  strict : Code.isStrict l.thunk = true
  /-- Each job made before has flags. -/
  flags : l.world.flags.size = l.world.bodies.size
  atOnce : l.world.style.atOnce = true
  pool : l.world.style.workers = none

namespace Launch

variable {l : Launch} {capacity most : Nat}

/-- If there are as many deques as workers are asked for, the run is ready to begin. -/
theorem Fit.ready
    (h : l.Fit)
    (hidle : l.world.scheduler.IsIdle capacity)
    (hmanned : 0 < l.asked)
    (hfew : l.asked ≤ l.world.scheduler.dequeCount)
    (hword : l.world.scheduler.dequeCount < UInt64.size) :
    l.Ready capacity := by
  have hworkers : l.workers = List.range l.asked := by
    rw [workers, Machine.HostStyle.workersOf, h.pool]
    rfl
  refine ⟨h.strict, hidle, h.flags, h.atOnce, ⟨?_, ?_, fun v hv => ?_, hword⟩⟩
  · show l.workers ≠ []
    rw [hworkers]
    exact List.ne_nil_of_length_pos (by rw [List.length_range]; exact hmanned)
  · show l.workers.Nodup
    rw [hworkers]
    exact List.nodup_range
  · have hmem : v ∈ l.workers := hv
    rw [hworkers, List.mem_range] at hmem
    exact Nat.lt_of_lt_of_le hmem hfew

/-- Before the thread calls, only that thread has something to do. -/
theorem alone_system
    (l : Launch) :
    Alone l.system [.perform [.runThunk l.thunk l.threads]] := by
  refine ⟨rfl, ⟨_, rfl, rfl, rfl⟩, fun t thread ht hget => ?_⟩
  obtain ⟨hlt, -⟩ := Array.getElem?_eq_some_iff.mp hget
  exact absurd (Nat.lt_one_iff.mp hlt) ht

/-- The laws hold before the thread calls. -/
theorem balanced_system
    (hidle : l.world.scheduler.IsIdle capacity)
    (hmost : ∀ counter, l.world.scheduler.total counter ≤ most) :
    l.Balanced capacity most l.system 0 0 := by
  have howed : ∀ law, l.system.owed law = 0 := by
    intro law
    rw [l.alone_system.owed]
    cases law <;> rfl
  have hbalance : ∀ law, l.system.balance law = law.value l.world := by
    intro law
    rw [System.balance, howed]
    exact Int.add_zero _
  refine ⟨⟨fun counter => hmost counter, ⟨[], (List.append_nil _).symm⟩, fun _ law _ => ?_, ?_⟩,
    fun _ _ => ⟨hidle, howed⟩⟩
  · rw [hbalance]
    show _ = _ + law.perFork * 0
    rw [Int.mul_zero, Int.add_zero]
  · exact Int.le_of_eq (hbalance .attempts)

/-- The laws hold at all times in a run, whatever the order of the steps is. -/
theorem balanced_run
    (h : l.Fit)
    (hidle : l.world.scheduler.IsIdle capacity)
    (hworkers : 0 < l.world.scheduler.maxWorkers)
    (hword : l.world.scheduler.dequeCount < UInt64.size)
    (hmost : ∀ counter, l.world.scheduler.total counter ≤ most)
    (schedule : List Nat)
    (hbound : most + (l.system.counted schedule).length < UInt64.size) :
    l.Balanced capacity most (l.system.run schedule) (l.system.forked schedule)
      (l.system.counted schedule).length := by
  have hmanned : 0 < l.asked := by
    rw [asked, Scheduler.asked]
    split
    · exact hworkers
    · exact Nat.pos_of_ne_zero ‹_›
  have hstep : ∀ (schedule : List Nat) (index : Nat),
      l.BalancedAfter capacity most (l.system.run schedule) (l.system.forked schedule)
        (l.system.counted schedule).length index →
      l.Balanced capacity most (l.system.run (schedule ++ [index]))
        (l.system.forked (schedule ++ [index]))
        (l.system.counted (schedule ++ [index])).length := by
    intro schedule index hnext
    rw [System.run_append, System.forked_append, System.counted_append, List.length_append]
    simp only [System.run_cons, System.run_nil, System.forked, System.counted, List.append_nil,
      Nat.add_zero]
    exact hnext
  by_cases hmany : l.world.scheduler.dequeCount < l.asked
  · have hall : ∀ schedule : List Nat, Refusal l (l.system.run schedule) ∧
        l.Balanced capacity most (l.system.run schedule) (l.system.forked schedule)
          (l.system.counted schedule).length := by
      intro schedule
      induction schedule using List.reverseRecOn with
      | nil =>
          exact ⟨.calling l.alone_system rfl, balanced_system hidle hmost⟩
      | append_singleton schedule index ih =>
          obtain ⟨hrefusal, hbalanced⟩ := ih.1.advance hmany hidle ih.2 index
          refine ⟨?_, hstep schedule index hbalanced⟩
          rw [System.run_append]
          exact hrefusal
    exact (hall schedule).2
  · have hready := h.ready hidle hmanned (Nat.le_of_not_lt hmany) hword
    induction schedule using List.reverseRecOn with
    | nil =>
        exact balanced_system hidle hmost
    | append_singleton schedule index ih =>
        rw [System.counted_append, List.length_append] at hbound
        have hcourse := Course.run (P := fun _ => True) hready trivial
          (fun _ _ _ _ _ _ _ => trivial) schedule
        refine hstep schedule index ((ih (by omega)).of_course hready hcourse index ?_)
        simp only [System.counted, List.append_nil] at hbound
        exact hbound

end Launch

end ForkJoin
end WorkStealing
