import WorkStealing.Proofs.ForkJoin.Inline
import WorkStealing.Proofs.ForkJoin.Safety
import WorkStealing.Proofs.Runs.Upkeep

/-!
# Runs with one worker

A run with one worker does what its thunk does outside of any run: the left branch of
each fork and then the right one (`Launch.single_runs_in_order`). What it needs is a
slot for each fork when that is entered. With fewer slots the process is given up at
the first fork for which there is none, and nothing else was different before.
-/

namespace WorkStealing

/-- How often something is counted in a run of one worker that enters so many forks. -/
def Counter.perRun (forks : Nat) : Counter → Nat
  | .jobsExecuted => 1
  | .jobsSpawned => forks
  | .localPops => forks + 1
  | .inlineJoins => forks
  | _ => 0

/-- A run executes one job that is popped, beside what its forks do. -/
theorem Counter.perRun_eq
    (forks : Nat) (counter : Counter) :
    counter.perRun forks =
      List.count counter [.localPops, .jobsExecuted] + forks * counter.perFork := by
  cases counter
  case localPops =>
      show forks + 1 = 1 + forks * 1
      omega
  all_goals simp [perRun, perFork]

/-- A clean deque is not changed by a reset. -/
theorem Scheduler.resetDeque_of_clean
    {s : Scheduler} {i : Nat} {place : Place}
    (hplace : s.places[i]? = some place)
    (hclean : place.deque.IsClean) :
    s.resetDeque i = .ok (s, ()) := by
  rw [resetDeque_of_ok hplace hclean.reset_eq, put_self hplace]

namespace ForkJoin

open Machine (Frame RunPoint System World)

section Outside

mutual

/-- Outside of runs the branches of a fork are performed one after the other. -/
theorem outside_action
    {w : World} {identity : Option Nat}
    (action : Action)
    (hstrict : Action.within Action.isPlain action = true)
    (houtside : w.scheduler.workerOf identity = none)
    (rest : Code) (below : List Frame) :
    ∃ next, System.Comes (.solo w (.perform (action :: rest) :: below) identity)
        (Action.inOrder action) (.solo next (.perform rest :: below) identity) ∧
      next.scheduler = w.scheduler := by
  cases action with
  | fork left right =>
      rw [Action.within, Bool.and_eq_true] at hstrict
      have hfork : Frame.step w identity (.perform (.fork left right :: rest)) =
          .go w identity [.perform left, .perform right, .perform rest] := by
        rw [Frame.step, Machine.Action.step, houtside]
      obtain ⟨v₁, hleft, hsame₁⟩ := outside_code left hstrict.1 houtside []
        (.perform right :: .perform rest :: below)
      obtain ⟨v₂, hright, hsame₂⟩ := outside_code right hstrict.2 (hsame₁ ▸ houtside) []
        (.perform rest :: below)
      have hend : ∀ (w : World) (below : List Frame),
          System.Comes (.solo w (.perform [] :: below) identity) [] (.solo w below identity) :=
        fun w below => .next_step rfl rfl (.refl _)
      rw [List.append_nil] at hleft hright
      have hwhole := System.Comes.next_step hfork rfl
        (((hleft.trans (hend _ _)).trans hright).trans (hend _ _))
      rw [List.append_nil, List.append_nil] at hwhole
      exact ⟨v₂, hwhole, hsame₂.trans hsame₁⟩
  | log label =>
      exact ⟨_, .plain rfl rfl, rfl⟩
  | store cell constant sources =>
      exact ⟨_, .plain rfl rfl, rfl⟩
  | _ =>
      cases hstrict

/-- Outside of runs strict code is performed in order. -/
theorem outside_code
    {w : World} {identity : Option Nat}
    (code : List Action)
    (hstrict : Code.within Action.isPlain code = true)
    (houtside : w.scheduler.workerOf identity = none)
    (rest : Code) (below : List Frame) :
    ∃ next, System.Comes (.solo w (.perform (code ++ rest) :: below) identity)
        (Code.inOrder code) (.solo next (.perform rest :: below) identity) ∧
      next.scheduler = w.scheduler := by
  cases code with
  | nil =>
      exact ⟨w, .refl _, rfl⟩
  | cons action more =>
      rw [Code.within, Bool.and_eq_true] at hstrict
      obtain ⟨v₁, haction, hsame₁⟩ :=
        outside_action action hstrict.1 houtside (more ++ rest) below
      obtain ⟨v₂, hmore, hsame₂⟩ :=
        outside_code more hstrict.2 (hsame₁ ▸ houtside) rest below
      exact ⟨v₂, haction.trans hmore, hsame₂.trans hsame₁⟩

end

end Outside

/-- A launch for one worker on an idle scheduler, on a host that plays that worker. The first deque
has tags enough to be emptied once for the thunk and once for each fork. -/
structure Launch.Solitary (l : Launch) (capacity : Nat) : Prop where
  idle : l.world.scheduler.IsIdle capacity
  flags : l.world.flags.size = l.world.bodies.size
  deques : 0 < l.world.scheduler.dequeCount
  asked : l.asked = 1
  workers : l.workers = [0]
  tags : ∀ place, l.world.scheduler.places[0]? = some place →
    place.deque.age.tag.toNat + (Code.forks l.thunk + 1) < UInt32.size

/-- Such a launch of strict code. -/
structure Launch.Single (l : Launch) (capacity : Nat) : Prop extends l.Solitary capacity where
  strict : Code.isStrict l.thunk = true

/-- Since the launch the first worker has counted this, and no other place was changed. -/
structure Launch.Since (l : Launch) (w : World) (counted : List Counter) : Prop where
  counts : l.world.scheduler.Counts w.scheduler counted
  tracing : w.tracing = l.world.tracing
  transcript : ∃ events, w.transcript.toList = l.world.transcript.toList ++ events

namespace Launch

variable {l : Launch} {w next : World} {counted more : List Counter} {capacity spare : Nat}

theorem Since.strides
    (h : l.Since w counted)
    (hstrides : Strides w next more) :
    l.Since next (counted ++ more) := by
  refine ⟨h.counts.trans hstrides.counts, hstrides.tracing.trans h.tracing, ?_⟩
  obtain ⟨events, hevents⟩ := h.transcript
  obtain ⟨others, hothers⟩ := hstrides.transcript
  exact ⟨events ++ others, by rw [hothers, hevents, List.append_assoc]⟩

/-- No place was changed. -/
theorem Since.of_eq
    (h : l.Since w counted)
    (hplaces : next.scheduler.places = w.scheduler.places)
    (htracing : next.tracing = w.tracing)
    (htranscript : next.transcript = w.transcript) :
    l.Since next counted := by
  refine ⟨?_, htracing.trans h.tracing, htranscript ▸ h.transcript⟩
  have hcounts := h.counts.trans (.of_eq hplaces)
  rw [List.append_nil] at hcounts
  exact hcounts

end Launch

theorem Strides.trace
    (w : World) (record : TraceRecord) :
    Strides w (w.trace record) [] := by
  rcases w.trace_cases record with heq | heq
  · rw [heq]
    exact .of_eq rfl rfl rfl rfl rfl ⟨[_], Array.toList_push⟩
  · rw [heq]
    exact .of_eq rfl rfl rfl rfl rfl ⟨[], (List.append_nil _).symm⟩

theorem Holding.trace
    {w : World} {capacity spare : Nat} {jobs : List JobId}
    (h : Holding w capacity jobs spare)
    (record : TraceRecord) :
    Holding (w.trace record) capacity jobs spare := by
  rcases w.trace_cases record with heq | heq
  · rw [heq]
    exact h.of_eq rfl h.flags
  · rw [heq]
    exact h

namespace Launch

variable {l : Launch} {w : World} {counted : List Counter} {capacity spare : Nat}

/-- The first deque when the run is called. -/
theorem Solitary.holding
    (h : l.Solitary capacity) :
    Holding l.world capacity [] (Code.forks l.thunk + 1) := by
  obtain ⟨place, hplace⟩ := Scheduler.exists_place h.deques
  obtain ⟨hdeque, hcapacity⟩ := h.idle.follows 0 place hplace
  exact ⟨⟨place, hplace, hdeque, hcapacity, h.tags place hplace⟩, h.flags⟩

/-- The frame holds the region of the run open while its worker is above, and lets the thread go on
as it was before. -/
def Encloses (l : Launch) (region : Frame) : Prop :=
  ∀ (w : World) (below : List Frame),
    System.Comes (.solo w (region :: below) (some 0)) [] (.solo w below l.identity)

/-- The world after the run has claimed the scheduler. -/
def claimed (l : Launch) : World :=
  { l.called with scheduler := { l.called.scheduler with running := true } }

theorem Solitary.holding_claimed
    (h : l.Solitary capacity) :
    Holding l.claimed capacity [] (Code.forks l.thunk + 1) := by
  refine ⟨h.holding.place, ?_⟩
  show (l.world.flags.push _).size = (l.world.bodies.push _).size
  rw [Array.size_push, Array.size_push, h.flags]

theorem Solitary.since_claimed
    (h : l.Solitary capacity) :
    l.Since l.claimed [] := by
  have hstart : l.Since l.world [] := ⟨.of_eq rfl, rfl, [], (List.append_nil _).symm⟩
  exact (hstart.strides (.addJob l.world (fun _ => Action.rootBody l.thunk) h.flags)).of_eq
    rfl rfl rfl

theorem Solitary.waiting_claimed
    (h : l.Solitary capacity) :
    Waiting l.claimed l.root (Action.rootBody l.thunk) := by
  refine ⟨?_, Array.getElem?_push_size⟩
  rw [root, ← h.flags]
  exact Array.getElem?_push_size

theorem Solitary.claims
    (h : l.Solitary capacity) :
    Frame.step l.called l.identity (.run (.claim l.threads) l.root true) =
      .go l.claimed l.identity [.run (.enqueue l.asked) l.root true] := by
  refine l.claims rfl h.idle.running ?_ l.identity
  rw [h.asked]
  exact Nat.not_lt_of_le h.deques

/-- The thread enters the region, whichever way the host has workers played. -/
theorem Solitary.enters
    (h : l.Solitary capacity)
    (hstyle : w.style = l.world.style)
    (below : List Frame) :
    ∃ region,
      System.Comes (.solo w (Machine.regionFrame w.style l.asked l.identity :: below) l.identity) []
        (.solo w (.loop .poll 0 .finished 0 :: region :: below) (some 0)) ∧
      l.Encloses region := by
  have hworkers : w.style.workersOf l.asked = [0] := hstyle ▸ h.workers
  rw [Machine.regionFrame, hworkers]
  by_cases hatOnce : w.style.atOnce = true
  · rw [if_pos hatOnce]
    exact ⟨_, .recruit, fun w below => .next_step rfl rfl .disband⟩
  · rw [if_neg hatOnce]
    exact ⟨_, .next_step rfl rfl (.refl _), fun w below => .next_step rfl rfl (.refl _)⟩

/-- The run comes to its region, with its job in the first deque. -/
theorem Solitary.comes_region
    (h : l.Solitary capacity) :
    ∃ next region,
      System.Comes l.system []
        (.solo next (.loop .poll 0 .finished 0 :: region :: l.after) (some 0)) ∧
      l.Encloses region ∧ l.Since next [] ∧ next.scheduler.finished = false ∧
      Holding next capacity [l.root] (Code.forks l.thunk + 1) ∧
      Waiting next l.root (Action.rootBody l.thunk) := by
  have hpos : 0 < capacity := h.idle.follows.capacity_pos h.deques
  obtain ⟨t, hpush, hholding, hstrides⟩ := h.holding_claimed.push hpos l.root
  let marked : World :=
    { l.claimed with scheduler := { t with activeWorkers := l.asked } }
  let announced : World := marked.trace (.starting l.asked t.dequeCount)
  have hmarked : Holding marked capacity [l.root] (Code.forks l.thunk + 1) :=
    ⟨hholding.place, hholding.flags⟩
  have hwaiting : Waiting marked l.root (Action.rootBody l.thunk) :=
    ⟨(hstrides.waiting h.waiting_claimed).flags, (hstrides.waiting h.waiting_claimed).body⟩
  have hsince : l.Since marked [] := (h.since_claimed.strides hstrides).of_eq rfl rfl rfl
  have htrace : Strides marked announced [] := .trace marked _
  have hcall := l.calls rfl l.identity
  have hannounce : Frame.step { l.claimed with scheduler := t } l.identity
      (.run (.announce l.asked) l.root true) =
        .go announced l.identity [.run (.open l.asked) l.root true] := rfl
  have hopen : Frame.step announced l.identity (.run (.open l.asked) l.root true) =
      .go announced l.identity [Machine.regionFrame announced.style l.asked l.identity,
        .run .clear l.root true] := rfl
  obtain ⟨region, henters, hencloses⟩ := h.enters htrace.style l.after
  refine ⟨announced, region, .next_step hcall rfl (.next_step h.claims rfl (.next_step
    (enqueues hpush _) rfl (.next_step hannounce rfl (.next_step hopen rfl henters)))), hencloses,
    ?_, ?_, ?_, ?_⟩
  · exact hsince.strides htrace
  · rw [htrace.keeps.finished]
    show t.finished = false
    rw [hstrides.keeps.finished]
    exact h.idle.finished
  · exact hmarked.trace _
  · exact htrace.waiting hwaiting

/-- The worker finds the job in its deque. -/
theorem comes_root
    {body : Code}
    (hholding : Holding w capacity [l.root] (spare + 1))
    (hfinished : w.scheduler.finished = false)
    (hwaiting : Waiting w l.root body)
    (hsince : l.Since w [])
    (below : List Frame) :
    ∃ next, System.Comes (.solo w (.loop .poll 0 .finished 0 :: below) (some 0)) []
        (.solo next (.perform body :: .guarded l.root :: .loop .poll 0 .finished 1 :: below)
          (some 0)) ∧
      l.Since next [.localPops, .jobsExecuted] ∧ Holding next capacity [] spare := by
  have hone : Holding w capacity ([] ++ [l.root]) (spare + 1) := hholding
  obtain ⟨t, hpop, hpopped, hstrides₁⟩ := hone.pop
  have hpoll : Frame.step w (some 0) (.loop .poll 0 .finished 0) =
      .go w (some 0) [.loop .pop 0 .finished 1] := by
    rw [Frame.step, Machine.LoopPoint.step]
    simp only [Machine.Stop.holds, hfinished]
  have hget : Frame.step w (some 0) (.loop .pop 0 .finished 1) =
      .go { w with scheduler := t } (some 0) [.loop (.popped l.root) 0 .finished 1] := by
    rw [Frame.step, Machine.LoopPoint.step, w.schedule_of_ok (·.pop 0) _ hpop]
  obtain ⟨v₂, hcount, hstrides₂, hholding₂⟩ := comes_bump hpopped
    (.loop (.popped l.root) 0 .finished 1) [.loop (.dispatch l.root) 0 .finished 1] rfl rfl
  obtain ⟨v₃, hdispatch, hstrides₃, hholding₃⟩ := comes_bump hholding₂
    (.loop (.dispatch l.root) 0 .finished 1) [.execute l.root, .loop .poll 0 .finished 1] rfl rfl
  have hall := (hstrides₁.trans hstrides₂).trans hstrides₃
  have hready := hall.waiting hwaiting
  have hexecute : Frame.step v₃ (some 0) (.execute l.root) =
      .go { v₃ with toMemory := v₃.setFlags l.root fun flags => { flags with taken := true } }
        (some 0) [.perform body, .guarded l.root] := by
    rw [Frame.step, hready.flags, hready.body]
    rfl
  refine ⟨_, .next_step hpoll rfl (.next_step hget rfl ((hcount.trans hdispatch).trans
    (.next_step hexecute rfl (.refl _)))), ?_, hholding₃.setFlags _ _⟩
  exact (hsince.strides hall).of_eq rfl rfl rfl

/-- The thunk has ended: the worker ends the run and leaves the region. -/
theorem comes_left_region
    {region : Frame}
    (hencloses : l.Encloses region)
    (hholding : Holding w capacity [] spare)
    (hsince : l.Since w counted) :
    ∃ next, System.Comes
        (.solo w (.perform [.finish] :: .guarded l.root :: .loop .poll 0 .finished 1 :: region ::
          l.after) (some 0)) []
        (.solo next l.after l.identity) ∧
      l.Since next counted ∧ Holding next capacity [] spare := by
  let ended : World := { w with scheduler := { w.scheduler with finished := true } }
  have hended : Holding ended capacity [] spare := ⟨hholding.place, hholding.flags⟩
  have hleave : Frame.step ended (some 0) (.loop .poll 0 .finished 1) =
      .go (ended.trace (.leaving 0)) (some 0) [] := rfl
  have hafter : l.Since ended counted := hsince.of_eq rfl rfl rfl
  have hsame := hafter.strides (.trace ended (.leaving 0))
  rw [List.append_nil] at hsame
  exact ⟨_, .next_step rfl rfl (.next_step rfl rfl (.next_step rfl rfl (.next_step hleave rfl
    (hencloses _ _)))), hsame, hended.trace _⟩

/-- Clean deques are reset one after another, and stay as they are. -/
theorem comes_release
    (hclean : ∀ place ∈ w.scheduler.places, place.deque.IsClean)
    (identity : Option Nat) (below : List Frame) {left : Nat}
    (hleft : left ≤ w.scheduler.dequeCount) :
    System.Comes
      (.solo w (.run (.reset (w.scheduler.dequeCount - left)) l.root true :: below) identity) []
      (.solo w (.run .release l.root true :: below) identity) := by
  induction left with
  | zero =>
      have hover : ¬ w.scheduler.dequeCount - 0 < w.scheduler.dequeCount := Nat.lt_irrefl _
      exact .next_step (Frame.step_reset_of_not_lt hover identity l.root true) rfl (.refl _)
  | succ left ih =>
      have hin : w.scheduler.dequeCount - (left + 1) < w.scheduler.dequeCount := by omega
      obtain ⟨place, hplace⟩ := Scheduler.exists_place hin
      have hreset := Scheduler.resetDeque_of_clean hplace
        (hclean place (Array.mem_of_getElem? hplace))
      have hstep := Frame.step_reset_of_ok hin hreset identity l.root true
      have hnext : w.scheduler.dequeCount - (left + 1) + 1 = w.scheduler.dequeCount - left := by
        omega
      rw [hnext] at hstep
      exact .next_step hstep rfl (ih (Nat.le_of_succ_le hleft))

/-- The run reports and returns, if its statistics can be written. -/
theorem comes_report
    (hstats : w.tracing = true → ∃ stats, w.scheduler.stats = .ok stats)
    (identity : Option Nat) :
    ∃ next, System.Comes (.solo w [.run .complete l.root true, .perform []] identity) []
        (.solo next [] identity) ∧
      next.scheduler = w.scheduler ∧
      ∃ events, next.transcript.toList = w.transcript.toList ++ events ∧
        .ranThunk (.ok ()) ∈ events := by
  rcases Frame.step_complete w l.root true with
    ⟨traced, htraces, hstep⟩ | ⟨htracing, cause, hfail, -⟩
  · obtain ⟨events, hevents⟩ := htraces.transcript
    refine ⟨_, .next_step (hstep identity) rfl (.next_step rfl rfl (.refl _)), htraces.scheduler,
      events ++ [.ranThunk (.ok ())], ?_, List.mem_append_right _ List.mem_cons_self⟩
    show (traced.transcript.push _).toList = _
    rw [Array.toList_push, hevents, List.append_assoc]
    rfl
  · obtain ⟨stats, hsum⟩ := hstats htracing
    cases hfail.symm.trans hsum

/-- The deques after the thunk are as they were before the run. -/
theorem Solitary.clean
    (h : l.Solitary capacity)
    (hholding : Holding w capacity [] spare)
    (hsince : l.Since w counted) :
    ∀ place ∈ w.scheduler.places, place.deque.capacity = capacity ∧ place.deque.bottom = 0 ∧
      place.deque.age.top = 0 := by
  intro place hmem
  obtain ⟨i, hplace⟩ := Array.mem_iff_getElem?.mp hmem
  by_cases hfirst : i = 0
  · subst hfirst
    obtain ⟨own, hown, hdeque, hcapacity, -⟩ := hholding.place
    cases hown.symm.trans hplace
    exact ⟨hcapacity, UInt32.toNat_inj.mp hdeque.bottom_eq, UInt32.toNat_inj.mp hdeque.top_eq⟩
  · obtain ⟨first, hat⟩ := Scheduler.exists_place h.deques
    obtain ⟨other, hplaces, -⟩ := hsince.counts first hat
    rw [hplaces, Array.getElem?_setIfInBounds_ne (Ne.symm hfirst)] at hplace
    exact h.idle.clean place (Array.mem_of_getElem? hplace)

/-- The run after its region: the deques are put back, and the run returns. -/
theorem Solitary.comes_returned
    (h : l.Solitary capacity)
    (hholding : Holding w capacity [] spare)
    (hsince : l.Since w counted)
    (hstats : w.tracing = true → ∃ stats, w.scheduler.stats = .ok stats)
    (identity : Option Nat) :
    ∃ next, System.Comes (.solo w l.after identity) [] (.solo next [] identity) ∧
      next.scheduler = { w.scheduler with finished := false, running := false } ∧
      ∃ events, next.transcript.toList = l.world.transcript.toList ++ events ∧
        .ranThunk (.ok ()) ∈ events := by
  let cleared : World := { w with scheduler := { w.scheduler with finished := false } }
  let released : World :=
    { cleared with scheduler := { cleared.scheduler with running := false } }
  have hclean : ∀ place ∈ cleared.scheduler.places, place.deque.IsClean := by
    intro place hplace
    obtain ⟨-, hbottom, htop⟩ := h.clean hholding hsince place hplace
    refine ⟨?_, hbottom, htop⟩
    rw [Deque.isEmpty, Deque.size, hbottom, htop]
    rfl
  have hreset := comes_release (l := l) hclean identity [.perform []] (Nat.le_refl _)
  rw [Nat.sub_self] at hreset
  obtain ⟨next, hreport, hscheduler, events, hevents, hmem⟩ :=
    comes_report (l := l) (w := released) hstats identity
  obtain ⟨earlier, hearlier⟩ := hsince.transcript
  refine ⟨next, .next_step rfl rfl (hreset.trans (.next_step rfl rfl hreport)), hscheduler,
    earlier ++ events, ?_, List.mem_append_right _ hmem⟩
  rw [hevents, ← List.append_assoc, ← hearlier]

/-- The worker comes to the thunk, and executes it. -/
theorem Single.executes
    (h : l.Single capacity) :
    ∃ started region, l.Encloses region ∧ l.Since started [.localPops, .jobsExecuted] ∧
      ∃ s, System.Comes l.system [] s ∧
        Executes capacity [] 0 started s (Code.marks 0 l.thunk) fun next =>
          .solo next (.perform [.finish] :: .guarded l.root :: .loop .poll 0 .finished 1 ::
            region :: l.after) (some 0) := by
  obtain ⟨w, region, hopened, hencloses, hsince, hfinished, hholding, hwaiting⟩ :=
    h.toSolitary.comes_region
  obtain ⟨started, hfound, hcounted, hempty⟩ :=
    comes_root hholding hfinished hwaiting hsince (region :: l.after)
  have hbudget : Holding started capacity []
      (0 + Mark.entries (Code.marks ([] : List JobId).length l.thunk)) := by
    rw [Nat.zero_add]
    exact hempty
  exact ⟨started, region, hencloses, hcounted, _, hopened.trans hfound,
    runs_code l.thunk h.strict 0 [.finish] _ hbudget (Nat.zero_le _)⟩

/-- The counters have room for what the run will count. -/
def Countable (l : Launch) : Prop :=
  ∃ before, l.world.scheduler.stats = .ok before ∧
    ∀ counter, (before.get counter).toNat + counter.perRun (Code.forks l.thunk) < UInt64.size

/-- A run of one worker has come to its end. -/
structure Ordered (l : Launch) (capacity : Nat) (s : System) : Prop where
  returned : l.world.Reports true s (.ok ())
  aborted : s.aborted = none
  idle : s.world.scheduler.IsIdle capacity
  /-- Nothing of the places is changed but what belongs to the worker, who has counted what a run
  of one worker counts. -/
  counted : ∀ place, l.world.scheduler.places[0]? = some place → ∃ other,
    s.world.scheduler.places = l.world.scheduler.places.setIfInBounds 0 other ∧
      ∀ counter, other.stats.get counter =
        place.stats.get counter + .ofNat (counter.perRun (Code.forks l.thunk))
  /-- So has the sum of the statistics, if it could be made and there is room in it. -/
  stats : ∀ before, l.world.scheduler.stats = .ok before →
    (∀ counter, (before.get counter).toNat + counter.perRun (Code.forks l.thunk) < UInt64.size) →
    ∃ after, s.world.scheduler.stats = .ok after ∧ ∀ counter,
      (after.get counter).toNat =
        (before.get counter).toNat + counter.perRun (Code.forks l.thunk)

/-- The sum of the statistics after the worker has counted what a run of one worker counts. -/
theorem Solitary.stats
    (h : l.Solitary capacity)
    (hcounts : l.world.scheduler.Counts w.scheduler counted)
    (hcount : ∀ counter, counted.count counter = counter.perRun (Code.forks l.thunk))
    {before : Stats}
    (hbefore : l.world.scheduler.stats = .ok before)
    (hfits : ∀ counter,
      (before.get counter).toNat + counter.perRun (Code.forks l.thunk) < UInt64.size) :
    ∃ after, w.scheduler.stats = .ok after ∧ ∀ counter, (after.get counter).toNat =
      (before.get counter).toNat + counter.perRun (Code.forks l.thunk) := by
  have htotal : ∀ counter, w.scheduler.total counter =
      (before.get counter).toNat + counter.perRun (Code.forks l.thunk) := by
    intro counter
    have hroom := hfits counter
    rw [Scheduler.get_of_stats hbefore, ← hcount] at hroom
    rw [hcounts.total h.deques hroom, hcount, Scheduler.get_of_stats hbefore]
  obtain ⟨after, hafter, hget⟩ := Scheduler.stats_of_fits fun counter => by
    rw [htotal]
    exact hfits counter
  exact ⟨after, hafter, fun counter => (hget counter).trans (htotal counter)⟩

/-- With a slot for each fork the run performs the thunk in order and returns. -/
theorem Single.comes_ordered
    (h : l.Single capacity)
    (hcountable : l.world.tracing = true → l.Countable)
    (hroom : Code.leftDepth l.thunk ≤ capacity) :
    ∃ next identity, System.Comes l.system (Code.inOrder l.thunk) (.solo next [] identity) ∧
      l.Ordered capacity (.solo next [] identity) := by
  obtain ⟨started, region, hencloses, hstarted, s, hcomes, hexecutes⟩ := h.executes
  have hall : (Code.marks 0 l.thunk).all (Mark.fits capacity) = true :=
    (Code.fits_iff (Nat.zero_le capacity) l.thunk).mpr ((Nat.zero_add _).symm ▸ hroom)
  cases hexecutes with
  | overflows hover hnot haborted =>
      exact absurd hall hnot
  | @through ended counted hthunk hfits hstrides hcounted hholding =>
      have hsince := hstarted.strides hstrides
      obtain ⟨left, hleft, hsince, hholding⟩ := comes_left_region hencloses hholding hsince
      have hcount : ∀ counter, List.count counter ([.localPops, .jobsExecuted] ++ counted) =
          counter.perRun (Code.forks l.thunk) := by
        intro counter
        rw [List.count_append, hcounted, Counter.perRun_eq]
        rfl
      obtain ⟨next, hreturned, hscheduler, hreport⟩ := h.toSolitary.comes_returned hholding hsince
        (fun htracing => by
          obtain ⟨before, hbefore, hword⟩ := hcountable (hsince.tracing ▸ htracing)
          obtain ⟨after, hafter, -⟩ := h.toSolitary.stats hsince.counts hcount hbefore hword
          exact ⟨after, hafter⟩) l.identity
      have hplaces : next.scheduler.places = left.scheduler.places := by
        rw [hscheduler]
      have hnext := hsince.counts.trans (.of_eq hplaces)
      rw [List.append_nil] at hnext
      have hwhole := ((hcomes.trans hthunk).trans hleft).trans hreturned
      rw [List.append_nil, List.append_nil, List.nil_append, Code.actions_marks] at hwhole
      refine ⟨next, l.identity, hwhole, hreport, rfl, ?_, fun place hplace => ?_,
        fun before hbefore hword => h.toSolitary.stats hnext hcount hbefore hword⟩
      · show next.scheduler.IsIdle capacity
        rw [hscheduler]
        exact ⟨rfl, rfl, h.toSolitary.clean hholding hsince⟩
      · obtain ⟨other, hother, hstats⟩ := hnext place hplace
        refine ⟨other, hother, fun counter => ?_⟩
        rw [hstats, Stats.get_bumps, hcount]

/-- Without a slot for each fork the run is given up at the first one for which there is none. -/
theorem Single.comes_overflow
    (h : l.Single capacity)
    (hover : capacity < Code.leftDepth l.thunk) :
    ∃ s before after, System.Comes l.system (Mark.actions before) s ∧
      s.aborted = some (.dequeOverflow capacity) ∧
      Code.marks 0 l.thunk = before ++ .enter capacity :: after ∧
      before.all (Mark.fits capacity) = true := by
  obtain ⟨started, region, -, -, s, hcomes, hexecutes⟩ := h.executes
  have hnot : ¬ (Code.marks 0 l.thunk).all (Mark.fits capacity) = true := by
    rw [Code.fits_iff (Nat.zero_le capacity) l.thunk]
    omega
  obtain ⟨before, after, hmarks, hbefore⟩ := Code.stops_of_not_fits (Nat.zero_le _) l.thunk hnot
  cases hexecutes with
  | through hthunk hfits hstrides hcounted hholding =>
      exact absurd hfits hnot
  | @overflows t hthunk _ haborted =>
      rw [hmarks, Mark.fitting_of_stops hbefore] at hthunk
      exact ⟨t, before, after, hcomes.trans hthunk, haborted, hmarks, hbefore⟩

/-- A thread that performs the thunk outside of any run, as nobody. -/
def outside (l : Launch) : System :=
  .solo l.world [.perform l.thunk] none

theorem Single.comes_outside
    (h : l.Single capacity) :
    ∃ next, System.Comes l.outside (Code.inOrder l.thunk) (.solo next [] none) := by
  have houtside : l.world.scheduler.workerOf none = none := rfl
  obtain ⟨next, hcomes, -⟩ := outside_code l.thunk h.strict houtside [] []
  rw [List.append_nil] at hcomes
  have hwhole := hcomes.trans (.next_step rfl rfl (.refl (.solo next [] none)))
  rw [List.append_nil] at hwhole
  exact ⟨next, hwhole⟩

/-- A run of one worker performs what its thunk performs outside of any run, in the same order,
whatever other turns there are, if the deques have as many slots as forks of the thunk are inside
each other's left branches. It counts what such a run counts and leaves an idle scheduler. With
fewer slots the process is given up, after all that comes before the first fork that is entered
inside as many left branches as there are slots. -/
theorem single_runs_in_order
    (h : l.Single capacity)
    (hcountable : l.world.tracing = true → l.Countable) :
    ∃ steps, ∀ schedule : List Nat, steps ≤ schedule.count 0 →
      l.outside.performed schedule = Code.inOrder l.thunk ∧
      (Code.leftDepth l.thunk ≤ capacity →
        l.system.performed schedule = l.outside.performed schedule ∧
        l.Ordered capacity (l.system.run schedule)) ∧
      (capacity < Code.leftDepth l.thunk →
        (l.system.run schedule).aborted = some (.dequeOverflow capacity) ∧
        ∃ before after, Code.marks 0 l.thunk = before ++ .enter capacity :: after ∧
          before.all (Mark.fits capacity) = true ∧
          l.system.performed schedule = Mark.actions before ∧
          l.outside.performed schedule = Mark.actions before ++ Mark.actions after) := by
  obtain ⟨free, houtside⟩ := h.comes_outside
  obtain ⟨first, hfirst⟩ := houtside.settles (System.quiet_solo free none)
  by_cases hroom : Code.leftDepth l.thunk ≤ capacity
  · obtain ⟨next, identity, hcomes, hordered⟩ := h.comes_ordered hcountable hroom
    obtain ⟨second, hsecond⟩ := hcomes.settles (System.quiet_solo next identity)
    refine ⟨first + second, fun schedule hturns => ?_⟩
    obtain ⟨-, hsequence⟩ := hfirst schedule (by omega)
    obtain ⟨hrun, hperformed⟩ := hsecond schedule (by omega)
    refine ⟨hsequence, fun _ => ⟨hperformed.trans hsequence.symm, ?_⟩, fun hover => ?_⟩
    · rw [hrun]
      exact hordered
    · exact absurd hroom (Nat.not_le_of_lt hover)
  · have hover : capacity < Code.leftDepth l.thunk := Nat.lt_of_not_le hroom
    obtain ⟨s, before, after, hcomes, haborted, hmarks, hbefore⟩ := h.comes_overflow hover
    obtain ⟨second, hsecond⟩ := hcomes.settles
      (System.advance_of_aborted (by rw [haborted]; rfl))
    refine ⟨first + second, fun schedule hturns => ?_⟩
    obtain ⟨-, hsequence⟩ := hfirst schedule (by omega)
    obtain ⟨hrun, hperformed⟩ := hsecond schedule (by omega)
    refine ⟨hsequence, fun hfits => absurd hfits hroom, fun _ => ⟨hrun ▸ haborted, before, after,
      hmarks, hbefore, hperformed, ?_⟩⟩
    rw [hsequence, ← Code.actions_marks 0, hmarks, Mark.actions_append, Mark.actions_enter]

theorem two_le_maxCapacity :
    2 ≤ maxCapacity := by
  decide

/-- A fork in the left branch of another one. -/
def nested : Launch :=
  { world :=
      { scheduler :=
          { config := {}, maxWorkers := 1, stealTrials := 2, idleSleep := .ofParts 0 500
            places := Array.replicate 2
              { deque :=
                  { capacity := 2, capacity_pos := Nat.two_pos
                    capacity_le := two_le_maxCapacity } } } }
    thunk := [.fork [.fork [.log "a"] [.log "b"], .log "c"] [.log "d"]]
    threads := 1 }

theorem nested_single :
    nested.Single 2 := by
  have hplaces : ∀ place ∈ nested.world.scheduler.places,
      place.deque.capacity = 2 ∧ place.deque.bottom = 0 ∧ place.deque.age.top = 0 := by
    intro place hplace
    rw [(Array.mem_replicate.mp hplace).2]
    exact ⟨rfl, rfl, rfl⟩
  refine ⟨⟨⟨rfl, rfl, hplaces⟩, rfl, by decide, rfl, by decide, fun place hplace => ?_⟩, by decide⟩
  rw [(Array.mem_replicate.mp (Array.mem_of_getElem? hplace)).2]
  decide

theorem nested_runs_in_order :
    nested.Single 2 ∧ ¬ nested.world.tracing = true ∧ ∃ steps, ∀ schedule : List Nat,
      steps ≤ schedule.count 0 →
        nested.system.performed schedule = [.log "a", .log "b", .log "c", .log "d"] ∧
        nested.Ordered 2 (nested.system.run schedule) := by
  have htracing : ¬ nested.world.tracing = true := Bool.false_ne_true
  obtain ⟨steps, hsteps⟩ :=
    single_runs_in_order nested_single fun htrue => absurd htrue htracing
  refine ⟨nested_single, htracing, steps, fun schedule hturns => ?_⟩
  obtain ⟨hsequence, hordered, -⟩ := hsteps schedule hturns
  obtain ⟨hperformed, hend⟩ := hordered (by decide)
  exact ⟨(hperformed.trans hsequence).trans rfl, hend⟩

end Launch

end ForkJoin
end WorkStealing
