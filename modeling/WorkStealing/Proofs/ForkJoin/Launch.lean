import WorkStealing.Proofs.ForkJoin.Region

/-!
# Launches

A run starts from an idle scheduler: no run is in progress, and the deques are
as they were when they were made or reset. This module says what such a launch
is, and which crew stands behind it when the region opens: all workers are in
their outermost loops, and the first job is in the first deque.
-/

namespace WorkStealing

/-- No run is in progress, and each deque has so many slots and starts with the first of them. -/
structure Scheduler.IsIdle (s : Scheduler) (capacity : Nat) : Prop where
  running : s.running = false
  finished : s.finished = false
  clean : ∀ place ∈ s.places, place.deque.capacity = capacity ∧ place.deque.bottom = 0 ∧
    place.deque.age.top = 0

/-- The deques of an idle scheduler hold nothing. -/
theorem Scheduler.IsIdle.follows
    {s : Scheduler} {capacity : Nat}
    (h : s.IsIdle capacity) :
    s.Follows capacity fun _ => {} := by
  intro i place hplace
  obtain ⟨hcapacity, hbottom, htop⟩ := h.clean place (Array.mem_of_getElem? hplace)
  refine ⟨⟨Deque.holds_nil_of_bottom_eq_zero hbottom htop, ?_⟩, hcapacity⟩
  rw [htop]
  rfl

namespace ForkJoin

open Machine (Frame Moment RunPoint System Thread World)

/-- A thread that is about to run a thunk on so many workers. -/
structure Launch where
  world : World
  thunk : Code
  /-- The number of workers that is asked for; zero asks for as many as the scheduler has. -/
  threads : Nat
  identity : Option Nat := none

namespace Launch

def system (l : Launch) : System :=
  { world := l.world
    threads := #[{ frames := [.perform [.runThunk l.thunk l.threads]], identity := l.identity }] }

def asked (l : Launch) : Nat :=
  l.world.scheduler.asked l.threads

def workers (l : Launch) : List Nat :=
  l.world.style.workersOf l.asked

def root (l : Launch) : JobId := l.world.bodies.size

def setting (l : Launch) (capacity : Nat) : Setting :=
  { root := l.root
    workers := l.workers
    deques := l.world.scheduler.dequeCount
    capacity
    cells := l.world.cells
    events := l.world.transcript.toList }

/-- A launch of strict code on an idle scheduler. -/
structure Ready (l : Launch) (capacity : Nat) : Prop where
  strict : Code.isStrict l.thunk = true
  idle : l.world.scheduler.IsIdle capacity
  /-- Each job made before has flags. -/
  flags : l.world.flags.size = l.world.bodies.size
  /-- Each worker has a thread. -/
  atOnce : l.world.style.atOnce = true
  valid : (l.setting capacity).Valid

def lanes (l : Launch) : Nat → Lane :=
  Function.update (fun _ => {}) 0 (Lane.push {} l.root)

def crew (l : Launch) : Crew :=
  { stack := fun v => if v ∈ l.workers then [.loop none none] else []
    lanes := l.lanes
    count := l.root + 1
    body := fun _ => Action.rootBody l.thunk
    items := fun job => if job = l.root then [.code (Action.rootBody l.thunk)] else []
    home := fun job =>
      if job < l.root then .gone else if job = l.root then .queued 0 else .unborn
    site := fun _ => 0
    start := fun _ => 0
    clock := 1
    performed := []
    history := [] }

variable {l : Launch}

theorem stack_crew
    (l : Launch) (v : Nat) :
    l.crew.stack v = [.loop none none] ∨ l.crew.stack v = [] :=
  ite_eq_or_eq _ _ _

/-- No worker is in anything but its outermost loop. -/
theorem eq_loop_of_mem
    {v : Nat} {call : Call}
    (hcall : call ∈ l.crew.stack v) :
    call = .loop none none := by
  rcases l.stack_crew v with heq | heq
  · rw [heq] at hcall
    exact List.mem_singleton.mp hcall
  · rw [heq] at hcall
    cases hcall

theorem home_of_lt
    {job : JobId}
    (hjob : job < l.root) :
    l.crew.home job = .gone :=
  if_pos hjob

theorem home_root
    (l : Launch) :
    l.crew.home l.root = .queued 0 :=
  (if_neg (Nat.lt_irrefl _)).trans (if_pos rfl)

theorem home_of_gt
    {job : JobId}
    (hjob : l.root < job) :
    l.crew.home job = .unborn :=
  (if_neg (Nat.not_lt_of_lt hjob)).trans (if_neg (Nat.ne_of_gt hjob))

/-- Where the jobs are when the region opens. -/
theorem home_cases
    (l : Launch) (job : JobId) :
    (job < l.root ∧ l.crew.home job = .gone) ∨ (job = l.root ∧ l.crew.home job = .queued 0) ∨
      (l.root < job ∧ l.crew.home job = .unborn) := by
  rcases Nat.lt_trichotomy job l.root with hlt | rfl | hgt
  · exact Or.inl ⟨hlt, home_of_lt hlt⟩
  · exact Or.inr (Or.inl ⟨rfl, home_root l⟩)
  · exact Or.inr (Or.inr ⟨hgt, home_of_gt hgt⟩)

/-- No job is anywhere but in the first deque. -/
theorem home_ne
    (l : Launch) (job : JobId)
    {place : Home}
    (hplace : place = .held v ∨ place = .stacked v) :
    l.crew.home job ≠ place := by
  rcases hplace with rfl | rfl <;>
    rcases l.home_cases job with ⟨-, hhome⟩ | ⟨-, hhome⟩ | ⟨-, hhome⟩ <;> rw [hhome] <;>
      exact Home.noConfusion

theorem jobs_lanes
    (l : Launch) (v : Nat) :
    (l.lanes v).jobs = base l.root v := by
  unfold lanes base
  by_cases hzero : v = 0
  · rw [if_pos hzero, hzero, Function.update_self]
    rfl
  · rw [if_neg hzero, Function.update_of_ne hzero]

theorem shape_crew
    (l : Launch) :
    Shape l.root l.crew.count l.crew.stack (fun job => (l.crew.home job).isTaken = true)
      l.crew.start l.crew.clock l.crew.site := by
  refine ⟨?_, ?_, fun _ _ => Nat.zero_lt_one, ?_⟩
  · intro v
    rcases l.stack_crew v with heq | heq
    · rw [heq]
      exact ⟨.outermost none, trivial⟩
    · rw [heq]
      trivial
  · intro v
    rcases l.stack_crew v with heq | heq
    · rw [heq]
      exact List.pairwise_singleton _ _
    · rw [heq]
      exact List.Pairwise.nil
  · intro v phase right hright
    cases eq_loop_of_mem hright

theorem places_crew
    (l : Launch) :
    Places l.root l.crew.count l.crew.stack (fun v => (l.crew.lanes v).jobs) l.crew.home := by
  have hjobs : ∀ v, (l.crew.lanes v).jobs = base l.root v := l.jobs_lanes
  refine ⟨?_, ?_, ?_, ?_, ?_, ?_, ?_, fun job => home_of_lt⟩
  · intro v
    show (l.crew.lanes v).jobs <:+ _
    rw [hjobs v]
    rcases l.stack_crew v with heq | heq
    · rw [heq]
      exact List.suffix_refl _
    · rw [heq]
      exact List.suffix_refl _
  · intro v right below hstack
    cases eq_loop_of_mem (hstack ▸ List.mem_cons_self)
  · intro v
    show (l.crew.lanes v).jobs.Nodup
    rw [hjobs v]
    exact nodup_base l.root v
  · intro v job
    show job ∈ (l.crew.lanes v).jobs ↔ _
    rw [hjobs v, mem_base]
    rcases l.home_cases job with ⟨hlt, hhome⟩ | ⟨rfl, hhome⟩ | ⟨hgt, hhome⟩
    · rw [hhome]
      exact iff_of_false (fun hroot => Nat.ne_of_lt hlt hroot.2) Home.noConfusion
    · rw [hhome, and_iff_left rfl, eq_comm]
      exact ⟨congrArg Home.queued, Home.queued.inj⟩
    · rw [hhome]
      exact iff_of_false (fun hroot => Nat.ne_of_gt hgt hroot.2) Home.noConfusion
  · intro v job
    have hhand : hand (l.crew.stack v) = none := by
      rcases l.stack_crew v with heq | heq <;> rw [heq] <;> rfl
    rw [hhand]
    exact iff_of_false (fun heq => by cases heq) (l.home_ne job (Or.inl rfl))
  · intro v job
    have hguards : guards (l.crew.stack v) = [] := by
      rcases l.stack_crew v with heq | heq <;> rw [heq] <;> rfl
    rw [hguards]
    exact iff_of_false List.not_mem_nil (l.home_ne job (Or.inr rfl))
  · intro job
    show _ ↔ l.root + 1 ≤ job
    rcases l.home_cases job with ⟨hlt, hhome⟩ | ⟨rfl, hhome⟩ | ⟨hgt, hhome⟩
    · rw [hhome]
      exact iff_of_false Home.noConfusion (Nat.not_le_of_lt (Nat.lt_succ_of_lt hlt))
    · rw [hhome]
      exact iff_of_false Home.noConfusion (Nat.not_succ_le_self _)
    · rw [hhome]
      exact iff_of_true rfl hgt

theorem items_root
    (l : Launch) :
    l.crew.items l.root = [.code (Action.rootBody l.thunk)] :=
  if_pos rfl

theorem items_of_ne
    {job : JobId}
    (hjob : job ≠ l.root) :
    l.crew.items job = [] :=
  if_neg hjob

theorem work_crew
    (hstrict : Code.isStrict l.thunk = true) :
    Work l.thunk l.root l.crew.count l.crew.stack l.crew.home l.crew.items l.crew.body
      l.crew.performed := by
  refine ⟨?_, ?_, ?_, ?_, ?_, ?_⟩
  · intro v
    rcases l.stack_crew v with heq | heq
    · rw [heq]
      exact ⟨rfl, rfl⟩
    · rw [heq]
      rfl
  · intro v right below hstack
    cases eq_loop_of_mem (hstack ▸ List.mem_cons_self)
  · intro job hjob htaken
    rcases l.home_cases job with ⟨-, hhome⟩ | ⟨rfl, -⟩ | ⟨hgt, -⟩
    · rw [hhome] at htaken
      cases htaken
    · exact l.items_root
    · exact absurd hgt (Nat.not_lt_of_le (Nat.le_of_lt_succ hjob))
  · intro job hgone
    rcases l.home_cases job with ⟨hlt, -⟩ | ⟨-, hhome⟩ | ⟨-, hhome⟩
    · exact items_of_ne (Nat.ne_of_lt hlt)
    · rw [hhome] at hgone
      cases hgone
    · rw [hhome] at hgone
      cases hgone
  · intro job _
    by_cases hroot : job = l.root
    · rw [hroot, l.items_root]
      exact ⟨.rootBody hstrict, fun _ hcode => absurd hcode List.not_mem_nil⟩
    · rw [items_of_ne hroot]
      trivial
  · refine ⟨.andThen .nil (Action.rootBody l.thunk), ?_, List.pairwise_singleton _ _, ?_, ?_, ?_⟩
    · rw [l.items_root]
      exact .code .nil
    · intro job hjob
      rw [List.mem_singleton.mp hjob]
      exact Nat.lt_succ_self _
    · intro job hjob
      refine List.mem_singleton.mpr (Decidable.byContradiction fun hne => ?_)
      exact hjob (items_of_ne hne)
    · intro trace htrace
      cases htrace with
      | andThen hnil hbody =>
          cases hnil
          exact hbody.rootBody_inv

theorem told_crew
    (l : Launch) :
    Told l.root l.crew.count l.crew.stack (fun job => (l.crew.home job).isTaken = true) l.crew.items
      l.crew.history := by
  refine ⟨.nil, ?_, ?_, ?_, ?_, ?_⟩
  · intro v phase right hright
    cases eq_loop_of_mem hright
  · intro job _
    exact ⟨List.not_mem_nil, List.not_mem_nil, List.not_mem_nil⟩
  · intro job hroot
    refine iff_of_false List.not_mem_nil ?_
    rcases l.home_cases job with ⟨hlt, -⟩ | ⟨-, hhome⟩ | ⟨-, hhome⟩
    · exact absurd hlt (Nat.not_lt_of_le hroot)
    · rw [hhome]
      exact Bool.false_ne_true
    · rw [hhome]
      exact Bool.false_ne_true
  · intro job
    refine iff_of_false List.not_mem_nil fun hjob => ?_
    exact absurd hjob.1 (Nat.not_lt_of_le (Nat.le_of_lt_succ hjob.2.1))
  · refine iff_of_false List.not_mem_nil ?_
    rw [l.items_root]
    exact List.cons_ne_nil _ _

/-- The invariant holds when the region opens. -/
theorem inv_crew
    (hstrict : Code.isStrict l.thunk = true) :
    Inv l.thunk l.root l.crew :=
  ⟨l.shape_crew, l.places_crew, work_crew hstrict, l.told_crew⟩

/-- The world after the thunk has been made a job. -/
def called (l : Launch) : World :=
  (l.world.addJob fun _ => Action.rootBody l.thunk).1

/-- The world behind the crew before the first job was pushed. -/
theorem backs_called
    {capacity : Nat}
    (h : l.Ready capacity) :
    Backs (l.setting capacity) l.called (fun _ => {}) l.crew.count l.crew.body [] [] := by
  refine ⟨rfl, h.idle.follows, ?_, ?_, ?_, ?_, ?_, rfl, ?_⟩
  · show l.world.scheduler.finished = true ↔ _
    rw [h.idle.finished]
    exact iff_of_false Bool.false_ne_true List.not_mem_nil
  · exact Array.size_push _
  · intro job hroot hjob
    have hlast : job = l.world.bodies.size := Nat.le_antisymm (Nat.le_of_lt_succ hjob) hroot
    show (l.world.bodies.push (Action.rootBody l.thunk))[job]? = _
    rw [hlast, Array.getElem?_push_size]
    rfl
  · exact (Array.size_push _).trans (congrArg Nat.succ h.flags)
  · intro job flags hroot hget
    have hpush : (l.world.flags.push {})[job]? = some flags := hget
    have hlast : job = l.world.flags.size := by
      have hlt := (Array.getElem?_eq_some_iff.mp hpush).1
      rw [Array.size_push] at hlt
      refine Nat.le_antisymm (Nat.le_of_lt_succ hlt) ?_
      rw [h.flags]
      exact hroot
    rw [hlast, Array.getElem?_push_size] at hpush
    cases hpush
    exact ⟨iff_of_false Bool.false_ne_true List.not_mem_nil,
      fun hno => absurd hno Bool.false_ne_true,
      iff_of_false Bool.false_ne_true List.not_mem_nil⟩
  · exact ⟨[], (List.append_nil _).symm, fun _ => List.not_mem_nil⟩

/-- The thread calls for a run of the thunk. -/
theorem calls
    {w : World}
    (hworld : w = l.world)
    (identity : Option Nat) :
    Frame.step w identity (.perform [.runThunk l.thunk l.threads]) =
      .go l.called identity [.run (.claim l.threads) l.root true, .perform []] := by
  rw [hworld]
  rfl

/-- A run that asks for too many workers is refused. -/
theorem refuses
    {w : World}
    (hworld : w = l.called)
    (hmany : l.world.scheduler.dequeCount < l.asked)
    (identity : Option Nat) :
    Frame.step w identity (.run (.claim l.threads) l.root true) =
      .go (l.called.emit (.ranThunk (.error
        (.tooManyThreads l.asked l.world.scheduler.dequeCount)))) identity [] := by
  rw [hworld]
  exact if_pos hmany

/-- Any other run claims the scheduler. -/
theorem claims
    {w : World}
    (hworld : w = l.called)
    (hrunning : l.world.scheduler.running = false)
    (hmany : ¬ l.world.scheduler.dequeCount < l.asked)
    (identity : Option Nat) :
    Frame.step w identity (.run (.claim l.threads) l.root true) =
      .go { l.called with scheduler := { l.called.scheduler with running := true } } identity
        [.run (.enqueue l.asked) l.root true] := by
  rw [hworld]
  refine (if_neg hmany).trans (if_neg ?_)
  show ¬ l.world.scheduler.running = true
  rw [hrunning]
  exact Bool.false_ne_true

theorem enqueues
    {w : World} {t : Scheduler}
    (hpush : w.scheduler.push 0 l.root = .ok (t, .ok ()))
    (identity : Option Nat) :
    Frame.step w identity (.run (.enqueue l.asked) l.root true) =
      .go { w with scheduler := t } identity [.run (.announce l.asked) l.root true] :=
  Frame.step_enqueue_of_ok hpush identity l.asked true

theorem finds
    {w : World}
    (hstyle : w.style = l.world.style)
    (hatOnce : l.world.style.atOnce = true)
    (identity : Option Nat) :
    Frame.step w identity (.run (.open l.asked) l.root true) =
      .go w identity [.recruit l.workers, .run .clear l.root true] := by
  have hframe : Machine.regionFrame w.style l.asked identity = .recruit l.workers := by
    rw [Machine.regionFrame, hstyle, if_pos hatOnce]
    rfl
  rw [← hframe]
  rfl

/-- Two workers add up two cells that the branches of a fork have written. -/
def sample : Launch :=
  { world :=
      { scheduler :=
          { config := {}, maxWorkers := 2, stealTrials := 2, idleSleep := .ofParts 0 500
            places := Array.replicate 2
              { deque := { capacity := 4, capacity_pos := by decide, capacity_le := by decide } } }
        cells := #[0, 0, 0] }
    thunk := [.fork [.store 0 1 []] [.store 1 2 []], .store 2 0 [0, 1]]
    threads := 2 }

theorem sample_ready :
    sample.Ready 4 := by
  refine ⟨by decide, ⟨rfl, rfl, ?_⟩, rfl, rfl, by decide, by decide, by decide, by decide⟩
  intro place hplace
  rw [(Array.mem_replicate.mp hplace).2]
  exact ⟨rfl, rfl, rfl⟩

end Launch
end ForkJoin
end WorkStealing
