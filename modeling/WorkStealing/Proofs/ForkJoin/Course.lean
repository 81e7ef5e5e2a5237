import Mathlib.Data.List.Induction
import WorkStealing.Proofs.ForkJoin.Launch
import WorkStealing.Proofs.Scheduler.Statistics

/-!
# The course of a run

A run goes through stages: the calling thread claims the scheduler, pushes the
first job and opens the region; in the region the system shows a crew; when all
workers have left, the calling thread resets the deques and reports. This
module describes the stages (`Course`) and shows that each step of a thread
keeps to them.

A stage can carry a property of crews along that each step of a crew keeps.
-/

namespace WorkStealing
namespace ForkJoin

open Function (update)
open Machine (Frame Moment Orderly RunPoint System Thread World)

/-- Only the first thread has anything left to do, and these are its frames. -/
structure Alone (s : System) (frames : List Frame) : Prop where
  going : s.aborted = none
  first : ∃ thread, s.threads[0]? = some thread ∧ thread.frames = frames ∧ thread.panicked = none
  others : ∀ t thread, t ≠ 0 → s.threads[t]? = some thread →
    thread.frames = [] ∧ thread.panicked = none

namespace Alone

variable {s : System} {frame : Frame} {frames : List Frame}

theorem sound
    (h : Alone s frames)
    {thread : Thread}
    (hthread : thread ∈ s.threads) :
    thread.panicked = none := by
  obtain ⟨t, ht, hget⟩ := Array.mem_iff_getElem.mp hthread
  have hsome : s.threads[t]? = some thread := by
    rw [Array.getElem?_eq_getElem ht, hget]
  by_cases hzero : t = 0
  · subst hzero
    obtain ⟨first, hfirst, -, hpanicked⟩ := h.first
    rw [hsome] at hfirst
    cases hfirst
    exact hpanicked
  · exact (h.others t thread hzero hsome).2

/-- Other threads do nothing. -/
theorem advance_other
    (h : Alone s frames)
    {index : Nat}
    (hindex : index ≠ 0) :
    s.advance index = s ∧ s.frameAt index = none := by
  cases hthread : s.threads[index]? with
  | none =>
      exact System.advance_of_none hthread
  | some thread =>
      exact System.advance_of_over hthread (h.others index thread hindex hthread).1

/-- When the first thread is over as well, nothing happens. -/
theorem advance_nil
    (h : Alone s [])
    (index : Nat) :
    s.advance index = s ∧ s.frameAt index = none := by
  by_cases hindex : index = 0
  · subst hindex
    obtain ⟨thread, hthread, hframes, -⟩ := h.first
    exact System.advance_of_over hthread hframes
  · exact h.advance_other hindex

theorem frameAt
    (h : Alone s (frame :: frames)) :
    s.frameAt 0 = some frame := by
  obtain ⟨thread, hthread, hframes, -⟩ := h.first
  exact System.frameAt_of_thread h.going hthread hframes

theorem mem_of_at
    (h : Alone s frames)
    {index : Nat} {thread : Thread} {below : List Frame}
    (hat : s.At index thread frame below) :
    frame ∈ frames := by
  by_cases hzero : index = 0
  · subst hzero
    obtain ⟨first, hfirst, rfl, -⟩ := h.first
    obtain rfl : first = thread := Option.some.inj (hfirst.symm.trans hat.found)
    simp [hat.frames]
  · have hnone := (h.others index thread hzero hat.found).1
    simp [hat.frames] at hnone

theorem advance_of_go
    (h : Alone s (frame :: frames))
    {w : World} {next : List Frame}
    (hmove : ∀ identity, ∃ other, frame.step s.world identity = .go w other next) :
    Alone (s.advance 0) (next ++ frames) ∧ (s.advance 0).world = w ∧
      (s.advance 0).threads.size = s.threads.size := by
  obtain ⟨thread, hthread, hframes, -⟩ := h.first
  obtain ⟨other, hother⟩ := hmove thread.identity
  have hin : 0 < s.threads.size := (Array.getElem?_eq_some_iff.mp hthread).1
  rw [System.advance_of_go h.going hthread hframes hother]
  refine ⟨⟨rfl, ⟨_, Array.getElem?_setIfInBounds_self_of_lt hin, rfl, rfl⟩, ?_⟩, rfl,
    Array.size_setIfInBounds⟩
  intro t thread ht hget
  have hold : s.threads[t]? = some thread := by
    rw [← Array.getElem?_setIfInBounds_ne (Ne.symm ht)]
    exact hget
  exact h.others t thread ht hold

/-- The calling thread has nothing left to do when its code has ended. -/
theorem advance_of_return
    (h : Alone s [.perform []]) :
    Alone (s.advance 0) [] ∧ (s.advance 0).world = s.world := by
  have hmove : ∀ identity, ∃ other, Frame.step s.world identity (.perform []) =
      .go s.world other [] :=
    fun identity => ⟨identity, rfl⟩
  obtain ⟨hafter, hnext, -⟩ := h.advance_of_go hmove
  exact ⟨hafter, hnext⟩

theorem advance_of_error
    (h : Alone s (frame :: frames))
    {w : World} {cause : Error}
    (hmove : ∀ identity, frame.step s.world identity = .fail w (.error cause)) :
    s.advance 0 = System.abort w s.threads cause := by
  obtain ⟨thread, hthread, hframes, -⟩ := h.first
  exact System.advance_of_error h.going hthread hframes (hmove thread.identity)

end Alone

/-- What is so when the run has done what its thunk asks for. -/
structure Settled (l : Launch) (capacity : Nat) (w : World) (lanes : Nat → Lane)
    (performed : List Action) (history : List Moment) : Prop where
  orderly : Orderly history
  finished : .finished ∈ history
  complete : Interleaving l.thunk performed
  /-- The cells are as the plain actions have left them. -/
  cells : w.cells = Action.effects performed l.world.cells
  deques : w.scheduler.dequeCount = l.world.scheduler.dequeCount
  follows : w.scheduler.Follows capacity lanes
  empty : ∀ i, (lanes i).jobs = []

/-- Only the cells and the places of the scheduler matter. -/
theorem Settled.congr
    {l : Launch} {capacity : Nat} {w next : World} {lanes : Nat → Lane} {performed : List Action}
    {history : List Moment}
    (h : Settled l capacity w lanes performed history)
    (hcells : next.cells = w.cells)
    (hplaces : next.scheduler.places = w.scheduler.places) :
    Settled l capacity next lanes performed history := by
  refine ⟨h.orderly, h.finished, h.complete, hcells.trans h.cells, ?_, ?_, h.empty⟩
  · exact (congrArg Array.size hplaces).trans h.deques
  · intro i place hplace
    rw [hplaces] at hplace
    exact h.follows i place hplace

/-- How far the scheduler has been put back. -/
def Cleared (s : Scheduler) (lanes : Nat → Lane) : RunPoint → Prop
  | .clear => True
  | .reset deque => s.finished = false ∧ ∀ i, i < deque → lanes i = {}
  | .release => s.finished = false ∧ ∀ i, i < s.dequeCount → lanes i = {}
  | .complete => s.running = false ∧ s.finished = false ∧ ∀ i, i < s.dequeCount → lanes i = {}
  | _ => False

/-- The frames to which the calling thread comes back after the region. -/
def Launch.after (l : Launch) : List Frame :=
  [.run .clear l.root true, .perform []]

/-- The frames of the calling thread below its worker: the region, open or about to be closed. -/
def Launch.Beneath (l : Launch) (below : List Frame) : Prop :=
  (∃ outer, below = .crew ((List.range l.workers.tail.length).map (1 + ·)) outer :: l.after) ∨
    below = .disband ((List.range l.workers.tail.length).map (1 + ·)) none :: l.after

/-- The world behind a crew that has done nothing yet. -/
def Launch.Backed (l : Launch) (capacity : Nat) (w : World) (lanes : Nat → Lane) : Prop :=
  w.style = l.world.style ∧
    Backs (l.setting capacity) w lanes l.crew.count l.crew.body [] []

/-- The turns that the calling thread takes to open the region. -/
def openingTurns : Nat := 6

/-- The stages of a run before its region is open, where the calling thread has had so many
turns. -/
inductive Opening (l : Launch) (capacity : Nat) : Nat → System → Prop where
  | calling {s : System}
      (halone : Alone s [.perform [.runThunk l.thunk l.threads]])
      (hsize : s.threads.size = 1)
      (hworld : s.world = l.world) :
      Opening l capacity 0 s
  /-- It is about to claim the scheduler. -/
  | claiming {s : System}
      (halone : Alone s [.run (.claim l.threads) l.root true, .perform []])
      (hsize : s.threads.size = 1)
      (hworld : s.world = l.called) :
      Opening l capacity 1 s
  /-- It is about to push the first job. -/
  | enqueuing {s : System}
      (halone : Alone s [.run (.enqueue l.asked) l.root true, .perform []])
      (hsize : s.threads.size = 1)
      (hbacked : l.Backed capacity s.world fun _ => {}) :
      Opening l capacity 2 s
  /-- It is about to announce the number of workers. -/
  | announcing {s : System}
      (halone : Alone s [.run (.announce l.asked) l.root true, .perform []])
      (hsize : s.threads.size = 1)
      (hbacked : l.Backed capacity s.world l.lanes) :
      Opening l capacity 3 s
  /-- It is about to find the workers of the region. -/
  | finding {s : System}
      (halone : Alone s [.run (.open l.asked) l.root true, .perform []])
      (hsize : s.threads.size = 1)
      (hbacked : l.Backed capacity s.world l.lanes) :
      Opening l capacity 4 s
  | recruiting {s : System}
      (halone : Alone s (.recruit l.workers :: l.after))
      (hsize : s.threads.size = 1)
      (hbacked : l.Backed capacity s.world l.lanes) :
      Opening l capacity 5 s

/-- The stages of a run, with the plain actions and the moments so far; `P` is what is known about
the crews, and `turns` are the turns that the calling thread has had. -/
inductive Course (l : Launch) (capacity : Nat) (P : Crew → Prop) (turns : Nat) :
    System → List Action → List Moment → Prop where
  | opening {s : System}
      (hopening : Opening l capacity turns s) :
      Course l capacity P turns s [] []
  | working {s : System} {below : List Frame} {a : Crew}
      (hbelow : l.Beneath below)
      (hshows : Shows (l.setting capacity) below s a)
      (hinv : Inv l.thunk l.root a)
      (hcrew : P a) :
      Course l capacity P turns s a.performed a.history
  /-- All workers have left, and the calling thread puts the scheduler back. -/
  | closing {s : System} {point : RunPoint} {performed : List Action} {history : List Moment}
      (lanes : Nat → Lane)
      (halone : Alone s [.run point l.root true, .perform []])
      (hsettled : Settled l capacity s.world lanes performed history)
      (hcleared : Cleared s.world.scheduler lanes point)
      (hquiet : Quiet l.world.transcript.toList s.world.transcript) :
      Course l capacity P turns s performed history
  | returned {s : System} {frames : List Frame} {performed : List Action} {history : List Moment}
      (halone : Alone s frames)
      (hframes : frames = [.perform []] ∨ frames = [])
      (hsettled : Settled l capacity s.world (fun _ => {}) performed history)
      (hrunning : s.world.scheduler.running = false)
      (hfinished : s.world.scheduler.finished = false) :
      Course l capacity P turns s performed history
  /-- The statistics of the run could not be summed. -/
  | failed {s : System} {performed : List Action} {history : List Moment}
      (hgoing : s.aborted = none)
      (hover : ∀ thread ∈ s.threads, thread.frames = [] ∧
        ∀ cause, thread.panicked = some cause → cause = .addOverflow)
      (horderly : Orderly history)
      (hfinished : .finished ∈ history)
      (hcomplete : Interleaving l.thunk performed)
      (hquiet : Quiet l.world.transcript.toList s.world.transcript) :
      Course l capacity P turns s performed history
  | refused {s : System} {frames : List Frame}
      (hmany : l.world.scheduler.dequeCount < l.asked)
      (halone : Alone s frames)
      (hframes : frames = [.perform []] ∨ frames = [])
      (hreport : ∃ error, s.world.transcript = l.world.transcript.push (.ranThunk (.error error))) :
      Course l capacity P turns s [] []
  | gaveUp {s : System} {performed : List Action} {history : List Moment}
      (error : Error)
      (haborted : s.aborted = some error)
      (hsound : ∀ thread ∈ s.threads, thread.panicked = none)
      (hquiet : Quiet l.world.transcript.toList s.world.transcript)
      (horderly : Orderly history)
      (hcompletes : ∃ rest, Interleaving l.thunk (performed ++ rest))
      (hcause : error = .tagExhausted ∨ error = .dequeOverflow capacity ∧
        ∃ a v left right below, Inv l.thunk l.root a ∧ P a ∧ v ∈ l.workers ∧
          capacity ≤ (a.lanes v).bottom ∧ a.stack v = .fork (.publish left) right :: below) :
      Course l capacity P turns s performed history

/-- The frame is one of the calling thread's, from before the region, beneath it or after it. -/
def isOutside : Frame → Bool
  | .perform [] => true
  | .perform [.runThunk _ _] => true
  | .run _ _ _ => true
  | .recruit _ => true
  | .crew _ _ => true
  | .disband _ _ => true
  | _ => false

namespace Opening

variable {l : Launch} {capacity turns : Nat} {s : System}

theorem turns_lt
    (h : Opening l capacity turns s) :
    turns < openingTurns := by
  cases h <;> decide

/-- Only the first thread makes steps, and nothing is performed or told by them. -/
theorem exists_alone
    (h : Opening l capacity turns s) :
    ∃ frame frames, Alone s (frame :: frames) ∧
      (∀ other ∈ frame :: frames, isOutside other = true) ∧ frame.action? = none ∧
        frame.moment? = none := by
  cases h with
  | calling halone | claiming halone | enqueuing halone | announcing halone | finding halone
  | recruiting halone =>
      exact ⟨_, _, halone, by simp [Launch.after, isOutside], rfl, rfl⟩

theorem quiet
    (h : Opening l capacity turns s) :
    Quiet l.world.transcript.toList s.world.transcript := by
  cases h with
  | calling halone hsize hworld | claiming halone hsize hworld =>
      rw [hworld]
      exact ⟨[], (List.append_nil _).symm, fun _ => List.not_mem_nil⟩
  | enqueuing halone hsize hbacked | announcing halone hsize hbacked
  | finding halone hsize hbacked | recruiting halone hsize hbacked =>
      exact hbacked.2.quiet

end Opening

namespace Course

variable {l : Launch} {capacity turns : Nat} {P Q : Crew → Prop} {s : System}

/-- What is known about the crews may be less. -/
theorem mono
    (hmono : ∀ a, P a → Q a)
    {performed : List Action} {history : List Moment}
    (h : Course l capacity P turns s performed history) :
    Course l capacity Q turns s performed history := by
  cases h with
  | opening hopening =>
      exact .opening hopening
  | working hbelow hshows hinv hcrew =>
      exact .working hbelow hshows hinv (hmono _ hcrew)
  | closing lanes halone hsettled hcleared hquiet =>
      exact .closing lanes halone hsettled hcleared hquiet
  | returned halone hframes hsettled hrunning hfinished =>
      exact .returned halone hframes hsettled hrunning hfinished
  | failed hgoing hover horderly hfinished hcomplete hquiet =>
      exact .failed hgoing hover horderly hfinished hcomplete hquiet
  | refused hmany halone hframes hreport =>
      exact .refused hmany halone hframes hreport
  | gaveUp error haborted hsound hquiet horderly hcompletes hcause =>
      refine .gaveUp error haborted hsound hquiet horderly hcompletes (hcause.imp_right ?_)
      rintro ⟨herror, a, v, left, right, below, hinv, hcrew, hrest⟩
      exact ⟨herror, a, v, left, right, below, hinv, hmono a hcrew, hrest⟩

theorem step_calling
    (halone : Alone s [.perform [.runThunk l.thunk l.threads]])
    (hsize : s.threads.size = 1)
    (hworld : s.world = l.world) :
    Course l capacity P 1 (s.advance 0) [] [] := by
  obtain ⟨hafter, hnext, hcount⟩ := halone.advance_of_go fun identity =>
    ⟨identity, l.calls hworld identity⟩
  exact .opening (.claiming hafter (hcount.trans hsize) hnext)

/-- The calling thread claims the scheduler, or is refused. -/
theorem step_claiming
    (h : l.Ready capacity)
    (halone : Alone s [.run (.claim l.threads) l.root true, .perform []])
    (hsize : s.threads.size = 1)
    (hworld : s.world = l.called) :
    Course l capacity P 2 (s.advance 0) [] [] := by
  by_cases hmany : l.world.scheduler.dequeCount < l.asked
  · obtain ⟨hafter, hnext, -⟩ := halone.advance_of_go fun identity =>
      ⟨identity, l.refuses hworld hmany identity⟩
    refine .refused hmany hafter (Or.inl rfl)
      ⟨.tooManyThreads l.asked l.world.scheduler.dequeCount, ?_⟩
    rw [hnext]
    rfl
  · obtain ⟨hafter, hnext, hcount⟩ := halone.advance_of_go fun identity =>
      ⟨identity, l.claims hworld h.idle.running hmany identity⟩
    refine .opening (.enqueuing hafter (hcount.trans hsize) ?_)
    rw [hnext]
    have hbacks := l.backs_called h
    exact ⟨rfl, hbacks.deques, hbacks.follows, hbacks.finished, hbacks.bodies, hbacks.body,
      hbacks.flags, hbacks.agrees, hbacks.cells, hbacks.quiet⟩

theorem step_enqueuing
    (h : l.Ready capacity)
    (halone : Alone s [.run (.enqueue l.asked) l.root true, .perform []])
    (hsize : s.threads.size = 1)
    (hbacked : l.Backed capacity s.world fun _ => {}) :
    Course l capacity P 3 (s.advance 0) [] [] := by
  obtain ⟨hstyle, hbacks⟩ := hbacked
  obtain ⟨v, hv⟩ := List.exists_mem_of_ne_nil _ h.valid.manned
  have hzero : 0 < s.world.scheduler.dequeCount := by
    rw [hbacks.deques]
    exact Nat.zero_lt_of_lt (h.valid.below v hv)
  have hroom : (Lane.bottom {}) < capacity := hbacks.follows.capacity_pos hzero
  obtain ⟨t, hpush, hfollows, hkeeps, -⟩ := hbacks.follows.push_of_lt hzero hroom l.root
  obtain ⟨hafter, hnext, hcount⟩ := halone.advance_of_go fun identity =>
    ⟨identity, l.enqueues hpush identity⟩
  refine .opening (.announcing hafter (hcount.trans hsize) ?_)
  rw [hnext]
  exact ⟨hstyle, hbacks.schedule hkeeps hfollows⟩

theorem step_announcing
    (halone : Alone s [.run (.announce l.asked) l.root true, .perform []])
    (hsize : s.threads.size = 1)
    (hbacked : l.Backed capacity s.world l.lanes) :
    Course l capacity P 4 (s.advance 0) [] [] := by
  obtain ⟨hstyle, hbacks⟩ := hbacked
  have hmove : ∀ identity, ∃ other, Frame.step s.world identity
      (.run (.announce l.asked) l.root true) =
        .go (World.trace
          { s.world with
            scheduler := { s.world.scheduler with activeWorkers := l.asked } }
          (.starting l.asked s.world.scheduler.dequeCount)) other
          [.run (.open l.asked) l.root true] :=
    fun identity => ⟨identity, rfl⟩
  obtain ⟨hafter, hnext, hcount⟩ := halone.advance_of_go hmove
  refine .opening (.finding hafter (hcount.trans hsize) ?_)
  rw [hnext]
  refine ⟨hstyle, Backs.trace ?_ _⟩
  exact ⟨hbacks.deques, hbacks.follows, hbacks.finished, hbacks.bodies, hbacks.body, hbacks.flags,
    hbacks.agrees, hbacks.cells, hbacks.quiet⟩

theorem step_finding
    (h : l.Ready capacity)
    (halone : Alone s [.run (.open l.asked) l.root true, .perform []])
    (hsize : s.threads.size = 1)
    (hbacked : l.Backed capacity s.world l.lanes) :
    Course l capacity P 5 (s.advance 0) [] [] := by
  have hmove : ∀ identity, ∃ other, Frame.step s.world identity
      (.run (.open l.asked) l.root true) =
        .go s.world other [.recruit l.workers, .run .clear l.root true] :=
    fun identity => ⟨identity, l.finds hbacked.1 h.atOnce identity⟩
  obtain ⟨hafter, hnext, hcount⟩ := halone.advance_of_go hmove
  refine .opening (.recruiting hafter (hcount.trans hsize) ?_)
  rw [hnext]
  exact hbacked

/-- A worker that enters the region is in its outermost loop. -/
theorem plays_entering
    {deques v : Nat} (beneath : List Frame) {thread : Thread} (jobs : List JobId)
    (hframes : thread.frames = System.workerFrame v :: beneath)
    (hbeneath : beneath.any Frame.hasLooked = false)
    (hidentity : thread.identity = some v)
    (hpanicked : thread.panicked = none) :
    Plays deques v beneath thread [.loop none none] jobs := by
  refine ⟨⟨[System.workerFrame v], .cons (.loop .poll none 0 trivial) .nil, hframes⟩,
    fun _ => hidentity, hpanicked, ?_⟩
  rw [hframes]
  exact ⟨fun hlooked => absurd hlooked Bool.false_ne_true, hbeneath⟩

theorem step_recruiting
    (h : l.Ready capacity)
    (hcrew : P l.crew)
    (halone : Alone s (.recruit l.workers :: l.after))
    (hsize : s.threads.size = 1)
    (hbacked : l.Backed capacity s.world l.lanes) :
    Course l capacity P turns (s.advance 0) [] [] := by
  obtain ⟨thread, hthread, hframes, -⟩ := halone.first
  obtain ⟨v, others, hworkers⟩ := List.exists_cons_of_ne_nil h.valid.manned
  have hlist : l.workers = v :: others := hworkers
  have hadvance := System.advance_of_recruit halone.going hthread hframes
    (rfl : Frame.step s.world thread.identity (.recruit l.workers) = .recruit s.world l.workers)
  rw [hlist, System.recruit, hsize] at hadvance
  have hstack : ∀ u ∈ l.workers, l.crew.stack u = [.loop none none] := fun u hu => if_pos hu
  obtain ⟨caller, hcaller⟩ : ∃ caller : Thread, caller =
      { frames := System.workerFrame v ::
          .crew ((List.range others.length).map (1 + ·)) thread.identity :: l.after
        identity := some v } :=
    ⟨_, rfl⟩
  rw [← hcaller] at hadvance
  have hcount : (s.threads.setIfInBounds 0 caller).size = 1 := by
    rw [Array.size_setIfInBounds, hsize]
  have hshows : Shows (l.setting capacity)
      (.crew ((List.range others.length).map (1 + ·)) thread.identity :: l.after)
      (s.advance 0) l.crew := by
    rw [hadvance]
    refine ⟨rfl, ?_, ?_, fun u hu => if_neg hu, ?_, hbacked.2⟩
    · show (_ ++ _ : Array Thread).size = l.workers.length
      rw [Array.size_append, hcount, hlist, List.size_toArray, List.length_map, List.length_cons,
        Nat.add_comm]
    · intro t u hu
      have hin : u ∈ l.workers := List.mem_of_getElem? hu
      rw [hstack u hin]
      have hget : (v :: others)[t]? = some u := by
        rw [← hlist]
        exact hu
      cases t with
      | zero =>
          cases hget
          refine ⟨caller, ?_, ?_⟩
          · show (_ ++ _ : Array Thread)[0]? = some caller
            rw [Array.getElem?_append_left (by rw [hcount]; exact Nat.zero_lt_one)]
            exact Array.getElem?_setIfInBounds_self_of_lt (by rw [hsize]; exact Nat.zero_lt_one)
          · rw [hcaller]
            exact plays_entering _ _ rfl rfl rfl rfl
      | succ t =>
          refine ⟨System.workerThread u, ?_, plays_entering _ _ rfl rfl rfl rfl⟩
          show (_ ++ _ : Array Thread)[t + 1]? = _
          rw [Array.getElem?_append_right (by rw [hcount]; exact Nat.le_add_left 1 t), hcount,
            List.getElem?_toArray, List.getElem?_map]
          show others[t]?.map _ = _
          rw [List.getElem?_cons_succ] at hget
          rw [hget]
          rfl
    · intro u hu hnil
      rw [hstack u hu] at hnil
      cases hnil
  refine .working (Or.inl ⟨thread.identity, ?_⟩) hshows (Launch.inv_crew h.strict) hcrew
  rw [hlist]
  rfl

/-- Each turn of the calling thread brings the run nearer to its region, unless the run is
refused. -/
theorem step_opening
    (h : l.Ready capacity)
    (hcrew : P l.crew)
    (hopening : Opening l capacity turns s) :
    Course l capacity P (turns + 1) (s.advance 0) [] [] := by
  cases hopening with
  | calling halone hsize hworld =>
      exact step_calling halone hsize hworld
  | claiming halone hsize hworld =>
      exact step_claiming h halone hsize hworld
  | enqueuing halone hsize hbacked =>
      exact step_enqueuing h halone hsize hbacked
  | announcing halone hsize hbacked =>
      exact step_announcing halone hsize hbacked
  | finding halone hsize hbacked =>
      exact step_finding h halone hsize hbacked
  | recruiting halone hsize hbacked =>
      exact step_recruiting h hcrew halone hsize hbacked

/-- Where nothing happens, the stage is the same. -/
theorem unchanged
    {performed : List Action} {history : List Moment} {index : Nat}
    (h : Course l capacity P turns s performed history)
    (hsame : s.advance index = s ∧ s.frameAt index = none) :
    Course l capacity P turns (s.advance index)
      (performed ++ ((s.frameAt index).bind Frame.action?).toList)
      (history ++ ((s.frameAt index).bind Frame.moment?).toList) := by
  rw [hsame.1, hsame.2]
  show Course l capacity P turns s (performed ++ []) (history ++ [])
  rw [List.append_nil, List.append_nil]
  exact h

/-- Where nothing is performed and nothing told, only the stage matters. -/
theorem silent
    {performed : List Action} {history : List Moment} {index : Nat} {frame : Frame}
    (h : Course l capacity P turns (s.advance index) performed history)
    (hframe : s.frameAt index = some frame)
    (haction : frame.action? = none)
    (hmoment : frame.moment? = none) :
    Course l capacity P turns (s.advance index)
      (performed ++ ((s.frameAt index).bind Frame.action?).toList)
      (history ++ ((s.frameAt index).bind Frame.moment?).toList) := by
  rw [hframe, Option.bind_some, Option.bind_some, haction, hmoment]
  show Course l capacity P turns _ (performed ++ []) (history ++ [])
  rw [List.append_nil, List.append_nil]
  exact h

/-- When all workers have left, only the calling thread has anything left to do. -/
theorem alone_of_allOver
    {below rest : List Frame} {a : Crew} {g : Setting} {thread : Thread}
    (hshows : Shows g below s a)
    (hthread : s.threads[0]? = some thread)
    (hover : System.allOver s.threads
      ((List.range g.workers.tail.length).map (1 + ·)) = true) :
    Alone
      { world := s.world
        threads := s.threads.setIfInBounds 0 { frames := rest, identity := thread.identity } }
      rest := by
  have hin : 0 < s.threads.size := (Array.getElem?_eq_some_iff.mp hthread).1
  refine ⟨rfl, ⟨_, Array.getElem?_setIfInBounds_self_of_lt hin, rfl, rfl⟩, ?_⟩
  intro t other ht hget
  have hold : s.threads[t]? = some other := by
    rw [← Array.getElem?_setIfInBounds_ne (Ne.symm ht)]
    exact hget
  refine ⟨?_, hshows.sound (Array.mem_of_getElem? hold)⟩
  have hmem : t ∈ (List.range g.workers.tail.length).map (1 + ·) := by
    have hlt := (Array.getElem?_eq_some_iff.mp hold).1
    rw [hshows.size] at hlt
    refine List.mem_map.mpr ⟨t - 1, ?_, ?_⟩
    · rw [List.mem_range, List.length_tail]
      exact Nat.sub_lt_sub_right (Nat.one_le_iff_ne_zero.mpr ht) hlt
    · exact Nat.add_sub_cancel' (Nat.one_le_iff_ne_zero.mpr ht)
  have htest := List.all_eq_true.mp hover t hmem
  rw [hold] at htest
  exact List.isEmpty_iff.mp htest

/-- When the first job has ended, the thunk has been run and no deque holds a job. -/
theorem settled_of_finished
    {a : Crew} {w : World}
    (hinv : Inv l.thunk l.root a)
    (hbacked : a.Backed (l.setting capacity) w)
    (hfinished : .finished ∈ a.history) :
    Settled l capacity w a.lanes a.performed a.history := by
  obtain ⟨hcomplete, hitems⟩ := hinv.work.pending.ended (hinv.told.finished.mp hfinished)
  refine ⟨hinv.told.orderly, hfinished, hcomplete, hbacked.cells, hbacked.deques, hbacked.follows,
    ?_⟩
  intro i
  rw [List.eq_nil_iff_forall_not_mem]
  intro job hjob
  have hhome := (hinv.places.queued i job).mp hjob
  have hlt : job < a.count := by
    apply hinv.lt_count
    rw [hhome]
    exact Home.noConfusion
  have hwaiting := hinv.work.waiting job hlt (by rw [hhome]; rfl)
  rw [hitems job] at hwaiting
  cases hwaiting

/-- No thread was ended by a panic while the region was open. -/
theorem anyPanicked_eq_false
    {below : List Frame} {a : Crew} {g : Setting}
    (hshows : Shows g below s a)
    (indices : List Nat) :
    System.anyPanicked s.threads indices = false := by
  unfold System.anyPanicked
  rw [List.any_eq_false]
  intro t _
  cases hget : s.threads[t]? with
  | none =>
      exact Bool.false_ne_true
  | some thread =>
      rw [Option.bind_some, hshows.sound (Array.mem_of_getElem? hget)]
      exact Bool.false_ne_true

/-- The calling thread, whose worker has left, closes the region when all others have left. -/
theorem step_leaving
    {below : List Frame} {a : Crew} {v : Nat}
    (hbelow : l.Beneath below)
    (hshows : Shows (l.setting capacity) below s a)
    (hinv : Inv l.thunk l.root a)
    (hcrew : P a)
    (hv : l.workers[0]? = some v)
    (hstack : a.stack v = []) :
    Course l capacity P turns (s.advance 0)
      (a.performed ++ ((s.frameAt 0).bind Frame.action?).toList)
      (a.history ++ ((s.frameAt 0).bind Frame.moment?).toList) := by
  obtain ⟨thread, hthread, hframes⟩ := hshows.exists_left hv hstack
  rw [Setting.beneath, if_pos rfl] at hframes
  have hin : 0 < s.threads.size := (Array.getElem?_eq_some_iff.mp hthread).1
  rcases hbelow with ⟨outer, rfl⟩ | rfl
  · have hadvance := System.advance_of_go hshows.going hthread hframes
      (rfl : Frame.step s.world thread.identity (.crew _ outer) =
        .go s.world outer [.disband _ none])
    refine silent ?_ (System.frameAt_of_thread hshows.going hthread hframes) rfl rfl
    refine .working (Or.inr rfl) ?_ hinv hcrew
    rw [hadvance]
    refine ⟨rfl, Array.size_setIfInBounds.trans hshows.size, ?_, hshows.others, hshows.left,
      hshows.backed⟩
    intro t u hu
    by_cases ht : t = 0
    · subst ht
      have hsame : u = v := Option.some.inj (hu.symm.trans hv)
      subst hsame
      refine ⟨_, Array.getElem?_setIfInBounds_self_of_lt hin, ?_⟩
      rw [hstack]
      exact ⟨⟨[], .nil, rfl⟩, fun hne => absurd rfl hne, rfl, .of_any rfl _⟩
    · obtain ⟨other, hother, hkeeps⟩ := hshows.plays t u hu
      refine ⟨other, ?_, ?_⟩
      · show (s.threads.setIfInBounds 0 _)[t]? = some other
        rw [Array.getElem?_setIfInBounds_ne (Ne.symm ht)]
        exact hother
      · rw [Setting.beneath, if_neg ht] at hkeeps ⊢
        exact hkeeps
  · cases hover : System.allOver s.threads ((List.range l.workers.tail.length).map (1 + ·)) with
    | false =>
        have hadvance := System.advance_of_busy hshows.going hthread hframes hover
        refine silent ?_ (System.frameAt_of_thread hshows.going hthread hframes) rfl rfl
        rw [hadvance]
        exact .working (Or.inr rfl) hshows hinv hcrew
    | true =>
        have hadvance := System.advance_of_allOver hshows.going hthread hframes hover
          (anyPanicked_eq_false hshows _)
        refine silent ?_ (System.frameAt_of_thread hshows.going hthread hframes) rfl rfl
        rw [hadvance]
        have hfinished := hshows.left v (List.mem_of_getElem? hv) hstack
        exact .closing _ (alone_of_allOver hshows hthread hover)
          (settled_of_finished hinv hshows.backed hfinished) trivial hshows.backed.quiet

/-- What was performed while the region is open can be completed. -/
theorem exists_completion
    {a : Crew}
    (hinv : Inv l.thunk l.root a) :
    ∃ rest, Interleaving l.thunk (a.performed ++ rest) := by
  refine hinv.work.pending.exists_completion fun job code hjob hcode => ?_
  exact (hinv.work.tidy job hjob).within hcode

theorem step_working
    (h : l.Ready capacity)
    {index : Nat}
    (hmono : ∀ a, P a → Q a)
    (hkeep : ∀ {below a b v}, Shows (l.setting capacity) below s a → Inv l.thunk l.root a → P a →
      l.workers[index]? = some v → Step l.root v a b →
      Shows (l.setting capacity) below (s.advance index) b → Q b)
    {below : List Frame} {a : Crew}
    (hbelow : l.Beneath below)
    (hshows : Shows (l.setting capacity) below s a)
    (hinv : Inv l.thunk l.root a)
    (hcrew : P a) :
    Course l capacity Q turns (s.advance index)
      (a.performed ++ ((s.frameAt index).bind Frame.action?).toList)
      (a.history ++ ((s.frameAt index).bind Frame.moment?).toList) := by
  have hsame : Q a := hmono a hcrew
  cases hv : l.workers[index]? with
  | none =>
      exact (Course.working hbelow hshows hinv hsame).unchanged (hshows.advance_of_none hv)
  | some v =>
      by_cases hstack : a.stack v = []
      · by_cases hindex : index = 0
        · subst hindex
          exact step_leaving hbelow hshows hinv hsame hv hstack
        · exact (Course.working hbelow hshows hinv hsame).unchanged
            (hshows.advance_of_left hv hstack hindex)
      · rcases hshows.advance h.valid hinv hv hstack with
          ⟨b, hstep, hnext, hperformed, hhistory⟩ | hgives
        · rw [← hperformed, ← hhistory]
          exact .working hbelow hnext (hinv.step hstep) (hkeep hshows hinv hcrew hv hstep hnext)
        · rw [hgives.action, hgives.moment]
          show Course l capacity Q turns _ (a.performed ++ []) (a.history ++ [])
          rw [List.append_nil, List.append_nil]
          rcases hgives.cause with hcause | ⟨hcause, hfull, left, right, deeper, hfork⟩
          · exact .gaveUp _ hcause hgives.sound hgives.quiet hinv.told.orderly
              (exists_completion hinv) (Or.inl rfl)
          · exact .gaveUp _ hcause hgives.sound hgives.quiet hinv.told.orderly
              (exists_completion hinv) (Or.inr ⟨rfl, a, v, left, right, deeper, hinv, hsame,
                List.mem_of_getElem? hv, hfull, hfork⟩)

theorem step_clear
    {lanes : Nat → Lane} {performed : List Action} {history : List Moment}
    (halone : Alone s [.run .clear l.root true, .perform []])
    (hsettled : Settled l capacity s.world lanes performed history)
    (hquiet : Quiet l.world.transcript.toList s.world.transcript) :
    Course l capacity P turns (s.advance 0) performed history := by
  have hmove : ∀ identity, ∃ other, Frame.step s.world identity (.run .clear l.root true) =
      .go { s.world with scheduler := { s.world.scheduler with finished := false } } other
        [.run (.reset 0) l.root true] :=
    fun identity => ⟨identity, rfl⟩
  obtain ⟨hafter, hnext, -⟩ := halone.advance_of_go hmove
  refine .closing lanes hafter ?_ ?_ ?_
  · rw [hnext]
    exact hsettled.congr rfl rfl
  · rw [hnext]
    exact ⟨rfl, fun i hi => absurd hi (Nat.not_lt_zero i)⟩
  · rw [hnext]
    exact hquiet

/-- The calling thread resets a deque, or finds that it has reset all of them. -/
theorem step_reset
    {deque : Nat} {lanes : Nat → Lane} {performed : List Action} {history : List Moment}
    (halone : Alone s [.run (.reset deque) l.root true, .perform []])
    (hsettled : Settled l capacity s.world lanes performed history)
    (hcleared : Cleared s.world.scheduler lanes (.reset deque))
    (hquiet : Quiet l.world.transcript.toList s.world.transcript) :
    Course l capacity P turns (s.advance 0) performed history := by
  obtain ⟨hfinished, hreset⟩ := hcleared
  by_cases hdeque : deque < s.world.scheduler.dequeCount
  · rcases hsettled.follows.resetDeque hdeque (hsettled.empty deque) with
      ⟨t, hok, hfollows, hkeeps⟩ | hfail
    · obtain ⟨hafter, hnext, -⟩ := halone.advance_of_go fun identity =>
        ⟨identity, Frame.step_reset_of_ok hdeque hok identity l.root true⟩
      refine .closing (update lanes deque {}) hafter ?_ ?_ ?_
      · rw [hnext]
        refine ⟨hsettled.orderly, hsettled.finished, hsettled.complete, hsettled.cells,
          hkeeps.dequeCount.trans hsettled.deques, hfollows, ?_⟩
        exact (Function.forall_update_iff lanes fun _ lane => lane.jobs = []).mpr
          ⟨rfl, fun i _ => hsettled.empty i⟩
      · rw [hnext]
        refine ⟨hkeeps.finished.trans hfinished, fun i hi => ?_⟩
        by_cases hlast : i = deque
        · rw [hlast, Function.update_self]
        · rw [Function.update_of_ne hlast]
          exact hreset i (Nat.lt_of_le_of_ne (Nat.le_of_lt_succ hi) hlast)
      · rw [hnext]
        exact hquiet
    · have hadvance := halone.advance_of_error fun identity =>
        Frame.step_reset_of_error hdeque hfail identity l.root true
      refine .gaveUp .tagExhausted ?_ ?_ ?_ hsettled.orderly ⟨[], ?_⟩ (Or.inl rfl)
      · rw [hadvance]
        rfl
      · rw [hadvance]
        exact fun _ => halone.sound
      · rw [hadvance]
        exact hquiet.trace _
      · rw [List.append_nil]
        exact hsettled.complete
  · obtain ⟨hafter, hnext, -⟩ := halone.advance_of_go fun identity =>
      ⟨identity, Frame.step_reset_of_not_lt hdeque identity l.root true⟩
    refine .closing lanes hafter ?_ ?_ ?_
    · rw [hnext]
      exact hsettled
    · rw [hnext]
      exact ⟨hfinished, fun i hi => hreset i (Nat.lt_of_lt_of_le hi (Nat.le_of_not_lt hdeque))⟩
    · rw [hnext]
      exact hquiet

theorem step_release
    {lanes : Nat → Lane} {performed : List Action} {history : List Moment}
    (halone : Alone s [.run .release l.root true, .perform []])
    (hsettled : Settled l capacity s.world lanes performed history)
    (hcleared : Cleared s.world.scheduler lanes .release)
    (hquiet : Quiet l.world.transcript.toList s.world.transcript) :
    Course l capacity P turns (s.advance 0) performed history := by
  have hmove : ∀ identity, ∃ other, Frame.step s.world identity (.run .release l.root true) =
      .go { s.world with scheduler := { s.world.scheduler with running := false } } other
        [.run .complete l.root true] :=
    fun identity => ⟨identity, rfl⟩
  obtain ⟨hafter, hnext, -⟩ := halone.advance_of_go hmove
  refine .closing lanes hafter ?_ ?_ ?_
  · rw [hnext]
    exact hsettled.congr rfl rfl
  · rw [hnext]
    exact ⟨rfl, hcleared⟩
  · rw [hnext]
    exact hquiet

/-- The deques have been put back when all of their lanes have. -/
theorem settled_cleared
    {w : World} {lanes : Nat → Lane} {performed : List Action} {history : List Moment}
    (hsettled : Settled l capacity w lanes performed history)
    (hlanes : ∀ i, i < w.scheduler.dequeCount → lanes i = {}) :
    Settled l capacity w (fun _ => {}) performed history := by
  refine ⟨hsettled.orderly, hsettled.finished, hsettled.complete, hsettled.cells, hsettled.deques,
    ?_, fun _ => rfl⟩
  intro i place hplace
  have hi : i < w.scheduler.dequeCount := (Array.getElem?_eq_some_iff.mp hplace).1
  rw [← hlanes i hi]
  exact hsettled.follows i place hplace

/-- The calling thread reports, unless the statistics cannot be summed. -/
theorem step_complete
    {lanes : Nat → Lane} {performed : List Action} {history : List Moment}
    (halone : Alone s [.run .complete l.root true, .perform []])
    (hsettled : Settled l capacity s.world lanes performed history)
    (hcleared : Cleared s.world.scheduler lanes .complete)
    (hquiet : Quiet l.world.transcript.toList s.world.transcript) :
    Course l capacity P turns (s.advance 0) performed history := by
  obtain ⟨hrunning, hfinished, hlanes⟩ := hcleared
  rcases Frame.step_complete s.world l.root true with
    ⟨traced, htraces, hmove⟩ | ⟨-, cause, hstats, hmove⟩
  · obtain ⟨hafter, hnext, -⟩ := halone.advance_of_go fun identity => ⟨identity, hmove identity⟩
    refine .returned hafter (Or.inl rfl) ?_ ?_ ?_
    · rw [hnext]
      exact (settled_cleared hsettled hlanes).congr htraces.cells
        (congrArg Scheduler.places htraces.scheduler)
    · rw [hnext]
      show traced.scheduler.running = false
      rw [htraces.scheduler]
      exact hrunning
    · rw [hnext]
      show traced.scheduler.finished = false
      rw [htraces.scheduler]
      exact hfinished
  · obtain ⟨thread, hthread, hframes, -⟩ := halone.first
    obtain ⟨hgoing, hnext, hafter⟩ :=
      System.thread_of_panic halone.going hthread hframes (hmove thread.identity) rfl
    refine .failed hgoing ?_ hsettled.orderly hsettled.finished hsettled.complete ?_
    · intro other hother
      obtain ⟨t, hget⟩ := Array.mem_iff_getElem?.mp hother
      rcases hafter t other hget with ⟨hover, hpanicked⟩ | ⟨hzero, hold⟩
      · refine ⟨hover, fun panic hpanic => ?_⟩
        cases hpanicked.symm.trans hpanic
        exact Scheduler.stats_error hstats
      · obtain ⟨hover, hnone⟩ := halone.others t other hzero hold
        refine ⟨hover, fun panic hpanic => ?_⟩
        rw [hnone] at hpanic
        cases hpanic
    · rw [hnext]
      exact hquiet.trace _

theorem step_closing
    {point : RunPoint} {lanes : Nat → Lane} {performed : List Action} {history : List Moment}
    (halone : Alone s [.run point l.root true, .perform []])
    (hsettled : Settled l capacity s.world lanes performed history)
    (hcleared : Cleared s.world.scheduler lanes point)
    (hquiet : Quiet l.world.transcript.toList s.world.transcript) :
    Course l capacity P turns (s.advance 0) performed history := by
  cases point with
  | clear =>
      exact step_clear halone hsettled hquiet
  | reset deque =>
      exact step_reset halone hsettled hcleared hquiet
  | release =>
      exact step_release halone hsettled hcleared hquiet
  | complete =>
      exact step_complete halone hsettled hcleared hquiet
  | _ =>
      exact absurd hcleared id

/-- A step of a thread keeps to the stages, where a step of a worker leads from crews with the first
property to crews with the second one. -/
theorem advance
    (h : l.Ready capacity)
    {index : Nat}
    (hcrew : Q l.crew)
    (hmono : ∀ a, P a → Q a)
    (hkeep : ∀ {below a b v}, Shows (l.setting capacity) below s a → Inv l.thunk l.root a → P a →
      l.workers[index]? = some v → Step l.root v a b →
      Shows (l.setting capacity) below (s.advance index) b → Q b)
    {performed : List Action} {history : List Moment}
    (hcourse : Course l capacity P turns s performed history) :
    Course l capacity Q (turns + [index].count 0) (s.advance index)
      (performed ++ ((s.frameAt index).bind Frame.action?).toList)
      (history ++ ((s.frameAt index).bind Frame.moment?).toList) := by
  have halone : ∀ {frame : Frame} {frames : List Frame}, Alone s (frame :: frames) →
      frame.action? = none → frame.moment? = none →
      Course l capacity Q (turns + 1) (s.advance 0) performed history →
      Course l capacity Q (turns + [index].count 0) (s.advance index)
        (performed ++ ((s.frameAt index).bind Frame.action?).toList)
        (history ++ ((s.frameAt index).bind Frame.moment?).toList) := by
    intro frame frames halone haction hmoment hnext
    by_cases hindex : index = 0
    · subst hindex
      rw [List.count_singleton_self]
      exact silent hnext halone.frameAt haction hmoment
    · rw [List.count_eq_zero.mpr (mt List.mem_singleton.mp (Ne.symm hindex)), Nat.add_zero]
      exact (hcourse.mono hmono).unchanged (halone.advance_other hindex)
  cases hcourse with
  | opening hopening =>
      obtain ⟨frame, frames, hfirst, -, haction, hmoment⟩ := hopening.exists_alone
      exact halone hfirst haction hmoment (step_opening h hcrew hopening)
  | working hbelow hshows hinv hp =>
      exact step_working h hmono hkeep hbelow hshows hinv hp
  | closing lanes hfirst hsettled hcleared hquiet =>
      exact halone hfirst rfl rfl (step_closing hfirst hsettled hcleared hquiet)
  | returned hfirst hframes hsettled hrunning hfinished =>
      rcases hframes with rfl | rfl
      · obtain ⟨hafter, hnext⟩ := hfirst.advance_of_return
        refine halone hfirst rfl rfl (.returned hafter (Or.inr rfl) ?_ ?_ ?_)
        · rw [hnext]
          exact hsettled
        · rw [hnext]
          exact hrunning
        · rw [hnext]
          exact hfinished
      · exact (Course.returned hfirst (Or.inr rfl) hsettled hrunning hfinished).unchanged
          (hfirst.advance_nil index)
  | failed hgoing hover horderly hfinished hcomplete hquiet =>
      exact (Course.failed hgoing hover horderly hfinished hcomplete hquiet).unchanged
        (System.advance_of_forall_over (fun thread hthread => (hover thread hthread).1) index)
  | refused hmany hfirst hframes hreport =>
      rcases hframes with rfl | rfl
      · obtain ⟨hafter, hnext⟩ := hfirst.advance_of_return
        refine halone hfirst rfl rfl (.refused hmany hafter (Or.inr rfl) ?_)
        rw [hnext]
        exact hreport
      · exact (Course.refused hmany hfirst (Or.inr rfl) hreport).unchanged
          (hfirst.advance_nil index)
  | gaveUp error haborted hsound hquiet horderly hcompletes hcause =>
      have hsame : Course l capacity P (turns + [index].count 0) s performed history :=
        .gaveUp error haborted hsound hquiet horderly hcompletes hcause
      exact (hsame.mono hmono).unchanged
        (System.advance_of_aborted (by rw [haborted]; rfl) index)

/-- A run keeps to the stages, where what is known about the crews grows with the steps. -/
theorem run_along
    {P : List Nat → Crew → Prop}
    (h : l.Ready capacity)
    (hcrew : ∀ schedule, P schedule l.crew)
    (hmono : ∀ schedule index a, P schedule a → P (schedule ++ [index]) a)
    (hkeep : ∀ {schedule index below a b v},
      Shows (l.setting capacity) below (l.system.run schedule) a → Inv l.thunk l.root a →
      P schedule a → l.workers[index]? = some v → Step l.root v a b →
      Shows (l.setting capacity) below ((l.system.run schedule).advance index) b →
      P (schedule ++ [index]) b)
    (schedule : List Nat) :
    Course l capacity (P schedule) (schedule.count 0) (l.system.run schedule)
      (l.system.performed schedule) (l.system.history schedule) := by
  induction schedule using List.reverseRecOn with
  | nil =>
      refine .opening (.calling ⟨rfl, ⟨_, rfl, rfl, rfl⟩, ?_⟩ rfl rfl)
      intro t thread ht hget
      obtain ⟨hlt, -⟩ := Array.getElem?_eq_some_iff.mp hget
      exact absurd (Nat.lt_one_iff.mp hlt) ht
  | append_singleton schedule index ih =>
      have hnext := ih.advance h (hcrew _) (hmono schedule index) hkeep
      rw [System.run_append, System.performed_append, System.history_append, List.count_append]
      simp only [System.run_cons, System.run_nil, System.performed, System.history,
        List.append_nil]
      exact hnext

/-- A run keeps to the stages. -/
theorem run
    (h : l.Ready capacity)
    (hcrew : P l.crew)
    (hkeep : ∀ a b v, Inv l.thunk l.root a → P a → v ∈ l.workers → Step l.root v a b → P b)
    (schedule : List Nat) :
    Course l capacity P (schedule.count 0) (l.system.run schedule) (l.system.performed schedule)
      (l.system.history schedule) :=
  run_along h (fun _ => hcrew) (fun _ _ _ ha => ha)
    (fun _ hinv ha hv hstep _ => hkeep _ _ _ hinv ha (List.mem_of_getElem? hv) hstep) schedule

/-- A frame that is about to make a step is the calling thread's, or shows what a worker does. -/
theorem at_cases
    {performed : List Action} {history : List Moment}
    (h : Course l capacity P turns s performed history)
    {index : Nat} {thread : Thread} {frame : Frame} {frames : List Frame}
    (hat : s.At index thread frame frames) :
    isOutside frame = true ∨
      ∃ below a v call calls, Shows (l.setting capacity) below s a ∧ Inv l.thunk l.root a ∧ P a ∧
        v ∈ l.workers ∧ thread.identity = some v ∧ a.stack v = call :: calls ∧
        Depicts l.world.scheduler.dequeCount v frame call := by
  have halone : ∀ {below : List Frame}, Alone s below →
      (∀ frame ∈ below, isOutside frame = true) → isOutside frame = true :=
    fun hfirst hbelow => hbelow frame (hfirst.mem_of_at hat)
  cases h with
  | opening hopening =>
      obtain ⟨frame, frames, hfirst, houtside, -⟩ := hopening.exists_alone
      exact .inl (halone hfirst houtside)
  | closing _ hfirst =>
      exact .inl (halone hfirst (by simp [isOutside]))
  | @working below a hbelow hshows hinv hcrew =>
      rcases hshows.exists_call hat with hmem | ⟨v, call, calls, hshown⟩
      · refine .inl ?_
        rcases hbelow with ⟨outer, rfl⟩ | rfl <;> simp [Launch.after] at hmem <;>
          rcases hmem with rfl | rfl | rfl <;> rfl
      · exact .inr ⟨below, a, v, call, calls, hshows, hinv, hcrew, hshown⟩
  | returned hfirst hframes | refused _ hfirst hframes =>
      rcases hframes with rfl | rfl <;> exact .inl (halone hfirst (by simp [isOutside]))
  | failed hgoing hover =>
      have hnone := (hover _ (Array.mem_of_getElem? hat.found)).1
      simp [hat.frames] at hnone
  | gaveUp error haborted =>
      cases haborted.symm.trans hat.going

/-- The process is given up for a tag at its limit, or for a deque that is full when a worker
pushes. -/
theorem cause_of_aborted
    {performed : List Action} {history : List Moment} {error : Error}
    (h : Course l capacity P turns s performed history)
    (haborted : s.aborted = some error) :
    error = .tagExhausted ∨ error = .dequeOverflow capacity ∧
      ∃ a v left right below, Inv l.thunk l.root a ∧ P a ∧ v ∈ l.workers ∧
        capacity ≤ (a.lanes v).bottom ∧ a.stack v = .fork (.publish left) right :: below := by
  have hgoing : s.aborted ≠ none := by
    rw [haborted]
    exact Option.some_ne_none error
  cases h with
  | working hbelow hshows hinv hcrew =>
      exact absurd hshows.going hgoing
  | failed hnone hover horderly hfinished hcomplete hquiet =>
      exact absurd hnone hgoing
  | gaveUp other hother hsound hquiet horderly hcompletes hcause =>
      cases haborted.symm.trans hother
      exact hcause
  | opening hopening =>
      obtain ⟨frame, frames, halone, -⟩ := hopening.exists_alone
      exact absurd halone.going hgoing
  | closing lanes halone hsettled hcleared hquiet =>
      exact absurd halone.going hgoing
  | returned halone hframes hsettled hrunning hfinished =>
      exact absurd halone.going hgoing
  | refused hmany halone hframes hreport =>
      exact absurd halone.going hgoing

end Course
end ForkJoin
end WorkStealing
