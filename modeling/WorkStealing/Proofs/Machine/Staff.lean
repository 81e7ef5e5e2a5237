import Mathlib.Logic.Function.Basic
import WorkStealing.Proofs.Machine.Advance

/-!
# Threads by their frames

A system of a fixed number of threads, none of which has panicked, is described by
the frames of each thread (`Staffed`). A step of one thread changes the frames of
that thread only; the opening of a region adds threads, and its end waits for them.
-/

namespace WorkStealing
namespace Machine

open Function (update)

/-- When no thread has anything left to do, nothing happens any more. -/
theorem System.advance_of_idle
    {s : System}
    (hidle : ∀ (t : Nat) (thread : Thread), s.threads[t]? = some thread → thread.frames = [])
    (index : Nat) :
    s.advance index = s ∧ s.frameAt index = none := by
  cases hthread : s.threads[index]? with
  | none =>
      exact System.advance_of_none hthread
  | some thread =>
      exact System.advance_of_over hthread (hidle index thread hthread)

/-- There are so many threads with these frames, and none of them has panicked. -/
structure Staffed (s : System) (count : Nat) (frames : Nat → List Frame) : Prop where
  going : s.aborted = none
  size : s.threads.size = count
  thread : ∀ t, t < count → ∃ thread, s.threads[t]? = some thread ∧ thread.frames = frames t ∧
    thread.panicked = none

namespace Staffed

variable {s : System} {count t : Nat} {frames : Nat → List Frame} {frame : Frame}
  {below : List Frame}

/-- A single thread that has not begun. -/
theorem single
    (world : World) (frames : List Frame) (identity : Option Nat) :
    Staffed { world, threads := #[{ frames, identity }] } 1 fun _ => frames := by
  refine ⟨rfl, rfl, fun t ht => ?_⟩
  rw [Nat.lt_one_iff.mp ht]
  exact ⟨_, rfl, rfl, rfl⟩

/-- Only the frames of the threads matter that there are. -/
theorem congr
    (h : Staffed s count frames)
    {others : Nat → List Frame}
    (heq : ∀ t, t < count → others t = frames t) :
    Staffed s count others := by
  refine ⟨h.going, h.size, fun t ht => ?_⟩
  rw [heq t ht]
  exact h.thread t ht

theorem frameAt
    (h : Staffed s count frames)
    (ht : t < count)
    (hframes : frames t = frame :: below) :
    s.frameAt t = some frame := by
  obtain ⟨thread, hthread, heq, -⟩ := h.thread t ht
  exact System.frameAt_of_thread h.going hthread (heq.trans hframes)

/-- A thread that is over, or that there is not, changes nothing. -/
theorem advance_of_over
    (h : Staffed s count frames)
    (hover : t < count → frames t = []) :
    s.advance t = s ∧ s.frameAt t = none := by
  by_cases ht : t < count
  · obtain ⟨thread, hthread, heq, -⟩ := h.thread t ht
    exact System.advance_of_over hthread (heq.trans (hover ht))
  · refine System.advance_of_none (Array.getElem?_eq_none ?_)
    rw [h.size]
    exact Nat.le_of_not_lt ht

/-- The threads after one of them was replaced. -/
theorem set
    (h : Staffed s count frames)
    (world : World) (t : Nat) (next : List Frame) (identity : Option Nat) :
    Staffed { world, threads := s.threads.setIfInBounds t { frames := next, identity } } count
      (update frames t next) := by
  refine ⟨rfl, Array.size_setIfInBounds.trans h.size, fun u hu => ?_⟩
  by_cases hsame : u = t
  · subst hsame
    rw [Function.update_self]
    refine ⟨_, Array.getElem?_setIfInBounds_self_of_lt ?_, rfl, rfl⟩
    rw [h.size]
    exact hu
  · rw [Function.update_of_ne hsame]
    obtain ⟨thread, hthread, hrest⟩ := h.thread u hu
    refine ⟨thread, ?_, hrest⟩
    rw [← hthread]
    exact Array.getElem?_setIfInBounds_ne (Ne.symm hsame)

theorem advance_of_go
    (h : Staffed s count frames)
    (ht : t < count)
    (hframes : frames t = frame :: below)
    {w : World} {next : List Frame}
    (hmove : ∀ identity, ∃ other, frame.step s.world identity = .go w other next) :
    Staffed (s.advance t) count (update frames t (next ++ below)) ∧ (s.advance t).world = w := by
  obtain ⟨thread, hthread, heq, -⟩ := h.thread t ht
  obtain ⟨other, hother⟩ := hmove thread.identity
  rw [System.advance_of_go h.going hthread (heq.trans hframes) hother]
  exact ⟨h.set w t _ other, rfl⟩

/-- A step that is one of some moves, all of which go on, leads to where one of them goes. -/
theorem advance_of_moves
    (h : Staffed s count frames)
    (ht : t < count)
    (hframes : frames t = frame :: below)
    {Moves : Move → Prop}
    (hgo : ∀ move, Moves move → ∃ w other next, move = .go w other next)
    (hmove : ∀ identity, Moves (frame.step s.world identity)) :
    ∃ w other next, Moves (.go w other next) ∧
      Staffed (s.advance t) count (update frames t (next ++ below)) ∧ (s.advance t).world = w := by
  obtain ⟨thread, hthread, heq, -⟩ := h.thread t ht
  obtain ⟨w, other, next, hother⟩ := hgo _ (hmove thread.identity)
  refine ⟨w, other, next, hother ▸ hmove thread.identity, ?_⟩
  rw [System.advance_of_go h.going hthread (heq.trans hframes) hother]
  exact ⟨h.set w t _ other, rfl⟩

/-- The only thread opens a region for workers from zero on; the thread of each worker has its
number. -/
theorem advance_of_recruit
    (h : Staffed s 1 frames)
    {more : Nat}
    (hframes : frames 0 = .recruit (List.range (more + 1)) :: below) :
    ∃ outer, Staffed (s.advance 0) (more + 1) (fun t => System.workerFrame t ::
        if t = 0 then .crew ((List.range more).map (1 + ·)) outer :: below else []) ∧
      (s.advance 0).world = s.world := by
  obtain ⟨thread, hthread, heq, -⟩ := h.thread 0 Nat.zero_lt_one
  refine ⟨thread.identity, ?_⟩
  have hworkers : List.range (more + 1) = 0 :: (List.range more).map (1 + ·) := by
    rw [List.range_succ_eq_map]
    exact congrArg _ (List.map_congr_left fun i _ => Nat.succ_eq_one_add i)
  rw [System.advance_of_recruit h.going hthread (heq.trans hframes) rfl, hworkers,
    System.recruit, List.length_map, List.length_range, h.size]
  refine ⟨⟨rfl, ?_, fun t ht => ?_⟩, rfl⟩
  · rw [Array.size_append, Array.size_setIfInBounds, h.size, List.size_toArray, List.length_map,
      List.length_map, List.length_range, Nat.add_comm]
  · by_cases hzero : t = 0
    · subst hzero
      refine ⟨⟨System.workerFrame 0 :: Frame.crew ((List.range more).map (1 + ·))
        thread.identity :: below, some 0, none⟩, ?_, rfl, rfl⟩
      rw [Array.getElem?_append_left (by rw [Array.size_setIfInBounds, h.size]; exact Nat.one_pos)]
      exact Array.getElem?_setIfInBounds_self_of_lt (by rw [h.size]; exact Nat.one_pos)
    · obtain ⟨u, rfl⟩ := Nat.exists_eq_succ_of_ne_zero hzero
      refine ⟨System.workerThread (u + 1), ?_, rfl, rfl⟩
      rw [Array.getElem?_append_right (by rw [Array.size_setIfInBounds, h.size]; omega),
        Array.size_setIfInBounds, h.size, List.getElem?_toArray, List.getElem?_map,
        List.getElem?_map, List.getElem?_range (by omega)]
      simp [Nat.add_comm]

/-- The first thread panics with nothing below that stops it, and the others are over. -/
theorem advance_of_panic
    (h : Staffed s count frames)
    (hzero : 0 < count)
    (hothers : ∀ t, t ≠ 0 → t < count → frames t = [])
    (hframes : frames 0 = frame :: below)
    {w : World} {cause : Panic}
    (hmove : ∀ identity, frame.step s.world identity = .fail w (.panic cause))
    (hunwind : ∀ identity, unwind cause identity below = .over identity) :
    (s.advance 0).aborted = none ∧ (s.advance 0).world = w ∧
      ∀ (t : Nat) (thread : Thread),
        (s.advance 0).threads[t]? = some thread → thread.frames = [] := by
  obtain ⟨first, hfirst, heq, -⟩ := h.thread 0 hzero
  obtain ⟨hgoing, hworld, hafter⟩ := System.thread_of_panic h.going hfirst (heq.trans hframes)
    (hmove first.identity) (hunwind first.identity)
  refine ⟨hgoing, hworld, fun t other hnext => ?_⟩
  rcases hafter t other hnext with ⟨hover, -⟩ | ⟨ht, hother⟩
  · exact hover
  have hlt : t < count := by
    rw [← h.size]
    exact (Array.getElem?_eq_some_iff.mp hother).1
  obtain ⟨thread, hthread, hsame, -⟩ := h.thread t hlt
  cases hother.symm.trans hthread
  exact hsame.trans (hothers t ht hlt)

/-- The end of a region waits for the other threads. -/
theorem advance_of_disband
    (h : Staffed s count frames)
    (hzero : 0 < count)
    {crew : List Nat}
    (hcrew : ∀ t, t ∈ crew ↔ t ≠ 0 ∧ t < count)
    (hframes : frames 0 = .disband crew none :: below) :
    ((∀ t, t ≠ 0 → t < count → frames t = []) ∧
        Staffed (s.advance 0) count (update frames 0 below) ∧ (s.advance 0).world = s.world) ∨
      (∃ t, t ≠ 0 ∧ t < count ∧ frames t ≠ []) ∧ s.advance 0 = s := by
  obtain ⟨first, hfirst, heq, -⟩ := h.thread 0 hzero
  by_cases hbusy : ∃ t, t ≠ 0 ∧ t < count ∧ frames t ≠ []
  · refine Or.inr ⟨hbusy, ?_⟩
    obtain ⟨t, hne, hlt, hbusy⟩ := hbusy
    refine System.advance_of_busy h.going hfirst (heq.trans hframes) ?_
    refine List.all_eq_false.mpr ⟨t, (hcrew t).mpr ⟨hne, hlt⟩, ?_⟩
    obtain ⟨thread, hthread, hsame, -⟩ := h.thread t hlt
    rw [hthread, Option.map_some, Option.getD_some, Thread.isOver, hsame, List.isEmpty_iff]
    exact hbusy
  · have hover : ∀ t, t ≠ 0 → t < count → frames t = [] :=
      fun t hne hlt => by_contra fun hsome => hbusy ⟨t, hne, hlt, hsome⟩
    refine Or.inl ⟨hover, ?_⟩
    have hall : System.allOver s.threads crew = true := by
      refine List.all_eq_true.mpr fun t ht => ?_
      obtain ⟨hne, hlt⟩ := (hcrew t).mp ht
      obtain ⟨thread, hthread, hempty, -⟩ := h.thread t hlt
      rw [hthread, Option.map_some, Option.getD_some, Thread.isOver, hempty, hover t hne hlt]
      rfl
    have hsound : System.anyPanicked s.threads crew = false := by
      refine List.any_eq_false.mpr fun t ht => ?_
      obtain ⟨thread, hthread, -, hnone⟩ := h.thread t ((hcrew t).mp ht).2
      rw [hthread, Option.bind_some, hnone]
      exact Bool.false_ne_true
    rw [System.advance_of_allOver h.going hfirst (heq.trans hframes) hall hsound]
    exact ⟨h.set s.world 0 below _, rfl⟩

end Staffed
end Machine
end WorkStealing
