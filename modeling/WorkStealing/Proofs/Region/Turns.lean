import Mathlib.Data.Nat.Find
import Mathlib.Data.Nat.Pairing
import WorkStealing.Proofs.Machine.Fairness
import WorkStealing.Proofs.Region.Calls

/-!
# Turns

A tree of regions takes a fixed number of moves, one after the other or at once: what the
frames of all threads have still to do goes down by one with each of them
(`Process.left_after`). The last thread that is not over can always make one, for a thread
waits only for threads that were made after it (`Process.Staged.exists_move`). So every schedule
that gives each thread a turn again and again comes to an answer (`Process.IsFair.answers`).

A thread that is not over is waited for (`Process.Employed`). So at the answer all other
threads are over, and every body of the tree has begun.
-/

namespace WorkStealing

namespace Region

mutual

/-- The moves that a region takes: it is opened and joined, and each worker is called, enters the
region, runs its body to its end, and leaves. -/
def moves : Region → Nat
  | .opening _ threads inner =>
    2 + ((List.range (max 1 threads)).map fun worker => 4 + movesAll (inner worker)).sum

def movesAll : List Region → Nat
  | [] => 0
  | region :: rest => moves region + movesAll rest

end

def movesOf (region : Region) (worker : Nat) : Nat :=
  4 + movesAll (region.inner worker)

theorem moves_eq
    (region : Region) :
    region.moves = 2 + ((List.range region.crew).map region.movesOf).sum := by
  cases region with
  | opening pool threads inner =>
      rw [moves]
      rfl

end Region

namespace Process

open Machine (turns turns_succ)
open Region (bodiesAll movesAll)

/-- The moves that a frame has still to make, by itself or by what it causes. -/
def Frame.left : Frame → Nat
  | .work _ _ _ _ _ rest => 1 + movesAll rest
  | .staff _ _ region hands => 1 + ((region.waiting hands.length).map region.movesOf).sum
  | .enter _ _ _ rest => 3 + movesAll rest
  | .leave _ => 1
  | .join _ => 1

def Thread.left (thread : Thread) : Nat :=
  (thread.frames.map Frame.left).sum

/-- The moves that all threads have still to make. -/
def left (h : Process) : Nat :=
  (h.threads.map Thread.left).sum

theorem Acts.left_eq
    {pools : Nat} {h : Process} {index : Nat} {thread : Thread} {frames : List Frame} {move : Move}
    (hacts : Acts pools h index thread frames move) :
    (frames.map Frame.left).sum = move.thread.left + (move.made.map Thread.left).sum + 1 := by
  cases hacts with
  | opens =>
      simp only [Thread.left, List.map_cons, List.map_nil, List.sum_cons, List.sum_nil, Frame.left,
        movesAll, Region.moves_eq, List.length_nil, Region.waiting_zero]
      omega
  | makes hlt =>
      simp only [Thread.left, List.map_cons, List.map_nil, List.sum_cons, List.sum_nil, Frame.left,
        Region.waiting, Region.range'_waiting hlt, List.length_append, List.length_singleton,
        Region.movesOf]
      omega
  | plays hge =>
      simp only [Thread.left, List.map_cons, List.map_nil, List.sum_cons, List.sum_nil, Frame.left,
        Region.waiting_of_le hge, Region.movesOf]
      omega
  | _ =>
      simp only [Thread.left, List.map_cons, List.map_nil, List.sum_cons, List.sum_nil, Frame.left,
        movesAll]
      omega

/-- A move is one of those that were left. -/
theorem left_after
    {pools : Nat} {h : Process} {index : Nat} {thread : Thread} {move : Move}
    (hthread : h.threads[index]? = some thread)
    (hacts : Acts pools h index thread thread.frames move) :
    (h.after index move).left + 1 = h.left := by
  have hleft : thread.left = _ := hacts.left_eq
  have hsum := sum_after hthread Thread.left move
  rw [left, left]
  omega

theorem advance_eq_or_left_lt
    (pools : Nat) (h : Process) (index : Nat) :
    h.advance pools index = h ∨ (h.advance pools index).left < h.left := by
  obtain hsame | ⟨thread, move, hthread, hacts, hadvance⟩ := advance_cases pools h index
  · exact .inl hsame
  · have hleft := left_after hthread hacts
    rw [← hadvance] at hleft
    exact .inr (by omega)

section Progress

variable {s : Scene} {h : Process} {index : Nat} {thread : Thread}

/-- The first thread has opened all regions and has left them if it runs code outside of all
regions with none to be opened. -/
theorem answer?_eq
    {caller turn : Nat} {ids : List (Option Nat)} {seen : List (List Sighting)}
    (hthread : h.threads[0]? = some thread)
    (hframes : thread.frames = [.work [] caller ids turn seen []]) :
    h.answer? = some seen := by
  rw [answer?, hthread, Option.map_some, hframes]

/-- A thread can move unless it is over, or has given the answer, or waits for a thread that was
made after it. -/
theorem Stage.exists_step
    (hstage : Stage s h index thread thread.frames)
    (hthread : h.threads[index]? = some thread)
    (hlive : thread.frames ≠ [])
    (hlast : ∀ later, index < later → h.threads[later]?.all Thread.isOver = true) :
    (∃ move, h.step? s.pools index thread = some move) ∨ ∃ seen, h.answer? = some seen := by
  generalize hframes : thread.frames = frames at hstage hlive
  cases hstage with
  | @work place caller ids seen below hbelow hworking hself =>
      generalize (s.codeAt place).drop seen.length = rest at hframes
      cases rest with
      | cons region rest =>
          rw [step?, hframes]
          exact .inl ⟨_, rfl⟩
      | nil =>
          cases hbelow with
          | outside horigin =>
              obtain rfl : index = 0 := hworking.runs
              exact .inr ⟨seen, answer?_eq hthread hframes⟩
          | _ =>
              rw [step?, hframes]
              exact .inl ⟨_, rfl⟩
  | staff hbelow hworking hregion hhired hself =>
      rw [step?, hframes]
      simp only
      split
      · exact .inl ⟨_, rfl⟩
      · exact .inl ⟨_, rfl⟩
  | enter hbelow hself honCaller hruns =>
      rw [step?, hframes]
      exact .inl ⟨_, rfl⟩
  | leave hbelow hself hreport =>
      rw [step?, hframes]
      exact .inl ⟨_, rfl⟩
  | @join _ _ _ _ _ hands _ hbelow hworking hregion hhired hall hself hreport =>
      have hover : h.allOver hands = true := by
        refine List.all_eq_true.mpr fun hand hhand => hlast hand ?_
        obtain ⟨i, hi⟩ := List.mem_iff_getElem?.mp hhand
        exact (hhired.origin i hand hi).1
      rw [step?, hframes]
      simp only [hover]
      exact .inl ⟨_, rfl⟩
  | ended horigin hreport => exact absurd rfl hlive

/-- Before the answer there is a thread that can move. -/
theorem Staged.exists_move
    (hstaged : Staged s h)
    (hzero : h.originAt 0 = some [])
    (hnone : h.answer? = none) :
    ∃ index < h.threads.length, (h.advance s.pools index).left < h.left := by
  classical
  let Living (index : Nat) : Prop := ∃ thread, h.threads[index]? = some thread ∧ thread.frames ≠ []
  have hfirst : Living 0 := by
    obtain ⟨thread, hthread, horigin⟩ := Option.map_eq_some_iff.mp hzero
    refine ⟨thread, hthread, fun hframes => ?_⟩
    have hstage := hstaged 0 thread hthread
    rw [hframes] at hstage
    cases hstage with
    | ended horigin' hreport =>
        rw [horigin] at horigin'
        cases horigin'
  let index := Nat.findGreatest Living h.threads.length
  obtain ⟨thread, hthread, hlive⟩ : Living index :=
    Nat.findGreatest_spec (Nat.zero_le _) hfirst
  have hlast (later : Nat) (hlater : index < later) :
      h.threads[later]?.all Thread.isOver = true := by
    cases hother : h.threads[later]? with
    | none => rfl
    | some other =>
        have hle : later ≤ h.threads.length :=
          Nat.le_of_lt (List.getElem?_eq_some_iff.mp hother).1
        rw [Option.all_some, Thread.isOver, List.isEmpty_iff]
        by_contra hframes
        exact Nat.findGreatest_is_greatest hlater hle ⟨other, hother, hframes⟩
  refine ⟨index, (List.getElem?_eq_some_iff.mp hthread).1, ?_⟩
  obtain ⟨move, hstep⟩ | ⟨seen, hanswer⟩ :=
    (hstaged index thread hthread).exists_step hthread hlive hlast
  · have hadvance : h.advance s.pools index = h.after index move := by
      rw [advance, hthread, Option.bind_some, hstep]
    have hleft := left_after hthread (acts_of_step hstep)
    rw [hadvance]
    omega
  · rw [hnone] at hanswer
    cases hanswer

end Progress

/-- Every thread has a turn again and again once it has been made. -/
def IsFair (pools : Nat) (h : Process) (σ : Nat → Nat) : Prop :=
  ∀ n index, index < (h.run pools (turns σ n)).threads.length → ∃ m, n ≤ m ∧ σ m = index

/-- A schedule that names every number again and again is fair, however many threads are made. -/
theorem isFair_unpair
    (pools : Nat) (h : Process) :
    h.IsFair pools fun n => (Nat.unpair n).1 := by
  intro n index _
  exact ⟨Nat.pair index n, Nat.right_le_pair index n, congrArg Prod.fst (Nat.unpair_pair index n)⟩

theorem run_turns_succ
    (pools : Nat) (h : Process) (σ : Nat → Nat) (n : Nat) :
    h.run pools (turns σ (n + 1)) = (h.run pools (turns σ n)).advance pools (σ n) := by
  rw [turns_succ, run_append]
  rfl

/-- As long as no thread makes a move, the process stays as it is. -/
theorem run_turns_eq_or_left_lt
    (pools : Nat) (h : Process) (σ : Nat → Nat) {n m : Nat}
    (hle : n ≤ m) :
    h.run pools (turns σ m) = h.run pools (turns σ n) ∨
      (h.run pools (turns σ m)).left < (h.run pools (turns σ n)).left := by
  induction m, hle using Nat.le_induction with
  | base => exact .inl rfl
  | succ m hle ih =>
      rw [run_turns_succ]
      obtain hsame | hlt := advance_eq_or_left_lt pools (h.run pools (turns σ m)) (σ m)
      · rwa [hsame]
      · obtain heq | hlower := ih
        · rw [heq] at hlt ⊢
          exact .inr hlt
        · exact .inr (hlt.trans hlower)

theorem originAt_run_zero
    (s : Scene) (schedule : List Nat) :
    ((opening s.caller s.regions).run s.pools schedule).originAt 0 = some [] := by
  refine run_induction (P := fun h => h.originAt 0 = some []) ?_ schedule rfl
  intro h index thread move hzero hthread hacts
  exact (becomes_after hthread hacts).origin 0 [] hzero

/-- Under a fair schedule a move is made before long, unless all regions have been left. -/
theorem IsFair.exists_left_lt
    {s : Scene} {σ : Nat → Nat}
    (hfair : (opening s.caller s.regions).IsFair s.pools σ)
    {n : Nat}
    (hnone : ((opening s.caller s.regions).run s.pools (turns σ n)).answer? = none) :
    ∃ m, ((opening s.caller s.regions).run s.pools (turns σ m)).left <
      ((opening s.caller s.regions).run s.pools (turns σ n)).left := by
  obtain ⟨index, hindex, hlower⟩ :=
    (staged_run s _).exists_move (originAt_run_zero s _) hnone
  obtain ⟨m, hm, rfl⟩ := hfair n index hindex
  obtain hsame | hlt := run_turns_eq_or_left_lt s.pools (opening s.caller s.regions) σ hm
  · refine ⟨m + 1, ?_⟩
    rwa [run_turns_succ, hsame]
  · exact ⟨m, hlt⟩

/-- Under a fair schedule all regions are left at last. The induction is on the moves that are
left. -/
theorem IsFair.answers
    (s : Scene) {σ : Nat → Nat}
    (hfair : (opening s.caller s.regions).IsFair s.pools σ) :
    ∃ n seen, ((opening s.caller s.regions).run s.pools (turns σ n)).answer? = some seen := by
  have hcomes (k n : Nat)
      (hk : ((opening s.caller s.regions).run s.pools (turns σ n)).left = k) :
      ∃ n seen, ((opening s.caller s.regions).run s.pools (turns σ n)).answer? = some seen := by
    induction k using Nat.strongRecOn generalizing n with
    | ind k ih =>
        cases hanswer : ((opening s.caller s.regions).run s.pools (turns σ n)).answer? with
        | some seen => exact ⟨n, seen, hanswer⟩
        | none =>
            obtain ⟨m, hlt⟩ := hfair.exists_left_lt hanswer
            exact ih _ (hk ▸ hlt) m rfl
  exact hcomes _ 0 rfl

/-- The threads that were made for a region that has not been left. -/
def Frame.hands : Frame → List Nat
  | .staff _ _ _ hands => hands
  | .join hands => hands
  | _ => []

def Thread.hands (thread : Thread) : List Nat :=
  thread.frames.flatMap Frame.hands

/-- A thread that is not over is the first one, or was made for a region that has not been left. -/
def Employed (h : Process) : Prop :=
  ∀ index thread, h.threads[index]? = some thread → thread.frames ≠ [] → index = 0 ∨
    ∃ owner other, owner < index ∧ h.threads[owner]? = some other ∧ index ∈ other.hands

section Employment

variable {h : Process} {pools index : Nat} {thread : Thread} {move : Move}

/-- A thread gives up others only when they are over. -/
theorem Acts.hands_or_over
    {frames : List Frame} {hand : Nat}
    (hacts : Acts pools h index thread frames move)
    (hhand : hand ∈ frames.flatMap Frame.hands) :
    hand ∈ move.thread.hands ∨ h.threads[hand]?.all Thread.isOver = true := by
  cases hacts with
  | @joins hands _ _ _ _ _ _ below hover =>
      rcases List.mem_append.mp hhand with hhand | hhand
      · exact .inr (List.all_eq_true.mp hover hand hhand)
      · exact .inl hhand
  | makes hlt =>
      simp only [Thread.hands, List.flatMap_cons, Frame.hands, List.mem_append] at hhand ⊢
      exact .inl (hhand.imp .inl id)
  | _ => exact .inl hhand

/-- A new thread is made for a region that has not been left. -/
theorem Acts.mem_hands
    {made : Thread} {frames : List Frame}
    (hacts : Acts pools h index thread frames move)
    (hmade : made ∈ move.made) :
    h.threads.length ∈ move.thread.hands := by
  cases hacts with
  | makes hlt => simp [Thread.hands, Frame.hands]
  | _ => exact absurd hmade List.not_mem_nil

theorem Acts.frames_ne_nil
    {frames : List Frame}
    (hacts : Acts pools h index thread frames move) :
    frames ≠ [] := by
  cases hacts <;> exact List.cons_ne_nil _ _

theorem Employed.after
    (hemployed : h.Employed)
    (hthread : h.threads[index]? = some thread)
    (hacts : Acts pools h index thread thread.frames move) :
    (h.after index move).Employed := by
  have hindex : index < h.threads.length := (List.getElem?_eq_some_iff.mp hthread).1
  have hkeep (t : Nat) (hlive : ¬ h.threads[t]?.all Thread.isOver = true)
      (howner : ∃ owner other, owner < t ∧ h.threads[owner]? = some other ∧ t ∈ other.hands) :
      ∃ owner other, owner < t ∧ (h.after index move).threads[owner]? = some other ∧
        t ∈ other.hands := by
    obtain ⟨owner, other, hlt, hother, hhand⟩ := howner
    by_cases heq : owner = index
    · subst heq
      rw [hthread] at hother
      cases hother
      obtain hhand | hover := hacts.hands_or_over hhand
      · exact ⟨owner, move.thread, hlt, getElem?_after_self move hindex, hhand⟩
      · exact absurd hover hlive
    · have howner : owner < h.threads.length := (List.getElem?_eq_some_iff.mp hother).1
      exact ⟨owner, other, hlt, (getElem?_after_of_ne move howner heq).trans hother, hhand⟩
  intro t other hother hframes
  obtain ⟨rfl, rfl⟩ | ⟨-, hother⟩ | ⟨rfl, hmem⟩ := threads_after hthread hacts hother
  · have hlive : ¬ h.threads[t]?.all Thread.isOver = true := by
      rw [hthread, Option.all_some, Thread.isOver, List.isEmpty_iff]
      exact hacts.frames_ne_nil
    exact (hemployed t thread hthread hacts.frames_ne_nil).imp_right (hkeep t hlive)
  · have hlive : ¬ h.threads[t]?.all Thread.isOver = true := by
      rw [hother, Option.all_some, Thread.isOver, List.isEmpty_iff]
      exact hframes
    exact (hemployed t other hother hframes).imp_right (hkeep t hlive)
  · exact .inr ⟨index, move.thread, hindex, getElem?_after_self move hindex, hacts.mem_hands hmem⟩

end Employment

theorem employed_run
    (s : Scene) (schedule : List Nat) :
    ((opening s.caller s.regions).run s.pools schedule).Employed := by
  refine run_induction (P := Employed) (fun _ _ _ _ hemployed => hemployed.after) schedule ?_
  intro index thread hthread _
  have hlt : index < 1 := (List.getElem?_eq_some_iff.mp hthread).1
  exact .inl (by omega)

section Answer

variable {s : Scene} {h : Process} {seen : List (List Sighting)}

/-- At the answer the first thread runs code outside of all regions, with none to be opened. -/
theorem exists_of_answer
    (hanswer : h.answer? = some seen) :
    ∃ thread caller ids turn, h.threads[0]? = some thread ∧
      thread.frames = [.work [] caller ids turn seen []] := by
  unfold answer? at hanswer
  split at hanswer
  · next hframes =>
    obtain ⟨thread, hthread, hframes⟩ := Option.map_eq_some_iff.mp hframes
    cases hanswer
    exact ⟨thread, _, _, _, hthread, hframes⟩
  · cases hanswer

/-- At the answer all other threads are over: nobody waits for them. -/
theorem Employed.frames_eq_nil
    (hemployed : h.Employed)
    (hanswer : h.answer? = some seen)
    {index : Nat} {thread : Thread}
    (hindex : index ≠ 0)
    (hthread : h.threads[index]? = some thread) :
    thread.frames = [] := by
  induction index using Nat.strongRecOn generalizing thread with
  | ind index ih =>
      by_contra hlive
      obtain hzero | ⟨owner, other, hlt, hother, hhand⟩ := hemployed index thread hthread hlive
      · exact hindex hzero
      · by_cases howner : owner = 0
        · obtain ⟨first, caller, ids, turn, hfirst, hframes⟩ := exists_of_answer hanswer
          rw [howner, hfirst] at hother
          cases hother
          rw [Thread.hands, hframes] at hhand
          exact absurd hhand List.not_mem_nil
        · rw [Thread.hands, ih owner hlt howner hother] at hhand
          exact absurd hhand List.not_mem_nil

/-- At the answer nothing is still to begin. -/
theorem Employed.owes_eq_zero
    (hemployed : h.Employed)
    (hanswer : h.answer? = some seen)
    (place : Site) :
    (h.threads.map fun thread => thread.owes place).sum = 0 := by
  refine List.sum_eq_zero fun owes howes => ?_
  obtain ⟨thread, hmem, rfl⟩ := List.mem_map.mp howes
  obtain ⟨index, hthread⟩ := List.mem_iff_getElem?.mp hmem
  by_cases hindex : index = 0
  · obtain ⟨first, caller, ids, turn, hfirst, hframes⟩ := exists_of_answer hanswer
    rw [hindex, hfirst] at hthread
    cases hthread
    rw [Thread.owes, hframes]
    rfl
  · rw [Thread.owes, hemployed.frames_eq_nil hanswer hindex hthread]
    rfl

/-- At the answer every body of the tree has begun, each of them once. -/
theorem perm_begun
    (s : Scene) (schedule : List Nat)
    (hanswer : ((opening s.caller s.regions).run s.pools schedule).answer? = some seen) :
    (((opening s.caller s.regions).run s.pools schedule).begun.map Beginning.place).Perm
      (bodiesAll [] 0 s.regions) := by
  refine List.perm_iff_count.mpr fun place => ?_
  rw [← accounts_run s schedule place, accounts,
    (employed_run s schedule).owes_eq_zero hanswer place, Nat.add_zero]

/-- The answer is what the code outside of all regions sees. -/
theorem Staged.answer_eq
    (hstaged : Staged s h)
    (hanswer : h.answer? = some seen) :
    seen = s.sawAt [] := by
  obtain ⟨thread, caller, ids, turn, hthread, hframes⟩ := exists_of_answer hanswer
  have hstage := hstaged 0 thread hthread
  rw [hframes] at hstage
  obtain ⟨-, hworking, -, hrest⟩ := hstage.of_work
  exact hworking.seen_eq_sawAt hrest.symm

end Answer

end Process
end WorkStealing
