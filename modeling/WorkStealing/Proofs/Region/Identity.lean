import WorkStealing.Proofs.Region.Turns

/-!
# Identity of workers

Whatever the order in which the threads take their steps, code knows its number in the pool of
the region that is innermost around it, and in no other pool. When the regions that it
has opened are left, it knows again what it knew before (`Process.innermost_decides`).
-/

namespace WorkStealing

/-- The number that the code at a place has in a pool, if the innermost region decides. Outside of
all regions it is the one that the thread had before. -/
def Scene.Decides (s : Scene) (pool id : Nat) : Site → Prop
  | [] => s.caller.workerIn pool = some id
  | seat :: _ => seat.pool = pool ∧ seat.worker = id

/-- The memory that all pools share knows the innermost region. -/
theorem Scene.workerIn_selfAt
    (s : Scene) (pool id : Nat) (place : Site) :
    (s.selfAt place).workerIn pool = some id ↔ s.Decides pool id place := by
  cases place with
  | nil => exact Iff.rfl
  | cons seat outer =>
      rw [Scene.selfAt, HostThread.workerIn, Scene.Decides]
      simp

namespace Process

open Machine (turns)
open Region (bodiesAll playAll)

/-- The place of the code that a thread is in: it runs it, makes threads for a region, or waits for
them. There is none while it enters or leaves a region. -/
def Thread.place? (thread : Thread) : Option Site :=
  match thread.frames with
  | .work place _ _ _ _ _ :: _ => some place
  | .staff place _ _ _ :: _ => some place
  | .join _ :: .work place _ _ _ _ _ :: _ => some place
  | _ => none

/-- The thread of that number is in the code at a place. -/
structure IsIn (h : Process) (index : Nat) (thread : Thread) (place : Site) : Prop where
  getElem?_eq : h.threads[index]? = some thread
  place?_eq : thread.place? = some place

/-- A thread is in the code whose body began on it, and is who the place says. -/
theorem Staged.of_isIn
    {s : Scene} {h : Process} {index : Nat} {thread : Thread} {place : Site}
    (hstaged : Staged s h)
    (hin : h.IsIn index thread place) :
    h.Runs index place ∧ thread.toHostThread = s.selfAt place := by
  have hstage := hstaged index thread hin.getElem?_eq
  have hplace := hin.place?_eq
  unfold Thread.place? at hplace
  generalize thread.frames = frames at hstage hplace
  cases hstage with
  | work hbelow hworking hself =>
      cases hplace
      exact ⟨hworking.runs, hself⟩
  | staff hbelow hworking hregion hhired hself =>
      cases hplace
      exact ⟨hworking.runs, hself⟩
  | join hbelow hworking hregion hhired hall hself hreport =>
      cases hplace
      exact ⟨hworking.runs, hself⟩
  | _ => cases hplace

/-- What is known about the workers of all regions at a moment. -/
structure Identified (s : Scene) (now : Process) : Prop where
  /-- A thread is in the code whose body began on it. -/
  runs : ∀ index thread place, now.IsIn index thread place → now.Runs index place
  /-- It has a number in a pool exactly if the innermost region gave it that number. -/
  ids : ∀ index thread place, now.IsIn index thread place →
    ∀ pool id, thread.workerIn pool = some id ↔ s.Decides pool id place
  /-- Whenever it is in the same code again, it is who it was. -/
  back : ∀ index thread place, now.IsIn index thread place →
    ∀ more later, (now.run s.pools more).IsIn index later place →
      later.toHostThread = thread.toHostThread
  /-- No body began twice. -/
  once : (now.begun.map Beginning.place).Nodup
  /-- A body that began is that of a worker of a region which the code around it opens. -/
  offered : ∀ b ∈ now.begun, s.Offers b.outer b.seat
  /-- Each of them began on the thread of its worker. -/
  seated : now.Seated
  /-- When all regions have been left, the bodies of all workers have begun in each of them. -/
  full : ∀ seen, now.answer? = some seen →
    ∀ outer, outer = [] ∨ outer ∈ now.begun.map Beginning.place →
      ∀ seat, s.Offers outer seat → seat :: outer ∈ now.begun.map Beginning.place
  /-- They saw what they see if they are taken one after another, and the first thread is who it
  was. -/
  answer : ∀ seen, now.answer? = some seen →
    playAll s.pools s.caller s.regions = (seen, s.caller) ∧
      ∃ first, now.threads[0]? = some first ∧ first.toHostThread = s.caller

theorem identified_run
    (s : Scene) (schedule : List Nat) :
    Identified s ((opening s.caller s.regions).run s.pools schedule) := by
  have hstaged := staged_run s schedule
  obtain ⟨bodies, hperm, hsublist⟩ := subperm_begun s schedule
  have hmem (seat : Seat) (outer : Site) :
      seat :: outer ∈ bodiesAll [] 0 s.regions ↔
        (outer = [] ∧ 0 ≤ seat.turn ∨ outer ∈ bodiesAll [] 0 s.regions) ∧ s.Offers outer seat :=
    Region.mem_bodiesAll_iff [] 0 s.regions rfl
  constructor
  · exact fun index thread place hin => (hstaged.of_isIn hin).1
  · intro index thread place hin pool id
    rw [(hstaged.of_isIn hin).2]
    exact s.workerIn_selfAt pool id place
  · intro index thread place hin more later hlater
    rw [← run_append] at hlater
    rw [(hstaged.of_isIn hin).2, ((staged_run s _).of_isIn hlater).2]
  · exact hperm.nodup (hsublist.nodup (Region.nodup_bodiesAll [] 0 s.regions))
  · intro b hb
    exact ((hmem _ _).mp (hsublist.subset (hperm.symm.subset (List.mem_map_of_mem hb)))).2
  · exact seated_run s schedule
  · intro seen hanswer outer houter seat hoffers
    have hbegun := perm_begun s schedule hanswer
    refine hbegun.mem_iff.mpr ((hmem seat outer).mpr ⟨?_, hoffers⟩)
    exact houter.imp (fun hnil => ⟨hnil, Nat.zero_le _⟩) hbegun.mem_iff.mp
  · intro seen hanswer
    constructor
    · rw [hstaged.answer_eq hanswer]
      exact Prod.ext (Region.playAll_fst ..) (Region.playAll_snd ..)
    · obtain ⟨first, caller, ids, turn, hfirst, hframes⟩ := exists_of_answer hanswer
      have hplace : first.place? = some [] := by
        unfold Thread.place?
        rw [hframes]
      exact ⟨first, hfirst, (hstaged.of_isIn ⟨hfirst, hplace⟩).2⟩

/-- Worker identity follows the innermost region. A thread opens regions one after another, whose
bodies open others, of the same or of other pools. At every moment of every interleaving the
threads that are in some code have the numbers that the innermost region gave them, and no
others; they have them again when the regions that were opened meanwhile have been left. Every
body begins once: that of worker zero on the thread that opened the region, every other on a
thread that was made for it. If no thread is neglected, all regions are left at last, and the
bodies saw the regions around them. -/
theorem innermost_decides
    (s : Scene) :
    (∀ schedule, Identified s ((opening s.caller s.regions).run s.pools schedule)) ∧
      playAll s.pools s.caller s.regions =
        (Region.lexicalAll s.pools s.caller.name s.regions, s.caller) ∧
      ∀ σ, (opening s.caller s.regions).IsFair s.pools σ → ∃ n seen,
        ((opening s.caller s.regions).run s.pools (turns σ n)).answer? = some seen :=
  ⟨identified_run s, Region.playAll_eq s.pools s.caller s.regions, fun _ hfair => hfair.answers s⟩

/-- A pool within another pool within itself: the thread that opens the regions is worker zero of
one after the other, and none in the end. -/
theorem innermost_decides_nested :
    let s : Scene :=
      { pools := 2, caller := { name := some "main" }
        regions := [.mk 0 2 [.mk 1 2 [.mk 0 2 []]]] }
    ∃ n first,
      ((opening s.caller s.regions).run 2 (turns (fun n => (Nat.unpair n).1) n)).answer? =
          some (Region.lexicalAll 2 (some "main") s.regions) ∧
        ((opening s.caller s.regions).run 2
          (turns (fun n => (Nat.unpair n).1) n)).threads[0]? = some first ∧
        first.workerIn 0 = none ∧ first.workerIn 1 = none := by
  intro s
  obtain ⟨hrun, hplay, hfair⟩ := innermost_decides s
  obtain ⟨n, seen, hanswer⟩ := hfair _ (isFair_unpair 2 (opening s.caller s.regions))
  obtain ⟨hseen, first, hfirst, hself⟩ := (hrun _).answer seen hanswer
  rw [hplay] at hseen
  cases hseen
  refine ⟨n, first, hanswer, hfirst, ?_, ?_⟩
  · rw [hself]
    rfl
  · rw [hself]
    rfl

/-- Within the second pool the thread has no number in the first one. -/
example :
    ((opening {} [.mk 0 1 [.mk 1 1 []]]).run 2 [0, 0, 0, 0, 0, 0]).threads.map
        (fun thread => thread.workerIds 2) =
      [[none, some 0]] := by
  rfl

end Process
end WorkStealing
