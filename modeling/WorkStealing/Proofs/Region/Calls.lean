import Mathlib.Algebra.BigOperators.Group.List.Basic
import Mathlib.Algebra.GroupWithZero.Nat
import Mathlib.Data.List.Nodup
import WorkStealing.Proofs.Region.Stages

/-!
# Calls of bodies

The bodies of a tree of regions are listed by their places, and no place is listed twice
(`Region.nodup_bodiesAll`). The list has the body of every worker of every region that code
at a listed place opens (`Region.mem_bodiesAll_iff`). What the frames of all threads have
still to begin, together with what has begun, is that list at every moment
(`Process.accounts_run`): no step begins a body that its frame does not owe.

The body of worker zero begins on the thread that opened its region; every other body is the
first one on its thread (`Process.Seated`).
-/

namespace WorkStealing

namespace Region

mutual

/-- The places of the bodies of a region, which is the next one that the code at a place opens
after so many others. -/
def bodies (place : Site) (turn : Nat) : Region → List Site
  | .opening pool threads inner =>
    (List.range (max 1 threads)).flatMap fun worker =>
      let here := { turn, pool, worker } :: place
      here :: bodiesAll here 0 (inner worker)

def bodiesAll (place : Site) (turn : Nat) : List Region → List Site
  | [] => []
  | region :: rest => bodies place turn region ++ bodiesAll place (turn + 1) rest

end

def bodiesOf (region : Region) (place : Site) (turn worker : Nat) : List Site :=
  let here := { turn, pool := region.pool, worker } :: place
  here :: bodiesAll here 0 (region.inner worker)

theorem bodies_eq
    (place : Site) (turn : Nat) (region : Region) :
    bodies place turn region =
      (List.range region.crew).flatMap (region.bodiesOf place turn) := by
  cases region with
  | opening pool threads inner =>
      rw [bodies]
      rfl

mutual

/-- The bodies of a region stand within it. -/
theorem suffix_of_mem_bodies
    {p : Site} (place : Site) (turn : Nat) :
    ∀ region, p ∈ bodies place turn region →
      ∃ seat, seat.turn = turn ∧ seat :: place <:+ p
  | .opening pool threads inner => by
      intro hp
      rw [bodies, List.mem_flatMap] at hp
      obtain ⟨worker, -, hp⟩ := hp
      refine ⟨{ turn, pool, worker }, rfl, ?_⟩
      rcases List.mem_cons.mp hp with rfl | hp
      · exact List.suffix_refl _
      · obtain ⟨seat, -, hsuffix⟩ := suffix_of_mem_bodiesAll _ 0 (inner worker) hp
        exact (List.suffix_cons seat _).trans hsuffix

theorem suffix_of_mem_bodiesAll
    {p : Site} (place : Site) (turn : Nat) :
    ∀ regions, p ∈ bodiesAll place turn regions →
      ∃ seat, turn ≤ seat.turn ∧ seat :: place <:+ p
  | [] => fun hp => absurd hp List.not_mem_nil
  | region :: rest => by
      intro hp
      rcases List.mem_append.mp hp with hp | hp
      · obtain ⟨seat, hturn, hsuffix⟩ := suffix_of_mem_bodies place turn region hp
        exact ⟨seat, Nat.le_of_eq hturn.symm, hsuffix⟩
      · obtain ⟨seat, hturn, hsuffix⟩ := suffix_of_mem_bodiesAll place (turn + 1) rest hp
        exact ⟨seat, Nat.le_of_succ_le hturn, hsuffix⟩

end

/-- A body and those that it causes stand at its place. -/
theorem suffix_of_mem_cons
    {p here : Site} {turn : Nat} {regions : List Region}
    (hp : p ∈ here :: bodiesAll here turn regions) :
    here <:+ p := by
  rcases List.mem_cons.mp hp with rfl | hp
  · exact List.suffix_refl _
  · obtain ⟨seat, -, hsuffix⟩ := suffix_of_mem_bodiesAll here turn regions hp
    exact (List.suffix_cons seat here).trans hsuffix

/-- A place stands within one seat of the code at another place only. -/
theorem eq_of_cons_suffix
    {p place : Site} {seat other : Seat}
    (hseat : seat :: place <:+ p)
    (hother : other :: place <:+ p) :
    seat = other := by
  have hsuffix := List.suffix_of_suffix_length_le hseat hother (Nat.le_refl _)
  have heq := hsuffix.eq_of_length rfl
  cases heq
  rfl

mutual

/-- No two bodies of a region have the same place. -/
theorem nodup_bodies
    (place : Site) (turn : Nat) :
    ∀ region, (bodies place turn region).Nodup
  | .opening pool threads inner => by
      rw [bodies, List.nodup_flatMap]
      constructor
      · intro worker _
        refine List.nodup_cons.mpr ⟨fun hmem => ?_, nodup_bodiesAll _ 0 (inner worker)⟩
        obtain ⟨seat, -, hsuffix⟩ := suffix_of_mem_bodiesAll _ 0 _ hmem
        have hle := hsuffix.length_le
        rw [List.length_cons] at hle
        omega
      · refine List.nodup_range.imp ?_
        intro worker other hne p hp hother
        have hseat := eq_of_cons_suffix (suffix_of_mem_cons hp) (suffix_of_mem_cons hother)
        cases hseat
        exact hne rfl

theorem nodup_bodiesAll
    (place : Site) (turn : Nat) :
    ∀ regions, (bodiesAll place turn regions).Nodup
  | [] => List.nodup_nil
  | region :: rest => by
      rw [bodiesAll, List.nodup_append]
      refine ⟨nodup_bodies place turn region, nodup_bodiesAll place (turn + 1) rest, ?_⟩
      rintro p hp q hq rfl
      obtain ⟨seat, hturn, hsuffix⟩ := suffix_of_mem_bodies place turn region hp
      obtain ⟨other, hle, hother⟩ := suffix_of_mem_bodiesAll place (turn + 1) rest hq
      rw [eq_of_cons_suffix hsuffix hother] at hturn
      omega

end

mutual

/-- The bodies of a region are those of its workers, and those of the regions that they open. -/
theorem mem_bodies_iff
    {s : Scene} {seat : Seat} {outer : Site} (place : Site) (turn : Nat) :
    ∀ region, (s.codeAt place)[turn]? = some region →
      (seat :: outer ∈ bodies place turn region ↔
        (outer = place ∧ seat.turn = turn ∨ outer ∈ bodies place turn region) ∧
          s.Offers outer seat)
  | .opening pool threads inner => by
      intro hregion
      have hinner (worker : Nat) :
          seat :: outer ∈ bodiesAll ({ turn, pool, worker } :: place) 0 (inner worker) ↔
            (outer = { turn, pool, worker } :: place ∨
              outer ∈ bodiesAll ({ turn, pool, worker } :: place) 0 (inner worker)) ∧
                s.Offers outer seat := by
        have hcode : s.codeAt ({ turn, pool, worker } :: place) =
            (Region.opening pool threads inner).inner worker :=
          Scene.codeAt_cons hregion
        rw [mem_bodiesAll_iff _ 0 (inner worker) hcode, and_iff_left (Nat.zero_le seat.turn)]
      simp only [bodies, List.mem_flatMap, List.mem_range, List.mem_cons]
      constructor
      · rintro ⟨worker, hworker, heq | hmem⟩
        · cases heq
          exact ⟨.inl ⟨rfl, rfl⟩, _, hregion, rfl, hworker⟩
        · obtain ⟨houter, hoffers⟩ := (hinner worker).mp hmem
          exact ⟨.inr ⟨worker, hworker, houter⟩, hoffers⟩
      · rintro ⟨⟨rfl, rfl⟩ | ⟨worker, hworker, houter⟩, hoffers⟩
        · obtain ⟨region, hsame, hpool, hworker⟩ := hoffers
          rw [hregion] at hsame
          cases hsame
          refine ⟨seat.worker, hworker, .inl ?_⟩
          rw [show pool = seat.pool from hpool.symm]
        · exact ⟨worker, hworker, .inr ((hinner worker).mpr ⟨houter, hoffers⟩)⟩

theorem mem_bodiesAll_iff
    {s : Scene} {seat : Seat} {outer : Site} (place : Site) (turn : Nat) :
    ∀ regions, (s.codeAt place).drop turn = regions →
      (seat :: outer ∈ bodiesAll place turn regions ↔
        (outer = place ∧ turn ≤ seat.turn ∨ outer ∈ bodiesAll place turn regions) ∧
          s.Offers outer seat)
  | [] => by
      intro hnone
      refine ⟨fun hmem => absurd hmem List.not_mem_nil, ?_⟩
      rintro ⟨⟨rfl, hle⟩ | hmem, region, hregion, -⟩
      · have hlt := (List.getElem?_eq_some_iff.mp hregion).1
        have hlength := List.drop_eq_nil_iff.mp hnone
        omega
      · exact absurd hmem List.not_mem_nil
  | region :: rest => by
      intro hdrop
      obtain ⟨hregion, hrest⟩ := of_drop_eq_cons hdrop
      have hturn : turn ≤ seat.turn ↔ seat.turn = turn ∨ turn + 1 ≤ seat.turn := by
        omega
      rw [bodiesAll, List.mem_append, List.mem_append, mem_bodies_iff place turn region hregion,
        mem_bodiesAll_iff place (turn + 1) rest hrest, hturn]
      tauto

end

/-- The workers for which threads are to be made after so many others, and worker zero. -/
def waiting (region : Region) (hired : Nat) : List Nat :=
  0 :: List.range' (hired + 1) (region.threads - 1 - hired)

/-- At first all workers of a region wait. -/
theorem waiting_zero
    (region : Region) :
    region.waiting 0 = List.range region.crew := by
  have hcrew : region.crew = region.threads - 1 + 1 := by
    rw [crew]
    omega
  rw [waiting, hcrew, List.range_eq_range', List.range'_succ]
  rfl

theorem range'_waiting
    {region : Region} {hired : Nat}
    (hlt : hired + 1 < region.threads) :
    List.range' (hired + 1) (region.threads - 1 - hired) =
      (hired + 1) :: List.range' (hired + 1 + 1) (region.threads - 1 - (hired + 1)) := by
  rw [← List.range'_succ]
  congr 1
  omega

/-- At last only worker zero waits. -/
theorem waiting_of_le
    {region : Region} {hired : Nat}
    (hge : region.threads ≤ hired + 1) :
    region.waiting hired = [0] := by
  have hnone : region.threads - 1 - hired = 0 := by
    omega
  rw [waiting, hnone]
  rfl

end Region

namespace Process

open Region (bodies bodiesAll bodiesOf)

/-- The bodies that a frame has still to begin, by itself or by what it causes. -/
def Frame.owed : Frame → List Site
  | .work place _ _ turn _ rest => bodiesAll place turn rest
  | .staff place turn region hands =>
    (region.waiting hands.length).flatMap (region.bodiesOf place turn)
  | .enter seat place _ rest => (seat :: place) :: bodiesAll (seat :: place) 0 rest
  | .leave _ => []
  | .join _ => []

/-- How often a thread has still to begin the body at a place. -/
def Thread.owes (thread : Thread) (place : Site) : Nat :=
  (thread.frames.flatMap Frame.owed).count place

/-- How often the body at a place has begun, or has still to begin. -/
def accounts (h : Process) (place : Site) : Nat :=
  (h.begun.map Beginning.place).count place + (h.threads.map fun thread => thread.owes place).sum

/-- What the frames of a thread owe before a move is what they owe afterwards, with what has begun
and what a new thread owes. -/
theorem Acts.owes_eq
    {pools : Nat} {h : Process} {index : Nat} {thread : Thread} {frames : List Frame} {move : Move}
    (hacts : Acts pools h index thread frames move)
    (place : Site) :
    (frames.flatMap Frame.owed).count place =
      (move.begun.map Beginning.place).count place + move.thread.owes place +
        (move.made.map fun made => made.owes place).sum := by
  cases hacts with
  | opens =>
      simp only [Thread.owes, List.flatMap_cons, Frame.owed, bodiesAll, Region.bodies_eq,
        List.length_nil, Region.waiting_zero, List.append_assoc]
      simp
  | ends => simp [Thread.owes, Frame.owed, bodiesAll]
  | @makes _ turn region hands _ hlt =>
      simp only [Thread.owes, List.flatMap_cons, Frame.owed, Region.waiting,
        Region.range'_waiting hlt, List.length_append, List.length_singleton, List.count_append,
        List.map_cons, List.map_nil, List.sum_cons, List.sum_nil, List.flatMap_nil,
        List.append_nil, List.count_nil, bodiesOf]
      omega
  | plays hge =>
      simp only [Thread.owes, List.flatMap_cons, Frame.owed, Region.waiting_of_le hge]
      simp [bodiesOf]
  | enters =>
      simp only [Thread.owes, List.flatMap_cons, Frame.owed, Beginning.place, List.map_cons,
        List.map_nil, List.sum_nil, List.nil_append, List.cons_append, List.count_cons,
        List.count_nil]
      omega
  | leaves => simp [Thread.owes, Frame.owed]
  | joins hover => simp [Thread.owes, Frame.owed]

/-- A sum over all threads when one of them changes. -/
theorem sum_set
    {threads : List Thread} {index : Nat} {thread : Thread}
    (hthread : threads[index]? = some thread)
    (weight : Thread → Nat) (other : Thread) :
    ((threads.set index other).map weight).sum + weight thread =
      (threads.map weight).sum + weight other := by
  induction threads generalizing index with
  | nil => cases hthread
  | cons first rest ih =>
      cases index with
      | zero =>
          cases hthread
          simp only [List.set_cons_zero, List.map_cons, List.sum_cons]
          omega
      | succ index =>
          have hrest := ih hthread
          simp only [List.set_cons_succ, List.map_cons, List.sum_cons]
          omega

/-- A sum over all threads after a move. -/
theorem sum_after
    {h : Process} {index : Nat} {thread : Thread}
    (hthread : h.threads[index]? = some thread)
    (weight : Thread → Nat) (move : Move) :
    ((h.after index move).threads.map weight).sum + weight thread =
      (h.threads.map weight).sum + weight move.thread + (move.made.map weight).sum := by
  have hset := sum_set hthread weight move.thread
  rw [after, List.map_append, List.sum_append]
  omega

theorem accounts_after
    {pools : Nat} {h : Process} {index : Nat} {thread : Thread} {move : Move}
    (hthread : h.threads[index]? = some thread)
    (hacts : Acts pools h index thread thread.frames move)
    (place : Site) :
    (h.after index move).accounts place = h.accounts place := by
  have howes : thread.owes place = _ := hacts.owes_eq place
  have hsum := sum_after hthread (fun thread => thread.owes place) move
  have hbegun : (h.after index move).begun = h.begun ++ move.begun := rfl
  rw [accounts, accounts, hbegun, List.map_append, List.count_append]
  omega

/-- What has begun and what is still to begin are the bodies of the tree, each of them once. -/
theorem accounts_run
    (s : Scene) (schedule : List Nat) (place : Site) :
    ((opening s.caller s.regions).run s.pools schedule).accounts place =
      (bodiesAll [] 0 s.regions).count place := by
  refine run_induction (P := fun h => h.accounts place = _)
    (fun h index thread move haccounts hthread hacts => ?_) schedule ?_
  · rw [accounts_after hthread hacts, haccounts]
  · simp [accounts, opening, Thread.owes, Frame.owed]

/-- No body begins twice, and only bodies of the tree begin. -/
theorem subperm_begun
    (s : Scene) (schedule : List Nat) :
    (((opening s.caller s.regions).run s.pools schedule).begun.map Beginning.place).Subperm
      (bodiesAll [] 0 s.regions) := by
  rw [List.subperm_ext_iff]
  intro place _
  rw [← accounts_run s schedule place]
  exact Nat.le_add_right _ _

/-- Every body that began did so on the thread of its worker: that of worker zero on the thread
that opened the region, and any other as the first one on a thread that was made for it. -/
structure Seated (h : Process) : Prop where
  /-- The region was opened by the code around it, on the thread that runs that. -/
  caller : ∀ b ∈ h.begun, h.Runs b.caller b.outer
  zero : ∀ b ∈ h.begun, b.thread = b.caller ↔ b.seat.worker = 0
  made : ∀ b ∈ h.begun, b.seat.worker ≠ 0 → h.originAt b.thread = some b.place
  first : h.begun.Pairwise fun earlier later =>
    later.seat.worker ≠ 0 → earlier.thread ≠ later.thread

/-- Only threads that exist and have entered a region have begun bodies. -/
structure Started (h : Process) : Prop where
  exists_thread : ∀ b ∈ h.begun, b.thread < h.threads.length
  entered : ∀ index thread seat place caller rest, h.threads[index]? = some thread →
    thread.frames = [.enter seat place caller rest] → ∀ b ∈ h.begun, b.thread ≠ index

section Seats

variable {s : Scene} {h : Process} {index : Nat} {thread : Thread} {move : Move}

/-- Only a thread that enters a region begins a body, and only one. -/
theorem Acts.of_begun
    {pools : Nat} {frames : List Frame} {b : Beginning}
    (hacts : Acts pools h index thread frames move)
    (hb : b ∈ move.begun) :
    b.thread = index ∧ move.begun = [b] ∧
      ∃ rest below, frames = .enter b.seat b.outer b.caller rest :: below := by
  cases hacts with
  | enters =>
      obtain rfl := List.mem_singleton.mp hb
      exact ⟨rfl, rfl, _, _, rfl⟩
  | _ => exact absurd hb List.not_mem_nil

/-- Only a new thread has no frame but the one to enter a region. -/
theorem Acts.not_entering
    {frames : List Frame}
    (hstage : Stage s h index thread frames)
    (hacts : Acts s.pools h index thread frames move)
    (seat : Seat) (place : Site) (caller : Nat) (rest : List Region) :
    move.thread.frames ≠ [.enter seat place caller rest] := by
  cases hacts with
  | ends =>
      obtain ⟨hbelow, -⟩ := hstage.of_work
      obtain ⟨previous, below, rfl⟩ := hbelow.exists_leave
      simp
  | leaves =>
      obtain rfl | ⟨hands, rest, rfl⟩ := hstage.of_leave
      · simp
      · simp
  | _ => simp

theorem Started.after
    (hstarted : h.Started)
    (hstage : Stage s h index thread thread.frames)
    (hthread : h.threads[index]? = some thread)
    (hacts : Acts s.pools h index thread thread.frames move) :
    (h.after index move).Started := by
  have hindex : index < h.threads.length := (List.getElem?_eq_some_iff.mp hthread).1
  have hexists : ∀ b ∈ (h.after index move).begun, b.thread < h.threads.length := by
    intro b hb
    rcases List.mem_append.mp hb with hb | hb
    · exact hstarted.exists_thread b hb
    · exact (hacts.of_begun hb).1 ▸ hindex
  constructor
  · intro b hb
    rw [Process.after, List.length_append, List.length_set]
    exact Nat.lt_add_right _ (hexists b hb)
  · intro t other seat place caller rest hother hframes b hb
    obtain ⟨rfl, rfl⟩ | ⟨hne, hother⟩ | ⟨rfl, -⟩ := threads_after hthread hacts hother
    · exact absurd hframes (hacts.not_entering hstage seat place caller rest)
    · rcases List.mem_append.mp hb with hb | hb
      · exact hstarted.entered t other seat place caller rest hother hframes b hb
      · exact (hacts.of_begun hb).1 ▸ hne.symm
    · exact Nat.ne_of_lt (hexists b hb)

theorem Seated.after
    (hseated : h.Seated)
    (hstarted : h.Started)
    (hstage : Stage s h index thread thread.frames)
    (hthread : h.threads[index]? = some thread)
    (hacts : Acts s.pools h index thread thread.frames move) :
    (h.after index move).Seated := by
  have hgrows := (becomes_after hthread hacts).toGrows
  have hnew : ∀ b ∈ move.begun, h.Runs b.caller b.outer ∧
      (b.thread = b.caller ↔ b.seat.worker = 0) ∧
        (b.seat.worker ≠ 0 → h.originAt b.thread = some b.place ∧
          ∀ earlier ∈ h.begun, earlier.thread ≠ b.thread) := by
    intro b hb
    obtain ⟨rfl, -, rest, below, hframes⟩ := hacts.of_begun hb
    rw [hframes] at hstage
    obtain ⟨hbelow, honCaller, hruns⟩ := hstage.of_enter
    refine ⟨hruns, ?_, fun hne => ?_⟩
    · rw [← beq_iff_eq, honCaller, beq_iff_eq]
    · obtain ⟨rfl, horigin⟩ | ⟨hzero, -⟩ := hbelow.of_leave
      · refine ⟨?_, hstarted.entered b.thread thread _ _ _ rest hthread hframes⟩
        rw [originAt, hthread, Option.map_some, horigin]
        rfl
      · exact absurd hzero hne
  constructor
  · intro b hb
    rcases List.mem_append.mp hb with hb | hb
    · exact (hseated.caller b hb).mono hgrows
    · exact (hnew b hb).1.mono hgrows
  · intro b hb
    rcases List.mem_append.mp hb with hb | hb
    · exact hseated.zero b hb
    · exact (hnew b hb).2.1
  · intro b hb hne
    rcases List.mem_append.mp hb with hb | hb
    · exact hgrows.origin _ _ (hseated.made b hb hne)
    · exact hgrows.origin _ _ ((hnew b hb).2.2 hne).1
  · refine List.pairwise_append.mpr ⟨hseated.first, ?_, ?_⟩
    · cases hbegun : move.begun with
      | nil => exact List.Pairwise.nil
      | cons b rest =>
          obtain ⟨-, hone, -⟩ := hacts.of_begun (hbegun ▸ List.mem_cons_self)
          rw [← hbegun, hone]
          exact List.pairwise_singleton _ _
    · intro earlier hearlier b hb hne
      exact ((hnew b hb).2.2 hne).2 earlier hearlier

/-- Bodies begin on the threads of their workers, whatever the order of the steps. -/
theorem seated_run
    (s : Scene) (schedule : List Nat) :
    ((opening s.caller s.regions).run s.pools schedule).Seated := by
  have hnone : ∀ b, b ∉ (opening s.caller s.regions).begun := fun b => List.not_mem_nil
  have hall : Staged s ((opening s.caller s.regions).run s.pools schedule) ∧
      ((opening s.caller s.regions).run s.pools schedule).Started ∧
        ((opening s.caller s.regions).run s.pools schedule).Seated := by
    refine run_induction (P := fun h => Staged s h ∧ h.Started ∧ h.Seated) ?_ schedule ?_
    · rintro h index thread move ⟨hstaged, hstarted, hseated⟩ hthread hacts
      have hstage := hstaged index thread hthread
      exact ⟨hstaged.after hthread hacts, hstarted.after hstage hthread hacts,
        hseated.after hstarted hstage hthread hacts⟩
    · refine ⟨staged_opening s, ⟨?_, ?_⟩, ⟨?_, ?_, ?_, List.Pairwise.nil⟩⟩
      · exact fun b hb => absurd hb (hnone b)
      · exact fun _ _ _ _ _ _ _ _ b hb => absurd hb (hnone b)
      · exact fun b hb => absurd hb (hnone b)
      · exact fun b hb => absurd hb (hnone b)
      · exact fun b hb => absurd hb (hnone b)
  exact hall.2.2

end Seats

end Process
end WorkStealing
