import WorkStealing.Proofs.Region.Sightings

/-!
# Stages of a thread

Every thread of a process is at one of few stages: it runs code at a place, it makes threads for
a region, it is about to enter one or to leave it, it waits for the threads that it has
made, or it is over (`Process.Stage`). A stage says who the thread is, what stands beneath the
frame on top (`Process.Beneath`), and what the body that ended last has reported. A step leads
from stage to stage (`Process.Staged.step`), and the stages of the other threads only
refer to what never changes: who was made for which body, and which bodies began.
-/

namespace WorkStealing
namespace Process

open Region (threadFor)

/-- The body for which a thread was made. -/
def originAt (h : Process) (index : Nat) : Option Site :=
  h.threads[index]?.map Thread.origin

/-- The thread runs the code at a place: its body began there. -/
def Runs (h : Process) (index : Nat) : Site → Prop
  | [] => index = 0
  | seat :: outer => ∃ b ∈ h.begun, b.place = seat :: outer ∧ b.thread = index

/-- Later more threads were made, and more bodies began. -/
structure Grows (h later : Process) : Prop where
  begun : ∀ b ∈ h.begun, b ∈ later.begun
  origin : ∀ index place, h.originAt index = some place → later.originAt index = some place

theorem Runs.mono
    {h later : Process} {index : Nat} {place : Site}
    (hgrows : h.Grows later)
    (hruns : h.Runs index place) :
    later.Runs index place := by
  cases place with
  | nil => exact hruns
  | cons seat outer =>
      obtain ⟨b, hb, hplace⟩ := hruns
      exact ⟨b, hgrows.begun b hb, hplace⟩

/-- What a thread with these frames can do in one step. -/
inductive Acts (pools : Nat) (h : Process) (index : Nat) (thread : Thread) :
    List Frame → Move → Prop
  /-- Its code opens the next region. -/
  | opens {place : Site} {caller : Nat} {ids : List (Option Nat)}
      {turn : Nat} {seen : List (List Sighting)} {region : Region} {rest : List Region}
      {below : List Frame} :
      Acts pools h index thread (.work place caller ids turn seen (region :: rest) :: below)
        { thread :=
            { thread with
              frames :=
                .staff place turn region [] :: .work place caller ids (turn + 1) seen rest ::
                  below } }
  /-- Its body ends. -/
  | ends {seat : Seat} {outer : Site} {caller : Nat} {ids : List (Option Nat)} {turn : Nat}
      {seen : List (List Sighting)} {below : List Frame} :
      Acts pools h index thread (.work (seat :: outer) caller ids turn seen [] :: below)
        { thread :=
            { thread with
              frames := below
              report := some (.mk seat.worker thread.name (index == caller) ids seen
                (thread.workerIds pools)) } }
  /-- It makes a thread for the next worker of a region. -/
  | makes {place : Site} {turn : Nat} {region : Region} {hands : List Nat} {below : List Frame}
      (hlt : hands.length + 1 < region.threads) :
      Acts pools h index thread (.staff place turn region hands :: below)
        { thread :=
            { thread with
              frames := .staff place turn region (hands ++ [h.threads.length]) :: below }
          made :=
            [{ name := some (Region.threadName (hands.length + 1))
               frames :=
                [.enter { turn, pool := region.pool, worker := hands.length + 1 } place index
                  (region.inner (hands.length + 1))]
               origin := { turn, pool := region.pool, worker := hands.length + 1 } :: place }] }
  /-- It plays worker zero of a region, for which all threads were made. -/
  | plays {place : Site} {turn : Nat} {region : Region} {hands : List Nat} {below : List Frame}
      (hge : region.threads ≤ hands.length + 1) :
      Acts pools h index thread (.staff place turn region hands :: below)
        { thread :=
            { thread with
              frames :=
                .enter { turn, pool := region.pool, worker := 0 } place index (region.inner 0) ::
                  .join hands :: below } }
  /-- It enters a region, and its body begins. -/
  | enters {seat : Seat} {outer : Site} {caller : Nat} {rest : List Region}
      {below : List Frame} :
      Acts pools h index thread (.enter seat outer caller rest :: below)
        { thread :=
            { thread with
              membership := some { pool := seat.pool, worker := seat.worker }
              frames :=
                .work (seat :: outer) caller
                  (HostThread.workerIds
                    { thread.toHostThread with
                      membership := some { pool := seat.pool, worker := seat.worker } } pools)
                  0 [] rest :: .leave thread.membership :: below }
          begun := [{ seat, outer, thread := index, caller }] }
  /-- It leaves a region. -/
  | leaves {previous : Option Membership} {below : List Frame} :
      Acts pools h index thread (.leave previous :: below)
        { thread := { thread with membership := previous, frames := below } }
  /-- The other threads of a region are over, and it goes on with its code. -/
  | joins {hands : List Nat} {place : Site} {caller : Nat} {ids : List (Option Nat)} {turn : Nat}
      {seen : List (List Sighting)} {rest : List Region} {below : List Frame}
      (hover : h.allOver hands = true) :
      Acts pools h index thread (.join hands :: .work place caller ids turn seen rest :: below)
        { thread :=
            { thread with
              frames :=
                .work place caller ids turn
                  (seen ++ [thread.report.toList ++ h.reports hands]) rest :: below } }

/-- A step does one of these things. -/
theorem acts_of_step
    {pools : Nat} {h : Process} {index : Nat} {thread : Thread} {move : Move}
    (hstep : h.step? pools index thread = some move) :
    Acts pools h index thread thread.frames move := by
  unfold step? at hstep
  split at hstep
  · next hframes =>
    rw [hframes]
    cases hstep
    exact .opens
  · next hframes =>
    rw [hframes]
    cases hstep
    exact .ends
  · next hframes =>
    rw [hframes]
    simp only at hstep
    split at hstep
    · next hlt =>
      cases hstep
      exact .makes hlt
    · next hge =>
      cases hstep
      exact .plays (Nat.le_of_not_lt hge)
  · next hframes =>
    rw [hframes]
    cases hstep
    exact .enters
  · next hframes =>
    rw [hframes]
    cases hstep
    exact .leaves
  · next hframes =>
    rw [hframes]
    simp only at hstep
    split at hstep
    · next hover =>
      cases hstep
      exact .joins hover
    · cases hstep
  · cases hstep

/-- Threads are made only for a region that is being opened. -/
theorem Acts.exists_staff
    {pools : Nat} {h : Process} {index : Nat} {thread made : Thread} {frames : List Frame}
    {move : Move}
    (hacts : Acts pools h index thread frames move)
    (hmade : made ∈ move.made) :
    ∃ place turn region hands below, frames = .staff place turn region hands :: below := by
  cases hacts with
  | makes hlt => exact ⟨_, _, _, _, _, rfl⟩
  | _ => exact absurd hmade List.not_mem_nil

variable (s : Scene) (h : Process) (index : Nat)

/-- The frame of code at a place, which has opened some regions, agrees with the place. -/
structure Working (place : Site) (caller : Nat) (ids : List (Option Nat))
    (seen : List (List Sighting)) : Prop where
  runs : h.Runs index place
  /-- The body runs on the thread that opened its region exactly if it is that of worker zero. -/
  onCaller : ∀ seat ∈ place.head?, (index == caller) = (seat.worker == 0)
  ids_eq : ∀ seat ∈ place.head?, ids = (s.selfAt place).workerIds s.pools
  seen_eq : seen = (s.sawAt place).take seen.length

/-- These threads were made for the first workers of a region after zero. -/
structure Hired (outer : Site) (turn : Nat) (region : Region) (hands : List Nat) : Prop where
  origin : ∀ i hand, hands[i]? = some hand → index < hand ∧
    h.originAt hand = some ({ turn, pool := region.pool, worker := i + 1 } :: outer)
  length_le : hands.length ≤ region.threads - 1

/-- The frames beneath that of the code at a place, on a thread that was made for the body at
`origin`. -/
inductive Beneath (origin : Site) : Site → List Frame → Prop
  /-- The first thread runs code outside of all regions. -/
  | outside
      (horigin : origin = []) :
      Beneath origin [] []
  /-- The thread was made for the body, and then it is over. -/
  | hand {seat : Seat} {outer : Site}
      (horigin : origin = seat :: outer) :
      Beneath origin (seat :: outer) [.leave none]
  /-- The thread plays worker zero of a region that it has opened. -/
  | nested {outer : Site} {caller : Nat} {ids : List (Option Nat)}
      {seen : List (List Sighting)} {region : Region} {hands : List Nat} {below : List Frame}
      (hbelow : Beneath origin outer below)
      (hworking : Working s h index outer caller ids seen)
      (hregion : (s.codeAt outer)[seen.length]? = some region)
      (hhired : Hired h index outer seen.length region hands)
      (hall : hands.length = region.threads - 1) :
      Beneath origin ({ turn := seen.length, pool := region.pool, worker := 0 } :: outer)
        (.leave (s.selfAt outer).membership :: .join hands ::
          .work outer caller ids (seen.length + 1) seen
            ((s.codeAt outer).drop (seen.length + 1)) :: below)

/-- Where a thread with these frames is. -/
inductive Stage (thread : Thread) : List Frame → Prop
  /-- It runs code at a place. -/
  | work {place : Site} {caller : Nat} {ids : List (Option Nat)} {seen : List (List Sighting)}
      {below : List Frame}
      (hbelow : Beneath s h index thread.origin place below)
      (hworking : Working s h index place caller ids seen)
      (hself : thread.toHostThread = s.selfAt place) :
      Stage thread
        (.work place caller ids seen.length seen ((s.codeAt place).drop seen.length) :: below)
  /-- It makes threads for a region. -/
  | staff {outer : Site} {caller : Nat} {ids : List (Option Nat)} {seen : List (List Sighting)}
      {region : Region} {hands : List Nat} {below : List Frame}
      (hbelow : Beneath s h index thread.origin outer below)
      (hworking : Working s h index outer caller ids seen)
      (hregion : (s.codeAt outer)[seen.length]? = some region)
      (hhired : Hired h index outer seen.length region hands)
      (hself : thread.toHostThread = s.selfAt outer) :
      Stage thread
        (.staff outer seen.length region hands ::
          .work outer caller ids (seen.length + 1) seen
            ((s.codeAt outer).drop (seen.length + 1)) :: below)
  /-- It is about to enter a region. -/
  | enter {seat : Seat} {outer : Site} {caller : Nat} {below : List Frame}
      (hbelow : Beneath s h index thread.origin (seat :: outer)
        (.leave thread.membership :: below))
      (hself : thread.toHostThread = threadFor (s.selfAt outer) seat.worker)
      (honCaller : (index == caller) = (seat.worker == 0))
      (hruns : h.Runs caller outer) :
      Stage thread (.enter seat outer caller (s.codeAt (seat :: outer)) :: below)
  /-- Its body has ended, and it is about to leave the region. -/
  | leave {seat : Seat} {outer : Site} {previous : Option Membership} {below : List Frame}
      (hbelow : Beneath s h index thread.origin (seat :: outer) (.leave previous :: below))
      (hself : thread.toHostThread = s.selfAt (seat :: outer))
      (hreport : thread.report = some (s.sightingAt seat outer)) :
      Stage thread (.leave previous :: below)
  /-- It has left the region, and waits for the threads that it has made. -/
  | join {outer : Site} {caller : Nat} {ids : List (Option Nat)} {seen : List (List Sighting)}
      {region : Region} {hands : List Nat} {below : List Frame}
      (hbelow : Beneath s h index thread.origin outer below)
      (hworking : Working s h index outer caller ids seen)
      (hregion : (s.codeAt outer)[seen.length]? = some region)
      (hhired : Hired h index outer seen.length region hands)
      (hall : hands.length = region.threads - 1)
      (hself : thread.toHostThread = s.selfAt outer)
      (hreport : thread.report =
        some (s.sightingAt { turn := seen.length, pool := region.pool, worker := 0 } outer)) :
      Stage thread
        (.join hands ::
          .work outer caller ids (seen.length + 1) seen
            ((s.codeAt outer).drop (seen.length + 1)) :: below)
  /-- It is over. -/
  | ended {seat : Seat} {outer : Site}
      (horigin : thread.origin = seat :: outer)
      (hreport : thread.report = some (s.sightingAt seat outer)) :
      Stage thread []

variable {s h index}

section Growth

variable {later : Process} (hgrows : h.Grows later)

include hgrows

theorem Working.mono
    {place : Site} {caller : Nat} {ids : List (Option Nat)} {seen : List (List Sighting)}
    (hworking : Working s h index place caller ids seen) :
    Working s later index place caller ids seen :=
  { hworking with runs := hworking.runs.mono hgrows }

theorem Hired.mono
    {outer : Site} {turn : Nat} {region : Region} {hands : List Nat}
    (hhired : Hired h index outer turn region hands) :
    Hired later index outer turn region hands := by
  refine { hhired with origin := fun i hand hhand => ?_ }
  obtain ⟨hlt, horigin⟩ := hhired.origin i hand hhand
  exact ⟨hlt, hgrows.origin hand _ horigin⟩

theorem Beneath.mono
    {origin place : Site} {frames : List Frame}
    (hbeneath : Beneath s h index origin place frames) :
    Beneath s later index origin place frames := by
  induction hbeneath with
  | outside horigin => exact .outside horigin
  | hand horigin => exact .hand horigin
  | nested hbelow hworking hregion hhired hall ih =>
      exact .nested ih (hworking.mono hgrows) hregion (hhired.mono hgrows) hall

/-- What other threads do leaves a thread at its stage. -/
theorem Stage.mono
    {thread : Thread} {frames : List Frame}
    (hstage : Stage s h index thread frames) :
    Stage s later index thread frames := by
  cases hstage with
  | work hbelow hworking hself =>
      exact .work (hbelow.mono hgrows) (hworking.mono hgrows) hself
  | staff hbelow hworking hregion hhired hself =>
      exact .staff (hbelow.mono hgrows) (hworking.mono hgrows) hregion (hhired.mono hgrows) hself
  | enter hbelow hself honCaller hruns =>
      exact .enter (hbelow.mono hgrows) hself honCaller (hruns.mono hgrows)
  | leave hbelow hself hreport =>
      exact .leave (hbelow.mono hgrows) hself hreport
  | join hbelow hworking hregion hhired hall hself hreport =>
      exact .join (hbelow.mono hgrows) (hworking.mono hgrows) hregion (hhired.mono hgrows) hall
        hself hreport
  | ended horigin hreport => exact .ended horigin hreport

end Growth

/-- Code that has opened all its regions has seen what they see. -/
theorem Working.seen_eq_sawAt
    {place : Site} {caller : Nat} {ids : List (Option Nat)} {seen : List (List Sighting)}
    (hworking : Working s h index place caller ids seen)
    (hnone : (s.codeAt place).drop seen.length = []) :
    seen = s.sawAt place := by
  have hle : (s.sawAt place).length ≤ seen.length := by
    rw [Scene.sawAt, List.length_map]
    exact List.drop_eq_nil_iff.mp hnone
  rw [hworking.seen_eq, List.take_of_length_le hle]

/-- The thread for the next worker joins those that were made before. -/
theorem Hired.hire
    {outer : Site} {turn hand : Nat} {region : Region} {hands : List Nat}
    (hhired : Hired h index outer turn region hands)
    (hlt : hands.length + 1 < region.threads)
    (hindex : index < hand)
    (horigin : h.originAt hand =
      some ({ turn, pool := region.pool, worker := hands.length + 1 } :: outer)) :
    Hired h index outer turn region (hands ++ [hand]) := by
  constructor
  · intro i other hother
    rw [List.getElem?_append] at hother
    split at hother
    · exact hhired.origin i other hother
    · next hge =>
      obtain ⟨hi, rfl⟩ : i = hands.length ∧ hand = other := by
        rw [List.getElem?_singleton] at hother
        split at hother
        · cases hother
          exact ⟨by omega, rfl⟩
        · cases hother
      exact ⟨hindex, hi ▸ horigin⟩
  · rw [List.length_append, List.length_singleton]
    omega

/-- Beneath a body stands the point at which its region is left. -/
theorem Beneath.exists_leave
    {origin outer : Site} {seat : Seat} {frames : List Frame}
    (hbeneath : Beneath s h index origin (seat :: outer) frames) :
    ∃ previous below, frames = .leave previous :: below := by
  cases hbeneath with
  | hand horigin => exact ⟨_, _, rfl⟩
  | nested hbelow hworking hregion hhired hall => exact ⟨_, _, rfl⟩

/-- Where a region is left, the thread was made for the body and is over, or it has played worker
zero and waits for others. -/
theorem Beneath.of_leave
    {origin outer : Site} {seat : Seat} {previous : Option Membership} {below : List Frame}
    (hbeneath : Beneath s h index origin (seat :: outer) (.leave previous :: below)) :
    (below = [] ∧ origin = seat :: outer) ∨
      (seat.worker = 0 ∧ ∃ hands rest, below = .join hands :: rest) := by
  cases hbeneath with
  | hand horigin => exact .inl ⟨rfl, horigin⟩
  | nested hbelow hworking hregion hhired hall => exact .inr ⟨rfl, _, _, rfl⟩

section Inversion

variable {thread : Thread}

theorem Stage.of_work
    {place : Site} {caller turn : Nat} {ids : List (Option Nat)} {seen : List (List Sighting)}
    {rest : List Region} {below : List Frame}
    (hstage : Stage s h index thread (.work place caller ids turn seen rest :: below)) :
    Beneath s h index thread.origin place below ∧ Working s h index place caller ids seen ∧
      thread.toHostThread = s.selfAt place ∧ rest = (s.codeAt place).drop seen.length := by
  cases hstage with
  | work hbelow hworking hself => exact ⟨hbelow, hworking, hself, rfl⟩

theorem Stage.of_enter
    {seat : Seat} {outer : Site} {caller : Nat} {rest : List Region} {below : List Frame}
    (hstage : Stage s h index thread (.enter seat outer caller rest :: below)) :
    Beneath s h index thread.origin (seat :: outer) (.leave thread.membership :: below) ∧
      (index == caller) = (seat.worker == 0) ∧ h.Runs caller outer := by
  cases hstage with
  | enter hbelow hself honCaller hruns => exact ⟨hbelow, honCaller, hruns⟩

theorem Stage.of_leave
    {previous : Option Membership} {below : List Frame}
    (hstage : Stage s h index thread (.leave previous :: below)) :
    below = [] ∨ ∃ hands rest, below = .join hands :: rest := by
  cases hstage with
  | leave hbelow hself hreport => exact hbelow.of_leave.imp And.left And.right

/-- A thread that is over has reported what the body saw for which it was made. -/
theorem Stage.report_eq
    {seat : Seat} {outer : Site}
    (hstage : Stage s h index thread [])
    (horigin : thread.origin = seat :: outer) :
    thread.report = some (s.sightingAt seat outer) := by
  cases hstage with
  | ended horigin' hreport =>
      rw [horigin] at horigin'
      cases horigin'
      exact hreport

end Inversion

/-- The process has grown by what a move made and began. -/
structure Becomes (h later : Process) (move : Move) : Prop extends Grows h later where
  begins : ∀ b ∈ move.begun, b ∈ later.begun
  makes : ∀ made ∈ move.made, later.originAt h.threads.length = some made.origin

section Step

variable {later : Process} {thread : Thread} {move : Move}

theorem stage_of_work
    {place : Site} {caller : Nat} {ids : List (Option Nat)} {seen : List (List Sighting)}
    {below : List Frame}
    (hbelow : Beneath s h index thread.origin place below)
    (hworking : Working s h index place caller ids seen)
    (hself : thread.toHostThread = s.selfAt place)
    (hacts : Acts s.pools h index thread
      (.work place caller ids seen.length seen ((s.codeAt place).drop seen.length) :: below) move)
    (hgrows : h.Grows later) :
    Stage s later index move.thread move.thread.frames := by
  generalize hrest : (s.codeAt place).drop seen.length = rest at hacts
  cases hacts with
  | @opens _ _ _ _ _ region rest =>
      obtain ⟨hregion, hdrop⟩ := Region.of_drop_eq_cons hrest
      have hhired : Hired later index place seen.length region [] :=
        { origin := fun i hand hhand => absurd hhand (Option.not_mem_none hand)
          length_le := Nat.zero_le _ }
      rw [← hdrop]
      exact .staff (hbelow.mono hgrows) (hworking.mono hgrows) hregion hhired hself
  | @ends seat outer =>
      obtain ⟨previous, beneath, rfl⟩ := hbelow.exists_leave
      refine .leave (hbelow.mono hgrows) hself ?_
      rw [hworking.onCaller seat rfl, hworking.ids_eq seat rfl, hworking.seen_eq_sawAt hrest, hself]
      rfl

theorem stage_of_staff
    {outer : Site} {caller : Nat} {ids : List (Option Nat)} {seen : List (List Sighting)}
    {region : Region} {hands : List Nat} {below : List Frame}
    (hindex : index < h.threads.length)
    (hbelow : Beneath s h index thread.origin outer below)
    (hworking : Working s h index outer caller ids seen)
    (hregion : (s.codeAt outer)[seen.length]? = some region)
    (hhired : Hired h index outer seen.length region hands)
    (hself : thread.toHostThread = s.selfAt outer)
    (hacts : Acts s.pools h index thread
      (.staff outer seen.length region hands ::
        .work outer caller ids (seen.length + 1) seen
            ((s.codeAt outer).drop (seen.length + 1)) :: below) move)
    (hbecomes : h.Becomes later move) :
    Stage s later index move.thread move.thread.frames ∧
      ∀ made ∈ move.made, Stage s later h.threads.length made made.frames := by
  have hgrows := hbecomes.toGrows
  have hcode : ∀ worker,
      s.codeAt ({ turn := seen.length, pool := region.pool, worker } :: outer) =
        region.inner worker := fun _ => Scene.codeAt_cons hregion
  cases hacts with
  | makes hlt =>
      have hnew := hbecomes.makes _ List.mem_cons_self
      constructor
      · exact .staff (hbelow.mono hgrows) (hworking.mono hgrows) hregion
          ((hhired.mono hgrows).hire hlt hindex hnew) hself
      · intro made hmade
        obtain rfl := List.mem_singleton.mp hmade
        rw [← hcode]
        refine .enter (.hand rfl) rfl ?_ (hworking.runs.mono hgrows)
        rw [beq_eq_false_iff_ne.mpr (Nat.ne_of_gt hindex)]
        rfl
  | plays hge =>
      refine ⟨?_, fun made hmade => absurd hmade List.not_mem_nil⟩
      have hall : hands.length = region.threads - 1 := by
        have hle := hhired.length_le
        omega
      have hnested := Beneath.nested (hbelow.mono hgrows) (hworking.mono hgrows) hregion
        (hhired.mono hgrows) hall
      rw [← hself] at hnested
      rw [← hcode]
      exact .enter hnested hself (beq_self_eq_true index) (hworking.runs.mono hgrows)

theorem stage_of_enter
    {seat : Seat} {outer : Site} {caller : Nat} {below : List Frame}
    (hbelow : Beneath s h index thread.origin (seat :: outer) (.leave thread.membership :: below))
    (hself : thread.toHostThread = threadFor (s.selfAt outer) seat.worker)
    (honCaller : (index == caller) = (seat.worker == 0))
    (hacts : Acts s.pools h index thread
      (.enter seat outer caller (s.codeAt (seat :: outer)) :: below) move)
    (hbecomes : h.Becomes later move) :
    Stage s later index move.thread move.thread.frames := by
  cases hacts
  have hinside : { thread.toHostThread with
      membership := some { pool := seat.pool, worker := seat.worker } } =
        s.selfAt (seat :: outer) := by
    rw [hself]
    rfl
  have hworking : Working s later index (seat :: outer) caller
      ((s.selfAt (seat :: outer)).workerIds s.pools) [] := by
    refine ⟨⟨_, hbecomes.begins _ List.mem_cons_self, rfl, rfl⟩, ?_, fun _ _ => rfl, rfl⟩
    intro other hother
    cases hother
    exact honCaller
  rw [hinside]
  refine .work ?_ hworking rfl
  exact hbelow.mono hbecomes.toGrows

theorem stage_of_leave
    {seat : Seat} {outer : Site} {previous : Option Membership} {below : List Frame}
    (hbelow : Beneath s h index thread.origin (seat :: outer) (.leave previous :: below))
    (hself : thread.toHostThread = s.selfAt (seat :: outer))
    (hreport : thread.report = some (s.sightingAt seat outer))
    (hacts : Acts s.pools h index thread (.leave previous :: below) move)
    (hgrows : h.Grows later) :
    Stage s later index move.thread move.thread.frames := by
  cases hacts
  have hmono := hbelow.mono hgrows
  generalize hplace : seat :: outer = place at hmono
  generalize hcalls : Frame.leave previous :: below = calls at hmono
  cases hmono with
  | outside horigin => cases hplace
  | hand horigin =>
      cases hplace
      cases hcalls
      exact .ended horigin hreport
  | nested hbelow' hworking hregion hhired hall =>
      cases hplace
      cases hcalls
      refine .join hbelow' hworking hregion hhired hall ?_ hreport
      rw [hself]
      rfl

end Step

/-- All threads of the process are at one of the stages. -/
def Staged (s : Scene) (h : Process) : Prop :=
  ∀ index thread, h.threads[index]? = some thread → Stage s h index thread thread.frames

/-- The threads that were made for a region report what its workers after zero see. -/
theorem Staged.reports_eq
    {outer : Site} {turn : Nat} {region : Region} {hands : List Nat}
    (hstaged : Staged s h)
    (hhired : Hired h index outer turn region hands)
    (hover : h.allOver hands = true) :
    h.reports hands = (List.range hands.length).map fun i =>
      s.sightingAt { turn, pool := region.pool, worker := i + 1 } outer := by
  let report (hand : Nat) : Option Sighting := h.threads[hand]?.bind Thread.report
  let saw (i : Nat) : Sighting :=
    s.sightingAt { turn, pool := region.pool, worker := i + 1 } outer
  have hreport : hands.map report = (List.range hands.length).map fun i => some (saw i) := by
    refine List.ext_getElem (by simp) fun i hi _ => ?_
    rw [List.length_map] at hi
    simp only [List.getElem_map, List.getElem_range]
    obtain ⟨-, horigin⟩ := hhired.origin i _ (List.getElem?_eq_getElem hi)
    obtain ⟨thread, hthread, horigin⟩ := Option.map_eq_some_iff.mp horigin
    have hended := List.all_eq_true.mp hover _ (List.getElem_mem hi)
    rw [hthread, Option.all_some, Thread.isOver, List.isEmpty_iff] at hended
    show h.threads[hands[i]]?.bind Thread.report = _
    rw [hthread]
    exact (hended ▸ hstaged _ thread hthread).report_eq horigin
  calc h.reports hands
      = (hands.map report).filterMap id := by rw [List.filterMap_map]; rfl
    _ = (List.range hands.length).map saw := by
        rw [hreport, List.filterMap_map]
        exact congrFun List.filterMap_eq_map' _

/-- The thread goes on with its code when the other threads of the region are over: the region has
reported what all its bodies saw. -/
theorem stage_of_join
    {later : Process} {thread : Thread} {move : Move}
    {outer : Site} {caller : Nat} {ids : List (Option Nat)} {seen : List (List Sighting)}
    {region : Region} {hands : List Nat} {below : List Frame}
    (hstaged : Staged s h)
    (hbelow : Beneath s h index thread.origin outer below)
    (hworking : Working s h index outer caller ids seen)
    (hregion : (s.codeAt outer)[seen.length]? = some region)
    (hhired : Hired h index outer seen.length region hands)
    (hall : hands.length = region.threads - 1)
    (hself : thread.toHostThread = s.selfAt outer)
    (hreport : thread.report =
      some (s.sightingAt { turn := seen.length, pool := region.pool, worker := 0 } outer))
    (hacts : Acts s.pools h index thread
      (.join hands ::
        .work outer caller ids (seen.length + 1) seen
            ((s.codeAt outer).drop (seen.length + 1)) :: below) move)
    (hgrows : h.Grows later) :
    Stage s later index move.thread move.thread.frames := by
  generalize hrest : (s.codeAt outer).drop (seen.length + 1) = rest at hacts
  cases hacts with
  | joins hover =>
      have hsaw : thread.report.toList ++ h.reports hands =
          Region.sightings s.pools (s.selfAt outer) region := by
        rw [hreport, hstaged.reports_eq hhired hover, hall, Scene.sightings_eq hregion]
        rfl
      have hsawAt : (s.sawAt outer)[seen.length]? =
          some (Region.sightings s.pools (s.selfAt outer) region) := by
        rw [Scene.sawAt, List.getElem?_map, hregion]
        rfl
      have hworking' : Working s later index outer caller ids
          (seen ++ [thread.report.toList ++ h.reports hands]) := by
        refine { hworking.mono hgrows with seen_eq := ?_ }
        rw [List.length_append, List.length_singleton, List.take_add_one, hsawAt,
          ← hworking.seen_eq, hsaw]
        rfl
      have hlength : (seen ++ [thread.report.toList ++ h.reports hands]).length =
          seen.length + 1 := by
        rw [List.length_append, List.length_singleton]
      rw [← hrest, ← hlength]
      exact .work (hbelow.mono hgrows) hworking' hself

/-- A step leads a thread from stage to stage, and a thread that it makes starts at one. -/
theorem Staged.step
    {later : Process} {thread : Thread} {move : Move}
    (hstaged : Staged s h)
    (hthread : h.threads[index]? = some thread)
    (hacts : Acts s.pools h index thread thread.frames move)
    (hbecomes : h.Becomes later move) :
    Stage s later index move.thread move.thread.frames ∧
      ∀ made ∈ move.made, Stage s later h.threads.length made made.frames := by
  have hindex : index < h.threads.length := (List.getElem?_eq_some_iff.mp hthread).1
  have hgrows := hbecomes.toGrows
  have hstage := hstaged index thread hthread
  generalize thread.frames = frames at hstage hacts
  have hnone
      (hnot : ∀ place turn region hands below, frames ≠ .staff place turn region hands :: below) :
      ∀ made ∈ move.made, Stage s later h.threads.length made made.frames := by
    intro made hmade
    obtain ⟨place, turn, region, hands, below, hstaff⟩ := hacts.exists_staff hmade
    exact absurd hstaff (hnot place turn region hands below)
  cases hstage with
  | staff hbelow hworking hregion hhired hself =>
      exact stage_of_staff hindex hbelow hworking hregion hhired hself hacts hbecomes
  | work hbelow hworking hself =>
      exact ⟨stage_of_work hbelow hworking hself hacts hgrows, hnone (by simp)⟩
  | enter hbelow hself honCaller hruns =>
      exact ⟨stage_of_enter hbelow hself honCaller hacts hbecomes, hnone (by simp)⟩
  | leave hbelow hself hreport =>
      exact ⟨stage_of_leave hbelow hself hreport hacts hgrows, hnone (by simp)⟩
  | join hbelow hworking hregion hhired hall hself hreport =>
      exact ⟨stage_of_join hstaged hbelow hworking hregion hhired hall hself hreport hacts hgrows,
        hnone (by simp)⟩
  | ended horigin hreport => cases hacts

/-- A thread keeps the body for which it was made. -/
theorem Acts.origin_eq
    {pools : Nat} {thread : Thread} {frames : List Frame} {move : Move}
    (hacts : Acts pools h index thread frames move) :
    move.thread.origin = thread.origin := by
  cases hacts <;> rfl

/-- A thread makes at most one other at a time. -/
theorem Acts.made_eq
    {pools : Nat} {thread made : Thread} {frames : List Frame} {move : Move}
    (hacts : Acts pools h index thread frames move)
    (hmade : made ∈ move.made) :
    move.made = [made] := by
  cases hacts with
  | makes hlt =>
      rw [List.mem_singleton.mp hmade]
  | _ => exact absurd hmade List.not_mem_nil

/-- The threads after a move: the thread that has moved, the others, and one that was made. -/
theorem threads_after
    {pools : Nat} {thread other : Thread} {move : Move} {t : Nat}
    (hthread : h.threads[index]? = some thread)
    (hacts : Acts pools h index thread thread.frames move)
    (hother : (h.after index move).threads[t]? = some other) :
    (t = index ∧ other = move.thread) ∨ (t ≠ index ∧ h.threads[t]? = some other) ∨
      (t = h.threads.length ∧ other ∈ move.made) := by
  have hindex : index < h.threads.length := (List.getElem?_eq_some_iff.mp hthread).1
  rw [after, List.getElem?_append, List.length_set] at hother
  split at hother
  · next hlt =>
    by_cases heq : index = t
    · subst heq
      rw [List.getElem?_set_self hindex] at hother
      exact .inl ⟨rfl, (Option.some.inj hother).symm⟩
    · rw [List.getElem?_set_ne heq] at hother
      exact .inr (.inl ⟨Ne.symm heq, hother⟩)
  · next hge =>
    have hmem : other ∈ move.made := List.mem_of_getElem? hother
    rw [hacts.made_eq hmem, List.getElem?_singleton] at hother
    split at hother
    · exact .inr (.inr ⟨by omega, hmem⟩)
    · cases hother

theorem getElem?_after_self
    (move : Move)
    (hindex : index < h.threads.length) :
    (h.after index move).threads[index]? = some move.thread := by
  rw [after, List.getElem?_append_left (by rwa [List.length_set]), List.getElem?_set_self hindex]

theorem getElem?_after_of_ne
    (move : Move) {t : Nat}
    (ht : t < h.threads.length) (hne : t ≠ index) :
    (h.after index move).threads[t]? = h.threads[t]? := by
  rw [after, List.getElem?_append_left (by rwa [List.length_set]), List.getElem?_set_ne hne.symm]

/-- A move lets the process grow. -/
theorem becomes_after
    {pools : Nat} {thread : Thread} {move : Move}
    (hthread : h.threads[index]? = some thread)
    (hacts : Acts pools h index thread thread.frames move) :
    h.Becomes (h.after index move) move where
  begun b hb := List.mem_append_left _ hb
  begins b hb := List.mem_append_right _ hb
  origin t place hplace := by
    obtain ⟨other, hother, rfl⟩ := Option.map_eq_some_iff.mp hplace
    have ht := (List.getElem?_eq_some_iff.mp hother).1
    by_cases heq : t = index
    · subst heq
      rw [originAt, getElem?_after_self move ht, Option.map_some, hacts.origin_eq]
      rw [hthread] at hother
      cases hother
      rfl
    · rw [originAt, getElem?_after_of_ne move ht heq, hother]
      rfl
  makes made hmade := by
    rw [originAt, after, List.getElem?_append_right (Nat.le_of_eq List.length_set), List.length_set,
      Nat.sub_self, hacts.made_eq hmade]
    rfl

/-- A step either does nothing or is a move of the thread. -/
theorem advance_cases
    (pools : Nat) (h : Process) (index : Nat) :
    h.advance pools index = h ∨
      ∃ thread move, h.threads[index]? = some thread ∧
        Acts pools h index thread thread.frames move ∧
        h.advance pools index = h.after index move := by
  unfold advance
  cases hstep : h.threads[index]?.bind (h.step? pools index) with
  | none => exact .inl rfl
  | some move =>
      obtain ⟨thread, hthread, hmove⟩ := Option.bind_eq_some_iff.mp hstep
      exact .inr ⟨thread, move, hthread, acts_of_step hmove, rfl⟩

/-- What every move keeps holds after all schedules. -/
theorem run_induction
    {pools : Nat} {P : Process → Prop}
    (hmove : ∀ h index thread move, P h → h.threads[index]? = some thread →
      Acts pools h index thread thread.frames move → P (h.after index move))
    (schedule : List Nat) {h : Process} (hstart : P h) :
    P (h.run pools schedule) := by
  induction schedule generalizing h with
  | nil => exact hstart
  | cons index rest ih =>
      refine ih ?_
      obtain hsame | ⟨thread, move, hthread, hacts, hadvance⟩ := advance_cases pools h index
      · rwa [hsame]
      · rw [hadvance]
        exact hmove h index thread move hstart hthread hacts

theorem run_append
    (pools : Nat) (h : Process) (first second : List Nat) :
    h.run pools (first ++ second) = (h.run pools first).run pools second := by
  rw [run, List.foldl_append]
  rfl

/-- A move leaves all threads at stages. -/
theorem Staged.after
    {thread : Thread} {move : Move}
    (hstaged : Staged s h)
    (hthread : h.threads[index]? = some thread)
    (hacts : Acts s.pools h index thread thread.frames move) :
    Staged s (h.after index move) := by
  have hbecomes := becomes_after hthread hacts
  obtain ⟨hself, hmade⟩ := hstaged.step hthread hacts hbecomes
  intro t other hother
  obtain ⟨rfl, rfl⟩ | ⟨-, hother⟩ | ⟨rfl, hmem⟩ := threads_after hthread hacts hother
  · exact hself
  · exact (hstaged t other hother).mono hbecomes.toGrows
  · exact hmade other hmem

/-- At first there is one thread, which runs the code outside of all regions. -/
theorem staged_opening
    (s : Scene) :
    Staged s (opening s.caller s.regions) := by
  intro index thread hthread
  obtain ⟨rfl, rfl⟩ : index = 0 ∧ _ = thread := by
    rw [opening, List.getElem?_singleton] at hthread
    split at hthread
    · exact ⟨by assumption, Option.some.inj hthread⟩
    · cases hthread
  have hworking : Working s (opening s.caller s.regions) 0 [] 0 [] [] :=
    ⟨rfl, fun seat hseat => absurd hseat (Option.not_mem_none seat),
      fun seat hseat => absurd hseat (Option.not_mem_none seat), rfl⟩
  exact .work (.outside rfl) hworking rfl

/-- All threads are at stages, whatever the order of their steps. -/
theorem staged_run
    (s : Scene) (schedule : List Nat) :
    Staged s ((opening s.caller s.regions).run s.pools schedule) :=
  run_induction (fun _ _ _ _ hstaged => hstaged.after) schedule (staged_opening s)

end Process
end WorkStealing
