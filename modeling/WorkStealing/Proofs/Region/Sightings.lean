import WorkStealing.Region.Process

/-!
# What bodies see

A region gives its thread back as it was (`Region.play_snd`). So who a thread is while it
runs some code depends on the place of the code alone (`Scene.selfAt`), and so does what
the code sees: its own numbers, and what the regions that it opens report
(`Scene.sightingAt`). The sightings of a region are those of its workers in their order.
-/

namespace WorkStealing

namespace Region

mutual

/-- A region leaves its thread as it found it. -/
theorem play_snd
    (pools : Nat) (caller : HostThread) :
    ∀ region, (play pools caller region).2 = caller
  | .opening pool threads inner => by
      rw [play]
      simp only [playAll_snd]
      rfl

theorem playAll_snd
    (pools : Nat) (caller : HostThread) :
    ∀ regions, (playAll pools caller regions).2 = caller
  | [] => rfl
  | region :: rest => by
      rw [playAll]
      simp only [play_snd, playAll_snd]

end

/-- What the bodies of a region see that a thread opens. -/
def sightings (pools : Nat) (caller : HostThread) (region : Region) : List Sighting :=
  (play pools caller region).1

theorem playAll_fst
    (pools : Nat) (caller : HostThread) (regions : List Region) :
    (playAll pools caller regions).1 = regions.map (sightings pools caller) := by
  induction regions with
  | nil => rfl
  | cons region rest ih =>
      rw [playAll, List.map_cons, ← ih]
      simp only [play_snd]
      rfl

/-- The numbers of a worker in the first so many pools, if its own region decides. -/
def idsIn (pools pool worker : Nat) : List (Option Nat) :=
  (List.range pools).map fun other => if pool = other then some worker else none

mutual

/-- What the bodies of a region see if the region around each of them decides. The thread that
opens it has that name; nothing is remembered from one region to the next. -/
def lexical (pools : Nat) (name : Option String) : Region → List Sighting
  | .opening pool threads inner =>
    (List.range (max 1 threads)).map fun worker =>
      let thread := if worker = 0 then name else some (threadName worker)
      let ids := idsIn pools pool worker
      .mk worker thread (worker == 0) ids (lexicalAll pools thread (inner worker)) ids

def lexicalAll (pools : Nat) (name : Option String) : List Region → List (List Sighting)
  | [] => []
  | region :: rest => lexical pools name region :: lexicalAll pools name rest

end

mutual

/-- The memory that all pools share shows every body its own region. -/
theorem play_fst
    (pools : Nat) (caller : HostThread) :
    ∀ region, (play pools caller region).1 = lexical pools caller.name region
  | .opening pool threads inner => by
      have hname : ∀ worker, (threadFor caller worker).name =
          if worker = 0 then caller.name else some (threadName worker) := by
        intro worker
        rw [threadFor]
        split <;> rfl
      have hcrew : max 1 threads = threads - 1 + 1 := by
        omega
      rw [play, lexical, hcrew, List.range_succ_eq_map]
      simp only [playAll_lexical, playAll_snd, hname, List.map_cons, List.map_map]
      rfl

theorem playAll_lexical
    (pools : Nat) (caller : HostThread) :
    ∀ regions, (playAll pools caller regions).1 = lexicalAll pools caller.name regions
  | [] => rfl
  | region :: rest => by
      rw [playAll, lexicalAll, ← play_fst pools caller region, ← playAll_lexical pools caller rest]
      simp only [play_snd]

end

/-- Regions that are opened one after another show all their bodies the region around them, and
leave the thread as it was. -/
theorem playAll_eq
    (pools : Nat) (caller : HostThread) (regions : List Region) :
    playAll pools caller regions = (lexicalAll pools caller.name regions, caller) :=
  Prod.ext (playAll_lexical pools caller regions) (playAll_snd pools caller regions)

/-- The next region to be opened, and those after it. -/
theorem of_drop_eq_cons
    {regions rest : List Region} {region : Region} {turn : Nat}
    (h : regions.drop turn = region :: rest) :
    regions[turn]? = some region ∧ regions.drop (turn + 1) = rest := by
  constructor
  · rw [← List.head?_drop, h]
    rfl
  · rw [← List.tail_drop, h]
    rfl

end Region

/-- A thread that opens regions one after another, where there are so many pools. -/
structure Scene where
  pools : Nat
  caller : HostThread
  regions : List Region

namespace Scene

open Region (threadFor sightings)

variable (s : Scene)

/-- Who a thread is while it runs the code at a place. -/
def selfAt : Site → HostThread
  | [] => s.caller
  | seat :: outer =>
    { threadFor (selfAt outer) seat.worker with
      membership := some { pool := seat.pool, worker := seat.worker } }

def codeAt : Site → List Region
  | [] => s.regions
  | seat :: outer => ((codeAt outer)[seat.turn]?.map fun region => region.inner seat.worker).getD []

/-- The code at a place opens a region that has the seat. -/
def Offers (place : Site) (seat : Seat) : Prop :=
  ∃ region, (s.codeAt place)[seat.turn]? = some region ∧ seat.pool = region.pool ∧
    seat.worker < region.crew

/-- What the regions see that the code at a place opens. -/
def sawAt (place : Site) : List (List Sighting) :=
  (s.codeAt place).map (sightings s.pools (s.selfAt place))

/-- What a body sees. -/
def sightingAt (seat : Seat) (outer : Site) : Sighting :=
  let self := s.selfAt (seat :: outer)
  .mk seat.worker self.name (seat.worker == 0) (self.workerIds s.pools) (s.sawAt (seat :: outer))
    (self.workerIds s.pools)

variable {s}

theorem codeAt_cons
    {seat : Seat} {outer : Site} {region : Region}
    (h : (s.codeAt outer)[seat.turn]? = some region) :
    s.codeAt (seat :: outer) = region.inner seat.worker := by
  rw [codeAt, h]
  rfl

/-- The workers of a region see what their places say, in their order. -/
theorem sightings_eq
    {outer : Site} {turn : Nat} {region : Region}
    (h : (s.codeAt outer)[turn]? = some region) :
    sightings s.pools (s.selfAt outer) region =
      s.sightingAt { turn, pool := region.pool, worker := 0 } outer ::
        (List.range (region.threads - 1)).map fun i =>
          s.sightingAt { turn, pool := region.pool, worker := i + 1 } outer := by
  have hcode : ∀ worker, s.codeAt ({ turn, pool := region.pool, worker } :: outer) =
      region.inner worker := fun _ => codeAt_cons h
  unfold sightingAt sawAt
  simp only [hcode]
  cases region with
  | opening pool threads inner =>
      rw [sightings, Region.play]
      simp only [Region.playAll_fst, Region.playAll_snd]
      rfl

end Scene
end WorkStealing
