import Mathlib.Data.List.Basic
import WorkStealing.Proofs.Machine.Solo

/-!
# What one thread does with jobs

While the first thread makes all steps, the system after so many of them
(`System.later`) and what they do with jobs (`System.notes`) are known from the
system alone. A passage (`Passage`) is such a stretch of steps on which each system
that is left behind has some property.
-/

namespace WorkStealing
namespace Machine

/-- Something that a thread does with a job. -/
inductive Note where
  | began (job : JobId)
  | ended (job : JobId)
  | spawned (job : JobId)
  deriving DecidableEq, Repr

/-- What a step of the frame does with a job. -/
def Frame.note? : Frame → Option Note
  | .execute job => some (.began job)
  | .perform (.complete job :: _) => some (.ended job)
  | .perform (.spawn job :: _) => some (.spawned job)
  | _ => none

def Note.spawned? : Note → Option JobId
  | .spawned job => some job
  | _ => none

def spawnedIn (notes : List Note) : List JobId :=
  notes.filterMap Note.spawned?

@[simp] theorem spawnedIn_nil : spawnedIn [] = [] := by
  rfl

@[simp] theorem spawnedIn_began
    (job : JobId) (notes : List Note) :
    spawnedIn (.began job :: notes) = spawnedIn notes := by
  rfl

@[simp] theorem spawnedIn_ended
    (job : JobId) (notes : List Note) :
    spawnedIn (.ended job :: notes) = spawnedIn notes := by
  rfl

@[simp] theorem spawnedIn_spawned
    (job : JobId) (notes : List Note) :
    spawnedIn (.spawned job :: notes) = job :: spawnedIn notes := by
  rfl

@[simp] theorem spawnedIn_append
    (first second : List Note) :
    spawnedIn (first ++ second) = spawnedIn first ++ spawnedIn second := by
  simp [spawnedIn]

namespace System

/-- The system after so many steps of its first thread. -/
def later (s : System) (n : Nat) : System :=
  s.run (List.replicate n 0)

/-- What the first thread does with jobs in so many steps. -/
def notes (s : System) : Nat → List Note
  | 0 => []
  | n + 1 => ((s.frameAt 0).bind Frame.note?).toList ++ (s.advance 0).notes n

@[simp] theorem later_zero
    (s : System) :
    s.later 0 = s := by
  rfl

theorem later_succ
    (s : System) (n : Nat) :
    s.later (n + 1) = (s.advance 0).later n := by
  rfl

theorem later_add
    (s : System) (m n : Nat) :
    s.later (m + n) = (s.later m).later n := by
  rw [later, List.replicate_add, run_append]
  rfl

theorem notes_add
    (s : System) (m n : Nat) :
    s.notes (m + n) = s.notes m ++ (s.later m).notes n := by
  induction m generalizing s with
  | zero =>
      simp [notes]
  | succ m ih =>
      rw [Nat.succ_add_eq_add_succ, Nat.add_succ, notes, ih, notes, later_succ, List.append_assoc]

/-- No job is spawned twice from here on, and none of those that were seen. -/
def SpawnsOnce (s : System) (seen : List JobId) : Prop :=
  ∀ n, (spawnedIn (s.notes n)).Nodup ∧ ∀ job ∈ spawnedIn (s.notes n), job ∉ seen

/-- Where a turn changes nothing and does nothing, no more turns do. -/
theorem later_of_idle
    {s : System}
    (hidle : s.advance 0 = s ∧ s.frameAt 0 = none)
    (n : Nat) :
    s.later n = s ∧ s.notes n = [] := by
  induction n with
  | zero =>
      exact ⟨rfl, rfl⟩
  | succ n ih =>
      rw [later_succ, notes, hidle.1, hidle.2]
      exact ih

/-- The first thread is over. -/
def HasEnded (s : System) : Prop :=
  ((s.threads[0]?).any Thread.isOver) = true

instance (s : System) :
    Decidable s.HasEnded :=
  inferInstanceAs (Decidable (_ = true))

theorem HasEnded.idle
    {s : System}
    (h : s.HasEnded) :
    s.advance 0 = s ∧ s.frameAt 0 = none := by
  obtain ⟨thread, hthread, hframes⟩ := (Option.any_eq_true _ _).mp h
  exact advance_of_over hthread (List.isEmpty_iff.mp hframes)

/-- The end comes after all systems in which the thread is not over. -/
theorem lt_of_hasEnded
    {s : System} {n k : Nat}
    (hopen : ¬ (s.later n).HasEnded)
    (hended : (s.later k).HasEnded) :
    n < k := by
  refine Nat.lt_of_not_le fun hle => ?_
  obtain ⟨more, rfl⟩ := Nat.exists_eq_add_of_le hle
  rw [later_add, (later_of_idle hended.idle more).1] at hopen
  exact hopen hended

/-- A thread that comes to its end was not given up on the way. -/
theorem going_of_hasEnded
    {s : System} {k : Nat}
    (hended : (s.later k).HasEnded)
    (hgoing : (s.later k).aborted = none)
    (n : Nat) :
    (s.later n).aborted = none := by
  rcases Nat.le_total n k with hle | hle
  · obtain ⟨more, rfl⟩ := Nat.exists_eq_add_of_le hle
    by_contra haborted
    have hsome := Option.isSome_iff_ne_none.mpr haborted
    rw [later_add, (later_of_idle (advance_of_aborted hsome 0) more).1] at hgoing
    exact haborted hgoing
  · obtain ⟨more, rfl⟩ := Nat.exists_eq_add_of_le hle
    rw [later_add, (later_of_idle hended.idle more).1]
    exact hgoing

/-- What comes before the end of the thread decides what it spawns. -/
theorem spawnsOnce_of_hasEnded
    {s : System} {seen : List JobId} {k : Nat}
    (hended : (s.later k).HasEnded)
    (hnodup : (seen ++ spawnedIn (s.notes k)).Nodup) :
    s.SpawnsOnce seen := by
  intro n
  obtain ⟨-, hspawned, hapart⟩ := List.nodup_append.mp hnodup
  have hsub : (spawnedIn (s.notes n)).Sublist (spawnedIn (s.notes k)) := by
    refine List.Sublist.filterMap _ ?_
    rcases Nat.le_total n k with hle | hle
    · obtain ⟨more, rfl⟩ := Nat.exists_eq_add_of_le hle
      rw [notes_add]
      exact List.sublist_append_left _ _
    · obtain ⟨more, rfl⟩ := Nat.exists_eq_add_of_le hle
      rw [notes_add, (later_of_idle hended.idle more).2, List.append_nil]
  refine ⟨hspawned.sublist hsub, fun job hjob hmem => ?_⟩
  exact hapart job hmem job (hsub.subset hjob) rfl

end System

/-- The first thread comes from one system to another, with these notes; each system that it leaves
has the property. -/
inductive Passage (P : System → Prop) : System → List Note → System → Prop where
  | refl (s : System) : Passage P s [] s
  | step {s t : System} {notes : List Note}
      (hp : P s)
      (hrest : Passage P (s.advance 0) notes t) :
      Passage P s (((s.frameAt 0).bind Frame.note?).toList ++ notes) t

namespace Passage

variable {P Q : System → Prop} {s t u : System} {notes more : List Note}

theorem trans
    (h : Passage P s notes t)
    (hnext : Passage P t more u) :
    Passage P s (notes ++ more) u := by
  induction h with
  | refl s =>
      exact hnext
  | step hp _ ih =>
      rw [List.append_assoc]
      exact .step hp (ih hnext)

theorem mono
    (h : Passage P s notes t)
    (hmono : ∀ s, P s → Q s) :
    Passage Q s notes t := by
  induction h with
  | refl s =>
      exact .refl s
  | step hp _ ih =>
      exact .step (hmono _ hp) ih

theorem single
    (hp : P s)
    (hadvance : s.advance 0 = t) :
    Passage P s ((s.frameAt 0).bind Frame.note?).toList t := by
  subst hadvance
  have hstep := Passage.step hp (.refl (s.advance 0))
  rw [List.append_nil] at hstep
  exact hstep

/-- A passage is a number of steps. -/
theorem exists_later
    (h : Passage P s notes t) :
    ∃ n, s.later n = t ∧ s.notes n = notes ∧ ∀ m < n, P (s.later m) := by
  induction h with
  | refl s =>
      exact ⟨0, rfl, rfl, fun m hm => absurd hm (Nat.not_lt_zero m)⟩
  | step hp _ ih =>
      obtain ⟨n, hafter, hnotes, hall⟩ := ih
      refine ⟨n + 1, hafter, by rw [System.notes, hnotes], fun m hm => ?_⟩
      cases m with
      | zero =>
          exact hp
      | succ m =>
          exact hall m (Nat.lt_of_succ_lt_succ hm)

/-- What was spawned on the way is not spawned again. -/
theorem spawnsOnce
    {seen : List JobId}
    (h : Passage P s notes t)
    (hspawns : s.SpawnsOnce seen) :
    t.SpawnsOnce (seen ++ spawnedIn notes) := by
  obtain ⟨m, rfl, rfl, -⟩ := h.exists_later
  intro n
  have hall := hspawns (m + n)
  rw [System.notes_add, spawnedIn_append, List.nodup_append] at hall
  obtain ⟨⟨-, hnodup, hapart⟩, hnew⟩ := hall
  refine ⟨hnodup, fun job hjob hseen => ?_⟩
  rcases List.mem_append.mp hseen with hold | hearlier
  · exact hnew job (List.mem_append_right _ hjob) hold
  · exact hapart job hearlier job hjob rfl

section Solo

variable {w next : World} {identity other : Option Nat} {frame : Frame} {below frames : List Frame}

theorem frameAt_solo
    (w : World) (frame : Frame) (below : List Frame) (identity : Option Nat) :
    (System.solo w (frame :: below) identity).frameAt 0 = some frame :=
  System.frameAt_of_thread rfl (System.Comes.thread_solo w _ identity) rfl

theorem advance_solo
    (hmove : frame.step w identity = .go next other frames) :
    (System.solo w (frame :: below) identity).advance 0 = .solo next (frames ++ below) other :=
  System.advance_of_go rfl (System.Comes.thread_solo w _ identity) rfl hmove

theorem later_solo
    (hmove : frame.step w identity = .go next other frames)
    (n : Nat) :
    (System.solo w (frame :: below) identity).later (n + 1) =
      (System.solo next (frames ++ below) other).later n := by
  rw [System.later_succ, advance_solo hmove]

/-- A step after which the thread goes on. -/
theorem go
    (hp : P (.solo w (frame :: below) identity))
    (hmove : frame.step w identity = .go next other frames) :
    Passage P (.solo w (frame :: below) identity) frame.note?.toList
      (.solo next (frames ++ below) other) := by
  have hstep := single hp (advance_solo hmove)
  rw [frameAt_solo] at hstep
  exact hstep

/-- A step that gives the process up. -/
theorem error
    {cause : Error}
    (hp : P (.solo w (frame :: below) identity))
    (hmove : frame.step w identity = .fail next (.error cause)) :
    ∃ t, Passage P (.solo w (frame :: below) identity) frame.note?.toList t ∧
      t.aborted = some cause := by
  have hstep := single hp
    (System.advance_of_error rfl (System.Comes.thread_solo w _ identity) rfl hmove)
  rw [frameAt_solo] at hstep
  exact ⟨_, hstep, rfl⟩

end Solo
end Passage
end Machine
end WorkStealing
