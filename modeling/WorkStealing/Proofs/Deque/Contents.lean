import WorkStealing.Deque.Basic
import WorkStealing.Proofs.Deque.Age

/-!
# What the slots of a deque hold

A list of jobs can be read from the slots of a deque, from some index on. A
deque *holds* a list of jobs when the list can be read from the top on and ends
at the bottom. Slots outside of that range keep whatever was written to them
last; they are never read again before they are written again.
-/

namespace WorkStealing
namespace Deque

variable {α : Type}

/-- The jobs can be read one after another from the slot of that index on. -/
def ReadsFrom (d : Deque α) : Nat → List α → Prop
  | _, [] => True
  | first, job :: rest => d.slot first = some job ∧ d.ReadsFrom (first + 1) rest

@[simp] theorem readsFrom_nil
    (d : Deque α) (first : Nat) :
    d.ReadsFrom first [] := by
  trivial

@[simp] theorem readsFrom_cons
    (d : Deque α) (first : Nat) (job : α) (rest : List α) :
    d.ReadsFrom first (job :: rest) ↔ d.slot first = some job ∧ d.ReadsFrom (first + 1) rest := by
  rfl

/-- A list is read in two parts. -/
theorem readsFrom_append
    (d : Deque α) (first : Nat) (jobs more : List α) :
    d.ReadsFrom first (jobs ++ more) ↔
      d.ReadsFrom first jobs ∧ d.ReadsFrom (first + jobs.length) more := by
  induction jobs generalizing first with
  | nil =>
      simp
  | cons job rest ih =>
      have hindex : first + 1 + rest.length = first + (rest.length + 1) := by
        omega
      simp only [List.cons_append, readsFrom_cons, ih, List.length_cons, hindex]
      exact and_assoc.symm

/-- Only the slots matter for what is read. -/
theorem ReadsFrom.congr
    {d e : Deque α} {first : Nat} {jobs : List α}
    (hslots : e.slots = d.slots)
    (h : d.ReadsFrom first jobs) :
    e.ReadsFrom first jobs := by
  induction jobs generalizing first with
  | nil =>
      trivial
  | cons job rest ih =>
      obtain ⟨hjob, hrest⟩ := h
      refine ⟨?_, ih hrest⟩
      rw [slot, hslots]
      exact hjob

/-- A written slot holds what was written, and all others what they held before. -/
theorem slot_setSlot
    (d : Deque α) (index other : Nat) (job : α) :
    (d.setSlot index job).slot other = if other = index then some job else d.slot other := by
  simp only [slot, setSlot, Array.getElem?_setIfInBounds, Array.getElem?_append,
    Array.getElem?_replicate, Array.size_append, Array.size_replicate]
  by_cases hother : index = other
  · subst hother
    have hsize : index < d.slots.size + (index + 1 - d.slots.size) := by
      omega
    simp [hsize]
  · simp only [hother, if_false, Ne.symm hother]
    by_cases hin : other < d.slots.size
    · simp [hin]
    · by_cases hmissing : other - d.slots.size < index + 1 - d.slots.size <;>
        simp [hin, hmissing]

/-- Writing a slot does not disturb what is read from others. -/
theorem ReadsFrom.setSlot
    {d : Deque α} {first index : Nat} {jobs : List α}
    (h : d.ReadsFrom first jobs)
    (hindex : first + jobs.length ≤ index)
    (job : α) :
    (d.setSlot index job).ReadsFrom first jobs := by
  induction jobs generalizing first with
  | nil =>
      trivial
  | cons head rest ih =>
      obtain ⟨hhead, hrest⟩ := h
      have hlength : first + (rest.length + 1) ≤ index := hindex
      refine ⟨?_, ih hrest (by omega)⟩
      rw [slot_setSlot, if_neg (by omega)]
      exact hhead

/-- The job at a place of a list that is read from a slot on. -/
theorem ReadsFrom.slot_head
    {d : Deque α} {first : Nat} {jobs : List α}
    (h : d.ReadsFrom first jobs)
    (hjobs : jobs ≠ []) :
    d.slot first = jobs.head? := by
  cases jobs with
  | nil =>
      exact absurd rfl hjobs
  | cons job rest =>
      exact h.1

/-- The last job of a list is read from the last slot. -/
theorem ReadsFrom.slot_last
    {d : Deque α} {first last : Nat} {jobs : List α}
    (h : d.ReadsFrom first jobs)
    (hlast : first + jobs.length = last + 1)
    (hjobs : jobs ≠ []) :
    d.slot last = jobs.getLast? := by
  obtain ⟨rest, job, rfl⟩ := List.eq_nil_or_concat jobs |>.resolve_left hjobs
  rw [List.concat_eq_append] at h hlast ⊢
  have hread := ((readsFrom_append d first rest [job]).mp h).2.1
  have hindex : first + rest.length = last := by
    simp only [List.length_append, List.length_cons, List.length_nil] at hlast
    omega
  rw [← hindex, hread, List.getLast?_append]
  rfl

/-- The jobs in the slots from the top up to the bottom are these, oldest first. -/
structure Holds (d : Deque α) (jobs : List α) : Prop where
  bottom_eq : d.bottom.toNat = d.age.top.toNat + jobs.length
  bottom_le : d.bottom.toNat ≤ d.capacity
  reads : d.ReadsFrom d.age.top.toNat jobs

namespace Holds

variable {d : Deque α} {jobs : List α}

theorem size_eq
    (h : d.Holds jobs) :
    d.size = jobs.length := by
  have hbottom := h.bottom_eq
  unfold size
  omega

theorem isEmpty_iff
    (h : d.Holds jobs) :
    d.isEmpty = true ↔ jobs = [] := by
  rw [isEmpty, h.size_eq, beq_iff_eq, List.length_eq_zero_iff]

/-- The list that a deque holds is what can be looked up in it. -/
theorem contents_eq
    (h : d.Holds jobs) :
    d.contents = jobs.map some := by
  have hreads : ∀ (first : Nat) (jobs : List α), d.ReadsFrom first jobs →
      (List.range jobs.length).map (fun i => d.slot (first + i)) = jobs.map some := by
    intro first jobs hjobs
    induction jobs generalizing first with
    | nil =>
        rfl
    | cons job rest ih =>
        obtain ⟨hjob, hrest⟩ := hjobs
        have hshift : (fun i => d.slot (first + i)) ∘ Nat.succ =
            fun i => d.slot (first + 1 + i) := by
          funext i
          show d.slot (first + (i + 1)) = d.slot (first + 1 + i)
          congr 1
          omega
        rw [List.length_cons, List.range_succ_eq_map, List.map_cons, List.map_map, List.map_cons,
          hshift, ih (first + 1) hrest, Nat.add_zero, hjob]
  rw [contents, h.size_eq]
  exact hreads _ jobs h.reads

end Holds

/-- A new deque holds nothing. -/
theorem holds_nil_of_bottom_eq_zero
    {d : Deque α}
    (hbottom : d.bottom = 0)
    (htop : d.age.top = 0) :
    d.Holds [] := by
  refine ⟨?_, ?_, trivial⟩
  · rw [hbottom, htop]
    rfl
  · rw [hbottom]
    exact Nat.zero_le _

end Deque
end WorkStealing
