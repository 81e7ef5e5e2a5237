import WorkStealing.Deque.Operations
import WorkStealing.Proofs.Deque.Contents

/-!
# Operations that nobody disturbs

What pushes, pops and steals do to the list of jobs that a deque holds, when
each of them is run in one go. A push adds a job at the end of the list and a
pop takes it from there; a steal takes the first job. Only a push that finds no
free slot and a pop or a reset that finds no tag left do anything else.
-/

namespace WorkStealing
namespace Deque

variable {α : Type} {d : Deque α} {jobs : List α}

/-- A push that finds no slot is refused and changes nothing. -/
theorem push_of_not_lt
    (hfull : ¬ d.bottom.toNat < d.capacity)
    (job : α) :
    d.push job = (d, .ok (.error (.dequeOverflow d.capacity))) := by
  rw [Deque.push, Routine.push, Routine.run, if_neg hfull]
  rfl

/-- A reset that succeeds has found an empty deque. It has changed the deque, and has given it a new
tag, unless the deque was at its first slot. -/
theorem reset_eq_ok
    {e : Deque α}
    (h : d.reset = .ok e) :
    d.isEmpty = true ∧
      ((d.age.top = 0 ∧ d.bottom = 0) ∧ e = d ∨
        ∃ fresh, d.age.restarted? = some fresh ∧
          e = { d with bottom := 0, ageWord := fresh.pack }) := by
  rw [Deque.reset] at h
  by_cases hempty : d.isEmpty = false
  · rw [if_pos hempty] at h
    cases h
  · refine ⟨Bool.not_eq_false _ ▸ hempty, ?_⟩
    rw [if_neg hempty] at h
    by_cases hfirst : d.age.top = 0 ∧ d.bottom = 0
    · rw [if_pos hfirst] at h
      cases h
      exact Or.inl ⟨hfirst, rfl⟩
    · rw [if_neg hfirst] at h
      cases hfresh : d.age.restarted? with
      | none =>
          rw [hfresh] at h
          cases h
      | some fresh =>
          rw [hfresh] at h
          cases h
          exact Or.inr ⟨fresh, rfl, rfl⟩

/-- A pop lifts the bottom before it asks for the age. -/
theorem pop_eq_run
    (hzero : d.bottom ≠ 0)
    (hle : d.bottom.toNat ≤ d.capacity) :
    (d.bottom - 1).toNat + 1 = d.bottom.toNat ∧
      d.pop =
        Routine.run { d with bottom := d.bottom - 1 }
          (Routine.popAt (d.bottom - 1) (d.slot (d.bottom - 1).toNat) d.ageWord) := by
  have hpos : d.bottom.toNat ≠ 0 := fun heq => hzero (UInt32.toNat_inj.mp heq)
  have hone : (1 : UInt32) ≤ d.bottom := by
    show 1 ≤ d.bottom.toNat
    omega
  have hlast : (d.bottom - 1).toNat = d.bottom.toNat - 1 :=
    UInt32.toNat_sub_of_le _ _ hone
  have hslot : (d.bottom - 1).toNat < d.capacity := by
    omega
  refine ⟨by omega, ?_⟩
  rw [Deque.pop, Routine.pop, Routine.run, if_neg hzero, Routine.run, Routine.run,
    if_pos hslot, Routine.run]
  rfl

namespace Holds

/-- A push finds a slot, unless the bottom has passed the last one. -/
theorem push_of_lt
    (h : d.Holds jobs)
    (hroom : d.bottom.toNat < d.capacity)
    (job : α) :
    ∃ e, d.push job = (e, .ok (.ok ())) ∧ e.Holds (jobs ++ [job]) ∧
      e.capacity = d.capacity ∧ e.age = d.age := by
  have hmax : maxCapacity + 1 = UInt32.size := rfl
  have hle := d.capacity_le
  have hbottom := h.bottom_eq
  have hword : d.bottom.toNat + 1 < UInt32.size := by
    omega
  obtain ⟨next, hnext, hvalue⟩ := Age.exists_next hword
  let e : Deque α := { d.setSlot d.bottom.toNat job with bottom := next }
  have hpush : d.push job = (e, .ok (.ok ())) := by
    rw [Deque.push, Routine.push, Routine.run, if_pos hroom, Routine.run, if_pos hroom,
      Routine.publish, hnext]
    rfl
  refine ⟨e, hpush, ⟨?_, ?_, ?_⟩, rfl, rfl⟩
  · show next.toNat = d.age.top.toNat + (jobs ++ [job]).length
    rw [List.length_append, List.length_singleton]
    omega
  · show next.toNat ≤ d.capacity
    omega
  · show e.ReadsFrom d.age.top.toNat (jobs ++ [job])
    apply ReadsFrom.congr (show e.slots = (d.setSlot d.bottom.toNat job).slots from rfl)
    rw [readsFrom_append]
    refine ⟨h.reads.setSlot (Nat.le_of_eq hbottom.symm) job, ?_, trivial⟩
    rw [← hbottom, slot_setSlot, if_pos rfl]

/-- A deque that starts again with some age holds nothing. -/
theorem restarted
    (d : Deque α) {fresh : Age}
    (htop : fresh.top = 0) :
    let e := { d with bottom := 0, ageWord := fresh.pack }
    e.Holds [] ∧ e.age = fresh := by
  intro e
  have hage : e.age = fresh := Age.unpack_pack fresh
  exact ⟨holds_nil_of_bottom_eq_zero rfl (by rw [hage, htop]), hage⟩

/-- While it leaves other jobs, a pop only lifts the bottom. -/
theorem pop_of_more
    (h : d.Holds jobs)
    (hmore : 1 < jobs.length) :
    let e := { d with bottom := d.bottom - 1 }
    d.pop = (e, .ok jobs.getLast?) ∧ e.Holds jobs.dropLast ∧
      e.bottom.toNat + 1 = d.bottom.toNat := by
  intro e
  have hends := h.bottom_eq
  have hle := h.bottom_le
  have hnil : jobs ≠ [] := List.ne_nil_of_length_pos (by omega)
  have hzero : d.bottom ≠ 0 := by
    intro heq
    simp [heq] at hends
    omega
  obtain ⟨hlast, hrun⟩ := pop_eq_run hzero hle
  have hjob : d.slot (d.bottom - 1).toNat = jobs.getLast? := h.reads.slot_last (by omega) hnil
  have habove : (Age.unpack d.ageWord).top < d.bottom - 1 := by
    show d.age.top.toNat < (d.bottom - 1).toNat
    omega
  have hpop : d.pop = (e, .ok jobs.getLast?) := by
    simp [hrun, Routine.popAt, habove, Routine.run, hjob, e]
  have hreads := h.reads
  rw [← List.dropLast_concat_getLast hnil, readsFrom_append] at hreads
  refine ⟨hpop, ⟨?_, ?_, ReadsFrom.congr (d := d) rfl hreads.1⟩, hlast⟩
  · show (d.bottom - 1).toNat = d.age.top.toNat + jobs.dropLast.length
    simp only [List.length_dropLast]
    omega
  · show (d.bottom - 1).toNat ≤ d.capacity
    omega

/-- A pop that leaves no job starts the deque again with the next tag. -/
theorem pop_of_few
    (h : d.Holds jobs)
    (hfew : jobs.length ≤ 1)
    (hzero : d.bottom ≠ 0) :
    d.pop =
      match d.age.restarted? with
      | none => ({ d with bottom := 0 }, .error (.error .tagExhausted))
      | some fresh => ({ d with bottom := 0, ageWord := fresh.pack }, .ok jobs.getLast?) := by
  have hends := h.bottom_eq
  obtain ⟨hlast, hrun⟩ := pop_eq_run hzero h.bottom_le
  have hbelow : ¬ (Age.unpack d.ageWord).top < d.bottom - 1 := by
    show ¬ d.age.top.toNat < (d.bottom - 1).toNat
    omega
  rw [hrun, Routine.popAt, if_neg hbelow, Routine.run, Routine.contend]
  cases hfresh : d.age.restarted? with
  | none =>
      rw [age] at hfresh
      simp [hfresh, Routine.run]
  | some fresh =>
      rw [age] at hfresh
      simp only [hfresh]
      cases jobs with
      | nil =>
          have hapart : d.bottom - 1 ≠ (Age.unpack d.ageWord).top := by
            intro heq
            have hsame : (d.bottom - 1).toNat = d.age.top.toNat := congrArg UInt32.toNat heq
            simp at hends
            omega
          simp [hapart, Routine.restart, Routine.run]
      | cons job rest =>
          have hjob : d.slot (d.bottom - 1).toNat = (job :: rest).getLast? :=
            h.reads.slot_last (by omega) (by simp)
          have hsame : d.bottom - 1 = (Age.unpack d.ageWord).top := by
            apply UInt32.toNat_inj.mp
            show (d.bottom - 1).toNat = d.age.top.toNat
            simp only [List.length_cons] at hends hfew
            omega
          simp [hsame, Routine.run, ← hjob]

/-- A pop that leaves no job takes the one there was, if any. The deque is then at its first slot,
for which it needs a new tag. -/
theorem pop_last
    (h : d.Holds jobs)
    (hfew : jobs.length ≤ 1)
    (hzero : d.bottom ≠ 0) :
    (∃ e, d.pop = (e, .ok jobs.getLast?) ∧ e.Holds [] ∧ e.capacity = d.capacity ∧ e.age.top = 0) ∨
      d.bottom ≠ 0 ∧ d.age.restarted? = none ∧ d.pop.2 = .error (.error .tagExhausted) := by
  have hpop := h.pop_of_few hfew hzero
  cases hfresh : d.age.restarted? with
  | none =>
      rw [hfresh] at hpop
      exact Or.inr ⟨hzero, rfl, by rw [hpop]⟩
  | some fresh =>
      rw [hfresh] at hpop
      obtain ⟨-, htop⟩ := Age.restarted?_eq_some.mp hfresh
      obtain ⟨hnil, hage⟩ := restarted d htop
      exact Or.inl ⟨_, hpop, hnil, rfl, by simp [hage, htop]⟩

/-- A pop from an empty deque answers nothing, and the deque is then at its first slot. It needs a
new tag unless the deque was there before. -/
theorem pop_nil
    (h : d.Holds []) :
    (∃ e, d.pop = (e, .ok none) ∧ e.Holds [] ∧ e.capacity = d.capacity ∧ e.age.top = 0) ∨
      d.bottom ≠ 0 ∧ d.age.restarted? = none ∧ d.pop.2 = .error (.error .tagExhausted) := by
  by_cases hzero : d.bottom = 0
  · have hends : d.bottom.toNat = d.age.top.toNat := h.bottom_eq
    refine Or.inl ⟨d, ?_, h, rfl, ?_⟩
    · rw [Deque.pop, Routine.pop, Routine.run, if_pos hzero]
      rfl
    · apply UInt32.toNat_inj.mp
      rw [← hends, hzero]
  · exact h.pop_last (Nat.zero_le 1) hzero

/-- A pop takes the last of the jobs. The top stays while there are others; else the deque is at
its first slot, for which it needs a new tag. -/
theorem pop_concat
    {job : α}
    (h : d.Holds (jobs ++ [job])) :
    (∃ e, d.pop = (e, .ok (some job)) ∧ e.Holds jobs ∧ e.capacity = d.capacity ∧
        e.age.top = if jobs = [] then 0 else d.age.top) ∨
      d.bottom ≠ 0 ∧ d.age.restarted? = none ∧ d.pop.2 = .error (.error .tagExhausted) := by
  by_cases hnil : jobs = []
  · subst hnil
    have hzero : d.bottom ≠ 0 := by
      intro heq
      have hends := h.bottom_eq
      simp [heq] at hends
    exact h.pop_last (Nat.le_refl 1) hzero
  · have hlong : 1 < (jobs ++ [job]).length := by
      simpa using List.length_pos_iff.mpr hnil
    obtain ⟨hpop, hrest, -⟩ := h.pop_of_more hlong
    rw [List.getLast?_concat] at hpop
    rw [List.dropLast_concat] at hrest
    exact Or.inl ⟨_, hpop, hrest, rfl, (if_neg hnil).symm⟩

theorem steal_nil
    (h : d.Holds []) :
    d.steal = (d, .ok none) := by
  have hends : d.bottom.toNat = d.age.top.toNat := h.bottom_eq
  have hempty : d.bottom ≤ (Age.unpack d.ageWord).top := by
    show d.bottom.toNat ≤ d.age.top.toNat
    omega
  rw [Deque.steal, Routine.steal, Routine.run, Routine.stealAt, Routine.run, if_pos hempty]
  rfl

theorem steal_cons
    {job : α}
    (h : d.Holds (job :: jobs)) :
    ∃ e, d.steal = (e, .ok (some job)) ∧ e.Holds jobs ∧ e.capacity = d.capacity ∧
      e.age.top.toNat = d.age.top.toNat + 1 := by
  have hmax : maxCapacity + 1 = UInt32.size := rfl
  have hends := h.bottom_eq
  rw [List.length_cons] at hends
  have hle := h.bottom_le
  have hcapacity := d.capacity_le
  have hfull : ¬ d.bottom ≤ (Age.unpack d.ageWord).top := by
    show ¬ d.bottom.toNat ≤ d.age.top.toNat
    omega
  have hslot : (Age.unpack d.ageWord).top.toNat < d.capacity := by
    show d.age.top.toNat < d.capacity
    omega
  obtain ⟨hjob, hrest⟩ := h.reads
  have hword : (Age.unpack d.ageWord).top.toNat + 1 < UInt32.size := by
    omega
  obtain ⟨top, hnext, htop⟩ := Age.exists_next hword
  let fresh : Age := { d.age with top }
  let e : Deque α := { d with ageWord := fresh.pack }
  have hage : e.age = fresh := Age.unpack_pack fresh
  have hvalue : e.age.top.toNat = d.age.top.toNat + 1 := by
    rw [hage]
    exact htop
  refine ⟨e, ?_, ⟨?_, hle, ?_⟩, rfl, hvalue⟩
  · rw [Deque.steal, Routine.steal, Routine.run, Routine.stealAt, Routine.run, if_neg hfull,
      Routine.run, if_pos hslot, Routine.claim, hnext]
    simp only [Routine.run, if_true]
    show (e, Except.ok (d.slot d.age.top.toNat)) = _
    rw [hjob]
  · show d.bottom.toNat = e.age.top.toNat + jobs.length
    omega
  · rw [hvalue]
    exact ReadsFrom.congr (show e.slots = d.slots from rfl) hrest

/-- A deque in which there are jobs cannot be reset. -/
theorem reset_of_ne_nil
    (h : d.Holds jobs)
    (hjobs : jobs ≠ []) :
    d.reset = .error (.panic .resetNonEmpty) := by
  have hfull : d.isEmpty = false := by
    simp [← Bool.not_eq_true, h.isEmpty_iff, hjobs]
  rw [Deque.reset, if_pos hfull]

/-- An empty deque that is at its first slot is not changed by a reset. -/
theorem reset_of_bottom_eq_zero
    (h : d.Holds [])
    (hzero : d.bottom = 0) :
    d.reset = .ok d := by
  have hends : d.bottom.toNat = d.age.top.toNat := h.bottom_eq
  have htop : d.age.top = 0 := by
    rw [← UInt32.toNat_inj, ← hends, hzero]
  rw [Deque.reset, h.isEmpty_iff.mpr rfl, if_neg Bool.noConfusion, if_pos ⟨htop, hzero⟩]

/-- A reset starts an empty deque again with the next tag, if it is not at its first slot. -/
theorem reset_of_bottom_ne_zero
    (h : d.Holds [])
    (hzero : d.bottom ≠ 0) :
    d.reset =
      match d.age.restarted? with
      | none => .error (.error .tagExhausted)
      | some fresh => .ok { d with bottom := 0, ageWord := fresh.pack } := by
  have hempty : d.isEmpty = true := h.isEmpty_iff.mpr rfl
  cases hfresh : d.age.restarted? <;> simp [Deque.reset, hempty, hzero, hfresh]

/-- A reset puts an empty deque to its first slot. -/
theorem reset_nil
    (h : d.Holds []) :
    (∃ e, d.reset = .ok e ∧ e.Holds [] ∧ e.capacity = d.capacity ∧ e.bottom = 0 ∧
        e.age.top = 0) ∨
      d.reset = .error (.error .tagExhausted) := by
  by_cases hzero : d.bottom = 0
  · have hends : d.bottom.toNat = d.age.top.toNat := h.bottom_eq
    have htop : d.age.top = 0 := by
      rw [← UInt32.toNat_inj, ← hends, hzero]
    exact Or.inl ⟨d, h.reset_of_bottom_eq_zero hzero, h, rfl, hzero, htop⟩
  · rw [h.reset_of_bottom_ne_zero hzero]
    cases hfresh : d.age.restarted? with
    | none =>
        exact Or.inr rfl
    | some fresh =>
        obtain ⟨-, htop⟩ := Age.restarted?_eq_some.mp hfresh
        obtain ⟨hnil, hage⟩ := restarted d htop
        exact Or.inl ⟨_, rfl, hnil, rfl, rfl, by rw [hage, htop]⟩

end Holds
end Deque
end WorkStealing
