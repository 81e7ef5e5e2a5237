import WorkStealing.Proofs.Deque.Sequential

/-!
# Clean deques and their tags

A deque is clean when it is empty and starts with its first slot. A reset makes an
empty deque clean, and panics when there is a job in it. Only a pop or a reset that
brings a deque back to its first slot gives it another tag.
-/

namespace WorkStealing
namespace Deque

variable {α : Type}

/-- The deque is empty, and starts with its first slot. -/
structure IsClean (d : Deque α) : Prop where
  empty : d.isEmpty = true
  bottom : d.bottom = 0
  top : d.age.top = 0

/-- A deque can be reset only when it is empty, and is clean then. -/
theorem clean_of_reset
    {d e : Deque α}
    (h : d.reset = .ok e) :
    d.isEmpty = true ∧ e.IsClean := by
  obtain ⟨hempty, ⟨⟨htop, hbottom⟩, rfl⟩ | ⟨fresh, hfresh, rfl⟩⟩ := reset_eq_ok h
  · exact ⟨hempty, hempty, hbottom, htop⟩
  · refine ⟨hempty, ?_, rfl, ?_⟩
    · rw [isEmpty, size]
      exact decide_eq_true (Nat.zero_sub _)
    · rw [age, Age.unpack_pack]
      exact (Age.restarted?_eq_some.mp hfresh).2

/-- The reset of a deque panics only when there is a job in it. -/
theorem nonempty_of_reset
    {d : Deque α} {cause : Panic}
    (h : d.reset = .error (.panic cause)) :
    d.isEmpty = false := by
  rw [Deque.reset] at h
  by_cases hempty : d.isEmpty = false
  · exact hempty
  · rw [if_neg hempty] at h
    by_cases hfirst : d.age.top = 0 ∧ d.bottom = 0
    · rw [if_pos hfirst] at h
      cases h
    · rw [if_neg hfirst] at h
      cases hfresh : d.age.restarted? <;> rw [hfresh] at h <;> cases h

/-- An empty deque is reset, if it need not be given another tag or can be given one. -/
theorem exists_reset
    {d : Deque α}
    (hempty : d.isEmpty = true)
    (hfirst : d.bottom = 0 → d.age.top = 0)
    (hspare : d.bottom ≠ 0 → d.age.restarted? ≠ none) :
    ∃ e, d.reset = .ok e := by
  rw [Deque.reset, hempty, if_neg Bool.noConfusion]
  by_cases hbottom : d.bottom = 0
  · rw [if_pos ⟨hfirst hbottom, hbottom⟩]
    exact ⟨d, rfl⟩
  · rw [if_neg fun h => hbottom h.2]
    obtain ⟨fresh, hfresh⟩ := Option.ne_none_iff_exists'.mp (hspare hbottom)
    rw [hfresh]
    exact ⟨_, rfl⟩

/-- A steal takes nothing from the bottom and gives no tag. -/
theorem steal_keeps
    (d : Deque α) :
    d.steal.1.bottom = d.bottom ∧ d.steal.1.age.tag = d.age.tag := by
  rw [steal, Routine.steal, Routine.run, Routine.stealAt, Routine.run]
  by_cases hempty : d.bottom ≤ (Age.unpack d.ageWord).top
  · rw [if_pos hempty]
    exact ⟨rfl, rfl⟩
  · rw [if_neg hempty, Routine.run]
    by_cases hslot : (Age.unpack d.ageWord).top.toNat < d.capacity
    · rw [if_pos hslot, Routine.claim]
      cases hnext : Age.next? (Age.unpack d.ageWord).top with
      | none =>
          exact ⟨rfl, rfl⟩
      | some top =>
          simp only [Routine.run, if_true]
          have htag := congrArg Age.tag (Age.unpack_pack { Age.unpack d.ageWord with top })
          exact ⟨trivial, htag⟩
    · rw [if_neg hslot]
      exact ⟨rfl, rfl⟩

/-- Where a pop has found no other jobs above the last one, it starts the deque again. -/
theorem run_contend
    (d : Deque α) (bottom : UInt32) (job : Option α) :
    d.age.restarted? = none ∧
        (Routine.contend bottom job d.ageWord).run d = (d, .error (.error .tagExhausted)) ∨
      ∃ fresh, d.age.restarted? = some fresh ∧
        ((Routine.contend bottom job d.ageWord).run d).1 = { d with ageWord := fresh.pack } := by
  rw [Routine.contend]
  cases hfresh : (Age.unpack d.ageWord).restarted? with
  | none =>
      exact Or.inl ⟨hfresh, rfl⟩
  | some fresh =>
      refine Or.inr ⟨fresh, hfresh, ?_⟩
      simp only
      split
      · rw [Routine.run, if_pos rfl]
        rfl
      · rfl

/-- A pop does nothing to a deque that has been used up to its first slot only. Else it lifts the
bottom; or it starts the deque again, for which it needs a new tag. -/
theorem pop_cases
    (d : Deque α) :
    (d.bottom = 0 ∧ d.pop = (d, .ok none)) ∨
      d.bottom ≠ 0 ∧
        (d.pop.1 = { d with bottom := d.bottom - 1 } ∨
          d.age.restarted? = none ∧
            d.pop = ({ d with bottom := 0 }, .error (.error .tagExhausted)) ∨
          ∃ fresh, d.age.restarted? = some fresh ∧
            d.pop.1 = { d with bottom := 0, ageWord := fresh.pack }) := by
  by_cases hzero : d.bottom = 0
  · refine Or.inl ⟨hzero, ?_⟩
    rw [pop, Routine.pop, Routine.run, if_pos hzero]
    rfl
  · refine Or.inr ⟨hzero, ?_⟩
    rw [pop, Routine.pop, Routine.run, if_neg hzero, Routine.run, Routine.run]
    by_cases hslot : (d.bottom - 1).toNat < d.capacity
    · rw [if_pos hslot, Routine.run, Routine.popAt]
      by_cases hmore : (Age.unpack d.ageWord).top < d.bottom - 1
      · rw [if_pos hmore]
        exact Or.inl rfl
      · rw [if_neg hmore, Routine.run]
        exact Or.inr (run_contend { d with bottom := 0 } _ _)
    · rw [if_neg hslot]
      exact Or.inl rfl

/-- A pop that leaves something in use below the first slot has not changed the age. -/
theorem pop_keeps
    (d : Deque α)
    (hbottom : d.pop.1.bottom ≠ 0) :
    d.bottom ≠ 0 ∧ d.pop.1.age = d.age := by
  rcases d.pop_cases with ⟨hzero, hpop⟩ | ⟨hzero, hlifted | ⟨-, hpop⟩ | ⟨fresh, -, hfirst⟩⟩
  · rw [hpop] at hbottom
    exact absurd hzero hbottom
  · rw [hlifted]
    exact ⟨hzero, rfl⟩
  · rw [hpop] at hbottom
    exact absurd rfl hbottom
  · rw [hfirst] at hbottom
    exact absurd rfl hbottom

/-- A push leaves the age as it is. -/
theorem push_keeps
    (d : Deque α) (job : α) :
    (d.push job).1.age = d.age := by
  rw [push, Routine.push, Routine.run]
  by_cases hroom : d.bottom.toNat < d.capacity
  · rw [if_pos hroom, Routine.run, if_pos hroom, Routine.publish]
    cases Age.next? d.bottom <;> rfl
  · rw [if_neg hroom]
    rfl

/-- A pop that succeeds leaves the age as it is, or the deque starts again with the next one. -/
theorem pop_age
    {d e : Deque α} {answer : Option α}
    (h : d.pop = (e, .ok answer)) :
    e.age = d.age ∨ d.age.restarted? = some e.age := by
  have hcases := d.pop_cases
  rw [h] at hcases
  rcases hcases with ⟨-, heq⟩ | ⟨-, rfl | ⟨-, heq⟩ | ⟨fresh, hfresh, rfl⟩⟩
  · cases heq
    exact Or.inl rfl
  · exact Or.inl rfl
  · cases heq
  · right
    rw [hfresh]
    exact congrArg some (Age.unpack_pack fresh).symm

/-- A pop that succeeds advances the tag by one at most. -/
theorem tag_pop
    {d e : Deque α} {answer : Option α}
    (h : d.pop = (e, .ok answer)) :
    e.age.tag.toNat ≤ d.age.tag.toNat + 1 := by
  rcases pop_age h with hage | hage
  · rw [hage]
    exact Nat.le_succ _
  · exact Nat.le_of_eq (Age.restarted?_eq_some.mp hage).1

/-- A clean deque is not changed by a reset. -/
theorem IsClean.reset_eq
    {d : Deque α}
    (h : d.IsClean) :
    d.reset = .ok d := by
  rw [reset, h.empty, if_neg Bool.noConfusion, if_pos ⟨h.top, h.bottom⟩]

end Deque
end WorkStealing
