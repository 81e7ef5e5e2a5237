import Mathlib.Data.Prod.Lex
import WorkStealing.Proofs.Machine.Advance

/-!
# Fair schedules

An endless schedule is fair to so many threads when each of them has a turn again
and again. What a system comes to under a fair schedule is shown with ranks: each
rank names a thread that helps, whose next turn lowers the rank, and the turns of
the others do not raise it (`IsFair.leads`).
-/

namespace WorkStealing
namespace Machine

/-- The first so many turns of an endless schedule. -/
def turns (σ : Nat → Nat) (n : Nat) : List Nat :=
  (List.range n).map σ

theorem turns_succ
    (σ : Nat → Nat) (n : Nat) :
    turns σ (n + 1) = turns σ n ++ [σ n] := by
  rw [turns, List.range_succ, List.map_append]
  rfl

/-- Each of the first so many threads has a turn again and again. -/
def IsFair (count : Nat) (σ : Nat → Nat) : Prop :=
  ∀ t, t < count → ∀ n, ∃ m, n ≤ m ∧ σ m = t

/-- Threads that take turns in their order are treated fairly. -/
theorem isFair_mod
    (count : Nat) :
    IsFair count (· % count) := by
  intro t ht n
  refine ⟨n * count + t, ?_, ?_⟩
  · exact Nat.le_add_right_of_le (Nat.le_mul_of_pos_right n (Nat.zero_lt_of_lt ht))
  · exact (Nat.mul_add_mod' n count t).trans (Nat.mod_eq_of_lt ht)

theorem System.run_turns_succ
    (s : System) (σ : Nat → Nat) (n : Nat) :
    s.run (turns σ (n + 1)) = (s.run (turns σ n)).advance (σ n) := by
  rw [turns_succ, System.run_append]
  rfl

/-- A system comes to the goal if a turn of the thread that helps lowers the rank or reaches the
goal, and a turn of any other thread does so or leaves rank and help as they are. The induction is
on the rank, and for each rank on the number of turns before that of the thread that helps. -/
theorem IsFair.leads
    {ρ : Type} {lower : ρ → ρ → Prop}
    (hwell : WellFounded lower)
    {count : Nat} (Ranked : ρ → Nat → System → Prop) (Goal : System → Prop)
    (hcount : ∀ k t s, Ranked k t s → t < count)
    (hturn : ∀ k t s, Ranked k t s →
      Goal (s.advance t) ∨ ∃ l u, lower l k ∧ Ranked l u (s.advance t))
    (hother : ∀ k t s i, Ranked k t s → i ≠ t →
      Goal (s.advance i) ∨ (∃ l u, lower l k ∧ Ranked l u (s.advance i)) ∨
        Ranked k t (s.advance i))
    {s : System} {σ : Nat → Nat}
    (hfair : IsFair count σ)
    {n : Nat} {k : ρ} {t : Nat}
    (h : Ranked k t (s.run (turns σ n))) :
    ∃ m, n ≤ m ∧ Goal (s.run (turns σ m)) := by
  induction k using hwell.induction generalizing n t with
  | _ k ih =>
      obtain ⟨m, hm, hhelper⟩ := hfair t (hcount k t _ h) n
      obtain ⟨d, rfl⟩ := Nat.exists_eq_add_of_le hm
      clear hm
      induction d generalizing n with
      | zero =>
          have hnext := hturn k t _ h
          rw [← hhelper, Nat.add_zero, ← System.run_turns_succ] at hnext
          rcases hnext with hgoal | ⟨l, u, hlower, hranked⟩
          · exact ⟨n + 1, Nat.le_succ n, hgoal⟩
          · obtain ⟨m, hm, hgoal⟩ := ih l hlower hranked
            exact ⟨m, Nat.le_of_succ_le hm, hgoal⟩
      | succ d ihTurn =>
          have hnext : Goal (s.run (turns σ (n + 1))) ∨
              (∃ l u, lower l k ∧ Ranked l u (s.run (turns σ (n + 1)))) ∨
                Ranked k t (s.run (turns σ (n + 1))) := by
            rw [System.run_turns_succ]
            by_cases hself : σ n = t
            · rw [hself]
              exact (hturn k t _ h).imp_right Or.inl
            · exact hother k t _ (σ n) h hself
          rcases hnext with hgoal | ⟨l, u, hlower, hranked⟩ | hranked
          · exact ⟨n + 1, Nat.le_succ n, hgoal⟩
          · obtain ⟨m, hm, hgoal⟩ := ih l hlower hranked
            exact ⟨m, Nat.le_of_succ_le hm, hgoal⟩
          · have hlater : σ (n + 1 + d) = t := by
              rw [Nat.add_assoc, Nat.add_comm 1 d]
              exact hhelper
            obtain ⟨m, hm, hgoal⟩ := ihTurn hranked hlater
            exact ⟨m, Nat.le_of_succ_le hm, hgoal⟩

end Machine
end WorkStealing
