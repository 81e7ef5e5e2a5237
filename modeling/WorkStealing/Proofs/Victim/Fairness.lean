import Mathlib.Algebra.Order.Floor.Div
import Mathlib.Data.Int.CardIntervalMod
import WorkStealing.Proofs.Victim.Permutation

/-!
# Each deque has its share of the probes

The mixes of 2^32 attempts in a row are all words, each once, and so are their sums with
the mix of a worker. So among the probes of these attempts a deque is chosen as often as
there are words that leave its number when they are divided by the number of deques
(`Victim.probes_fair`). Nothing depends on the worker, or on the attempt with which the
probes start.
-/

namespace WorkStealing
namespace Victim

/-- The word that is divided by the number of deques for one of the attempts from the first on. -/
def drawn (worker first : UInt64) (more : Nat) : UInt32 :=
  mix worker.toUInt32 + mix (first + .ofNat more).toUInt32

/-- How often a deque is found among the remainders of some words. -/
theorem count_remainders
    (draw : Nat → UInt32) (deques target : UInt64) (attempts : List Nat) :
    (attempts.map fun more => (draw more).toUInt64 % deques).count target =
      attempts.countP fun more => (draw more).toNat % deques.toNat = target.toNat := by
  rw [List.count, List.countP_map]
  refine List.countP_congr fun more _ => ?_
  rw [Function.comp_apply, beq_iff_eq, decide_eq_true_iff, ← UInt64.toNat_inj, UInt64.toNat_mod,
    UInt32.toNat_toUInt64]

/-- Where there are deques, each probe chooses one, by the remainder of what is drawn. -/
theorem exists_probes
    {deques : UInt64}
    (hdeques : deques ≠ 0)
    (worker first : UInt64) (count : Nat) :
    ∃ chosen, probes worker first deques count = .ok chosen ∧ chosen.length = count ∧
      ∀ target, chosen.count target =
        Nat.count (fun more => (drawn worker first more).toNat % deques.toNat = target.toNat)
          count := by
  have hchoose : ∀ more, choose worker (first + .ofNat more) deques =
      .ok ((drawn worker first more).toUInt64 % deques) := by
    intro more
    rw [choose, if_neg hdeques, drawn]
  refine ⟨(List.range count).map fun more => (drawn worker first more).toUInt64 % deques, ?_, ?_,
    fun target => count_remainders (drawn worker first) deques target (List.range count)⟩
  · simp only [probes, hchoose]
    exact List.mapM_pure
  · rw [List.length_map, List.length_range]

/-- Among 2^32 attempts in a row no two draw the same word. -/
theorem drawn_injOn
    (worker first : UInt64) :
    Set.InjOn (drawn worker first) (Finset.range UInt32.size) := by
  intro i hi j hj heq
  have hmix : mix (first + .ofNat i).toUInt32 = mix (first + .ofNat j).toUInt32 :=
    UInt32.add_right_inj _ |>.mp heq
  have hattempt := mix_bijective.injective hmix
  rw [UInt64.toUInt32_add, UInt64.toUInt32_add, UInt32.add_right_inj] at hattempt
  have hnat := congrArg UInt32.toNat hattempt
  rw [Finset.coe_range, Set.mem_Iio] at hi hj
  have hsize : UInt32.size = 2 ^ 32 := rfl
  simp only [UInt64.toNat_toUInt32, UInt64.toNat_ofNat'] at hnat
  omega

/-- A word with any property is drawn by as many of 2^32 attempts in a row as there are such
words. -/
theorem count_drawn
    (p : Nat → Prop) [DecidablePred p]
    (worker first : UInt64) :
    Nat.count (fun more => p (drawn worker first more).toNat) UInt32.size =
      Nat.count p UInt32.size := by
  rw [Nat.count_eq_card_filter_range, Nat.count_eq_card_filter_range]
  let draw (more : Nat) : Nat := (drawn worker first more).toNat
  have hmaps : ∀ more ∈ Finset.range UInt32.size, draw more ∈ Finset.range UInt32.size :=
    fun more _ => Finset.mem_range.mpr (UInt32.toNat_lt _)
  have hinj : Set.InjOn draw (Finset.range UInt32.size) :=
    fun i hi j hj heq => drawn_injOn worker first hi hj (UInt32.toNat_inj.mp heq)
  have himage : (Finset.range UInt32.size).image draw = Finset.range UInt32.size := by
    refine Finset.eq_of_subset_of_card_le (Finset.image_subset_iff.mpr hmaps) ?_
    rw [Finset.card_image_of_injOn hinj]
  refine Finset.card_bij (fun more _ => draw more) ?_ ?_ ?_
  · intro more hmore
    obtain ⟨hrange, hp⟩ := Finset.mem_filter.mp hmore
    exact Finset.mem_filter.mpr ⟨hmaps more hrange, hp⟩
  · intro i hi j hj heq
    exact hinj (Finset.mem_filter.mp hi).1 (Finset.mem_filter.mp hj).1 heq
  · intro word hword
    obtain ⟨hrange, hp⟩ := Finset.mem_filter.mp hword
    obtain ⟨more, hmore, rfl⟩ := Finset.mem_image.mp (himage.symm ▸ hrange)
    exact ⟨more, Finset.mem_filter.mpr ⟨hmore, hp⟩, rfl⟩

/-- How many numbers below a bound leave a remainder. -/
theorem count_mod
    {divisor remainder : Nat}
    (hremainder : remainder < divisor)
    (bound : Nat) :
    Nat.count (fun number => number % divisor = remainder) bound =
      bound / divisor + if remainder < bound % divisor then 1 else 0 := by
  have hcount := Nat.count_modEq_card bound (Nat.zero_lt_of_lt hremainder) remainder
  simpa only [Nat.ModEq, Nat.mod_eq_of_lt hremainder] using hcount

/-- All remainders are left equally often, as far as the numbers go. -/
theorem count_mod_eq_or
    {divisor remainder : Nat}
    (hremainder : remainder < divisor)
    (bound : Nat) :
    Nat.count (fun number => number % divisor = remainder) bound = bound / divisor ∨
      Nat.count (fun number => number % divisor = remainder) bound = bound ⌈/⌉ divisor := by
  have hpos := Nat.zero_lt_of_lt hremainder
  rw [count_mod hremainder]
  by_cases hleft : remainder < bound % divisor
  · right
    have hlast := Nat.mod_lt bound hpos
    have hceil : bound + divisor - 1 =
        bound % divisor - 1 + divisor * (bound / divisor + 1) := by
      have hdivide := Nat.mod_add_div bound divisor
      rw [Nat.mul_add, Nat.mul_one]
      omega
    have hnone : (bound % divisor - 1) / divisor = 0 := Nat.div_eq_of_lt (by omega)
    rw [if_pos hleft, Nat.ceilDiv_eq_add_pred_div, hceil, Nat.add_mul_div_left _ _ hpos, hnone,
      Nat.zero_add]
  · left
    rw [if_neg hleft, Nat.add_zero]

/-- A mix is made of each word once. Among 2^32 attempts in a row, whatever the worker and the first
attempt are, a deque is chosen as often as there are words that leave its number when they are
divided by the number of deques; so all deques are chosen equally often as far as that goes, and
none is left out. -/
theorem probes_fair
    {deques target : UInt64}
    (hdeques : deques.toNat ≤ UInt32.size)
    (htarget : target < deques)
    (worker first : UInt64) :
    Function.Bijective mix ∧
    ∃ chosen, probes worker first deques UInt32.size = .ok chosen ∧
      chosen.length = UInt32.size ∧
      chosen.count target =
        Nat.count (fun word => word % deques.toNat = target.toNat) UInt32.size ∧
      (chosen.count target = UInt32.size / deques.toNat ∨
        chosen.count target = UInt32.size ⌈/⌉ deques.toNat) ∧
      target ∈ chosen := by
  have hlt : target.toNat < deques.toNat := htarget
  have hpos := Nat.zero_lt_of_lt hlt
  have hzero : deques ≠ 0 := by
    rintro rfl
    exact Nat.not_lt_zero _ hlt
  obtain ⟨chosen, hchosen, hlength, hcount⟩ := exists_probes hzero worker first UInt32.size
  have hexact : chosen.count target =
      Nat.count (fun word => word % deques.toNat = target.toNat) UInt32.size :=
    (hcount target).trans (count_drawn (· % deques.toNat = target.toNat) worker first)
  have hfloor : 0 < UInt32.size / deques.toNat := Nat.div_pos hdeques hpos
  refine ⟨mix_bijective, chosen, hchosen, hlength, hexact, ?_, ?_⟩
  · rw [hexact]
    exact count_mod_eq_or hlt UInt32.size
  · rw [← List.count_pos_iff, hexact, count_mod hlt]
    exact Nat.add_pos_left hfloor _

/-- Three deques, and attempts whose numbers wrap at once. -/
theorem probes_fair_three :
    (3 : UInt64).toNat ≤ UInt32.size ∧ (0 : UInt64) < 3 ∧
      ∃ chosen, probes 7 18446744073709551615 3 UInt32.size = .ok chosen ∧
        chosen.count 0 = 1431655766 := by
  have hdeques : (3 : UInt64).toNat ≤ UInt32.size := by decide
  have htarget : (0 : UInt64) < 3 := by decide
  obtain ⟨-, chosen, hchosen, -, hcount, -⟩ :=
    probes_fair hdeques htarget 7 18446744073709551615
  refine ⟨hdeques, htarget, chosen, hchosen, hcount.trans ?_⟩
  exact (count_mod (show (0 : UInt64).toNat < (3 : UInt64).toNat by decide) _).trans (by decide)

end Victim
end WorkStealing
