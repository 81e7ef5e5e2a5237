import Mathlib.Data.FinEnum
import Mathlib.Data.LawfulXor.Basic
import Mathlib.Data.Nat.ModEq
import WorkStealing.Victim

/-!
# The mix is a permutation

The mix of a word is made in six steps. Four of them move bits up: what they write into
a bit depends on that bit and on those below it, so that the word can be read off from
the lowest bit on. Two of them move bits down, and there a word with the same image
differs by bits that were moved down from themselves, of which there are none. So each
step tells words apart, and the mix takes each value once.
-/

namespace WorkStealing
namespace Victim

/-- A step that moves bits up: two words that agree in their lowest bits, and whose images agree
in one bit more, agree in one bit more themselves. -/
def Ascends (f : UInt32 → UInt32) : Prop :=
  ∀ m < 32, ∀ a b : UInt32, a.toNat ≡ b.toNat [MOD 2 ^ m] →
    (f a).toNat ≡ (f b).toNat [MOD 2 ^ (m + 1)] → a.toNat ≡ b.toNat [MOD 2 ^ (m + 1)]

/-- A step that moves bits up tells words apart. The induction is on the number of bits in which
two words with the same image agree. -/
theorem Ascends.injective
    {f : UInt32 → UInt32}
    (h : Ascends f) :
    Function.Injective f := by
  intro a b hab
  have hagree : ∀ m ≤ 32, a.toNat ≡ b.toNat [MOD 2 ^ m] := by
    intro m
    induction m with
    | zero =>
        intro _
        exact Nat.modEq_one
    | succ m ih =>
        intro hm
        refine h m hm a b (ih (Nat.le_of_succ_le hm)) ?_
        rw [hab]
  apply UInt32.toNat_inj.mp
  exact Nat.ModEq.eq_of_lt_of_lt (hagree 32 le_rfl) a.toNat_lt b.toNat_lt

variable {a b k : UInt32} {m : Nat}

/-- The lowest bits of a sum are those of the sum of numbers. -/
theorem add_modEq
    (hm : m ≤ 32)
    (a b : UInt32) :
    (a + b).toNat ≡ a.toNat + b.toNat [MOD 2 ^ m] := by
  rw [UInt32.toNat_add]
  exact (Nat.mod_modEq _ _).of_dvd (pow_dvd_pow 2 hm)

/-- Words that agree in their lowest bits agree in one bit more after these have moved up. -/
theorem shiftLeft_modEq
    (hm : m < 32)
    (hk : 0 < k.toNat % 32)
    (h : a.toNat ≡ b.toNat [MOD 2 ^ m]) :
    (a <<< k).toNat ≡ (b <<< k).toNat [MOD 2 ^ (m + 1)] := by
  have hcut : ∀ c : UInt32, (c <<< k).toNat ≡ c.toNat * 2 ^ (k.toNat % 32) [MOD 2 ^ (m + 1)] := by
    intro c
    rw [UInt32.toNat_shiftLeft, Nat.shiftLeft_eq]
    exact (Nat.mod_modEq _ _).of_dvd (pow_dvd_pow 2 hm)
  have hmoved : a.toNat * 2 ^ (k.toNat % 32) ≡ b.toNat * 2 ^ (k.toNat % 32) [MOD 2 ^ (m + 1)] := by
    refine (h.mul_right' (2 ^ (k.toNat % 32))).of_dvd ?_
    rw [← pow_add]
    exact pow_dvd_pow 2 (Nat.add_le_add_left hk m)
  exact (hcut a).trans (hmoved.trans (hcut b).symm)

theorem ascends_add_add
    (c k : UInt32)
    (hk : 0 < k.toNat % 32) :
    Ascends fun a => (a + c) + (a <<< k) := by
  intro m hm a b hlow himage
  have hmoved := shiftLeft_modEq hm hk hlow
  have hsum : ∀ d : UInt32, ((d + c) + (d <<< k)).toNat ≡
      d.toNat + c.toNat + (d <<< k).toNat [MOD 2 ^ (m + 1)] :=
    fun d => (add_modEq hm _ _).trans ((add_modEq hm _ _).add_right _)
  have hboth : a.toNat + c.toNat + (a <<< k).toNat ≡
      b.toNat + c.toNat + (b <<< k).toNat [MOD 2 ^ (m + 1)] :=
    (hsum a).symm.trans (himage.trans (hsum b))
  exact (hmoved.add_right_cancel hboth).add_right_cancel' _

theorem ascends_add_xor
    (c k : UInt32)
    (hk : 0 < k.toNat % 32) :
    Ascends fun a => (a + c) ^^^ (a <<< k) := by
  intro m hm a b hlow himage
  have hmoved : (a <<< k).toNat % 2 ^ (m + 1) = (b <<< k).toNat % 2 ^ (m + 1) :=
    shiftLeft_modEq hm hk hlow
  have hxor : (a + c).toNat % 2 ^ (m + 1) ^^^ (a <<< k).toNat % 2 ^ (m + 1) =
      (b + c).toNat % 2 ^ (m + 1) ^^^ (b <<< k).toNat % 2 ^ (m + 1) := by
    rw [← Nat.xor_mod_two_pow, ← Nat.xor_mod_two_pow, ← UInt32.toNat_xor, ← UInt32.toNat_xor]
    exact himage
  have hsum : (a + c).toNat ≡ (b + c).toNat [MOD 2 ^ (m + 1)] := by
    have hcancel := xor_cancel_right ((a + c).toNat % 2 ^ (m + 1)) ((a <<< k).toNat % 2 ^ (m + 1))
    rw [Nat.ModEq, ← hcancel, hxor, hmoved, xor_cancel_right]
  have hnat := (add_modEq hm a c).symm.trans (hsum.trans (add_modEq hm b c))
  exact hnat.add_right_cancel' _

/-- Only zero is left as it is when its bits are moved down. -/
theorem eq_zero_of_shiftRight_eq
    (hk : 0 < k.toNat % 32)
    (h : a >>> k = a) :
    a = 0 := by
  have hnat : a.toNat / 2 ^ (k.toNat % 32) = a.toNat := by
    rw [← Nat.shiftRight_eq_div_pow, ← UInt32.toNat_shiftRight, h]
  by_contra hne
  have hpos : 0 < a.toNat := Nat.pos_of_ne_zero fun hzero => hne (UInt32.toNat_inj.mp hzero)
  have hlt := Nat.div_lt_self hpos (Nat.one_lt_two_pow hk.ne')
  omega

/-- A step that moves bits down tells words apart. -/
theorem injective_xor_xor
    (c k : UInt32)
    (hk : 0 < k.toNat % 32) :
    Function.Injective fun a : UInt32 => (a ^^^ c) ^^^ (a >>> k) := by
  intro a b hab
  have hswap : ∀ x : UInt32, (x ^^^ c) ^^^ (x >>> k) = (x ^^^ (x >>> k)) ^^^ c := by
    intro x
    rw [UInt32.xor_assoc, UInt32.xor_comm c, ← UInt32.xor_assoc]
  have hsame : a ^^^ (a >>> k) = b ^^^ (b >>> k) := by
    rw [← UInt32.xor_left_inj c, ← hswap, ← hswap]
    exact hab
  have hdown : (a ^^^ b) >>> k = a ^^^ b := by
    rw [UInt32.shiftRight_xor, ← xor_cancel_left a (a >>> k), hsame, UInt32.xor_assoc,
      xor_cancel_right]
  exact UInt32.xor_eq_zero_iff.mp (eq_zero_of_shiftRight_eq hk hdown)

/-- The mix takes each value once. -/
theorem mix_bijective : Function.Bijective mix := by
  rw [← Finite.injective_iff_bijective]
  have hfirst := (ascends_add_add 0x7ed55d16 12 (by decide)).injective
  have hsecond := injective_xor_xor 0xc761c23c 19 (by decide)
  have hthird := (ascends_add_add 0x165667b1 5 (by decide)).injective
  have hfourth := (ascends_add_xor 0xd3a2646c 9 (by decide)).injective
  have hfifth := (ascends_add_add 0xfd7046c5 3 (by decide)).injective
  have hsixth := injective_xor_xor 0xb55a4f09 16 (by decide)
  exact hsixth.comp (hfifth.comp (hfourth.comp (hthird.comp (hsecond.comp hfirst))))

/-- The lower half of the number of an attempt takes every value. -/
theorem exists_attempt_eq
    (attempt : UInt64) (wanted : UInt32) :
    ∃ more < UInt32.size, (attempt + UInt64.ofNat more).toUInt32 = wanted := by
  refine ⟨((wanted - attempt.toUInt32).toUInt64).toNat, ?_, ?_⟩
  · rw [UInt32.toNat_toUInt64]
    exact UInt32.toNat_lt _
  · rw [UInt64.ofNat_toNat, UInt64.toUInt32_add, UInt32.toUInt32_toUInt64, UInt32.add_comm,
      UInt32.sub_add_cancel]

/-- Among at most 2^32 deques each one is chosen by one of 2^32 attempts in a row. -/
theorem exists_choose_eq
    {deques target : UInt64}
    (hdeques : deques.toNat ≤ UInt32.size)
    (htarget : target.toNat < deques.toNat)
    (worker attempt : UInt64) :
    ∃ more < UInt32.size, choose worker (attempt + UInt64.ofNat more) deques = .ok target := by
  obtain ⟨mixed, hmixed⟩ := mix_bijective.surjective (target.toUInt32 - mix worker.toUInt32)
  obtain ⟨more, hmore, hattempt⟩ := exists_attempt_eq attempt mixed
  have hzero : deques ≠ 0 := by
    intro heq
    rw [heq] at htarget
    exact Nat.not_lt_zero _ htarget
  refine ⟨more, hmore, ?_⟩
  rw [choose, if_neg hzero, hattempt, hmixed, UInt32.add_comm, UInt32.sub_add_cancel]
  congr 1
  apply UInt64.toNat_inj.mp
  rw [UInt64.toNat_mod, UInt32.toNat_toUInt64, UInt64.toNat_toUInt32,
    Nat.mod_eq_of_lt (Nat.lt_of_lt_of_le htarget hdeques), Nat.mod_eq_of_lt htarget]

end Victim
end WorkStealing
