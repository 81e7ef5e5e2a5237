import WorkStealing.Deque.Age

/-!
# Ages as numbers

The word of an age is the number `tag * UInt32.size + top`. Hence a word and its
halves determine each other, the words of ages are ordered by the tag first,
and both ways in which the age of a deque is ever changed make the word larger:
the top moves on, or the deque starts again with the next tag.
-/

namespace WorkStealing
namespace Age

/-- The value of the word of an age. -/
@[simp] theorem toNat_pack
    (age : Age) :
    age.pack.toNat = age.tag.toNat * UInt32.size + age.top.toNat := by
  have htop : age.top.toNat < 2 ^ 32 := age.top.toNat_lt
  have htag : age.tag.toNat < 2 ^ 32 := age.tag.toNat_lt
  have hshift : age.tag.toNat <<< 32 % 2 ^ 64 = age.tag.toNat <<< 32 := by
    rw [Nat.shiftLeft_eq]
    omega
  have hor : age.tag.toNat <<< 32 ||| age.top.toNat = age.tag.toNat <<< 32 + age.top.toNat :=
    (Nat.shiftLeft_add_eq_or_of_lt htop _).symm
  rw [pack, UInt64.toNat_or, UInt64.toNat_shiftLeft, UInt32.toNat_toUInt64,
    UInt32.toNat_toUInt64]
  show age.tag.toNat <<< 32 % 2 ^ 64 ||| age.top.toNat = _
  rw [hshift, hor, Nat.shiftLeft_eq]

/-- The tag is the high half of the word. -/
@[simp] theorem tag_unpack
    (word : UInt64) :
    (unpack word).tag.toNat = word.toNat / UInt32.size := by
  have hword : word.toNat < 2 ^ 64 := word.toNat_lt
  rw [unpack, UInt64.toNat_toUInt32, UInt64.toNat_shiftRight, Nat.shiftRight_eq_div_pow]
  show word.toNat / 2 ^ 32 % 2 ^ 32 = word.toNat / 2 ^ 32
  omega

/-- The top is the low half of the word. -/
@[simp] theorem top_unpack
    (word : UInt64) :
    (unpack word).top.toNat = word.toNat % UInt32.size := by
  rw [unpack, UInt64.toNat_toUInt32]

/-- An age is read back from its word. -/
@[simp] theorem unpack_pack
    (age : Age) :
    unpack age.pack = age := by
  have hsize : UInt32.size = 2 ^ 32 := rfl
  have htop : age.top.toNat < 2 ^ 32 := age.top.toNat_lt
  have h1 : (unpack age.pack).tag = age.tag := by
    apply UInt32.toNat_inj.mp
    rw [tag_unpack, toNat_pack, hsize]
    omega
  have h2 : (unpack age.pack).top = age.top := by
    apply UInt32.toNat_inj.mp
    rw [top_unpack, toNat_pack, hsize]
    omega
  cases hage : unpack age.pack
  cases age
  simp_all

/-- Each word is the word of an age. -/
@[simp] theorem pack_unpack
    (word : UInt64) :
    (unpack word).pack = word := by
  apply UInt64.toNat_inj.mp
  rw [toNat_pack, tag_unpack, top_unpack]
  exact Nat.div_add_mod' _ _

theorem next?_eq_some
    {word next : UInt32} :
    next? word = some next ↔ next.toNat = word.toNat + 1 := by
  have hnext : next.toNat < 2 ^ 32 := next.toNat_lt
  have hsize : UInt32.size = 2 ^ 32 := rfl
  unfold next?
  constructor
  · intro h
    split at h
    · cases h
      rw [UInt32.toNat_add]
      simp only [UInt32.toNat_one]
      omega
    · cases h
  · intro h
    rw [if_pos (by omega)]
    congr 1
    apply UInt32.toNat_inj.mp
    rw [UInt32.toNat_add]
    simp only [UInt32.toNat_one]
    omega

theorem next?_eq_none
    {word : UInt32} :
    next? word = none ↔ word.toNat + 1 = UInt32.size := by
  have hword : word.toNat < 2 ^ 32 := word.toNat_lt
  have hsize : UInt32.size = 2 ^ 32 := rfl
  simp only [next?, ite_eq_right_iff, reduceCtorEq, imp_false]
  omega

theorem exists_next
    {word : UInt32}
    (h : word.toNat + 1 < UInt32.size) :
    ∃ next, next? word = some next ∧ next.toNat = word.toNat + 1 := by
  cases hnext : next? word with
  | none =>
      have hfull := next?_eq_none.mp hnext
      omega
  | some next =>
      exact ⟨next, rfl, next?_eq_some.mp hnext⟩

theorem restarted?_eq_some
    {age fresh : Age} :
    age.restarted? = some fresh ↔ fresh.tag.toNat = age.tag.toNat + 1 ∧ fresh.top = 0 := by
  rw [restarted?, Option.map_eq_some_iff]
  constructor
  · rintro ⟨tag, htag, rfl⟩
    exact ⟨next?_eq_some.mp htag, rfl⟩
  · rintro ⟨htag, htop⟩
    refine ⟨fresh.tag, next?_eq_some.mpr htag, ?_⟩
    rw [← htop]

theorem restarted?_eq_none
    {age : Age} :
    age.restarted? = none ↔ age.tag.toNat + 1 = UInt32.size := by
  rw [restarted?, Option.map_eq_none_iff, next?_eq_none]

end Age
end WorkStealing
