import WorkStealing.Deque.Contest
import WorkStealing.Proofs.Deque.Contents

/-!
# Where the users of a contested deque are

Between two accesses of its routine, a user of a deque relies on what it has
read, although others may have changed the deque since. This module says, for
each point of each routine, what can still be relied on. It speaks of the list
`live` of occurrences that were pushed and not yet given out: they stand in the
slots from the top on.

The owner alone moves the bottom, so it knows where `live` ends. In the middle
of a pop the bottom stands before the last occurrence, and for a moment it can
stand before the top. A thief knows nothing about the deque once the age has
changed, and an age that has changed never comes back, because every change
makes the word larger; as long as the age is the one that it has read, the
occurrence at the top is the one that it has read.
-/

namespace WorkStealing

variable {α : Type}

/-- The occurrences stand in the slots from the top on. -/
structure Deque.Stores (d : Deque α) (live : List α) : Prop where
  reads : d.ReadsFrom d.age.top.toNat live
  fits : d.age.top.toNat + live.length ≤ d.capacity

def Deque.EndsAt (d : Deque α) (live : List α) (index : Nat) : Prop :=
  index = d.age.top.toNat + live.length

/-- What the owner can rely on at each point of its routines. -/
inductive OwnerStage (d : Deque (Occurrence α)) (live : List (Occurrence α)) :
    OwnerTask α → Prop
  | idle
      (hend : d.EndsAt live d.bottom.toNat) :
      OwnerStage d live .idle
  | asking
      (hend : d.EndsAt live d.bottom.toNat)
      (o : Occurrence α) :
      OwnerStage d live (.pushing o (.push d.capacity o))
  | writing
      (hend : d.EndsAt live d.bottom.toNat)
      (hroom : d.bottom.toNat < d.capacity)
      (o : Occurrence α) :
      OwnerStage d live (.pushing o (.storeSlot d.bottom o (.publish d.bottom)))
  | publishing
      (hend : d.EndsAt live d.bottom.toNat)
      (hroom : d.bottom.toNat < d.capacity)
      (o : Occurrence α)
      (hslot : d.slot d.bottom.toNat = some o) :
      OwnerStage d live (.pushing o (.publish d.bottom))
  | looking
      (hend : d.EndsAt live d.bottom.toNat) :
      OwnerStage d live (.popping .pop)
  | lifting
      (hend : d.EndsAt live d.bottom.toNat)
      (hpos : d.bottom ≠ 0) :
      OwnerStage d live
        (.popping (.storeBottom (d.bottom - 1)
          (.loadSlot (d.bottom - 1) fun job => .loadAge (.popAt (d.bottom - 1) job))))
  | reading
      (hend : d.EndsAt live (d.bottom.toNat + 1)) :
      OwnerStage d live
        (.popping (.loadSlot d.bottom fun job => .loadAge (.popAt d.bottom job)))
  | weighing
      (hend : d.EndsAt live (d.bottom.toNat + 1))
      (job : Option (Occurrence α))
      (hjob : live ≠ [] → job = live.getLast?) :
      OwnerStage d live (.popping (.loadAge (.popAt d.bottom job)))
  /-- Has seen that at most one is left, and is about to move the bottom to the first slot. -/
  | clearing
      (hend : d.EndsAt live (d.bottom.toNat + 1))
      (job : Option (Occurrence α))
      (hjob : live ≠ [] → job = live.getLast?)
      (word : UInt64)
      (htag : (Age.unpack word).tag = d.age.tag)
      (htop : (Age.unpack word).top.toNat ≤ d.age.top.toNat)
      (hlast : d.bottom.toNat ≤ (Age.unpack word).top.toNat) :
      OwnerStage d live (.popping (.storeBottom 0 (.contend d.bottom job word)))
  | contending
      (hbottom : d.bottom = 0)
      (job : Option (Occurrence α))
      (hjob : live ≠ [] → job = live.getLast?)
      (word : UInt64)
      (hend : d.EndsAt live ((Age.unpack word).top.toNat + 1))
      (htag : (Age.unpack word).tag = d.age.tag)
      (htop : (Age.unpack word).top.toNat ≤ d.age.top.toNat)
      (fresh : Age)
      (hfresh : (Age.unpack word).restarted? = some fresh) :
      OwnerStage d live
        (.popping (.swapAge word fresh.pack fun won =>
          if won then .done job else .restart fresh))
  /-- Has seen that a thief took the last one, and is about to start again. -/
  | restarting
      (hbottom : d.bottom = 0)
      (hlive : live = [])
      (fresh : Age)
      (htag : fresh.tag.toNat = d.age.tag.toNat + 1)
      (htop : fresh.top = 0) :
      OwnerStage d live (.popping (.restart fresh))

/-- What a thief can rely on at each point of its routine. -/
inductive ThiefStage (d : Deque (Occurrence α)) (live : List (Occurrence α)) :
    ThiefTask α → Prop
  | idle : ThiefStage d live .idle
  | starting : ThiefStage d live (.stealing .steal)
  | asking
      (word : UInt64)
      (hle : word.toNat ≤ d.ageWord.toNat) :
      ThiefStage d live (.stealing (.stealAt word))
  /-- Has seen that the deque is not empty, and is about to read the slot at the top. -/
  | reading
      (word : UInt64)
      (hle : word.toNat ≤ d.ageWord.toNat)
      (hslot : (Age.unpack word).top.toNat < d.capacity)
      (hlive : word = d.ageWord → live ≠ []) :
      ThiefStage d live (.stealing (.loadSlot (Age.unpack word).top (.claim word)))
  | claiming
      (word : UInt64)
      (job : Option (Occurrence α))
      (hle : word.toNat ≤ d.ageWord.toNat)
      (hslot : (Age.unpack word).top.toNat < d.capacity)
      (hjob : word = d.ageWord → live ≠ [] ∧ job = live.head?) :
      ThiefStage d live (.stealing (.claim word job))

/-- The bottom never stands after the last occurrence. -/
theorem OwnerStage.bottom_le
    {d : Deque (Occurrence α)} {live : List (Occurrence α)} {task : OwnerTask α}
    (h : OwnerStage d live task) :
    d.bottom.toNat ≤ d.age.top.toNat + live.length := by
  cases h with
  | idle hend | asking hend | writing hend | publishing hend | looking hend | lifting hend =>
      exact Nat.le_of_eq hend
  | reading hend | weighing hend | clearing hend =>
      unfold Deque.EndsAt at hend
      omega
  | contending hbottom | restarting hbottom =>
      rw [hbottom]
      exact Nat.zero_le _

/-- A thief goes on relying on what it has read while the deque changes in such a way that the
age grows, or stays and the oldest occurrence stays too. -/
theorem ThiefStage.transport
    {d e : Deque (Occurrence α)} {live more : List (Occurrence α)} {task : ThiefTask α}
    (h : ThiefStage d live task)
    (hcapacity : e.capacity = d.capacity)
    (hage : d.ageWord.toNat ≤ e.ageWord.toNat)
    (hsame : e.ageWord = d.ageWord → live ≠ [] → more ≠ [] ∧ more.head? = live.head?) :
    ThiefStage e more task := by
  have heq : ∀ word : UInt64, word.toNat ≤ d.ageWord.toNat → word = e.ageWord →
      e.ageWord = d.ageWord := by
    intro word hle hword
    subst hword
    exact UInt64.toNat_inj.mp (Nat.le_antisymm hle hage)
  cases h with
  | idle =>
      exact .idle
  | starting =>
      exact .starting
  | asking word hle =>
      exact .asking word (Nat.le_trans hle hage)
  | reading word hle hslot hlive =>
      refine .reading word (Nat.le_trans hle hage) (hcapacity ▸ hslot) ?_
      intro hword
      have hkept := heq word hle hword
      exact (hsame hkept (hlive (hword.trans hkept))).1
  | claiming word job hle hslot hjob =>
      refine .claiming word job (Nat.le_trans hle hage) (hcapacity ▸ hslot) ?_
      intro hword
      have hkept := heq word hle hword
      obtain ⟨hlive, hhead⟩ := hjob (hword.trans hkept)
      obtain ⟨hmore, hfirst⟩ := hsame hkept hlive
      exact ⟨hmore, hhead.trans hfirst.symm⟩

/-- The owner goes on relying on what it has read while a thief takes the oldest occurrence. -/
theorem OwnerStage.transport
    {d e : Deque (Occurrence α)} {o : Occurrence α} {live : List (Occurrence α)}
    {task : OwnerTask α}
    (h : OwnerStage d (o :: live) task)
    (hcapacity : e.capacity = d.capacity)
    (hbottom : e.bottom = d.bottom)
    (hslots : e.slots = d.slots)
    (htag : e.age.tag = d.age.tag)
    (htop : e.age.top.toNat = d.age.top.toNat + 1) :
    OwnerStage e live task := by
  have hend : ∀ index, d.EndsAt (o :: live) index → e.EndsAt live index := by
    intro index hindex
    unfold Deque.EndsAt at hindex ⊢
    rw [hindex, htop, List.length_cons]
    omega
  have hlast : ∀ job : Option (Occurrence α), (o :: live ≠ [] → job = (o :: live).getLast?) →
      live ≠ [] → job = live.getLast? := by
    intro job hjob hlive
    rw [hjob (List.cons_ne_nil o live)]
    exact List.getLast?_cons_of_ne_nil hlive
  cases h with
  | idle h =>
      exact .idle (hbottom ▸ hend _ h)
  | asking h p =>
      rw [← hcapacity]
      exact .asking (hbottom ▸ hend _ h) p
  | writing h hroom p =>
      rw [← hbottom]
      exact .writing (hbottom ▸ hend _ h) (hbottom ▸ hcapacity ▸ hroom) p
  | publishing h hroom p hslot =>
      rw [← hbottom]
      refine .publishing (hbottom ▸ hend _ h) (hbottom ▸ hcapacity ▸ hroom) p ?_
      rw [Deque.slot, hslots, hbottom]
      exact hslot
  | looking h =>
      exact .looking (hbottom ▸ hend _ h)
  | lifting h hpos =>
      rw [← hbottom]
      exact .lifting (hbottom ▸ hend _ h) (hbottom ▸ hpos)
  | reading h =>
      rw [← hbottom]
      exact .reading (hbottom ▸ hend _ h)
  | weighing h job hjob =>
      rw [← hbottom]
      exact .weighing (hbottom ▸ hend _ h) job (hlast job hjob)
  | clearing h job hjob word hword hle hpast =>
      rw [← hbottom]
      exact .clearing (hbottom ▸ hend _ h) job (hlast job hjob) word (hword.trans htag.symm)
        (by omega) (hbottom ▸ hpast)
  | contending hzero job hjob word h hword hle fresh hfresh =>
      exact .contending (hbottom.trans hzero) job (hlast job hjob) word (hend _ h)
        (hword.trans htag.symm) (by omega) fresh hfresh
  | restarting hzero hlive =>
      exact absurd hlive (List.cons_ne_nil o live)

end WorkStealing
