import WorkStealing.Proofs.Deque.Books
import WorkStealing.Proofs.Deque.Stages

/-!
# No occurrence is lost or given out twice

Whatever the order in which the owner and the thieves make their accesses, the
books of a contest balance with the occurrences in the slots. The invariant is
`Contest.Sound`: it holds of a contest with a new deque, and every move keeps
it, except that the tags may be used up, which ends the contest.

The move that decides who gets an occurrence is the exchange of the age. If it
succeeds, then the one who makes it has read the oldest occurrence that is left
over from the slot, and gets it.
-/

namespace WorkStealing
namespace Routine

variable {α : Type}

/-- A claim of a slot that the deque has is an exchange of the age. -/
theorem claim_eq
    (word : UInt64) (job : Option α)
    (hslot : (Age.unpack word).top.toNat < maxCapacity) :
    ∃ top : UInt32, top.toNat = (Age.unpack word).top.toNat + 1 ∧
      claim word job =
        .swapAge word (Age.pack { Age.unpack word with top }) fun won =>
          .done (if won then job else none) := by
  obtain ⟨top, hnext, htop⟩ := Age.exists_next (Nat.add_lt_of_lt_sub hslot)
  exact ⟨top, htop, by rw [claim, hnext]⟩

/-- There is always an index below a slot. -/
theorem publish_eq
    (bottom : UInt32)
    (hslot : bottom.toNat < maxCapacity) :
    ∃ next : UInt32, next.toNat = bottom.toNat + 1 ∧
      (publish bottom : Routine α (Except Error Unit)) = .storeBottom next (.done (.ok ())) := by
  obtain ⟨next, hnext, hvalue⟩ := Age.exists_next (Nat.add_lt_of_lt_sub hslot)
  exact ⟨next, hvalue, by rw [publish, hnext]⟩

theorem capacity_step
    {α β : Type} (d : Deque α) (routine : Routine α β) :
    (routine.step d).1.capacity = d.capacity := by
  cases routine with
  | swapAge expected word next =>
      by_cases h : d.ageWord = expected <;> simp [step, h]
  | loadSlot index next =>
      by_cases h : index.toNat < d.capacity <;> simp [step, h]
  | storeSlot index job next =>
      by_cases h : index.toNat < d.capacity <;> simp [step, h, Deque.setSlot]
  | _ =>
      rfl

end Routine

namespace Contest

variable {α : Type}

/-- The number of the next push that has not been made yet. -/
def nextSerial (c : Contest α) : Nat :=
  match c.owner with
  | .pushing o _ => o.serial
  | _ => c.started

/-- Each user is at one of its points, and the books balance with the occurrences in the slots. -/
structure Sound (c : Contest α) (live : List (Occurrence α)) : Prop where
  stores : c.deque.Stores live
  owner : OwnerStage c.deque live c.owner
  thieves : ∀ task ∈ c.thieves, ThiefStage c.deque live task
  issued : ∀ o routine, c.owner = .pushing o routine → o.serial < c.started
  balanced : Balanced live c.pushed c.obtained c.nextSerial

/-- The contest goes on and is sound, or it has ended because the tags are used up. -/
def Kept (c : Contest α) : Prop :=
  (c.failure = none ∧ ∃ live, c.Sound live) ∨
    (c.failure = some (.error .tagExhausted) ∧
      ∃ live next, Balanced live c.pushed c.obtained next)

theorem sound_ofDeque
    {deque : Deque (Occurrence α)}
    (hbottom : deque.bottom = 0)
    (htop : deque.age.top = 0)
    (thieves : Nat) :
    (ofDeque deque thieves).Sound [] := by
  have hzero : deque.age.top.toNat = 0 := by
    rw [htop]
    rfl
  refine ⟨⟨trivial, ?_⟩, ?_, ?_, ?_, Balanced.nil⟩
  · show deque.age.top.toNat + 0 ≤ deque.capacity
    omega
  · refine .idle ?_
    show deque.bottom.toNat = deque.age.top.toNat + 0
    rw [hbottom, hzero]
    rfl
  · intro task htask
    rw [Array.eq_of_mem_replicate htask]
    exact .idle
  · intro o routine howner
    cases howner

namespace Sound

variable {c : Contest α} {live : List (Occurrence α)}

/-- The books while the owner pops. -/
theorem balanced_popping
    (h : c.Sound live)
    {routine : Routine (Occurrence α) (Option (Occurrence α))}
    (howner : c.owner = .popping routine) :
    Balanced live c.pushed c.obtained c.started := by
  have hbalanced := h.balanced
  rw [nextSerial, howner] at hbalanced
  exact hbalanced

/-- The books while the owner pushes. -/
theorem balanced_pushing
    (h : c.Sound live)
    {o : Occurrence α} {routine : Routine (Occurrence α) (Except Error Unit)}
    (howner : c.owner = .pushing o routine) :
    Balanced live c.pushed c.obtained o.serial := by
  have hbalanced := h.balanced
  rw [nextSerial, howner] at hbalanced
  exact hbalanced

/-- Thieves that can rely on what they have read still can when one of them goes on. -/
theorem thieves_set
    {e : Deque (Occurrence α)} {more : List (Occurrence α)} {task : ThiefTask α}
    (h : ∀ task ∈ c.thieves, ThiefStage e more task)
    (htask : ThiefStage e more task)
    (index : Nat) :
    ∀ other ∈ c.thieves.setIfInBounds index task, ThiefStage e more other := by
  intro other hother
  rcases Array.mem_or_eq_of_mem_setIfInBounds hother with hother | rfl
  · exact h other hother
  · exact htask

/-- A thief goes on without a change to the deque. -/
theorem setThief
    (h : c.Sound live)
    {task : ThiefTask α}
    (htask : ThiefStage c.deque live task)
    (index : Nat) :
    Sound { c with thieves := c.thieves.setIfInBounds index task } live :=
  ⟨h.stores, h.owner, thieves_set h.thieves htask index, h.issued, h.balanced⟩

theorem startPop
    (h : c.Sound live)
    (hidle : c.owner = .idle) :
    Sound { c with owner := .popping .pop } live := by
  obtain ⟨deque, owner, thieves, started, pushed, obtained, answer, failure⟩ := c
  cases hidle
  cases h.owner with
  | idle hend =>
      refine ⟨h.stores, .looking hend, h.thieves, ?_, h.balanced⟩
      intro o routine howner
      cases howner

theorem startPush
    (h : c.Sound live)
    (hidle : c.owner = .idle)
    (job : α) :
    Sound
      { c with
        owner := .pushing { serial := c.started, job }
          (.push c.deque.capacity { serial := c.started, job })
        started := c.started + 1 } live := by
  obtain ⟨deque, owner, thieves, started, pushed, obtained, answer, failure⟩ := c
  cases hidle
  cases h.owner with
  | idle hend =>
      refine ⟨h.stores, .asking hend _, h.thieves, ?_, h.balanced⟩
      intro o routine howner
      cases howner
      exact Nat.lt_succ_self started

/-- The age after a claim that succeeded: the top is one further. -/
theorem age_claimed
    (d : Deque (Occurrence α)) {top : UInt32}
    (htop : top.toNat = d.age.top.toNat + 1) :
    d.ageWord.toNat < (Age.pack { d.age with top }).toNat := by
  have hword : d.ageWord = d.age.pack := (Age.pack_unpack d.ageWord).symm
  rw [hword, Age.toNat_pack, Age.toNat_pack]
  show _ < d.age.tag.toNat * UInt32.size + top.toNat
  omega

/-- A claim by a thief whose age is still the age of the deque gives the thief the oldest
occurrence. -/
theorem claimed
    (h : c.Sound live)
    {index : Nat} {word : UInt64} {job : Option (Occurrence α)}
    (hthief : c.thieves[index]? = some (.stealing (.claim word job)))
    (hslot : (Age.unpack word).top.toNat < c.deque.capacity)
    (hword : c.deque.ageWord = word)
    (hjob : live ≠ [] ∧ job = live.head?) :
    ∃ o more, live = o :: more ∧ (c.thiefMove index).obtained = o :: c.obtained ∧
      (c.thiefMove index).Sound more ∧ (c.thiefMove index).failure = c.failure := by
  subst hword
  obtain ⟨hlive, rfl⟩ := hjob
  obtain ⟨o, more, rfl⟩ := List.exists_cons_of_ne_nil hlive
  obtain ⟨top, htop, hclaim⟩ := Routine.claim_eq c.deque.ageWord (o :: more).head?
    (Nat.lt_of_lt_of_le hslot c.deque.capacity_le)
  let fresh : Age := { c.deque.age with top }
  let d : Deque (Occurrence α) := { c.deque with ageWord := fresh.pack }
  have hmove : c.thiefMove index =
      { c with
        deque := d
        thieves := c.thieves.setIfInBounds index .idle
        obtained := o :: c.obtained } := by
    unfold Contest.thiefMove
    simp only [hthief, hclaim, Routine.step, if_true]
    rfl
  have hage : d.age = fresh := Age.unpack_pack fresh
  have htag : d.age.tag = c.deque.age.tag := by
    rw [hage]
  have hnext : d.age.top.toNat = c.deque.age.top.toNat + 1 := by
    rw [hage]
    exact htop
  have hgrow : c.deque.ageWord.toNat < d.ageWord.toNat := age_claimed c.deque htop
  have hreads := (Deque.readsFrom_cons _ _ _ _).mp h.stores.reads
  have hfits := h.stores.fits
  rw [hmove]
  refine ⟨o, more, rfl, rfl, ⟨⟨?_, ?_⟩, ?_, ?_, h.issued, h.balanced.takeOldest⟩, rfl⟩
  · show d.ReadsFrom d.age.top.toNat more
    rw [hnext]
    exact Deque.ReadsFrom.congr (show d.slots = c.deque.slots from rfl) hreads.2
  · show d.age.top.toNat + more.length ≤ c.deque.capacity
    rw [List.length_cons] at hfits
    omega
  · exact h.owner.transport rfl rfl rfl htag hnext
  · refine thieves_set ?_ .idle index
    intro task htask
    refine (h.thieves task htask).transport rfl (Nat.le_of_lt hgrow) ?_
    intro hsame
    exact absurd (congrArg UInt64.toNat hsame) (Nat.ne_of_gt hgrow)

/-- A step of a thief keeps a sound contest sound. -/
theorem thiefMove
    (h : c.Sound live)
    (index : Nat) :
    ∃ more, (c.thiefMove index).Sound more ∧ (c.thiefMove index).failure = c.failure := by
  unfold Contest.thiefMove
  cases hthief : c.thieves[index]? with
  | none =>
      exact ⟨live, h, rfl⟩
  | some task =>
      cases h.thieves task (Array.mem_of_getElem? hthief) with
      | idle =>
          exact ⟨live, h, rfl⟩
      | starting =>
          have hnext : ThiefStage c.deque live (.stealing (.stealAt c.deque.ageWord)) :=
            .asking _ (Nat.le_refl _)
          exact ⟨live, h.setThief hnext index, rfl⟩
      | asking word hle =>
          have hstep : (Routine.stealAt word).step c.deque =
              (c.deque, if c.deque.bottom ≤ (Age.unpack word).top then .done none
                else .loadSlot (Age.unpack word).top (.claim word)) := rfl
          simp only [hstep]
          by_cases hempty : c.deque.bottom ≤ (Age.unpack word).top
          · rw [if_pos hempty]
            exact ⟨live, h.setThief .idle index, rfl⟩
          · rw [if_neg hempty]
            have hbelow : (Age.unpack word).top.toNat < c.deque.bottom.toNat :=
              Nat.lt_of_not_le hempty
            have hbottom := h.owner.bottom_le
            have hfits := h.stores.fits
            have hnext : ThiefStage c.deque live
                (.stealing (.loadSlot (Age.unpack word).top (.claim word))) := by
              refine .reading word hle (by omega) ?_
              rintro rfl rfl
              have hage : (Age.unpack c.deque.ageWord).top = c.deque.age.top := rfl
              rw [hage] at hbelow
              simp only [List.length_nil] at hbottom
              omega
            exact ⟨live, h.setThief hnext index, rfl⟩
      | reading word hle hslot hlive =>
          have hstep : (Routine.loadSlot (Age.unpack word).top (Routine.claim word)).step c.deque =
              (c.deque, .claim word (c.deque.slot (Age.unpack word).top.toNat)) := by
            rw [Routine.step, if_pos hslot]
          obtain ⟨top, htop, hclaim⟩ := Routine.claim_eq word
            (c.deque.slot (Age.unpack word).top.toNat)
            (Nat.lt_of_lt_of_le hslot c.deque.capacity_le)
          have hnext : ThiefStage c.deque live
              (.stealing (.claim word (c.deque.slot (Age.unpack word).top.toNat))) := by
            refine .claiming word _ hle hslot ?_
            rintro rfl
            exact ⟨hlive rfl, h.stores.reads.slot_head (hlive rfl)⟩
          simp only [hstep]
          rw [hclaim] at hnext ⊢
          exact ⟨live, h.setThief hnext index, rfl⟩
      | claiming word job hle hslot hjob =>
          by_cases hword : c.deque.ageWord = word
          · obtain ⟨o, more, -, -, hsound, hfailure⟩ :=
              h.claimed hthief hslot hword (hjob hword.symm)
            refine ⟨more, ?_⟩
            unfold Contest.thiefMove at hsound hfailure
            rw [hthief] at hsound hfailure
            exact ⟨hsound, hfailure⟩
          · obtain ⟨top, htop, hclaim⟩ := Routine.claim_eq word job
              (Nat.lt_of_lt_of_le hslot c.deque.capacity_le)
            simp only [hclaim, Routine.step, if_neg hword]
            exact ⟨live, h.setThief .idle index, rfl⟩

/-- What thieves can rely on when the age stays and the oldest occurrence, if there is one, stays
too. -/
theorem thieves_keep
    (h : c.Sound live)
    {e : Deque (Occurrence α)} {more : List (Occurrence α)}
    (hcapacity : e.capacity = c.deque.capacity)
    (hage : e.ageWord = c.deque.ageWord)
    (hhead : live ≠ [] → more ≠ [] ∧ more.head? = live.head?) :
    ∀ task ∈ c.thieves, ThiefStage e more task := by
  intro task htask
  refine (h.thieves task htask).transport hcapacity ?_ fun _ => hhead
  exact Nat.le_of_eq (congrArg _ hage.symm)

/-- What thieves can rely on when the deque starts again. -/
theorem thieves_restart
    (h : c.Sound live)
    {e : Deque (Occurrence α)} {more : List (Occurrence α)}
    (hcapacity : e.capacity = c.deque.capacity)
    (hage : c.deque.ageWord.toNat < e.ageWord.toNat) :
    ∀ task ∈ c.thieves, ThiefStage e more task := by
  intro task htask
  refine (h.thieves task htask).transport hcapacity (Nat.le_of_lt hage) ?_
  intro hsame
  exact absurd (congrArg UInt64.toNat hsame) (Nat.ne_of_gt hage)

/-- The age with which a deque starts again is larger. -/
theorem age_restarted
    (d : Deque (Occurrence α)) {fresh : Age}
    (htag : fresh.tag.toNat = d.age.tag.toNat + 1) :
    d.ageWord.toNat < fresh.pack.toNat := by
  have hword : d.ageWord = d.age.pack := (Age.pack_unpack d.ageWord).symm
  have htop : d.age.top.toNat < 2 ^ 32 := d.age.top.toNat_lt
  have hsize : UInt32.size = 2 ^ 32 := rfl
  rw [hword, Age.toNat_pack, Age.toNat_pack, hsize]
  omega

theorem asked
    (h : c.Sound live)
    (hend : c.deque.EndsAt live c.deque.bottom.toNat)
    {o : Occurrence α}
    (howner : c.owner = .pushing o (.push c.deque.capacity o)) :
    c.ownerMove.Sound live ∧ c.ownerMove.failure = c.failure := by
  have hissued := h.issued o _ howner
  have hbalanced := h.balanced_pushing howner
  unfold Contest.ownerMove
  simp only [howner, Routine.push, Routine.step]
  by_cases hroom : c.deque.bottom.toNat < c.deque.capacity
  · rw [if_pos hroom]
    refine ⟨⟨h.stores, .writing hend hroom o, h.thieves, ?_, hbalanced⟩, rfl⟩
    intro p routine hp
    cases hp
    exact hissued
  · rw [if_neg hroom]
    refine ⟨⟨h.stores, .idle hend, h.thieves, ?_, hbalanced.mono (Nat.le_of_lt hissued)⟩, rfl⟩
    intro p routine hp
    cases hp

theorem written
    (h : c.Sound live)
    (hend : c.deque.EndsAt live c.deque.bottom.toNat)
    (hroom : c.deque.bottom.toNat < c.deque.capacity)
    {o : Occurrence α}
    (howner : c.owner = .pushing o (.storeSlot c.deque.bottom o (.publish c.deque.bottom))) :
    c.ownerMove.Sound live ∧ c.ownerMove.failure = c.failure := by
  have hissued := h.issued o _ howner
  have hbalanced := h.balanced_pushing howner
  let d : Deque (Occurrence α) := c.deque.setSlot c.deque.bottom.toNat o
  obtain ⟨next, -, hpublish⟩ := Routine.publish_eq (α := Occurrence α) c.deque.bottom
    (Nat.lt_of_lt_of_le hroom c.deque.capacity_le)
  have hslot : d.slot d.bottom.toNat = some o := by
    show (c.deque.setSlot c.deque.bottom.toNat o).slot c.deque.bottom.toNat = some o
    rw [Deque.slot_setSlot, if_pos rfl]
  have hstage : OwnerStage d live (.pushing o (.publish d.bottom)) :=
    .publishing (d := d) hend hroom o hslot
  have hmove : c.ownerMove =
      { c with deque := d, owner := .pushing o (.publish c.deque.bottom) } := by
    unfold Contest.ownerMove
    simp only [howner, Routine.step, if_pos hroom]
    rw [hpublish]
    rfl
  rw [hmove]
  refine ⟨⟨⟨?_, h.stores.fits⟩, hstage, ?_, ?_, hbalanced⟩, rfl⟩
  · exact h.stores.reads.setSlot (Nat.le_of_eq hend.symm) o
  · exact h.thieves_keep rfl rfl fun hlive => ⟨hlive, rfl⟩
  · intro p routine hp
    cases hp
    exact hissued

theorem published
    (h : c.Sound live)
    (hend : c.deque.EndsAt live c.deque.bottom.toNat)
    (hroom : c.deque.bottom.toNat < c.deque.capacity)
    {o : Occurrence α}
    (hslot : c.deque.slot c.deque.bottom.toNat = some o)
    (howner : c.owner = .pushing o (.publish c.deque.bottom)) :
    c.ownerMove.Sound (live ++ [o]) ∧ c.ownerMove.failure = c.failure := by
  have hissued := h.issued o _ howner
  have hbalanced := h.balanced_pushing howner
  obtain ⟨next, hbelow, hpublish⟩ := Routine.publish_eq (α := Occurrence α) c.deque.bottom
    (Nat.lt_of_lt_of_le hroom c.deque.capacity_le)
  unfold Deque.EndsAt at hend
  rw [hend] at hslot
  let d : Deque (Occurrence α) := { c.deque with bottom := next }
  have hmove : c.ownerMove =
      { c with
        deque := d, owner := .idle, pushed := o :: c.pushed, answer := .pushed (.ok ()) } := by
    unfold Contest.ownerMove
    simp only [howner, hpublish, Routine.step, ownerPushes]
    rfl
  have hlength : (live ++ [o]).length = live.length + 1 := List.length_append
  have hreads : d.ReadsFrom c.deque.age.top.toNat live :=
    h.stores.reads.congr (show d.slots = c.deque.slots from rfl)
  rw [hmove]
  refine ⟨⟨⟨?_, ?_⟩, .idle ?_, ?_, ?_, hbalanced.push hissued⟩, rfl⟩
  · exact (Deque.readsFrom_append _ _ _ _).mpr ⟨hreads, hslot, trivial⟩
  · show c.deque.age.top.toNat + (live ++ [o]).length ≤ c.deque.capacity
    omega
  · show next.toNat = c.deque.age.top.toNat + (live ++ [o]).length
    omega
  · refine h.thieves_keep rfl rfl ?_
    intro hlive
    obtain ⟨first, rest, rfl⟩ := List.exists_cons_of_ne_nil hlive
    exact ⟨List.cons_ne_nil _ _, rfl⟩
  · intro p routine hp
    cases hp

theorem looked
    (h : c.Sound live)
    (hend : c.deque.EndsAt live c.deque.bottom.toNat)
    (howner : c.owner = .popping .pop) :
    c.ownerMove.Sound live ∧ c.ownerMove.failure = c.failure := by
  have hbalanced := h.balanced_popping howner
  unfold Contest.ownerMove
  simp only [howner, Routine.pop, Routine.step]
  by_cases hzero : c.deque.bottom = 0
  · rw [if_pos hzero]
    refine ⟨⟨h.stores, .idle hend, h.thieves, ?_, hbalanced⟩, rfl⟩
    intro p routine hp
    cases hp
  · rw [if_neg hzero]
    refine ⟨⟨h.stores, .lifting hend hzero, h.thieves, ?_, hbalanced⟩, rfl⟩
    intro p routine hp
    cases hp

theorem lifted
    (h : c.Sound live)
    (hend : c.deque.EndsAt live c.deque.bottom.toNat)
    (hpos : c.deque.bottom ≠ 0)
    (howner : c.owner = .popping (.storeBottom (c.deque.bottom - 1)
      (.loadSlot (c.deque.bottom - 1) fun job => .loadAge (.popAt (c.deque.bottom - 1) job)))) :
    c.ownerMove.Sound live ∧ c.ownerMove.failure = c.failure := by
  have hbalanced := h.balanced_popping howner
  let d : Deque (Occurrence α) := { c.deque with bottom := c.deque.bottom - 1 }
  have hbelow : d.bottom.toNat + 1 = c.deque.bottom.toNat := by
    have hone : (1 : UInt32) ≤ c.deque.bottom := by
      have hne : c.deque.bottom.toNat ≠ 0 := fun hzero => hpos (UInt32.toNat_inj.mp hzero)
      show 1 ≤ c.deque.bottom.toNat
      omega
    have hsub := UInt32.toNat_sub_of_le c.deque.bottom 1 hone
    have hle : 1 ≤ c.deque.bottom.toNat := hone
    show (c.deque.bottom - 1).toNat + 1 = c.deque.bottom.toNat
    rw [hsub]
    show c.deque.bottom.toNat - 1 + 1 = c.deque.bottom.toNat
    omega
  have hmove : c.ownerMove =
      { c with
        deque := d
        owner := .popping (.loadSlot d.bottom fun job => .loadAge (.popAt d.bottom job)) } := by
    unfold Contest.ownerMove
    simp only [howner, Routine.step]
    rfl
  have hreads : d.ReadsFrom c.deque.age.top.toNat live :=
    h.stores.reads.congr (show d.slots = c.deque.slots from rfl)
  rw [hmove]
  refine ⟨⟨⟨hreads, h.stores.fits⟩, .reading ?_, ?_, ?_, hbalanced⟩, rfl⟩
  · exact hbelow.trans hend
  · exact h.thieves_keep rfl rfl fun hlive => ⟨hlive, rfl⟩
  · intro p routine hp
    cases hp

theorem taken
    (h : c.Sound live)
    (hend : c.deque.EndsAt live (c.deque.bottom.toNat + 1))
    (howner : c.owner =
      .popping (.loadSlot c.deque.bottom fun job => .loadAge (.popAt c.deque.bottom job))) :
    c.ownerMove.Sound live ∧ c.ownerMove.failure = c.failure := by
  have hbalanced := h.balanced_popping howner
  have hfits := h.stores.fits
  unfold Deque.EndsAt at hend
  have hslot : c.deque.bottom.toNat < c.deque.capacity := by
    omega
  unfold Contest.ownerMove
  simp only [howner, Routine.step, if_pos hslot]
  refine ⟨⟨h.stores, .weighing hend _ ?_, h.thieves, ?_, hbalanced⟩, rfl⟩
  · exact h.stores.reads.slot_last hend.symm
  · intro p routine hp
    cases hp

/-- The owner has read the age: it has got the newest occurrence, or it goes on with the last. -/
theorem weighed
    (h : c.Sound live)
    (hend : c.deque.EndsAt live (c.deque.bottom.toNat + 1))
    {job : Option (Occurrence α)}
    (hjob : live ≠ [] → job = live.getLast?)
    (howner : c.owner = .popping (.loadAge (.popAt c.deque.bottom job))) :
    ∃ more, c.ownerMove.Sound more ∧ c.ownerMove.failure = c.failure := by
  have hbalanced := h.balanced_popping howner
  have hage : Age.unpack c.deque.ageWord = c.deque.age := rfl
  unfold Deque.EndsAt at hend
  unfold Contest.ownerMove
  simp only [howner, Routine.step, Routine.popAt, hage]
  by_cases hmany : c.deque.age.top < c.deque.bottom
  · have hlt : c.deque.age.top.toNat < c.deque.bottom.toNat := hmany
    have hlive : live ≠ [] := by
      rintro rfl
      rw [List.length_nil] at hend
      omega
    obtain ⟨rest, o, rfl⟩ := List.eq_nil_or_concat live |>.resolve_left hlive
    rw [List.concat_eq_append] at h hend hjob hbalanced hlive
    have hlength : (rest ++ [o]).length = rest.length + 1 := List.length_append
    have hrest : rest ≠ [] := by
      rintro rfl
      simp only [List.nil_append, List.length_singleton] at hend
      omega
    have hlast : job = some o := by
      rw [hjob hlive]
      exact List.getLast?_concat
    have hfits := h.stores.fits
    rw [if_pos hmany, hlast]
    refine ⟨rest, ⟨⟨?_, ?_⟩, .idle ?_, ?_, ?_, hbalanced.takeNewest⟩, rfl⟩
    · exact ((Deque.readsFrom_append _ _ _ _).mp h.stores.reads).1
    · show c.deque.age.top.toNat + rest.length ≤ c.deque.capacity
      omega
    · show c.deque.bottom.toNat = c.deque.age.top.toNat + rest.length
      omega
    · refine h.thieves_keep rfl rfl ?_
      intro _
      obtain ⟨first, others, rfl⟩ := List.exists_cons_of_ne_nil hrest
      exact ⟨hrest, rfl⟩
    · intro p routine hp
      cases hp
  · have hle : c.deque.bottom.toNat ≤ c.deque.age.top.toNat := Nat.le_of_not_lt hmany
    rw [if_neg hmany]
    refine ⟨live, ⟨h.stores, ?_, h.thieves, ?_, hbalanced⟩, rfl⟩
    · exact .clearing hend job hjob c.deque.ageWord rfl (Nat.le_refl _) hle
    · intro p routine hp
      cases hp

theorem cleared
    (h : c.Sound live)
    (hend : c.deque.EndsAt live (c.deque.bottom.toNat + 1))
    {job : Option (Occurrence α)}
    (hjob : live ≠ [] → job = live.getLast?)
    {word : UInt64}
    (htag : (Age.unpack word).tag = c.deque.age.tag)
    (htop : (Age.unpack word).top.toNat ≤ c.deque.age.top.toNat)
    (hlast : c.deque.bottom.toNat ≤ (Age.unpack word).top.toNat)
    (howner : c.owner = .popping (.storeBottom 0 (.contend c.deque.bottom job word)))
    (hfailure : c.failure = none) :
    c.ownerMove.Kept := by
  have hbalanced := h.balanced_popping howner
  let d : Deque (Occurrence α) := { c.deque with bottom := 0 }
  have hreads : d.ReadsFrom c.deque.age.top.toNat live :=
    h.stores.reads.congr (show d.slots = c.deque.slots from rfl)
  have hthieves : ∀ task ∈ c.thieves, ThiefStage d live task :=
    h.thieves_keep rfl rfl fun hlive => ⟨hlive, rfl⟩
  unfold Deque.EndsAt at hend
  cases hfresh : (Age.unpack word).restarted? with
  | none =>
      refine Or.inr ⟨?_, live, c.started, ?_⟩ <;>
        unfold Contest.ownerMove <;>
        simp only [howner, Routine.step, Routine.contend, hfresh, ownerPops]
      exact hbalanced
  | some fresh =>
      obtain ⟨hnew, hzero⟩ := Age.restarted?_eq_some.mp hfresh
      by_cases hequal : c.deque.bottom = (Age.unpack word).top
      · have hmove : c.ownerMove =
            { c with
              deque := d
              owner := .popping (.swapAge word fresh.pack fun won =>
                if won then .done job else .restart fresh) } := by
          unfold Contest.ownerMove
          simp only [howner, Routine.step, Routine.contend, hfresh, if_pos hequal]
          rfl
        rw [hmove]
        refine Or.inl ⟨hfailure, live, ⟨⟨hreads, h.stores.fits⟩, ?_, hthieves, ?_, hbalanced⟩⟩
        · refine .contending (d := d) rfl job hjob word ?_ htag htop fresh hfresh
          rw [← hequal]
          exact hend
        · intro p routine hp
          cases hp
      · have hpast : c.deque.bottom.toNat ≠ (Age.unpack word).top.toNat :=
          fun hsame => hequal (UInt32.toNat_inj.mp hsame)
        have hlive : live = [] := by
          apply List.eq_nil_of_length_eq_zero
          omega
        have hmove : c.ownerMove =
            { c with deque := d, owner := .popping (.restart fresh) } := by
          unfold Contest.ownerMove
          simp only [howner, Routine.step, Routine.contend, hfresh, if_neg hequal]
          rfl
        rw [hmove]
        refine Or.inl ⟨hfailure, live, ⟨⟨hreads, h.stores.fits⟩, ?_, hthieves, ?_, hbalanced⟩⟩
        · refine .restarting rfl hlive fresh ?_ hzero
          rw [htag] at hnew
          exact hnew
        · intro p routine hp
          cases hp

/-- A deque that starts again holds nothing. -/
theorem stores_restart
    (d : Deque (Occurrence α)) {fresh : Age}
    (hzero : fresh.top = 0) :
    Deque.Stores { d with ageWord := fresh.pack } [] ∧
      Deque.EndsAt { d with ageWord := fresh.pack } [] 0 := by
  have hage : Deque.age { d with ageWord := fresh.pack } = fresh := Age.unpack_pack fresh
  have htop : (Deque.age { d with ageWord := fresh.pack }).top.toNat = 0 := by
    rw [hage, hzero]
    rfl
  refine ⟨⟨trivial, ?_⟩, ?_⟩
  · rw [htop]
    exact Nat.zero_le _
  · rw [Deque.EndsAt, htop]
    rfl

/-- A deque that the owner has given its new age is sound when the owner is idle again. -/
theorem restart
    (h : c.Sound live)
    (hbottom : c.deque.bottom = 0)
    {fresh : Age}
    (hnew : fresh.tag.toNat = c.deque.age.tag.toNat + 1)
    (hzero : fresh.top = 0)
    {obtained : List (Occurrence α)}
    (hbalanced : Balanced [] c.pushed obtained c.started)
    (answer : OwnerAnswer α) :
    Contest.Sound
      { c with
        deque := { c.deque with ageWord := fresh.pack }
        owner := .idle
        obtained
        answer } [] := by
  have hstart := stores_restart c.deque hzero
  refine ⟨hstart.1, .idle ?_, h.thieves_restart rfl (age_restarted c.deque hnew), ?_, hbalanced⟩
  · show Deque.EndsAt { c.deque with ageWord := fresh.pack } [] c.deque.bottom.toNat
    rw [hbottom]
    exact hstart.2
  · intro p routine hp
    cases hp

/-- The owner has contended for the last occurrence, and the age was still the one it had read:
the owner gets the occurrence. -/
theorem contended
    (h : c.Sound live)
    (hbottom : c.deque.bottom = 0)
    {job : Option (Occurrence α)}
    (hjob : live ≠ [] → job = live.getLast?)
    {word : UInt64}
    (hend : c.deque.EndsAt live ((Age.unpack word).top.toNat + 1))
    {fresh : Age}
    (hfresh : (Age.unpack word).restarted? = some fresh)
    (howner : c.owner = .popping (.swapAge word fresh.pack fun won =>
      if won then .done job else .restart fresh))
    (hword : c.deque.ageWord = word) :
    ∃ o, live = [o] ∧ c.ownerMove.obtained = o :: c.obtained ∧ c.ownerMove.Sound [] ∧
      c.ownerMove.failure = c.failure := by
  have hbalanced := h.balanced_popping howner
  subst hword
  obtain ⟨hnew, hzero⟩ := Age.restarted?_eq_some.mp hfresh
  have hage : Age.unpack c.deque.ageWord = c.deque.age := rfl
  have hone : live.length = 1 := by
    unfold Deque.EndsAt at hend
    rw [hage] at hend
    omega
  obtain ⟨o, rfl⟩ := List.length_eq_one_iff.mp hone
  let d : Deque (Occurrence α) := { c.deque with ageWord := fresh.pack }
  have hmove : c.ownerMove =
      { c with
        deque := d
        owner := .idle
        obtained := o :: c.obtained
        answer := .popped (some o) } := by
    unfold Contest.ownerMove
    simp only [howner, Routine.step, if_true, hjob (List.cons_ne_nil o [])]
    rfl
  rw [hmove]
  exact ⟨o, rfl, rfl, h.restart hbottom hnew hzero hbalanced.takeOldest _, rfl⟩

/-- The owner has contended for the last occurrence, and a thief was faster. -/
theorem outrun
    (h : c.Sound live)
    (hbottom : c.deque.bottom = 0)
    {job : Option (Occurrence α)}
    {word : UInt64}
    (hend : c.deque.EndsAt live ((Age.unpack word).top.toNat + 1))
    (htag : (Age.unpack word).tag = c.deque.age.tag)
    (htop : (Age.unpack word).top.toNat ≤ c.deque.age.top.toNat)
    {fresh : Age}
    (hfresh : (Age.unpack word).restarted? = some fresh)
    (howner : c.owner = .popping (.swapAge word fresh.pack fun won =>
      if won then .done job else .restart fresh))
    (hword : c.deque.ageWord ≠ word) :
    c.ownerMove.Sound live ∧ c.ownerMove.failure = c.failure := by
  have hbalanced := h.balanced_popping howner
  obtain ⟨hnew, hzero⟩ := Age.restarted?_eq_some.mp hfresh
  have hpast : (Age.unpack word).top ≠ c.deque.age.top := by
    intro hsame
    apply hword
    have hages : Age.unpack word = c.deque.age := by
      cases hage : Age.unpack word
      cases hcurrent : c.deque.age
      simp_all
    rw [← Age.pack_unpack word, hages]
    exact (Age.pack_unpack c.deque.ageWord).symm
  have hne : (Age.unpack word).top.toNat ≠ c.deque.age.top.toNat :=
    fun hsame => hpast (UInt32.toNat_inj.mp hsame)
  have hlive : live = [] := by
    unfold Deque.EndsAt at hend
    apply List.eq_nil_of_length_eq_zero
    omega
  have hmove : c.ownerMove = { c with owner := .popping (.restart fresh) } := by
    unfold Contest.ownerMove
    simp only [howner, Routine.step, if_neg hword]
    rfl
  rw [hmove]
  refine ⟨⟨h.stores, .restarting hbottom hlive fresh ?_ hzero, h.thieves, ?_, hbalanced⟩, rfl⟩
  · rw [htag] at hnew
    exact hnew
  · intro p routine hp
    cases hp

/-- The owner has given the deque its new age. -/
theorem restarted
    (h : c.Sound live)
    (hbottom : c.deque.bottom = 0)
    (hlive : live = [])
    {fresh : Age}
    (hnew : fresh.tag.toNat = c.deque.age.tag.toNat + 1)
    (hzero : fresh.top = 0)
    (howner : c.owner = .popping (.restart fresh)) :
    c.ownerMove.Sound [] ∧ c.ownerMove.failure = c.failure := by
  have hbalanced := h.balanced_popping howner
  rw [hlive] at hbalanced
  let d : Deque (Occurrence α) := { c.deque with ageWord := fresh.pack }
  have hmove : c.ownerMove =
      { c with deque := d, owner := .idle, answer := .popped none } := by
    unfold Contest.ownerMove
    simp only [howner, Routine.restart, Routine.step]
    rfl
  rw [hmove]
  exact ⟨h.restart hbottom hnew hzero hbalanced _, rfl⟩

/-- A step of the owner keeps a sound contest sound, unless the tags are used up. -/
theorem ownerMove
    (h : c.Sound live)
    (hfailure : c.failure = none) :
    c.ownerMove.Kept := by
  have hkept : (∃ more, c.ownerMove.Sound more ∧ c.ownerMove.failure = c.failure) →
      c.ownerMove.Kept := by
    rintro ⟨more, hmore, hsame⟩
    exact Or.inl ⟨hsame.trans hfailure, more, hmore⟩
  have hstage := h.owner
  generalize howner : c.owner = task at hstage
  cases hstage with
  | idle hend =>
      apply hkept
      refine ⟨live, ?_⟩
      unfold Contest.ownerMove
      rw [howner]
      exact ⟨h, rfl⟩
  | asking hend o =>
      exact hkept ⟨live, h.asked hend howner⟩
  | writing hend hroom o =>
      exact hkept ⟨live, h.written hend hroom howner⟩
  | publishing hend hroom o hslot =>
      exact hkept ⟨_, h.published hend hroom hslot howner⟩
  | looking hend =>
      exact hkept ⟨live, h.looked hend howner⟩
  | lifting hend hpos =>
      exact hkept ⟨live, h.lifted hend hpos howner⟩
  | reading hend =>
      exact hkept ⟨live, h.taken hend howner⟩
  | weighing hend job hjob =>
      exact hkept (h.weighed hend hjob howner)
  | clearing hend job hjob word htag htop hlast =>
      exact h.cleared hend hjob htag htop hlast howner hfailure
  | contending hbottom job hjob word hend htag htop fresh hfresh =>
      apply hkept
      by_cases hword : c.deque.ageWord = word
      · obtain ⟨o, -, -, hsound, hsame⟩ := h.contended hbottom hjob hend hfresh howner hword
        exact ⟨[], hsound, hsame⟩
      · exact ⟨live, h.outrun hbottom hend htag htop hfresh howner hword⟩
  | restarting hbottom hlive fresh hnew hzero =>
      exact hkept ⟨[], h.restarted hbottom hlive hnew hzero howner⟩

/-- While nobody is in the middle of a routine, the deque holds what is left over. -/
theorem holds
    (h : c.Sound live)
    (hidle : c.owner = .idle) :
    c.deque.Holds live := by
  have hstage := h.owner
  rw [hidle] at hstage
  cases hstage with
  | idle hend =>
      have hfits := h.stores.fits
      unfold Deque.EndsAt at hend
      exact ⟨hend, by omega, h.stores.reads⟩

/-- A reset between routines keeps a sound contest sound, unless the tags are used up. -/
theorem resetMove
    (h : c.Sound live)
    (hidle : c.owner = .idle)
    (hfailure : c.failure = none) :
    c.resetMove.Kept := by
  have hholds := h.holds hidle
  have hbalanced := h.balanced
  rw [nextSerial, hidle] at hbalanced
  unfold Contest.resetMove Deque.reset
  by_cases hempty : c.deque.isEmpty = false
  · rw [if_pos hempty]
    exact Or.inl ⟨hfailure, live, h⟩
  · rw [if_neg hempty]
    have hlive : live = [] := hholds.isEmpty_iff.mp ((Bool.not_eq_false _).mp hempty)
    subst hlive
    by_cases hclean : c.deque.age.top = 0 ∧ c.deque.bottom = 0
    · rw [if_pos hclean]
      exact Or.inl ⟨hfailure, [], h⟩
    · rw [if_neg hclean]
      cases hfresh : c.deque.age.restarted? with
      | none =>
          exact Or.inr ⟨rfl, [], c.started, hbalanced⟩
      | some fresh =>
          obtain ⟨hnew, hzero⟩ := Age.restarted?_eq_some.mp hfresh
          have hstart := stores_restart { c.deque with bottom := 0 } hzero
          have hstage : OwnerStage { c.deque with bottom := 0, ageWord := fresh.pack } []
              c.owner := by
            rw [hidle]
            exact .idle hstart.2
          exact Or.inl ⟨hfailure, [], ⟨hstart.1, hstage,
            h.thieves_restart rfl (age_restarted c.deque hnew), h.issued, h.balanced⟩⟩

end Sound

theorem owner_of_ownerIsIdle
    {c : Contest α}
    (h : c.ownerIsIdle = true) :
    c.owner = .idle := by
  unfold ownerIsIdle at h
  split at h
  · assumption
  · cases h

theorem owner_of_isQuiet
    {c : Contest α}
    (h : c.isQuiet = true) :
    c.owner = .idle := by
  apply owner_of_ownerIsIdle
  unfold isQuiet at h
  exact ((Bool.and_eq_true _ _).mp h).1

theorem Kept.move
    {c : Contest α}
    (h : c.Kept) (m : Move α) :
    (c.move m).Kept := by
  rcases h with ⟨hfailure, live, hsound⟩ | ⟨hfailure, live, next, hbalanced⟩
  · have hgoing : ¬ c.failure.isSome := by
      rw [hfailure]
      exact Bool.false_ne_true
    unfold Contest.move
    rw [if_neg hgoing]
    cases m with
    | startPush job =>
        by_cases hidle : c.ownerIsIdle
        · simp only [if_pos hidle]
          exact Or.inl ⟨hfailure, live, hsound.startPush (owner_of_ownerIsIdle hidle) job⟩
        · simp only [if_neg hidle]
          exact Or.inl ⟨hfailure, live, hsound⟩
    | startPop =>
        by_cases hidle : c.ownerIsIdle
        · simp only [if_pos hidle]
          exact Or.inl ⟨hfailure, live, hsound.startPop (owner_of_ownerIsIdle hidle)⟩
        · simp only [if_neg hidle]
          exact Or.inl ⟨hfailure, live, hsound⟩
    | startSteal index =>
        cases hthief : c.thieves[index]? with
        | none =>
            simp only [hthief]
            exact Or.inl ⟨hfailure, live, hsound⟩
        | some task =>
            simp only [hthief]
            cases task with
            | idle =>
                exact Or.inl ⟨hfailure, live, hsound.setThief .starting index⟩
            | stealing routine =>
                exact Or.inl ⟨hfailure, live, hsound⟩
    | owner =>
        exact hsound.ownerMove hfailure
    | thief index =>
        obtain ⟨more, hmore, hsame⟩ := hsound.thiefMove index
        exact Or.inl ⟨hsame.trans hfailure, more, hmore⟩
    | reset =>
        by_cases hquiet : c.isQuiet
        · simp only [if_pos hquiet]
          exact hsound.resetMove (owner_of_isQuiet hquiet) hfailure
        · simp only [if_neg hquiet]
          exact Or.inl ⟨hfailure, live, hsound⟩
  · have hover : c.failure.isSome := by
      rw [hfailure]
      rfl
    unfold Contest.move
    rw [if_pos hover]
    exact Or.inr ⟨hfailure, live, next, hbalanced⟩

theorem Kept.play
    {c : Contest α}
    (h : c.Kept) (moves : List (Move α)) :
    (c.play moves).Kept := by
  induction moves generalizing c with
  | nil =>
      exact h
  | cons m rest ih =>
      rw [play_cons]
      exact ih (h.move m)

/-- What pops and steals gave out was pushed, and no push was given out twice. -/
theorem Kept.books
    {c : Contest α}
    (h : c.Kept) :
    ∃ live next, Balanced live c.pushed c.obtained next := by
  rcases h with ⟨-, live, hsound⟩ | ⟨-, hbooks⟩
  · exact ⟨live, c.nextSerial, hsound.balanced⟩
  · exact hbooks

/-- The occurrence was pushed before all others that were not given out yet, and stands at the
top. -/
structure IsOldest (c : Contest α) (o : Occurrence α) : Prop where
  pushed : o ∈ c.pushed
  kept : o ∉ c.obtained
  first : ∀ p ∈ c.pushed, p ∉ c.obtained → o.serial ≤ p.serial
  atTop : c.deque.slot c.deque.age.top.toNat = some o

/-- The first of the occurrences that are left over is the oldest. -/
theorem Sound.isOldest
    {c : Contest α} {o : Occurrence α} {more : List (Occurrence α)}
    (h : c.Sound (o :: more)) :
    c.IsOldest o := by
  have hbalanced := h.balanced
  refine ⟨?_, ?_, ?_, h.stores.reads.1⟩
  · exact hbalanced.shared.mem_iff.mp List.mem_cons_self
  · intro hobtained
    have hnodup := hbalanced.nodup_shared
    rw [List.cons_append, List.map_cons, List.nodup_cons] at hnodup
    apply hnodup.1
    exact List.mem_map_of_mem (List.mem_append_right more hobtained)
  · intro p hp hkept
    have hleft : p ∈ o :: more := by
      rcases List.mem_append.mp (hbalanced.shared.mem_iff.mpr hp) with hleft | hobtained
      · exact hleft
      · exact absurd hobtained hkept
    have hordered : (o :: more).Pairwise fun earlier later => earlier.serial < later.serial :=
      (List.pairwise_reverse.mpr hbalanced.numbered).sublist hbalanced.inOrder
    rcases List.mem_cons.mp hleft with rfl | hlater
    · exact Nat.le_refl _
    · exact Nat.le_of_lt ((List.pairwise_cons.mp hordered).1 p hlater)

/-- What an exchange of the age by a thief gives, if it succeeds. -/
theorem Sound.swap_thief
    {c : Contest α} {live : List (Occurrence α)}
    (h : c.Sound live)
    {index : Nat} {expected word : UInt64}
    {next : Bool → Routine (Occurrence α) (Option (Occurrence α))}
    (hthief : c.thieves[index]? = some (.stealing (.swapAge expected word next)))
    (hword : c.deque.ageWord = expected) :
    ∃ o, c.IsOldest o ∧ (c.thiefMove index).obtained = o :: c.obtained := by
  have hstage := h.thieves _ (Array.mem_of_getElem? hthief)
  generalize htask : ThiefTask.stealing (.swapAge expected word next) = task at hstage
  cases hstage with
  | idle | starting | asking | reading =>
      cases htask
  | claiming claimed job hle hslot hjob =>
      obtain ⟨top, -, hclaim⟩ := Routine.claim_eq claimed job
        (Nat.lt_of_lt_of_le hslot c.deque.capacity_le)
      have hsame := htask
      rw [hclaim] at hsame
      cases hsame
      rw [htask] at hthief
      obtain ⟨o, more, rfl, hobtained, -⟩ := h.claimed hthief hslot hword (hjob hword.symm)
      exact ⟨o, h.isOldest, hobtained⟩

/-- What an exchange of the age by the owner gives, if it succeeds. -/
theorem Sound.swap_owner
    {c : Contest α} {live : List (Occurrence α)}
    (h : c.Sound live)
    {expected word : UInt64}
    {next : Bool → Routine (Occurrence α) (Option (Occurrence α))}
    (howner : c.owner = .popping (.swapAge expected word next))
    (hword : c.deque.ageWord = expected) :
    ∃ o, c.IsOldest o ∧ c.ownerMove.obtained = o :: c.obtained := by
  have hstage := h.owner
  generalize htask : c.owner = task at hstage
  rw [howner] at htask
  cases hstage with
  | contending hbottom job hjob read hend htag htop fresh hfresh =>
      cases htask
      obtain ⟨o, rfl, hobtained, -⟩ := h.contended hbottom hjob hend hfresh howner hword
      exact ⟨o, h.isOldest, hobtained⟩
  | _ =>
      cases htask

/-- The end of a routine is noted without a change to the deque. -/
theorem deque_ownerPushes
    (c : Contest α) (o : Occurrence α) (routine : Routine (Occurrence α) (Except Error Unit)) :
    (c.ownerPushes o routine).deque = c.deque := by
  unfold ownerPushes
  split <;> rfl

theorem deque_ownerPops
    (c : Contest α) (routine : Routine (Occurrence α) (Option (Occurrence α))) :
    (c.ownerPops routine).deque = c.deque := by
  unfold ownerPops
  split <;> rfl

theorem deque_thiefSteals
    (c : Contest α) (index : Nat) (routine : Routine (Occurrence α) (Option (Occurrence α))) :
    (c.thiefSteals index routine).deque = c.deque := by
  unfold thiefSteals
  split <;> rfl

theorem capacity_move
    (c : Contest α) (m : Move α) :
    (c.move m).deque.capacity = c.deque.capacity := by
  unfold Contest.move
  by_cases hover : c.failure.isSome
  · rw [if_pos hover]
  · rw [if_neg hover]
    cases m with
    | startPush job =>
        dsimp only
        split <;> rfl
    | startPop =>
        dsimp only
        split <;> rfl
    | startSteal index =>
        dsimp only
        split <;> rfl
    | owner =>
        dsimp only [ownerMove]
        split
        · rfl
        · rw [deque_ownerPushes, Routine.capacity_step]
        · rw [deque_ownerPops, Routine.capacity_step]
    | thief index =>
        dsimp only [thiefMove]
        split
        · rw [deque_thiefSteals, Routine.capacity_step]
        · rfl
    | reset =>
        dsimp only [resetMove]
        by_cases hquiet : c.isQuiet
        · rw [if_pos hquiet]
          unfold Deque.reset
          by_cases hempty : c.deque.isEmpty = false
          · rw [if_pos hempty]
          · rw [if_neg hempty]
            by_cases hclean : c.deque.age.top = 0 ∧ c.deque.bottom = 0
            · rw [if_pos hclean]
            · rw [if_neg hclean]
              cases c.deque.age.restarted? <;> rfl
        · rw [if_neg hquiet]

theorem capacity_play
    (c : Contest α) (moves : List (Move α)) :
    (c.play moves).deque.capacity = c.deque.capacity := by
  induction moves generalizing c with
  | nil =>
      rfl
  | cons m rest ih =>
      rw [play_cons, ih, capacity_move]

/-- What holds of a contest around a deque with so many slots, whatever the order of its
moves. -/
structure Conserves (c : Contest α) (capacity : Nat) : Prop where
  /-- Nothing but used up tags ends a contest before its time. -/
  failure : c.failure = none ∨ c.failure = some (.error .tagExhausted)
  /-- What was given out was pushed before. -/
  pushed : ∀ o ∈ c.obtained, o ∈ c.pushed
  /-- The number of a push tells it from all others. -/
  numbered : (c.pushed.map Occurrence.serial).Nodup
  /-- No push is given out twice. -/
  once : (c.obtained.map Occurrence.serial).Nodup
  /-- A thief whose exchange of the age succeeds gets the oldest occurrence. -/
  stolen : c.failure = none → ∀ index expected word next,
    c.thieves[index]? = some (.stealing (.swapAge expected word next)) →
    c.deque.ageWord = expected →
    ∃ o, c.IsOldest o ∧ (c.move (.thief index)).obtained = o :: c.obtained
  /-- An owner whose exchange of the age succeeds gets the oldest occurrence, which is then the
  last one. -/
  popped : c.failure = none → ∀ expected word next,
    c.owner = .popping (.swapAge expected word next) →
    c.deque.ageWord = expected →
    ∃ o, c.IsOldest o ∧ (c.move .owner).obtained = o :: c.obtained
  /-- Between routines the top is not below the bottom, and the bottom is not below the slots. -/
  ordered : c.failure = none → c.isQuiet = true →
    c.deque.age.top ≤ c.deque.bottom ∧ c.deque.bottom.toNat ≤ capacity
  /-- Between routines the slots from the top up to the bottom hold exactly what was pushed and
  not given out, in the order of the pushes. -/
  shared : c.failure = none → c.isQuiet = true →
    ∃ live, c.deque.contents = live.map some ∧ live.Sublist c.pushed.reverse ∧
      (live ++ c.obtained).Perm c.pushed

/-- A contest around a new deque loses nothing and gives nothing out twice, for any number of
thieves and any order of moves. -/
theorem conserves_play
    {capacity : UInt64} {deque : Deque (Occurrence α)}
    (hdeque : Deque.ofCapacity capacity = .ok deque)
    (thieves : Nat) (moves : List (Move α)) :
    ((ofDeque deque thieves).play moves).Conserves capacity.toNat := by
  obtain ⟨hbottom, htop, hcapacity⟩ :
      deque.bottom = 0 ∧ deque.age.top = 0 ∧ deque.capacity = capacity.toNat := by
    unfold Deque.ofCapacity at hdeque
    split at hdeque
    · cases hdeque
      exact ⟨rfl, rfl, rfl⟩
    · cases hdeque
  have hkept : ((ofDeque deque thieves).play moves).Kept :=
    Kept.play (Or.inl ⟨rfl, [], sound_ofDeque hbottom htop thieves⟩) moves
  have hslots : ((ofDeque deque thieves).play moves).deque.capacity = capacity.toNat :=
    (capacity_play _ _).trans hcapacity
  obtain ⟨live, next, hbooks⟩ := hkept.books
  generalize (ofDeque deque thieves).play moves = c at hkept hslots hbooks ⊢
  have hsound : c.failure = none → ∃ live, c.Sound live := by
    intro hnone
    rcases hkept with ⟨-, hsound⟩ | ⟨hsome, -⟩
    · exact hsound
    · rw [hnone] at hsome
      cases hsome
  have hgoing : c.failure = none → ¬ c.failure.isSome := by
    intro hnone
    rw [hnone]
    exact Bool.false_ne_true
  refine ⟨?_, fun o ho => hbooks.mem_pushed ho, hbooks.nodup_pushed, hbooks.nodup_obtained, ?_,
    ?_, ?_, ?_⟩
  · rcases hkept with ⟨hnone, -⟩ | ⟨hsome, -⟩
    · exact Or.inl hnone
    · exact Or.inr hsome
  · intro hnone index expected word next hthief hword
    obtain ⟨live, hlive⟩ := hsound hnone
    rw [Contest.move, if_neg (hgoing hnone)]
    exact hlive.swap_thief hthief hword
  · intro hnone expected word next howner hword
    obtain ⟨live, hlive⟩ := hsound hnone
    rw [Contest.move, if_neg (hgoing hnone)]
    exact hlive.swap_owner howner hword
  · intro hnone hquiet
    obtain ⟨live, hlive⟩ := hsound hnone
    have hholds := hlive.holds (owner_of_isQuiet hquiet)
    have hbottom := hholds.bottom_eq
    have hroom := hholds.bottom_le
    rw [hslots] at hroom
    refine ⟨?_, hroom⟩
    show c.deque.age.top.toNat ≤ c.deque.bottom.toNat
    omega
  · intro hnone hquiet
    obtain ⟨live, hlive⟩ := hsound hnone
    exact ⟨live, (hlive.holds (owner_of_isQuiet hquiet)).contents_eq, hlive.balanced.inOrder,
      hlive.balanced.shared⟩

/-- The owner and a thief both read the last occurrence, and the thief is the one who gets it. -/
theorem conserves_play_lastOccurrence :
    ∃ deque : Deque (Occurrence Nat), Deque.ofCapacity 2 = .ok deque ∧
      ∃ c, c = (ofDeque deque 1).play
        [.startPush 7, .owner, .owner, .owner,
         .startSteal 0, .thief 0, .thief 0, .thief 0,
         .startPop, .owner, .owner, .owner, .owner, .owner,
         .thief 0, .owner, .owner] ∧
        c.obtained = [⟨0, 7⟩] ∧ c.ownerIsIdle = true ∧ c.Conserves 2 := by
  have hdeque : Deque.ofCapacity (α := Occurrence Nat) 2 = .ok _ := rfl
  exact ⟨_, hdeque, _, rfl, rfl, rfl, conserves_play hdeque 1 _⟩

end Contest
end WorkStealing
