import WorkStealing.Proofs.Deque.Conservation
import WorkStealing.Proofs.Deque.Tags

/-!
# No age comes back

Each write of the age of a contested deque makes its word larger, whoever makes it: a
thief that takes the oldest job moves the top on, and the owner and a reset start again
with the next tag. The owner may write an age that it has worked out from an earlier
read, while thieves have moved the top since; but its tag is a new one, and the tag is
the high half of the word.

So an age that was changed never comes back, and a thief's exchange of the age succeeds
if and only if nobody has written the age since the thief read it
(`Contest.ages_play`), even if the deque was emptied and filled again up to the same
top.
-/

namespace WorkStealing

namespace Routine

variable {α β : Type}

/-- The word that the next access writes to the age, if it writes one. -/
def ageWrite? (d : Deque α) : Routine α β → Option UInt64
  | storeAge word _ => some word
  | swapAge expected word _ => if d.ageWord = expected then some word else none
  | _ => none

/-- The age after an access is the word that was written, or the old one if none was. -/
theorem ageWord_step
    (d : Deque α) (routine : Routine α β) :
    (routine.step d).1.ageWord = (routine.ageWrite? d).getD d.ageWord := by
  cases routine with
  | swapAge expected word next =>
      by_cases h : d.ageWord = expected <;> simp [step, ageWrite?, h]
  | loadSlot index next =>
      by_cases h : index.toNat < d.capacity <;> simp [step, ageWrite?, h]
  | storeSlot index job next =>
      by_cases h : index.toNat < d.capacity <;> simp [step, ageWrite?, h, Deque.setSlot]
  | _ =>
      rfl

/-- The end of a push writes no age. -/
theorem ageWrite?_publish
    (d : Deque α) (bottom : UInt32) :
    (publish bottom : Routine α (Except Error Unit)).ageWrite? d = none := by
  unfold publish
  split <;> rfl

/-- What a claim writes: the next top under the same tag, if the age is still the one it was. -/
theorem ageWrite?_claim
    {d : Deque α} {read word : UInt64} {job : Option α}
    (h : (claim read job).ageWrite? d = some word) :
    d.ageWord = read ∧ ∃ top : UInt32, top.toNat = d.age.top.toNat + 1 ∧
      word = Age.pack { d.age with top } := by
  unfold claim at h
  split at h
  next top hnext =>
    rw [ageWrite?] at h
    split at h
    next hread =>
      subst hread
      cases h
      exact ⟨rfl, top, Age.next?_eq_some.mp hnext, rfl⟩
    next =>
      cases h
  next =>
    cases h

/-- What is left of a steal that has read this age. -/
inductive Recalls (word : UInt64) : Routine α (Option α) → Prop
  | asking : Recalls word (stealAt word)
  | reading : Recalls word (loadSlot (Age.unpack word).top (claim word))
  | claiming (job : Option α) : Recalls word (claim word job)

/-- The next access of such a steal leaves one that has read the same age, or is the last one. -/
theorem Recalls.step
    {word : UInt64} {routine : Routine α (Option α)}
    (h : routine.Recalls word)
    (d : Deque α) :
    (routine.step d).2.Recalls word ∨ (∃ job, (routine.step d).2 = done job) ∨
      ∃ cause, (routine.step d).2 = fail cause := by
  cases h with
  | asking =>
      dsimp only [stealAt, Routine.step]
      split
      · exact .inr (.inl ⟨none, rfl⟩)
      · exact .inl .reading
  | reading =>
      dsimp only [Routine.step]
      split
      · exact .inl (.claiming _)
      · exact .inr (.inr ⟨_, rfl⟩)
  | claiming job =>
      unfold claim
      split
      · dsimp only [Routine.step]
        split <;> exact .inr (.inl ⟨_, rfl⟩)
      · exact .inr (.inr ⟨_, rfl⟩)

/-- Such a steal exchanges the age only for the one it has read. -/
theorem Recalls.eq_of_swapAge
    {expected word read : UInt64} {next : Bool → Routine α (Option α)}
    (h : (swapAge expected word next).Recalls read) :
    expected = read := by
  generalize hroutine : swapAge expected word next = routine at h
  cases h with
  | asking | reading =>
      cases hroutine
  | claiming job =>
      unfold claim at hroutine
      split at hroutine <;> cases hroutine
      rfl

end Routine

/-- The word that a reset writes to the age, if it writes one. -/
def Deque.resetWrite? {α : Type} (d : Deque α) : Option UInt64 :=
  if d.isEmpty = false ∨ (d.age.top = 0 ∧ d.bottom = 0) then none
  else d.age.restarted?.map Age.pack

/-- The age after a reset is the word that was written, or the old one if none was. -/
theorem Deque.ageWord_reset
    {α : Type} {d e : Deque α}
    (h : d.reset = .ok e) :
    e.ageWord = d.resetWrite?.getD d.ageWord := by
  unfold Deque.reset at h
  unfold Deque.resetWrite?
  split at h
  · cases h
  next hempty =>
    split at h
    next hfirst =>
      cases h
      rw [if_pos (.inr hfirst)]
      rfl
    next hfirst =>
      rw [if_neg (not_or.mpr ⟨hempty, hfirst⟩)]
      split at h
      · cases h
      next fresh hfresh =>
        cases h
        rw [hfresh]
        rfl

/-- A reset that fails writes no age. -/
theorem Deque.resetWrite?_of_error
    {α : Type} {d : Deque α} {cause : Failure}
    (h : d.reset = .error cause) :
    d.resetWrite? = none := by
  unfold Deque.reset at h
  unfold Deque.resetWrite?
  split at h
  next hempty =>
    exact if_pos (.inl hempty)
  next hempty =>
    split at h
    · cases h
    next hfirst =>
      rw [if_neg (not_or.mpr ⟨hempty, hfirst⟩)]
      split at h
      next hfresh =>
        rw [hfresh]
        rfl
      · cases h

namespace Contest

variable {α : Type} {c : Contest α}

/-- The word that a move writes to the age of the deque, if it writes one. -/
def ageWrite? (c : Contest α) (m : Move α) : Option UInt64 :=
  if c.failure.isSome then none
  else
    match m with
    | .owner =>
      match c.owner with
      | .idle => none
      | .pushing _ routine => routine.ageWrite? c.deque
      | .popping routine => routine.ageWrite? c.deque
    | .thief index =>
      match c.thieves[index]? with
      | some (.stealing routine) => routine.ageWrite? c.deque
      | _ => none
    | .reset => if c.isQuiet then c.deque.resetWrite? else none
    | _ => none

/-- The words that moves write to the age of the deque, one after another. -/
def ageWrites (c : Contest α) : List (Move α) → List UInt64
  | [] => []
  | m :: rest => (c.ageWrite? m).toList ++ (c.move m).ageWrites rest

/-- The age after a move is the word that was written, or the old one if none was. -/
theorem ageWord_move
    (c : Contest α) (m : Move α) :
    (c.move m).deque.ageWord = (c.ageWrite? m).getD c.deque.ageWord := by
  unfold Contest.move ageWrite?
  by_cases hover : c.failure.isSome
  · rw [if_pos hover, if_pos hover]
    rfl
  · rw [if_neg hover, if_neg hover]
    cases m with
    | startPush job | startPop | startSteal index =>
        dsimp only
        split <;> rfl
    | owner =>
        dsimp only [ownerMove]
        cases c.owner with
        | idle =>
            rfl
        | pushing pushed routine =>
            exact (congrArg _ (deque_ownerPushes _ _ _)).trans (Routine.ageWord_step _ _)
        | popping routine =>
            exact (congrArg _ (deque_ownerPops _ _)).trans (Routine.ageWord_step _ _)
    | thief index =>
        dsimp only [thiefMove]
        rcases c.thieves[index]? with _ | _ | routine
        · rfl
        · rfl
        · exact (congrArg _ (deque_thiefSteals _ _ _)).trans (Routine.ageWord_step _ _)
    | reset =>
        dsimp only [resetMove]
        split
        · split
          next deque hreset =>
            exact Deque.ageWord_reset hreset
          next hreset =>
            rw [Deque.resetWrite?_of_error hreset]
            rfl
          next hreset =>
            rw [Deque.resetWrite?_of_error hreset]
            rfl
        · rfl

/-- The owner writes only ages that are larger. -/
theorem Sound.lt_of_ownerWrite
    {live : List (Occurrence α)} {word : UInt64}
    (h : c.Sound live)
    (hfailure : c.failure = none)
    (hwrite : c.ageWrite? .owner = some word) :
    c.deque.ageWord < word := by
  have hstage := h.owner
  rw [ageWrite?, hfailure] at hwrite
  generalize c.owner = task at hstage hwrite
  cases hstage with
  | idle | asking | writing | looking | lifting | reading | weighing | clearing =>
      cases hwrite
  | publishing hend hroom o hslot =>
      cases (Routine.ageWrite?_publish c.deque c.deque.bottom).symm.trans hwrite
  | contending hbottom job hjob read hend htag htop fresh hfresh =>
      obtain ⟨hread, hfresher⟩ :
          c.deque.ageWord = read ∧ fresh.pack = word := by
        simpa [Routine.ageWrite?] using hwrite
      obtain ⟨hnew, -⟩ := Age.restarted?_eq_some.mp hfresh
      rw [htag] at hnew
      exact hfresher ▸ age_restarted c.deque hnew
  | restarting hbottom hlive fresh hnew hzero =>
      cases hwrite
      exact age_restarted c.deque hnew

/-- Thieves write only ages that are larger. -/
theorem Sound.lt_of_thiefWrite
    {live : List (Occurrence α)} {index : Nat} {word : UInt64}
    (h : c.Sound live)
    (hfailure : c.failure = none)
    (hwrite : c.ageWrite? (.thief index) = some word) :
    c.deque.ageWord < word := by
  rw [ageWrite?, hfailure] at hwrite
  cases hthief : c.thieves[index]? with
  | none =>
      simp [hthief] at hwrite
  | some task =>
      have hstage := h.thieves task (Array.mem_of_getElem? hthief)
      simp only [hthief, Option.isSome_none, Bool.false_eq_true, if_false] at hwrite
      cases hstage with
      | idle | starting | asking | reading =>
          cases hwrite
      | claiming read job hle hslot hjob =>
          obtain ⟨-, top, htop, rfl⟩ := Routine.ageWrite?_claim hwrite
          exact age_claimed c.deque htop

/-- A reset writes only ages that are larger. -/
theorem lt_of_resetWrite
    {word : UInt64}
    (hwrite : c.ageWrite? .reset = some word) :
    c.deque.ageWord < word := by
  simp only [ageWrite?, Deque.resetWrite?] at hwrite
  split at hwrite
  · cases hwrite
  · split at hwrite
    · split at hwrite
      · cases hwrite
      · obtain ⟨fresh, hfresh, rfl⟩ := Option.map_eq_some_iff.mp hwrite
        exact Sound.age_restarted c.deque (Age.restarted?_eq_some.mp hfresh).1
    · cases hwrite

/-- Each write makes the word of the age larger. -/
theorem Kept.lt_of_ageWrite
    {m : Move α} {word : UInt64}
    (h : c.Kept)
    (hwrite : c.ageWrite? m = some word) :
    c.deque.ageWord < word := by
  rcases h with ⟨hfailure, live, hsound⟩ | ⟨hfailure, -⟩
  · cases m with
    | startPush job | startPop | startSteal index =>
        simp [ageWrite?] at hwrite
    | owner =>
        exact hsound.lt_of_ownerWrite hfailure hwrite
    | thief index =>
        exact hsound.lt_of_thiefWrite hfailure hwrite
    | reset =>
        exact lt_of_resetWrite hwrite
  · simp [ageWrite?, hfailure] at hwrite

/-- The words that are written grow, from the first age on. -/
theorem Kept.pairwise_ageWrites
    (h : c.Kept)
    (moves : List (Move α)) :
    (c.deque.ageWord :: c.ageWrites moves).Pairwise (· < ·) := by
  induction moves generalizing c with
  | nil =>
      exact List.pairwise_singleton _ _
  | cons m rest ih =>
      have hrest := ih (h.move m)
      rw [ageWord_move] at hrest
      rw [ageWrites]
      cases hwrite : c.ageWrite? m with
      | none =>
          rw [hwrite] at hrest
          exact hrest
      | some word =>
          have hlt := h.lt_of_ageWrite hwrite
          rw [hwrite] at hrest
          refine List.pairwise_cons.mpr ⟨fun later hlater => ?_, hrest⟩
          rcases List.mem_cons.mp hlater with rfl | hlater
          · exact hlt
          · exact UInt64.lt_trans hlt ((List.pairwise_cons.mp hrest).1 later hlater)

/-- The age after many moves is the word that was written last, or the old one if none was. -/
theorem ageWord_play
    (c : Contest α) (moves : List (Move α)) :
    (c.play moves).deque.ageWord = (c.ageWrites moves).getLastD c.deque.ageWord := by
  induction moves generalizing c with
  | nil =>
      rfl
  | cons m rest ih =>
      rw [play_cons, ih, ageWord_move, ageWrites]
      cases c.ageWrite? m with
      | none =>
          rfl
      | some word =>
          rw [Option.toList_some, List.singleton_append, List.getLastD_cons]
          rfl

/-- The age is the same after some moves if and only if none of them has written it. -/
theorem Kept.ageWord_eq_iff
    (h : c.Kept)
    (moves : List (Move α)) :
    (c.play moves).deque.ageWord = c.deque.ageWord ↔ c.ageWrites moves = [] := by
  have hgrow := (List.pairwise_cons.mp (h.pairwise_ageWrites moves)).1
  rw [ageWord_play]
  rcases List.eq_nil_or_concat (c.ageWrites moves) with hnone | ⟨front, last, hsome⟩
  · simp [hnone]
  · have hlt := hgrow last (by simp [hsome])
    have hne : last ≠ c.deque.ageWord := fun hsame => UInt64.lt_irrefl _ (hsame ▸ hlt)
    simp [hsome, hne]

theorem thieves_ownerMove
    (c : Contest α) :
    c.ownerMove.thieves = c.thieves := by
  unfold ownerMove
  cases c.owner with
  | idle =>
      rfl
  | pushing pushed routine =>
      simp only [ownerPushes]
      split <;> rfl
  | popping routine =>
      simp only [ownerPops]
      split <;> rfl

theorem thieves_resetMove
    (c : Contest α) :
    c.resetMove.thieves = c.thieves := by
  unfold resetMove
  split <;> rfl

/-- The thief is in the middle of a steal that has read this age. -/
def StealsFrom (c : Contest α) (index : Nat) (word : UInt64) : Prop :=
  ∃ routine, c.thieves[index]? = some (.stealing routine) ∧ routine.Recalls word

/-- A thief's own move: it goes on with the same age in mind, or its steal is over. -/
theorem StealsFrom.thiefMove
    {index : Nat} {word : UInt64}
    (h : c.StealsFrom index word) :
    (c.thiefMove index).StealsFrom index word ∨
      (c.thiefMove index).thieves[index]? = some .idle := by
  obtain ⟨routine, hthief, hrecalls⟩ := h
  have hindex := (Array.getElem?_eq_some_iff.mp hthief).1
  unfold Contest.thiefMove
  simp only [hthief]
  have hstep := hrecalls.step c.deque
  generalize (routine.step c.deque).2 = after at hstep
  unfold thiefSteals
  split
  · exact .inr (Array.getElem?_setIfInBounds_self_of_lt hindex)
  · exact .inr (Array.getElem?_setIfInBounds_self_of_lt hindex)
  next hdone hfail =>
    rcases hstep with hafter | ⟨job, hover⟩ | ⟨cause, hover⟩
    · exact .inl ⟨_, Array.getElem?_setIfInBounds_self_of_lt hindex, hafter⟩
    · exact absurd hover (hdone job)
    · exact absurd hover (hfail cause)

/-- A move of anybody: the thief goes on with the same age in mind, or its steal is over. -/
theorem StealsFrom.move
    {index : Nat} {word : UInt64}
    (h : c.StealsFrom index word)
    (m : Move α) :
    (c.move m).StealsFrom index word ∨ (c.move m).thieves[index]? = some .idle := by
  have hsame : ∀ {next : Contest α}, next.thieves[index]? = c.thieves[index]? →
      next.StealsFrom index word := by
    rintro next heq
    obtain ⟨routine, hthief, hrecalls⟩ := h
    exact ⟨routine, heq.trans hthief, hrecalls⟩
  unfold Contest.move
  by_cases hover : c.failure.isSome
  · rw [if_pos hover]
    exact .inl h
  · rw [if_neg hover]
    cases m with
    | startPush job | startPop =>
        dsimp only
        split <;> exact .inl (hsame rfl)
    | owner =>
        exact .inl (hsame (by rw [thieves_ownerMove]))
    | reset =>
        dsimp only
        split
        · exact .inl (hsame (by rw [thieves_resetMove]))
        · exact .inl h
    | startSteal other =>
        dsimp only
        split
        next hidle =>
          obtain ⟨routine, hthief, -⟩ := h
          have hne : other ≠ index := by
            rintro rfl
            cases hidle.symm.trans hthief
          exact .inl (hsame (Array.getElem?_setIfInBounds_ne hne))
        · exact .inl h
    | thief other =>
        by_cases hother : other = index
        · subst hother
          exact h.thiefMove
        · refine .inl (hsame ?_)
          dsimp only [Contest.thiefMove]
          split
          · unfold thiefSteals
            split <;> exact Array.getElem?_setIfInBounds_ne hother
          · rfl

def thiefIsIdle (c : Contest α) (index : Nat) : Bool :=
  match c.thieves[index]? with
  | some .idle => true
  | _ => false

/-- The thief is at no time idle while these moves are made. -/
def keepsBusy (c : Contest α) (index : Nat) : List (Move α) → Bool
  | [] => !c.thiefIsIdle index
  | m :: rest => !c.thiefIsIdle index && (c.move m).keepsBusy index rest

theorem not_idle_of_keepsBusy
    {index : Nat} {moves : List (Move α)}
    (h : c.keepsBusy index moves = true) :
    c.thieves[index]? ≠ some .idle := by
  intro hidle
  cases moves <;> simp [keepsBusy, thiefIsIdle, hidle] at h

/-- As long as a thief is not idle, it is in the middle of the same steal. -/
theorem StealsFrom.play
    {index : Nat} {word : UInt64} {moves : List (Move α)}
    (h : c.StealsFrom index word)
    (hbusy : c.keepsBusy index moves = true) :
    (c.play moves).StealsFrom index word := by
  induction moves generalizing c with
  | nil =>
      exact h
  | cons m rest ih =>
      rw [keepsBusy, Bool.and_eq_true] at hbusy
      rcases h.move m with hnext | hidle
      · exact ih hnext hbusy.2
      · exact absurd hidle (not_idle_of_keepsBusy hbusy.2)

/-- After a failure there are no moves any more. -/
theorem failure_of_play
    {moves : List (Move α)}
    (h : (c.play moves).failure = none) :
    c.failure = none := by
  induction moves generalizing c with
  | nil =>
      exact h
  | cons m rest ih =>
      have hnext := ih h
      unfold Contest.move at hnext
      split at hnext
      · exact hnext
      next hgoing =>
        exact Option.not_isSome_iff_eq_none.mp hgoing

/-- A thief that reads the age has it in mind from then on, and writes nothing by that. -/
theorem Kept.stealsFrom
    {index : Nat} {next : UInt64 → Routine (Occurrence α) (Option (Occurrence α))}
    (h : c.Kept)
    (hfailure : c.failure = none)
    (hthief : c.thieves[index]? = some (.stealing (.loadAge next))) :
    (c.move (.thief index)).StealsFrom index c.deque.ageWord ∧
      (c.move (.thief index)).deque.ageWord = c.deque.ageWord := by
  have hindex := (Array.getElem?_eq_some_iff.mp hthief).1
  have hgoing : ¬ c.failure.isSome = true := by simp [hfailure]
  have hstays : c.ageWrite? (.thief index) = none := by
    simp [ageWrite?, hthief, Routine.ageWrite?]
  rcases h with ⟨-, live, hsound⟩ | ⟨hover, -⟩
  · have hstage := hsound.thieves _ (Array.mem_of_getElem? hthief)
    generalize htask : ThiefTask.stealing (.loadAge next) = task at hstage
    cases hstage with
    | starting =>
        cases htask
        refine ⟨⟨.stealAt c.deque.ageWord, ?_, .asking⟩, by rw [ageWord_move, hstays]; rfl⟩
        rw [Contest.move, if_neg hgoing]
        simp only [Contest.thiefMove, hthief]
        exact Array.getElem?_setIfInBounds_self_of_lt hindex
    | claiming read job hle hslot hjob =>
        obtain ⟨top, -, hclaim⟩ := Routine.claim_eq read job
          (Nat.lt_of_lt_of_le hslot c.deque.capacity_le)
        rw [hclaim] at htask
        cases htask
    | idle | asking | reading =>
        cases htask
  · cases hfailure.symm.trans hover

/-- What holds of the ages of a deque from the start of a contest on, when these moves have been
made. -/
structure Ages (start : Contest α) (moves : List (Move α)) : Prop where
  /-- A write of the age makes its word larger. -/
  grows : ∀ m word, (start.play moves).ageWrite? m = some word →
    (start.play moves).deque.ageWord < word ∧
      ((start.play moves).move m).deque.ageWord = word
  /-- Without a write the age stays. -/
  stays : ∀ m, (start.play moves).ageWrite? m = none →
    ((start.play moves).move m).deque.ageWord = (start.play moves).deque.ageWord
  /-- Each word is larger than all that were there before. -/
  increasing : (start.deque.ageWord :: start.ageWrites moves).Pairwise (· < ·)
  /-- The exchange of a thief that has read the age, and has been in the middle of the same steal
  since, succeeds if and only if nobody has written the age in between. -/
  exchange : ∀ before index between read expected word next,
    moves = before ++ .thief index :: between →
    (start.play before).thieves[index]? = some (.stealing (.loadAge read)) →
    ((start.play before).move (.thief index)).keepsBusy index between = true →
    (start.play moves).thieves[index]? = some (.stealing (.swapAge expected word next)) →
    (start.play moves).failure = none →
    ((start.play moves).ageWrite? (.thief index) = some word ↔
      ((start.play before).move (.thief index)).ageWrites between = [])

/-- No age comes back in a contest around a deque that starts with its first slot, whatever its tag
is, for any number of thieves and any order of moves. -/
theorem ages_play
    {deque : Deque (Occurrence α)}
    (hclean : deque.IsClean)
    (thieves : Nat) (moves : List (Move α)) :
    Ages (ofDeque deque thieves) moves := by
  have hstart : (ofDeque deque thieves).Kept :=
    .inl ⟨rfl, [], sound_ofDeque hclean.bottom hclean.top thieves⟩
  refine ⟨fun m word hwrite => ?_, fun m hwrite => ?_, hstart.pairwise_ageWrites moves, ?_⟩
  · rw [ageWord_move, hwrite]
    exact ⟨(hstart.play moves).lt_of_ageWrite hwrite, rfl⟩
  · rw [ageWord_move, hwrite]
    rfl
  · rintro before index between read expected word next rfl hread hbusy hswap hfailure
    rw [play_append] at hswap hfailure ⊢
    have hbefore := hstart.play before
    generalize (ofDeque deque thieves).play before = c at hread hbusy hswap hfailure hbefore ⊢
    obtain ⟨hsteals, hsame⟩ := hbefore.stealsFrom (failure_of_play hfailure) hread
    have hkept := hbefore.move (.thief index)
    rw [play_cons] at hswap hfailure ⊢
    generalize c.move (.thief index) = d at hbusy hswap hfailure hsteals hsame hkept ⊢
    obtain ⟨routine, hthief, hrecalls⟩ := hsteals.play hbusy
    have hexpected : expected = c.deque.ageWord := by
      cases hswap.symm.trans hthief
      exact hrecalls.eq_of_swapAge
    rw [← hkept.ageWord_eq_iff between, hsame, ← hexpected]
    simp [ageWrite?, hfailure, hswap, Routine.ageWrite?]

def twoSlots : Deque (Occurrence Nat) :=
  { capacity := 2, capacity_pos := by decide, capacity_le := by decide }

/-- A job is pushed, and a thief is about to read the age. -/
def beforeRead : List (Move Nat) :=
  [.startPush 7, .owner, .owner, .owner, .startSteal 0]

def afterRead : List (Move Nat) :=
  [.thief 0, .thief 0, .startPop, .owner, .owner, .owner, .owner, .owner, .owner,
    .startPush 8, .owner, .owner, .owner]

/-- A thief is about to exchange an age that it has read before the owner emptied the deque and
filled it again: the top is the same, and the exchange fails. -/
theorem ages_play_refilled :
    twoSlots.IsClean ∧
      ∃ c, c = (ofDeque twoSlots 1).play (beforeRead ++ .thief 0 :: afterRead) ∧
        c.deque.age.top = ((ofDeque twoSlots 1).play beforeRead).deque.age.top ∧
        c.deque.size = 1 ∧ (∃ next, c.thieves[0]? = some (.stealing (.swapAge 0 1 next))) ∧
        ¬ c.ageWrite? (.thief 0) = some 1 := by
  have hclean : twoSlots.IsClean := ⟨rfl, rfl, rfl⟩
  have hread : ((ofDeque twoSlots 1).play beforeRead).thieves[0]? =
      some (.stealing (.loadAge .stealAt)) := rfl
  have hbusy : (((ofDeque twoSlots 1).play beforeRead).move (.thief 0)).keepsBusy 0 afterRead =
      true := rfl
  have hswap : ((ofDeque twoSlots 1).play (beforeRead ++ .thief 0 :: afterRead)).thieves[0]? =
      some (.stealing (.swapAge 0 1 fun won => .done (if won then some ⟨0, 7⟩ else none))) := rfl
  have hwrites : (((ofDeque twoSlots 1).play beforeRead).move (.thief 0)).ageWrites afterRead =
      [4294967296] := rfl
  have hages := ages_play hclean 1 (beforeRead ++ .thief 0 :: afterRead)
  have hexchange := hages.exchange beforeRead 0 afterRead _ _ _ _ rfl hread hbusy hswap rfl
  refine ⟨hclean, _, rfl, ?_, ?_, ⟨_, hswap⟩, fun hwrite => ?_⟩
  · decide
  · decide
  · cases hwrites.symm.trans (hexchange.mp hwrite)

end Contest
end WorkStealing
