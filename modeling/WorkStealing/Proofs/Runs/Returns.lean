import WorkStealing.Proofs.Machine.Fairness
import WorkStealing.Proofs.Machine.Passage
import WorkStealing.Proofs.Runs.Sessions
import WorkStealing.Proofs.Runs.Waits

/-!
# When a wait returns

What an open wait does makes up a story (`Wait.Stands.story`), and so a wait stops with
the first evaluation that holds (`Wait.Stops`). If its thread has turns again and again,
and no job keeps it for ever, each turn of its own brings it closer to the evaluation
that is its last one (`Wait.StandsAt.comes_closer`). So it returns after as many
evaluations as the condition needs (`Wait.called_stops`).
-/

namespace WorkStealing
namespace Machine
namespace Wait

theorem isOver_of_lt
    {wait : Wait} {s : System}
    (h : (s.callsOf wait.index).length < wait.below.length) :
    wait.IsOver s ∧ s.callsOf wait.index ≠ wait.below :=
  ⟨Nat.le_of_lt h, fun heq => Nat.lt_irrefl _ (heq ▸ h)⟩

theorem Returned.isOver
    {wait : Wait} {number : Nat} {seen : Memory} {s : System}
    (h : wait.Returned number seen s) :
    wait.IsOver s := by
  rw [IsOver, h.calls]

section Runs

variable {wait : Wait} {deques capacity evaluations : Nat} {frame : Frame} {above : List Frame}
  {s : System}

/-- What a step spends was to be spent. -/
theorem Story.spend
    {next : Frame} {deed : Option Deed} {deeds : List Deed} {left : Option System}
    (h : wait.Story evaluations next.jobsLeft next.triesLeft deeds left)
    (hhelper : wait.helper ≠ none)
    (hspends : frame.Spends next deed) :
    wait.Story evaluations frame.jobsLeft frame.triesLeft (deed.toList ++ deeds) left := by
  obtain ⟨hsilent, hjobs, htries, -⟩ := hspends
  cases deed with
  | none =>
      exact h.mono (by simpa using hjobs) (by simpa using htries)
  | some deed =>
      cases deed with
      | asks number seen =>
          cases hsilent _ rfl
      | pops =>
          exact .pops hhelper (h.mono (by simpa [Deed.isDispatch] using hjobs)
            (by simpa [Deed.isSteal] using htries))
      | steals target =>
          simp [Deed.isDispatch, Deed.isSteal] at hjobs htries
          exact (Story.steals hhelper target h).mono hjobs (by omega)
      | dispatches job =>
          simp [Deed.isDispatch, Deed.isSteal] at hjobs htries
          exact (Story.dispatches hhelper job h).mono (by omega) htries

/-- What an open wait does is a story. -/
theorem Stands.story
    (h : wait.Stands deques evaluations frame above s)
    (hsteady : s.world.scheduler.Steady deques capacity)
    (schedule : List Nat) :
    wait.Story evaluations frame.jobsLeft frame.triesLeft (wait.deeds s schedule)
      (wait.left? s schedule) := by
  induction schedule generalizing evaluations frame above s with
  | nil =>
      rw [left?, if_neg h.not_over]
      exact .pending
  | cons turn schedule ih =>
      have hnext := hsteady.continues (System.continues_advance s turn).scheduler
      rw [deeds_cons h.not_over, left?_cons h.not_over]
      by_cases hown : turn = wait.index ∧ above = [] ∧ s.aborted = none
      · obtain ⟨rfl, rfl, hgoing⟩ := hown
        have hacts := h.acts hsteady hgoing
        generalize s.advance wait.index = t at hacts hnext ⊢
        generalize wait.deed? s wait.index = deed at hacts ⊢
        cases hacts with
        | returns hholds hreturned =>
            rw [deeds_of_over hreturned.isOver, left?_of_over hreturned.isOver]
            exact .returned hholds hreturned
        | asks hholds hstands =>
            exact .again hholds ((ih hstands hnext).mono (Frame.jobsLeft_le _)
              (Frame.triesLeft_le _))
        | panics hholds hleft =>
            rcases hleft with hshort | ⟨haborted, hstands⟩
            · obtain ⟨hover, hne⟩ := isOver_of_lt hshort
              rw [deeds_of_over hover, left?_of_over hover]
              refine .failed hholds ?_
              rintro _ ⟨⟩
              exact hne
            · rw [deeds_of_aborted haborted, left?_of_aborted haborted hstands.not_over]
              refine .failed hholds ?_
              intro t hleft
              cases hleft
        | works hhelper hspends hstands =>
            exact (ih hstands hnext).spend hhelper hspends
        | exhausted hhelper haborted hstands =>
            rw [deeds_of_aborted haborted, left?_of_aborted haborted hstands.not_over]
            exact .pops hhelper .pending
      · obtain ⟨hdeed, hrests⟩ := h.idles hown
        rw [hdeed]
        generalize s.advance turn = t at hrests hnext ⊢
        cases hrests with
        | stays hmore hstands =>
            exact ih hstands hnext
        | unwinds habove hshort =>
            obtain ⟨hover, hne⟩ := isOver_of_lt hshort
            rw [deeds_of_over hover, left?_of_over hover]
            exact .unwound hne

/-- A wait is left in a turn, or stands as it may. -/
theorem Stands.advance
    (h : wait.Stands deques evaluations frame above s)
    (hsteady : s.world.scheduler.Steady deques capacity)
    (turn : Nat) :
    wait.IsOver (s.advance turn) ∨
      ∃ evaluations frame above, wait.Stands deques evaluations frame above (s.advance turn) := by
  by_cases hown : turn = wait.index ∧ above = [] ∧ s.aborted = none
  · obtain ⟨rfl, rfl, hgoing⟩ := hown
    have hacts := h.acts hsteady hgoing
    generalize s.advance wait.index = t at hacts ⊢
    generalize wait.deed? s wait.index = deed at hacts
    cases hacts with
    | returns _ hreturned =>
        exact .inl hreturned.isOver
    | panics _ hleft =>
        exact hleft.imp (fun hshort => (isOver_of_lt hshort).1) fun hgone => ⟨_, _, _, hgone.2⟩
    | asks _ hstands | works _ _ hstands | exhausted _ _ hstands =>
        exact .inr ⟨_, _, _, hstands⟩
  · obtain ⟨-, hrests⟩ := h.idles hown
    cases hrests with
    | stays _ hstands => exact .inr ⟨_, _, _, hstands⟩
    | unwinds _ hshort => exact .inl (isOver_of_lt hshort).1

/-- While it is not left it stands. -/
theorem Stands.run
    (h : wait.Stands deques evaluations frame above s)
    (hsteady : s.world.scheduler.Steady deques capacity)
    {schedule : List Nat}
    (hopen : wait.left? s schedule = none) :
    ∃ evaluations frame above, wait.Stands deques evaluations frame above (s.run schedule) := by
  induction schedule generalizing evaluations frame above s with
  | nil =>
      exact ⟨evaluations, frame, above, h⟩
  | cons turn schedule ih =>
      rw [left?_cons h.not_over] at hopen
      obtain ⟨_, _, _, hnext⟩ := (h.advance hsteady turn).resolve_left (not_over_of_left? hopen)
      exact ih hnext (hsteady.continues (System.continues_advance s turn).scheduler) hopen

end Runs

/-- What is known of a wait after so many turns of threads. -/
structure Stops (wait : Wait) (s : System) (schedule : List Nat) : Prop where
  /-- Evaluations are numbered one after another, and something is done after one only if it has
  answered that the condition does not hold. -/
  evaluates : ∀ before number seen after,
    wait.deeds s schedule = before ++ .asks number seen :: after →
      number = before.countP Deed.isAsk + 1 ∧
        (wait.test number seen = .ok false ∨ after = [])
  /-- When the condition holds, the wait has returned. -/
  returns : ∀ number seen, .asks number seen ∈ wait.deeds s schedule →
    wait.test number seen = .ok true →
      ∃ t, wait.left? s schedule = some t ∧ wait.Returned number seen t
  /-- It returns only then. -/
  holds : ∀ t, wait.left? s schedule = some t → t.callsOf wait.index = wait.below →
    ∃ number seen, .asks number seen ∈ wait.deeds s schedule ∧ wait.test number seen = .ok true
  /-- Without an evaluation at most one job is given out and one steal attempt is made. -/
  paced : ∀ before between after, wait.deeds s schedule = before ++ between ++ after →
    (∀ deed ∈ between, deed.isAsk = false) →
      between.countP Deed.isDispatch ≤ 1 ∧ between.countP Deed.isSteal ≤ 1
  /-- A wait as nobody does nothing but evaluate. -/
  polls : wait.helper = none → ∀ deed ∈ wait.deeds s schedule, deed.isAsk = true
  /-- It does not touch the scheduler then, and so no deque. -/
  untouched : wait.helper = none → wait.left? s schedule = none → wait.IsNext (s.run schedule) →
    ((s.run schedule).advance wait.index).world.scheduler = (s.run schedule).world.scheduler
  /-- While it is open, its own next step fails only with a panic of the condition, or when there is
  no tag left for a pop. -/
  fails : wait.left? s schedule = none → wait.IsNext (s.run schedule) →
    ∀ thread frame below, (s.run schedule).At wait.index thread frame below →
      ∀ world cause, frame.step (s.run schedule).world thread.identity = .fail world cause →
        (∃ number panic, wait.test number (s.run schedule).world.toMemory = .error panic ∧
          cause = .panic panic) ∨
        wait.helper ≠ none ∧ cause = .error .tagExhausted

/-- A wait that has not evaluated its condition yet stops as it should, however long it goes on. -/
theorem Stands.stops
    {wait : Wait} {deques capacity : Nat} {frame : Frame} {s : System}
    (h : wait.Stands deques 0 frame [] s)
    (hsteady : s.world.scheduler.Steady deques capacity)
    (hjobs : frame.jobsLeft = 0)
    (htries : frame.triesLeft = 0)
    (schedule : List Nat) :
    wait.Stops s schedule := by
  have hstory := h.story hsteady schedule
  rw [hjobs, htries] at hstory
  have hlater := hsteady.continues (System.continues_run s schedule).scheduler
  refine ⟨fun before number seen after hdeeds => ?_, fun _ _ => hstory.returns,
    fun t hleft hcalls => ?_, fun before between after hdeeds hbetween => ?_, hstory.asks_only,
    fun hhelper hopen hnext => ?_, fun hopen hnext thread upper lower hat world cause hmove => ?_⟩
  · rw [hdeeds] at hstory
    obtain ⟨_, _, _, -, -, hrest⟩ := hstory.drop (Nat.zero_le 1) (Nat.zero_le 1)
    rw [Nat.zero_add] at hrest
    exact hrest.numbered
  · rw [hleft] at hstory
    exact hstory.of_left hcalls
  · rw [hdeeds, List.append_assoc] at hstory
    obtain ⟨_, _, _, hone, hother, hrest⟩ := hstory.drop (Nat.zero_le 1) (Nat.zero_le 1)
    obtain ⟨hdispatched, hstolen⟩ := hrest.paced hbetween
    exact ⟨Nat.le_trans hdispatched hone, Nat.le_trans hstolen hother⟩
  · obtain ⟨evaluations, next, above, hstands⟩ := h.run hsteady hopen
    obtain rfl := hstands.isNext_iff.mp hnext
    exact hstands.scheduler_advance hlater hhelper
  · obtain ⟨evaluations, next, above, hstands⟩ := h.run hsteady hopen
    obtain rfl := hstands.isNext_iff.mp hnext
    obtain ⟨other, hother, hframes⟩ := hstands.exists_thread
    cases hat.found.symm.trans hother
    cases hat.frames.symm.trans hframes
    have hturns : Turns wait deques evaluations (s.run schedule).world thread.identity upper
        (upper.step (s.run schedule).world thread.identity) :=
      hstands.plays.turns hlater
    rw [hmove] at hturns
    cases hturns with
    | panics hdeed hholds => exact .inl ⟨_, _, hholds, rfl⟩
    | exhausted hhelper hdeed => exact .inr ⟨hhelper, rfl⟩

/-- The thread of the wait has a turn again and again, and no job that it executes above the wait
keeps it for ever: it comes back to the wait, or the process is given up. -/
structure IsServed (wait : Wait) (s : System) (σ : Nat → Nat) : Prop where
  scheduled : ∀ m, ∃ k, m ≤ k ∧ σ k = wait.index
  jobs : ∀ m, wait.left? s (turns σ m) = none → ∃ k, m ≤ k ∧
    ((s.run (turns σ k)).aborted.isSome = true ∨
      wait.left? s (turns σ k) = none ∧ wait.IsNext (s.run (turns σ k)))

/-- The condition does not hold before the evaluation of that number, and holds from it on. -/
def HoldsFrom (wait : Wait) (s : System) (σ : Nat → Nat) (n : Nat) : Prop :=
  ∀ m number seen, .asks number seen ∈ wait.deeds s (turns σ m) →
    wait.test number seen = .ok (decide (n ≤ number))

/-- After so many turns the wait has returned, or the process was given up. -/
def HasEnded (wait : Wait) (s : System) (σ : Nat → Nat) (m : Nat) : Prop :=
  (s.run (turns σ m)).aborted.isSome = true ∨
    ∃ t, wait.left? s (turns σ m) = some t ∧ t.callsOf wait.index = wait.below

/-- After so many turns the wait is open, and stands so. -/
structure StandsAt (wait : Wait) (deques : Nat) (s : System) (σ : Nat → Nat) (m evaluations : Nat)
    (frame : Frame) (above : List Frame) : Prop where
  pending : wait.left? s (turns σ m) = none
  stands : wait.Stands deques evaluations frame above (s.run (turns σ m))

section Schedules

variable {wait : Wait} {deques capacity evaluations n m k : Nat} {frame next : Frame}
  {above more : List Frame} {s : System} {σ : Nat → Nat}

/-- What is not left was not left before. -/
theorem left?_of_le
    (hle : m ≤ k)
    (h : wait.left? s (turns σ k) = none) :
    wait.left? s (turns σ m) = none := by
  obtain ⟨d, rfl⟩ := Nat.exists_eq_add_of_le hle
  clear hle
  induction d with
  | zero =>
      exact h
  | succ d ih =>
      apply ih
      cases hleft : wait.left? s (turns σ (m + d)) with
      | none =>
          rfl
      | some t =>
          rw [← Nat.add_assoc, turns_succ, left?_append_of_some hleft] at h
          cases h

namespace StandsAt

/-- The next turn of an open wait. -/
theorem left?_succ
    (h : wait.StandsAt deques s σ m evaluations frame above) :
    wait.left? s (turns σ (m + 1)) =
      if wait.IsOver (s.run (turns σ (m + 1))) then some (s.run (turns σ (m + 1))) else none := by
  rw [System.run_turns_succ, turns_succ, left?_append h.pending, left?_cons h.stands.not_over]
  rfl

theorem deeds_succ
    (h : wait.StandsAt deques s σ m evaluations frame above) :
    wait.deeds s (turns σ (m + 1)) =
      wait.deeds s (turns σ m) ++ (wait.deed? (s.run (turns σ m)) (σ m)).toList := by
  rw [turns_succ, deeds_append h.pending, deeds_cons h.stands.not_over]
  exact congrArg _ (List.append_nil _)

theorem succ
    (h : wait.StandsAt deques s σ m evaluations frame above)
    {count : Nat}
    (hnext : wait.Stands deques count next more (s.run (turns σ (m + 1)))) :
    wait.StandsAt deques s σ (m + 1) count next more :=
  ⟨h.left?_succ.trans (if_neg hnext.not_over), hnext⟩

/-- In a turn that is not its own an open wait stays as it is, unless a panic comes from above. -/
theorem idles
    (h : wait.StandsAt deques s σ m evaluations frame above)
    (hidle : ¬ (σ m = wait.index ∧ above = [])) :
    (∃ more, (above = [] → more = []) ∧
      wait.StandsAt deques s σ (m + 1) evaluations frame more) ∨
      above ≠ [] ∧ wait.left? s (turns σ (m + 1)) ≠ none := by
  obtain ⟨-, hrests⟩ := h.stands.idles (fun hown => hidle ⟨hown.1, hown.2.1⟩)
  rw [← System.run_turns_succ] at hrests
  generalize ht : s.run (turns σ (m + 1)) = t at hrests
  cases hrests with
  | @stays more _ hmore hstands =>
      exact .inl ⟨more, hmore, h.succ (ht ▸ hstands)⟩
  | unwinds habove hshort =>
      refine .inr ⟨habove, ?_⟩
      rw [h.left?_succ, ht, if_pos (isOver_of_lt hshort).1]
      exact Option.some_ne_none t

/-- A wait that has a job above it comes back to itself if it ever does. -/
theorem comes_back
    (h : wait.StandsAt deques s σ m evaluations frame above)
    (hle : m ≤ k)
    (hpending : wait.left? s (turns σ k) = none)
    (hnext : wait.IsNext (s.run (turns σ k))) :
    ∃ l, wait.StandsAt deques s σ l evaluations frame [] := by
  obtain ⟨d, rfl⟩ := Nat.exists_eq_add_of_le hle
  induction d generalizing m above with
  | zero =>
      obtain rfl := h.stands.isNext_iff.mp hnext
      exact ⟨m, h⟩
  | succ d ih =>
      by_cases habove : above = []
      · exact ⟨m, habove ▸ h⟩
      · rw [← Nat.add_assoc, Nat.add_right_comm] at hpending hnext
        rcases h.idles (fun hown => habove hown.2) with ⟨more, -, hlater⟩ | ⟨-, hleft⟩
        · exact ih hlater (Nat.le_add_right _ d) hpending hnext
        · exact absurd (left?_of_le (Nat.le_add_right _ d) hpending) hleft

/-- Until its own turn it stays as it is. -/
theorem comes_to_turn
    (h : wait.StandsAt deques s σ m evaluations frame [])
    (hle : m ≤ k)
    (hturn : σ k = wait.index) :
    ∃ l, σ l = wait.index ∧ wait.StandsAt deques s σ l evaluations frame [] := by
  obtain ⟨d, rfl⟩ := Nat.exists_eq_add_of_le hle
  induction d generalizing m with
  | zero =>
      exact ⟨m, hturn, h⟩
  | succ d ih =>
      by_cases hown : σ m = wait.index
      · exact ⟨m, hown, h⟩
      · rw [← Nat.add_assoc, Nat.add_right_comm] at hturn
        rcases h.idles (fun hself => hown hself.1) with ⟨more, hmore, hlater⟩ | ⟨habove, -⟩
        · obtain rfl := hmore rfl
          exact ih hlater (Nat.le_add_right _ d) hturn
        · exact absurd rfl habove

/-- How far it is to the last evaluation: seven steps for each evaluation that is still to come, and
those before the next one. -/
def remaining (n evaluations : Nat) (frame : Frame) : Nat :=
  (max n 1 - evaluations) * 7 + frame.stepsLeft

/-- An open wait ends, or comes closer to the evaluation that is its last one. -/
theorem comes_closer
    (hserved : wait.IsServed s σ)
    (hfrom : wait.HoldsFrom s σ n)
    (hsteady : s.world.scheduler.Steady deques capacity)
    (hfew : evaluations < max n 1)
    (h : wait.StandsAt deques s σ m evaluations frame []) :
    (∃ l, wait.HasEnded s σ l) ∨
      ∃ l count next, count < max n 1 ∧ remaining n count next < remaining n evaluations frame ∧
        wait.StandsAt deques s σ l count next [] := by
  obtain ⟨k, hle, hturn⟩ := hserved.scheduled m
  obtain ⟨l, hown, h⟩ := h.comes_to_turn hle hturn
  by_cases haborted : (s.run (turns σ l)).aborted = none
  · have hdeeds := h.deeds_succ
    have hleft := h.left?_succ
    have hacts := h.stands.acts
      (hsteady.continues (System.continues_run s (turns σ l)).scheduler) haborted
    rw [← hown, ← System.run_turns_succ] at hacts
    generalize hseen : (s.run (turns σ l)).world.toMemory = seen at hacts
    generalize hdeed : wait.deed? (s.run (turns σ l)) (σ l) = deed at hacts hdeeds
    generalize ht : s.run (turns σ (l + 1)) = t at hacts hleft
    have hanswer : deed = some (.asks (evaluations + 1) seen) →
        wait.test (evaluations + 1) seen = .ok (decide (n ≤ evaluations + 1)) := by
      rintro rfl
      refine hfrom (l + 1) _ _ ?_
      rw [hdeeds]
      exact List.mem_append_right _ List.mem_cons_self
    cases hacts with
    | returns hholds hreturned =>
        rw [if_pos hreturned.isOver] at hleft
        exact .inl ⟨l + 1, .inr ⟨t, hleft, hreturned.calls⟩⟩
    | @asks next _ hholds hstands =>
        rw [hanswer rfl] at hholds
        have hless : ¬ n ≤ evaluations + 1 := of_decide_eq_false (Except.ok.inj hholds)
        have hsteps := next.stepsLeft_le
        refine .inr ⟨l + 1, evaluations + 1, next, by omega, ?_, h.succ (ht ▸ hstands)⟩
        simp only [remaining]
        omega
    | panics hholds =>
        rw [hanswer rfl] at hholds
        cases hholds
    | @works next _ _ _ _ hspends hstands =>
        have hclose := hspends.steps
        have hnext := h.succ (ht ▸ hstands)
        obtain ⟨k, hle, haborted | ⟨hpending, hback⟩⟩ := hserved.jobs (l + 1) hnext.pending
        · exact .inl ⟨k, .inl haborted⟩
        · obtain ⟨j, hat⟩ := hnext.comes_back hle hpending hback
          exact .inr ⟨j, evaluations, next, hfew, Nat.add_lt_add_left hclose _, hat⟩
    | exhausted _ haborted =>
        exact .inl ⟨l + 1, .inl (ht ▸ haborted)⟩
  · exact .inl ⟨l, .inl (Option.isSome_iff_ne_none.mpr haborted)⟩

/-- An open wait ends, by induction on what is left to do. -/
theorem ends
    (hserved : wait.IsServed s σ)
    (hfrom : wait.HoldsFrom s σ n)
    (hsteady : s.world.scheduler.Steady deques capacity)
    (hfew : evaluations < max n 1)
    (h : wait.StandsAt deques s σ m evaluations frame []) :
    ∃ l, wait.HasEnded s σ l := by
  generalize hfuel : remaining n evaluations frame = fuel
  induction fuel using Nat.strong_induction_on generalizing m evaluations frame with
  | _ fuel ih =>
      rcases h.comes_closer hserved hfrom hsteady hfew with hended | ⟨l, count, next, hcount,
        hless, hnext⟩
      · exact hended
      · exact ih _ (hfuel ▸ hless) hcount hnext rfl

end StandsAt
end Schedules

/-- The wait that a thread in the system calls next, before this code and these frames. -/
def called (s : System) (index : Nat) (identity : Option Nat) (test : Condition) (rest : Code)
    (outer : List Frame) : Wait :=
  { index, test, helper := s.world.scheduler.helper? identity, rest, outer }

section Call

variable {s : System} {index : Nat} {thread : Thread} {test : Condition} {rest : Code}
  {outer : List Frame} {deques capacity : Nat}

/-- The frame of a wait that was just called. -/
theorem plays_waitFrame
    (hsteady : s.world.scheduler.Steady deques capacity)
    (identity : Option Nat) :
    (called s index identity test rest outer).Plays deques 0
      (waitFrame s.world.scheduler identity (.condition test)) := by
  have hwithin := within_waitFrame hsteady.sound identity (.condition test)
  unfold waitFrame at hwithin ⊢
  split
  next worker hpolicy hworker =>
    rw [hpolicy, hworker] at hwithin
    refine .loop ?_ hwithin
    rw [called, Scheduler.helper?, hpolicy, hworker]
  next hother =>
    refine .poll ?_
    rw [called, Scheduler.helper?]
    split
    next hpolicy =>
      cases hworker : s.world.scheduler.workerOf identity with
      | none => rfl
      | some worker => exact absurd hworker (hother worker hpolicy)
    next => rfl

/-- The wait stands as soon as it is called. -/
theorem stands_called
    (hsteady : s.world.scheduler.Steady deques capacity)
    (hat : s.At index thread (.perform (.wait test :: rest)) outer) :
    (called s index thread.identity test rest outer).Stands deques 0
        (waitFrame s.world.scheduler thread.identity (.condition test)) [] (s.advance index) ∧
      (s.advance index).world.scheduler = s.world.scheduler := by
  have hin : index < s.threads.size := (Array.getElem?_eq_some_iff.mp hat.found).1
  rw [System.advance_of_go hat.going hat.found hat.frames rfl]
  exact ⟨⟨System.callsOf_set hin _ _, plays_waitFrame hsteady _, fun hnot => absurd rfl hnot⟩, rfl⟩

end Call

/-- A wait on a scheduler that was built, whatever its deques hold and whatever everybody does:
it stops with the first evaluation that holds. If the condition holds from one evaluation on, the
wait comes to an end after just so many, and gives out fewer jobs. -/
theorem called_stops
    {config : Config} {offered : UInt64} {start : Scheduler}
    (hbuild : Scheduler.build config offered = .ok start)
    {s : System}
    (hcontent : start.Continues s.world.scheduler)
    {index : Nat} {thread : Thread} {test : Condition} {rest : Code} {outer : List Frame}
    (hat : s.At index thread (.perform (.wait test :: rest)) outer) :
    let wait := called s index thread.identity test rest outer
    (∀ schedule, wait.Stops (s.advance index) schedule) ∧
      ∀ σ n, wait.IsServed (s.advance index) σ → wait.HoldsFrom (s.advance index) σ n →
        ∃ m, ((s.advance index).run (turns σ m)).aborted.isSome = true ∨
          ∃ t, wait.left? (s.advance index) (turns σ m) = some t ∧
            t.callsOf index = wait.below ∧
            (wait.deeds (s.advance index) (turns σ m)).countP Deed.isAsk = max n 1 ∧
            (wait.deeds (s.advance index) (turns σ m)).countP Deed.isDispatch ≤ max n 1 - 1 := by
  intro wait
  have hsteady := (Scheduler.steady_of_build hbuild).continues hcontent
  obtain ⟨hstands, hsame⟩ := stands_called hsteady hat
  have hjobs : (waitFrame s.world.scheduler thread.identity (.condition test)).jobsLeft = 0 := by
    unfold waitFrame
    split <;> rfl
  have htries : (waitFrame s.world.scheduler thread.identity (.condition test)).triesLeft = 0 := by
    unfold waitFrame
    split <;> rfl
  rw [← hsame] at hsteady
  refine ⟨hstands.stops hsteady hjobs htries, fun σ n hserved hfrom => ?_⟩
  have hat : wait.StandsAt start.dequeCount (s.advance index) σ 0 0
      (waitFrame s.world.scheduler thread.identity (.condition test)) [] :=
    ⟨if_neg hstands.not_over, hstands⟩
  obtain ⟨m, haborted | ⟨t, hleft, hcalls⟩⟩ := hat.ends hserved hfrom hsteady (by omega)
  · exact ⟨m, .inl haborted⟩
  · have hstory := hstands.story hsteady (turns σ m)
    rw [hjobs, htries] at hstory
    obtain ⟨number, seen, hmem, hholds⟩ := Story.of_left (hleft ▸ hstory) hcalls
    exact ⟨m, .inr ⟨t, hleft, hcalls, hstory.counts (hfrom m) hmem hholds⟩⟩

/-- A worker that is about to wait for the second evaluation, with a job in its deque. -/
def helpful : System :=
  { world :=
      { scheduler := Session.first.world.scheduler, bodies := #[[.log "job"]], flags := #[{}] }
    threads := #[
      { frames := [.perform [.spawn 0, .wait (Condition.polls 2)]], identity := some 0 }] }

def pushed : System := helpful.run [0, 0, 0]

/-- Between the two evaluations it executes the job. -/
theorem helpful_stops :
    ∃ thread,
      Scheduler.build Session.pairConfig 1 = .ok Session.first.world.scheduler ∧
      Session.first.world.scheduler.Continues pushed.world.scheduler ∧
      pushed.At 0 thread (.perform [.wait (Condition.polls 2)]) [] ∧
      let wait := called pushed 0 thread.identity (Condition.polls 2) [] []
      wait.helper = some 0 ∧ wait.Stops (pushed.advance 0) [0, 0, 0, 0] ∧
      wait.IsServed (pushed.advance 0) (fun _ => 0) ∧
      wait.HoldsFrom (pushed.advance 0) (fun _ => 0) 2 ∧
      ∃ m t, wait.left? (pushed.advance 0) (turns (fun _ => 0) m) = some t ∧
        t.callsOf 0 = wait.below ∧
        (wait.deeds (pushed.advance 0) (turns (fun _ => 0) m)).countP Deed.isAsk = 2 ∧
        (wait.deeds (pushed.advance 0) (turns (fun _ => 0) m)).countP Deed.isDispatch ≤ 1 := by
  have hbuild : Scheduler.build Session.pairConfig 1 = .ok Session.first.world.scheduler := rfl
  have hcontent : Session.first.world.scheduler.Continues pushed.world.scheduler :=
    (System.continues_run helpful [0, 0, 0]).scheduler
  have hat : pushed.At 0 _ (.perform [.wait (Condition.polls 2)]) [] := ⟨rfl, rfl, rfl⟩
  obtain ⟨hstops, hends⟩ := called_stops hbuild hcontent hat
  have hserved : (called pushed 0 (some 0) (Condition.polls 2) [] []).IsServed (pushed.advance 0)
      (fun _ => 0) := by
    refine ⟨fun m => ⟨m, Nat.le_refl m, rfl⟩, fun m hopen => ?_⟩
    rcases Nat.lt_or_ge 8 m with hlate | hearly
    · cases left?_of_le hlate hopen
    · exact ⟨8, hearly, .inr ⟨rfl, rfl⟩⟩
  have hfrom : (called pushed 0 (some 0) (Condition.polls 2) [] []).HoldsFrom (pushed.advance 0)
      (fun _ => 0) 2 :=
    fun _ _ _ _ => rfl
  refine ⟨_, hbuild, hcontent, hat, rfl, hstops _, hserved, hfrom, ?_⟩
  obtain ⟨m, haborted | hleft⟩ := hends _ 2 hserved hfrom
  · have hturns : turns (fun _ => 0) m = List.replicate m 0 := by
      rw [turns, List.map_const', List.length_range]
    have hgoing : ((pushed.advance 0).later m).aborted = none :=
      System.going_of_hasEnded (k := 10) (by decide +kernel) (by decide +kernel) m
    rw [hturns] at haborted
    exact absurd hgoing (Option.isSome_iff_ne_none.mp haborted)
  · exact ⟨m, hleft⟩

end Wait
end Machine
end WorkStealing
