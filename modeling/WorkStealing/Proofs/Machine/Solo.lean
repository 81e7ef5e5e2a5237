import WorkStealing.Proofs.Machine.Advance

/-!
# One thread

A system of one thread has only one way to go on (`System.Comes`). So what it comes
to by its own steps is what it comes to under every schedule in which the thread has
turns enough (`System.Comes.settles`).
-/

namespace WorkStealing
namespace Machine
namespace System

/-- A thread with these frames, and no other. -/
def solo (world : World) (frames : List Frame) (identity : Option Nat) : System :=
  { world, threads := #[{ frames, identity }] }

def ended (world : World) (identity : Option Nat) (cause : Panic) : System :=
  { world, threads := #[{ frames := [], identity, panicked := some cause }] }

/-- A system of one thread comes to another by the steps of the thread, which performs these actions
meanwhile. -/
inductive Comes : System → List Action → System → Prop where
  | refl (s : System) : Comes s [] s
  | step {s t : System} {actions : List Action}
      (hsize : s.threads.size = 1)
      (hrest : Comes (s.advance 0) actions t) :
      Comes s (((s.frameAt 0).bind Frame.action?).toList ++ actions) t

namespace Comes

variable {s t u : System} {first second : List Action}

theorem trans
    (h : Comes s first t)
    (hnext : Comes t second u) :
    Comes s (first ++ second) u := by
  induction h with
  | refl s =>
      exact hnext
  | step hsize _ ih =>
      rw [List.append_assoc]
      exact .step hsize (ih hnext)

section Steps

variable {w next : World} {identity other : Option Nat} {frame : Frame} {below frames : List Frame}

theorem thread_solo
    (w : World) (frames : List Frame) (identity : Option Nat) :
    (solo w frames identity).threads[0]? = some { frames := frames, identity := identity } := by
  rfl

/-- One step. -/
theorem single
    (hadvance : (solo w (frame :: below) identity).advance 0 = t) :
    Comes (solo w (frame :: below) identity) frame.action?.toList t := by
  have hframe : (solo w (frame :: below) identity).frameAt 0 = some frame :=
    frameAt_of_thread rfl (thread_solo w _ identity) rfl
  have hrest : Comes ((solo w (frame :: below) identity).advance 0) [] t := by
    rw [hadvance]
    exact .refl t
  have hstep := Comes.step rfl hrest
  rw [hframe, List.append_nil] at hstep
  exact hstep

/-- A step after which the thread goes on. -/
theorem go
    (below : List Frame)
    (hmove : frame.step w identity = .go next other frames) :
    Comes (solo w (frame :: below) identity) frame.action?.toList
      (solo next (frames ++ below) other) :=
  single (advance_of_go rfl (thread_solo w _ identity) rfl hmove)

/-- A step that performs no plain action, and what comes after it. -/
theorem next_step
    (hmove : frame.step w identity = .go next other frames)
    (haction : frame.action? = none)
    (hrest : Comes (solo next (frames ++ below) other) first t) :
    Comes (solo w (frame :: below) identity) first t := by
  have hstep := Comes.trans (go below hmove) hrest
  rw [haction] at hstep
  exact hstep

/-- A step that performs a plain action. -/
theorem plain
    {action : Action} {rest : Code}
    (hplain : action.isPlain = true)
    (hmove : Frame.step w identity (.perform (action :: rest)) = .go next other [.perform rest]) :
    Comes (solo w (.perform (action :: rest) :: below) identity) [action]
      (solo next (.perform rest :: below) other) := by
  have hstep := Comes.go below hmove
  rw [Frame.action?, if_pos hplain] at hstep
  exact hstep

/-- A step that gives the process up. -/
theorem abort
    {cause : Error}
    (hmove : frame.step w identity = .fail next (.error cause)) :
    ∃ t, Comes (solo w (frame :: below) identity) frame.action?.toList t ∧
      t.aborted = some cause :=
  ⟨_, single (advance_of_error rfl (thread_solo w _ identity) rfl hmove), rfl⟩

/-- A step whose panic may not pass the frames below gives the process up. -/
theorem blocked
    {cause : Panic}
    (hmove : frame.step w identity = .fail next (.panic cause))
    (hbelow : unwind cause identity below = .blocked) :
    ∃ t, Comes (solo w (frame :: below) identity) frame.action?.toList t ∧
      t.aborted = some .jobPanicked := by
  refine ⟨_, single (advance_of_panic rfl (thread_solo w _ identity) rfl hmove), ?_⟩
  rw [raise, hbelow]
  rfl

/-- A step whose panic passes all frames below ends the thread. -/
theorem unwound
    {cause : Panic}
    (hmove : frame.step w identity = .fail next (.panic cause))
    (hbelow : unwind cause identity below = .over other) :
    Comes (solo w (frame :: below) identity) frame.action?.toList (ended next other cause) := by
  refine single ((advance_of_panic rfl (thread_solo w _ identity) rfl hmove).trans ?_)
  rw [raise, hbelow]
  rfl

/-- The only worker of a region is played by the thread itself. -/
theorem recruit
    {worker : Nat} :
    Comes (solo w (.recruit [worker] :: below) identity) []
      (solo w (workerFrame worker :: .crew [] identity :: below) (some worker)) := by
  have hmove : Frame.step w identity (.recruit [worker]) = .recruit w [worker] := rfl
  exact single (advance_of_recruit rfl (thread_solo w _ identity) rfl hmove)

/-- A region without other threads is left at once. -/
theorem disband :
    Comes (solo w (.disband [] none :: below) identity) [] (solo w below identity) :=
  single (advance_of_allOver rfl (thread_solo w _ identity) rfl rfl rfl)

end Steps

/-- What a system comes to after which nothing happens any more, it comes to under every schedule
that gives the thread turns enough. The induction is on the steps, and for each step on the turns of
threads that there are not. -/
theorem settles
    (h : Comes s first t)
    (hquiet : ∀ index, t.advance index = t ∧ t.frameAt index = none) :
    ∃ steps, ∀ schedule, steps ≤ schedule.count 0 →
      s.run schedule = t ∧ s.performed schedule = first := by
  induction h with
  | refl s =>
      refine ⟨0, fun schedule _ => ?_⟩
      induction schedule with
      | nil =>
          exact ⟨rfl, rfl⟩
      | cons index schedule ih =>
          obtain ⟨hadvance, hframe⟩ := hquiet index
          rw [run_cons, performed, hadvance, hframe]
          exact ih (Nat.zero_le _)
  | @step s t actions hsize _ ih =>
      obtain ⟨steps, hsteps⟩ := ih hquiet
      refine ⟨steps + 1, fun schedule hcount => ?_⟩
      induction schedule with
      | nil =>
          exact absurd hcount (Nat.not_succ_le_zero steps)
      | cons index schedule ihTurn =>
          by_cases hindex : index = 0
          · subst hindex
            rw [List.count_cons_self] at hcount
            obtain ⟨hrun, hperformed⟩ := hsteps schedule (Nat.le_of_succ_le_succ hcount)
            rw [run_cons, performed, hrun, hperformed]
            exact ⟨rfl, rfl⟩
          · rw [List.count_cons_of_ne hindex] at hcount
            have hnone : s.threads[index]? = none := by
              refine Array.getElem?_eq_none ?_
              rw [hsize]
              exact Nat.pos_of_ne_zero hindex
            obtain ⟨hadvance, hframe⟩ := advance_of_none hnone
            rw [run_cons, performed, hadvance, hframe]
            exact ihTurn hcount

end Comes

/-- When the only thread is over, nothing happens any more. -/
theorem quiet
    {s : System} {thread : Thread}
    (hthread : s.threads[0]? = some thread)
    (hsize : s.threads.size = 1)
    (hover : thread.frames = [])
    (index : Nat) :
    s.advance index = s ∧ s.frameAt index = none := by
  by_cases hindex : index = 0
  · subst hindex
    exact advance_of_over hthread hover
  · refine advance_of_none (Array.getElem?_eq_none ?_)
    rw [hsize]
    exact Nat.pos_of_ne_zero hindex

/-- A thread that has nothing left to do. -/
theorem quiet_solo
    (w : World) (identity : Option Nat) (index : Nat) :
    (solo w [] identity).advance index = solo w [] identity ∧
      (solo w [] identity).frameAt index = none :=
  quiet rfl rfl rfl index

/-- A thread that a panic has ended. -/
theorem quiet_ended
    (w : World) (identity : Option Nat) (cause : Panic) (index : Nat) :
    (ended w identity cause).advance index = ended w identity cause ∧
      (ended w identity cause).frameAt index = none :=
  quiet rfl rfl rfl index

end System
end Machine
end WorkStealing
