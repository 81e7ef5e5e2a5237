import WorkStealing.Proofs.Machine.Advance

/-!
# Runs of one thread

While one thread makes all steps, what comes next depends on its frames and on
the world alone. `Leads` puts such steps together without the other threads, and
`Leads.exists_run` says that a system makes them.
-/

namespace WorkStealing
namespace Machine

/-- A thread with this identity comes from these frames in one world to those in another, by its
own steps. -/
inductive Leads (identity : Option Nat) : World → List Frame → World → List Frame → Prop where
  | refl (w : World) (frames : List Frame) : Leads identity w frames w frames
  | step {w next last : World} {frame : Frame} {frames below final : List Frame}
      (hmove : frame.step w identity = .go next identity frames)
      (hrest : Leads identity next (frames ++ below) last final) :
      Leads identity w (frame :: below) last final

namespace Leads

variable {identity : Option Nat} {w next last : World} {frames others final : List Frame}

theorem single
    {frame : Frame} {below : List Frame}
    (hmove : frame.step w identity = .go next identity frames) :
    Leads identity w (frame :: below) next (frames ++ below) :=
  .step hmove (.refl next _)

theorem trans
    (hfirst : Leads identity w frames next others)
    (hsecond : Leads identity next others last final) :
    Leads identity w frames last final := by
  induction hfirst with
  | refl _ _ =>
      exact hsecond
  | step hmove _ ih =>
      exact .step hmove (ih hsecond)

/-- A thread of a system makes the steps, and all other threads stay as they are. -/
theorem exists_run
    (h : Leads identity w frames last final)
    {s : System} {index : Nat}
    (hgoing : s.aborted = none)
    (hworld : s.world = w)
    (hthread : s.threads[index]? = some { frames, identity }) :
    ∃ schedule, (s.run schedule).aborted = none ∧ (s.run schedule).world = last ∧
      (s.run schedule).threads[index]? = some { frames := final, identity } ∧
      ∀ other, other ≠ index → (s.run schedule).threads[other]? = s.threads[other]? := by
  induction h generalizing s with
  | refl _ _ =>
      exact ⟨[], hgoing, hworld, hthread, fun _ _ => rfl⟩
  | step hmove _ ih =>
      subst hworld
      have hadvance := System.advance_of_go hgoing hthread rfl hmove
      have hin : index < s.threads.size := (Array.getElem?_eq_some_iff.mp hthread).1
      obtain ⟨schedule, hgoingAfter, hlast, hsame, hothers⟩ :=
        ih (s := s.advance index) (by rw [hadvance]) (by rw [hadvance])
          (by rw [hadvance]; exact Array.getElem?_setIfInBounds_self_of_lt hin)
      refine ⟨index :: schedule, hgoingAfter, hlast, hsame, fun other hother => ?_⟩
      rw [System.run_cons, hothers other hother, hadvance]
      exact Array.getElem?_setIfInBounds_ne hother.symm

end Leads
end Machine
end WorkStealing
