import WorkStealing.Machine.System

/-!
# What an observer of a run sees

The steps of a run that matter for its meaning: the plain actions that threads
perform, and the moments at which the branches of forks begin and end and forks
return. A fork is named by the job of its right branch. Both are read from the
frame that is about to make a step.
-/

namespace WorkStealing
namespace Machine

/-- Something that happens to a fork or to a job. -/
inductive Moment where
  | leftBegan (right : JobId)
  | leftEnded (right : JobId)
  /-- The job is taken for execution. -/
  | jobBegan (job : JobId)
  | jobEnded (job : JobId)
  | finished
  | returned (right : JobId)
  deriving DecidableEq, Repr

/-- The moment that a step of the frame is. -/
def Frame.moment? : Frame → Option Moment
  | .fork .published _ right _ => some (.leftBegan right)
  | .fork .check _ right _ => some (.leftEnded right)
  | .fork .closing _ right _ => some (.returned right)
  | .execute job => some (.jobBegan job)
  | .perform (.complete job :: _) => some (.jobEnded job)
  | .perform (.finish :: _) => some .finished
  | _ => none

/-- The plain action that a step of the frame performs. -/
def Frame.action? : Frame → Option Action
  | .perform (action :: _) => if action.isPlain then some action else none
  | _ => none

namespace Moment

variable {history : List Moment}

/-- Another moment does not matter. -/
theorem mem_concat_of_ne
    {moment other : Moment}
    (hne : other ≠ moment) :
    other ∈ history ++ [moment] ↔ other ∈ history := by
  rw [List.mem_append, List.mem_singleton]
  exact or_iff_left hne

theorem mem_concat_self
    {moment : Moment} :
    moment ∈ history ++ [moment] :=
  List.mem_append_right _ List.mem_cons_self

end Moment

namespace System

/-- The frame that makes the next step of a thread. -/
def frameAt (s : System) (index : Nat) : Option Frame :=
  if s.aborted.isSome then none
  else (s.threads[index]?).bind fun thread => thread.frames.head?

/-- The moments of a run, one after another. -/
def history (s : System) : List Nat → List Moment
  | [] => []
  | index :: schedule =>
    ((s.frameAt index).bind Frame.moment?).toList ++ (s.advance index).history schedule

/-- The plain actions of a run, one after another. -/
def performed (s : System) : List Nat → List Action
  | [] => []
  | index :: schedule =>
    ((s.frameAt index).bind Frame.action?).toList ++ (s.advance index).performed schedule

theorem history_append
    (s : System) (first second : List Nat) :
    s.history (first ++ second) = s.history first ++ (s.run first).history second := by
  induction first generalizing s with
  | nil =>
      rfl
  | cons index rest ih =>
      rw [List.cons_append, history, ih, history, List.append_assoc]
      rfl

theorem performed_append
    (s : System) (first second : List Nat) :
    s.performed (first ++ second) = s.performed first ++ (s.run first).performed second := by
  induction first generalizing s with
  | nil =>
      rfl
  | cons index rest ih =>
      rw [List.cons_append, performed, ih, performed, List.append_assoc]
      rfl

end System

/-- Since the world was like this, a run of a thunk, or else of a job, has reported this outcome. -/
def World.Reports (w : World) (thunk : Bool) (s : System) (outcome : Outcome) : Prop :=
  ∃ events, s.world.transcript.toList = w.transcript.toList ++ events ∧
    ranEvent thunk outcome ∈ events

/-- Nothing happens twice, and a fork returns after both its branches have begun and ended. -/
structure Orderly (history : List Moment) : Prop where
  once : history.Nodup
  /-- Before a fork returns, both its branches have been run from the beginning to the end. -/
  joined : ∀ right earlier later, history = earlier ++ .returned right :: later →
    .leftBegan right ∈ earlier ∧ .leftEnded right ∈ earlier ∧
      .jobBegan right ∈ earlier ∧ .jobEnded right ∈ earlier

theorem Orderly.nil :
    Orderly [] := by
  refine ⟨List.nodup_nil, ?_⟩
  intro right earlier later h
  cases earlier <;> cases h

/-- One more moment. -/
theorem Orderly.concat
    {history : List Moment} {moment : Moment}
    (h : Orderly history)
    (hnew : moment ∉ history)
    (hjoined : ∀ right, moment = .returned right →
      .leftBegan right ∈ history ∧ .leftEnded right ∈ history ∧
        .jobBegan right ∈ history ∧ .jobEnded right ∈ history) :
    Orderly (history ++ [moment]) := by
  constructor
  · rw [List.nodup_append]
    refine ⟨h.once, List.pairwise_singleton _ _, ?_⟩
    rintro m hm l hl rfl
    rw [List.mem_singleton] at hl
    rw [hl] at hm
    exact hnew hm
  · intro right earlier later hsplit
    rcases List.eq_nil_or_concat later with rfl | ⟨rest, last, rfl⟩
    · obtain ⟨rfl, hlast⟩ := List.append_inj' hsplit rfl
      exact hjoined right (List.cons.inj hlast).1
    · rw [List.concat_eq_append, ← List.cons_append, ← List.append_assoc] at hsplit
      obtain ⟨hfront, -⟩ := List.append_inj' hsplit rfl
      exact h.joined right earlier rest hfront

end Machine
end WorkStealing
