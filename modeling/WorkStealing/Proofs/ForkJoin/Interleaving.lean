import WorkStealing.Action

/-!
# Interleavings of a program of forks

What a program of forks does is not one list of actions: the two branches of a
fork may be mixed in any way. This module says which lists of actions a program
stands for, and that there is at least one, the one in which every left branch
runs before its right one.
-/

namespace WorkStealing

/-- The third list is a mix of the other two, each in its own order. -/
inductive Shuffle {α : Type} : List α → List α → List α → Prop where
  | nil : Shuffle [] [] []
  | left {x : α} {xs ys zs : List α} : Shuffle xs ys zs → Shuffle (x :: xs) ys (x :: zs)
  | right {y : α} {xs ys zs : List α} : Shuffle xs ys zs → Shuffle xs (y :: ys) (y :: zs)

namespace Shuffle

variable {α : Type}

theorem left_append
    {xs ys zs : List α}
    (h : Shuffle xs ys zs) (first : List α) :
    Shuffle (first ++ xs) ys (first ++ zs) := by
  induction first with
  | nil =>
      exact h
  | cons x rest ih =>
      exact ih.left

theorem right_append
    {xs ys zs : List α}
    (h : Shuffle xs ys zs) (first : List α) :
    Shuffle xs (first ++ ys) (first ++ zs) := by
  induction first with
  | nil =>
      exact h
  | cons y rest ih =>
      exact ih.right

theorem nil_left
    (ys : List α) :
    Shuffle [] ys ys := by
  induction ys with
  | nil =>
      exact .nil
  | cons y rest ih =>
      exact ih.right

/-- One list after the other is a mix of them. -/
theorem append
    (xs ys : List α) :
    Shuffle xs ys (xs ++ ys) := by
  induction xs with
  | nil =>
      exact .nil_left ys
  | cons x rest ih =>
      exact ih.left

/-- A mix has what is in the two lists. -/
theorem perm
    {xs ys zs : List α}
    (h : Shuffle xs ys zs) :
    zs.Perm (xs ++ ys) := by
  induction h with
  | nil =>
      exact .refl _
  | left _ ih =>
      exact ih.cons _
  | right _ ih =>
      exact (ih.cons _).trans List.perm_middle.symm

end Shuffle

/-- The action is part of the books that a job keeps about itself, and of nothing that it was
asked to do. -/
def Action.isSilent : Action → Bool
  | .start _ => true
  | .complete _ => true
  | .finish => true
  | _ => false

/-- The plain actions of code in an order in which they may happen: one after another, where those
of the two branches of a fork may be mixed. -/
inductive Interleaving : Code → List Action → Prop where
  | nil : Interleaving [] []
  | plain {action : Action} {rest : Code} {trace : List Action} :
      action.isPlain = true → Interleaving rest trace →
      Interleaving (action :: rest) (action :: trace)
  | silent {action : Action} {rest : Code} {trace : List Action} :
      action.isSilent = true → Interleaving rest trace → Interleaving (action :: rest) trace
  /-- A fork is next: its branches are mixed, and what follows comes after both. -/
  | fork {left right rest : Code} {first second both after : List Action} :
      Interleaving left first → Interleaving right second → Shuffle first second both →
      Interleaving rest after → Interleaving (.fork left right :: rest) (both ++ after)

namespace Interleaving

/-- An order of two pieces of code, one after the other, has two parts. -/
theorem append_inv
    {first second : Code} {trace : List Action}
    (h : Interleaving (first ++ second) trace) :
    ∃ before after, trace = before ++ after ∧
      Interleaving first before ∧ Interleaving second after := by
  induction first generalizing trace with
  | nil =>
      exact ⟨[], trace, rfl, .nil, h⟩
  | cons action rest ih =>
      cases h with
      | plain hplain hrest =>
          obtain ⟨before, after, rfl, hbefore, hafter⟩ := ih hrest
          exact ⟨_ :: before, after, rfl, .plain hplain hbefore, hafter⟩
      | silent hsilent hrest =>
          obtain ⟨before, after, rfl, hbefore, hafter⟩ := ih hrest
          exact ⟨before, after, rfl, .silent hsilent hbefore, hafter⟩
      | fork hleft hright hboth hrest =>
          obtain ⟨before, after, rfl, hbefore, hafter⟩ := ih hrest
          exact ⟨_, after, (List.append_assoc _ _ _).symm, .fork hleft hright hboth hbefore, hafter⟩

/-- Code that does not count does nothing. -/
theorem silent_inv
    {action : Action} {rest : Code} {trace : List Action}
    (hsilent : action.isSilent = true)
    (h : Interleaving (action :: rest) trace) :
    Interleaving rest trace := by
  cases h with
  | plain hplain hrest =>
      cases action with
      | log label =>
          exact absurd hsilent Bool.false_ne_true
      | store cell constant sources =>
          exact absurd hsilent Bool.false_ne_true
      | _ =>
          cases hplain
  | silent _ hrest =>
      exact hrest
  | fork =>
      cases hsilent

/-- What the right branch of a fork does is what it was asked to do. -/
theorem branchBody_inv
    {job : JobId} {branch : Code} {trace : List Action}
    (h : Interleaving (Action.branchBody job branch) trace) :
    Interleaving branch trace := by
  obtain ⟨before, after, rfl, hbefore, hafter⟩ := append_inv (silent_inv rfl h)
  cases silent_inv rfl hafter
  rw [List.append_nil]
  exact hbefore

/-- What the first job of a run does is what its thunk does. -/
theorem rootBody_inv
    {thunk : Code} {trace : List Action}
    (h : Interleaving (Action.rootBody thunk) trace) :
    Interleaving thunk trace := by
  obtain ⟨before, after, rfl, hbefore, hafter⟩ := append_inv h
  cases silent_inv rfl hafter
  rw [List.append_nil]
  exact hbefore

end Interleaving

mutual

/-- What an action does when the left branch of each fork runs before the right one. -/
def Action.inOrder : Action → List Action
  | .fork left right => Code.inOrder left ++ Code.inOrder right
  | action => if action.isPlain then [action] else []

def Code.inOrder : List Action → List Action
  | [] => []
  | action :: rest => Action.inOrder action ++ Code.inOrder rest

end

/-- The action may stand in code that is run by workers: nothing but plain actions and forks, and
what jobs do for their own books. -/
def Action.isPlainOrSilent (action : Action) : Bool :=
  action.isPlain || action.isSilent

mutual

/-- Strict code may be run by workers. -/
theorem Action.within_of_isStrict
    (action : Action)
    (h : Action.within Action.isPlain action = true) :
    Action.within Action.isPlainOrSilent action = true := by
  cases action with
  | fork left right =>
      rw [Action.within, Bool.and_eq_true] at h ⊢
      exact ⟨Code.within_of_isStrict left h.1, Code.within_of_isStrict right h.2⟩
  | log label =>
      rfl
  | store cell constant sources =>
      rfl
  | _ =>
      cases h

theorem Code.within_of_isStrict
    (code : List Action)
    (h : Code.isStrict code = true) :
    Code.within Action.isPlainOrSilent code = true := by
  cases code with
  | nil =>
      rfl
  | cons action rest =>
      rw [Code.isStrict, Code.within, Bool.and_eq_true] at h
      rw [Code.within, Bool.and_eq_true]
      exact ⟨Action.within_of_isStrict action h.1, Code.within_of_isStrict rest h.2⟩

end

theorem Code.within_append
    {test : Action → Bool} {first second : Code}
    (hfirst : Code.within test first = true)
    (hsecond : Code.within test second = true) :
    Code.within test (first ++ second) = true := by
  induction first with
  | nil =>
      exact hsecond
  | cons action rest ih =>
      rw [Code.within, Bool.and_eq_true] at hfirst
      rw [List.cons_append, Code.within, Bool.and_eq_true]
      exact ⟨hfirst.1, ih hfirst.2⟩

mutual

/-- The order in which left branches run first is one in which a program may happen. -/
theorem Action.interleaving_inOrder
    (action : Action) (rest : Code) (after : List Action)
    (haction : Action.within Action.isPlainOrSilent action = true)
    (hrest : Interleaving rest after) :
    Interleaving (action :: rest) (Action.inOrder action ++ after) := by
  cases action with
  | fork left right =>
      rw [Action.within, Bool.and_eq_true] at haction
      rw [Action.inOrder]
      exact .fork (Code.interleaving_inOrder left haction.1)
        (Code.interleaving_inOrder right haction.2) (.append _ _) hrest
  | log label =>
      exact .plain rfl hrest
  | store cell constant sources =>
      exact .plain rfl hrest
  | start job =>
      exact .silent rfl hrest
  | complete job =>
      exact .silent rfl hrest
  | finish =>
      exact .silent rfl hrest
  | _ =>
      cases haction

theorem Code.interleaving_inOrder
    (code : List Action)
    (hcode : Code.within Action.isPlainOrSilent code = true) :
    Interleaving code (Code.inOrder code) := by
  cases code with
  | nil =>
      exact .nil
  | cons action rest =>
      rw [Code.within, Bool.and_eq_true] at hcode
      rw [Code.inOrder]
      exact Action.interleaving_inOrder action rest _ hcode.1
        (Code.interleaving_inOrder rest hcode.2)

end

end WorkStealing
