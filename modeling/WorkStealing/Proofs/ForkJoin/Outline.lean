import WorkStealing.Proofs.ForkJoin.Nesting

/-!
# Outlines

The outline of a program is what it does when the left branch of each fork runs before
the right one: its plain actions, and between them the forks that it enters, each with
the number of left branches of other forks that it is inside of (`Code.marks`). A deque
has room for a program if and only if it has a slot for each fork when that is entered
(`Code.fits_iff`); else the program comes to a fork that is entered inside as many left
branches as the deque has slots (`Code.stops_of_not_fits`).
-/

namespace WorkStealing

/-- A plain action, or the entering of a fork inside so many left branches of other forks. -/
inductive Mark where
  | act (action : Action)
  | enter (depth : Nat)

namespace Mark

def action? : Mark → Option Action
  | act action => some action
  | enter _ => none

def isEnter : Mark → Bool
  | act _ => false
  | enter _ => true

/-- There is a slot for the right branch of the fork. -/
def fits (capacity : Nat) : Mark → Bool
  | act _ => true
  | enter depth => depth < capacity

def actions (marks : List Mark) : List Action :=
  marks.filterMap action?

def entries (marks : List Mark) : Nat :=
  marks.countP isEnter

/-- The marks before the first fork for whose right branch there is no slot. -/
def fitting (capacity : Nat) (marks : List Mark) : List Mark :=
  marks.takeWhile (fits capacity)

variable {first second : List Mark} {capacity : Nat}

@[simp] theorem actions_append
    (first second : List Mark) :
    actions (first ++ second) = actions first ++ actions second :=
  List.filterMap_append

@[simp] theorem entries_append
    (first second : List Mark) :
    entries (first ++ second) = entries first + entries second :=
  List.countP_append

@[simp] theorem actions_enter
    (depth : Nat) (marks : List Mark) :
    actions (.enter depth :: marks) = actions marks := by
  rfl

@[simp] theorem entries_enter
    (depth : Nat) (marks : List Mark) :
    entries (.enter depth :: marks) = entries marks + 1 :=
  List.countP_cons_of_pos rfl

/-- If all of the first marks fit, the second ones decide. -/
theorem fitting_append_of_all
    (h : first.all (fits capacity) = true) :
    fitting capacity (first ++ second) = first ++ fitting capacity second :=
  List.takeWhile_append_of_pos (List.all_eq_true.mp h)

/-- If one of the first marks does not fit, the second ones do not matter. -/
theorem fitting_append_of_not_all
    (h : ¬ first.all (fits capacity) = true) :
    fitting capacity (first ++ second) = fitting capacity first := by
  induction first with
  | nil =>
      exact absurd rfl h
  | cons mark rest ih =>
      unfold fitting at ih ⊢
      rw [List.cons_append]
      by_cases hmark : mark.fits capacity = true
      · rw [List.takeWhile_cons_of_pos hmark, List.takeWhile_cons_of_pos hmark, ih]
        intro hrest
        rw [List.all_cons, hmark, hrest] at h
        exact h rfl
      · rw [List.takeWhile_cons_of_neg hmark, List.takeWhile_cons_of_neg hmark]

end Mark

mutual

/-- What an action does, in order, inside so many left branches of forks. -/
def Action.marks (depth : Nat) : Action → List Mark
  | .fork left right => .enter depth :: (Code.marks (depth + 1) left ++ Code.marks depth right)
  | action => if action.isPlain then [.act action] else []

def Code.marks (depth : Nat) : List Action → List Mark
  | [] => []
  | action :: rest => Action.marks depth action ++ Code.marks depth rest

end

/-- The number of forks that code enters. -/
def Code.forks (code : Code) : Nat :=
  Mark.entries (Code.marks 0 code)

mutual

/-- The plain actions of the outline of an action are what it does in order. -/
theorem Action.actions_marks
    (depth : Nat) (action : Action) :
    Mark.actions (Action.marks depth action) = Action.inOrder action := by
  cases action with
  | fork left right =>
      rw [Action.marks, Mark.actions_enter, Mark.actions_append, Code.actions_marks,
        Code.actions_marks, Action.inOrder]
  | _ =>
      rfl

/-- The plain actions of the outline of code are what it does in order. -/
theorem Code.actions_marks
    (depth : Nat) (code : List Action) :
    Mark.actions (Code.marks depth code) = Code.inOrder code := by
  cases code with
  | nil =>
      rfl
  | cons action rest =>
      rw [Code.marks, Mark.actions_append, Action.actions_marks, Code.actions_marks, Code.inOrder]

end

mutual

/-- A deque with room for what is in it already has room for all forks of an action, if it has as
many slots more as forks are inside each other's left branches. -/
theorem Action.fits_iff
    {depth capacity : Nat}
    (hdepth : depth ≤ capacity)
    (action : Action) :
    (Action.marks depth action).all (Mark.fits capacity) = true ↔
      depth + Action.leftDepth action ≤ capacity := by
  cases action with
  | fork left right =>
      have hright := Code.fits_iff hdepth right
      rw [Action.marks, List.all_cons, List.all_append, Bool.and_eq_true, Bool.and_eq_true,
        hright, Mark.fits, decide_eq_true_iff, Action.leftDepth]
      by_cases hroom : depth < capacity
      · rw [Code.fits_iff hroom left]
        omega
      · constructor
        · exact fun h => absurd h.1 hroom
        · omega
  | _ =>
      exact ⟨fun _ => hdepth, fun _ => rfl⟩

/-- A deque with room for what is in it already has room for all forks of some code, if it has as
many slots more as forks are inside each other's left branches. -/
theorem Code.fits_iff
    {depth capacity : Nat}
    (hdepth : depth ≤ capacity)
    (code : List Action) :
    (Code.marks depth code).all (Mark.fits capacity) = true ↔
      depth + Code.leftDepth code ≤ capacity := by
  cases code with
  | nil =>
      exact ⟨fun _ => hdepth, fun _ => rfl⟩
  | cons action rest =>
      rw [Code.marks, List.all_append, Bool.and_eq_true, Action.fits_iff hdepth action,
        Code.fits_iff hdepth rest, Code.leftDepth]
      omega

end

/-- The first fork for which there is no slot is entered inside as many left branches of others as
there are slots. -/
def Mark.Stops (capacity : Nat) (marks : List Mark) : Prop :=
  ∃ before after, marks = before ++ .enter capacity :: after ∧
    before.all (Mark.fits capacity) = true

namespace Mark

variable {first second : List Mark} {capacity : Nat}

theorem Stops.append
    (h : Stops capacity first)
    (second : List Mark) :
    Stops capacity (first ++ second) := by
  obtain ⟨before, after, rfl, hbefore⟩ := h
  exact ⟨before, after ++ second, List.append_assoc _ _ _, hbefore⟩

theorem Stops.after
    (h : Stops capacity second)
    (hfirst : first.all (fits capacity) = true) :
    Stops capacity (first ++ second) := by
  obtain ⟨before, after, rfl, hbefore⟩ := h
  refine ⟨first ++ before, after, (List.append_assoc _ _ _).symm, ?_⟩
  rw [List.all_append, hfirst, hbefore]
  rfl

/-- What one of two pieces stops at, both together stop at. -/
theorem stops_append
    (hfirst : ¬ first.all (fits capacity) = true → Stops capacity first)
    (hsecond : ¬ second.all (fits capacity) = true → Stops capacity second)
    (hover : ¬ (first ++ second).all (fits capacity) = true) :
    Stops capacity (first ++ second) := by
  by_cases hfits : first.all (fits capacity) = true
  · rw [List.all_append, hfits, Bool.true_and] at hover
    exact (hsecond hover).after hfits
  · exact (hfirst hfits).append second

/-- What comes before the fork at which the marks stop is what fits. -/
theorem fitting_of_stops
    {before after : List Mark}
    (hbefore : before.all (fits capacity) = true) :
    fitting capacity (before ++ .enter capacity :: after) = before := by
  have hover : ¬ (Mark.enter capacity).fits capacity = true := by
    rw [fits, decide_eq_true_iff]
    exact Nat.lt_irrefl capacity
  rw [fitting_append_of_all hbefore, fitting, List.takeWhile_cons_of_neg hover, List.append_nil]

end Mark

mutual

theorem Action.stops_of_not_fits
    {depth capacity : Nat}
    (hdepth : depth ≤ capacity)
    (action : Action)
    (hover : ¬ (Action.marks depth action).all (Mark.fits capacity) = true) :
    Mark.Stops capacity (Action.marks depth action) := by
  cases action with
  | fork left right =>
      rw [Action.marks] at hover ⊢
      by_cases hslot : depth < capacity
      · have hfits : [Mark.enter depth].all (Mark.fits capacity) = true := by
          rw [List.all_cons, Mark.fits, decide_eq_true hslot]
          rfl
        refine Mark.stops_append (fun h => absurd hfits h) (fun h => ?_) hover
        exact Mark.stops_append (Code.stops_of_not_fits hslot left)
          (Code.stops_of_not_fits hdepth right) h
      · have heq : depth = capacity := by omega
        rw [heq]
        exact ⟨[], _, rfl, rfl⟩
  | _ =>
      exact absurd rfl hover

/-- Code for which there is no room stops at a fork that is entered inside as many left branches of
others as there are slots. -/
theorem Code.stops_of_not_fits
    {depth capacity : Nat}
    (hdepth : depth ≤ capacity)
    (code : List Action)
    (hover : ¬ (Code.marks depth code).all (Mark.fits capacity) = true) :
    Mark.Stops capacity (Code.marks depth code) := by
  cases code with
  | nil =>
      exact absurd rfl hover
  | cons action rest =>
      rw [Code.marks] at hover ⊢
      exact Mark.stops_append (Action.stops_of_not_fits hdepth action)
        (Code.stops_of_not_fits hdepth rest) hover

end

end WorkStealing
