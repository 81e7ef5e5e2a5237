import WorkStealing.Proofs.ForkJoin.Task

/-!
# The code of jobs

The code of a job is strict code with a mark at its end, and for the right
branch of a fork also one at its beginning. While the job runs, the mark at the
end is in its outermost item, and all inner items are strict; so a job comes to
its mark when nothing else is left of it.
-/

namespace WorkStealing
namespace ForkJoin

/-- The action with which the code of a job ends. -/
def closing (root job : JobId) : Action :=
  if job = root then .finish else .complete job

theorem closing_eq_or
    (root job : JobId) :
    closing root job = .finish ∨ closing root job = .complete job := by
  by_cases hroot : job = root
  · exact Or.inl (if_pos hroot)
  · exact Or.inr (if_neg hroot)

theorem closing_isSilent
    (root job : JobId) :
    (closing root job).isSilent = true := by
  rcases closing_eq_or root job with heq | heq
  · rw [heq]
    rfl
  · rw [heq]
    rfl

/-- The code is what is left of the body of a job, its end included. -/
def Ends (root job : JobId) (code : Code) : Prop :=
  ∃ front, Code.isStrict front = true ∧
    (code = front ++ [closing root job] ∨ code = .start job :: (front ++ [closing root job]))

/-- What is left of a job: the outermost item is its code up to the end, and all others are strict
code of left branches, and forks. -/
def Tidy (root job : JobId) : List Item → Prop
  | [] => True
  | .join _ :: _ => False
  | .code rest :: inner =>
    Ends root job rest ∧ ∀ code, Item.code code ∈ inner → Code.isStrict code = true

/-- No mark is strict code. -/
theorem within_of_isSilent
    {action : Action}
    (h : action.isSilent = true) :
    Action.within Action.isPlain action = false := by
  cases action with
  | start job =>
      rfl
  | complete job =>
      rfl
  | finish =>
      rfl
  | _ =>
      cases h

theorem isStrict_cons
    {action : Action} {rest : Code} :
    Code.isStrict (action :: rest) = true ↔
      Action.within Action.isPlain action = true ∧ Code.isStrict rest = true := by
  rw [Code.isStrict, Code.within, Bool.and_eq_true]
  rfl

namespace Ends

variable {root job : JobId} {action : Action} {rest : Code}

theorem not_nil :
    ¬ Ends root job [] := by
  rintro ⟨front, -, h | h⟩
  · cases front <;> cases h
  · cases h

/-- After an action or a fork, the rest of the code is still there. -/
theorem of_cons
    (h : Ends root job (action :: rest))
    (hwithin : Action.within Action.isPlain action = true) :
    Ends root job rest := by
  obtain ⟨front, hfront, hcode | hcode⟩ := h
  · cases front with
    | nil =>
        cases hcode
        rw [within_of_isSilent (closing_isSilent root job)] at hwithin
        cases hwithin
    | cons first front =>
        cases hcode
        exact ⟨front, (isStrict_cons.mp hfront).2, Or.inl rfl⟩
  · cases hcode
    cases hwithin

/-- Strict code is all that stands before the end. -/
theorem within_of_fork
    {left right : Code}
    (h : Ends root job (.fork left right :: rest)) :
    Action.within Action.isPlain (.fork left right) = true := by
  obtain ⟨front, hfront, hcode | hcode⟩ := h
  · cases front with
    | nil =>
        injection hcode with hhead _
        rcases closing_eq_or root job with heq | heq
        · cases hhead.trans heq
        · cases hhead.trans heq
    | cons first front =>
        cases hcode
        exact (isStrict_cons.mp hfront).1
  · cases hcode

/-- A mark is the one at the beginning, or the one at the end after which nothing is left. -/
theorem of_silent
    (h : Ends root job (action :: rest))
    (hsilent : action.isSilent = true) :
    (action = .start job ∧ Ends root job rest) ∨ (action = closing root job ∧ rest = []) := by
  obtain ⟨front, hfront, hcode | hcode⟩ := h
  · cases front with
    | nil =>
        cases hcode
        exact Or.inr ⟨rfl, rfl⟩
    | cons first front =>
        cases hcode
        have hfirst := (isStrict_cons.mp hfront).1
        rw [within_of_isSilent hsilent] at hfirst
        cases hfirst
  · cases hcode
    exact Or.inl ⟨rfl, front, hfront, Or.inl rfl⟩

/-- The code of a job is nothing but forks, plain actions and marks. -/
theorem within
    {code : Code}
    (h : Ends root job code) :
    Code.within Action.isPlainOrSilent code = true := by
  have hlast : Code.within Action.isPlainOrSilent [closing root job] = true := by
    rcases closing_eq_or root job with heq | heq
    · rw [heq]
      rfl
    · rw [heq]
      rfl
  obtain ⟨front, hfront, rfl | rfl⟩ := h
  · exact Code.within_append (Code.within_of_isStrict front hfront) hlast
  · rw [Code.within, Bool.and_eq_true]
    exact ⟨rfl, Code.within_append (Code.within_of_isStrict front hfront) hlast⟩

theorem branchBody
    {branch : Code}
    (hne : job ≠ root)
    (hbranch : Code.isStrict branch = true) :
    Ends root job (Action.branchBody job branch) := by
  refine ⟨branch, hbranch, Or.inr ?_⟩
  rw [closing, if_neg hne]
  rfl

theorem rootBody
    {thunk : Code}
    (hthunk : Code.isStrict thunk = true) :
    Ends root root (Action.rootBody thunk) := by
  refine ⟨thunk, hthunk, Or.inl ?_⟩
  rw [closing, if_pos rfl]
  rfl

end Ends

namespace Tidy

variable {root job : JobId} {outer : List Item} {action : Action} {rest : Code}

theorem single
    (h : Ends root job rest) :
    Tidy root job (Item.ofCode rest) ∧ Item.ofCode rest ≠ [] := by
  cases rest with
  | nil =>
      exact absurd h Ends.not_nil
  | cons action rest =>
      refine ⟨⟨h, ?_⟩, List.cons_ne_nil _ _⟩
      intro code hcode
      cases hcode

/-- Only strict code stands inside the outermost item. -/
theorem mem_ofCode
    {code : Code}
    (h : Item.code code ∈ Item.ofCode rest) :
    code = rest := by
  cases rest with
  | nil =>
      cases h
  | cons action rest =>
      cases List.mem_singleton.mp h
      rfl

/-- The innermost items may be replaced by strict ones. -/
theorem replace
    {item : Item} {inner more : List Item}
    (h : Tidy root job (item :: outer ++ inner))
    (hmore : ∀ code, Item.code code ∈ more → Code.isStrict code = true) :
    Tidy root job (item :: outer ++ more) := by
  cases item with
  | join other =>
      cases h
  | code whole =>
      refine ⟨h.1, ?_⟩
      intro code hcode
      rcases List.mem_append.mp hcode with houter | hnew
      · exact h.2 code (List.mem_append_left _ houter)
      · exact hmore code hnew

/-- Inside of others, code is strict. -/
theorem strict_of_inner
    {item : Item}
    (h : Tidy root job (item :: outer ++ [.code rest])) :
    Code.isStrict rest = true := by
  cases item with
  | join other =>
      cases h
  | code whole =>
      exact h.2 rest (List.mem_append_right _ List.mem_cons_self)

/-- After a plain action something is left of the job. -/
theorem act
    (h : Tidy root job (outer ++ [.code (action :: rest)]))
    (hplain : action.isPlain = true) :
    Tidy root job (outer ++ Item.ofCode rest) ∧ outer ++ Item.ofCode rest ≠ [] := by
  have hwithin : Action.within Action.isPlain action = true := by
    cases action with
    | log label =>
        rfl
    | store cell constant sources =>
        rfl
    | _ =>
        cases hplain
  cases outer with
  | nil =>
      exact single (h.1.of_cons hwithin)
  | cons item outer =>
      refine ⟨h.replace ?_, List.cons_ne_nil _ _⟩
      intro code hcode
      rw [mem_ofCode hcode]
      exact (isStrict_cons.mp h.strict_of_inner).2

/-- A mark is the one at the beginning, or the one at the end of the job. -/
theorem note
    (h : Tidy root job (outer ++ [.code (action :: rest)]))
    (hsilent : action.isSilent = true) :
    (action = .start job ∧ Tidy root job (outer ++ Item.ofCode rest) ∧
        outer ++ Item.ofCode rest ≠ []) ∨
      (action = closing root job ∧ outer ++ Item.ofCode rest = []) := by
  cases outer with
  | nil =>
      rcases h.1.of_silent hsilent with ⟨haction, hrest⟩ | ⟨haction, hrest⟩
      · exact Or.inl ⟨haction, single hrest⟩
      · subst hrest
        exact Or.inr ⟨haction, rfl⟩
  | cons item outer =>
      have hstrict := (isStrict_cons.mp h.strict_of_inner).1
      rw [within_of_isSilent hsilent] at hstrict
      cases hstrict

theorem fork
    {left right : Code}
    (h : Tidy root job (outer ++ [.code (.fork left right :: rest)]))
    (other : JobId) :
    Tidy root job (outer ++ (Item.ofCode rest ++ .join other :: Item.ofCode left)) ∧
      Code.isStrict right = true := by
  have hbranches : Code.isStrict left = true ∧ Code.isStrict right = true := by
    have hwithin : Action.within Action.isPlain (.fork left right) = true := by
      cases outer with
      | nil =>
          exact h.1.within_of_fork
      | cons item outer =>
          exact (isStrict_cons.mp h.strict_of_inner).1
    rw [Action.within, Bool.and_eq_true] at hwithin
    exact hwithin
  have hinner : ∀ code, Item.code code ∈ Item.join other :: Item.ofCode left →
      Code.isStrict code = true := by
    intro code hcode
    rcases List.mem_cons.mp hcode with hjoin | hleft
    · cases hjoin
    · rw [mem_ofCode hleft]
      exact hbranches.1
  refine ⟨?_, hbranches.2⟩
  cases outer with
  | nil =>
      have hrest : Ends root job rest := h.1.of_cons h.1.within_of_fork
      cases rest with
      | nil =>
          exact absurd hrest Ends.not_nil
      | cons action rest =>
          exact ⟨hrest, hinner⟩
  | cons item outer =>
      refine h.replace ?_
      intro code hcode
      rcases List.mem_append.mp hcode with hrest | hinside
      · rw [mem_ofCode hrest]
        exact (isStrict_cons.mp h.strict_of_inner).2
      · exact hinner code hinside

theorem close
    {other : JobId}
    (h : Tidy root job (outer ++ [.join other])) :
    Tidy root job outer ∧ outer ≠ [] := by
  cases outer with
  | nil =>
      cases h
  | cons item outer =>
      refine ⟨?_, List.cons_ne_nil _ _⟩
      have hreplaced : Tidy root job (item :: outer ++ []) :=
        h.replace fun code hcode => absurd hcode List.not_mem_nil
      rw [List.append_nil] at hreplaced
      exact hreplaced

/-- What is left of a job is nothing but forks, plain actions and marks. -/
theorem within
    {items : List Item} {code : Code}
    (h : Tidy root job items)
    (hcode : Item.code code ∈ items) :
    Code.within Action.isPlainOrSilent code = true := by
  cases items with
  | nil =>
      cases hcode
  | cons item inner =>
      cases item with
      | join other =>
          cases h
      | code whole =>
          rcases List.mem_cons.mp hcode with heq | hinner
          · cases heq
            exact h.1.within
          · exact Code.within_of_isStrict _ (h.2 code hinner)

end Tidy
end ForkJoin
end WorkStealing
