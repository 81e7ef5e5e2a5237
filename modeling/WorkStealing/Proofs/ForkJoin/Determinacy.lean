import WorkStealing.Proofs.ForkJoin.Interleaving

/-!
# Programs whose result does not depend on the order

The result of a program is what it leaves in the cells. If neither branch of a
fork writes to a cell that the other one reads or writes, then all
interleavings of the program leave the same result, that of the order in which
each left branch runs before the right one.
-/

namespace WorkStealing

/-- The cells after an action. -/
def Action.effect (action : Action) (cells : Array UInt64) : Array UInt64 :=
  match action with
  | .store cell constant sources =>
    cells.setIfInBounds cell
      (sources.foldl (fun sum source => sum + cells.getD source 0) constant)
  | _ => cells

def Action.effects (trace : List Action) (cells : Array UInt64) : Array UInt64 :=
  trace.foldl (fun cells action => action.effect cells) cells

mutual

/-- The cells that an action may write. -/
def Action.writes : Action → List Nat
  | .fork left right => Code.writes left ++ Code.writes right
  | .store cell _ _ => [cell]
  | _ => []

def Code.writes : List Action → List Nat
  | [] => []
  | action :: rest => Action.writes action ++ Code.writes rest

end

mutual

/-- The cells that an action may read or write. -/
def Action.touches : Action → List Nat
  | .fork left right => Code.touches left ++ Code.touches right
  | .store cell _ sources => cell :: sources
  | _ => []

def Code.touches : List Action → List Nat
  | [] => []
  | action :: rest => Action.touches action ++ Code.touches rest

end

/-- The first piece of code writes no cell that the second one reads or writes. -/
def Code.leavesAlone (first second : Code) : Bool :=
  (Code.writes first).all fun cell => !(Code.touches second).contains cell

mutual

/-- In each fork of the action, neither branch writes what the other one reads or writes. -/
def Action.isRaceFree : Action → Bool
  | .fork left right =>
    Code.leavesAlone left right && Code.leavesAlone right left &&
      (Code.isRaceFree left && Code.isRaceFree right)
  | _ => true

def Code.isRaceFree : List Action → Bool
  | [] => true
  | action :: rest => Action.isRaceFree action && Code.isRaceFree rest

end

namespace Action

theorem effects_append
    (first second : List Action) (cells : Array UInt64) :
    effects (first ++ second) cells = effects second (effects first cells) :=
  List.foldl_append

/-- Neither action writes what the other one reads or writes. -/
structure Independent (a b : Action) : Prop where
  first : ∀ cell ∈ a.writes, cell ∉ b.touches
  second : ∀ cell ∈ b.writes, cell ∉ a.touches

/-- The sum of some cells is the same after another cell was written. -/
theorem sum_setIfInBounds
    (cells : Array UInt64) (cell : Nat) (value constant : UInt64) (sources : List Nat)
    (hcell : cell ∉ sources) :
    sources.foldl
        (fun sum source => sum + (cells.setIfInBounds cell value).getD source 0) constant =
      sources.foldl (fun sum source => sum + cells.getD source 0) constant := by
  induction sources generalizing constant with
  | nil =>
      rfl
  | cons source rest ih =>
      rw [List.mem_cons, not_or] at hcell
      have hsame : (cells.setIfInBounds cell value).getD source 0 = cells.getD source 0 := by
        rw [Array.getD_eq_getD_getElem?, Array.getD_eq_getD_getElem?,
          Array.getElem?_setIfInBounds_ne hcell.1]
      rw [List.foldl_cons, List.foldl_cons, hsame]
      exact ih _ hcell.2

/-- Independent actions may change places. -/
theorem effect_comm
    {a b : Action}
    (h : Independent a b)
    (cells : Array UInt64) :
    b.effect (a.effect cells) = a.effect (b.effect cells) := by
  cases a with
  | store cell constant sources =>
      cases b with
      | store other value more =>
          have hfirst : cell ∉ other :: more := h.first cell List.mem_cons_self
          have hsecond : other ∉ cell :: sources := h.second other List.mem_cons_self
          rw [List.mem_cons, not_or] at hfirst hsecond
          simp only [effect]
          rw [sum_setIfInBounds _ _ _ _ _ hfirst.2, sum_setIfInBounds _ _ _ _ _ hsecond.2,
            Array.setIfInBounds_comm _ _ hfirst.1]
      | _ =>
          rfl
  | _ =>
      rfl

/-- An action may change places with all those that are independent of it. -/
theorem effects_effect
    {b : Action} {trace : List Action}
    (h : ∀ a ∈ trace, Independent a b)
    (cells : Array UInt64) :
    effects trace (b.effect cells) = b.effect (effects trace cells) := by
  induction trace generalizing cells with
  | nil =>
      rfl
  | cons a rest ih =>
      have hfirst := h a List.mem_cons_self
      have hrest : ∀ a ∈ rest, Independent a b := fun a ha => h a (List.mem_cons_of_mem _ ha)
      calc effects (a :: rest) (b.effect cells)
          = effects rest (a.effect (b.effect cells)) := rfl
        _ = effects rest (b.effect (a.effect cells)) := by rw [effect_comm hfirst]
        _ = b.effect (effects (a :: rest) cells) := ih hrest (a.effect cells)

end Action

/-- A mix of independent actions leaves the same as one list after the other. -/
theorem Shuffle.effects_eq
    {xs ys zs : List Action}
    (h : Shuffle xs ys zs)
    (hindependent : ∀ a ∈ xs, ∀ b ∈ ys, Action.Independent a b)
    (cells : Array UInt64) :
    Action.effects zs cells = Action.effects (xs ++ ys) cells := by
  induction h generalizing cells with
  | nil =>
      rfl
  | left _ ih =>
      exact ih (fun a ha b hb => hindependent a (List.mem_cons_of_mem _ ha) b hb) _
  | @right y xs ys zs _ ih =>
      have hy : ∀ a ∈ xs, Action.Independent a y :=
        fun a ha => hindependent a ha y List.mem_cons_self
      have hrest : ∀ a ∈ xs, ∀ b ∈ ys, Action.Independent a b :=
        fun a ha b hb => hindependent a ha b (List.mem_cons_of_mem _ hb)
      calc Action.effects (y :: zs) cells
          = Action.effects (xs ++ ys) (y.effect cells) := ih hrest _
        _ = Action.effects ys (Action.effects xs (y.effect cells)) :=
            Action.effects_append xs ys _
        _ = Action.effects ys (y.effect (Action.effects xs cells)) := by
            rw [Action.effects_effect hy]
        _ = Action.effects (xs ++ y :: ys) cells := (Action.effects_append xs (y :: ys) _).symm

namespace Interleaving

/-- The actions of a program use no other cells than the program. -/
theorem footprint
    {code : Code} {trace : List Action}
    (h : Interleaving code trace) :
    ∀ action ∈ trace, (∀ cell ∈ action.writes, cell ∈ Code.writes code) ∧
      ∀ cell ∈ action.touches, cell ∈ Code.touches code := by
  induction h with
  | nil =>
      intro action haction
      cases haction
  | plain _ _ ih =>
      intro action haction
      rw [Code.writes, Code.touches]
      rcases List.mem_cons.mp haction with rfl | hrest
      · exact ⟨fun _ => List.mem_append_left _, fun _ => List.mem_append_left _⟩
      · obtain ⟨hwrites, htouches⟩ := ih action hrest
        exact ⟨fun cell hcell => List.mem_append_right _ (hwrites cell hcell),
          fun cell hcell => List.mem_append_right _ (htouches cell hcell)⟩
  | silent _ _ ih =>
      intro action haction
      rw [Code.writes, Code.touches]
      obtain ⟨hwrites, htouches⟩ := ih action haction
      exact ⟨fun cell hcell => List.mem_append_right _ (hwrites cell hcell),
        fun cell hcell => List.mem_append_right _ (htouches cell hcell)⟩
  | fork _ _ hboth _ ihleft ihright ihrest =>
      intro action haction
      rw [Code.writes, Code.touches, Action.writes, Action.touches]
      rcases List.mem_append.mp haction with hbranch | hrest
      · rcases List.mem_append.mp (hboth.perm.mem_iff.mp hbranch) with hleft | hright
        · obtain ⟨hwrites, htouches⟩ := ihleft action hleft
          exact ⟨fun cell hcell =>
              List.mem_append_left _ (List.mem_append_left _ (hwrites cell hcell)),
            fun cell hcell =>
              List.mem_append_left _ (List.mem_append_left _ (htouches cell hcell))⟩
        · obtain ⟨hwrites, htouches⟩ := ihright action hright
          exact ⟨fun cell hcell =>
              List.mem_append_left _ (List.mem_append_right _ (hwrites cell hcell)),
            fun cell hcell =>
              List.mem_append_left _ (List.mem_append_right _ (htouches cell hcell))⟩
      · obtain ⟨hwrites, htouches⟩ := ihrest action hrest
        exact ⟨fun cell hcell => List.mem_append_right _ (hwrites cell hcell),
          fun cell hcell => List.mem_append_right _ (htouches cell hcell)⟩

/-- Actions of two programs that leave each other alone are independent. -/
theorem independent
    {left right : Code} {first second : List Action}
    (hleft : Interleaving left first)
    (hright : Interleaving right second)
    (hlr : Code.leavesAlone left right = true)
    (hrl : Code.leavesAlone right left = true) :
    ∀ a ∈ first, ∀ b ∈ second, Action.Independent a b := by
  have happart : ∀ {c d : Code}, Code.leavesAlone c d = true →
      ∀ cell ∈ Code.writes c, cell ∉ Code.touches d := by
    intro c d h cell hcell htouched
    have hno := List.all_eq_true.mp h cell hcell
    rw [List.contains_iff_mem.mpr htouched] at hno
    cases hno
  intro a ha b hb
  obtain ⟨hawrites, hatouches⟩ := hleft.footprint a ha
  obtain ⟨hbwrites, hbtouches⟩ := hright.footprint b hb
  exact ⟨fun cell hcell hother => happart hlr cell (hawrites cell hcell) (hbtouches cell hother),
    fun cell hcell hother => happart hrl cell (hbwrites cell hcell) (hatouches cell hother)⟩

/-- All orders of a program without races leave the same cells. -/
theorem effects_eq
    {code : Code} {trace : List Action}
    (h : Interleaving code trace)
    (hfree : Code.isRaceFree code = true)
    (cells : Array UInt64) :
    Action.effects trace cells = Action.effects (Code.inOrder code) cells := by
  induction h generalizing cells with
  | nil =>
      rfl
  | @plain action rest trace hplain _ ih =>
      rw [Code.isRaceFree, Bool.and_eq_true] at hfree
      have hone : Action.inOrder action = [action] := by
        cases action with
        | log label =>
            rfl
        | store cell constant sources =>
            rfl
        | _ =>
            cases hplain
      rw [Code.inOrder, hone]
      exact ih hfree.2 _
  | @silent action rest trace hsilent _ ih =>
      rw [Code.isRaceFree, Bool.and_eq_true] at hfree
      have hnone : Action.inOrder action = [] := by
        cases action with
        | start job =>
            rfl
        | complete job =>
            rfl
        | finish =>
            rfl
        | _ =>
            cases hsilent
      rw [Code.inOrder, hnone]
      exact ih hfree.2 _
  | @fork left right rest first second both after hleft hright hboth _ ihleft ihright ihrest =>
      rw [Code.isRaceFree, Action.isRaceFree] at hfree
      simp only [Bool.and_eq_true] at hfree
      obtain ⟨⟨⟨hlr, hrl⟩, hfirst, hsecond⟩, hrest⟩ := hfree
      have hapart := hleft.independent hright hlr hrl
      calc Action.effects (both ++ after) cells
          = Action.effects after (Action.effects both cells) := Action.effects_append _ _ _
        _ = Action.effects after (Action.effects (first ++ second) cells) := by
            rw [hboth.effects_eq hapart]
        _ = Action.effects after (Action.effects second (Action.effects first cells)) := by
            rw [Action.effects_append first]
        _ = Action.effects (Code.inOrder rest)
              (Action.effects (Code.inOrder right)
                (Action.effects (Code.inOrder left) cells)) := by
            rw [ihleft hfirst, ihright hsecond, ihrest hrest]
        _ = Action.effects (Code.inOrder (.fork left right :: rest)) cells := by
            rw [Code.inOrder, Action.inOrder, Action.effects_append, Action.effects_append]

end Interleaving
end WorkStealing
