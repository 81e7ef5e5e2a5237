import WorkStealing.Action

/-!
# Calculations as code

The code of each calculation. Every branch of a fork leaves its result in a
cell of its own, and the code after the fork reads the cells of both branches.
A layout numbers the cells: a piece of code is given the cell for its result
and the first cell that is free, and answers with the first that is free after
it.
-/

namespace WorkStealing
namespace Calculation

/-- A piece of code, and the first cell that it leaves free. -/
structure Layout where
  code : Code
  /-- The first free cell. -/
  free : Nat

/-- A fork of two pieces of code that leave their results in the first two free cells, and the
sum of both results. -/
def Layout.addBranches (result free : Nat) (left right : Nat → Nat → Layout) : Layout :=
  let first := left free (free + 2)
  let second := right (free + 1) first.free
  { code := [.fork first.code second.code, .store result 0 [free, free + 1]]
    free := second.free }

/-- The code for a Fibonacci number, where the first two are one. -/
def fibLayout : Nat → Nat → Nat → Layout
  | 0, result, free => { code := [.store result 1 []], free }
  | 1, result, free => { code := [.store result 1 []], free }
  | n + 2, result, free => .addBranches result free (fibLayout (n + 1)) (fibLayout n)

/-- The code for the sum of a list: lists of at most a leaf's length are summed at once, and
longer ones in two halves. -/
def sumLayout (leaf : Nat) (data : List UInt64) (result free : Nat) : Layout :=
  if h : data.length ≤ max leaf 1 then
    { code := [.store result (data.foldl (· + ·) 0) []], free }
  else
    let half := data.length / 2
    .addBranches result free (sumLayout leaf (data.take half)) (sumLayout leaf (data.drop half))
termination_by data.length
decreasing_by
  all_goals
    simp only [List.length_take, List.length_drop]
    omega

/-- The code that adds one to each of so many cells, in two halves as long as there are two. -/
def incrementCode (first count : Nat) : Code :=
  if h : count ≤ 1 then (List.range count).map fun i => .store (first + i) 1 [first + i]
  else
    [.fork (incrementCode first (count / 2))
      (incrementCode (first + count / 2) (count - count / 2))]
termination_by count
decreasing_by
  all_goals omega

/-- Forks inside each other, all on the same side. -/
def chainCode (leftSide : Bool) : Nat → Code
  | 0 => []
  | depth + 1 =>
    if leftSide then [.fork (chainCode leftSide depth) []]
    else [.fork [] (chainCode leftSide depth)]

/-- The values with which the cells of a calculation start, beside those that its layout adds. -/
def initialCells : Calculation → List UInt64
  | fib _ => [0]
  | sum _ _ => [0]
  | increment data => data
  | chain _ _ => []

/-- The code of a calculation whose cells start from this one. -/
def layout (calculation : Calculation) (first : Nat) : Layout :=
  match calculation with
  | fib n => fibLayout n first (first + 1)
  | sum data leaf => sumLayout leaf data first (first + 1)
  | increment data =>
    { code := incrementCode first data.length, free := first + data.length }
  | chain depth leftSide => { code := chainCode leftSide depth, free := first }

/-- The result that the calculation has left in the cells from the first one on. -/
def answer (calculation : Calculation) (first : Nat) (m : Memory) (worker : Option Nat) : Answer :=
  match calculation with
  | fib _ => .fib (m.cell first)
  | sum _ _ => .sum (m.cell first)
  | increment data => .increment ((List.range data.length).map fun i => m.cell (first + i))
  | chain _ _ => .chain worker

end Calculation
end WorkStealing
