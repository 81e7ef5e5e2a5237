import WorkStealing.Deque.Age
import WorkStealing.Error

/-!
# Work-stealing deques

A deque is an array of slots with a word for its age and a word for its bottom.
The owner works at the bottom, thieves take from the top; the jobs in it are
those in the slots from the top up to, but not including, the bottom.

This module holds the state of a deque and what can be read from it. What its
users do to it, one access to a word at a time, is in `Deque.Routine` and
`Deque.Operations`.
-/

namespace WorkStealing

/-- The state of a deque of `α`. -/
structure Deque (α : Type) where
  capacity : Nat
  capacity_pos : 0 < capacity
  /-- Each index of a slot, and the one after the last, is a 32-bit word. -/
  capacity_le : capacity ≤ maxCapacity
  /-- The tag and the top in one word. -/
  ageWord : UInt64 := 0
  /-- The index after the newest job. -/
  bottom : UInt32 := 0
  /-- The slots written so far; those beyond are still empty. -/
  slots : Array (Option α) := #[]

namespace Deque

variable {α : Type}

def ofCapacity (capacity : UInt64) : Except Error (Deque α) :=
  if h : 0 < capacity.toNat ∧ capacity.toNat ≤ maxCapacity then
    .ok { capacity := capacity.toNat, capacity_pos := h.1, capacity_le := h.2 }
  else .error (.invalidConfig (.dequeCapacity capacity))

def age (d : Deque α) : Age := .unpack d.ageWord

def slot (d : Deque α) (index : Nat) : Option α := (d.slots[index]?).join

def setSlot (d : Deque α) (index : Nat) (job : α) : Deque α :=
  let missing := Array.replicate (index + 1 - d.slots.size) none
  { d with slots := (d.slots ++ missing).setIfInBounds index (some job) }

/-- The number of jobs in the deque; none where the top has passed the bottom. -/
def size (d : Deque α) : Nat := d.bottom.toNat - d.age.top.toNat

def isEmpty (d : Deque α) : Bool := d.size == 0

/-- The contents of the slots from the top up to the bottom, oldest first. -/
def contents (d : Deque α) : List (Option α) :=
  (List.range d.size).map fun i => d.slot (d.age.top.toNat + i)

def describe (d : Deque α) : String :=
  Text.record "WorkStealingDeque"
    [("capacity", toString d.capacity),
      ("age", Text.record "Age" [("tag", toString d.age.tag), ("top", toString d.age.top)]),
      ("bottom", toString d.bottom)]

end Deque
end WorkStealing
