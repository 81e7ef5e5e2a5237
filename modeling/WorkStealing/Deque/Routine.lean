import WorkStealing.Deque.Basic

/-!
# Routines on a shared deque

A routine is what one user does to a deque, access by access: each constructor
but the first two is one read or write of the age, the bottom or a slot, and
carries the rest of the routine. Accesses of several users may be interleaved
in any order (`step`); a routine that nobody disturbs is `run` in one go.
-/

namespace WorkStealing

inductive Routine (α β : Type) where
  | done (result : β)
  | fail (cause : Failure)
  | loadAge (next : UInt64 → Routine α β)
  | storeAge (word : UInt64) (next : Routine α β)
  /-- Writes the age if it is still the expected one, and goes on with whether it was. -/
  | swapAge (expected word : UInt64) (next : Bool → Routine α β)
  | loadBottom (next : UInt32 → Routine α β)
  | storeBottom (bottom : UInt32) (next : Routine α β)
  | loadSlot (index : UInt32) (next : Option α → Routine α β)
  | storeSlot (index : UInt32) (job : α) (next : Routine α β)

namespace Routine

variable {α β : Type}

/-- Makes the next access. A slot that the deque does not have is a panic. -/
def step (d : Deque α) : Routine α β → Deque α × Routine α β
  | done result => (d, done result)
  | fail cause => (d, fail cause)
  | loadAge next => (d, next d.ageWord)
  | storeAge word next => ({ d with ageWord := word }, next)
  | swapAge expected word next =>
    if d.ageWord = expected then ({ d with ageWord := word }, next true) else (d, next false)
  | loadBottom next => (d, next d.bottom)
  | storeBottom bottom next => ({ d with bottom }, next)
  | loadSlot index next =>
    if index.toNat < d.capacity then (d, next (d.slot index.toNat))
    else (d, fail (.panic (.indexOutOfBounds d.capacity index.toNat)))
  | storeSlot index job next =>
    if index.toNat < d.capacity then (d.setSlot index.toNat job, next)
    else (d, fail (.panic (.indexOutOfBounds d.capacity index.toNat)))

def run (d : Deque α) : Routine α β → Deque α × Except Failure β
  | done result => (d, .ok result)
  | fail cause => (d, .error cause)
  | loadAge next => run d (next d.ageWord)
  | storeAge word next => run { d with ageWord := word } next
  | swapAge expected word next =>
    if d.ageWord = expected then run { d with ageWord := word } (next true)
    else run d (next false)
  | loadBottom next => run d (next d.bottom)
  | storeBottom bottom next => run { d with bottom } next
  | loadSlot index next =>
    if index.toNat < d.capacity then run d (next (d.slot index.toNat))
    else (d, .error (.panic (.indexOutOfBounds d.capacity index.toNat)))
  | storeSlot index job next =>
    if index.toNat < d.capacity then run (d.setSlot index.toNat job) next
    else (d, .error (.panic (.indexOutOfBounds d.capacity index.toNat)))

/-- One access first does not change what a routine does alone. -/
theorem run_step
    (d : Deque α) (routine : Routine α β) :
    run (step d routine).1 (step d routine).2 = run d routine := by
  cases routine with
  | swapAge expected word next =>
      by_cases h : d.ageWord = expected <;> simp [step, run, h]
  | loadSlot index next =>
      by_cases h : index.toNat < d.capacity <;> simp [step, run, h]
  | storeSlot index job next =>
      by_cases h : index.toNat < d.capacity <;> simp [step, run, h]
  | _ => rfl

end Routine
end WorkStealing
