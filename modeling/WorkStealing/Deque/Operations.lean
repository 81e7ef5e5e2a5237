import WorkStealing.Deque.Routine

/-!
# Operations of a deque

The owner pushes and pops at the bottom, thieves steal from the top. Each
operation is a routine; `Deque.push`, `Deque.pop` and `Deque.steal` are the
routines run undisturbed. Between two runs, when nobody else uses the deque,
it can be reset to its first slot.

The owner gives the deque a new tag each time that it empties it. Without that,
a thief that has read an age long ago could succeed against a deque that was
emptied and filled again.
-/

namespace WorkStealing
namespace Routine

variable {α : Type}

/-- Ends a push: the job is in its slot, and the bottom is moved below it. -/
def publish (bottom : UInt32) : Routine α (Except Error Unit) :=
  match Age.next? bottom with
  | some next => .storeBottom next (.done (.ok ()))
  | none => .fail (.panic .addOverflow)

/-- Puts a job below the others, unless all slots are used. -/
def push (capacity : Nat) (job : α) : Routine α (Except Error Unit) :=
  .loadBottom fun bottom =>
    if bottom.toNat < capacity then .storeSlot bottom job (publish bottom)
    else .done (.error (.dequeOverflow capacity))

/-- Ends a steal: takes what was read from the slot at the top, unless somebody else changed the
age since it was read. -/
def claim (word : UInt64) (job : Option α) : Routine α (Option α) :=
  match Age.next? (Age.unpack word).top with
  | some top =>
    .swapAge word (Age.pack { Age.unpack word with top }) fun won =>
      .done (if won then job else none)
  | none => .fail (.panic .addOverflow)

/-- A steal that has read the age. -/
def stealAt (word : UInt64) : Routine α (Option α) :=
  .loadBottom fun bottom =>
    if bottom ≤ (Age.unpack word).top then .done none
    else .loadSlot (Age.unpack word).top (claim word)

/-- Takes the oldest job. Nothing is taken from an empty deque, and nothing if somebody else
changed the age since it was read. -/
def steal : Routine α (Option α) :=
  .loadAge stealAt

/-- Ends a pop that takes nothing: the deque starts again with this age. -/
def restart (fresh : Age) : Routine α (Option α) :=
  .storeAge fresh.pack (.done none)

/-- Ends a pop that has lifted the bottom to the first slot: the last job belongs to whoever
changes the age first. -/
def contend (bottom : UInt32) (job : Option α) (word : UInt64) : Routine α (Option α) :=
  match (Age.unpack word).restarted? with
  | none => .fail (.error .tagExhausted)
  | some fresh =>
    if bottom = (Age.unpack word).top then
      .swapAge word fresh.pack fun won => if won then .done job else restart fresh
    else restart fresh

/-- A pop that has read a job from its slot and then the age. -/
def popAt (bottom : UInt32) (job : Option α) (word : UInt64) : Routine α (Option α) :=
  if (Age.unpack word).top < bottom then .done job
  else .storeBottom 0 (contend bottom job word)

/-- Takes the newest job. The last job is taken in a race with the thieves, which the age
decides; whoever wins, the deque then starts again at its first slot with a new tag. -/
def pop : Routine α (Option α) :=
  .loadBottom fun bottom =>
    if bottom = 0 then .done none
    else
      .storeBottom (bottom - 1) <|
        .loadSlot (bottom - 1) fun job => .loadAge (popAt (bottom - 1) job)

end Routine

namespace Deque

variable {α : Type}

def push (d : Deque α) (job : α) : Deque α × Except Failure (Except Error Unit) :=
  (Routine.push d.capacity job).run d

def pop (d : Deque α) : Deque α × Except Failure (Option α) :=
  Routine.pop.run d

def steal (d : Deque α) : Deque α × Except Failure (Option α) :=
  Routine.steal.run d

/-- Puts an empty deque back to its first slot, with a new tag unless it is there already. -/
def reset (d : Deque α) : Except Failure (Deque α) :=
  if d.isEmpty = false then .error (.panic .resetNonEmpty)
  else if d.age.top = 0 ∧ d.bottom = 0 then .ok d
  else
    match d.age.restarted? with
    | none => .error (.error .tagExhausted)
    | some fresh => .ok { d with bottom := 0, ageWord := fresh.pack }

end Deque
end WorkStealing
