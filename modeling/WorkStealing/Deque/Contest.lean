import WorkStealing.Deque.Operations

/-!
# A contest for the jobs of a deque

One owner and any number of thieves use a deque at the same time. Each is idle
or in the middle of a routine. A `Move` starts a routine of someone who is
idle, or makes the next single access of someone who is not; every order of
moves is allowed, so a list of moves is one interleaving. While everybody is
idle, the deque may also be reset.

The same job may be pushed many times; a deque in a contest therefore holds
occurrences of jobs, each with the number of its push. The contest remembers
the occurrences that were pushed and those that pops and steals gave out, in
the order in which the routines came to their ends.
-/

namespace WorkStealing

/-- One push of a job. -/
structure Occurrence (α : Type) where
  /-- How many pushes were started before this one. -/
  serial : Nat
  job : α
  deriving DecidableEq, Repr

/-- What the owner is doing. -/
inductive OwnerTask (α : Type) where
  | idle
  | pushing (pushed : Occurrence α)
      (routine : Routine (Occurrence α) (Except Error Unit))
  | popping (routine : Routine (Occurrence α) (Option (Occurrence α)))

/-- What a thief is doing. -/
inductive ThiefTask (α : Type) where
  | idle
  | stealing (routine : Routine (Occurrence α) (Option (Occurrence α)))

/-- The last answer that the owner got. -/
inductive OwnerAnswer (α : Type) where
  | none
  /-- A push was accepted, or refused. -/
  | pushed (outcome : Except Error Unit)
  | popped (job : Option (Occurrence α))

/-- A deque in use by its owner and by thieves. -/
structure Contest (α : Type) where
  deque : Deque (Occurrence α)
  owner : OwnerTask α := .idle
  thieves : Array (ThiefTask α)
  started : Nat := 0
  /-- The pushes that were accepted, the latest first. -/
  pushed : List (Occurrence α) := []
  /-- What pops and steals gave out, the latest first. -/
  obtained : List (Occurrence α) := []
  answer : OwnerAnswer α := .none
  /-- Why the contest ended before its time, if it did. -/
  failure : Option Failure := none

/-- One step of one user. -/
inductive Contest.Move (α : Type) where
  | startPush (job : α)
  | startPop
  | startSteal (thief : Nat)
  /-- The owner makes its next access. -/
  | owner
  /-- A thief makes its next access. -/
  | thief (index : Nat)
  /-- The deque is put back to its first slot, which nobody else uses meanwhile. -/
  | reset

namespace Contest

variable {α : Type}

/-- An idle owner and idle thieves around a deque. -/
def ofDeque (deque : Deque (Occurrence α)) (thieves : Nat) : Contest α :=
  { deque, thieves := Array.replicate thieves .idle }

def ownerIsIdle (c : Contest α) : Bool :=
  match c.owner with
  | .idle => true
  | _ => false

/-- Nobody is in the middle of a routine. -/
def isQuiet (c : Contest α) : Bool :=
  c.ownerIsIdle && c.thieves.all fun task =>
    match task with
    | .idle => true
    | _ => false

/-- Goes on with the owner's push, or takes note that it has come to its end. -/
def ownerPushes (c : Contest α) (pushed : Occurrence α) :
    Routine (Occurrence α) (Except Error Unit) → Contest α
  | .done (.ok ()) =>
    { c with owner := .idle, pushed := pushed :: c.pushed, answer := .pushed (.ok ()) }
  | .done (.error error) => { c with owner := .idle, answer := .pushed (.error error) }
  | .fail cause => { c with owner := .idle, failure := some cause }
  | rest => { c with owner := .pushing pushed rest }

def ownerPops (c : Contest α) :
    Routine (Occurrence α) (Option (Occurrence α)) → Contest α
  | .done job =>
    { c with owner := .idle, obtained := job.toList ++ c.obtained, answer := .popped job }
  | .fail cause => { c with owner := .idle, failure := some cause }
  | rest => { c with owner := .popping rest }

/-- Goes on with a thief's routine, or takes note that it has come to its end. -/
def thiefSteals (c : Contest α) (index : Nat) :
    Routine (Occurrence α) (Option (Occurrence α)) → Contest α
  | .done job =>
    { c with
      thieves := c.thieves.setIfInBounds index .idle
      obtained := job.toList ++ c.obtained }
  | .fail cause =>
    { c with thieves := c.thieves.setIfInBounds index .idle, failure := some cause }
  | rest => { c with thieves := c.thieves.setIfInBounds index (.stealing rest) }

/-- The contest after the owner's next access. -/
def ownerMove (c : Contest α) : Contest α :=
  match c.owner with
  | .idle => c
  | .pushing pushed routine =>
    let next := routine.step c.deque
    ownerPushes { c with deque := next.1 } pushed next.2
  | .popping routine =>
    let next := routine.step c.deque
    ownerPops { c with deque := next.1 } next.2

def thiefMove (c : Contest α) (index : Nat) : Contest α :=
  match c.thieves[index]? with
  | some (.stealing routine) =>
    let next := routine.step c.deque
    thiefSteals { c with deque := next.1 } index next.2
  | _ => c

def resetMove (c : Contest α) : Contest α :=
  match c.deque.reset with
  | .ok deque => { c with deque }
  | .error (.panic _) => c
  | .error cause => { c with failure := some cause }

/-- The contest after a move. A move that its user cannot make now changes nothing, and after a
failure there are no moves any more. -/
def move (c : Contest α) (m : Move α) : Contest α :=
  if c.failure.isSome then c
  else
    match m with
    | .startPush job =>
      if c.ownerIsIdle then
        let pushed : Occurrence α := { serial := c.started, job }
        { c with
          owner := .pushing pushed (.push c.deque.capacity pushed)
          started := c.started + 1 }
      else c
    | .startPop => if c.ownerIsIdle then { c with owner := .popping .pop } else c
    | .startSteal index =>
      match c.thieves[index]? with
      | some .idle => { c with thieves := c.thieves.setIfInBounds index (.stealing .steal) }
      | _ => c
    | .owner => c.ownerMove
    | .thief index => c.thiefMove index
    | .reset => if c.isQuiet then c.resetMove else c

def play (c : Contest α) (moves : List (Move α)) : Contest α :=
  moves.foldl move c

@[simp] theorem play_nil
    (c : Contest α) :
    c.play [] = c := by
  rfl

@[simp] theorem play_cons
    (c : Contest α) (m : Move α) (moves : List (Move α)) :
    c.play (m :: moves) = (c.move m).play moves := by
  rfl

theorem play_append
    (c : Contest α) (first second : List (Move α)) :
    c.play (first ++ second) = (c.play first).play second := by
  simp [play]

end Contest
end WorkStealing
