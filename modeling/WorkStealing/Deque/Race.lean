import WorkStealing.Deque.Contest

/-!
# Races

A race is a contest with fixed plans: the owner pushes every job once, making
room by pops when the deque is full and popping now and then, and at last pops
until nothing is left; the thieves steal all the time. Owner and thieves take
turns, one access each.

Whatever the order of the accesses, each job is obtained once; the report of a
race holds only what no order can change.
-/

namespace WorkStealing

/-- The plan of a race. -/
structure Race where
  jobs : Nat
  thieves : Nat
  /-- The owner also pops after each job whose number this divides; never, if it is zero. -/
  popEvery : Nat

namespace Race

/-- Where the owner is in its plan. -/
inductive Stage where
  | push (job : Nat)
  /-- The job could not be pushed, and a pop has to make room. -/
  | relieve (job : Nat)
  /-- The job was pushed, and a pop follows it. -/
  | extra (job : Nat)
  | drain
  | finished
  deriving DecidableEq

/-- The stage in which the job is pushed, or the last one if there is no such job. -/
def Stage.ofJob (race : Race) (job : Nat) : Stage :=
  if job < race.jobs then .push job else .drain

/-- The stage after an answer in this one. -/
def Stage.next (race : Race) (stage : Stage) (answer : OwnerAnswer Nat) : Stage :=
  match stage, answer with
  | .push job, .pushed (.ok ()) =>
    if 0 < race.popEvery ∧ job % race.popEvery = 0 then .extra job else .ofJob race (job + 1)
  | .push job, _ => .relieve job
  | .relieve job, _ => .push job
  | .extra job, _ => .ofJob race (job + 1)
  | .drain, .popped none => .finished
  | .drain, _ => .drain
  | .finished, _ => .finished

def Stage.move : Stage → Contest.Move Nat
  | .push job => .startPush job
  | _ => .startPop

/-- A contest with the stage of its owner. -/
structure State where
  contest : Contest Nat
  stage : Stage

/-- The owner starts what its stage asks for, or makes its next access. -/
def ownerTurn (race : Race) (s : State) : State :=
  if s.contest.ownerIsIdle then
    if s.stage = .finished then s else { s with contest := s.contest.move s.stage.move }
  else
    let contest := s.contest.move .owner
    if contest.ownerIsIdle then { contest, stage := s.stage.next race contest.answer }
    else { s with contest }

/-- A thief makes its next access; one that is idle starts again while the owner is at work. -/
def thiefTurn (s : State) (index : Nat) : State :=
  match s.contest.thieves[index]? with
  | some .idle =>
    if s.stage = .finished then s
    else { s with contest := s.contest.move (.startSteal index) }
  | _ => { s with contest := s.contest.move (.thief index) }

def turn (race : Race) (s : State) : State :=
  (List.range race.thieves).foldl thiefTurn (ownerTurn race s)

def playTurns (race : Race) : Nat → State → State
  | 0, s => s
  | fuel + 1, s =>
    if s.stage = .finished ∧ s.contest.isQuiet then s
    else if s.contest.failure.isSome then s
    else playTurns race fuel (turn race s)

/-- What a race shows when it is over. -/
structure Report where
  popped : Nat
  distinct : Nat
  empty : Bool
  bottom : Nat
  top : Nat
  deriving DecidableEq, Repr

/-- More turns than any race takes. -/
def turnLimit : Nat := 4611686018427387904

def run (race : Race) (deque : Deque (Occurrence Nat)) : Contest Nat :=
  (race.playTurns turnLimit
    { contest := .ofDeque deque race.thieves, stage := .ofJob race 0 }).contest

def report (race : Race) (contest : Contest Nat) : Report :=
  let seen := contest.obtained.foldl (fun seen found => seen.setIfInBounds found.job true)
    (Array.replicate race.jobs false)
  { popped := contest.obtained.length
    distinct := (seen.toList.filter id).length
    empty := contest.deque.isEmpty
    bottom := contest.deque.bottom.toNat
    top := contest.deque.age.top.toNat }

/-- Runs the race several times on the same deque, and reports each time. -/
def rounds (race : Race) : Nat → Deque (Occurrence Nat) → List Report
  | 0, _ => []
  | n + 1, deque =>
    let contest := race.run deque
    race.report contest :: rounds race n contest.deque

/-- Runs the race several times on a new deque with so many slots. -/
def onCapacity (race : Race) (capacity : UInt64) (count : Nat) : Except Error (List Report) :=
  (Deque.ofCapacity capacity).map fun deque => race.rounds count deque

end Race
end WorkStealing
