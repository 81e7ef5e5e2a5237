import WorkStealing.Deque.Operations

/-!
# Sessions with a deque

A session is a list of commands that one user gives to a deque, one after
another. Each answer comes with what the deque shows after it.
-/

namespace WorkStealing
namespace Deque

/-- A command to a deque of numbered jobs. -/
inductive Command where
  /-- Push the next job in turn. -/
  | pushNext
  | push (job : Nat)
  | pop
  | steal
  | reset
  | askEmpty
  | askCapacity
  | describe
  | repeated (times : Nat) (commands : List Command)

mutual

/-- The answer to a command, and what the deque shows after it. -/
inductive Entry where
  | mk (reply : Reply) (age : Age) (bottom : Nat) (size : Nat)

/-- The answer to a command. -/
inductive Reply where
  | pushed (outcome : Except Error Unit)
  | job (number : Option Nat)
  | done
  | failed (cause : Failure)
  | truth (value : Bool)
  | count (value : Nat)
  | text (value : String)
  /-- The entries of the last round; nothing if there was no round. -/
  | round (last : Option (List Entry))

end

/-- A deque with the number of the job whose turn it is. -/
structure Session where
  deque : Deque Nat
  /-- The job that is pushed next. -/
  cursor : Nat := 0

namespace Session

def entry (s : Session) (reply : Reply) : Session × Entry :=
  (s, .mk reply s.deque.age s.deque.bottom.toNat s.deque.size)

def pushJob (s : Session) (job : Nat) : Session × Entry :=
  match s.deque.push job with
  | (deque, .ok outcome) => entry { s with deque } (.pushed outcome)
  | (deque, .error cause) => entry { s with deque } (.failed cause)

/-- Takes note of a pop or a steal. -/
def took (s : Session) : Deque Nat × Except Failure (Option Nat) → Session × Entry
  | (deque, .ok job) => entry { s with deque } (.job job)
  | (deque, .error cause) => entry { s with deque } (.failed cause)

/-- Does something so many times, each time on the session that the last time left, and keeps
the last answer. -/
def iterate {β : Type} (act : Session → Session × β) : Nat → Session → Option β →
    Session × Option β
  | 0, s, last => (s, last)
  | n + 1, s, _ => let next := act s; iterate act n next.1 (some next.2)

mutual

/-- Carries out a command; the jobs in turn are those below `jobs`. -/
def perform (jobs : Nat) (s : Session) : Command → Session × Entry
  | .pushNext => pushJob { s with cursor := (s.cursor + 1) % jobs } s.cursor
  | .push job => pushJob s job
  | .pop => took s s.deque.pop
  | .steal => took s s.deque.steal
  | .reset =>
    match s.deque.reset with
    | .ok deque => entry { s with deque } .done
    | .error cause => entry s (.failed cause)
  | .askEmpty => entry s (.truth s.deque.isEmpty)
  | .askCapacity => entry s (.count s.deque.capacity)
  | .describe => entry s (.text s.deque.describe)
  | .repeated times commands =>
    let ended := iterate (fun s => performAll jobs s commands) times s none
    entry ended.1 (.round ended.2)

def performAll (jobs : Nat) (s : Session) : List Command → Session × List Entry
  | [] => (s, [])
  | command :: rest =>
    let next := perform jobs s command
    let ended := performAll jobs next.1 rest
    (ended.1, next.2 :: ended.2)

end

def onCapacity (capacity : UInt64) (jobs : Nat) (commands : List Command) :
    Except Error (List Entry) :=
  (Deque.ofCapacity capacity).map fun deque => (performAll jobs { deque } commands).2

end Session
end Deque
end WorkStealing
