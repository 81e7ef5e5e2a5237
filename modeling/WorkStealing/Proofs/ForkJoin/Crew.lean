import WorkStealing.Proofs.ForkJoin.Observation
import WorkStealing.Proofs.ForkJoin.Stack
import WorkStealing.Proofs.Scheduler.Lanes

/-!
# Crews

A crew is what matters of a parallel region: the stacks of its workers, the
lanes of the deques, and for each job where it is, what is left of it and when
it was started. Counters, polls and steal attempts that find nothing do not
matter. A step of one worker is a `Step`; the steps of the machine inside a
region are shown to be such steps elsewhere.
-/

namespace WorkStealing
namespace ForkJoin

open Machine (Moment)

/-- Where a job is. -/
inductive Home where
  | unborn
  | queued (place : Nat)
  | held (worker : Nat)
  | stacked (worker : Nat)
  /-- Started, and left. -/
  | gone

def Home.isTaken : Home → Bool
  | stacked _ => true
  | gone => true
  | _ => false

/-- The workers of a region with their deques and their jobs. -/
structure Crew where
  stack : Nat → List Call
  lanes : Nat → Lane
  count : Nat
  body : JobId → Code
  /-- What is left of each job. -/
  items : JobId → List Item
  home : JobId → Home
  /-- The worker that made each job with a fork. -/
  site : JobId → Nat
  /-- When each job was started. -/
  start : JobId → Nat
  clock : Nat
  performed : List Action
  history : List Moment

/-- The moment at which a job marks its own end. -/
def noteMoment : Action → List Moment
  | .complete job => [.jobEnded job]
  | .finish => [.finished]
  | _ => []

open Function (update) in
/-- A step of one worker of a crew that runs the first job `root`. -/
inductive Step (root : JobId) (v : Nat) : Crew → Crew → Prop where
  | idle (a : Crew) : Step root v a a
  | leave {a : Crew} {stop : Option JobId} {below : List Call}
      (hstack : a.stack v = .loop none stop :: below)
      (hended : a.items (stop.getD root) = []) :
      Step root v a { a with stack := update a.stack v below }
  /-- A loop gets a job from the front of some other deque, or from the end of its own. -/
  | obtain {a : Crew} {stop : Option JobId} {below : List Call} {place : Nat} {job : JobId}
      {lane : Lane}
      (hstack : a.stack v = .loop none stop :: below)
      (hjobs : (a.lanes place).jobs = job :: lane.jobs)
      (hlane : place ≠ v ∧ lane = (a.lanes place).steal ∨
        place = v ∧ lane = (a.lanes place).pop) :
      Step root v a
        { a with
          stack := update a.stack v (.loop (some job) stop :: below)
          lanes := update a.lanes place lane
          home := update a.home job (.held v) }
  /-- A loop finds its own deque empty, which then starts again at its first slot. -/
  | rewind {a : Crew} {stop : Option JobId} {below : List Call}
      (hstack : a.stack v = .loop none stop :: below)
      (hjobs : (a.lanes v).jobs = []) :
      Step root v a { a with lanes := update a.lanes v {} }
  | dispatch {a : Crew} {stop : Option JobId} {below : List Call} {job : JobId}
      (hstack : a.stack v = .loop (some job) stop :: below) :
      Step root v a
        { a with stack := update a.stack v (.fetch job :: .loop none stop :: below) }
  | take {a : Crew} {below : List Call} {job : JobId}
      (hstack : a.stack v = .fetch job :: below) :
      Step root v a
        { a with
          stack := update a.stack v (.code (a.body job) :: .guarded job :: below)
          home := update a.home job (.stacked v)
          start := update a.start job a.clock
          clock := a.clock + 1
          history := a.history ++ [.jobBegan job] }
  | retire {a : Crew} {below : List Call} {job : JobId}
      (hstack : a.stack v = .guarded job :: below) :
      Step root v a
        { a with stack := update a.stack v below, home := update a.home job .gone }
  | endCode {a : Crew} {below : List Call}
      (hstack : a.stack v = .code [] :: below) :
      Step root v a { a with stack := update a.stack v below }
  | act {a : Crew} {below : List Call} {action : Action} {rest : Code} {job : JobId}
      (hstack : a.stack v = .code (action :: rest) :: below)
      (hplain : action.isPlain = true)
      (howner : owner below = some job) :
      Step root v a
        { a with
          stack := update a.stack v (.code rest :: below)
          items := update a.items job (outer below ++ Item.ofCode rest)
          performed := a.performed ++ [action] }
  /-- A job takes note of its own progress. -/
  | note {a : Crew} {below : List Call} {action : Action} {rest : Code} {job : JobId}
      (hstack : a.stack v = .code (action :: rest) :: below)
      (hsilent : action.isSilent = true)
      (howner : owner below = some job) :
      Step root v a
        { a with
          stack := update a.stack v (.code rest :: below)
          items := update a.items job (outer below ++ Item.ofCode rest)
          history := a.history ++ noteMoment action }
  | fork {a : Crew} {below : List Call} {left right rest : Code} {job : JobId}
      (hstack : a.stack v = .code (.fork left right :: rest) :: below)
      (howner : owner below = some job) :
      Step root v a
        { a with
          stack := update a.stack v (.fork (.publish left) a.count :: .code rest :: below)
          count := a.count + 1
          body := update a.body a.count (Action.branchBody a.count right)
          items := update
            (update a.items job (outer below ++ (Item.ofCode rest ++ .join a.count ::
              Item.ofCode left)))
            a.count [.code (Action.branchBody a.count right)]
          home := update a.home a.count (.held v)
          site := update a.site a.count v }
  | publish {a : Crew} {below : List Call} {left : Code} {right : JobId}
      (hstack : a.stack v = .fork (.publish left) right :: below) :
      Step root v a
        { a with
          stack := update a.stack v (.fork (.published left) right :: below)
          lanes := update a.lanes v ((a.lanes v).push right)
          home := update a.home right (.queued v) }
  | goLeft {a : Crew} {below : List Call} {left : Code} {right : JobId}
      (hstack : a.stack v = .fork (.published left) right :: below) :
      Step root v a
        { a with
          stack := update a.stack v (.code left :: .fork .check right :: below)
          history := a.history ++ [.leftBegan right] }
  /-- A fork does not see that its right branch was started. -/
  | look {a : Crew} {below : List Call} {right : JobId}
      (hstack : a.stack v = .fork .check right :: below) :
      Step root v a
        { a with
          stack := update a.stack v (.fork .reclaim right :: below)
          history := a.history ++ [.leftEnded right] }
  /-- A fork sees that its right branch was started. -/
  | miss {a : Crew} {below : List Call} {right : JobId}
      (hstack : a.stack v = .fork .check right :: below)
      (htaken : (a.home right).isTaken = true) :
      Step root v a
        { a with
          stack := update a.stack v (.fork .stolen right :: below)
          history := a.history ++ [.leftEnded right] }
  | reclaim {a : Crew} {below : List Call} {right : JobId} {older : List JobId}
      (hstack : a.stack v = .fork .reclaim right :: below)
      (hjobs : (a.lanes v).jobs = older ++ [right]) :
      Step root v a
        { a with
          stack := update a.stack v (.fork .inline right :: below)
          lanes := update a.lanes v (a.lanes v).pop
          home := update a.home right (.held v) }
  /-- A fork finds its own deque empty, which then starts again at its first slot. -/
  | lose {a : Crew} {below : List Call} {right : JobId}
      (hstack : a.stack v = .fork .reclaim right :: below)
      (hjobs : (a.lanes v).jobs = []) :
      Step root v a
        { a with
          stack := update a.stack v (.fork .stolen right :: below)
          lanes := update a.lanes v {} }
  /-- A fork is about to execute its right branch itself. -/
  | inline {a : Crew} {below : List Call} {right : JobId}
      (hstack : a.stack v = .fork .inline right :: below) :
      Step root v a
        { a with
          stack := update a.stack v (.fetch right :: .fork .closing right :: below) }
  | wait {a : Crew} {below : List Call} {right : JobId}
      (hstack : a.stack v = .fork .stolen right :: below) :
      Step root v a
        { a with
          stack := update a.stack v (.loop none (some right) :: .fork .closing right :: below) }
  | close {a : Crew} {below : List Call} {right job : JobId}
      (hstack : a.stack v = .fork .closing right :: below)
      (howner : owner below = some job) :
      Step root v a
        { a with
          stack := update a.stack v below
          items := update a.items job (outer below)
          history := a.history ++ [.returned right] }

end ForkJoin
end WorkStealing
