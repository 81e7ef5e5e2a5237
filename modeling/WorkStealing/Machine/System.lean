import WorkStealing.Machine.Step

/-!
# Systems of threads

A system is a world and the threads that work in it. Any thread may make the
next step, so a list of thread numbers is one interleaving (`advance`). A
failure of a frame unwinds its thread: a panic takes frames away until one of
them may not be passed, and then the whole process is given up, as it is for an
error. `settle` lets all threads take turns until none has anything left to do.
-/

namespace WorkStealing
namespace Machine

/-- A thread: its calls, the innermost first. -/
structure Thread where
  frames : List Frame := []
  /-- The worker that the thread is in the innermost region it is in. -/
  identity : Option Nat := none
  /-- The panic that ended the thread, if one did. -/
  panicked : Option Panic := none

def Thread.isOver (thread : Thread) : Bool := thread.frames.isEmpty

/-- A thread that starts with some code, as nobody. -/
def Thread.ofCode (code : Code) : Thread := { frames := [.perform code] }

/-- Where a panic ends. -/
inductive Unwound where
  /-- The thread goes on with these frames. -/
  | caught (identity : Option Nat) (frames : List Frame)
  | over (identity : Option Nat)
  /-- A frame does not let the panic pass. -/
  | blocked

/-- Takes frames away for a panic. Who the thread was before is restored on the way. The thread
that opened a region first waits for the other threads of the region. -/
def unwind (cause : Panic) (identity : Option Nat) : List Frame → Unwound
  | [] => .over identity
  | .guarded _ :: _ => .blocked
  | .fork _ _ _ _ :: _ => .blocked
  | .turns _ outer :: rest => unwind cause outer rest
  | .restore outer :: rest => unwind cause outer rest
  | .crew threads outer :: rest => .caught outer (.disband threads (some cause) :: rest)
  | _ :: rest => unwind cause identity rest

/-- A world with threads. -/
structure System where
  world : World
  threads : Array Thread := #[]
  /-- The error for which the process was given up, if it was. -/
  aborted : Option Error := none

namespace System

/-- Gives the process up. -/
def abort (world : World) (threads : Array Thread) (cause : Error) : System :=
  { world := world.trace (.fatal cause), threads, aborted := some cause }

/-- The thread of that number, whose frame on top has failed, with the frames below it. -/
def raise (world : World) (threads : Array Thread) (index : Nat) (identity : Option Nat)
    (below : List Frame) (cause : Panic) : System :=
  match unwind cause identity below with
  | .caught identity frames =>
    { world, threads := threads.setIfInBounds index { frames, identity } }
  | .over identity =>
    { world
      threads := threads.setIfInBounds index { frames := [], identity, panicked := some cause } }
  | .blocked => abort world threads .jobPanicked

/-- The frame of a worker that enters a region. -/
def workerFrame (worker : Nat) : Frame := .loop .poll worker .finished 0

/-- A new thread that plays a worker of a region. -/
def workerThread (worker : Nat) : Thread :=
  { frames := [workerFrame worker], identity := some worker }

/-- The system after a thread has opened a region for these workers, with the frames below. A
region without workers is over at once. -/
def recruit (world : World) (threads : Array Thread) (index : Nat) (identity : Option Nat)
    (below : List Frame) : List Nat → System
  | [] => { world, threads := threads.setIfInBounds index { frames := below, identity } }
  | worker :: others =>
    let crew := (List.range others.length).map fun i => threads.size + i
    let caller : Thread :=
      { frames := workerFrame worker :: .crew crew identity :: below, identity := some worker }
    { world
      threads := threads.setIfInBounds index caller ++ (others.map workerThread).toArray }

def allOver (threads : Array Thread) (indices : List Nat) : Bool :=
  indices.all fun index => ((threads[index]?).map Thread.isOver).getD true

def anyPanicked (threads : Array Thread) (indices : List Nat) : Bool :=
  indices.any fun index => ((threads[index]?).bind Thread.panicked).isSome

/-- The panic with which a region ends: that of its first worker, or one that stands for those of
the others. -/
def regionPanic (threads : Array Thread) (indices : List Nat) (pending : Option Panic) :
    Option Panic :=
  pending.or (if anyPanicked threads indices then some .crewPanicked else none)

/-- The system after a step of the thread of that number. A thread that is over, or that waits
for others, changes nothing; nor does any thread once the process was given up. -/
def advance (s : System) (index : Nat) : System :=
  if s.aborted.isSome then s
  else
    match s.threads[index]? with
    | none => s
    | some { frames := [], .. } => s
    | some { frames := frame :: below, identity, .. } =>
      let { world, threads, .. } := s
      match frame.step world identity with
      | .go world identity frames =>
        { world, threads := threads.setIfInBounds index { frames := frames ++ below, identity } }
      | .fail world (.panic cause) => raise world threads index identity below cause
      | .fail world (.error cause) => abort world threads cause
      | .recruit world workers => recruit world threads index identity below workers
      | .await world others pending =>
        if allOver threads others then
          match regionPanic threads others pending with
          | some cause => raise world threads index identity below cause
          | none => { world, threads := threads.setIfInBounds index { frames := below, identity } }
        else { world, threads }

def run (s : System) (schedule : List Nat) : System :=
  schedule.foldl advance s

@[simp] theorem run_nil
    (s : System) :
    s.run [] = s := by
  rfl

@[simp] theorem run_cons
    (s : System) (index : Nat) (schedule : List Nat) :
    s.run (index :: schedule) = (s.advance index).run schedule := by
  rfl

theorem run_append
    (s : System) (first second : List Nat) :
    s.run (first ++ second) = (s.run first).run second := by
  simp [run]

/-- Nothing will happen any more. -/
def isQuiet (s : System) : Bool :=
  s.aborted.isSome || s.threads.all Thread.isOver

def settle : Nat → System → System
  | 0, s => s
  | fuel + 1, s => if s.isQuiet then s else settle fuel (s.run (List.range s.threads.size))

/-- What `settle` reaches is reached by some order of steps. -/
theorem exists_run_eq_settle
    (fuel : Nat) (s : System) :
    ∃ schedule, s.run schedule = settle fuel s := by
  induction fuel generalizing s with
  | zero =>
      exact ⟨[], rfl⟩
  | succ fuel ih =>
      by_cases h : s.isQuiet = true
      · exact ⟨[], by simp [settle, h]⟩
      · obtain ⟨schedule, hschedule⟩ := ih (s.run (List.range s.threads.size))
        refine ⟨List.range s.threads.size ++ schedule, ?_⟩
        rw [run_append, hschedule]
        simp [settle, h]

/-- More turns than any program takes that comes to an end. -/
def turnLimit : Nat := 4611686018427387904

end System
end Machine
end WorkStealing
