import WorkStealing.Config.Lookup
import WorkStealing.Deque.Race
import WorkStealing.Deque.Session
import WorkStealing.Proofs.Deque.Conservation
import WorkStealing.Region
import WorkStealing.Rounds
import WorkStealing.Proofs.Deque.Sequential
import WorkStealing.Proofs.Scheduler.Lanes
import WorkStealing.Proofs.ForkJoin.Determinacy
import WorkStealing.Proofs.ForkJoin.Stack
import WorkStealing.Proofs.ForkJoin.Observation
import WorkStealing.Proofs.ForkJoin.Crew
import WorkStealing.Proofs.ForkJoin.Bodies
import WorkStealing.Proofs.ForkJoin.Invariant
import WorkStealing.Proofs.ForkJoin.Preservation
import WorkStealing.Proofs.ForkJoin.Depiction
import WorkStealing.Proofs.ForkJoin.Simulation
import WorkStealing.Proofs.ForkJoin.Region
import WorkStealing.Proofs.ForkJoin.Launch
import WorkStealing.Proofs.ForkJoin.Course
import WorkStealing.Proofs.ForkJoin.Progress
import WorkStealing.Proofs.ForkJoin.Nesting
import WorkStealing.Proofs.Machine.Leads
import WorkStealing.Proofs.ForkJoin.Leak
import WorkStealing.Proofs.Machine.Hunt
import WorkStealing.Proofs.Deque.Tags
import WorkStealing.Proofs.Machine.Fairness
import WorkStealing.Proofs.Machine.Staff
import WorkStealing.Proofs.Scheduler.Lone
import WorkStealing.Proofs.Scheduler.Construction
import WorkStealing.Proofs.Runs.Upkeep
import WorkStealing.Proofs.Runs.Release
import WorkStealing.Proofs.Runs.Errand
import WorkStealing.Proofs.Runs.Completion
import WorkStealing.Proofs.Runs.Dismissal
import WorkStealing.Proofs.Runs.History
import WorkStealing.Proofs.Machine.Solo
import WorkStealing.Proofs.Machine.Passage
import WorkStealing.Proofs.ForkJoin.Outline
import WorkStealing.Proofs.ForkJoin.Inline
import WorkStealing.Proofs.ForkJoin.Sequential
import WorkStealing.Proofs.Scheduler.Load
import WorkStealing.Proofs.Machine.Laws
import WorkStealing.Proofs.ForkJoin.Accounts
import WorkStealing.Proofs.ForkJoin.Balance
import WorkStealing.Proofs.Runs.Sessions
import WorkStealing.Proofs.Deque.Refinement
import WorkStealing.Proofs.Machine.Coverage
import WorkStealing.Proofs.Runs.Exclusion
import WorkStealing.Proofs.Runs.Erasure
import WorkStealing.Proofs.Deque.Accesses
import WorkStealing.Proofs.Scheduler.Bounds
import WorkStealing.Proofs.Runs.Faults
import WorkStealing.Proofs.Runs.Containment
import WorkStealing.Proofs.ForkJoin.Routes
import WorkStealing.Proofs.ForkJoin.Descent
import WorkStealing.Proofs.ForkJoin.Conservative
import WorkStealing.Proofs.Scheduler.Places
import WorkStealing.Proofs.Scheduler.Sizing
import WorkStealing.Proofs.Victim.Permutation
import WorkStealing.Proofs.Machine.Search
import WorkStealing.Proofs.ForkJoin.Joining
import WorkStealing.Proofs.ForkJoin.Loose
import WorkStealing.Proofs.ForkJoin.Unjoined
import WorkStealing.Proofs.Victim.Fairness
import WorkStealing.Proofs.Deque.Ageing
import WorkStealing.Proofs.ForkJoin.Panics
import WorkStealing.Proofs.Runs.Deeds
import WorkStealing.Proofs.Runs.Waits
import WorkStealing.Proofs.Runs.Returns
import WorkStealing.Proofs.Config.Grammar
import WorkStealing.Region.Process
import WorkStealing.Proofs.Region.Sightings
import WorkStealing.Proofs.Region.Stages
import WorkStealing.Proofs.Region.Calls
import WorkStealing.Proofs.Region.Turns
import WorkStealing.Proofs.Region.Identity
