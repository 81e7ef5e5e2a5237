import WorkStealing.Proofs.ForkJoin.Course
import WorkStealing.Proofs.ForkJoin.Descent

/-!
# Workers that wait conservatively only go down

By the chart of a run, the open branches of each worker lie on one way down the tree of
forks at all times, and a branch that a worker starts lies inside of all that it has
open (`Launch.goesDown_of_conservative`). Steps of frames keep to the chart as long as
nothing is executed but jobs of the run and forks are made by workers; the stages of a
run show that this is so (`Course.regular`).
-/

namespace WorkStealing

open ForkJoin (Branch Chart)

namespace Machine
namespace System

/-- The chart after a step of a thread. -/
def note (s : System) (chart : Chart) (index : Nat) : Chart :=
  if s.aborted.isSome then chart
  else
    match s.threads[index]? with
    | some { frames := frame :: below, .. } => frame.note chart s.world.bodies.size below
    | _ => chart

/-- The chart after the steps of these threads. -/
def chart (s : System) (old : Chart) : List Nat → Chart
  | [] => old
  | index :: schedule => (s.advance index).chart (s.note old index) schedule

/-- The branches that are open on the stack of a thread, the innermost first. -/
def openBranches (s : System) (index : Nat) : List Branch :=
  ((s.threads[index]?).map fun thread => branches thread.frames).getD []

variable {s : System} {index : Nat}

theorem openBranches_of_thread
    {thread : Thread}
    (h : s.threads[index]? = some thread) :
    s.openBranches index = branches thread.frames := by
  simp [openBranches, h]

theorem chart_append
    (s : System) (old : Chart) (first second : List Nat) :
    s.chart old (first ++ second) = (s.run first).chart (s.chart old first) second := by
  induction first generalizing s old with
  | nil =>
      rfl
  | cons index first ih =>
      exact ih (s.advance index) (s.note old index)

theorem note_of_at
    {thread : Thread} {frame : Frame} {below : List Frame}
    (hat : s.At index thread frame below)
    (chart : Chart) :
    s.note chart index = frame.note chart s.world.bodies.size below := by
  obtain ⟨hgoing, hfound, hframes⟩ := hat
  obtain ⟨frames, identity, panicked⟩ := thread
  cases hframes
  simp [note, hgoing, hfound]

theorem note_of_rest
    (h : s.frameAt index = none)
    (chart : Chart) :
    s.note chart index = chart := by
  unfold note
  split
  · rfl
  next hgoing =>
    split
    next hfound =>
      simp [frameAt, hgoing, hfound] at h
    next =>
      rfl

end System
end Machine

namespace ForkJoin

open Machine (Frame Moment System Thread World branches)

/-- The chart tells the routes of all jobs of the system, and its frames stand as they should. -/
structure Charted (thunk : Code) (root : JobId) (chart : Chart) (s : System) : Prop where
  covers : chart.Covers thunk root s.world.bodies
  standing : ∀ thread ∈ s.threads, Standing thunk chart thread.frames

/-- After a step of the system this may be the thread of that number: its frames stand as they
should, and it has opened at most one branch. -/
def Succeeds (thunk : Code) (chart : Chart) (s : System) (i : Nat) (thread : Thread) : Prop :=
  Standing thunk chart thread.frames ∧ Opens (s.openBranches i) (branches thread.frames)

/-- The second system comes after a step of the first one that keeps to the chart. -/
structure Descended (thunk : Code) (root : JobId) (chart : Chart) (s t : System) : Prop where
  covers : chart.Covers thunk root t.world.bodies
  threads : ∀ (i : Nat) thread, t.threads[i]? = some thread → Succeeds thunk chart s i thread

namespace Descended

variable {thunk : Code} {root : JobId} {chart : Chart} {s t : System} {w : World}
  {below : List Frame}

theorem charted
    (h : Descended thunk root chart s t) :
    Charted thunk root chart t :=
  ⟨h.covers, System.forall_mem fun i thread hthread => (h.threads i thread hthread).1⟩

theorem opens
    (h : Descended thunk root chart s t)
    (index : Nat) :
    Opens (s.openBranches index) (t.openBranches index) := by
  cases hthread : t.threads[index]? with
  | none =>
      exact .inl (by simp [System.openBranches, hthread])
  | some thread =>
      rw [System.openBranches_of_thread hthread]
      exact (h.threads index thread hthread).2

theorem raise
    (hcovers : chart.Covers thunk root w.bodies)
    (hall : ∀ (i : Nat) thread, s.threads[i]? = some thread → Succeeds thunk chart s i thread)
    (hbelow : Standing thunk chart below)
    (index : Nat) (identity : Option Nat) (cause : Panic) :
    Descended thunk root chart s (System.raise w s.threads index identity below cause) := by
  refine ⟨by rwa [System.bodies_raise], System.forall_raise hall ?_ ?_ w identity⟩
  · exact fun _ => ⟨trivial, .inl List.nil_suffix⟩
  · intro crew outer rest hsuffix
    obtain ⟨hnone, hrest⟩ := hbelow.crew hsuffix
    exact ⟨⟨.ground rfl hnone, hrest⟩, .inl (by simp [Frame.branch?, hnone])⟩

/-- The workers of a region that is opened are in no branch. -/
theorem recruit
    (hcovers : chart.Covers thunk root w.bodies)
    (hall : ∀ (i : Nat) thread, s.threads[i]? = some thread → Succeeds thunk chart s i thread)
    (hbelow : Standing thunk chart below)
    (hnone : branches below = [])
    (index : Nat) (identity : Option Nat) (workers : List Nat) :
    Descended thunk root chart s (System.recruit w s.threads index identity below workers) := by
  refine ⟨by rwa [System.bodies_recruit], System.forall_recruit hall ⟨hbelow, ?_⟩ ?_ ?_ w⟩
  · exact .inl (by simp [hnone])
  · intro worker _ crew
    refine ⟨⟨.loop ?_, .ground rfl hnone, hbelow⟩, .inl ?_⟩ <;>
      simp [System.workerFrame, Frame.branch?, hnone]
  · intro i _ worker _
    exact ⟨⟨.loop rfl, trivial⟩, .inl List.nil_suffix⟩

end Descended

/-- What is so whenever a thread makes a step in a run. -/
structure Regular (root : JobId) (s : System) : Prop where
  /-- No job is executed that is not part of the run. -/
  job : ∀ {index thread job below}, s.At index thread (.execute job) below → root ≤ job
  /-- Forks are made by workers. -/
  worker : ∀ {index thread left right rest below},
    s.At index thread (.perform (.fork left right :: rest)) below →
      s.world.scheduler.workerOf thread.identity ≠ none

theorem Charted.onPath
    {thunk : Code} {root : JobId} {chart : Chart} {s : System}
    (h : Charted thunk root chart s)
    (index : Nat) :
    OnPath thunk chart (s.openBranches index) := by
  cases hthread : s.threads[index]? with
  | none =>
      simpa [System.openBranches, hthread] using OnPath.nil
  | some thread =>
      rw [System.openBranches_of_thread hthread]
      exact (h.standing thread (Array.mem_of_getElem? hthread)).onPath

/-- Where the chart tells more, the threads still stand as they should. -/
theorem Charted.succeeds
    {thunk : Code} {root : JobId} {chart after : Chart} {s : System}
    (h : Charted thunk root chart s)
    (hextends : chart.Extends after)
    (i : Nat) (thread : Thread)
    (hthread : s.threads[i]? = some thread) :
    Succeeds thunk after s i thread := by
  refine ⟨(h.standing thread (Array.mem_of_getElem? hthread)).mono hextends, .inl ?_⟩
  simp [System.openBranches_of_thread hthread]

/-- A step of a thread keeps to the chart. -/
theorem Charted.advance
    {thunk : Code} {root : JobId} {chart : Chart} {s : System}
    (h : Charted thunk root chart s)
    (hthunk : Code.isStrict thunk = true)
    (hpolicy : s.world.scheduler.config.waitPolicy = .conservative)
    (hregular : Regular root s)
    (index : Nat) :
    Descended thunk root (s.note chart index) s (s.advance index) := by
  have hstep : ∀ {thread frame below move}, s.At index thread frame below →
      frame.step s.world thread.identity = move →
      (∀ (i : Nat) thread, s.threads[i]? = some thread →
          Succeeds thunk (s.note chart index) s i thread) ∧
        Standing thunk (s.note chart index) below ∧ branches below <:+ s.openBranches index ∧
        Descends thunk root (s.note chart index) (s.openBranches index) below move := by
    intro thread frame below move hat hmove
    subst hmove
    have hstanding := h.standing thread (Array.mem_of_getElem? hat.found)
    rw [hat.frames] at hstanding
    obtain ⟨hextends, hdescends⟩ := step_descends hthunk hpolicy h.covers hstanding
      (by rintro job rfl; exact hregular.job hat)
      (by rintro left right rest rfl; exact hregular.worker hat)
    rw [System.note_of_at hat, System.openBranches_of_thread hat.found, hat.frames]
    exact ⟨h.succeeds hextends, hstanding.2.mono hextends, by simp, hdescends⟩
  have hadvances := s.advances index
  generalize s.advance index = t at hadvances ⊢
  cases hadvances with
  | rest hframe =>
      rw [System.note_of_rest hframe]
      exact ⟨h.covers, h.succeeds (.refl chart)⟩
  | go hat hmove =>
      obtain ⟨hall, -, -, hmoves⟩ := hstep hat hmove
      cases hmoves with
      | go hcovers hframes hopens =>
          exact ⟨hcovers, System.forall_set hall ⟨hframes, hopens⟩⟩
  | error hat hmove =>
      obtain ⟨hall, -, -, hmoves⟩ := hstep hat hmove
      cases hmoves with
      | fail hcovers =>
          exact ⟨hcovers, hall⟩
  | panic hat hmove =>
      obtain ⟨hall, hbelow, -, hmoves⟩ := hstep hat hmove
      cases hmoves with
      | fail hcovers =>
          exact .raise hcovers hall hbelow _ _ _
  | recruit hat hmove =>
      obtain ⟨hall, hbelow, -, hmoves⟩ := hstep hat hmove
      cases hmoves with
      | recruit hcovers hnone =>
          exact .recruit hcovers hall hbelow hnone _ _ _
  | busy hat hmove hbusy =>
      obtain ⟨hall, -, -, hmoves⟩ := hstep hat hmove
      cases hmoves with
      | await hcovers =>
          exact ⟨hcovers, hall⟩
  | closed hat hmove hover hcalm =>
      obtain ⟨hall, hbelow, hdeeper, hmoves⟩ := hstep hat hmove
      cases hmoves with
      | await hcovers =>
          exact ⟨hcovers, System.forall_set hall ⟨hbelow, .inl hdeeper⟩⟩
  | passed hat hmove hover hpanic =>
      obtain ⟨hall, hbelow, -, hmoves⟩ := hstep hat hmove
      cases hmoves with
      | await hcovers =>
          exact .raise hcovers hall hbelow _ _ _

/-- Whatever the stage of a run is, its steps are regular. -/
theorem Course.regular
    {l : Launch} {capacity turns : Nat} {P : Crew → Prop} {s : System} {performed : List Action}
    {history : List Moment}
    (h : Course l capacity P turns s performed history)
    (hready : l.Ready capacity) :
    Regular l.root s := by
  constructor
  · intro index thread job below hat
    rcases h.at_cases hat with houtside | ⟨_, a, v, call, calls, -, hinv, -, -, -, hstack, hdepicts⟩
    · cases houtside
    · cases hdepicts
      have hheld : a.home job = .held v := (hinv.places.held v job).mp (by rw [hstack]; rfl)
      by_contra hearlier
      rw [hinv.places.earlier job (Nat.lt_of_not_le hearlier)] at hheld
      cases hheld
  · intro index thread left right rest below hat
    rcases h.at_cases hat with houtside | ⟨_, a, v, _, _, hshows, -, -, hv, hidentity, -⟩
    · cases houtside
    · have hdeque : v < s.world.scheduler.dequeCount := by
        rw [hshows.backed.deques]
        exact hready.valid.below v hv
      simp [hidentity, Scheduler.workerOf, hdeque]

namespace Launch

def chart (l : Launch) (schedule : List Nat) : Chart :=
  l.system.chart (fun _ => none) schedule

/-- The workers of a run only go down after these steps. -/
structure GoesDown (l : Launch) (schedule : List Nat) : Prop where
  /-- The chart tells where in the thunk the code of a job comes from. -/
  jobs : ∀ job body, l.root ≤ job → (l.system.run schedule).world.bodies[job]? = some body →
    ∃ route branch, l.chart schedule (.body job) = some route ∧ l.thunk.at? route = some branch ∧
      (body = Action.rootBody branch ∨ body = Action.branchBody job branch)
  /-- Code on a stack is what is left of the innermost branch that is open there. -/
  code : ∀ thread ∈ (l.system.run schedule).threads, ∀ rest below route,
    .perform rest :: below <:+ thread.frames → (l.chart schedule).here below = some route →
      ∃ branch, l.thunk.at? route = some branch ∧ rest.junctions <:+ branch.junctions
  /-- The open branches of each thread lie on one way down. -/
  path : ∀ thread, OnPath l.thunk (l.chart schedule) ((l.system.run schedule).openBranches thread)
  /-- A branch that is opened by the next step lies inside of all that the thread has open. -/
  opens : ∀ index thread branch,
    branch ∈ (l.system.run (schedule ++ [index])).openBranches thread →
    branch ∉ (l.system.run schedule).openBranches thread →
    ∃ route, l.chart (schedule ++ [index]) branch = some route ∧
      ∀ outer ∈ (l.system.run schedule).openBranches thread, ∃ above,
        l.chart (schedule ++ [index]) outer = some above ∧ Route.IsInside route above

end Launch

section Runs

variable {l : Launch} {capacity : Nat}

theorem Launch.chart_append
    (l : Launch) (schedule : List Nat) (index : Nat) :
    l.chart (schedule ++ [index]) = (l.system.run schedule).note (l.chart schedule) index := by
  rw [Launch.chart, System.chart_append]
  rfl

/-- Each step of a run keeps to the chart. -/
theorem Charted.step
    {schedule : List Nat}
    (h : Charted l.thunk l.root (l.chart schedule) (l.system.run schedule))
    (hready : l.Ready capacity)
    (hpolicy : l.world.scheduler.config.waitPolicy = .conservative)
    (index : Nat) :
    Descended l.thunk l.root (l.chart (schedule ++ [index])) (l.system.run schedule)
      (l.system.run (schedule ++ [index])) := by
  have hcourse := Course.run (P := fun _ => True) hready trivial (fun _ _ _ _ _ _ _ => trivial)
    schedule
  have hkept : (l.system.run schedule).world.scheduler.config = l.world.scheduler.config :=
    (l.system.continues_run schedule).scheduler.config
  rw [l.chart_append, System.run_append]
  exact h.advance hready.strict (by rw [hkept, hpolicy]) (hcourse.regular hready) index

theorem charted_run
    (hready : l.Ready capacity)
    (hpolicy : l.world.scheduler.config.waitPolicy = .conservative)
    (schedule : List Nat) :
    Charted l.thunk l.root (l.chart schedule) (l.system.run schedule) := by
  induction schedule using List.reverseRecOn with
  | nil =>
      refine ⟨⟨fun job _ => ⟨rfl, rfl⟩, fun job body hroot hget => ?_⟩, fun thread hthread => ?_⟩
      · have hlt := (Array.getElem?_eq_some_iff.mp hget).1
        exact absurd hroot (Nat.not_le_of_lt hlt)
      · obtain rfl := Array.mem_singleton.mp hthread
        exact ⟨.calling, trivial⟩
  | append_singleton schedule index ih =>
      exact (ih.step hready hpolicy index).charted

/-- Where workers wait conservatively, the open branches of each worker are a way down the tree of
forks, and a worker starts no branch that is not inside of all that it has open, whatever the order
of the steps is. -/
theorem Launch.goesDown_of_conservative
    (hready : l.Ready capacity)
    (hpolicy : l.world.scheduler.config.waitPolicy = .conservative)
    (schedule : List Nat) :
    l.GoesDown schedule := by
  have hcharted := charted_run hready hpolicy schedule
  refine ⟨hcharted.covers.jobs, ?_, hcharted.onPath, ?_⟩
  · intro thread hthread rest below route hsuffix hroute
    exact ((hcharted.standing thread hthread).suffix hsuffix).junctions hroute
  · intro index thread branch hnew hclosed
    have hnext := hcharted.step hready hpolicy index
    have hpath := hnext.charted.onPath thread
    rcases hnext.opens thread with hsuffix | ⟨opened, heq⟩
    · exact absurd (hsuffix.subset hnew) hclosed
    · rw [heq] at hnew hpath
      obtain rfl : branch = opened := (List.mem_cons.mp hnew).resolve_right hclosed
      exact hpath.nested

end Runs

namespace Launch

/-- The sample with workers that wait conservatively. -/
def patient : Launch :=
  { sample with
    world :=
      { sample.world with
        scheduler :=
          { sample.world.scheduler with
            config := { waitPolicy := .conservative } } } }

/-- The first worker is in the left branch of the fork, and the second one in the right one. -/
theorem patient_goesDown :
    patient.Ready 4 ∧ patient.world.scheduler.config.waitPolicy = .conservative ∧
      (patient.system.run (List.replicate 14 0 ++ List.replicate 15 1)).openBranches 0 =
        [.left 1, .body 0] ∧
      (patient.system.run (List.replicate 14 0 ++ List.replicate 15 1)).openBranches 1 =
        [.body 1] ∧
      patient.GoesDown (List.replicate 14 0 ++ List.replicate 15 1) := by
  have hready : patient.Ready 4 :=
    ⟨sample_ready.strict, ⟨rfl, rfl, sample_ready.idle.clean⟩, rfl, rfl, by decide, by decide,
      by decide, by decide⟩
  exact ⟨hready, rfl, by decide +kernel, by decide +kernel,
    goesDown_of_conservative hready rfl _⟩

end Launch
end ForkJoin
end WorkStealing
