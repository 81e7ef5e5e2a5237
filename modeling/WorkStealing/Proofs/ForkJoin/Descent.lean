import WorkStealing.Proofs.ForkJoin.Routes
import WorkStealing.Proofs.Runs.Upkeep

/-!
# Steps down the tree of forks

The chart of a run is written while the run goes on: a fork tells the routes of its two
branches, from that of the innermost branch on the stack on which it is made
(`Frame.note`). This module shows that each step of a frame keeps to the chart, where
workers wait conservatively, that is, where they do nothing but wait for a right branch
that is elsewhere. Then a worker takes a job only when it is in no branch, or back from
its own deque right where the fork is that made the job. So a step opens at most one
branch, and that one lies right below the innermost branch that was open
(`step_descends`).
-/

namespace WorkStealing

open ForkJoin (Branch Chart)

namespace Machine

/-- The chart after the step of a frame, where the next job is to have that number. -/
def Frame.note (chart : Chart) (job : JobId) (below : List Frame) : Frame → Chart
  | .perform (.runThunk _ _ :: _) => chart.start job
  | .perform (.fork _ _ :: rest) =>
    match chart.here below with
    | some route => chart.enter job (Code.junctions rest).length route
    | none => chart
  | _ => chart

/-- Plain actions and marks are not noted. -/
theorem Frame.note_of_isPlainOrSilent
    {action : Action} {rest : Code}
    (haction : action.isPlainOrSilent = true)
    (chart : Chart) (job : JobId) (below : List Frame) :
    (Frame.perform (action :: rest)).note chart job below = chart := by
  cases action <;> first | rfl | cases haction

theorem Frame.note_of_isGround
    {frame : Frame}
    (hground : frame.isGround = true)
    (chart : Chart) (job : JobId) (below : List Frame) :
    frame.note chart job below = chart := by
  cases frame <;> first | rfl | cases hground

end Machine

namespace ForkJoin

open Machine (Action.step Frame ForkPoint LoopPoint Moment Move RunPoint Stop System Thread World
  branches)

/-- The second list has at most one branch more, and that one is the innermost. -/
def Opens (old new : List Branch) : Prop :=
  new <:+ old ∨ ∃ branch, new = branch :: old

/-- The chart tells the routes of all jobs from the first one on, and no others. -/
structure Chart.Covers (chart : Chart) (thunk : Code) (root : JobId) (bodies : Array Code) :
    Prop where
  fresh : ∀ job, bodies.size ≤ job → chart.IsNew job
  jobs : ∀ job body, root ≤ job → bodies[job]? = some body →
    ∃ route branch, chart (.body job) = some route ∧ thunk.at? route = some branch ∧
      (body = Action.rootBody branch ∨ body = Action.branchBody job branch)

/-- The move keeps to the chart, where these branches were open before. -/
inductive Descends (thunk : Code) (root : JobId) (chart : Chart) (old : List Branch)
    (below : List Frame) : Move → Prop where
  | go {next : World} {identity : Option Nat} {frames : List Frame}
      (hcovers : chart.Covers thunk root next.bodies)
      (hstanding : Standing thunk chart (frames ++ below))
      (hopens : Opens old (branches (frames ++ below))) :
      Descends thunk root chart old below (.go next identity frames)
  | fail {next : World} {cause : Failure}
      (hcovers : chart.Covers thunk root next.bodies) :
      Descends thunk root chart old below (.fail next cause)
  | recruit {next : World} {workers : List Nat}
      (hcovers : chart.Covers thunk root next.bodies)
      (hnone : branches below = []) :
      Descends thunk root chart old below (.recruit next workers)
  | await {next : World} {threads : List Nat} {pending : Option Panic}
      (hcovers : chart.Covers thunk root next.bodies) :
      Descends thunk root chart old below (.await next threads pending)

namespace Descends

variable {thunk : Code} {root : JobId} {chart : Chart} {old : List Branch} {below : List Frame}
  {w : World} {identity : Option Nat}

/-- An operation of the scheduler changes neither the chart nor the jobs. -/
theorem schedule
    {β : Type} {operation : Scheduler → Except Failure (Scheduler × β)}
    {continuation : World → β → Move}
    (hcovers : chart.Covers thunk root w.bodies)
    (hnext : ∀ t answer, operation w.scheduler = .ok (t, answer) →
      Descends thunk root chart old below (continuation { w with scheduler := t } answer)) :
    Descends thunk root chart old below (w.schedule operation continuation) := by
  unfold World.schedule
  split
  · exact .fail hcovers
  next heq =>
    exact hnext _ _ heq

/-- The frames open no branch. -/
theorem quiet
    {frames : List Frame}
    (hcovers : chart.Covers thunk root w.bodies)
    (hstanding : Standing thunk chart (frames ++ below))
    (hframes : branches frames = [])
    (hold : branches below <:+ old) :
    Descends thunk root chart old below (.go w identity frames) :=
  .go hcovers hstanding (.inl (by simpa [hframes] using hold))

/-- A frame that opens no branch asks whether to end. -/
theorem ask
    (hcovers : chart.Covers thunk root w.bodies)
    (hbelow : Standing thunk chart below)
    (hold : branches below <:+ old)
    {frame : Frame}
    (hframe : Stands thunk chart frame below)
    (hquiet : frame.branch? = none)
    (stop : Stop) (evaluation worker : Nat) :
    Descends thunk root chart old below
      (match stop.holds evaluation w.toMemory with
        | .error cause => .fail w (.panic cause)
        | .ok true => .go (stop.leave evaluation worker w) identity []
        | .ok false => .go w identity [frame]) := by
  have hleft : (stop.leave evaluation worker w).bodies = w.bodies := by
    cases stop <;> rfl
  split
  · exact .fail hcovers
  · exact .quiet (by rwa [hleft]) hbelow rfl hold
  · exact .quiet hcovers ⟨hframe, hbelow⟩ (by simp [hquiet]) hold

/-- A job is pushed that must be pushed. -/
theorem push
    (hcovers : chart.Covers thunk root w.bodies)
    {place : Nat} {job : JobId} {frame : Frame}
    (hnext : ∀ next : World, next.bodies = w.bodies →
      Descends thunk root chart old below (.go next identity [frame])) :
    Descends thunk root chart old below
      (w.schedule (·.push place job) fun next outcome =>
        Machine.mustPush next outcome (.go next identity [frame])) := by
  refine .schedule hcovers fun t outcome _ => ?_
  cases outcome with
  | ok _ =>
      exact hnext _ rfl
  | error cause =>
      exact .fail hcovers

end Descends

section Steps

variable {thunk : Code} {root : JobId} {chart : Chart} {below : List Frame} {w : World}
  {identity : Option Nat}

/-- A worker that is in no branch looks for jobs. -/
theorem loop_descends
    (hcovers : chart.Covers thunk root w.bodies)
    (hbelow : Standing thunk chart below)
    (hnone : branches below = [])
    (point : LoopPoint) (worker evaluations : Nat) :
    Descends thunk root chart (branches below) below
      (point.step w identity worker .finished evaluations) := by
  have hstay : ∀ (next : World) (point : LoopPoint) (evaluations : Nat), next.bodies = w.bodies →
      Descends thunk root chart (branches below) below
        (.go next identity [.loop point worker .finished evaluations]) := by
    intro next point evaluations hbodies
    exact .quiet (hbodies ▸ hcovers) ⟨.loop hnone, hbelow⟩ rfl (List.suffix_refl _)
  cases point with
  | poll =>
      exact .ask hcovers hbelow (List.suffix_refl _) (.loop hnone) rfl _ _ _
  | pop | steal left target =>
      simp only [LoopPoint.step]
      refine .schedule hcovers fun t answer _ => ?_
      cases answer <;> exact hstay _ _ _ rfl
  | trial left =>
      cases left with
      | zero =>
          simp only [LoopPoint.step]
          exact .schedule hcovers fun t answer _ => hstay _ _ _ rfl
      | succ left =>
          exact .ask hcovers hbelow (List.suffix_refl _) (.loop hnone) rfl _ _ _
  | advance left attempt =>
      simp only [LoopPoint.step]
      refine .schedule hcovers fun t answer _ => ?_
      split
      · exact .fail hcovers
      · exact hstay _ _ _ rfl
  | popped job | aim left | count left target | stolen job =>
      simp only [LoopPoint.step]
      exact .schedule hcovers fun t answer _ => hstay _ _ _ rfl
  | dispatch job =>
      simp only [LoopPoint.step]
      refine .schedule hcovers fun t answer _ => ?_
      exact .quiet hcovers ⟨.execute (.apart hnone), .loop hnone, hbelow⟩ rfl (List.suffix_refl _)

/-- Where workers wait conservatively, a wait only polls. -/
theorem waitFrame_of_conservative
    {scheduler : Scheduler}
    (h : scheduler.config.waitPolicy = .conservative)
    (identity : Option Nat) (stop : Stop) :
    Machine.waitFrame scheduler identity stop = .poll stop 0 := by
  simp [Machine.waitFrame, h]

/-- A fork of the innermost branch. -/
theorem fork_descends
    (hpolicy : w.scheduler.config.waitPolicy = .conservative)
    (hcovers : chart.Covers thunk root w.bodies)
    (hbelow : Standing thunk chart below)
    {point : ForkPoint} {worker : Nat} {right : JobId} {left : Code} {route : Route}
    {later : Nat} {branch : Code}
    (hroute : chart.here below = some route)
    (hleft : chart (.left right) = some (⟨later, .left⟩ :: route))
    (hright : chart (.body right) = some (⟨later, .right⟩ :: route))
    (hbranch : thunk.at? (⟨later, .left⟩ :: route) = some branch)
    (hforks : left.junctions <:+ branch.junctions)
    (hwithin : Code.within Action.isPlainOrSilent left = true) :
    Descends thunk root chart (branches (.fork point worker right left :: below)) below
      (point.step w identity worker right left) := by
  have hold : branches below <:+ branches (.fork point worker right left :: below) := by
    simp
  have hended : ∀ point : ForkPoint,
      Standing thunk chart (.fork point worker right [] :: below) :=
    fun point => ⟨.fork hroute hleft hright hbranch List.nil_suffix rfl, hbelow⟩
  have hstay : ∀ (next : World) (after : ForkPoint), next.bodies = w.bodies → after ≠ .check →
      Descends thunk root chart (branches (.fork point worker right left :: below)) below
        (.go next identity [.fork after worker right left]) := by
    intro next after hbodies hafter
    refine .quiet (hbodies ▸ hcovers)
      ⟨.fork hroute hleft hright hbranch hforks hwithin, hbelow⟩ ?_ hold
    cases after <;> first | rfl | exact absurd rfl hafter
  cases point with
  | publish | putBack job =>
      exact .push hcovers fun next hbodies => hstay next _ hbodies (by simp)
  | published =>
      simp only [ForkPoint.step]
      refine .schedule hcovers fun t answer _ => ?_
      refine .go hcovers ⟨.code ?_ hbranch hforks hwithin, hended .check⟩ (.inr ⟨.left right, ?_⟩)
      · simpa [Chart.here, Frame.branch?] using hleft
      · simp [Frame.branch?]
  | check =>
      simp only [ForkPoint.step]
      split <;> exact hstay _ _ rfl (by simp)
  | reclaim =>
      simp only [ForkPoint.step]
      refine .schedule hcovers fun t answer _ => ?_
      cases answer <;> exact hstay _ _ rfl (by simp)
  | reclaimed job =>
      simp only [ForkPoint.step]
      refine .schedule hcovers fun t answer _ => ?_
      split <;> exact hstay _ _ rfl (by simp)
  | inlineJoin =>
      simp only [ForkPoint.step]
      refine .schedule hcovers fun t answer _ => ?_
      exact .quiet hcovers ⟨.execute .own, hended .closing⟩ rfl hold
  | putBackCount =>
      simp only [ForkPoint.step]
      exact .schedule hcovers fun t answer _ => hstay _ _ rfl (by simp)
  | stolenJoin =>
      simp only [ForkPoint.step]
      refine .schedule hcovers fun t answer hbump => ?_
      have hkept : t.config.waitPolicy = .conservative := by
        rw [(Scheduler.Upholds.bump hbump).config, hpolicy]
      rw [waitFrame_of_conservative hkept]
      exact .quiet hcovers ⟨.poll, hended .closing⟩ rfl hold
  | closing =>
      exact .quiet hcovers hbelow rfl hold

/-- Frames of runs and of regions may stand on each other where no branch is open. -/
theorem Standing.ground
    (hbelow : Standing thunk chart below)
    (hnone : branches below = [])
    {frames : List Frame}
    (hframes : ∀ frame ∈ frames, frame.isGround = true) :
    Standing thunk chart (frames ++ below) ∧ branches frames = [] := by
  induction frames with
  | nil =>
      exact ⟨hbelow, rfl⟩
  | cons first rest ih =>
      obtain ⟨hfirst, hrest⟩ := List.forall_mem_cons.mp hframes
      obtain ⟨hstanding, hquiet⟩ := ih hrest
      refine ⟨⟨.ground hfirst ?_, hstanding⟩, ?_⟩
      · simp [hquiet, hnone]
      · simp [hquiet, Frame.branch?_of_isGround hfirst]

/-- A frame of a run or of a region. -/
theorem ground_descends
    (hcovers : chart.Covers thunk root w.bodies)
    (hbelow : Standing thunk chart below)
    (hnone : branches below = [])
    {frame : Frame}
    (hground : frame.isGround = true) :
    Descends thunk root chart (branches (frame :: below)) below (frame.step w identity) := by
  have hstay : ∀ (next : World) (other : Option Nat) (frames : List Frame),
      next.bodies = w.bodies → (∀ frame ∈ frames, frame.isGround = true) →
      Descends thunk root chart (branches (frame :: below)) below (.go next other frames) := by
    intro next other frames hbodies hframes
    obtain ⟨hstanding, hquiet⟩ := hbelow.ground hnone hframes
    exact .quiet (hbodies ▸ hcovers) hstanding hquiet (by simp)
  cases frame with
  | run point job thunk =>
      have hone : ∀ (next : World) (after : RunPoint), next.bodies = w.bodies →
          Descends _ root chart (branches (.run point job thunk :: below)) below
            (.go next identity [.run after job thunk]) :=
        fun next after hbodies => hstay next identity _ hbodies (by simp [Frame.isGround])
      have hleave : ∀ next : World, next.bodies = w.bodies →
          Descends _ root chart (branches (.run point job thunk :: below)) below
            (.go next identity []) :=
        fun next hbodies => hstay next identity _ hbodies (by simp)
      cases point with
      | claim threads =>
          rw [Frame.step, RunPoint.step_claim]
          split
          · exact hleave _ rfl
          · split
            · exact hleave _ rfl
            · exact hone _ _ rfl
      | enqueue threads =>
          exact .push hcovers fun next hbodies => hone next _ hbodies
      | announce threads | clear | release =>
          exact hone _ _ rfl
      | «open» threads =>
          refine hstay _ _ _ rfl ?_
          simp only [Machine.regionFrame]
          split <;> simp [Frame.isGround]
      | reset deque =>
          simp only [Frame.step, RunPoint.step]
          split
          · exact .schedule hcovers fun t answer _ => hone _ _ rfl
          · exact hone _ _ rfl
      | complete =>
          simp only [Frame.step, RunPoint.step]
          split
          · split
            · exact .fail hcovers
            · exact hleave _ rfl
          · exact hleave _ rfl
  | turns pending outer =>
      cases pending with
      | nil =>
          exact hstay _ _ _ rfl (by simp)
      | cons worker pending =>
          refine .quiet hcovers ⟨.loop ?_, .ground rfl hnone, hbelow⟩ rfl (by simp)
          simpa [Frame.branch?] using hnone
  | recruit workers =>
      exact .recruit hcovers hnone
  | crew threads outer =>
      exact hstay _ _ _ rfl (by simp [Frame.isGround])
  | disband threads pending =>
      exact .await hcovers
  | _ =>
      cases hground

/-- The code of a job has the forks of its branch, and nothing else that workers could not run. -/
theorem within_body
    {branch body : Code} {job : JobId}
    (hstrict : Code.isStrict branch = true)
    (hbody : body = Action.rootBody branch ∨ body = Action.branchBody job branch) :
    body.junctions = branch.junctions ∧ Code.within Action.isPlainOrSilent body = true := by
  have hwithin := Code.within_of_isStrict branch hstrict
  rcases hbody with rfl | rfl
  · exact ⟨Code.junctions_rootBody branch, Code.within_append hwithin rfl⟩
  · exact ⟨Code.junctions_branchBody job branch, by
      simpa [Action.branchBody, Code.within, Action.within, Action.isPlainOrSilent,
        Action.isSilent] using Code.within_append hwithin rfl⟩

/-- A job of the run is taken for execution. -/
theorem execute_descends
    (hthunk : Code.isStrict thunk = true)
    (hcovers : chart.Covers thunk root w.bodies)
    (hbelow : Standing thunk chart below)
    {job : JobId}
    (hroot : root ≤ job)
    (henters : Enters job below) :
    Descends thunk root chart (branches (.execute job :: below)) below
      (Frame.step w identity (.execute job)) := by
  simp only [Frame.step]
  split
  next flags body hflags hget =>
    split
    · exact .fail hcovers
    · obtain ⟨route, branch, hroute, hbranch, hbody⟩ := hcovers.jobs job body hroot hget
      obtain ⟨hjunctions, hwithin⟩ := within_body (Code.isStrict_at? hthunk hbranch) hbody
      refine .go hcovers ⟨.code ?_ hbranch (hjunctions ▸ List.suffix_refl _) hwithin,
        .guarded henters hroute hbranch, hbelow⟩ (.inr ⟨.body job, ?_⟩)
      · simpa [Chart.here, Frame.branch?] using hroute
      · simp [Frame.branch?]
  next =>
    exact .fail hcovers

/-- Where a job is new, the chart may tell its route and that of a branch beside it. -/
theorem Chart.Covers.addJob
    (h : chart.Covers thunk root w.bodies)
    {after : Chart} {make : JobId → Code} {route : Route} {branch : Code}
    (hextends : chart.Extends after)
    (hothers : ∀ job, job ≠ w.bodies.size → chart.IsNew job → after.IsNew job)
    (hroute : after (.body w.bodies.size) = some route)
    (hbranch : thunk.at? route = some branch)
    (hmake : make w.bodies.size = Action.rootBody branch ∨
      make w.bodies.size = Action.branchBody w.bodies.size branch) :
    after.Covers thunk root (w.addJob make).1.bodies := by
  have hbodies : (w.addJob make).1.bodies = w.bodies.push (make w.bodies.size) := rfl
  rw [hbodies]
  constructor
  · intro job hjob
    rw [Array.size_push] at hjob
    exact hothers job (by omega) (h.fresh job (by omega))
  · intro job body hroot hget
    rw [Array.getElem?_push] at hget
    split at hget
    next heq =>
      cases hget
      exact ⟨route, branch, heq ▸ hroute, hbranch, heq ▸ hmake⟩
    next hne =>
      obtain ⟨old, code, hold, hcode, hbody⟩ := h.jobs job body hroot hget
      exact ⟨old, code, hextends _ _ hold, hcode, hbody⟩

/-- A plain action or a mark of the innermost branch. -/
theorem action_descends
    (hcovers : chart.Covers thunk root w.bodies)
    (hbelow : Standing thunk chart below)
    {action : Action} {rest : Code} {route : Route} {branch : Code}
    (haction : action.isPlainOrSilent = true)
    (hroute : chart.here below = some route)
    (hbranch : thunk.at? route = some branch)
    (hforks : rest.junctions <:+ branch.junctions)
    (hwithin : Code.within Action.isPlainOrSilent rest = true) :
    Descends thunk root chart (branches (.perform (action :: rest) :: below)) below
      (Action.step w identity rest action) := by
  have hgoOn : ∀ next : World, next.bodies = w.bodies →
      Descends thunk root chart (branches (.perform (action :: rest) :: below)) below
        (.go next identity [.perform rest]) :=
    fun next hbodies =>
      .quiet (hbodies ▸ hcovers) ⟨.code hroute hbranch hforks hwithin, hbelow⟩ rfl (by simp)
  cases action with
  | log label | store cell constant sources | start job | complete job | finish =>
      exact hgoOn _ rfl
  | _ =>
      cases haction

/-- A worker makes a job of the right branch of a fork. -/
theorem branching_descends
    (hcovers : chart.Covers thunk root w.bodies)
    (hbelow : Standing thunk chart below)
    (hworker : w.scheduler.workerOf identity ≠ none)
    {left right rest : Code} {route : Route} {branch : Code}
    (hroute : chart.here below = some route)
    (hbranch : thunk.at? route = some branch)
    (hforks : (left, right) :: rest.junctions <:+ branch.junctions)
    (hleft : Code.within Action.isPlainOrSilent left = true)
    (hrest : Code.within Action.isPlainOrSilent rest = true) :
    Descends thunk root (chart.enter w.bodies.size rest.junctions.length route)
      (branches (.perform (.fork left right :: rest) :: below)) below
      (Action.step w identity rest (.fork left right)) := by
  obtain ⟨worker, hsome⟩ := Option.ne_none_iff_exists'.mp hworker
  have hextends := Chart.extends_enter (hcovers.fresh _ le_rfl) rest.junctions.length route
  have hside : ∀ side, thunk.at? (⟨rest.junctions.length, side⟩ :: route) =
      some (side.pick (left, right)) := by
    intro side
    simpa [Code.at?, hbranch] using Code.branch?_of_suffix hforks side
  have hhere := hextends.here hroute
  simp only [Action.step, hsome]
  refine .quiet (hcovers.addJob hextends (fun _ => Chart.isNew_enter) (chart.enter_body _ _ _)
    (hside .right) (.inr rfl)) ⟨?_, ?_, hbelow.mono hextends⟩ rfl (by simp)
  · refine .fork ?_ (chart.enter_left _ _ _) (chart.enter_body _ _ _) (hside .left)
      (List.suffix_refl _) hleft
    simpa [Chart.here, Frame.branch?] using hhere
  · exact .code hhere hbranch ((List.suffix_cons _ _).trans hforks) hrest

/-- Each step keeps to the chart, when nothing is executed but jobs of the run, and forks are made
by workers only. -/
theorem step_descends
    (hthunk : Code.isStrict thunk = true)
    (hpolicy : w.scheduler.config.waitPolicy = .conservative)
    (hcovers : chart.Covers thunk root w.bodies)
    {frame : Frame}
    (hstanding : Standing thunk chart (frame :: below))
    (hjob : ∀ job, frame = .execute job → root ≤ job)
    (hworker : ∀ left right rest, frame = .perform (.fork left right :: rest) →
      w.scheduler.workerOf identity ≠ none) :
    chart.Extends (frame.note chart w.bodies.size below) ∧
      Descends thunk root (frame.note chart w.bodies.size below) (branches (frame :: below)) below
        (frame.step w identity) := by
  obtain ⟨hframe, hbelow⟩ := hstanding
  cases hframe with
  | calling =>
      have hextends := Chart.extends_start (hcovers.fresh _ le_rfl)
      have hnext : (chart.start w.bodies.size).Covers thunk root
          (w.addJob fun _ => Action.rootBody thunk).1.bodies :=
        hcovers.addJob hextends (fun _ => Chart.isNew_start) (chart.start_body _) rfl (.inl rfl)
      exact ⟨hextends, .quiet hnext ⟨.ground rfl rfl, .called rfl, trivial⟩ rfl (by simp)⟩
  | called hnone =>
      exact ⟨.refl chart, .quiet hcovers hbelow rfl (by simp)⟩
  | @code rest _ route branch hroute hbranch hforks hwithin =>
      cases rest with
      | nil =>
          exact ⟨.refl chart, .quiet hcovers hbelow rfl (by simp)⟩
      | cons action rest =>
          rw [Code.within, Bool.and_eq_true] at hwithin
          obtain ⟨haction, hrest⟩ := hwithin
          by_cases hfork : ∃ left right, action = .fork left right
          · obtain ⟨left, right, rfl⟩ := hfork
            rw [Action.within, Bool.and_eq_true] at haction
            simp only [Frame.note, hroute]
            exact ⟨Chart.extends_enter (hcovers.fresh _ le_rfl) _ _,
              branching_descends hcovers hbelow (hworker _ _ _ rfl) hroute hbranch hforks
                haction.1 hrest⟩
          · have hother : ∀ left right, action ≠ .fork left right :=
              fun left right heq => hfork ⟨left, right, heq⟩
            have hplain : action.isPlainOrSilent = true := by
              cases action <;> first | exact haction | exact absurd rfl (hother _ _)
            rw [Code.junctions_cons hother] at hforks
            rw [Frame.note_of_isPlainOrSilent hplain]
            exact ⟨.refl chart, action_descends hcovers hbelow hplain hroute hbranch hforks hrest⟩
  | execute henters =>
      exact ⟨.refl chart, execute_descends hthunk hcovers hbelow (hjob _ rfl) henters⟩
  | guarded henters hroute hbranch =>
      exact ⟨.refl chart, .quiet hcovers hbelow rfl (by simp)⟩
  | fork hroute hleft hright hbranch hforks hwithin =>
      exact ⟨.refl chart, fork_descends hpolicy hcovers hbelow hroute hleft hright hbranch hforks
        hwithin⟩
  | loop hnone =>
      exact ⟨.refl chart, loop_descends hcovers hbelow hnone _ _ _⟩
  | poll =>
      exact ⟨.refl chart, .ask hcovers hbelow (by simp) .poll rfl _ _ _⟩
  | ground hground hnone =>
      rw [Frame.note_of_isGround hground]
      exact ⟨.refl chart, ground_descends hcovers hbelow hnone hground⟩

end Steps

/-- Where a region stands, no branch is open. -/
theorem Standing.crew
    {thunk : Code} {chart : Chart} {threads : List Nat} {outer : Option Nat}
    {below rest : List Frame}
    (h : Standing thunk chart below)
    (hsuffix : .crew threads outer :: rest <:+ below) :
    branches rest = [] ∧ Standing thunk chart rest := by
  obtain ⟨hcrew, hrest⟩ := h.suffix hsuffix
  cases hcrew with
  | ground hground hnone =>
      exact ⟨hnone, hrest⟩

end ForkJoin
end WorkStealing
