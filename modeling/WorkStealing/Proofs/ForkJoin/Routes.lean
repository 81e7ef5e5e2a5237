import Mathlib.Data.List.Chain
import Mathlib.Logic.Function.Basic
import WorkStealing.Proofs.ForkJoin.Bodies
import WorkStealing.Proofs.Machine.Advance

/-!
# Routes in the tree of forks

A branch of a thunk is reached by legs, each at one of the forks of the branch before
and to one side. The route to a branch, with the last leg first, is its place in the
tree of forks: an ancestor is a branch that is passed on the way.

A stack opens branches: the left branch of each fork that runs it, and the body of each
job that is on the stack. A *chart* tells the routes of branches. When each frame stands
as it should on those below (`Standing`), then the open branches of a stack lie on one
way down from the thunk (`OnPath`).
-/

namespace WorkStealing

/-- A side of a fork. -/
inductive Side where
  | left
  | right
  deriving DecidableEq, Repr

def Side.pick {α : Type} : Side → α × α → α
  | left, fork => fork.1
  | right, fork => fork.2

/-- A leg of a route: to a side of the fork of some code that has so many forks after it. -/
structure Leg where
  later : Nat
  side : Side
  deriving DecidableEq, Repr

/-- The legs of the way to a branch, the last one first. -/
abbrev Route : Type := List Leg

/-- The way to the inner branch goes on from the outer one. -/
def Route.IsInside (inner outer : Route) : Prop :=
  ∃ legs, legs ≠ [] ∧ inner = legs ++ outer

theorem Route.IsInside.trans
    {inner middle outer : Route}
    (h : Route.IsInside inner middle)
    (hnext : Route.IsInside middle outer) :
    Route.IsInside inner outer := by
  obtain ⟨legs, hlegs, rfl⟩ := h
  obtain ⟨before, -, rfl⟩ := hnext
  exact ⟨legs ++ before, by simp [hlegs], by simp⟩

instance : Trans Route.IsInside Route.IsInside Route.IsInside where
  trans := Route.IsInside.trans

namespace Code

/-- The two branches of each fork of some code, not counting forks inside of them. -/
def junctions : Code → List (Code × Code)
  | [] => []
  | .fork left right :: rest => (left, right) :: junctions rest
  | _ :: rest => junctions rest

/-- The branch to which the leg leads. -/
def branch? (code : Code) (leg : Leg) : Option Code :=
  (code.junctions.reverse[leg.later]?).map leg.side.pick

/-- The branch to which the route leads. -/
def at? (thunk : Code) : Route → Option Code
  | [] => some thunk
  | leg :: route => (at? thunk route).bind fun code => code.branch? leg

/-- Actions other than forks do not matter for the forks. -/
theorem junctions_cons
    {action : Action}
    (haction : ∀ left right, action ≠ .fork left right)
    (rest : Code) :
    junctions (action :: rest) = junctions rest := by
  cases action with
  | fork left right =>
      exact absurd rfl (haction left right)
  | _ =>
      rfl

@[simp] theorem junctions_append
    (first second : Code) :
    junctions (first ++ second) = junctions first ++ junctions second := by
  induction first with
  | nil =>
      rfl
  | cons action rest ih =>
      cases action <;> simp [junctions, ih]

@[simp] theorem junctions_branchBody
    (job : JobId) (branch : Code) :
    junctions (Action.branchBody job branch) = junctions branch := by
  simp [Action.branchBody, junctions]

@[simp] theorem junctions_rootBody
    (thunk : Code) :
    junctions (Action.rootBody thunk) = junctions thunk := by
  simp [Action.rootBody, junctions]

/-- The branches of a fork, where the forks after it are known. -/
theorem branch?_of_suffix
    {code left right : Code} {later : List (Code × Code)}
    (h : (left, right) :: later <:+ code.junctions)
    (side : Side) :
    code.branch? ⟨later.length, side⟩ = some (side.pick (left, right)) := by
  obtain ⟨before, hbefore⟩ := h
  simp [branch?, ← hbefore]

/-- Branches of strict code are strict. -/
theorem isStrict_of_mem_junctions
    {code left right : Code}
    (hcode : Code.isStrict code = true)
    (h : (left, right) ∈ code.junctions) :
    Code.isStrict left = true ∧ Code.isStrict right = true := by
  induction code with
  | nil =>
      cases h
  | cons action rest ih =>
      rw [isStrict, within, Bool.and_eq_true] at hcode
      cases action with
      | fork first second =>
          rcases List.mem_cons.mp h with heq | hrest
          · cases heq
            simpa [Action.within, isStrict] using hcode.1
          · exact ih hcode.2 hrest
      | _ =>
          exact ih hcode.2 h

theorem isStrict_at?
    {thunk : Code}
    (hthunk : Code.isStrict thunk = true)
    {route : Route} {branch : Code}
    (h : thunk.at? route = some branch) :
    Code.isStrict branch = true := by
  induction route generalizing branch with
  | nil =>
      cases h
      exact hthunk
  | cons leg route ih =>
      obtain ⟨code, hcode, hbranch⟩ := Option.bind_eq_some_iff.mp h
      obtain ⟨⟨left, right⟩, hfork, hside⟩ := Option.map_eq_some_iff.mp hbranch
      have hmem := List.mem_reverse.mp (List.mem_of_getElem? hfork)
      obtain ⟨hleft, hright⟩ := isStrict_of_mem_junctions (ih hcode) hmem
      obtain ⟨later, side⟩ := leg
      cases side with
      | left =>
          cases hside
          exact hleft
      | right =>
          cases hside
          exact hright

end Code

namespace ForkJoin

open Machine (Frame)

/-- A branch in a run: the left branch of a fork, told by the job of its right branch, or the body
of a job. -/
inductive Branch where
  | left (right : JobId)
  | body (job : JobId)
  deriving DecidableEq, Repr

/-- The routes of branches. -/
abbrev Chart : Type := Branch → Option Route

end ForkJoin

namespace Machine

open ForkJoin (Branch Chart)

def Frame.branch? : Frame → Option Branch
  | .guarded job => some (.body job)
  | .fork .check _ right _ => some (.left right)
  | _ => none

/-- The branches that are open on a stack, the innermost first. -/
def branches (frames : List Frame) : List Branch :=
  frames.filterMap Frame.branch?

@[simp] theorem branches_nil :
    branches [] = [] := by
  rfl

@[simp] theorem branches_cons
    (frame : Frame) (below : List Frame) :
    branches (frame :: below) = frame.branch?.toList ++ branches below := by
  unfold branches
  rw [List.filterMap_cons]
  cases frame.branch? <;> rfl

@[simp] theorem branches_append
    (frames below : List Frame) :
    branches (frames ++ below) = branches frames ++ branches below :=
  List.filterMap_append

/-- A frame of a run or of a region, beneath all branches. -/
def Frame.isGround : Frame → Bool
  | .run _ _ _ => true
  | .turns _ _ => true
  | .recruit _ => true
  | .crew _ _ => true
  | .disband _ _ => true
  | _ => false

theorem Frame.branch?_of_isGround
    {frame : Frame}
    (h : frame.isGround = true) :
    frame.branch? = none := by
  cases frame <;> simp_all [isGround, branch?]

end Machine

namespace ForkJoin

open Machine (Frame branches)

namespace Chart

/-- The route of the innermost branch that is open. -/
def here (chart : Chart) (frames : List Frame) : Option Route :=
  (branches frames).head?.bind chart

/-- The thunk is the body of the job. -/
def start (chart : Chart) (job : JobId) : Chart :=
  Function.update chart (.body job) (some [])

/-- The job is the right branch of a fork with so many forks after it in the branch on the
route. -/
def enter (chart : Chart) (job : JobId) (later : Nat) (route : Route) : Chart :=
  Function.update (Function.update chart (.left job) (some (⟨later, .left⟩ :: route)))
    (.body job) (some (⟨later, .right⟩ :: route))

/-- What the first chart tells the other one tells too. -/
def Extends (chart other : Chart) : Prop :=
  ∀ branch route, chart branch = some route → other branch = some route

variable {chart other : Chart}

theorem Extends.refl
    (chart : Chart) :
    chart.Extends chart :=
  fun _ _ h => h

theorem Extends.here
    (h : chart.Extends other)
    {frames : List Frame} {route : Route}
    (hroute : chart.here frames = some route) :
    other.here frames = some route := by
  obtain ⟨branch, hbranch, hchart⟩ := Option.bind_eq_some_iff.mp hroute
  exact Option.bind_eq_some_iff.mpr ⟨branch, hbranch, h branch route hchart⟩

/-- The job was not on the chart before. -/
def IsNew (chart : Chart) (job : JobId) : Prop :=
  chart (.left job) = none ∧ chart (.body job) = none

theorem extends_start
    {job : JobId}
    (hnew : chart.IsNew job) :
    chart.Extends (chart.start job) := by
  intro branch route hroute
  have hne : branch ≠ .body job := by
    rintro rfl
    simp [hnew.2] at hroute
  simpa [start, hne] using hroute

theorem extends_enter
    {job : JobId}
    (hnew : chart.IsNew job)
    (later : Nat) (route : Route) :
    chart.Extends (chart.enter job later route) := by
  intro branch other hroute
  have hleft : branch ≠ .left job := by
    rintro rfl
    simp [hnew.1] at hroute
  have hbody : branch ≠ .body job := by
    rintro rfl
    simp [hnew.2] at hroute
  simpa [enter, hleft, hbody] using hroute

theorem start_body
    (chart : Chart) (job : JobId) :
    chart.start job (.body job) = some [] := by
  simp [start]

/-- Other jobs stay new. -/
theorem isNew_start
    {job other : JobId}
    (hne : other ≠ job)
    (hnew : chart.IsNew other) :
    (chart.start job).IsNew other := by
  simpa [IsNew, start, hne] using hnew

theorem isNew_enter
    {job other : JobId} {later : Nat} {route : Route}
    (hne : other ≠ job)
    (hnew : chart.IsNew other) :
    (chart.enter job later route).IsNew other := by
  simpa [IsNew, enter, hne] using hnew

theorem enter_left
    (chart : Chart) (job : JobId) (later : Nat) (route : Route) :
    chart.enter job later route (.left job) = some (⟨later, .left⟩ :: route) := by
  simp [enter]

theorem enter_body
    (chart : Chart) (job : JobId) (later : Nat) (route : Route) :
    chart.enter job later route (.body job) = some (⟨later, .right⟩ :: route) := by
  simp [enter]

end Chart

/-- A stack may begin with the job: a fork has taken its right branch back, or no branch is
open. -/
inductive Enters (job : JobId) : List Frame → Prop where
  | own {worker : Nat} {left : Code} {below : List Frame} :
      Enters job (.fork .closing worker job left :: below)
  | apart {below : List Frame}
      (hbelow : branches below = []) :
      Enters job below

/-- The frame may stand on those below it. -/
inductive Stands (thunk : Code) (chart : Chart) : Frame → List Frame → Prop where
  | calling {threads : Nat} :
      Stands thunk chart (.perform [.runThunk thunk threads]) []
  | called {below : List Frame}
      (hbelow : branches below = []) :
      Stands thunk chart (.perform []) below
  /-- What is left of the innermost branch. -/
  | code {rest : Code} {below : List Frame} {route : Route} {branch : Code}
      (hroute : chart.here below = some route)
      (hbranch : thunk.at? route = some branch)
      (hforks : rest.junctions <:+ branch.junctions)
      (hwithin : Code.within Action.isPlainOrSilent rest = true) :
      Stands thunk chart (.perform rest) below
  | execute {job : JobId} {below : List Frame}
      (henters : Enters job below) :
      Stands thunk chart (.execute job) below
  | guarded {job : JobId} {below : List Frame} {route : Route} {branch : Code}
      (henters : Enters job below)
      (hroute : chart (.body job) = some route)
      (hbranch : thunk.at? route = some branch) :
      Stands thunk chart (.guarded job) below
  /-- A fork of the innermost branch. -/
  | fork {point : Machine.ForkPoint} {worker : Nat} {right : JobId} {left : Code}
      {below : List Frame} {route : Route} {later : Nat} {branch : Code}
      (hroute : chart.here below = some route)
      (hleft : chart (.left right) = some (⟨later, .left⟩ :: route))
      (hright : chart (.body right) = some (⟨later, .right⟩ :: route))
      (hbranch : thunk.at? (⟨later, .left⟩ :: route) = some branch)
      (hforks : left.junctions <:+ branch.junctions)
      (hwithin : Code.within Action.isPlainOrSilent left = true) :
      Stands thunk chart (.fork point worker right left) below
  /-- Only a worker that is in no branch looks for jobs. -/
  | loop {point : Machine.LoopPoint} {worker evaluations : Nat} {below : List Frame}
      (hbelow : branches below = []) :
      Stands thunk chart (.loop point worker .finished evaluations) below
  | poll {job : JobId} {evaluations : Nat} {below : List Frame} :
      Stands thunk chart (.poll (.jobDone job) evaluations) below
  | ground {frame : Frame} {below : List Frame}
      (hframe : frame.isGround = true)
      (hbelow : branches below = []) :
      Stands thunk chart frame below

/-- Each frame of the stack may stand on those below it. -/
def Standing (thunk : Code) (chart : Chart) : List Frame → Prop
  | [] => True
  | frame :: below => Stands thunk chart frame below ∧ Standing thunk chart below

section Paths

variable {thunk : Code} {chart other : Chart} {frame : Frame} {frames below : List Frame}

theorem Stands.mono
    (h : Stands thunk chart frame below)
    (hextends : chart.Extends other) :
    Stands thunk other frame below := by
  cases h with
  | calling =>
      exact .calling
  | called hbelow =>
      exact .called hbelow
  | code hroute hbranch hforks hwithin =>
      exact .code (hextends.here hroute) hbranch hforks hwithin
  | execute henters =>
      exact .execute henters
  | guarded henters hroute hbranch =>
      exact .guarded henters (hextends _ _ hroute) hbranch
  | fork hroute hleft hright hbranch hforks hwithin =>
      exact .fork (hextends.here hroute) (hextends _ _ hleft) (hextends _ _ hright) hbranch hforks
        hwithin
  | loop hbelow =>
      exact .loop hbelow
  | poll =>
      exact .poll
  | ground hframe hbelow =>
      exact .ground hframe hbelow

theorem Standing.mono
    (h : Standing thunk chart frames)
    (hextends : chart.Extends other) :
    Standing thunk other frames := by
  induction frames with
  | nil =>
      trivial
  | cons frame below ih =>
      exact ⟨h.1.mono hextends, ih h.2⟩

theorem Standing.suffix
    (h : Standing thunk chart frames)
    (hsuffix : below <:+ frames) :
    Standing thunk chart below := by
  induction frames with
  | nil =>
      rw [List.suffix_nil.mp hsuffix]
      trivial
  | cons frame frames ih =>
      rcases List.suffix_cons_iff.mp hsuffix with rfl | hdeeper
      · exact h
      · exact ih h.2 hdeeper

/-- Code stands where its forks are among those of the innermost branch. -/
theorem Standing.junctions
    {rest : Code} {route : Route}
    (h : Standing thunk chart (.perform rest :: below))
    (hroute : chart.here below = some route) :
    ∃ branch, thunk.at? route = some branch ∧ rest.junctions <:+ branch.junctions := by
  cases h.1 with
  | calling =>
      cases hroute
  | called hnone =>
      simp [Chart.here, hnone] at hroute
  | code hhere hbranch hforks hwithin =>
      obtain rfl := Option.some.inj (hhere.symm.trans hroute)
      exact ⟨_, hbranch, hforks⟩
  | ground hground hnone =>
      cases hground

/-- The branches lie on one way down the tree of forks, each right below the one after it in the
list. -/
def OnPath (thunk : Code) (chart : Chart) (branches : List Branch) : Prop :=
  ∃ routes : List Route, branches.map chart = routes.map some ∧
    routes.IsChain (fun inner outer => ∃ leg, inner = leg :: outer) ∧
    ∀ route ∈ routes, ∃ branch, thunk.at? route = some branch

theorem OnPath.nil :
    OnPath thunk chart [] :=
  ⟨[], rfl, .nil, by simp⟩

theorem OnPath.single
    {branch : Branch} {route : Route} {code : Code}
    (hroute : chart branch = some route)
    (hcode : thunk.at? route = some code) :
    OnPath thunk chart [branch] :=
  ⟨[route], by simp [hroute], .singleton _, by simp [hcode]⟩

/-- One more leg. -/
theorem OnPath.cons
    {branch : Branch} {inner : List Branch} {leg : Leg} {route : Route} {code : Code}
    (h : OnPath thunk chart inner)
    (hinner : inner.head?.bind chart = some route)
    (hroute : chart branch = some (leg :: route))
    (hcode : thunk.at? (leg :: route) = some code) :
    OnPath thunk chart (branch :: inner) := by
  obtain ⟨routes, hmap, hchain, hat⟩ := h
  cases inner with
  | nil =>
      cases hinner
  | cons first rest =>
      cases routes with
      | nil =>
          cases hmap
      | cons second routes =>
          simp only [List.map_cons, List.cons.injEq] at hmap
          obtain ⟨hfirst, hrest⟩ := hmap
          have hsame : second = route := Option.some.inj (hfirst.symm.trans hinner)
          subst hsame
          refine ⟨(leg :: second) :: second :: routes, ?_, ?_, ?_⟩
          · simp [hroute, hfirst, hrest]
          · exact .cons_cons ⟨leg, rfl⟩ hchain
          · rw [List.forall_mem_cons]
            exact ⟨⟨code, hcode⟩, hat⟩

/-- The branches that are open on a stack are a way down the tree of forks. -/
theorem Standing.onPath
    (h : Standing thunk chart frames) :
    OnPath thunk chart (branches frames) := by
  induction frames with
  | nil =>
      exact .nil
  | cons frame below ih =>
      obtain ⟨hframe, hbelow⟩ := h
      rw [Machine.branches_cons]
      cases hframe with
      | calling | called | code | execute | loop | poll =>
          exact ih hbelow
      | ground hframe hnone =>
          rw [Frame.branch?_of_isGround hframe]
          exact ih hbelow
      | @guarded job _ route branch henters hroute hbranch =>
          cases henters with
          | apart hnone =>
              simpa [hnone, Frame.branch?] using OnPath.single hroute hbranch
          | own =>
              cases hbelow.1 with
              | fork hhere hleft hright _ _ _ =>
                  rw [hright] at hroute
                  cases hroute
                  exact (ih hbelow).cons hhere hright hbranch
              | ground hframe =>
                  cases hframe
      | @fork point worker right left _ route later branch hroute hleft hright hbranch =>
          cases point with
          | check =>
              exact (ih hbelow).cons hroute hleft hbranch
          | _ =>
              exact ih hbelow

/-- The innermost branch lies inside of all others. -/
theorem OnPath.nested
    {branch : Branch} {rest : List Branch}
    (h : OnPath thunk chart (branch :: rest)) :
    ∃ route, chart branch = some route ∧
      ∀ outer ∈ rest, ∃ above, chart outer = some above ∧ Route.IsInside route above := by
  obtain ⟨routes, hmap, hchain, -⟩ := h
  cases routes with
  | nil =>
      cases hmap
  | cons route routes =>
      simp only [List.map_cons, List.cons.injEq] at hmap
      refine ⟨route, hmap.1, fun outer houter => ?_⟩
      have hmem : chart outer ∈ routes.map some := hmap.2 ▸ List.mem_map_of_mem houter
      obtain ⟨above, habove, heq⟩ := List.mem_map.mp hmem
      have hinside : (route :: routes).IsChain Route.IsInside := by
        refine hchain.imp fun inner outer hleg => ?_
        obtain ⟨leg, rfl⟩ := hleg
        exact ⟨[leg], by simp, by simp⟩
      exact ⟨above, heq.symm, List.rel_of_pairwise_cons hinside.pairwise habove⟩

end Paths
end ForkJoin
end WorkStealing
