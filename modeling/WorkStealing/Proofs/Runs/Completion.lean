import Mathlib.Algebra.Order.BigOperators.Group.Finset
import WorkStealing.Proofs.Runs.Errand

/-!
# Errands are completed

An errand that finds the flag that ends a run not set goes through these stages
(`Errand.Stage`): its region is opened, the first worker or a thief gets the job,
the job ends the run, all workers leave, and the deques are put back. Each stage
names a thread whose next step brings the run nearer to its end, so that the errand
is completed under every fair schedule (`Errand.completes`).
-/

namespace WorkStealing
namespace Machine

open Function (update)

/-- A number of steps until a run has put the scheduler back. -/
def RunPoint.span (deques : Nat) : RunPoint → Nat
  | .clear => deques + 5
  | .reset deque => deques - deque + 4
  | .release => 3
  | .complete => 2
  | _ => 0

/-- A number of steps until a region is left when all of its workers have left. -/
def Frame.span : Frame → Nat
  | .crew _ _ => 2
  | .disband _ _ => 1
  | .turns pending _ => 2 * pending.length + 1
  | _ => 0

/-- A sum falls when one of its terms does. -/
theorem sum_update_lt
    {count t : Nat} (spans : Nat → Nat) {less : Nat}
    (ht : t < count)
    (hless : less < spans t) :
    ∑ u ∈ Finset.range count, update spans t less u < ∑ u ∈ Finset.range count, spans u := by
  refine Finset.sum_lt_sum (fun u _ => ?_) ⟨t, Finset.mem_range.mpr ht, ?_⟩
  · by_cases hu : u = t
    · rw [hu, Function.update_self]
      exact Nat.le_of_lt hless
    · rw [Function.update_of_ne hu]
  · rw [Function.update_self]
    exact hless

namespace Errand

/-- These are the frames of a worker that looks for the job. -/
def Searching (e : Errand) (frames : List Frame) : Prop :=
  ∃ v point evaluations, v < e.deques ∧ point.Seeks e.deques ∧
    frames = [.loop point v .finished evaluations]

/-- These are the frames of the worker that has the job, with the number of steps until the job has
ended the run, whether it was taken, and what of it was performed. -/
inductive Carries (e : Errand) : Nat → Bool → List Action → List Moment → List Frame → Prop where
  | obtained {v evaluations : Nat} {point : LoopPoint}
      (hv : v < e.deques)
      (hpoint : point = .popped e.root ∨ point = .stolen e.root) :
      Carries e (e.body.length + 4) false [] [] [.loop point v .finished evaluations]
  | dispatching {v evaluations : Nat}
      (hv : v < e.deques) :
      Carries e (e.body.length + 3) false [] [] [.loop (.dispatch e.root) v .finished evaluations]
  | executing {v evaluations : Nat}
      (hv : v < e.deques) :
      Carries e (e.body.length + 2) false [] []
        [.execute e.root, .loop .poll v .finished evaluations]
  | performing {v evaluations : Nat} {done rest : Code}
      (hv : v < e.deques)
      (hbody : done ++ rest = e.body) :
      Carries e (rest.length + 1) true done [.jobBegan e.root]
        [.perform (rest ++ [.finish]), .guarded e.root, .loop .poll v .finished evaluations]

/-- These are the frames of a worker after the run was told to end, with a number of steps after
which it has left. -/
inductive Retires (e : Errand) : Nat → List Frame → Prop where
  | away : Retires e 0 []
  | searching {v evaluations : Nat} {point : LoopPoint}
      (hv : v < e.deques)
      (hpoint : point.Seeks e.deques) :
      Retires e point.span [.loop point v .finished evaluations]
  | ending {v evaluations : Nat}
      (hv : v < e.deques) :
      Retires e 3 [.perform [], .guarded e.root, .loop .poll v .finished evaluations]
  | ended {v evaluations : Nat}
      (hv : v < e.deques) :
      Retires e 2 [.guarded e.root, .loop .poll v .finished evaluations]

variable {e : Errand} {w : World} {k : Nat} {taken : Bool} {performed : List Action}
  {history : List Moment} {frame : Frame} {below : List Frame}

theorem Searching.retires
    {frames : List Frame}
    (h : e.Searching frames) :
    ∃ k, e.Retires k frames := by
  obtain ⟨v, point, evaluations, hv, hpoint, rfl⟩ := h
  exact ⟨_, .searching hv hpoint⟩

/-- What the worker that has the job does with its frame on top: it goes on with the job, or the
job ends the run. -/
inductive CarriesOn (e : Errand) (k : Nat) (performed : List Action) (history : List Moment)
    (below : List Frame) : Move → Prop where
  | goes {next : World} {identity : Option Nat} {frames : List Frame} {l : Nat} {taken : Bool}
      (hlower : l < k)
      (hcarries : e.Carries l taken performed history (frames ++ below))
      (hscene : e.Scene next none taken false) :
      CarriesOn e k performed history below (.go next identity frames)
  | ends {next : World} {identity : Option Nat} {frames : List Frame} {l : Nat}
      (hperformed : performed = e.body)
      (hhistory : history = [.jobBegan e.root, .finished])
      (hretires : e.Retires l (frames ++ below))
      (hscene : e.Scene next none true true) :
      CarriesOn e k performed history below (.go next identity frames)

theorem CarriesOn.isGo
    {move : Move}
    (h : CarriesOn e k performed history below move) :
    ∃ w other next, move = .go w other next := by
  cases h <;> exact ⟨_, _, _, rfl⟩

/-- The worker that has the job has something to do. -/
theorem Carries.exists_cons
    {frames : List Frame}
    (h : e.Carries k taken performed history frames) :
    ∃ frame below, frames = frame :: below := by
  cases h <;> exact ⟨_, _, rfl⟩

/-- The worker that has the job performs it, and counts before what it has to count. -/
theorem Carries.step
    (hready : e.Ready)
    (h : e.Carries k taken performed history (frame :: below))
    (hscene : e.Scene w none taken false)
    (identity : Option Nat) :
    CarriesOn e k (performed ++ frame.action?.toList) (history ++ frame.moment?.toList) below
      (frame.step w identity) := by
  cases h with
  | obtained hv hpoint =>
      rcases hpoint with rfl | rfl
      · obtain ⟨t, hbump, hkeeps, hlone⟩ := hscene.lone.bump hv .localPops
        rw [Frame.step, LoopPoint.step, w.schedule_of_ok (·.bump _ .localPops) _ hbump]
        exact .goes (Nat.lt_succ_self _) (.dispatching hv) (hscene.schedule hkeeps hlone)
      · obtain ⟨t, hbump, hkeeps, hlone⟩ := hscene.lone.bump hv .steals
        rw [Frame.step, LoopPoint.step, w.schedule_of_ok (·.bump _ .steals) _ hbump]
        exact .goes (Nat.lt_succ_self _) (.dispatching hv) (hscene.schedule hkeeps hlone)
  | dispatching hv =>
      obtain ⟨t, hbump, hkeeps, hlone⟩ := hscene.lone.bump hv .jobsExecuted
      rw [Frame.step, LoopPoint.step, w.schedule_of_ok (·.bump _ .jobsExecuted) _ hbump]
      exact .goes (Nat.lt_succ_self _) (.executing hv) (hscene.schedule hkeeps hlone)
  | executing hv =>
      obtain ⟨next, hmove, hnext⟩ := step_execute hscene identity
      rw [hmove]
      exact .goes (Nat.lt_succ_self _) (.performing hv (List.nil_append e.body)) hnext
  | @performing v evaluations _ rest hv hbody =>
      cases rest with
      | nil =>
          rw [List.append_nil] at hbody
          refine .ends ?_ rfl (.ending hv) ?_
          · exact (List.append_nil performed).trans hbody
          · exact ⟨hscene.lone.congr rfl rfl, rfl, hscene.flags, hscene.body, hscene.quiet⟩
      | cons action rest =>
          have hplain : action.isPlain = true := by
            refine List.all_eq_true.mp hready.plain action ?_
            rw [← hbody]
            exact List.mem_append_right performed List.mem_cons_self
          obtain ⟨next, hmove, hnext⟩ := step_plain hscene hplain identity (rest ++ [.finish])
          have haction : Frame.action? (.perform (action :: (rest ++ [.finish]))) = some action :=
            if_pos hplain
          have hmoment : Frame.moment? (.perform (action :: (rest ++ [.finish]))) = none := by
            cases action <;> first | rfl | cases hplain
          rw [List.cons_append, hmove, haction, hmoment]
          refine .goes (Nat.lt_succ_self _) (.performing hv ?_) hnext
          rw [← hbody, List.append_assoc]
          rfl

/-- What a worker does with its frame on top when it was told to end and the job has ended. -/
inductive RetiresOn (e : Errand) (k : Nat) (below : List Frame) : Move → Prop where
  | goes {next : World} {identity : Option Nat} {frames : List Frame} {l : Nat}
      (hlower : l < k)
      (hretires : e.Retires l (frames ++ below))
      (hscene : e.Scene next none true true) :
      RetiresOn e k below (.go next identity frames)

theorem RetiresOn.isGo
    {move : Move}
    (h : RetiresOn e k below move) :
    ∃ w other next, move = .go w other next := by
  cases h
  exact ⟨_, _, _, rfl⟩

/-- A worker that was told to end comes nearer to its end with each step, and performs nothing. -/
theorem Retires.step
    (hready : e.Ready)
    (h : e.Retires k (frame :: below))
    (hscene : e.Scene w none true true)
    (identity : Option Nat) :
    RetiresOn e k below (frame.step w identity) ∧ frame.action? = none ∧ frame.moment? = none := by
  cases h with
  | @searching v evaluations point hv hpoint =>
      refine ⟨?_, rfl, rfl⟩
      have hsought := step_seeking hscene identity hready hv hpoint evaluations
      generalize Frame.step w identity (.loop point v .finished evaluations) = move at hsought
      cases hsought with
      | stays hnext hother hspan =>
          exact .goes (hspan rfl) (.searching hv hother) hnext
      | leaves hnext htold hspan =>
          exact .goes hspan .away hnext
      | obtains hjob hother hnext =>
          cases hjob
  | ending hv =>
      exact ⟨.goes (Nat.lt_succ_self 2) (.ended hv) hscene, rfl, rfl⟩
  | ended hv =>
      have hpoll : LoopPoint.Seeks e.deques .poll := trivial
      exact ⟨.goes (Nat.lt_succ_self 1) (.searching hv hpoll) hscene, rfl, rfl⟩

/-- Whom the others wait for: a worker that has not left, or the calling thread when all have. -/
def Helps (upper : Nat → List Frame) (count t : Nat) : Prop :=
  t < count ∧ (upper t ≠ [] ∨ t = 0 ∧ ∀ u, u ≠ 0 → u < count → upper u = [])

theorem exists_helps
    {count : Nat}
    (hpos : 0 < count)
    (upper : Nat → List Frame) :
    ∃ t, Helps upper count t := by
  by_cases hbusy : ∃ t, t < count ∧ upper t ≠ []
  · obtain ⟨t, ht, hsome⟩ := hbusy
    exact ⟨t, ht, Or.inl hsome⟩
  · refine ⟨0, hpos, Or.inr ⟨rfl, fun u _ hu => ?_⟩⟩
    exact by_contra fun hsome => hbusy ⟨u, hu, hsome⟩

def only (frames : List Frame) : Nat → List Frame :=
  update (fun _ => []) 0 frames

/-- The calling thread goes on, and the others have nothing left to do. -/
theorem only_of_left
    {s : System} {count : Nat} {frames : Nat → List Frame} {next : List Frame}
    (hstaffed : Staffed s count (update frames 0 next))
    (hothers : ∀ u, u ≠ 0 → u < count → frames u = []) :
    Staffed s count (only next) := by
  refine hstaffed.congr fun u hu => ?_
  by_cases hzero : u = 0
  · rw [hzero, only, Function.update_self, Function.update_self]
  · rw [only, Function.update_of_ne hzero, Function.update_of_ne hzero, hothers u hzero hu]

/-- Ranks fall along the stages, and along the steps of a stage. -/
abbrev Lower : Nat × Nat → Nat × Nat → Prop := Prod.Lex (· < ·) (· < ·)

/-- The stages of an errand with their ranks and a thread that helps, and what was performed and
observed of the job so far. -/
inductive Stage (e : Errand) :
    Nat × Nat → Nat → System → List Action → List Moment → Prop where
  | outset {k : Nat} {s : System}
      (h : Outset e false k s) :
      Stage e (5, k) 0 s [] []
  /-- The job is in the first deque, and the first worker is about to pop it. -/
  | queued {k : Nat} {s : System} {count evaluations : Nat} {region : Frame}
      {upper : Nat → List Frame} {point : LoopPoint}
      (hstaffed : Staffed s count (e.stack region upper))
      (hpos : 0 < count)
      (hfew : count ≤ e.asked)
      (hcloses : e.Closes count region)
      (hfirst : upper 0 = [.loop point 0 .finished evaluations])
      (hpoint : point = .poll ∧ k = 2 ∨ point = .pop ∧ k = 1)
      (hothers : ∀ u, u < count → e.Searching (upper u))
      (hscene : e.Scene s.world (some e.root) false false) :
      Stage e (4, k) 0 s [] []
  /-- A worker has the job. -/
  | held {k : Nat} {s : System} {count t : Nat} {region : Frame} {upper : Nat → List Frame}
      {taken : Bool} {performed : List Action} {history : List Moment}
      (hstaffed : Staffed s count (e.stack region upper))
      (hpos : 0 < count)
      (hfew : count ≤ e.asked)
      (hcloses : e.Closes count region)
      (ht : t < count)
      (hcarries : e.Carries k taken performed history (upper t))
      (hothers : ∀ u, u < count → u ≠ t → e.Searching (upper u))
      (hscene : e.Scene s.world none taken false) :
      Stage e (3, k) t s performed history
  /-- The job has ended the run. -/
  | ended {s : System} {count t : Nat} {region : Frame} {upper : Nat → List Frame}
      {spans : Nat → Nat}
      (hstaffed : Staffed s count (e.stack region upper))
      (hpos : 0 < count)
      (hfew : count ≤ e.asked)
      (hcloses : e.Closes count region)
      (hhelps : Helps upper count t)
      (hretires : ∀ u, u < count → e.Retires (spans u) (upper u))
      (hscene : e.Scene s.world none true true) :
      Stage e (2, ∑ u ∈ Finset.range count, spans u + region.span) t s e.body
        [.jobBegan e.root, .finished]
  /-- All workers have left, and the deques are put back. -/
  | closing {k : Nat} {s : System} {count : Nat} {point : RunPoint} {finished : Bool}
      (hstaffed : Staffed s count (only [.run point e.root e.request.thunk, .perform []]))
      (hpos : 0 < count)
      (hspan : point.span e.deques = k + 2)
      (hscene : e.Scene s.world none true finished) :
      Stage e (1, k + 2) 0 s e.body [.jobBegan e.root, .finished]
  | returned {s : System} {count : Nat}
      (hstaffed : Staffed s count (only [.perform []]))
      (hpos : 0 < count)
      (hreports : e.request.world.Reports e.request.thunk s (.ok ())) :
      Stage e (1, 1) 0 s e.body [.jobBegan e.root, .finished]
  /-- The run was left; it has reported unless its statistics could not be written. -/
  | settled {s : System}
      (hleft : s.hasLeft = true)
      (hover : ∀ index, s.advance index = s ∧ s.frameAt index = none)
      (hreports : (s.world.tracing = true → ∃ stats, s.world.scheduler.stats = .ok stats) →
        e.request.world.Reports e.request.thunk s (.ok ())) :
      Stage e (0, 0) 0 s e.body [.jobBegan e.root, .finished]

/-- A worker's step changes the frames of that worker only. -/
theorem advance_worker
    {s : System} {count t : Nat} {region : Frame} {upper : Nat → List Frame}
    (hstaffed : Staffed s count (e.stack region upper))
    (ht : t < count)
    (hupper : upper t = frame :: below)
    {Moves : Move → Prop}
    (hgo : ∀ move, Moves move → ∃ w other next, move = .go w other next)
    (hmove : ∀ identity, Moves (frame.step s.world identity)) :
    s.frameAt t = some frame ∧ ∃ w other next, Moves (.go w other next) ∧
      Staffed (s.advance t) count (e.stack region (update upper t (next ++ below))) ∧
        (s.advance t).world = w := by
  have hframes : e.stack region upper t =
      frame :: (below ++ if t = 0 then region :: e.request.after else []) := by
    rw [stack, hupper]
    rfl
  refine ⟨hstaffed.frameAt ht hframes, ?_⟩
  obtain ⟨w, other, next, hmoves, hnext, hworld⟩ := hstaffed.advance_of_moves ht hframes hgo hmove
  rw [← List.append_assoc, stack_update] at hnext
  exact ⟨w, other, next, hmoves, hnext, hworld⟩

/-- The step of a worker of which it is known where it goes. -/
theorem advance_worker_of_go
    {s : System} {count t : Nat} {region : Frame} {upper : Nat → List Frame} {next : List Frame}
    (hstaffed : Staffed s count (e.stack region upper))
    (ht : t < count)
    (hupper : upper t = frame :: below)
    (hmove : ∀ identity, ∃ other, frame.step s.world identity = .go w other next) :
    s.frameAt t = some frame ∧
      Staffed (s.advance t) count (e.stack region (update upper t (next ++ below))) ∧
        (s.advance t).world = w := by
  have hgo : ∀ move, (∃ other, move = Move.go w other next) →
      ∃ w other next, move = .go w other next := by
    rintro - ⟨other, rfl⟩
    exact ⟨w, other, next, rfl⟩
  obtain ⟨hframe, _, _, _, ⟨other, heq⟩, hnext, hworld⟩ :=
    advance_worker hstaffed ht hupper hgo hmove
  cases heq
  exact ⟨hframe, hnext, hworld⟩

/-- A worker that looks for a job goes on to do so, or obtains the job. -/
theorem advance_searching
    (hready : e.Ready)
    {s : System} {count t : Nat} {region : Frame} {upper : Nat → List Frame} {job? : Option JobId}
    (hstaffed : Staffed s count (e.stack region upper))
    (ht : t < count)
    (hsearching : e.Searching (upper t))
    (hjob : ∀ job, job? = some job → job = e.root)
    (hscene : e.Scene s.world job? taken false) :
    (s.frameAt t).bind Frame.action? = none ∧ (s.frameAt t).bind Frame.moment? = none ∧
      ∃ frames, Staffed (s.advance t) count (e.stack region (update upper t frames)) ∧
        (e.Searching frames ∧ e.Scene (s.advance t).world job? taken false ∨
          job? = some e.root ∧ e.Carries (e.body.length + 4) false [] [] frames ∧
            e.Scene (s.advance t).world none taken false) := by
  obtain ⟨v, point, evaluations, hv, hpoint, hupper⟩ := hsearching
  obtain ⟨hframe, w, other, next, hsought, hnext, hworld⟩ := advance_worker hstaffed ht hupper
    (fun _ => Sought.goes) fun identity =>
      step_seeking hscene identity hready hv hpoint evaluations
  rw [hframe]
  refine ⟨rfl, rfl, _, hnext, ?_⟩
  rw [hworld, List.append_nil]
  cases hsought with
  | stays hafter hother hspan =>
      exact Or.inl ⟨⟨v, _, _, hv, hother, rfl⟩, hafter⟩
  | leaves hafter htold hspan =>
      cases htold
  | obtains hsome hother hafter =>
      cases hjob _ hsome
      exact Or.inr ⟨hsome, .obtained hv hother, hafter⟩

namespace Stage

variable {s : System} {rank : Nat × Nat} {t : Nat}

/-- What is observed up to and including a step. -/
def After (e : Errand) (rank : Nat × Nat) (t : Nat) (s : System) (performed : List Action)
    (history : List Moment) (index : Nat) : Prop :=
  Stage e rank t (s.advance index)
    (performed ++ ((s.frameAt index).bind Frame.action?).toList)
    (history ++ ((s.frameAt index).bind Frame.moment?).toList)

/-- A step that brings the run nearer to its end, or the step of a thread that does not help. -/
def Advances (e : Errand) (rank : Nat × Nat) (t : Nat) (s : System) (performed : List Action)
    (history : List Moment) (index : Nat) : Prop :=
  (∃ lower u, Lower lower rank ∧ After e lower u s performed history index) ∨
    ((index = t → s.hasLeft = true) ∧ After e rank t s performed history index)

/-- A step of which nothing is observed. -/
theorem After.silent
    {index : Nat}
    (haction : (s.frameAt index).bind Frame.action? = none)
    (hmoment : (s.frameAt index).bind Frame.moment? = none)
    (h : Stage e rank t (s.advance index) performed history) :
    After e rank t s performed history index := by
  rw [After, haction, hmoment]
  simp only [Option.toList_none, List.append_nil]
  exact h

/-- A step of a frame of which nothing is observed. -/
theorem After.of_frame
    {index : Nat} {frame : Frame}
    (hframe : s.frameAt index = some frame)
    (haction : frame.action? = none)
    (hmoment : frame.moment? = none)
    (h : Stage e rank t (s.advance index) performed history) :
    After e rank t s performed history index := by
  refine .silent ?_ ?_ h
  · rw [hframe]
    exact haction
  · rw [hframe]
    exact hmoment

/-- A step that changes nothing. -/
theorem After.unchanged
    {index : Nat}
    (hadvance : s.advance index = s ∧ s.frameAt index = none)
    (h : Stage e rank t s performed history) :
    After e rank t s performed history index := by
  refine .silent ?_ ?_ ?_
  · rw [hadvance.2]
    rfl
  · rw [hadvance.2]
    rfl
  · rw [hadvance.1]
    exact h

/-- Where the region has just been opened, the first worker is about to look into its own deque. -/
theorem of_opened
    {count : Nat} {region : Frame} {upper : Nat → List Frame}
    (h : Opened e false s count region upper) :
    Stage e (4, 2) 0 s [] [] := by
  refine .queued h.staffed h.manned h.few h.closes h.first (Or.inl ⟨rfl, rfl⟩) (fun u hu => ?_)
    h.scene
  obtain ⟨v, hv, hupper⟩ := h.others u hu
  have hpoll : LoopPoint.Seeks e.deques .poll := trivial
  exact ⟨v, .poll, 0, hv, hpoll, hupper⟩

theorem advance_outset
    (hready : e.Ready)
    (hfinished : e.request.world.scheduler.finished = false)
    (h : Outset e false k s)
    (index : Nat) :
    Advances e (5, k) 0 s [] [] index := by
  by_cases hindex : index = 0
  · subst hindex
    left
    obtain ⟨haction, hmoment⟩ := h.silent
    rcases h.advance hready hfinished with ⟨l, hl, hnext⟩ | ⟨count, region, upper, hopened⟩
    · exact ⟨(5, l), 0, .right 5 hl, .silent haction hmoment (.outset hnext)⟩
    · exact ⟨(4, 2), 0, .left _ _ (Nat.lt_succ_self 4),
        .silent haction hmoment (of_opened hopened)⟩
  · exact Or.inr ⟨fun heq => absurd heq hindex, .unchanged (h.advance_other hindex) (.outset h)⟩

/-- The first worker looks into its own deque, and finds the job there. -/
theorem advance_first
    (hready : e.Ready)
    {count evaluations : Nat} {region : Frame} {upper : Nat → List Frame} {point : LoopPoint}
    (hstaffed : Staffed s count (e.stack region upper))
    (hpos : 0 < count)
    (hfew : count ≤ e.asked)
    (hcloses : e.Closes count region)
    (hfirst : upper 0 = [.loop point 0 .finished evaluations])
    (hpoint : point = .poll ∧ k = 2 ∨ point = .pop ∧ k = 1)
    (hothers : ∀ u, u < count → e.Searching (upper u))
    (hscene : e.Scene s.world (some e.root) false false) :
    Advances e (4, k) 0 s [] [] 0 := by
  left
  have hzero : 0 < e.deques := Nat.lt_of_lt_of_le hready.manned hready.few
  have hsearching : ∀ frames u, u < count → u ≠ 0 → e.Searching (update upper 0 frames u) := by
    intro frames u hu hne
    rw [Function.update_of_ne hne]
    exact hothers u hu
  rcases hpoint with ⟨rfl, rfl⟩ | ⟨rfl, rfl⟩
  · have hmove : ∀ identity, ∃ other,
        Frame.step s.world identity (.loop .poll 0 .finished evaluations) =
          .go s.world other [.loop .pop 0 .finished (evaluations + 1)] := by
      intro identity
      refine ⟨identity, ?_⟩
      rw [Frame.step, LoopPoint.step]
      simp only [Stop.holds, hscene.finished]
    obtain ⟨hframe, hnext, hworld⟩ := advance_worker_of_go hstaffed hpos hfirst hmove
    refine ⟨(4, 1), 0, .right 4 (Nat.lt_succ_self 1), .of_frame hframe rfl rfl (.queued hnext hpos
      hfew hcloses (Function.update_self 0 _ upper) (Or.inr ⟨rfl, rfl⟩) (fun u hu => ?_) ?_)⟩
    · by_cases hne : u = 0
      · have hpop : LoopPoint.Seeks e.deques .pop := trivial
        rw [hne, Function.update_self]
        exact ⟨0, .pop, _, hzero, hpop, rfl⟩
      · exact hsearching _ u hu hne
    · rw [hworld]
      exact hscene
  · obtain ⟨t, answer, hpop, hkeeps, hyields, hanswer⟩ := hscene.lone.pop hzero
    rw [hanswer rfl] at hpop hyields
    have hlone : t.Lone e.capacity e.deques none := by
      rcases hyields with ⟨hnone, -⟩ | ⟨job, -, -, hlone⟩
      · cases hnone
      · exact hlone
    have hmove : ∀ identity, ∃ other,
        Frame.step s.world identity (.loop .pop 0 .finished evaluations) =
          .go { s.world with scheduler := t } other
            [.loop (.popped e.root) 0 .finished evaluations] := by
      intro identity
      refine ⟨identity, ?_⟩
      rw [Frame.step, LoopPoint.step, World.schedule_of_ok _ (·.pop 0) _ hpop]
    obtain ⟨hframe, hnext, hworld⟩ := advance_worker_of_go hstaffed hpos hfirst hmove
    refine ⟨(3, e.body.length + 4), 0, .left _ _ (Nat.lt_succ_self 3), .of_frame hframe rfl rfl
      (.held hnext hpos hfew hcloses hpos ?_ (hsearching _)
        (hworld ▸ hscene.schedule hkeeps hlone))⟩
    rw [Function.update_self]
    exact .obtained hzero (Or.inl rfl)

/-- The first worker comes nearer to the job, or another one takes it. -/
theorem advance_queued
    (hready : e.Ready)
    {count evaluations : Nat} {region : Frame} {upper : Nat → List Frame} {point : LoopPoint}
    (hstaffed : Staffed s count (e.stack region upper))
    (hpos : 0 < count)
    (hfew : count ≤ e.asked)
    (hcloses : e.Closes count region)
    (hfirst : upper 0 = [.loop point 0 .finished evaluations])
    (hpoint : point = .poll ∧ k = 2 ∨ point = .pop ∧ k = 1)
    (hothers : ∀ u, u < count → e.Searching (upper u))
    (hscene : e.Scene s.world (some e.root) false false)
    (index : Nat) :
    Advances e (4, k) 0 s [] [] index := by
  by_cases hindex : index = 0
  · subst hindex
    exact advance_first hready hstaffed hpos hfew hcloses hfirst hpoint hothers hscene
  · by_cases hlt : index < count
    · have hroot : ∀ job, some e.root = some job → job = e.root :=
        fun job heq => (Option.some.inj heq).symm
      obtain ⟨haction, hmoment, frames, hnext, hcases⟩ :=
        advance_searching hready hstaffed hlt (hothers index hlt) hroot hscene
      rcases hcases with ⟨hframes, hafter⟩ | ⟨-, hcarries, hafter⟩
      · refine Or.inr ⟨fun heq => absurd heq hindex, .silent haction hmoment (.queued hnext hpos
          hfew hcloses ((Function.update_of_ne (Ne.symm hindex) _ _).trans hfirst) hpoint
          (fun u hu => ?_) hafter)⟩
        by_cases hne : u = index
        · rw [hne, Function.update_self]
          exact hframes
        · rw [Function.update_of_ne hne]
          exact hothers u hu
      · refine Or.inl ⟨(3, e.body.length + 4), index, .left _ _ (Nat.lt_succ_self 3),
          .silent haction hmoment (.held hnext hpos hfew hcloses hlt ?_ (fun u hu hne => ?_)
            hafter)⟩
        · rw [Function.update_self]
          exact hcarries
        · rw [Function.update_of_ne hne]
          exact hothers u hu
    · refine Or.inr ⟨fun heq => absurd heq hindex, .unchanged ?_
        (.queued hstaffed hpos hfew hcloses hfirst hpoint hothers hscene)⟩
      exact hstaffed.advance_of_over fun h => absurd h hlt

/-- All workers retire. -/
theorem of_retires
    {count : Nat} {region : Frame} {upper : Nat → List Frame}
    (hstaffed : Staffed s count (e.stack region upper))
    (hpos : 0 < count)
    (hfew : count ≤ e.asked)
    (hcloses : e.Closes count region)
    (hall : ∀ u, u < count → ∃ k, e.Retires k (upper u))
    (hscene : e.Scene s.world none true true) :
    ∃ l u, Stage e (2, l) u s e.body [.jobBegan e.root, .finished] := by
  have hspans : ∀ u, ∃ k, u < count → e.Retires k (upper u) := by
    intro u
    by_cases hu : u < count
    · obtain ⟨k, hretires⟩ := hall u hu
      exact ⟨k, fun _ => hretires⟩
    · exact ⟨0, fun h => absurd h hu⟩
  choose spans hretires using hspans
  obtain ⟨t, hhelps⟩ := exists_helps hpos upper
  exact ⟨_, t, .ended hstaffed hpos hfew hcloses hhelps hretires hscene⟩

/-- The worker that has the job goes on with it, or the job ends the run. -/
theorem advance_held
    (hready : e.Ready)
    {count : Nat} {region : Frame} {upper : Nat → List Frame}
    (hstaffed : Staffed s count (e.stack region upper))
    (hpos : 0 < count)
    (hfew : count ≤ e.asked)
    (hcloses : e.Closes count region)
    (ht : t < count)
    (hcarries : e.Carries k taken performed history (upper t))
    (hothers : ∀ u, u < count → u ≠ t → e.Searching (upper u))
    (hscene : e.Scene s.world none taken false)
    (index : Nat) :
    Advances e (3, k) t s performed history index := by
  by_cases hindex : index = t
  · subst hindex
    left
    obtain ⟨frame, below, hupper⟩ := hcarries.exists_cons
    rw [hupper] at hcarries
    obtain ⟨hframe, w, other, next, hon, hnext, hworld⟩ := advance_worker hstaffed ht hupper
      (fun _ => CarriesOn.isGo) (hcarries.step hready hscene)
    have hrest : ∀ u, u < count → u ≠ index →
        e.Searching (update upper index (next ++ below) u) := by
      intro u hu hne
      rw [Function.update_of_ne hne]
      exact hothers u hu hne
    simp only [After, hframe, Option.bind_some]
    cases hon with
    | goes hlower hafter hnextScene =>
        refine ⟨(3, _), index, .right 3 hlower, .held hnext hpos hfew hcloses ht ?_ hrest
          (hworld ▸ hnextScene)⟩
        rw [Function.update_self]
        exact hafter
    | ends hperformed hhistory hretires hafter =>
        have hall : ∀ u, u < count →
            ∃ k, e.Retires k (update upper index (next ++ below) u) := by
          intro u hu
          by_cases hne : u = index
          · rw [hne, Function.update_self]
            exact ⟨_, hretires⟩
          · exact (hrest u hu hne).retires
        obtain ⟨l, u, hstage⟩ := of_retires hnext hpos hfew hcloses hall (hworld ▸ hafter)
        rw [hperformed, hhistory]
        exact ⟨(2, l), u, .left _ _ (Nat.lt_succ_self 2), hstage⟩
  · by_cases hlt : index < count
    · obtain ⟨haction, hmoment, frames, hnext, hcases⟩ := advance_searching hready hstaffed hlt
        (hothers index hlt hindex) (fun _ hnone => absurd hnone.symm (Option.some_ne_none _))
        hscene
      rcases hcases with ⟨hframes, hafter⟩ | ⟨hnone, -⟩
      · refine Or.inr ⟨fun heq => absurd heq hindex, .silent haction hmoment (.held hnext hpos hfew
          hcloses ht ?_ (fun u hu hne => ?_) hafter)⟩
        · rw [Function.update_of_ne (Ne.symm hindex)]
          exact hcarries
        · by_cases hsame : u = index
          · rw [hsame, Function.update_self]
            exact hframes
          · rw [Function.update_of_ne hsame]
            exact hothers u hu hne
      · cases hnone
    · refine Or.inr ⟨fun heq => absurd heq hindex, .unchanged ?_
        (.held hstaffed hpos hfew hcloses ht hcarries hothers hscene)⟩
      exact hstaffed.advance_of_over fun h => absurd h hlt

/-- A worker that has not left comes nearer to its end. -/
theorem advance_retiring
    (hready : e.Ready)
    {count index : Nat} {region : Frame} {upper : Nat → List Frame} {spans : Nat → Nat}
    (hstaffed : Staffed s count (e.stack region upper))
    (hpos : 0 < count)
    (hfew : count ≤ e.asked)
    (hcloses : e.Closes count region)
    (hretires : ∀ u, u < count → e.Retires (spans u) (upper u))
    (hscene : e.Scene s.world none true true)
    (hlt : index < count)
    (hupper : upper index = frame :: below) :
    ∃ lower u, Lower lower (2, ∑ u ∈ Finset.range count, spans u + region.span) ∧
      After e lower u s e.body [.jobBegan e.root, .finished] index := by
  have hone := hretires index hlt
  rw [hupper] at hone
  have hstep := hone.step hready hscene
  obtain ⟨hframe, w, other, next, hon, hnext, hworld⟩ := advance_worker hstaffed hlt hupper
    (fun _ => RetiresOn.isGo) fun identity => (hstep identity).1
  obtain ⟨-, haction, hmoment⟩ := hstep none
  cases hon with
  | @goes _ _ _ l hlower hafter hnextScene =>
      obtain ⟨u, hhelps⟩ := exists_helps hpos (update upper index (next ++ below))
      refine ⟨(2, ∑ u ∈ Finset.range count, update spans index l u + region.span), u,
        .right 2 (Nat.add_lt_add_right (sum_update_lt spans hlt hlower) _),
        .of_frame hframe haction hmoment (.ended hnext hpos hfew hcloses hhelps (fun v hv => ?_)
          (hworld ▸ hnextScene))⟩
      by_cases hne : v = index
      · rw [hne, Function.update_self, Function.update_self]
        exact hafter
      · rw [Function.update_of_ne hne, Function.update_of_ne hne]
        exact hretires v hv

/-- The calling thread is left with the end of the run. -/
theorem of_left
    {count : Nat} {frames : Nat → List Frame}
    (hstaffed : Staffed s count (update frames 0 e.request.after))
    (hpos : 0 < count)
    (hothers : ∀ u, u ≠ 0 → u < count → frames u = [])
    (hscene : e.Scene s.world none true true) :
    Stage e (1, e.deques + 5) 0 s e.body [.jobBegan e.root, .finished] := by
  exact .closing (only_of_left hstaffed hothers) hpos rfl hscene

/-- All workers have left, and the calling thread goes on with the region. -/
theorem advance_region
    {count : Nat} {region : Frame} {upper : Nat → List Frame} {spans : Nat → Nat}
    (hstaffed : Staffed s count (e.stack region upper))
    (hpos : 0 < count)
    (hfew : count ≤ e.asked)
    (hcloses : e.Closes count region)
    (hretires : ∀ u, u < count → e.Retires (spans u) (upper u))
    (hscene : e.Scene s.world none true true)
    (hupper : upper 0 = []) :
    (∃ lower u, Lower lower (2, ∑ u ∈ Finset.range count, spans u + region.span) ∧
      After e lower u s e.body [.jobBegan e.root, .finished] 0) ∨
    ((∃ u, u ≠ 0 ∧ u < count ∧ upper u ≠ []) ∧ s.advance 0 = s ∧
      (s.frameAt 0).bind Frame.action? = none ∧ (s.frameAt 0).bind Frame.moment? = none) := by
  have hframes : e.stack region upper 0 = region :: e.request.after := by
    rw [stack, hupper]
    rfl
  have hothers : ∀ u, u ≠ 0 → e.stack region upper u = upper u := by
    intro u hu
    rw [stack, if_neg hu, List.append_nil]
  have hframe := hstaffed.frameAt hpos hframes
  cases region with
  | crew crew outer =>
      left
      obtain ⟨hnext, hworld⟩ := hstaffed.advance_of_go hpos hframes fun identity => ⟨outer, rfl⟩
      have hdisband : Staffed (s.advance 0) count (e.stack (.disband crew none) upper) := by
        refine hnext.congr fun u hu => ?_
        by_cases hzero : u = 0
        · rw [hzero, Function.update_self, stack, hupper]
          rfl
        · rw [Function.update_of_ne hzero, hothers u hzero, stack, if_neg hzero, List.append_nil]
      obtain ⟨t, hhelps⟩ := exists_helps hpos upper
      exact ⟨(2, ∑ u ∈ Finset.range count, spans u + 1), t, .right 2 (Nat.lt_succ_self _),
        .of_frame hframe rfl rfl
          (.ended hdisband hpos hfew ⟨rfl, hcloses⟩ hhelps hretires (hworld ▸ hscene))⟩
  | disband crew pending =>
      obtain ⟨rfl, hcrew⟩ := hcloses
      rcases hstaffed.advance_of_disband hpos hcrew hframes with
        ⟨hover, hnext, hworld⟩ | ⟨⟨u, hne, hlt, hbusy⟩, hsame⟩
      · left
        exact ⟨(1, e.deques + 5), 0, .left _ _ (Nat.lt_succ_self 1), .of_frame hframe rfl rfl
          (of_left hnext hpos hover (hworld ▸ hscene))⟩
      · rw [hothers u hne] at hbusy
        refine Or.inr ⟨⟨u, hne, hlt, hbusy⟩, hsame, ?_, ?_⟩
        · rw [hframe]
          rfl
        · rw [hframe]
          rfl
  | turns pending outer =>
      left
      obtain ⟨rfl, hworkers⟩ := hcloses
      cases pending with
      | nil =>
          obtain ⟨hnext, hworld⟩ := hstaffed.advance_of_go hpos hframes fun identity => ⟨outer, rfl⟩
          exact ⟨(1, e.deques + 5), 0, .left _ _ (Nat.lt_succ_self 1), .of_frame hframe rfl rfl
            (of_left hnext hpos (fun u hne hlt => absurd (Nat.lt_one_iff.mp hlt) hne)
              (hworld ▸ hscene))⟩
      | cons v pending =>
          obtain ⟨hnext, hworld⟩ := hstaffed.advance_of_go hpos hframes
            fun identity => ⟨some v, rfl⟩
          have hturn : Staffed (s.advance 0) 1
              (e.stack (.turns pending outer) fun _ => [.loop .poll v .finished 0]) := by
            refine hnext.congr fun u hu => ?_
            rw [Nat.lt_one_iff.mp hu, Function.update_self]
            rfl
          obtain ⟨hv, hrest⟩ := List.forall_mem_cons.mp hworkers
          have hpoll : LoopPoint.Seeks e.deques .poll := trivial
          obtain ⟨t, hhelps⟩ := exists_helps hpos fun _ => [.loop .poll v .finished 0]
          refine ⟨(2, ∑ u ∈ Finset.range 1, 1 + Frame.span (.turns pending outer)), t, .right 2 ?_,
            .of_frame hframe rfl rfl (.ended hturn hpos hfew ⟨rfl, hrest⟩ hhelps
              (fun u _ => .searching hv hpoll) (hworld ▸ hscene))⟩
          rw [Frame.span, Frame.span, Finset.sum_range_one, Finset.sum_range_one,
            List.length_cons]
          omega
  | _ =>
      exact absurd hcloses id

theorem advance_ended
    (hready : e.Ready)
    {count : Nat} {region : Frame} {upper : Nat → List Frame} {spans : Nat → Nat}
    (hstaffed : Staffed s count (e.stack region upper))
    (hpos : 0 < count)
    (hfew : count ≤ e.asked)
    (hcloses : e.Closes count region)
    (hhelps : Helps upper count t)
    (hretires : ∀ u, u < count → e.Retires (spans u) (upper u))
    (hscene : e.Scene s.world none true true)
    (index : Nat) :
    Advances e (2, ∑ u ∈ Finset.range count, spans u + region.span) t s e.body
      [.jobBegan e.root, .finished] index := by
  have hsame := Stage.ended hstaffed hpos hfew hcloses hhelps hretires hscene
  by_cases hlt : index < count
  · cases hupper : upper index with
    | cons frame below =>
        exact Or.inl
          (advance_retiring hready hstaffed hpos hfew hcloses hretires hscene hlt hupper)
    | nil =>
        by_cases hindex : index = 0
        · subst hindex
          rcases advance_region hstaffed hpos hfew hcloses hretires hscene hupper with
            hlower | ⟨⟨u, hne, hu, hbusy⟩, hadvance, haction, hmoment⟩
          · exact Or.inl hlower
          · refine Or.inr ⟨fun heq => ?_, .silent haction hmoment (by rw [hadvance]; exact hsame)⟩
            obtain ⟨-, hown | ⟨-, hall⟩⟩ := hhelps
            · rw [← heq, hupper] at hown
              exact absurd rfl hown
            · exact absurd (hall u hne hu) hbusy
        · refine Or.inr ⟨fun heq => ?_, .unchanged (hstaffed.advance_of_over fun _ => ?_) hsame⟩
          · obtain ⟨-, hown | ⟨hzero, -⟩⟩ := hhelps
            · rw [← heq, hupper] at hown
              exact absurd rfl hown
            · exact absurd (heq.trans hzero) hindex
          · rw [stack, hupper, if_neg hindex]
            rfl
  · refine Or.inr ⟨fun heq => absurd (heq ▸ hhelps.1) hlt,
      .unchanged (hstaffed.advance_of_over fun h => absurd h hlt) hsame⟩

section Closing

variable {count : Nat} {finished : Bool}

/-- While the calling thread is the only one that does anything, other threads change nothing. -/
theorem advance_only
    {frames : List Frame} {index : Nat}
    (hstaffed : Staffed s count (only frames))
    (hindex : index ≠ 0) :
    s.advance index = s ∧ s.frameAt index = none :=
  hstaffed.advance_of_over fun _ => Function.update_of_ne hindex _ _

/-- The frames of the calling thread after a step of it. -/
theorem staffed_only
    {frames next : List Frame}
    (hstaffed : Staffed s count (update (only frames) 0 next)) :
    Staffed s count (only next) := by
  rw [only, Function.update_idem] at hstaffed
  exact hstaffed

/-- The calling thread panics, and nothing is left to be done. -/
theorem over_of_panic
    {point : RunPoint} {w : World} {cause : Panic}
    (hstaffed : Staffed s count (only [.run point e.root e.request.thunk, .perform []]))
    (hpos : 0 < count)
    (hmove : ∀ identity, Frame.step s.world identity (.run point e.root e.request.thunk) =
      .fail w (.panic cause)) :
    (s.advance 0).hasLeft = true ∧ (s.advance 0).world = w ∧
      ∀ index, (s.advance 0).advance index = s.advance 0 ∧ (s.advance 0).frameAt index = none := by
  obtain ⟨hgoing, hworld, hidle⟩ := hstaffed.advance_of_panic hpos
    (fun u hu _ => Function.update_of_ne hu _ _) (Function.update_self _ _ _) hmove fun _ => rfl
  refine ⟨?_, hworld, System.advance_of_idle hidle⟩
  rw [System.hasLeft, hgoing]
  cases hthread : (s.advance 0).threads[0]? with
  | none =>
      rfl
  | some thread =>
      rw [Option.map_some, Option.getD_some, Thread.isOver, hidle 0 thread hthread]
      rfl

/-- The calling thread goes on from one part of the clean-up to the next. -/
theorem advance_point
    {point other : RunPoint} {next : World} {l : Nat} {finished : Bool}
    (hstaffed : Staffed s count (only [.run point e.root e.request.thunk, .perform []]))
    (hpos : 0 < count)
    (hmove : ∀ identity, ∃ w, Frame.step s.world identity (.run point e.root e.request.thunk) =
      .go next w [.run other e.root e.request.thunk])
    (hspan : other.span e.deques = l + 2)
    (hlower : l < k)
    (hscene : e.Scene next none true finished) :
    Advances e (1, k + 2) 0 s e.body [.jobBegan e.root, .finished] 0 := by
  obtain ⟨hnext, hworld⟩ := hstaffed.advance_of_go hpos (Function.update_self _ _ _) hmove
  have hframe := hstaffed.frameAt hpos (Function.update_self _ _ _)
  exact Or.inl ⟨(1, l + 2), 0, .right 1 (Nat.add_lt_add_right hlower 2), .of_frame hframe rfl rfl
    (.closing (staffed_only hnext) hpos hspan (hworld ▸ hscene))⟩

/-- The calling thread reports, unless the statistics cannot be written. -/
theorem advance_complete
    (hstaffed : Staffed s count (only [.run .complete e.root e.request.thunk, .perform []]))
    (hpos : 0 < count)
    (hscene : e.Scene s.world none true finished) :
    Advances e (1, 2) 0 s e.body [.jobBegan e.root, .finished] 0 := by
  left
  have hframe := hstaffed.frameAt hpos (Function.update_self _ _ _)
  rcases Frame.step_complete s.world e.root e.request.thunk with
    ⟨traced, htraces, hmove⟩ | ⟨htracing, cause, hstats, hmove⟩
  · obtain ⟨hnext, hworld⟩ := hstaffed.advance_of_go hpos (Function.update_self _ _ _)
      fun identity => ⟨identity, hmove identity⟩
    refine ⟨(1, 1), 0, .right 1 (Nat.lt_succ_self 1), .of_frame hframe rfl rfl
      (.returned (staffed_only hnext) hpos ?_)⟩
    obtain ⟨events, heq, -⟩ := (hscene.traces htraces).quiet
    refine ⟨events ++ [ranEvent e.request.thunk (.ok ())], ?_,
      List.mem_append_right _ List.mem_cons_self⟩
    rw [hworld]
    show (traced.transcript.push _).toList = _
    rw [Array.toList_push, heq, List.append_assoc]
  · obtain ⟨hleft, hworld, hover⟩ := over_of_panic hstaffed hpos hmove
    refine ⟨(0, 0), 0, .left _ _ Nat.one_pos,
      .of_frame hframe rfl rfl (.settled hleft hover fun hwritten => ?_)⟩
    rw [hworld, World.tracing_trace, World.scheduler_trace] at hwritten
    obtain ⟨stats, hfits⟩ := hwritten htracing
    cases hstats.symm.trans hfits

theorem advance_closing
    {point : RunPoint}
    (hstaffed : Staffed s count (only [.run point e.root e.request.thunk, .perform []]))
    (hpos : 0 < count)
    (hspan : point.span e.deques = k + 2)
    (hscene : e.Scene s.world none true finished)
    (index : Nat) :
    Advances e (1, k + 2) 0 s e.body [.jobBegan e.root, .finished] index := by
  by_cases hindex : index = 0
  · subst hindex
    cases point with
    | clear =>
        have hcleared : e.Scene { s.world with
            scheduler := { s.world.scheduler with finished := false } } none true false :=
          ⟨hscene.lone.congr rfl rfl, rfl, hscene.flags, hscene.body, hscene.quiet⟩
        have hlower : e.deques + 2 < k := by
          simp only [RunPoint.span] at hspan
          omega
        exact advance_point hstaffed hpos (fun identity => ⟨identity, rfl⟩) rfl hlower hcleared
    | reset deque =>
        simp only [RunPoint.span] at hspan
        have hcount := hscene.lone.count
        by_cases hdeque : deque < e.deques
        · obtain ⟨t, hreset, hkeeps, hlone⟩ := hscene.lone.resetDeque hdeque
          rw [← hcount] at hdeque
          have hmove : ∀ identity, ∃ other, Frame.step s.world identity
              (.run (.reset deque) e.root e.request.thunk) =
                .go { s.world with scheduler := t } other
                  [.run (.reset (deque + 1)) e.root e.request.thunk] := fun identity =>
            ⟨identity, Frame.step_reset_of_ok hdeque hreset identity e.root e.request.thunk⟩
          have hnext : RunPoint.span e.deques (.reset (deque + 1)) = (k - 1) + 2 := by
            simp only [RunPoint.span]
            omega
          have hlower : k - 1 < k := by
            omega
          exact advance_point hstaffed hpos hmove hnext hlower (hscene.schedule hkeeps hlone)
        · rw [← hcount] at hdeque
          refine advance_point hstaffed hpos
            (fun identity => ⟨identity, Frame.step_reset_of_not_lt hdeque identity _ _⟩) rfl ?_
            hscene
          omega
    | release =>
        have hreleased : e.Scene { s.world with
            scheduler := { s.world.scheduler with running := false } } none true finished :=
          ⟨hscene.lone.congr rfl rfl, hscene.finished, hscene.flags, hscene.body, hscene.quiet⟩
        have hlower : 0 < k := by
          simp only [RunPoint.span] at hspan
          omega
        exact advance_point hstaffed hpos (fun identity => ⟨identity, rfl⟩) rfl hlower hreleased
    | complete =>
        have hzero : k = 0 := by
          simp only [RunPoint.span] at hspan
          omega
        subst hzero
        exact advance_complete hstaffed hpos hscene
    | claim | enqueue | announce | «open» =>
        simp [RunPoint.span] at hspan
  · exact Or.inr ⟨fun heq => absurd heq hindex,
      .unchanged (advance_only hstaffed hindex) (.closing hstaffed hpos hspan hscene)⟩

theorem advance_returned
    (hstaffed : Staffed s count (only [.perform []]))
    (hpos : 0 < count)
    (hreports : e.request.world.Reports e.request.thunk s (.ok ()))
    (index : Nat) :
    Advances e (1, 1) 0 s e.body [.jobBegan e.root, .finished] index := by
  by_cases hindex : index = 0
  · subst hindex
    left
    obtain ⟨hnext, hworld⟩ := hstaffed.advance_of_go hpos (Function.update_self _ _ _)
      fun identity => ⟨identity, rfl⟩
    have hframe := hstaffed.frameAt hpos (Function.update_self _ _ _)
    have hnone : ∀ u,
        (update (only [Frame.perform []]) 0 ([] ++ []) : Nat → List Frame) u = [] := by
      intro u
      by_cases hu : u = 0
      · rw [hu, Function.update_self]
        rfl
      · rw [Function.update_of_ne hu, only, Function.update_of_ne hu]
    obtain ⟨first, hfirst, hframes, -⟩ := hnext.thread 0 hpos
    refine ⟨(0, 0), 0, .left _ _ Nat.one_pos, .of_frame hframe rfl rfl (.settled ?_
      (fun u => hnext.advance_of_over fun _ => hnone u) fun _ => ?_)⟩
    · rw [System.hasLeft, hnext.going, hfirst, Option.map_some, Option.getD_some, Thread.isOver,
        hframes, hnone 0]
      rfl
    · obtain ⟨events, heq, hmem⟩ := hreports
      exact ⟨events, (congrArg (fun w : World => w.transcript.toList) hworld).trans heq, hmem⟩
  · exact Or.inr ⟨fun heq => absurd heq hindex,
      .unchanged (advance_only hstaffed hindex) (.returned hstaffed hpos hreports)⟩

end Closing

/-- Every step keeps to the stages, and brings the run nearer to its end if it is a step of the
thread that helps. -/
theorem advance
    (hready : e.Ready)
    (hfinished : e.request.world.scheduler.finished = false)
    (h : Stage e rank t s performed history)
    (index : Nat) :
    Advances e rank t s performed history index := by
  cases h with
  | outset h =>
      exact advance_outset hready hfinished h index
  | queued hstaffed hpos hfew hcloses hfirst hpoint hothers hscene =>
      exact advance_queued hready hstaffed hpos hfew hcloses hfirst hpoint hothers hscene index
  | held hstaffed hpos hfew hcloses ht hcarries hothers hscene =>
      exact advance_held hready hstaffed hpos hfew hcloses ht hcarries hothers hscene index
  | ended hstaffed hpos hfew hcloses hhelps hretires hscene =>
      exact advance_ended hready hstaffed hpos hfew hcloses hhelps hretires hscene index
  | closing hstaffed hpos hspan hscene =>
      exact advance_closing hstaffed hpos hspan hscene index
  | returned hstaffed hpos hreports =>
      exact advance_returned hstaffed hpos hreports index
  | settled hleft hover hreports =>
      exact Or.inr ⟨fun _ => hleft, .unchanged (hover index) (.settled hleft hover hreports)⟩

/-- The thread that helps is one of those that the errand has. -/
theorem helper_lt
    (hready : e.Ready)
    (h : Stage e rank t s performed history) :
    t < e.asked := by
  cases h with
  | outset h =>
      exact hready.manned
  | queued hstaffed hpos hfew =>
      exact hready.manned
  | held hstaffed hpos hfew hcloses ht =>
      exact Nat.lt_of_lt_of_le ht hfew
  | ended hstaffed hpos hfew hcloses hhelps =>
      exact Nat.lt_of_lt_of_le hhelps.1 hfew
  | closing hstaffed hpos | returned hstaffed hpos | settled hleft =>
      exact hready.manned

/-- An errand keeps to the stages. -/
theorem run
    (hready : e.Ready)
    (hfinished : e.request.world.scheduler.finished = false)
    (identity : Option Nat) (schedule : List Nat) :
    ∃ rank t, Stage e rank t ((e.request.system identity).run schedule)
      ((e.request.system identity).performed schedule)
      ((e.request.system identity).history schedule) := by
  induction schedule using List.reverseRecOn with
  | nil =>
      exact ⟨(5, 6), 0, .outset (.calling (.single _ _ _) rfl)⟩
  | append_singleton schedule index ih =>
      obtain ⟨rank, t, hstage⟩ := ih
      rw [System.run_append, System.performed_append, System.history_append]
      simp only [System.run_cons, System.run_nil, System.performed, System.history,
        List.append_nil]
      rcases hstage.advance hready hfinished index with ⟨lower, u, -, hnext⟩ | ⟨-, hnext⟩
      · exact ⟨lower, u, hnext⟩
      · exact ⟨rank, t, hnext⟩

end Stage

/-- The run was left after the job was begun once and performed from the beginning to the end, and
has reported that it went well unless its statistics could not be written. -/
structure Completed (e : Errand) (s : System) (performed : List Action) (history : List Moment) :
    Prop where
  left : s.hasLeft = true
  performed : performed = e.body
  once : history = [.jobBegan e.root, .finished]
  reports : (s.world.tracing = true → ∃ stats, s.world.scheduler.stats = .ok stats) →
    e.request.world.Reports e.request.thunk s (.ok ())

/-- The calling thread has something left to do. -/
theorem not_left
    {s : System} {count : Nat} {frames : Nat → List Frame}
    (hstaffed : Staffed s count frames)
    (hpos : 0 < count)
    (hframes : frames 0 = frame :: below) :
    s.hasLeft = false := by
  obtain ⟨first, hfirst, heq, -⟩ := hstaffed.thread 0 hpos
  rw [System.hasLeft, hfirst, Option.map_some, Option.getD_some, Thread.isOver, heq, hframes,
    List.isEmpty_cons, Bool.and_false]

/-- A run that was left is completed, and nothing happens any more. -/
theorem Stage.completed_of_left
    {s : System} {rank : Nat × Nat} {t : Nat}
    (h : Stage e rank t s performed history)
    (hleft : s.hasLeft = true) :
    e.Completed s performed history ∧ ∀ index, s.advance index = s := by
  have hbusy : ∀ {count : Nat} {frames : Nat → List Frame} {frame : Frame} {below : List Frame},
      Staffed s count frames → 0 < count → frames 0 = frame :: below →
      e.Completed s performed history ∧ ∀ index, s.advance index = s := by
    intro count frames frame below hstaffed hpos hframes
    rw [not_left hstaffed hpos hframes] at hleft
    cases hleft
  have hstack : ∀ {count : Nat} {region : Frame} {upper : Nat → List Frame},
      Staffed s count (e.stack region upper) → 0 < count →
      e.Completed s performed history ∧ ∀ index, s.advance index = s := by
    intro count region upper hstaffed hpos
    have hsome : ∃ frame below, e.stack region upper 0 = frame :: below := by
      rw [stack]
      cases upper 0 <;> exact ⟨_, _, rfl⟩
    obtain ⟨frame, below, hframes⟩ := hsome
    exact hbusy hstaffed hpos hframes
  cases h with
  | outset h =>
      cases h with
      | calling hstaffed | claiming hstaffed | enqueuing hstaffed | announcing hstaffed
      | opening hstaffed | entering hstaffed =>
          exact hbusy hstaffed Nat.one_pos rfl
  | queued hstaffed hpos | held hstaffed hpos | ended hstaffed hpos =>
      exact hstack hstaffed hpos
  | closing hstaffed hpos | returned hstaffed hpos =>
      exact hbusy hstaffed hpos (Function.update_self _ _ _)
  | settled hleft hover hreports =>
      exact ⟨⟨hleft, rfl, rfl, hreports⟩, fun index => (hover index).1⟩

/-- An errand on a clean scheduler whose flag is not set is completed under every fair schedule. -/
theorem completes
    (hready : e.Ready)
    (hfinished : e.request.world.scheduler.finished = false)
    (identity : Option Nat) {σ : Nat → Nat}
    (hfair : IsFair e.asked σ) :
    ∃ n, ∀ m, n ≤ m → e.Completed ((e.request.system identity).run (turns σ m))
      ((e.request.system identity).performed (turns σ m))
      ((e.request.system identity).history (turns σ m)) := by
  have hstage := fun n => Stage.run hready hfinished identity (turns σ n)
  obtain ⟨rank, t, hfirst⟩ := hstage 0
  have hwell : WellFounded Lower := WellFounded.prod_lex wellFounded_lt wellFounded_lt
  have hranked : ∀ k u s, (∃ performed history, Stage e k u s performed history) → u < e.asked :=
    fun k u s ⟨performed, history, h⟩ => h.helper_lt hready
  have hturn : ∀ k u s, (∃ performed history, Stage e k u s performed history) →
      (s.advance u).hasLeft = true ∨ ∃ l v, Lower l k ∧
        ∃ performed history, Stage e l v (s.advance u) performed history := by
    rintro k u s ⟨performed, history, h⟩
    rcases h.advance hready hfinished u with ⟨l, v, hlower, hnext⟩ | ⟨hleft, -⟩
    · exact Or.inr ⟨l, v, hlower, _, _, hnext⟩
    · left
      rw [(h.completed_of_left (hleft rfl)).2 u]
      exact hleft rfl
  have hother : ∀ k u s i, (∃ performed history, Stage e k u s performed history) → i ≠ u →
      (s.advance i).hasLeft = true ∨
        (∃ l v, Lower l k ∧ ∃ performed history, Stage e l v (s.advance i) performed history) ∨
        ∃ performed history, Stage e k u (s.advance i) performed history := by
    rintro k u s i ⟨performed, history, h⟩ -
    rcases h.advance hready hfinished i with ⟨l, v, hlower, hnext⟩ | ⟨-, hnext⟩
    · exact Or.inr (Or.inl ⟨l, v, hlower, _, _, hnext⟩)
    · exact Or.inr (Or.inr ⟨_, _, hnext⟩)
  obtain ⟨n, -, hleft⟩ := hfair.leads hwell
    (fun k u s => ∃ performed history, Stage e k u s performed history)
    (fun s => s.hasLeft = true) hranked hturn hother (n := 0) ⟨_, _, hfirst⟩
  refine ⟨n, fun m hm => ?_⟩
  obtain ⟨d, rfl⟩ := Nat.exists_eq_add_of_le hm
  have hstill : ((e.request.system identity).run (turns σ (n + d))).hasLeft = true := by
    clear hm
    induction d with
    | zero =>
        exact hleft
    | succ d ih =>
        obtain ⟨k, u, hnow⟩ := hstage (n + d)
        rw [← Nat.add_assoc, System.run_turns_succ, (hnow.completed_of_left ih).2]
        exact ih
  obtain ⟨k, u, hlast⟩ := hstage (n + d)
  exact (hlast.completed_of_left hstill).1

end Errand
end Machine
end WorkStealing
