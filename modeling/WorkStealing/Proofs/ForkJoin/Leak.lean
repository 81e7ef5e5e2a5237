import WorkStealing.Proofs.ForkJoin.Nesting
import WorkStealing.Proofs.Machine.Hunt

/-!
# Slots that are not given back

A fork that finds its right branch started elsewhere does not pop, so the slot of
the right branch stays used until the worker next finds its own deque empty. When
the right branch has also ended by then, the fork does not look into the deque at
all. One fork after another can lose a slot in this way: with two workers, as many
forks as there are slots use up a deque, whatever the number of slots is, and the
next one gives the process up (`Duel.exists_overflow`).

So the number of slots bounds the nesting of forks exactly when a run has one
worker (`Launch.nesting_suffices_iff`).
-/

namespace WorkStealing
namespace ForkJoin

open Function (update)
open Machine (Frame ForkPoint Leads LoopPoint RunPoint Stop System Thread World)

/-- A region of two or more workers is open, and the run is not to end yet. -/
structure Underway (capacity : Nat) (lanes : Nat → Lane) (w : World) : Prop where
  follows : w.scheduler.Follows capacity lanes
  finished : w.scheduler.finished = false
  trials : 0 < w.scheduler.stealTrials
  pair : 1 < w.scheduler.dequeCount
  word : w.scheduler.dequeCount < UInt64.size
  flags : w.flags.size = w.bodies.size

/-- A job that was made and not started. -/
structure Unstarted (job : JobId) (body : Code) (w : World) : Prop where
  flags : w.flags[job]? = some {}
  body : w.bodies[job]? = some body

namespace Underway

variable {capacity : Nat} {lanes : Nat → Lane} {w : World}

theorem schedule
    (h : Underway capacity lanes w)
    {t : Scheduler} {after : Nat → Lane}
    (hkeeps : w.scheduler.Keeps t)
    (hfollows : t.Follows capacity after) :
    Underway capacity after { w with scheduler := t } := by
  refine ⟨hfollows, hkeeps.finished.trans h.finished, ?_, ?_, ?_, h.flags⟩
  · show 0 < t.stealTrials
    rw [hkeeps.stealTrials]
    exact h.trials
  · show 1 < t.dequeCount
    rw [hkeeps.dequeCount]
    exact h.pair
  · show t.dequeCount < UInt64.size
    rw [hkeeps.dequeCount]
    exact h.word

theorem setFlags
    (h : Underway capacity lanes w)
    (job : JobId) (change : JobFlags → JobFlags) :
    Underway capacity lanes { w with toMemory := w.setFlags job change } :=
  ⟨h.follows, h.finished, h.trials, h.pair, h.word, Array.size_modify.trans h.flags⟩

theorem addJob
    (h : Underway capacity lanes w)
    (body : JobId → Code) :
    Underway capacity lanes (w.addJob body).1 ∧
      Unstarted w.bodies.size (body w.bodies.size) (w.addJob body).1 := by
  refine ⟨⟨h.follows, h.finished, h.trials, h.pair, h.word, ?_⟩, ?_, Array.getElem?_push_size⟩
  · show (w.flags.push {}).size = (w.bodies.push _).size
    rw [Array.size_push, Array.size_push, h.flags]
  · show (w.flags.push {})[w.bodies.size]? = some {}
    rw [← h.flags]
    exact Array.getElem?_push_size

theorem trace
    (h : Underway capacity lanes w)
    (record : TraceRecord) :
    Underway capacity lanes (w.trace record) := by
  rcases w.trace_cases record with heq | heq
  · rw [heq]
    exact ⟨h.follows, h.finished, h.trials, h.pair, h.word, h.flags⟩
  · rw [heq]
    exact h

/-- The first two workers are workers. -/
theorem workerOf
    (h : Underway capacity lanes w)
    {v : Nat}
    (hv : v ≤ 1) :
    w.scheduler.workerOf (some v) = some v :=
  Scheduler.workerOf_of_lt (Nat.lt_of_le_of_lt hv h.pair)

end Underway

theorem Unstarted.trace
    {job : JobId} {body : Code} {w : World}
    (h : Unstarted job body w)
    (record : TraceRecord) :
    Unstarted job body (w.trace record) := by
  rcases w.trace_cases record with heq | heq
  · rw [heq]
    exact ⟨h.flags, h.body⟩
  · rw [heq]
    exact h

/-- The flags of a job after they were changed. -/
theorem flags_setFlags
    {w : World} {job : JobId} {flags : JobFlags}
    (hflags : w.flags[job]? = some flags)
    (change : JobFlags → JobFlags) :
    (w.setFlags job change).flags[job]? = some (change flags) := by
  show (w.flags.modify job change)[job]? = _
  rw [Array.getElem?_modify, if_pos rfl, hflags]
  rfl

/-- Only the first deque is in use, with these jobs from this slot on. -/
def used (first : Nat) (jobs : List JobId) : Nat → Lane :=
  update (fun _ => {}) 0 { first, jobs }

section Moves

variable {capacity : Nat} {w : World}

/-- A job that was not started is executed up to the beginning of its code. -/
theorem leads_execute
    {identity : Option Nat} {job : JobId} {body : Code}
    (hjob : Unstarted job body w)
    (below : List Frame) :
    Leads identity w (.execute job :: below)
      { w with toMemory := w.setFlags job fun flags => { flags with taken := true } }
      (.perform body :: .guarded job :: below) := by
  have hmove : Frame.step w identity (.execute job) =
      .go { w with toMemory := w.setFlags job fun flags => { flags with taken := true } } identity
        [.perform body, .guarded job] := by
    rw [Frame.step, hjob.flags, hjob.body]
    rfl
  exact .single hmove

/-- A loop that has obtained a job executes it up to the beginning of its code. -/
theorem leads_dispatch
    {lanes : Nat → Lane} {v : Nat} {job : JobId} {body : Code}
    (h : Underway capacity lanes w)
    (hjob : Unstarted job body w)
    (hv : v ≤ 1)
    {point : LoopPoint}
    (hpoint : point = .popped job ∨ point = .stolen job)
    (evaluations : Nat) (below : List Frame) :
    ∃ next, Underway capacity lanes next ∧ next.flags[job]? = some { taken := true } ∧
      Leads (some v) w (.loop point v .finished evaluations :: below) next
        (.perform body :: .guarded job :: .loop .poll v .finished evaluations :: below) := by
  have hplace : v < w.scheduler.dequeCount := Nat.lt_of_le_of_lt hv h.pair
  obtain ⟨counter, hcounter⟩ : ∃ counter, ∀ t, w.scheduler.bump v counter = .ok (t, ()) →
      Frame.step w (some v) (.loop point v .finished evaluations) =
        .go { w with scheduler := t } (some v) [.loop (.dispatch job) v .finished evaluations] := by
    rcases hpoint with rfl | rfl
    · refine ⟨.localPops, fun t hbump => ?_⟩
      rw [Frame.step, LoopPoint.step, w.schedule_of_ok (·.bump v .localPops) _ hbump]
    · refine ⟨.steals, fun t hbump => ?_⟩
      rw [Frame.step, LoopPoint.step, w.schedule_of_ok (·.bump v .steals) _ hbump]
  obtain ⟨t, hbump, hfollows, hkeeps⟩ := h.follows.bump hplace counter
  have hfirst := h.schedule hkeeps hfollows
  rw [← hkeeps.dequeCount] at hplace
  obtain ⟨u, hexecuted, hfollowsNext, hkeepsNext⟩ := hfirst.follows.bump hplace .jobsExecuted
  have hsecond := hfirst.schedule hkeepsNext hfollowsNext
  have hmove : Frame.step { w with scheduler := t } (some v)
      (.loop (.dispatch job) v .finished evaluations) =
        .go { w with scheduler := u } (some v)
          [.execute job, .loop .poll v .finished evaluations] := by
    rw [Frame.step, LoopPoint.step, World.schedule_of_ok _ (·.bump v .jobsExecuted) _ hexecuted]
  have hfresh : Unstarted job body { w with scheduler := u } := ⟨hjob.flags, hjob.body⟩
  exact ⟨_, hsecond.setFlags job fun flags => { flags with taken := true },
    flags_setFlags hfresh.flags _,
    .step (hcounter t hbump) (.step hmove (leads_execute hfresh _))⟩

/-- A loop that is not told to end goes on to its own deque. -/
theorem step_poll
    {lanes : Nat → Lane}
    (h : Underway capacity lanes w)
    (v evaluations : Nat) :
    Frame.step w (some v) (.loop .poll v .finished evaluations) =
      .go w (some v) [.loop .pop v .finished (evaluations + 1)] := by
  rw [Frame.step, LoopPoint.step]
  simp only [Stop.holds, h.finished]

/-- The first worker gets the first job out of its own deque. -/
theorem leads_start
    {root : JobId} {body : Code}
    (h : Underway capacity (used 0 [root]) w)
    (htags : ¬ w.scheduler.OutOfTags 0)
    (hjob : Unstarted root body w)
    (evaluations : Nat) (below : List Frame) :
    ∃ next, Underway capacity (used 0 []) next ∧
      Leads (some 0) w (.loop .poll 0 .finished evaluations :: below) next
        (.perform body :: .guarded root :: .loop .poll 0 .finished (evaluations + 1) :: below) := by
  rcases h.follows.pop (Nat.lt_trans Nat.zero_lt_one h.pair) with
    ⟨t, hpop, hfollows, hkeeps⟩ | ⟨-, hout, -⟩
  · have hmove : Frame.step w (some 0) (.loop .pop 0 .finished (evaluations + 1)) =
        .go { w with scheduler := t } (some 0)
          [.loop (.popped root) 0 .finished (evaluations + 1)] := by
      rw [Frame.step, LoopPoint.step, w.schedule_of_ok (·.pop 0) _ hpop]
      rfl
    have hused : update (used 0 [root]) 0 (used 0 [root] 0).pop = used 0 [] := by
      rw [used, Function.update_self, Function.update_idem]
      rfl
    rw [hused] at hfollows
    have hfresh : Unstarted root body { w with scheduler := t } := ⟨hjob.flags, hjob.body⟩
    obtain ⟨next, hnext, -, hdispatch⟩ := leads_dispatch (h.schedule hkeeps hfollows) hfresh
      (Nat.zero_le 1) (Or.inl rfl) (evaluations + 1) below
    exact ⟨next, hnext, .step (step_poll h 0 evaluations) (.step hmove hdispatch)⟩
  · exact absurd hout htags

/-- A loop finds its own deque empty and goes on to look elsewhere. -/
theorem leads_search
    {lanes : Nat → Lane} {v : Nat}
    (h : Underway capacity lanes w)
    (hv : v ≤ 1)
    (hlane : lanes v = {})
    (evaluations : Nat) (below : List Frame) :
    ∃ t left, w.scheduler.Keeps t ∧ t.Follows capacity lanes ∧
      Leads (some v) w (.loop .poll v .finished evaluations :: below) { w with scheduler := t }
        (.loop (.trial left) v .finished (evaluations + 1) :: below) := by
  rcases h.follows.pop (Nat.lt_of_le_of_lt hv h.pair) with
    ⟨t, hpop, hfollows, hkeeps⟩ | ⟨hbottom, -, -⟩
  · rw [hlane] at hpop
    have hsame : update lanes v (lanes v).pop = lanes := by
      rw [Function.update_eq_self_iff, hlane]
      rfl
    rw [hsame] at hfollows
    have hmove : Frame.step w (some v) (.loop .pop v .finished (evaluations + 1)) =
        .go { w with scheduler := t } (some v)
          [.loop (.trial t.stealTrials) v .finished (evaluations + 1)] := by
      rw [Frame.step, LoopPoint.step, w.schedule_of_ok (·.pop v) _ hpop]
      rfl
    exact ⟨t, t.stealTrials, hkeeps, hfollows, .step (step_poll h v evaluations) (.single hmove)⟩
  · rw [hlane] at hbottom
    exact absurd rfl hbottom

/-- The first worker comes to a fork of two empty branches: the right one is made a job. -/
theorem step_fork
    {lanes : Nat → Lane}
    (h : Underway capacity lanes w)
    (rest : Code) :
    Frame.step w (some 0) (.perform (.fork [] [] :: rest)) =
      .go (w.addJob fun job => Action.branchBody job []).1 (some 0)
        [.fork .publish 0 w.bodies.size [], .perform rest] := by
  simp only [Frame.step, Machine.Action.step, h.workerOf (Nat.zero_le 1)]
  rfl

/-- The first worker makes a fork of two empty branches, up to the end of the left one. -/
theorem leads_offer
    {first : Nat}
    (h : Underway capacity (used first []) w)
    (hroom : first < capacity)
    (rest : Code) (below : List Frame) :
    ∃ right next, Underway capacity (used first [right]) next ∧
      Unstarted right (Action.branchBody right []) next ∧
      Leads (some 0) w (.perform (.fork [] [] :: rest) :: below) next
        (.fork .check 0 right [] :: .perform rest :: below) := by
  have hfork := step_fork h rest
  obtain ⟨hmade, hjob⟩ := h.addJob fun job => Action.branchBody job []
  generalize w.bodies.size = right at hfork hjob
  generalize (w.addJob fun job => Action.branchBody job []).1 = made at hmade hjob hfork
  have hzero : 0 < made.scheduler.dequeCount := Nat.lt_trans Nat.zero_lt_one hmade.pair
  obtain ⟨t, hpush, hfollows, hkeeps, -⟩ := hmade.follows.push_of_lt hzero hroom right
  have hpublish : Frame.step made (some 0) (.fork .publish 0 right []) =
      .go { made with scheduler := t } (some 0) [.fork .published 0 right []] := by
    rw [Frame.step, ForkPoint.step, made.schedule_of_ok (·.push 0 right) _ hpush]
    rfl
  have hused : update (used first []) 0 ((used first [] 0).push right) = used first [right] := by
    rw [used, Function.update_self, Function.update_idem]
    rfl
  rw [hused] at hfollows
  have hpushed := hmade.schedule hkeeps hfollows
  rw [← hkeeps.dequeCount] at hzero
  obtain ⟨u, hbump, hfollowsCount, hkeepsCount⟩ := hpushed.follows.bump hzero .jobsSpawned
  have hpublished : Frame.step { made with scheduler := t } (some 0)
      (.fork .published 0 right []) =
      .go { made with scheduler := u } (some 0) [.perform [], .fork .check 0 right []] := by
    rw [Frame.step, ForkPoint.step, World.schedule_of_ok _ (·.bump 0 .jobsSpawned) _ hbump]
  have hleft : Frame.step { made with scheduler := u } (some 0) (.perform []) =
      .go { made with scheduler := u } (some 0) [] :=
    rfl
  exact ⟨right, { made with scheduler := u }, hpushed.schedule hkeepsCount hfollowsCount,
    ⟨hjob.flags, hjob.body⟩,
    .step hfork (.step hpublish (.step hpublished (.single hleft)))⟩

/-- The second worker steals that job from the first deque, and executes it. -/
theorem leads_serve
    {first : Nat} {right : JobId}
    (h : Underway capacity (used first [right]) w)
    (hjob : Unstarted right (Action.branchBody right []) w)
    (evaluations left : Nat) (below : List Frame) :
    ∃ next later more, Underway capacity (used (first + 1) []) next ∧
      next.isStarted right = true ∧ next.isDone right = true ∧
      Leads (some 1) w (.loop (.trial left) 1 .finished evaluations :: below) next
        (.loop (.trial more) 1 .finished later :: below) := by
  have hzero : 0 < w.scheduler.dequeCount := Nat.lt_trans Nat.zero_lt_one h.pair
  have hmix : Victim.mix (UInt64.ofNat 1).toUInt32 + Victim.mix 3720840171 = 0 := by
    decide
  obtain ⟨attempts, hvictim⟩ := Scheduler.exists_victim_zero hzero h.word hmix
  have hothers : ∀ u, u ≠ 0 → (used first [right] u).jobs = [] := by
    intro u hu
    rw [used, Function.update_of_ne hu]
  obtain ⟨t, seen, hkeeps, hfollows, hhunt⟩ := Leads.hunt (some 1) attempts h.follows
    h.pair h.word h.finished h.trials hzero hvictim
    (show (used first [right] 0).jobs.head? = some right from rfl) hothers evaluations left below
  have hused : update (used first [right]) 0 (used first [right] 0).steal =
      used (first + 1) [] := by
    rw [used, Function.update_self, Function.update_idem]
    rfl
  rw [hused] at hfollows
  have hstolen : Underway capacity (used (first + 1) []) { w with scheduler := t } :=
    h.schedule hkeeps hfollows
  have hfresh : Unstarted right (Action.branchBody right []) { w with scheduler := t } :=
    ⟨hjob.flags, hjob.body⟩
  obtain ⟨taken, htaken, hflags, hdispatch⟩ := leads_dispatch hstolen hfresh (Nat.le_refl 1)
    (Or.inr rfl) seen below
  obtain ⟨started, hstarted⟩ : ∃ started : World, started =
      { taken with toMemory := taken.setFlags right fun flags => { flags with started := true } } :=
    ⟨_, rfl⟩
  obtain ⟨done, hdone⟩ : ∃ done : World, done =
      { started with
        toMemory := started.setFlags right fun flags => { flags with done := true } } :=
    ⟨_, rfl⟩
  have hstart : Frame.step taken (some 1) (.perform (Action.branchBody right [])) =
      .go started (some 1) [.perform [.complete right]] := by
    rw [hstarted]
    rfl
  have hcomplete : Frame.step started (some 1) (.perform [.complete right]) =
      .go done (some 1) [.perform []] := by
    rw [hdone]
    rfl
  have hcode : Frame.step done (some 1) (.perform []) = .go done (some 1) [] :=
    rfl
  have hguard : Frame.step done (some 1) (.guarded right) = .go done (some 1) [] :=
    rfl
  have hended : Underway capacity (used (first + 1) []) done := by
    rw [hdone, hstarted]
    exact (htaken.setFlags right _).setFlags right _
  have hboth : started.flags[right]? = some { taken := true, started := true } := by
    rw [hstarted]
    exact flags_setFlags hflags _
  have hset : done.flags[right]? = some { taken := true, started := true, done := true } := by
    rw [hdone]
    exact flags_setFlags hboth _
  have hown : used (first + 1) [] 1 = {} :=
    Function.update_of_ne Nat.one_ne_zero _ _
  obtain ⟨u, more, hkeepsSearch, hfollowsSearch, hsearch⟩ :=
    leads_search hended (Nat.le_refl 1) hown seen below
  refine ⟨{ done with scheduler := u }, seen + 1, more, hended.schedule hkeepsSearch hfollowsSearch,
    ?_, ?_, ?_⟩
  · show done.isStarted right = true
    rw [Memory.isStarted, hset]
  · show done.isDone right = true
    rw [Memory.isDone, hset]
  · exact hhunt.trans (hdispatch.trans
      (.step hstart (.step hcomplete (.step hcode (.step hguard hsearch)))))

/-- The first worker finds the job started elsewhere, and does not have to wait for it. -/
theorem leads_join
    {lanes : Nat → Lane} {right : JobId}
    (h : Underway capacity lanes w)
    (hstarted : w.isStarted right = true)
    (hdone : w.isDone right = true)
    (below : List Frame) :
    ∃ next, Underway capacity lanes next ∧
      Leads (some 0) w (.fork .check 0 right [] :: below) next below := by
  have hzero : 0 < w.scheduler.dequeCount := Nat.lt_trans Nat.zero_lt_one h.pair
  have hcheck : Frame.step w (some 0) (.fork .check 0 right []) =
      .go w (some 0) [.fork .stolenJoin 0 right []] := by
    rw [Frame.step, ForkPoint.step, if_pos hstarted]
  obtain ⟨t, hbump, hfollows, hkeeps⟩ := h.follows.bump hzero .stolenJoins
  have hjoin : Frame.step w (some 0) (.fork .stolenJoin 0 right []) =
      .go { w with scheduler := t } (some 0)
        [Machine.waitFrame t (some 0) (.jobDone right), .fork .closing 0 right []] := by
    rw [Frame.step, ForkPoint.step, w.schedule_of_ok (·.bump 0 .stolenJoins) _ hbump]
  have hwait : Frame.step { w with scheduler := t } (some 0)
      (Machine.waitFrame t (some 0) (.jobDone right)) =
      .go { w with scheduler := t } (some 0) [] := by
    have hholds : ∀ evaluation, (Stop.jobDone right).holds evaluation
        ({ w with scheduler := t } : World).toMemory = .ok true :=
      fun _ => congrArg Except.ok hdone
    unfold Machine.waitFrame
    cases t.config.waitPolicy with
    | cooperative =>
        cases t.workerOf (some 0) with
        | none =>
            simp only [Frame.step, hholds, Stop.leave]
        | some worker =>
            simp only [Frame.step, LoopPoint.step, hholds, Stop.leave]
    | conservative =>
        simp only [Frame.step, hholds, Stop.leave]
  have hclose : Frame.step { w with scheduler := t } (some 0) (.fork .closing 0 right []) =
      .go { w with scheduler := t } (some 0) [] :=
    rfl
  exact ⟨{ w with scheduler := t }, h.schedule hkeeps hfollows,
    .step hcheck (.step hjoin (.step hwait (.single hclose)))⟩

end Moves

/-- The first worker is about to run code, with so many slots of its deque lost and no jobs in any
deque, while the second one looks for a job. -/
structure Duel (capacity lost : Nat) (code : Code) (s : System) : Prop where
  going : s.aborted = none
  underway : Underway capacity (used lost []) s.world
  runner : ∃ below, s.threads[0]? = some { frames := .perform code :: below, identity := some 0 }
  helper : ∃ left evaluations below, s.threads[1]? =
    some { frames := .loop (.trial left) 1 .finished evaluations :: below, identity := some 1 }

namespace Duel

variable {capacity lost : Nat} {rest : Code} {s : System}

/-- A fork whose right branch the second worker has executed in time loses its slot. -/
theorem round
    (h : Duel capacity lost (.fork [] [] :: rest) s)
    (hroom : lost < capacity) :
    ∃ schedule, Duel capacity (lost + 1) rest (s.run schedule) := by
  obtain ⟨below, hrunner⟩ := h.runner
  obtain ⟨left, evaluations, deeper, hhelper⟩ := h.helper
  obtain ⟨right, offered, hoffered, hjob, hoffer⟩ := leads_offer h.underway hroom rest below
  obtain ⟨first, hgoing, hworld, hmine, hothers⟩ := hoffer.exists_run h.going rfl hrunner
  rw [← hothers 1 Nat.one_ne_zero] at hhelper
  obtain ⟨served, later, more, hserved, hstarted, hdone, hserve⟩ :=
    leads_serve hoffered hjob evaluations left deeper
  obtain ⟨second, hgoing, hworld, htheirs, hothers⟩ := hserve.exists_run hgoing hworld hhelper
  rw [← hothers 0 Nat.zero_ne_one] at hmine
  obtain ⟨joined, hjoined, hjoin⟩ := leads_join hserved hstarted hdone (.perform rest :: below)
  obtain ⟨third, hgoing, hworld, hmine, hothers⟩ := hjoin.exists_run hgoing hworld hmine
  rw [← hothers 1 Nat.one_ne_zero] at htheirs
  refine ⟨first ++ (second ++ third), ?_⟩
  rw [System.run_append, System.run_append]
  refine ⟨hgoing, ?_, ⟨below, hmine⟩, ⟨more, later, deeper, htheirs⟩⟩
  rw [hworld]
  exact hjoined

/-- When all slots are lost, the next fork gives the process up. -/
theorem exists_full
    (h : Duel capacity capacity (.fork [] [] :: rest) s) :
    ∃ schedule, (s.run schedule).aborted = some (.dequeOverflow capacity) := by
  obtain ⟨below, hrunner⟩ := h.runner
  obtain ⟨hmade, -⟩ := h.underway.addJob fun job => Action.branchBody job []
  have hfork : Leads (some 0) s.world (.perform (.fork [] [] :: rest) :: below) _ _ :=
    .single (step_fork h.underway rest)
  obtain ⟨first, hgoing, hworld, hmine, -⟩ := hfork.exists_run h.going rfl hrunner
  have hzero := Nat.lt_trans Nat.zero_lt_one hmade.pair
  obtain ⟨t, hpush⟩ := hmade.follows.push_of_not_lt hzero (Nat.lt_irrefl capacity)
    s.world.bodies.size
  rw [← hworld] at hpush
  have hpublish : Frame.step (s.run first).world (some 0)
      (.fork .publish 0 s.world.bodies.size []) =
      .fail { (s.run first).world with scheduler := t } (.error (.dequeOverflow capacity)) := by
    rw [Frame.step, ForkPoint.step, World.schedule_of_ok _ (·.push 0 s.world.bodies.size) _ hpush]
    rfl
  refine ⟨first ++ [0], ?_⟩
  rw [System.run_append, System.run_cons, System.run_nil,
    System.advance_of_error hgoing hmine rfl hpublish]
  rfl

/-- One fork more than there are slots left gives the process up. -/
theorem exists_overflow
    (slots : Nat)
    (h : Duel capacity lost (List.replicate (slots + 1) (.fork [] []) ++ rest) s)
    (hslots : lost + slots = capacity) :
    ∃ schedule, (s.run schedule).aborted = some (.dequeOverflow capacity) := by
  induction slots generalizing lost s with
  | zero =>
      rw [Nat.add_zero] at hslots
      subst hslots
      exact h.exists_full
  | succ slots ih =>
      obtain ⟨first, hround⟩ := Duel.round h (by omega)
      obtain ⟨second, hoverflow⟩ := ih hround (by omega)
      refine ⟨first ++ second, ?_⟩
      rw [System.run_append]
      exact hoverflow

end Duel

namespace Launch

variable {l : Launch} {capacity : Nat}

/-- Nothing has been done yet, and the region is about to be opened. -/
theorem exists_recruiting
    (h : l.Ready capacity)
    (hpair : 1 < l.world.scheduler.dequeCount)
    (hasked : l.asked ≤ l.world.scheduler.dequeCount)
    (htrials : 0 < l.world.scheduler.stealTrials)
    (htags : ¬ l.world.scheduler.OutOfTags 0) :
    ∃ w, Underway capacity (used 0 [l.root]) w ∧ ¬ w.scheduler.OutOfTags 0 ∧
      Unstarted l.root (Action.rootBody l.thunk) w ∧
      Leads l.identity l.world [.perform [.runThunk l.thunk l.threads]] w
        [.recruit l.workers, .run .clear l.root true, .perform []] := by
  have hidle : Underway capacity (fun _ => {}) l.world :=
    ⟨h.idle.follows, h.idle.finished, htrials, hpair, h.valid.word, h.flags⟩
  obtain ⟨hcalled, hjob⟩ := hidle.addJob fun _ => Action.rootBody l.thunk
  have hcall := l.calls rfl l.identity
  have hclaim := l.claims rfl h.idle.running (Nat.not_lt_of_le hasked) l.identity
  obtain ⟨claimed, hclaimed⟩ : ∃ claimed : World, claimed =
      { l.called with scheduler := { l.called.scheduler with running := true } } :=
    ⟨_, rfl⟩
  rw [← hclaimed] at hclaim
  have hunderway : Underway capacity (fun _ => {}) claimed := by
    rw [hclaimed]
    exact ⟨hcalled.follows, hcalled.finished, hcalled.trials, hcalled.pair, hcalled.word,
      hcalled.flags⟩
  have hzero := Nat.lt_trans Nat.zero_lt_one hunderway.pair
  obtain ⟨t, hpush, hfollows, hkeeps, hsame⟩ := hunderway.follows.push_of_lt hzero
    (hunderway.follows.capacity_pos hzero) l.root
  have henqueue := l.enqueues hpush l.identity
  have hpushed := hunderway.schedule hkeeps hfollows
  have hannounce : Frame.step { claimed with scheduler := t } l.identity
      (.run (.announce l.asked) l.root true) =
      .go (World.trace
        { claimed with scheduler := { t with activeWorkers := l.asked } }
        (.starting l.asked t.dequeCount)) l.identity [.run (.open l.asked) l.root true] :=
    rfl
  have hstyle : (World.trace
      { claimed with scheduler := { t with activeWorkers := l.asked } }
      (.starting l.asked t.dequeCount)).style = l.world.style := by
    rw [hclaimed]
    rfl
  have hopen := l.finds hstyle h.atOnce l.identity
  refine ⟨_, ?_, ?_, ?_,
    .step hcall (.step hclaim (.step henqueue (.step hannounce (.single hopen))))⟩
  · refine Underway.trace ?_ _
    exact ⟨hpushed.follows, hpushed.finished, hpushed.trials, hpushed.pair, hpushed.word,
      hpushed.flags⟩
  · rw [World.scheduler_trace]
    intro hout
    refine htags ?_
    have hclaimedOut := hsame hout
    rw [hclaimed] at hclaimedOut
    exact hclaimedOut
  · refine Unstarted.trace ?_ _
    rw [hclaimed]
    exact ⟨hjob.flags, hjob.body⟩

/-- The first worker has started the thunk, and the second one looks for a job. -/
theorem exists_duel
    (h : l.Ready capacity)
    (hpair : 1 < l.world.scheduler.dequeCount)
    (hasked : l.asked ≤ l.world.scheduler.dequeCount)
    (htrials : 0 < l.world.scheduler.stealTrials)
    (htags : ¬ l.world.scheduler.OutOfTags 0)
    {others : List Nat}
    (hworkers : l.workers = 0 :: 1 :: others) :
    ∃ schedule, Duel capacity 0 (Action.rootBody l.thunk) (l.system.run schedule) := by
  obtain ⟨w, hunderway, htagsLeft, hjob, hleads⟩ :=
    l.exists_recruiting h hpair hasked htrials htags
  have hcalling : l.system.threads[0]? = some
      { frames := [.perform [.runThunk l.thunk l.threads]], identity := l.identity } :=
    rfl
  obtain ⟨first, hgoing, hworld, hcaller, hothers⟩ := hleads.exists_run rfl rfl hcalling
  have hadvance := System.advance_of_recruit hgoing hcaller rfl
    (rfl : Frame.step (l.system.run first).world l.identity (.recruit l.workers) =
      .recruit (l.system.run first).world l.workers)
  rw [hworkers, System.recruit, hworld] at hadvance
  have hin : 0 < (l.system.run first).threads.size := (Array.getElem?_eq_some_iff.mp hcaller).1
  have hnone : (l.system.run first).threads[1]? = none := hothers 1 Nat.one_ne_zero
  have hsize : (l.system.run first).threads.size = 1 :=
    Nat.le_antisymm (Array.getElem?_eq_none_iff.mp hnone) hin
  have hset : ∀ caller, ((l.system.run first).threads.setIfInBounds 0 caller).size = 1 := by
    intro caller
    rw [Array.size_setIfInBounds, hsize]
  have hrunner : ∃ below, ((l.system.run first).advance 0).threads[0]? =
      some { frames := .loop .poll 0 .finished 0 :: below, identity := some 0 } := by
    rw [hadvance]
    exact ⟨_, (Array.getElem?_append_left (Nat.lt_of_lt_of_eq Nat.zero_lt_one (hset _).symm)).trans
      (Array.getElem?_setIfInBounds_self_of_lt hin)⟩
  have hhelper : ((l.system.run first).advance 0).threads[1]? =
      some { frames := [.loop .poll 1 .finished 0], identity := some 1 } := by
    rw [hadvance, Array.getElem?_append_right (Nat.le_of_eq (hset _)), hset]
    rfl
  have hopened : ((l.system.run first).advance 0).aborted = none ∧
      ((l.system.run first).advance 0).world = w := by
    rw [hadvance]
    exact ⟨rfl, rfl⟩
  obtain ⟨below, hrunner⟩ := hrunner
  obtain ⟨started, hstarted, hstart⟩ := leads_start hunderway htagsLeft hjob 0 below
  obtain ⟨second, hgoing, hworld, hmine, hothers⟩ :=
    hstart.exists_run hopened.1 hopened.2 hrunner
  rw [← hothers 1 Nat.one_ne_zero] at hhelper
  have hown : used 0 [] 1 = {} := Function.update_of_ne Nat.one_ne_zero _ _
  obtain ⟨t, left, hkeeps, hfollows, hsearch⟩ := leads_search hstarted (Nat.le_refl 1) hown 0 []
  obtain ⟨third, hgoing, hworld, htheirs, hothers⟩ := hsearch.exists_run hgoing hworld hhelper
  rw [← hothers 0 Nat.zero_ne_one] at hmine
  refine ⟨first ++ 0 :: (second ++ third), ?_⟩
  rw [System.run_append, System.run_cons, System.run_append]
  refine ⟨hgoing, ?_, ⟨_, hmine⟩, ⟨left, 0 + 1, [], htheirs⟩⟩
  rw [hworld]
  exact hstarted.schedule hkeeps hfollows

/-- So many forks of empty branches, one after another. -/
def forks (count : Nat) : Code :=
  List.replicate count (.fork [] [])

theorem isStrict_forks
    (count : Nat) :
    Code.isStrict (forks count) = true := by
  induction count with
  | zero =>
      rfl
  | succ count ih =>
      exact ih

/-- However many forks there are one after another, none is inside another one. -/
theorem nesting_forks_le
    (count : Nat) :
    Code.nesting (forks count) ≤ 1 := by
  induction count with
  | zero =>
      exact Nat.zero_le 1
  | succ count ih =>
      exact Nat.max_le.mpr ⟨Nat.le_refl 1, ih⟩

/-- Other strict code may be launched in place of the thunk. -/
theorem Ready.withThunk
    (h : l.Ready capacity)
    {thunk : Code}
    (hstrict : Code.isStrict thunk = true) :
    ({ l with thunk } : Launch).Ready capacity :=
  ⟨hstrict, h.idle, h.flags, h.atOnce, ⟨h.valid.manned, h.valid.nodup, h.valid.below, h.valid.word⟩⟩

/-- The number of slots bounds the nesting of forks exactly if there is one worker. With more of
them there are strict thunks without any nesting, and orders of the steps, for which it does not. -/
theorem nesting_suffices_iff
    (h : l.Ready capacity)
    (hhost : l.world.style.workers = none)
    (htrials : 0 < l.world.scheduler.stealTrials)
    (htags : ¬ l.world.scheduler.OutOfTags 0) :
    (∀ thunk, Code.isStrict thunk = true → Code.nesting thunk ≤ capacity →
      ∀ schedule, (({ l with thunk } : Launch).system.run schedule).aborted ≠
        some (.dequeOverflow capacity)) ↔
      l.asked = 1 := by
  have hworkers : l.workers = List.range l.asked := by
    rw [workers, Machine.HostStyle.workersOf, hhost]
    rfl
  constructor
  · intro hnever
    by_contra hone
    have hmanned : l.asked ≠ 0 := by
      intro hzero
      rw [hzero] at hworkers
      exact h.valid.manned hworkers
    obtain ⟨more, hmore⟩ : ∃ more, l.asked = more + 2 := ⟨l.asked - 2, by omega⟩
    have hlist : l.workers = 0 :: 1 :: (List.range more).map (· + 2) := by
      rw [hworkers, hmore, List.range_succ_eq_map, List.range_succ_eq_map, List.map_cons,
        List.map_map]
      rfl
    have hlast : l.asked - 1 < l.world.scheduler.dequeCount := by
      apply h.valid.below
      show l.asked - 1 ∈ l.workers
      rw [hworkers, List.mem_range]
      omega
    have hcapacity : 0 < capacity :=
      h.idle.follows.capacity_pos (Nat.zero_lt_of_lt hlast)
    obtain ⟨first, hduel⟩ := exists_duel (h.withThunk (isStrict_forks (capacity + 1)))
      (show 1 < l.world.scheduler.dequeCount by omega)
      (show l.asked ≤ l.world.scheduler.dequeCount by omega) htrials htags hlist
    obtain ⟨second, hoverflow⟩ := hduel.exists_overflow capacity (Nat.zero_add capacity)
    refine hnever (forks (capacity + 1)) (isStrict_forks _)
      (Nat.le_trans (nesting_forks_le _) hcapacity) (first ++ second) ?_
    rw [System.run_append]
    exact hoverflow
  · intro hone thunk hstrict hnesting schedule
    rw [hone] at hworkers
    exact run_fits (h.withThunk hstrict) (v := 0) hworkers
      (Nat.le_trans (Code.leftDepth_le_nesting thunk) hnesting) schedule

def alone : Launch :=
  { sample with threads := 1 }

theorem alone_nesting_suffices :
    alone.Ready 4 ∧
      ∀ thunk, Code.isStrict thunk = true → Code.nesting thunk ≤ 4 →
        ∀ schedule, (({ alone with thunk } : Launch).system.run schedule).aborted ≠
          some (.dequeOverflow 4) := by
  have hready : alone.Ready 4 :=
    ⟨sample_ready.strict, sample_ready.idle, rfl, rfl, by decide, by decide, by decide, by decide⟩
  have htags : ¬ alone.world.scheduler.OutOfTags 0 := by
    rintro ⟨place, hplace, hout⟩
    cases hplace
    cases hout
  exact ⟨hready, (nesting_suffices_iff hready rfl (by decide) htags).mpr rfl⟩

/-- Two workers whose deques have one slot each, and two forks one after the other. -/
def pair : Launch :=
  { sample with
    world :=
      { sample.world with
        scheduler :=
          { sample.world.scheduler with
            places := Array.replicate 2
              { deque :=
                  { capacity := 1, capacity_pos := by decide, capacity_le := by decide } } } }
    thunk := forks 2 }

/-- The first worker offers the right branch of the first fork, the second one steals and ends it,
and the second fork of the first worker finds no slot. -/
theorem pair_overflows :
    pair.Ready 1 ∧ Code.nesting pair.thunk ≤ 1 ∧
      (pair.system.run
        (List.replicate 13 0 ++ List.replicate 17 1 ++ List.replicate 8 0)).aborted =
          some (.dequeOverflow 1) := by
  refine ⟨⟨by decide, ⟨rfl, rfl, ?_⟩, rfl, rfl, by decide, by decide, by decide, by decide⟩,
    by decide, by decide +kernel⟩
  intro place hplace
  rw [(Array.mem_replicate.mp hplace).2]
  exact ⟨rfl, rfl, rfl⟩

end Launch
end ForkJoin
end WorkStealing
