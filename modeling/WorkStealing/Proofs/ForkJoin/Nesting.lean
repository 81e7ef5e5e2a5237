import WorkStealing.Proofs.ForkJoin.Course

/-!
# Nesting of forks and room in a deque

A worker that nobody steals from pops each right branch that it has pushed. So
its deque holds no more than the right branches of the forks whose left branches
it is in, and starts at its first slot: code needs as many slots as there are
forks inside each other's left branches (`Code.leftDepth`), which is no more than
the number of forks inside each other along any path (`Code.nesting`). A run with
one worker therefore finds a slot for each right branch (`Launch.run_fits`).
-/

namespace WorkStealing

mutual

/-- The number of forks of an action that are inside each other along one path. -/
def Action.nesting : Action → Nat
  | .fork left right => max (Code.nesting left) (Code.nesting right) + 1
  | _ => 0

def Code.nesting : List Action → Nat
  | [] => 0
  | action :: rest => max (Action.nesting action) (Code.nesting rest)

end

mutual

/-- The number of forks of an action that are inside each other's left branches. -/
def Action.leftDepth : Action → Nat
  | .fork left right => max (Code.leftDepth left + 1) (Code.leftDepth right)
  | _ => 0

def Code.leftDepth : List Action → Nat
  | [] => 0
  | action :: rest => max (Action.leftDepth action) (Code.leftDepth rest)

end

mutual

/-- Forks inside left branches are inside each other. -/
theorem Action.leftDepth_le_nesting
    (action : Action) :
    Action.leftDepth action ≤ Action.nesting action := by
  cases action with
  | fork left right =>
      have hleft := Code.leftDepth_le_nesting left
      have hright := Code.leftDepth_le_nesting right
      rw [Action.leftDepth, Action.nesting]
      omega
  | _ =>
      exact Nat.zero_le _

theorem Code.leftDepth_le_nesting
    (code : List Action) :
    Code.leftDepth code ≤ Code.nesting code := by
  cases code with
  | nil =>
      exact Nat.le_refl _
  | cons action rest =>
      have haction := Action.leftDepth_le_nesting action
      have hrest := Code.leftDepth_le_nesting rest
      rw [Code.leftDepth, Code.nesting]
      omega

end

theorem Code.leftDepth_append
    (first second : Code) :
    Code.leftDepth (first ++ second) = max (Code.leftDepth first) (Code.leftDepth second) := by
  induction first with
  | nil =>
      exact (Nat.zero_max _).symm
  | cons action rest ih =>
      rw [List.cons_append, Code.leftDepth, Code.leftDepth, ih, Nat.max_assoc]

/-- What jobs do for their own books needs no slots. -/
theorem Action.leftDepth_rootBody
    (thunk : Code) :
    Code.leftDepth (Action.rootBody thunk) = Code.leftDepth thunk := by
  rw [Action.rootBody, Code.leftDepth_append]
  exact Nat.max_zero _

/-- What jobs do for their own books needs no slots. -/
theorem Action.leftDepth_branchBody
    (job : JobId) (branch : Code) :
    Code.leftDepth (Action.branchBody job branch) = Code.leftDepth branch := by
  rw [Action.branchBody, List.cons_append, Code.leftDepth, Code.leftDepth_append]
  exact (Nat.zero_max _).trans (Nat.max_zero _)

namespace ForkJoin

open Function (update)
open Machine (System)

/-- What comes into a deque from outside is in front of what the forks of the worker push. -/
theorem exists_spine_eq
    (base : List JobId) (stack : List Call) :
    ∃ front, (front = base ∨ front = []) ∧ spine base stack = front ++ spine [] stack := by
  induction stack with
  | nil =>
      exact ⟨base, Or.inl rfl, (List.append_nil base).symm⟩
  | cons call below ih =>
      cases call with
      | loop held stop =>
          cases stop with
          | none =>
              exact ⟨base, Or.inl rfl, (List.append_nil base).symm⟩
          | some job =>
              exact ⟨[], Or.inr rfl, rfl⟩
      | fork phase right =>
          obtain ⟨front, hfront, heq⟩ := ih
          refine ⟨front, hfront, ?_⟩
          rw [spine, spine, heq, List.append_assoc]
      | code rest =>
          exact ih
      | fetch job =>
          exact ih
      | guarded job =>
          exact ih

/-- Without the first job of the run a deque holds right branches only. -/
theorem suffix_spine_nil
    {root : JobId} {v : Nat} {queue : List JobId} {stack : List Call}
    (h : queue <:+ spine (base root v) stack)
    (hroot : root ∉ queue) :
    queue <:+ spine [] stack := by
  obtain ⟨front, hfront, heq⟩ := exists_spine_eq (base root v) stack
  have hshort : front = [] ∨ front = [root] := by
    rcases hfront with rfl | rfl
    · exact (ite_eq_or_eq (v = 0) [root] []).symm
    · exact Or.inl rfl
  rw [heq] at h
  rcases hshort with rfl | rfl
  · exact h
  · rcases List.suffix_cons_iff.mp h with rfl | hsuffix
    · exact absurd List.mem_cons_self hroot
    · exact hsuffix

/-- The slots that a fork needs for its right branch and its left one. -/
def Phase.need : Phase → Nat
  | publish left => Code.leftDepth left + 1
  | published left => Code.leftDepth left + 1
  | _ => 0

def Call.Fits (capacity : Nat) (body : JobId → Code) (used : Nat) : Call → Prop
  | .code rest => used + Code.leftDepth rest ≤ capacity
  | .fork phase right =>
      used + phase.need ≤ capacity ∧ used + Code.leftDepth (body right) ≤ capacity
  | _ => True

namespace Call.Fits

variable {capacity used : Nat} {body : JobId → Code} {rest : Code}

/-- What is left of some code needs no more slots than the code. -/
theorem tail
    {action : Action}
    (h : Call.Fits capacity body used (.code (action :: rest))) :
    Call.Fits capacity body used (.code rest) :=
  Nat.le_trans (Nat.add_le_add_left (Nat.le_max_right _ _) _) h

/-- Beside the slots of its left branch a fork needs one for its right branch. -/
theorem fork
    {left right : Code}
    (h : Call.Fits capacity body used (.code (.fork left right :: rest))) :
    used + (Code.leftDepth left + 1) ≤ capacity ∧ used + Code.leftDepth right ≤ capacity ∧
      used + Code.leftDepth rest ≤ capacity := by
  rw [Call.Fits, Code.leftDepth, Action.leftDepth] at h
  omega

end Call.Fits

/-- There are enough slots for each call of the stack, where those below it use theirs. -/
def Roomy (capacity : Nat) (body : JobId → Code) : List Call → Prop
  | [] => True
  | call :: below => call.Fits capacity body (spine [] below).length ∧ Roomy capacity body below

/-- Only the right branches of the stack matter. -/
theorem Roomy.congr
    {capacity : Nat} {body after : JobId → Code} {stack : List Call}
    (h : Roomy capacity body stack)
    (hsame : ∀ phase right, Call.fork phase right ∈ stack → after right = body right) :
    Roomy capacity after stack := by
  induction stack with
  | nil =>
      trivial
  | cons call below ih =>
      refine ⟨?_, ih h.2 fun phase right hright =>
        hsame phase right (List.mem_cons_of_mem _ hright)⟩
      cases call with
      | fork phase right =>
          have hright := hsame phase right List.mem_cons_self
          show _ ∧ _ + Code.leftDepth (after right) ≤ capacity
          rw [hright]
          exact h.1
      | code rest =>
          exact h.1
      | _ =>
          trivial

/-- A fork on top that needs no more than before. -/
theorem Roomy.advance
    {capacity : Nat} {body : JobId → Code} {phase next : Phase} {right : JobId}
    {below : List Call}
    (h : Roomy capacity body (.fork phase right :: below))
    (hnext : next.need ≤ phase.need) :
    Roomy capacity body (.fork next right :: below) :=
  ⟨⟨Nat.le_trans (Nat.add_le_add_left hnext _) h.1.1, h.1.2⟩, h.2⟩

/-- What holds of a worker that nobody steals from. -/
structure Solo (capacity : Nat) (root : JobId) (v : Nat) (a : Crew) : Prop where
  first : (a.lanes v).first = 0
  roomy : Roomy capacity a.body (a.stack v)
  bodies : ∀ job, Code.leftDepth (a.body job) ≤ capacity
  /-- While the first job is in the deque of the worker, nothing has happened. -/
  fresh : root ∈ (a.lanes v).jobs → a.count = root + 1 ∧ a.stack v = [.loop none none]

namespace Solo

variable {thunk : Code} {capacity : Nat} {root : JobId} {v : Nat} {a b : Crew}

/-- There is room for the stack that the worker has. -/
theorem room
    (h : Solo capacity root v a)
    {calls : List Call}
    (hstack : a.stack v = calls) :
    Roomy capacity a.body calls :=
  hstack ▸ h.roomy

/-- The first job has left the deque when the worker is anywhere but in its outermost loop. -/
theorem root_not_mem
    (h : Solo capacity root v a)
    {call : Call} {below : List Call}
    (hstack : a.stack v = call :: below)
    (hcall : ∀ stop, call ≠ .loop none stop) :
    root ∉ (a.lanes v).jobs := by
  intro hroot
  have hfresh := (h.fresh hroot).2
  rw [hstack] at hfresh
  exact hcall none (List.cons.inj hfresh).1

/-- There is a slot for a right branch that is to be pushed. -/
theorem bottom_lt
    (h : Solo capacity root v a)
    (hinv : Inv thunk root a)
    {left : Code} {right : JobId} {below : List Call}
    (hstack : a.stack v = .fork (.publish left) right :: below) :
    (a.lanes v).bottom < capacity := by
  have hsuffix := suffix_spine_nil (hinv.suffix hstack)
    (h.root_not_mem hstack fun _ => Call.noConfusion)
  have hlength := hsuffix.length_le
  have hneed := (h.room hstack).1.1
  rw [spine_of_not_isLive _ rfl] at hlength
  rw [Lane.bottom, h.first, Nat.zero_add]
  simp only [Phase.need] at hneed
  omega

/-- A worker alone keeps its deque at the first slot. -/
theorem first_step
    (h : Solo capacity root v a)
    (hstep : Step root v a b) :
    (b.lanes v).first = 0 := by
  have hpop : (a.lanes v).pop.first = 0 := by
    show (if (a.lanes v).jobs.dropLast = [] then 0 else (a.lanes v).first) = 0
    rw [h.first, ite_self]
  cases hstep with
  | @obtain stop below place job lane hstack hjobs hlane =>
      show (update a.lanes place lane v).first = 0
      rcases hlane with ⟨hplace, -⟩ | ⟨rfl, rfl⟩
      · rw [Function.update_of_ne hplace.symm]
        exact h.first
      · rw [Function.update_self]
        exact hpop
  | rewind hstack hjobs =>
      show (update a.lanes v {} v).first = 0
      rw [Function.update_self]
  | publish hstack =>
      show (update a.lanes v _ v).first = 0
      rw [Function.update_self]
      exact h.first
  | reclaim hstack hjobs =>
      show (update a.lanes v _ v).first = 0
      rw [Function.update_self]
      exact hpop
  | lose hstack hjobs =>
      show (update a.lanes v {} v).first = 0
      rw [Function.update_self]
  | _ =>
      exact h.first

/-- Right branches need no more slots than the code that they are made of. -/
theorem bodies_step
    (h : Solo capacity root v a)
    (hstep : Step root v a b)
    (job : JobId) :
    Code.leftDepth (b.body job) ≤ capacity := by
  cases hstep with
  | @fork below left right rest owner hstack howner =>
      obtain ⟨-, hright, -⟩ := (h.room hstack).1.fork
      show Code.leftDepth (update a.body a.count _ job) ≤ capacity
      by_cases hjob : job = a.count
      · rw [hjob, Function.update_self, Action.leftDepth_branchBody]
        omega
      · rw [Function.update_of_ne hjob]
        exact h.bodies job
  | _ =>
      exact h.bodies job

/-- There is room for the body of a job that the worker is about to execute. -/
theorem fits_body
    (h : Solo capacity root v a)
    (hinv : Inv thunk root a)
    {job : JobId} {below : List Call}
    (hstack : a.stack v = .fetch job :: below) :
    Call.Fits capacity a.body (spine [] (.guarded job :: below)).length (.code (a.body job)) := by
  show (spine [] below).length + Code.leftDepth (a.body job) ≤ capacity
  have hroomy := h.room hstack
  have hsits := hinv.sits hstack
  cases hsits with
  | fetched job stop deeper =>
      have hnone : spine [] (.loop none stop :: deeper) = [] := by
        cases stop <;> rfl
      rw [hnone, List.length_nil, Nat.zero_add]
      exact h.bodies job
  | fetchedBack job deeper =>
      rw [spine_of_not_isLive _ rfl]
      exact hroomy.2.1.2

/-- There is room for a fork where there was room for the code that it comes from. -/
theorem roomy_fork
    (h : Solo capacity root v a)
    (hinv : Inv thunk root a)
    {left right rest : Code} {below : List Call}
    (hstack : a.stack v = .code (.fork left right :: rest) :: below) :
    Roomy capacity (update a.body a.count (Action.branchBody a.count right))
      (.fork (.publish left) a.count :: .code rest :: below) := by
  have hroomy := h.room hstack
  obtain ⟨hleft, hright, hrest⟩ := hroomy.1.fork
  refine ⟨⟨hleft, ?_⟩, hrest, hroomy.2.congr fun phase other hother => ?_⟩
  · show (spine [] below).length + Code.leftDepth (update a.body a.count _ a.count) ≤ capacity
    rw [Function.update_self, Action.leftDepth_branchBody]
    exact hright
  · refine Function.update_of_ne (Nat.ne_of_lt (hinv.shape.forks v phase other ?_).2.2) _ _
    rw [hstack]
    exact List.mem_cons_of_mem _ hother

/-- The left branch of a fork has the slots that the fork kept for it. -/
theorem roomy_goLeft
    (h : Solo capacity root v a)
    {left : Code} {right : JobId} {below : List Call}
    (hstack : a.stack v = .fork (.published left) right :: below) :
    Roomy capacity a.body (.code left :: .fork .check right :: below) := by
  have hroomy := h.room hstack
  refine ⟨?_, hroomy.advance (Nat.zero_le _)⟩
  have hneed := hroomy.1.1
  show (spine [] (.fork .check right :: below)).length + Code.leftDepth left ≤ capacity
  rw [spine_of_isLive _ rfl, List.length_append, List.length_singleton]
  simp only [Phase.need] at hneed
  omega

/-- The worker has enough slots for what it does next. -/
theorem roomy_step
    (h : Solo capacity root v a)
    (hinv : Inv thunk root a)
    (hstep : Step root v a b) :
    Roomy capacity b.body (b.stack v) := by
  have hupdate : ∀ {calls : List Call} {body : JobId → Code}, Roomy capacity body calls →
      Roomy capacity body (update a.stack v calls v) := by
    intro calls body hcalls
    rw [Function.update_self]
    exact hcalls
  cases hstep with
  | idle | rewind =>
      exact h.roomy
  | leave hstack | retire hstack | endCode hstack | close hstack =>
      exact hupdate (h.room hstack).2
  | obtain hstack =>
      exact hupdate ⟨trivial, (h.room hstack).2⟩
  | dispatch hstack =>
      exact hupdate ⟨trivial, trivial, (h.room hstack).2⟩
  | take hstack =>
      exact hupdate ⟨h.fits_body hinv hstack, trivial, (h.room hstack).2⟩
  | act hstack | note hstack =>
      have hroomy := h.room hstack
      exact hupdate ⟨hroomy.1.tail, hroomy.2⟩
  | fork hstack =>
      exact hupdate (h.roomy_fork hinv hstack)
  | goLeft hstack =>
      exact hupdate (h.roomy_goLeft hstack)
  | publish hstack | look hstack | miss hstack | reclaim hstack | lose hstack =>
      exact hupdate ((h.room hstack).advance (Nat.le_refl _))
  | inline hstack | wait hstack =>
      exact hupdate ⟨trivial, (h.room hstack).advance (Nat.le_refl _)⟩

/-- When the first job is out of the deque, it does not come back. -/
theorem fresh_step
    (h : Solo capacity root v a)
    (hinv : Inv thunk root a)
    (hstep : Step root v a b)
    (hroot : root ∈ (b.lanes v).jobs) :
    b.count = root + 1 ∧ b.stack v = [.loop none none] := by
  have hempty : ∀ {lane : Lane}, root ∈ (update a.lanes v lane v).jobs → root ∈ lane.jobs := by
    intro lane hlane
    rw [Function.update_self] at hlane
    exact hlane
  cases hstep with
  | idle =>
      exact h.fresh hroot
  | leave hstack hended =>
      have hstill := (h.fresh hroot).2
      rw [hstack] at hstill
      cases hstill
      have hqueued := (hinv.places.queued v root).mp hroot
      have hleft := hinv.work.waiting root hinv.root_lt (by rw [hqueued]; rfl)
      exact absurd (hleft.symm.trans hended) (List.cons_ne_nil _ _)
  | @obtain stop below place job lane hstack hjobs hlane =>
      rcases hlane with ⟨hplace, -⟩ | ⟨rfl, -⟩
      · have hold : root ∈ (a.lanes v).jobs := by
          have hsame : (update a.lanes place lane v).jobs = (a.lanes v).jobs :=
            congrArg Lane.jobs (Function.update_of_ne hplace.symm lane a.lanes)
          exact hsame ▸ hroot
        have hmem : job ∈ (a.lanes place).jobs := by
          rw [hjobs]
          exact List.mem_cons_self
        have hqueued := (hinv.places.queued place job).mp hmem
        have hlt : job < a.count := by
          apply hinv.lt_count
          rw [hqueued]
          exact Home.noConfusion
        have hle : root ≤ job := by
          apply hinv.root_le
          rw [hqueued]
          exact Home.noConfusion
        rw [(h.fresh hold).1] at hlt
        have heq : job = root := Nat.le_antisymm (Nat.le_of_lt_succ hlt) hle
        rw [heq, (hinv.places.queued v root).mp hold] at hqueued
        exact absurd (Home.queued.inj hqueued).symm hplace
      · have hrest : root ∈ lane.jobs := hempty hroot
        rcases hinv.jobs_of_loop hstack with hnil | hone
        · rw [hnil] at hjobs
          cases hjobs
        · rw [hone] at hjobs
          rw [← (List.cons.inj hjobs).2] at hrest
          exact absurd hrest List.not_mem_nil
  | rewind hstack hjobs =>
      exact absurd (hempty hroot) List.not_mem_nil
  | lose hstack hjobs =>
      exact absurd (hempty hroot) List.not_mem_nil
  | @publish below left right hstack =>
      rcases List.mem_append.mp (hempty hroot) with hold | hnew
      · exact absurd hold (h.root_not_mem hstack fun _ => Call.noConfusion)
      · have hlt := (hinv.shape.forks v (.publish left) right (by
          rw [hstack]
          exact List.mem_cons_self)).2.1
        exact absurd (List.mem_singleton.mp hnew) (Nat.ne_of_lt hlt)
  | reclaim hstack hjobs =>
      exact absurd (List.dropLast_subset _ (hempty hroot))
        (h.root_not_mem hstack fun _ => Call.noConfusion)
  | act hstack hkind howner | note hstack hkind howner =>
      exact absurd hroot (h.root_not_mem hstack fun _ => Call.noConfusion)
  | fork hstack howner | close hstack howner =>
      exact absurd hroot (h.root_not_mem hstack fun _ => Call.noConfusion)
  | miss hstack htaken =>
      exact absurd hroot (h.root_not_mem hstack fun _ => Call.noConfusion)
  | dispatch hstack | take hstack | retire hstack | endCode hstack | goLeft hstack | look hstack
  | inline hstack | wait hstack =>
      exact absurd hroot (h.root_not_mem hstack fun _ hloop => by cases hloop)

/-- A worker alone stays so. -/
theorem step
    (h : Solo capacity root v a)
    (hinv : Inv thunk root a)
    (hstep : Step root v a b) :
    Solo capacity root v b :=
  ⟨h.first_step hstep, h.roomy_step hinv hstep, h.bodies_step hstep, h.fresh_step hinv hstep⟩

end Solo

namespace Launch

variable {l : Launch} {capacity : Nat} {v : Nat}

/-- When the region opens, nobody has stolen anything. -/
theorem solo_crew
    (hworkers : l.workers = [v])
    (hdepth : Code.leftDepth l.thunk ≤ capacity) :
    Solo capacity l.root v l.crew := by
  have hstack : l.crew.stack v = [.loop none none] := by
    refine if_pos ?_
    rw [hworkers]
    exact List.mem_singleton_self v
  refine ⟨?_, ?_, fun _ => ?_, fun _ => ⟨rfl, hstack⟩⟩
  · show (l.lanes v).first = 0
    unfold lanes
    by_cases hzero : v = 0
    · rw [hzero, Function.update_self]
      rfl
    · rw [Function.update_of_ne hzero]
  · rw [hstack]
    exact ⟨trivial, trivial⟩
  · show Code.leftDepth (Action.rootBody l.thunk) ≤ capacity
    rw [Action.leftDepth_rootBody]
    exact hdepth

/-- One worker finds a slot for each right branch if there are as many slots as forks inside each
other's left branches. -/
theorem run_fits
    (h : l.Ready capacity)
    (hworkers : l.workers = [v])
    (hdepth : Code.leftDepth l.thunk ≤ capacity)
    (schedule : List Nat) :
    (l.system.run schedule).aborted ≠ some (.dequeOverflow capacity) := by
  intro haborted
  have hkeep : ∀ a b u, Inv l.thunk l.root a → Solo capacity l.root v a → u ∈ l.workers →
      Step l.root u a b → Solo capacity l.root v b := by
    intro a b u hinv hsolo hu hstep
    rw [hworkers, List.mem_singleton] at hu
    subst hu
    exact hsolo.step hinv hstep
  have hcourse := Course.run h (solo_crew hworkers hdepth) hkeep schedule
  rcases hcourse.cause_of_aborted haborted with
    hno | ⟨-, a, u, left, right, below, hinv, hsolo, hu, hfull, hstack⟩
  · cases hno
  · rw [hworkers, List.mem_singleton] at hu
    subst hu
    exact absurd (hsolo.bottom_lt hinv hstack) (Nat.not_lt_of_le hfull)

end Launch
end ForkJoin
end WorkStealing
