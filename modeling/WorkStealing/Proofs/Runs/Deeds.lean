import WorkStealing.Proofs.Machine.Advance

/-!
# What a wait does

A thread that waits evaluates its condition, and in the cooperative case it also looks
for jobs and gives them out to be executed above it. Its deeds are recorded from its own
steps until it is left (`Wait.deeds`, `Wait.left?`). Those of a wait that goes as it
should make up a story (`Wait.Story`), in which between two evaluations there is at most
one job given out and one steal attempt, and nothing after the condition holds. What can
be told of every story is told here, by induction on it.
-/

namespace WorkStealing

/-- The worker as whom a thread runs other jobs while it waits; nobody under the conservative
policy or outside of workers. -/
def Scheduler.helper? (s : Scheduler) (identity : Option Nat) : Option Nat :=
  match s.config.waitPolicy with
  | .cooperative => s.workerOf identity
  | .conservative => none

namespace Machine

/-- Something that a wait does itself. -/
inductive Deed where
  /-- It evaluates its condition on this memory; the evaluation is numbered. -/
  | asks (number : Nat) (seen : Memory)
  /-- It pops from the worker's own deque. -/
  | pops
  | steals (target : Nat)
  /-- It gives a job out to be executed. -/
  | dispatches (job : JobId)

namespace Deed

def isAsk : Deed → Bool
  | asks _ _ => true
  | _ => false

def isSteal : Deed → Bool
  | steals _ => true
  | _ => false

def isDispatch : Deed → Bool
  | dispatches _ => true
  | _ => false

end Deed

/-- What the next step of a wait does. -/
def Frame.deed? (m : Memory) : Frame → Option Deed
  | .poll _ evaluations => some (.asks (evaluations + 1) m)
  | .loop .poll _ _ evaluations => some (.asks (evaluations + 1) m)
  | .loop (.trial (_ + 1)) _ _ evaluations => some (.asks (evaluations + 1) m)
  | .loop .pop _ _ _ => some .pops
  | .loop (.steal _ target) _ _ _ => some (.steals target)
  | .loop (.dispatch job) _ _ _ => some (.dispatches job)
  | _ => none

/-- The calls of a thread that have not returned. -/
def System.callsOf (s : System) (index : Nat) : List Frame :=
  match s.threads[index]? with
  | some thread => thread.frames
  | none => []

/-- A wait: whose it is and what it waits for, as which worker it may run other jobs meanwhile, and
to where it returns. -/
structure Wait where
  index : Nat
  test : Condition
  helper : Option Nat
  rest : Code
  outer : List Frame

namespace Wait

/-- The calls below the wait. -/
def below (wait : Wait) : List Frame := .perform wait.rest :: wait.outer

def IsOver (wait : Wait) (s : System) : Prop :=
  (s.callsOf wait.index).length ≤ wait.below.length

instance (wait : Wait) (s : System) : Decidable (wait.IsOver s) :=
  inferInstanceAs (Decidable (_ ≤ _))

/-- The thread is not executing a job above the wait. -/
def IsNext (wait : Wait) (s : System) : Prop :=
  (s.callsOf wait.index).length = wait.below.length + 1

instance (wait : Wait) (s : System) : Decidable (wait.IsNext s) :=
  inferInstanceAs (Decidable (_ = _))

/-- What the wait does itself in the turn of a thread. -/
def deed? (wait : Wait) (s : System) (turn : Nat) : Option Deed :=
  if turn = wait.index ∧ wait.IsNext s then
    (s.frameAt turn).bind (Frame.deed? s.world.toMemory)
  else none

def deeds (wait : Wait) (s : System) : List Nat → List Deed
  | [] => []
  | turn :: schedule =>
    if wait.IsOver s then []
    else (wait.deed? s turn).toList ++ wait.deeds (s.advance turn) schedule

/-- The system when the wait was left. -/
def left? (wait : Wait) (s : System) : List Nat → Option System
  | [] => if wait.IsOver s then some s else none
  | turn :: schedule =>
    if wait.IsOver s then some s else wait.left? (s.advance turn) schedule

/-- The wait has just returned, after the evaluation of that number. -/
structure Returned (wait : Wait) (number : Nat) (seen : Memory) (s : System) : Prop where
  going : s.aborted = none
  calls : s.callsOf wait.index = wait.below
  /-- Since the evaluation nothing has happened but the return. -/
  memory : s.world.toMemory = seen.emit (.waited number)

section Records

variable {wait : Wait} {s : System} {schedule first second : List Nat} {turn : Nat}

theorem deeds_of_over
    (h : wait.IsOver s) :
    wait.deeds s schedule = [] := by
  cases schedule with
  | nil =>
      rfl
  | cons turn schedule =>
      rw [deeds, if_pos h]

theorem left?_of_over
    (h : wait.IsOver s) :
    wait.left? s schedule = some s := by
  cases schedule with
  | nil => rw [left?, if_pos h]
  | cons turn schedule => rw [left?, if_pos h]

theorem not_over_of_left?
    (h : wait.left? s schedule = none) :
    ¬ wait.IsOver s := by
  intro hover
  rw [left?_of_over hover] at h
  cases h

theorem deeds_cons
    (h : ¬ wait.IsOver s) :
    wait.deeds s (turn :: schedule) =
      (wait.deed? s turn).toList ++ wait.deeds (s.advance turn) schedule := by
  rw [deeds, if_neg h]

theorem left?_cons
    (h : ¬ wait.IsOver s) :
    wait.left? s (turn :: schedule) = wait.left? (s.advance turn) schedule := by
  rw [left?, if_neg h]

/-- While the wait is not left, what it does goes on with what it does next. -/
theorem deeds_append
    (h : wait.left? s first = none) :
    wait.deeds s (first ++ second) = wait.deeds s first ++ wait.deeds (s.run first) second := by
  induction first generalizing s with
  | nil =>
      rfl
  | cons turn first ih =>
      have hopen := not_over_of_left? h
      rw [left?_cons hopen] at h
      rw [List.cons_append, deeds_cons hopen, deeds_cons hopen, ih h, List.append_assoc,
        System.run_cons]

theorem left?_append
    (h : wait.left? s first = none) :
    wait.left? s (first ++ second) = wait.left? (s.run first) second := by
  induction first generalizing s with
  | nil =>
      rfl
  | cons turn first ih =>
      have hopen := not_over_of_left? h
      rw [left?_cons hopen] at h
      rw [List.cons_append, left?_cons hopen, ih h, System.run_cons]

/-- What was left stays left. -/
theorem left?_append_of_some
    {t : System}
    (h : wait.left? s first = some t) :
    wait.left? s (first ++ second) = some t := by
  induction first generalizing s with
  | nil =>
      by_cases hover : wait.IsOver s
      · rw [left?_of_over hover] at h ⊢
        exact h
      · rw [left?, if_neg hover] at h
        cases h
  | cons turn first ih =>
      by_cases hover : wait.IsOver s
      · rw [left?_of_over hover] at h ⊢
        exact h
      · rw [left?_cons hover] at h
        rw [List.cons_append, left?_cons hover]
        exact ih h

/-- When the process was given up, nothing is done any more and nothing is left. -/
theorem deeds_of_aborted
    (h : s.aborted.isSome = true) :
    wait.deeds s schedule = [] := by
  induction schedule with
  | nil =>
      rfl
  | cons turn schedule ih =>
      by_cases hover : wait.IsOver s
      · exact deeds_of_over hover
      · obtain ⟨hadvance, hframe⟩ := System.advance_of_aborted h turn
        have hdeed : wait.deed? s turn = none := by
          rw [deed?, hframe]
          exact ite_self none
        rw [deeds_cons hover, hdeed, hadvance, ih]
        rfl

theorem left?_of_aborted
    (h : s.aborted.isSome = true)
    (hopen : ¬ wait.IsOver s) :
    wait.left? s schedule = none := by
  induction schedule with
  | nil =>
      rw [left?, if_neg hopen]
  | cons turn schedule ih =>
      rw [left?_cons hopen, (System.advance_of_aborted h turn).1, ih]

end Records

/-- What can be seen of a wait that has evaluated its condition so many times, and may give out so
many jobs and make so many steal attempts before it does so again. -/
inductive Story (wait : Wait) : Nat → Nat → Nat → List Deed → Option System → Prop where
  /-- It has not been left. -/
  | pending {evaluations jobs tries : Nat} : Story wait evaluations jobs tries [] none
  /-- A panic has ended it from above. -/
  | unwound {evaluations jobs tries : Nat} {s : System}
      (hshort : s.callsOf wait.index ≠ wait.below) :
      Story wait evaluations jobs tries [] (some s)
  /-- The condition holds, and it returns. -/
  | returned {evaluations jobs tries : Nat} {seen : Memory} {s : System}
      (hholds : wait.test (evaluations + 1) seen = .ok true)
      (hreturned : wait.Returned (evaluations + 1) seen s) :
      Story wait evaluations jobs tries [.asks (evaluations + 1) seen] (some s)
  /-- The condition panics. -/
  | failed {evaluations jobs tries : Nat} {seen : Memory} {left : Option System} {cause : Panic}
      (hpanic : wait.test (evaluations + 1) seen = .error cause)
      (hleft : ∀ s, left = some s → s.callsOf wait.index ≠ wait.below) :
      Story wait evaluations jobs tries [.asks (evaluations + 1) seen] left
  /-- The condition does not hold. -/
  | again {evaluations jobs tries : Nat} {seen : Memory} {deeds : List Deed} {left : Option System}
      (hfalse : wait.test (evaluations + 1) seen = .ok false)
      (hrest : Story wait (evaluations + 1) 1 1 deeds left) :
      Story wait evaluations jobs tries (.asks (evaluations + 1) seen :: deeds) left
  | pops {evaluations jobs tries : Nat} {deeds : List Deed} {left : Option System}
      (hhelper : wait.helper ≠ none)
      (hrest : Story wait evaluations jobs tries deeds left) :
      Story wait evaluations jobs tries (.pops :: deeds) left
  | steals {evaluations jobs tries : Nat} {deeds : List Deed} {left : Option System}
      (hhelper : wait.helper ≠ none)
      (target : Nat)
      (hrest : Story wait evaluations jobs tries deeds left) :
      Story wait evaluations jobs (tries + 1) (.steals target :: deeds) left
  | dispatches {evaluations jobs tries : Nat} {deeds : List Deed} {left : Option System}
      (hhelper : wait.helper ≠ none)
      (job : JobId)
      (hrest : Story wait evaluations jobs tries deeds left) :
      Story wait evaluations (jobs + 1) tries (.dispatches job :: deeds) left

namespace Story

variable {wait : Wait} {evaluations jobs tries : Nat} {deeds : List Deed} {left : Option System}

/-- A wait that may do more may do less. -/
theorem mono
    (h : wait.Story evaluations jobs tries deeds left)
    {more others : Nat}
    (hjobs : jobs ≤ more)
    (htries : tries ≤ others) :
    wait.Story evaluations more others deeds left := by
  induction h generalizing more others with
  | pending =>
      exact .pending
  | unwound hshort =>
      exact .unwound hshort
  | returned hholds hreturned =>
      exact .returned hholds hreturned
  | failed hpanic hleft =>
      exact .failed hpanic hleft
  | again hfalse hrest =>
      exact .again hfalse hrest
  | pops hhelper _ ih =>
      exact .pops hhelper (ih hjobs htries)
  | steals hhelper target _ ih =>
      cases others with
      | zero => cases htries
      | succ others => exact .steals hhelper target (ih hjobs (Nat.le_of_succ_le_succ htries))
  | dispatches hhelper job _ ih =>
      cases more with
      | zero => cases hjobs
      | succ more => exact .dispatches hhelper job (ih (Nat.le_of_succ_le_succ hjobs) htries)

/-- What remains of a story after its first deeds is one, in which at most one job and one attempt
are left before the next evaluation if that is so at the beginning. -/
theorem drop
    {before after : List Deed}
    (h : wait.Story evaluations jobs tries (before ++ after) left)
    (hjobs : jobs ≤ 1)
    (htries : tries ≤ 1) :
    ∃ jobs tries left, jobs ≤ 1 ∧ tries ≤ 1 ∧
      wait.Story (evaluations + before.countP Deed.isAsk) jobs tries after left := by
  induction before generalizing evaluations jobs tries with
  | nil =>
      exact ⟨jobs, tries, left, hjobs, htries, h⟩
  | cons deed before ih =>
      rw [List.cons_append] at h
      generalize htail : before ++ after = tail at h
      rw [List.countP_cons, ← Nat.add_assoc, Nat.add_right_comm]
      cases h with
      | returned | failed =>
          obtain ⟨rfl, rfl⟩ := List.append_eq_nil_iff.mp htail
          exact ⟨0, 0, none, Nat.zero_le 1, Nat.zero_le 1, .pending⟩
      | again hfalse hrest =>
          subst htail
          exact ih hrest (Nat.le_refl 1) (Nat.le_refl 1)
      | pops hhelper hrest =>
          subst htail
          exact ih hrest hjobs htries
      | steals hhelper target hrest =>
          subst htail
          exact ih hrest hjobs (Nat.le_of_succ_le htries)
      | dispatches hhelper job hrest =>
          subst htail
          exact ih hrest (Nat.le_of_succ_le hjobs) htries

/-- Evaluations are numbered one after another, and the story goes on only after one that answers
that the condition does not hold. -/
theorem numbered
    {number : Nat} {seen : Memory} {after : List Deed}
    (h : wait.Story evaluations jobs tries (.asks number seen :: after) left) :
    number = evaluations + 1 ∧ (wait.test number seen = .ok false ∨ after = []) := by
  cases h with
  | returned | failed =>
      exact ⟨rfl, .inr rfl⟩
  | again hfalse hrest =>
      exact ⟨rfl, .inl hfalse⟩

/-- Before the next evaluation no more is done than may be done. -/
theorem paced
    {first after : List Deed}
    (h : wait.Story evaluations jobs tries (first ++ after) left)
    (hfirst : ∀ deed ∈ first, deed.isAsk = false) :
    first.countP Deed.isDispatch ≤ jobs ∧ first.countP Deed.isSteal ≤ tries := by
  induction first generalizing jobs tries with
  | nil =>
      exact ⟨Nat.zero_le _, Nat.zero_le _⟩
  | cons deed first ih =>
      obtain ⟨hdeed, hothers⟩ := List.forall_mem_cons.mp hfirst
      rw [List.cons_append] at h
      generalize htail : first ++ after = tail at h
      rw [List.countP_cons, List.countP_cons]
      cases h with
      | returned | failed | again =>
          cases hdeed
      | pops hhelper hrest =>
          subst htail
          exact ih hrest hothers
      | steals hhelper target hrest =>
          subst htail
          obtain ⟨hjobs, htries⟩ := ih hrest hothers
          exact ⟨hjobs, Nat.succ_le_succ htries⟩
      | dispatches hhelper job hrest =>
          subst htail
          obtain ⟨hjobs, htries⟩ := ih hrest hothers
          exact ⟨Nat.succ_le_succ hjobs, htries⟩

/-- When the condition holds, the wait has returned. -/
theorem returns
    (h : wait.Story evaluations jobs tries deeds left)
    {number : Nat} {seen : Memory}
    (hmem : .asks number seen ∈ deeds)
    (hholds : wait.test number seen = .ok true) :
    ∃ s, left = some s ∧ wait.Returned number seen s := by
  induction h with
  | pending | unwound =>
      cases hmem
  | @returned evaluations _ _ other s hother hreturned =>
      cases List.mem_singleton.mp hmem
      exact ⟨s, rfl, hreturned⟩
  | failed hpanic hleft =>
      cases List.mem_singleton.mp hmem
      rw [hholds] at hpanic
      cases hpanic
  | again hfalse hrest ih =>
      rcases List.mem_cons.mp hmem with heq | hmem
      · cases heq
        rw [hholds] at hfalse
        cases hfalse
      · exact ih hmem
  | pops _ _ ih | steals _ _ _ ih | dispatches _ _ _ ih =>
      exact ih ((List.mem_cons.mp hmem).resolve_left nofun)

/-- After each job that is given out the condition was evaluated, beside the first jobs. -/
theorem dispatched_lt
    (h : wait.Story evaluations jobs tries deeds left)
    {number : Nat} {seen : Memory}
    (hmem : .asks number seen ∈ deeds)
    (hholds : wait.test number seen = .ok true) :
    deeds.countP Deed.isDispatch < jobs + deeds.countP Deed.isAsk := by
  induction h with
  | pending | unwound =>
      cases hmem
  | returned | failed =>
      simp [Deed.isDispatch, Deed.isAsk]
  | again hfalse _ ih =>
      rcases List.mem_cons.mp hmem with heq | hmem
      · cases heq
        rw [hholds] at hfalse
        cases hfalse
      · have hrest := ih hmem
        simp [List.countP_cons, Deed.isDispatch, Deed.isAsk]
        omega
  | pops _ _ ih | steals _ _ _ ih | dispatches _ _ _ ih =>
      have hrest := ih ((List.mem_cons.mp hmem).resolve_left nofun)
      simp [List.countP_cons, Deed.isDispatch, Deed.isAsk]
      omega

/-- When the wait has returned, the condition holds. -/
theorem of_left
    {s : System}
    (h : wait.Story evaluations jobs tries deeds (some s))
    (hcalls : s.callsOf wait.index = wait.below) :
    ∃ number seen, .asks number seen ∈ deeds ∧ wait.test number seen = .ok true := by
  generalize hleft : some s = left at h
  induction h with
  | pending =>
      cases hleft
  | unwound hshort =>
      cases hleft
      exact absurd hcalls hshort
  | returned hholds hreturned =>
      exact ⟨_, _, List.mem_singleton_self _, hholds⟩
  | failed hpanic hother =>
      exact absurd hcalls (hother s hleft.symm)
  | again _ _ ih | pops _ _ ih | steals _ _ _ ih | dispatches _ _ _ ih =>
      obtain ⟨number, seen, hmem, hholds⟩ := ih hleft
      exact ⟨number, seen, List.mem_cons_of_mem _ hmem, hholds⟩

/-- No number is left out. -/
theorem exists_ask
    (h : wait.Story evaluations jobs tries deeds left)
    {number : Nat}
    (hfirst : evaluations < number)
    (hlast : number ≤ evaluations + deeds.countP Deed.isAsk) :
    ∃ seen, .asks number seen ∈ deeds := by
  induction h with
  | pending | unwound =>
      simp at hlast
      omega
  | returned | failed =>
      simp [Deed.isAsk] at hlast
      obtain rfl := Nat.le_antisymm hlast hfirst
      exact ⟨_, List.mem_singleton_self _⟩
  | @again evaluations _ _ seen _ _ _ _ ih =>
      by_cases hone : number = evaluations + 1
      · exact ⟨seen, hone ▸ List.mem_cons_self⟩
      · simp [List.countP_cons, Deed.isAsk] at hlast
        obtain ⟨other, hmem⟩ := ih (by omega) (by omega)
        exact ⟨other, List.mem_cons_of_mem _ hmem⟩
  | pops _ _ ih | steals _ _ _ ih | dispatches _ _ _ ih =>
      obtain ⟨seen, hmem⟩ := ih hfirst hlast
      exact ⟨seen, List.mem_cons_of_mem _ hmem⟩

/-- The evaluation that answers that the condition holds is the last thing that is done. -/
theorem last_of_holds
    (h : wait.Story evaluations jobs tries deeds left)
    (hjobs : jobs ≤ 1)
    (htries : tries ≤ 1)
    {number : Nat} {seen : Memory}
    (hmem : .asks number seen ∈ deeds)
    (hholds : wait.test number seen = .ok true) :
    number = evaluations + deeds.countP Deed.isAsk := by
  obtain ⟨before, after, rfl⟩ := List.append_of_mem hmem
  obtain ⟨_, _, _, -, -, hlast⟩ := h.drop hjobs htries
  obtain ⟨hnumber, hafter⟩ := hlast.numbered
  obtain rfl : after = [] := hafter.resolve_left (by rw [hholds]; nofun)
  rw [hnumber, List.countP_append]
  rfl

/-- A wait whose condition holds from the evaluation of that number on makes so many evaluations,
and gives out fewer jobs. -/
theorem counts
    (h : wait.Story 0 0 0 deeds left)
    {n : Nat}
    (hfrom : ∀ number seen, .asks number seen ∈ deeds →
      wait.test number seen = .ok (decide (n ≤ number)))
    {number : Nat} {seen : Memory}
    (hmem : .asks number seen ∈ deeds)
    (hholds : wait.test number seen = .ok true) :
    deeds.countP Deed.isAsk = max n 1 ∧ deeds.countP Deed.isDispatch ≤ max n 1 - 1 := by
  have hfew := h.dispatched_lt hmem hholds
  have hnumber := h.last_of_holds (Nat.zero_le 1) (Nat.zero_le 1) hmem hholds
  have hle : n ≤ number := by
    have hanswer := hfrom number seen hmem
    rw [hholds] at hanswer
    exact of_decide_eq_true (Except.ok.inj hanswer).symm
  -- An earlier evaluation with this answer would have been the last one too.
  have hge : number ≤ max n 1 := by
    rcases Nat.lt_or_ge (max n 1) number with hmore | hge
    · obtain ⟨other, hother⟩ : ∃ other, .asks (number - 1) other ∈ deeds :=
        h.exists_ask (by omega) (by omega)
      have hanswer := hfrom _ other hother
      rw [decide_eq_true (show n ≤ number - 1 by omega)] at hanswer
      have hsame := h.last_of_holds (Nat.zero_le 1) (Nat.zero_le 1) hother hanswer
      omega
    · exact hge
  omega

/-- A wait that may not run other jobs only evaluates its condition. -/
theorem asks_only
    (h : wait.Story evaluations jobs tries deeds left)
    (hhelper : wait.helper = none) :
    ∀ deed ∈ deeds, deed.isAsk = true := by
  induction h with
  | pending | unwound =>
      exact nofun
  | returned | failed =>
      exact List.forall_mem_singleton.mpr rfl
  | again _ _ ih =>
      exact List.forall_mem_cons.mpr ⟨rfl, ih⟩
  | pops hsome | steals hsome | dispatches hsome =>
      exact absurd hhelper hsome

end Story

end Wait
end Machine
end WorkStealing
