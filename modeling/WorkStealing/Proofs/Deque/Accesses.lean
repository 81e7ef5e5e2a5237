import WorkStealing.Proofs.Deque.Conservation
import WorkStealing.Proofs.Deque.Refinement

/-!
# Accesses within bounds

No routine touches a slot that its deque does not have, nor counts an index beyond
its word. All that it needs from other users is that they leave the bottom within
the slots, and it does the same for them. So any number of users may make their
accesses in any order, as owners and as thieves, and reset the deque meanwhile.
-/

namespace WorkStealing
namespace Routine

variable {α β : Type}

/-- The routine touches the first so many slots only and leaves the bottom within them, if others
do so too. What it comes to is as expected. -/
def Confined (capacity : Nat) (expected : Except Failure β → Prop) : Routine α β → Prop
  | done result => expected (.ok result)
  | fail cause => expected (.error cause)
  | loadAge next => ∀ word, Confined capacity expected (next word)
  | storeAge _ next => Confined capacity expected next
  | swapAge _ _ next => ∀ won, Confined capacity expected (next won)
  | loadBottom next =>
    ∀ bottom : UInt32, bottom.toNat ≤ capacity → Confined capacity expected (next bottom)
  | storeBottom bottom next => bottom.toNat ≤ capacity ∧ Confined capacity expected next
  | loadSlot index next => index.toNat < capacity ∧ ∀ job, Confined capacity expected (next job)
  | storeSlot index _ next => index.toNat < capacity ∧ Confined capacity expected next

/-- One access leaves the bottom within the slots, and the rest of the routine confined. -/
theorem Confined.step
    {d : Deque α} {routine : Routine α β} {expected : Except Failure β → Prop}
    (h : routine.Confined d.capacity expected)
    (hbottom : d.bottom.toNat ≤ d.capacity) :
    (routine.step d).1.bottom.toNat ≤ d.capacity ∧
      (routine.step d).2.Confined d.capacity expected := by
  cases routine with
  | done result | fail cause =>
      exact ⟨hbottom, h⟩
  | loadAge next =>
      exact ⟨hbottom, h d.ageWord⟩
  | storeAge word next =>
      exact ⟨hbottom, h⟩
  | swapAge expected word next =>
      simp only [Routine.step]
      split
      · exact ⟨hbottom, h true⟩
      · exact ⟨hbottom, h false⟩
  | loadBottom next =>
      exact ⟨hbottom, h d.bottom hbottom⟩
  | storeBottom bottom next =>
      exact h
  | loadSlot index next =>
      rw [Routine.step, if_pos h.1]
      exact ⟨hbottom, h.2 _⟩
  | storeSlot index job next =>
      rw [Routine.step, if_pos h.1]
      exact ⟨hbottom, h.2⟩

/-- What holds of the deque after the routine, and of what the routine comes to. -/
theorem Confined.run
    {d : Deque α} {routine : Routine α β} {expected : Except Failure β → Prop}
    (h : routine.Confined d.capacity expected)
    (hbottom : d.bottom.toNat ≤ d.capacity) :
    (routine.run d).1.bottom.toNat ≤ d.capacity ∧ expected (routine.run d).2 := by
  induction routine generalizing d with
  | done result | fail cause =>
      exact ⟨hbottom, h⟩
  | loadAge next ih =>
      exact ih _ (h _) hbottom
  | storeAge word next ih =>
      exact ih (d := { d with ageWord := word }) h hbottom
  | swapAge expected word next ih =>
      simp only [Routine.run]
      split
      · exact ih true (d := { d with ageWord := word }) (h true) hbottom
      · exact ih false (h false) hbottom
  | loadBottom next ih =>
      exact ih _ (h _ hbottom) hbottom
  | storeBottom bottom next ih =>
      exact ih (d := { d with bottom }) h.2 h.1
  | loadSlot index next ih =>
      rw [Routine.run, if_pos h.1]
      exact ih _ (h.2 _) hbottom
  | storeSlot index job next ih =>
      rw [Routine.run, if_pos h.1]
      exact ih (d := d.setSlot index.toNat job) h.2 hbottom

theorem Confined.mono
    {capacity : Nat} {routine : Routine α β} {expected other : Except Failure β → Prop}
    (h : routine.Confined capacity expected)
    (hother : ∀ outcome, expected outcome → other outcome) :
    routine.Confined capacity other := by
  induction routine with
  | done result | fail cause =>
      exact hother _ h
  | loadAge next ih | swapAge _ _ next ih =>
      exact fun read => ih read (h read)
  | storeAge word next ih =>
      exact ih h
  | loadBottom next ih =>
      exact fun bottom hbottom => ih bottom (h bottom hbottom)
  | storeBottom bottom next ih | storeSlot index job next ih =>
      exact ⟨h.1, ih h.2⟩
  | loadSlot index next ih =>
      exact ⟨h.1, fun job => ih job (h.2 job)⟩

/-- A push is carried out, or refused because all slots are used. -/
def PushEnds (capacity : Nat) (outcome : Except Failure (Except Error Unit)) : Prop :=
  outcome = .ok (.ok ()) ∨ outcome = .ok (.error (.dequeOverflow capacity))

/-- A pop fails only if it needs a new tag and there is none. -/
def PopEnds (outcome : Except Failure (Option α)) : Prop :=
  ∀ cause, outcome = .error cause → cause = .error .tagExhausted

def StealEnds (outcome : Except Failure (Option α)) : Prop :=
  ∀ cause, outcome ≠ .error cause

/-- A reset fails only at a deque with jobs in it, or if there is no new tag. -/
def ResetEnds (outcome : Except Failure Unit) : Prop :=
  ∀ cause, outcome = .error cause → cause = .panic .resetNonEmpty ∨ cause = .error .tagExhausted

section Operations

variable {capacity : Nat}

theorem confined_push
    (hcapacity : capacity ≤ maxCapacity)
    (job : α) :
    (push capacity job).Confined capacity (PushEnds capacity) := by
  intro bottom hbottom
  dsimp only
  split
  next hroom =>
    obtain ⟨next, hnext, hpublish⟩ := publish_eq (α := α) bottom (by omega)
    rw [hpublish]
    exact ⟨hroom, by omega, .inl rfl⟩
  next =>
    exact .inr rfl

/-- A thief finds a job in its slot only below the bottom. -/
theorem confined_steal
    (hcapacity : capacity ≤ maxCapacity) :
    (steal : Routine α (Option α)).Confined capacity StealEnds := by
  intro word bottom hbottom
  dsimp only
  split
  next =>
    simp [Confined, StealEnds]
  next htop =>
    have hlt : (Age.unpack word).top.toNat < bottom.toNat :=
      UInt32.lt_iff_toNat_lt.mp (UInt32.not_le.mp htop)
    refine ⟨by omega, fun job => ?_⟩
    obtain ⟨top, -, hclaim⟩ := claim_eq word job (by omega)
    rw [hclaim]
    simp [Confined, StealEnds]

theorem confined_contend
    (bottom : UInt32) (job : Option α) (word : UInt64) :
    (contend bottom job word).Confined capacity PopEnds := by
  unfold contend
  split
  · simp [Confined, PopEnds]
  · split
    · intro won
      cases won <;> simp [Confined, restart, PopEnds]
    · simp [Confined, restart, PopEnds]

theorem confined_pop :
    (pop : Routine α (Option α)).Confined capacity PopEnds := by
  intro bottom hbottom
  dsimp only
  split
  next =>
    simp [Confined, PopEnds]
  next hne =>
    have hpos : bottom.toNat ≠ 0 := fun hzero => hne (UInt32.toNat_inj.mp hzero)
    have hpred : (bottom - 1).toNat = bottom.toNat - 1 :=
      UInt32.toNat_sub_of_le _ _ (UInt32.le_iff_toNat_le.mpr (by simp; omega))
    refine ⟨by omega, by omega, fun job word => ?_⟩
    unfold popAt
    split
    · simp [Confined, PopEnds]
    · exact ⟨Nat.zero_le _, confined_contend _ _ _⟩

/-- Writes what a reset writes, from the age that it has read. -/
def rewind (word : UInt64) : Routine α Unit :=
  match (Age.unpack word).restarted? with
  | none => .fail (.error .tagExhausted)
  | some fresh => .storeBottom 0 (.storeAge fresh.pack (.done ()))

/-- A reset that has found no jobs and has read the age again. -/
def resetAt (word : UInt64) : Routine α Unit :=
  if (Age.unpack word).top = 0 then
    .loadBottom fun bottom => if bottom = 0 then .done () else rewind word
  else rewind word

/-- Puts an empty deque back to its first slot, access by access. -/
def reset : Routine α Unit :=
  .loadAge fun word =>
    .loadBottom fun bottom =>
      if (Age.unpack word).top < bottom then .fail (.panic .resetNonEmpty) else .loadAge resetAt

theorem confined_rewind
    (word : UInt64) :
    (rewind word : Routine α Unit).Confined capacity ResetEnds := by
  unfold rewind
  split <;> simp [Confined, ResetEnds]

theorem confined_reset :
    (reset : Routine α Unit).Confined capacity ResetEnds := by
  intro word bottom hbottom
  dsimp only
  split
  · simp [Confined, ResetEnds]
  · intro again
    unfold resetAt
    split
    · intro bottom hbottom
      dsimp only
      split
      · simp [Confined, ResetEnds]
      · exact confined_rewind again
    · exact confined_rewind again

/-- A reset that nobody disturbs is the reset of the deque in one go. -/
theorem run_reset
    (d : Deque α) :
    reset.run d =
      match d.reset with
      | .ok next => (next, .ok ())
      | .error cause => (d, .error cause) := by
  have hempty : d.isEmpty = false ↔ d.age.top < d.bottom := by
    simp only [Deque.isEmpty, Deque.size, UInt32.lt_iff_toNat_lt, beq_eq_false_iff_ne]
    omega
  have hrewind : (rewind d.ageWord : Routine α Unit).run d =
      match d.age.restarted? with
      | none => (d, .error (.error .tagExhausted))
      | some fresh => ({ d with bottom := 0, ageWord := fresh.pack }, .ok ()) := by
    unfold rewind
    simp only [Deque.age]
    split <;> rfl
  have hage : Age.unpack d.ageWord = d.age := rfl
  simp only [reset, run, Deque.reset, hempty, hage]
  split
  · rfl
  · simp only [run, resetAt, hage]
    by_cases htop : d.age.top = 0
    · by_cases hbottom : d.bottom = 0
      · simp [htop, hbottom, run]
      · simp only [htop, hbottom, run, if_true, if_false, and_false, hrewind]
        cases d.age.restarted? <;> rfl
    · simp only [htop, if_false, false_and, hrewind]
      cases d.age.restarted? <;> rfl

end Operations
end Routine

namespace Deque

variable {α : Type}

/-- An operation that a user is in the middle of, or has brought to its end. -/
inductive Task (α : Type) where
  | pushing (routine : Routine α (Except Error Unit))
  | taking (routine : Routine α (Option α))
  | resetting (routine : Routine α Unit)

/-- The operation that carries out a request to a deque with so many slots. -/
def Order.task (capacity : Nat) : Order α → Task α
  | .push job => .pushing (.push capacity job)
  | .pop => .taking .pop
  | .steal => .taking .steal
  | .reset => .resetting .reset

namespace Task

def step (d : Deque α) : Task α → Deque α × Task α
  | pushing routine => ((routine.step d).1, pushing (routine.step d).2)
  | taking routine => ((routine.step d).1, taking (routine.step d).2)
  | resetting routine => ((routine.step d).1, resetting (routine.step d).2)

def Failed (cause : Failure) (task : Task α) : Prop :=
  task = pushing (.fail cause) ∨ task = taking (.fail cause) ∨ task = resetting (.fail cause)

def Confined (capacity : Nat) : Task α → Prop
  | pushing routine => routine.Confined capacity (Routine.PushEnds capacity)
  | taking routine => routine.Confined capacity Routine.PopEnds
  | resetting routine => routine.Confined capacity Routine.ResetEnds

theorem confined_order
    {capacity : Nat}
    (hcapacity : capacity ≤ maxCapacity)
    (order : Order α) :
    (order.task capacity).Confined capacity := by
  cases order with
  | push job =>
      exact Routine.confined_push hcapacity job
  | pop =>
      exact Routine.confined_pop
  | steal =>
      exact (Routine.confined_steal hcapacity).mono
        fun outcome h cause hfail => absurd hfail (h cause)
  | reset =>
      exact Routine.confined_reset

theorem Confined.step
    {d : Deque α} {task : Task α}
    (h : task.Confined d.capacity)
    (hbottom : d.bottom.toNat ≤ d.capacity) :
    (task.step d).1.bottom.toNat ≤ d.capacity ∧ (task.step d).2.Confined d.capacity := by
  cases task with
  | pushing routine | taking routine | resetting routine =>
      exact Routine.Confined.step h hbottom

/-- An operation that stays within the slots fails only at a reset with jobs left, or if there is
no new tag. -/
theorem Confined.cause_eq
    {capacity : Nat} {task : Task α} {cause : Failure}
    (h : task.Confined capacity)
    (hfailed : task.Failed cause) :
    cause = .panic .resetNonEmpty ∨ cause = .error .tagExhausted := by
  rcases hfailed with rfl | rfl | rfl
  · rcases h with hdone | hdone <;> cases hdone
  · exact .inr (h cause rfl)
  · exact h cause rfl

end Task

/-- A deque with all operations that anybody has ever begun on it. -/
structure Crowd (α : Type) where
  deque : Deque α
  tasks : Array (Task α) := #[]

namespace Crowd

/-- What can happen next. -/
inductive Move (α : Type) where
  /-- Somebody begins an operation. -/
  | enter (order : Order α)
  /-- The operation of that number goes on with its next access. -/
  | access (index : Nat)

def move (c : Crowd α) : Move α → Crowd α
  | .enter order => { c with tasks := c.tasks.push (order.task c.deque.capacity) }
  | .access index =>
    match c.tasks[index]? with
    | none => c
    | some task =>
      { deque := (task.step c.deque).1
        tasks := c.tasks.setIfInBounds index (task.step c.deque).2 }

def play (c : Crowd α) (moves : List (Move α)) : Crowd α :=
  moves.foldl move c

/-- The bottom and all operations are within the slots. -/
structure Confined (c : Crowd α) : Prop where
  bottom : c.deque.bottom.toNat ≤ c.deque.capacity
  tasks : ∀ task ∈ c.tasks, task.Confined c.deque.capacity

theorem capacity_step
    (d : Deque α) (task : Task α) :
    (task.step d).1.capacity = d.capacity := by
  cases task with
  | pushing routine | taking routine | resetting routine =>
      exact Routine.capacity_step d routine

theorem Confined.move
    {c : Crowd α}
    (h : c.Confined)
    (m : Move α) :
    (c.move m).Confined := by
  cases m with
  | enter order =>
      refine ⟨h.bottom, fun task htask => ?_⟩
      rcases Array.mem_push.mp htask with hold | rfl
      · exact h.tasks task hold
      · exact Task.confined_order c.deque.capacity_le order
  | access index =>
      simp only [Crowd.move]
      split
      · exact h
      next task htask =>
        obtain ⟨hbottom, hrest⟩ := (h.tasks task (Array.mem_of_getElem? htask)).step h.bottom
        have hcapacity := capacity_step c.deque task
        refine ⟨hcapacity ▸ hbottom, fun other hother => ?_⟩
        rw [hcapacity]
        rcases Array.mem_or_eq_of_mem_setIfInBounds hother with hold | rfl
        · exact h.tasks other hold
        · exact hrest

theorem Confined.play
    {c : Crowd α}
    (h : c.Confined)
    (moves : List (Move α)) :
    (c.play moves).Confined := by
  induction moves generalizing c with
  | nil =>
      exact h
  | cons m moves ih =>
      exact ih (h.move m)

/-- However many users a deque has and in whatever order they make their accesses, an operation
fails only at a reset with jobs left, or if there is no new tag. -/
theorem cause_of_play
    {d : Deque α}
    (hbottom : d.bottom.toNat ≤ d.capacity)
    (moves : List (Move α))
    {task : Task α}
    (htask : task ∈ (play { deque := d } moves).tasks)
    {cause : Failure}
    (hfailed : task.Failed cause) :
    cause = .panic .resetNonEmpty ∨ cause = .error .tagExhausted := by
  have hstart : Confined { deque := d } := ⟨hbottom, by simp⟩
  exact ((hstart.play moves).tasks task htask).cause_eq hfailed

end Crowd
end Deque
end WorkStealing
