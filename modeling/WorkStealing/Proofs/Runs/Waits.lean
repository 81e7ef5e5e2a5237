import WorkStealing.Proofs.Runs.Deeds
import WorkStealing.Proofs.Runs.Faults

/-!
# The steps of a wait

A wait whose condition does not hold comes back to its next evaluation after a bounded
number of its own steps: each step that does not evaluate pays for what it does with what
may be done before the next evaluation (`Frame.Spends`), and a round of attempts is never
empty (`Scheduler.Steady`). What one step does is told for the wait's own turn
(`Wait.Stands.acts`), and for every other turn, in which the jobs above the wait or
other threads go on (`Wait.Stands.idles`).
-/

namespace WorkStealing
namespace Machine

namespace LoopPoint

/-- The jobs that a loop may give out before it asks again. -/
def jobsLeft : LoopPoint → Nat
  | .poll => 0
  | .trial _ => 0
  | _ => 1

def triesLeft : LoopPoint → Nat
  | .aim _ => 1
  | .advance _ _ => 1
  | .count _ _ => 1
  | .steal _ _ => 1
  | _ => 0

/-- The most steps that a loop takes before it asks again. -/
def stepsLeft : LoopPoint → Nat
  | .poll => 0
  | .trial 0 => 1
  | .trial (_ + 1) => 0
  | .dispatch _ => 1
  | .popped _ => 2
  | .stolen _ => 2
  | .pop => 3
  | .steal _ _ => 3
  | .count _ _ => 4
  | .advance _ _ => 5
  | .aim _ => 6

/-- A step from the first point to the second one that does this, and does not ask, is paid for by
what may be done before the loop asks again. -/
def spends (point next : LoopPoint) (deed : Option Deed) : Bool :=
  deed.all (fun deed => !deed.isAsk) &&
    decide (deed.toList.countP Deed.isDispatch + next.jobsLeft ≤ point.jobsLeft) &&
    decide (deed.toList.countP Deed.isSteal + next.triesLeft ≤ point.triesLeft) &&
    decide (next.stepsLeft < point.stepsLeft)

end LoopPoint

namespace Frame

def jobsLeft : Frame → Nat
  | .loop point _ _ _ => point.jobsLeft
  | _ => 0

def triesLeft : Frame → Nat
  | .loop point _ _ _ => point.triesLeft
  | _ => 0

def stepsLeft : Frame → Nat
  | .loop point _ _ _ => point.stepsLeft
  | _ => 0

/-- A step from the first frame to the second one that does this, and does not ask, is paid for by
what may be done before the wait asks again. -/
structure Spends (frame next : Frame) (deed : Option Deed) : Prop where
  silent : ∀ done : Deed, done ∈ deed → done.isAsk = false
  jobs : deed.toList.countP Deed.isDispatch + next.jobsLeft ≤ frame.jobsLeft
  tries : deed.toList.countP Deed.isSteal + next.triesLeft ≤ frame.triesLeft
  steps : next.stepsLeft < frame.stepsLeft

theorem spends_loop
    {point next : LoopPoint} {deed : Option Deed}
    (h : point.spends next deed = true)
    (worker : Nat) (stop : Stop) (evaluations : Nat) :
    Spends (.loop point worker stop evaluations) (.loop next worker stop evaluations) deed := by
  simp only [LoopPoint.spends, Bool.and_eq_true, decide_eq_true_eq] at h
  obtain ⟨⟨⟨hsilent, hjobs⟩, htries⟩, hsteps⟩ := h
  refine ⟨?_, hjobs, htries, hsteps⟩
  rintro other rfl
  simpa using hsilent

theorem jobsLeft_le
    (frame : Frame) :
    frame.jobsLeft ≤ 1 := by
  cases frame with
  | loop point => cases point <;> simp [jobsLeft, LoopPoint.jobsLeft]
  | _ => simp [jobsLeft]

theorem triesLeft_le
    (frame : Frame) :
    frame.triesLeft ≤ 1 := by
  cases frame with
  | loop point => cases point <;> simp [triesLeft, LoopPoint.triesLeft]
  | _ => simp [triesLeft]

theorem stepsLeft_le
    (frame : Frame) :
    frame.stepsLeft ≤ 6 := by
  cases frame with
  | loop point =>
      cases point with
      | trial left => cases left <;> simp [stepsLeft, LoopPoint.stepsLeft]
      | _ => simp [stepsLeft, LoopPoint.stepsLeft]
  | _ => simp [stepsLeft]

end Frame

end Machine

/-- A scheduler with what its workers rely on while they look for jobs. -/
structure Scheduler.Steady (deques capacity : Nat) (s : Scheduler) : Prop where
  pos : 0 < deques
  word : deques < UInt64.size
  sound : s.Sound deques capacity
  trials : 0 < s.stealTrials

theorem Scheduler.Steady.continues
    {deques capacity : Nat} {s t : Scheduler}
    (h : s.Steady deques capacity)
    (hcontinues : s.Continues t) :
    t.Steady deques capacity :=
  ⟨h.pos, h.word, h.sound.continues hcontinues, hcontinues.stealTrials ▸ h.trials⟩

theorem Scheduler.steady_of_build
    {config : Config} {offered : UInt64} {s : Scheduler}
    (h : build config offered = .ok s) :
    s.Steady s.dequeCount config.dequeCapacity.toNat :=
  have hnew := isNew_of_build h
  ⟨hnew.deques, hnew.word, sound_of_build h, hnew.trials⟩

namespace Machine
namespace Wait

/-- The frame is that of the wait, which has evaluated its condition so many times. -/
inductive Plays (wait : Wait) (deques evaluations : Nat) : Frame → Prop where
  | loop {point : LoopPoint} {worker : Nat}
      (hhelper : wait.helper = some worker)
      (hwithin : (Frame.loop point worker (.condition wait.test) evaluations).Within deques) :
      Plays wait deques evaluations (.loop point worker (.condition wait.test) evaluations)
  | poll
      (hhelper : wait.helper = none) :
      Plays wait deques evaluations (.poll (.condition wait.test) evaluations)

/-- What the wait's frame comes to in one step. -/
inductive Turns (wait : Wait) (deques evaluations : Nat) (w : World) (identity : Option Nat)
    (frame : Frame) : Move → Prop where
  | returns
      (hdeed : frame.deed? w.toMemory = some (.asks (evaluations + 1) w.toMemory))
      (hholds : wait.test (evaluations + 1) w.toMemory = .ok true) :
      Turns wait deques evaluations w identity frame
        (.go (w.emit (.waited (evaluations + 1))) identity [])
  | asks {next : Frame}
      (hdeed : frame.deed? w.toMemory = some (.asks (evaluations + 1) w.toMemory))
      (hholds : wait.test (evaluations + 1) w.toMemory = .ok false)
      (hplays : wait.Plays deques (evaluations + 1) next) :
      Turns wait deques evaluations w identity frame (.go w identity [next])
  | panics {cause : Panic}
      (hdeed : frame.deed? w.toMemory = some (.asks (evaluations + 1) w.toMemory))
      (hholds : wait.test (evaluations + 1) w.toMemory = .error cause) :
      Turns wait deques evaluations w identity frame (.fail w (.panic cause))
  /-- It does something else, or only goes on. -/
  | works {world : World} {next : Frame} (above : List Frame)
      (hhelper : wait.helper ≠ none)
      (hspends : frame.Spends next (frame.deed? w.toMemory))
      (hplays : wait.Plays deques evaluations next)
      (habove : above ≠ [] → next.stepsLeft = 0) :
      Turns wait deques evaluations w identity frame (.go world identity (above ++ [next]))
  /-- No tag is left for a pop. -/
  | exhausted
      (hhelper : wait.helper ≠ none)
      (hdeed : frame.deed? w.toMemory = some .pops) :
      Turns wait deques evaluations w identity frame (.fail w (.error .tagExhausted))

section Steps

variable {wait : Wait} {deques capacity evaluations : Nat} {w : World} {identity : Option Nat}
  {frame : Frame}

/-- An operation of the scheduler, and what comes after it. -/
theorem Turns.schedule
    {β : Type} {operation : Scheduler → Except Failure (Scheduler × β)}
    {answers : β → Prop} {fails : Failure → Prop} {continuation : World → β → Move}
    (hsettles : Settles (Scheduler.Sound deques capacity) answers fails (operation w.scheduler))
    (hfails : ∀ cause, fails cause →
      Turns wait deques evaluations w identity frame (.fail w cause))
    (hnext : ∀ scheduler answer, operation w.scheduler = .ok (scheduler, answer) →
      scheduler.Sound deques capacity →
      Turns wait deques evaluations w identity frame
        (continuation { w with scheduler } answer)) :
    Turns wait deques evaluations w identity frame (w.schedule operation continuation) := by
  cases hresult : operation w.scheduler with
  | error cause =>
      rw [hresult] at hsettles
      rw [World.schedule_of_error _ _ _ hresult]
      exact hfails cause hsettles
  | ok result =>
      rw [hresult] at hsettles
      rw [World.schedule_of_ok _ _ _ hresult]
      exact hnext _ _ hresult hsettles.1

/-- The wait asks whether to return. -/
theorem turns_ask
    {next : Frame}
    (worker : Nat)
    (hdeed : frame.deed? w.toMemory = some (.asks (evaluations + 1) w.toMemory))
    (hplays : wait.Plays deques (evaluations + 1) next) :
    Turns wait deques evaluations w identity frame
      (match (Stop.condition wait.test).holds (evaluations + 1) w.toMemory with
        | .error cause => .fail w (.panic cause)
        | .ok true => .go ((Stop.condition wait.test).leave (evaluations + 1) worker w) identity []
        | .ok false => .go w identity [next]) := by
  simp only [Stop.holds, Stop.leave]
  split
  next hholds => exact .panics hdeed hholds
  next hholds => exact .returns hdeed hholds
  next hholds => exact .asks hdeed hholds hplays

/-- A step of a loop that waits. -/
theorem turns_loop
    (hsteady : w.scheduler.Steady deques capacity)
    {point : LoopPoint} {worker : Nat}
    (hhelper : wait.helper = some worker)
    (hwithin : (Frame.loop point worker (.condition wait.test) evaluations).Within deques) :
    Turns wait deques evaluations w identity
      (.loop point worker (.condition wait.test) evaluations)
      (point.step w identity worker (.condition wait.test) evaluations) := by
  obtain ⟨hworker, hpoint⟩ := hwithin
  obtain ⟨hpos, hword, hsound, htrials⟩ := hsteady
  have hsome : wait.helper ≠ none := by
    rw [hhelper]
    exact Option.some_ne_none worker
  have hplays : ∀ (next : LoopPoint) (count : Nat), next.Within deques →
      wait.Plays deques count (.loop next worker (.condition wait.test) count) :=
    fun next count hnext => .loop hhelper ⟨hworker, hnext⟩
  have hstay : ∀ (world : World) (next : LoopPoint),
      point.spends next ((Frame.loop point worker (.condition wait.test) evaluations).deed?
        w.toMemory) = true →
      next.Within deques →
      Turns wait deques evaluations w identity
        (.loop point worker (.condition wait.test) evaluations)
        (.go world identity [.loop next worker (.condition wait.test) evaluations]) :=
    fun world next hspends hnext =>
      .works [] hsome (Frame.spends_loop hspends _ _ _) (hplays next _ hnext)
        (fun habove => absurd rfl habove)
  obtain ⟨trials, htrials⟩ := Nat.exists_eq_add_of_lt htrials
  rw [Nat.zero_add] at htrials
  cases point with
  | poll =>
      exact turns_ask worker rfl (hplays .pop _ trivial)
  | pop =>
      simp only [LoopPoint.step]
      refine .schedule (hsound.pop hworker) ?_ fun scheduler answer hpop _ => ?_
      · rintro cause rfl
        exact .exhausted hsome rfl
      · cases answer with
        | some job =>
            exact hstay _ (.popped job) rfl trivial
        | none =>
            simp only [(Scheduler.Upholds.pop hpop).stealTrials, htrials]
            exact hstay _ (.trial (trials + 1)) rfl trivial
  | trial left =>
      cases left with
      | zero =>
          simp only [LoopPoint.step]
          refine .schedule (hsound.bump hworker _) (fun _ => False.elim)
            fun scheduler _ hbump _ => ?_
          simp only [(Scheduler.Upholds.bump hbump).stealTrials, htrials]
          exact hstay _ (.trial (trials + 1)) rfl trivial
      | succ left =>
          exact turns_ask worker rfl (hplays (.aim left) _ trivial)
  | aim left =>
      simp only [LoopPoint.step]
      exact .schedule (hsound.loadAttempt hworker) (fun _ => False.elim)
        fun _ attempt _ _ => hstay _ (.advance left attempt) rfl trivial
  | advance left attempt =>
      simp only [LoopPoint.step]
      refine .schedule (hsound.storeAttempt hworker _) (fun _ => False.elim)
        fun scheduler _ _ hnext => ?_
      have hcount := hnext.count
      obtain ⟨target, hvictim, htarget⟩ :=
        scheduler.exists_victim (by omega) (by omega) worker attempt
      simp only [hvictim]
      exact hstay _ (.count left target) rfl (hcount ▸ htarget)
  | count left target =>
      simp only [LoopPoint.step]
      exact .schedule (hsound.bump hworker _) (fun _ => False.elim)
        fun _ _ _ _ => hstay _ (.steal left target) rfl hpoint
  | steal left target =>
      simp only [LoopPoint.step]
      refine .schedule (hsound.steal hpoint) (fun _ => False.elim) fun scheduler answer _ _ => ?_
      cases answer with
      | some job => exact hstay _ (.stolen job) rfl trivial
      | none => cases left <;> exact hstay _ (.trial _) rfl trivial
  | popped job | stolen job =>
      simp only [LoopPoint.step]
      exact .schedule (hsound.bump hworker _) (fun _ => False.elim)
        fun _ _ _ _ => hstay _ (.dispatch job) rfl trivial
  | dispatch job =>
      simp only [LoopPoint.step]
      refine .schedule (hsound.bump hworker _) (fun _ => False.elim) fun _ _ _ _ => ?_
      have hspends : LoopPoint.spends (.dispatch job) .poll (some (.dispatches job)) = true := rfl
      exact .works [.execute job] hsome (Frame.spends_loop hspends _ _ _)
        (hplays .poll _ trivial) fun _ => rfl

/-- A step of a wait. -/
theorem Plays.turns
    (h : wait.Plays deques evaluations frame)
    (hsteady : w.scheduler.Steady deques capacity) :
    Turns wait deques evaluations w identity frame (frame.step w identity) := by
  cases h with
  | loop hhelper hwithin => exact turns_loop hsteady hhelper hwithin
  | poll hhelper => exact turns_ask 0 rfl (.poll hhelper)

end Steps

/-- The wait is open, with its frame below what it executes meanwhile. -/
structure Stands (wait : Wait) (deques evaluations : Nat) (frame : Frame) (above : List Frame)
    (s : System) : Prop where
  calls : s.callsOf wait.index = above ++ frame :: wait.below
  plays : wait.Plays deques evaluations frame
  /-- Below a job the wait is about to ask. -/
  rests : above ≠ [] → frame.stepsLeft = 0

end Wait

namespace System

variable {s : System} {index turn : Nat} {thread : Thread} {w : World} {threads : Array Thread}
  {identity : Option Nat} {below : List Frame}

theorem callsOf_of_thread
    (h : s.threads[index]? = some thread) :
    s.callsOf index = thread.frames := by
  rw [callsOf, h]

theorem exists_thread
    (h : s.callsOf index ≠ []) :
    ∃ thread, s.threads[index]? = some thread ∧ thread.frames = s.callsOf index := by
  cases hthread : s.threads[index]? with
  | none =>
      rw [callsOf, hthread] at h
      exact absurd rfl h
  | some thread =>
      exact ⟨thread, rfl, (callsOf_of_thread hthread).symm⟩

theorem callsOf_set
    (hin : index < threads.size)
    (w : World) (thread : Thread) :
    callsOf { world := w, threads := threads.setIfInBounds index thread } index = thread.frames :=
  callsOf_of_thread (Array.getElem?_setIfInBounds_self_of_lt hin)

/-- The calls of a thread through which a panic goes: there are none any more, or it was caught at
the end of a region, or it may not pass. -/
theorem callsOf_raise
    (hin : index < threads.size)
    (cause : Panic) :
    (raise w threads index identity below cause).callsOf index = [] ∨
      (∃ crew outer rest, .crew crew outer :: rest <:+ below ∧
        (raise w threads index identity below cause).callsOf index =
          .disband crew (some cause) :: rest) ∨
      (raise w threads index identity below cause).aborted.isSome = true ∧
        (raise w threads index identity below cause).callsOf index =
          callsOf { world := w, threads } index := by
  unfold raise
  split
  next hunwind =>
    obtain ⟨crew, rest, rfl, hsuffix⟩ := unwind_frames hunwind
    exact .inr (.inl ⟨crew, _, rest, hsuffix, callsOf_set hin _ _⟩)
  next =>
    exact .inl (callsOf_set hin _ _)
  next =>
    exact .inr (.inr ⟨rfl, rfl⟩)

/-- A panic does not touch the scheduler. -/
theorem scheduler_raise
    (w : World) (threads : Array Thread) (index : Nat) (identity : Option Nat) (below : List Frame)
    (cause : Panic) :
    (raise w threads index identity below cause).world.scheduler = w.scheduler := by
  unfold raise
  split
  · rfl
  · rfl
  · exact World.scheduler_trace w _

/-- The calls of a thread that opens a region stay below it. -/
theorem exists_callsOf_recruit
    (hin : index < threads.size)
    (workers : List Nat) :
    ∃ more, (recruit w threads index identity below workers).callsOf index = more ++ below := by
  cases workers with
  | nil =>
      exact ⟨[], callsOf_set hin _ _⟩
  | cons worker others =>
      let crew := (List.range others.length).map fun i => threads.size + i
      let caller : Thread :=
        { frames := workerFrame worker :: .crew crew identity :: below, identity := some worker }
      have hcaller : (recruit w threads index identity below (worker :: others)).threads[index]? =
          some caller := by
        rw [recruit, Array.getElem?_append_left (by simpa using hin)]
        exact Array.getElem?_setIfInBounds_self_of_lt hin
      exact ⟨[workerFrame worker, .crew crew identity], callsOf_of_thread hcaller⟩

/-- A step of another thread leaves this one alone. -/
theorem thread_advance_of_ne
    (hne : turn ≠ index)
    (hthread : s.threads[index]? = some thread) :
    (s.advance turn).threads[index]? = some thread := by
  have hset : ∀ next, (s.threads.setIfInBounds turn next)[index]? = some thread :=
    fun _ => (Array.getElem?_setIfInBounds_ne hne).trans hthread
  have hraise : ∀ (w : World) (identity : Option Nat) (below : List Frame) (cause : Panic),
      (raise w s.threads turn identity below cause).threads[index]? = some thread := by
    intro w identity below cause
    unfold raise
    split
    · exact hset _
    · exact hset _
    · exact hthread
  have hadvances := s.advances turn
  generalize s.advance turn = t at hadvances ⊢
  cases hadvances with
  | rest | error | busy =>
      exact hthread
  | go | closed =>
      exact hset _
  | panic | passed =>
      exact hraise _ _ _ _
  | @recruit other frame below world workers hat hmove =>
      cases workers with
      | nil =>
          exact hset _
      | cons worker others =>
          have hin : index < s.threads.size := (Array.getElem?_eq_some_iff.mp hthread).1
          exact (Array.getElem?_append_left (by simpa using hin)).trans (hset _)

end System

namespace Wait

section Frames

variable {wait : Wait} {deques evaluations : Nat} {frame : Frame} {above : List Frame} {s : System}

/-- The end of a region below the wait is below the place to which it returns. -/
theorem length_lt_of_suffix
    {crew : List Nat} {outer : Option Nat} {rest : List Frame}
    (h : .crew crew outer :: rest <:+ wait.below) :
    rest.length + 1 < wait.below.length := by
  rcases List.suffix_cons_iff.mp h with heq | hsuffix
  · cases heq
  · exact Nat.lt_succ_of_le hsuffix.length_le

/-- The end of a region is above the wait or below the place to which it returns. -/
theorem Plays.above_or_below
    (h : wait.Plays deques evaluations frame)
    {crew : List Nat} {outer : Option Nat} {rest : List Frame}
    (hsuffix : .crew crew outer :: rest <:+ above ++ frame :: wait.below) :
    (∃ more, rest = more ++ frame :: wait.below) ∨ rest.length + 1 < wait.below.length := by
  have hnot : frame ≠ .crew crew outer := by
    cases h <;> nofun
  rcases List.suffix_or_suffix_of_suffix hsuffix (List.suffix_append above _) with
    hinside | ⟨more, heq⟩
  · rcases List.suffix_cons_iff.mp hinside with heq | hbelow
    · exact absurd (List.cons.inj heq).1.symm hnot
    · exact .inr (length_lt_of_suffix hbelow)
  · cases more with
    | nil => exact absurd (List.cons.inj heq).1 hnot
    | cons first more => exact .inl ⟨more, (List.cons.inj heq).2.symm⟩

/-- A step of what is executed above the wait leaves the wait as it is, or is a panic that ends
it. -/
theorem Plays.advance_under
    (h : wait.Plays deques evaluations frame)
    (habove : above ≠ [])
    (hcalls : s.callsOf wait.index = above ++ frame :: wait.below) :
    (∃ more, (s.advance wait.index).callsOf wait.index = more ++ frame :: wait.below) ∨
      ((s.advance wait.index).callsOf wait.index).length < wait.below.length := by
  obtain ⟨top, above, rfl⟩ := List.exists_cons_of_ne_nil habove
  have hat : ∀ {thread upper lower}, s.At wait.index thread upper lower →
      lower = above ++ frame :: wait.below ∧ wait.index < s.threads.size := by
    intro thread upper lower hat
    have hframes := (System.callsOf_of_thread hat.found).symm.trans hcalls
    rw [hat.frames] at hframes
    exact ⟨(List.cons.inj hframes).2, (Array.getElem?_eq_some_iff.mp hat.found).1⟩
  have hsame : ∀ (w : World) (aborted : Option Error),
      (⟨w, s.threads, aborted⟩ : System).callsOf wait.index =
        top :: above ++ frame :: wait.below :=
    fun _ _ => hcalls
  have hraise : ∀ {thread upper lower}, s.At wait.index thread upper lower →
      ∀ (w : World) (identity : Option Nat) (cause : Panic),
      (∃ more, (System.raise w s.threads wait.index identity lower cause).callsOf wait.index =
        more ++ frame :: wait.below) ∨
      ((System.raise w s.threads wait.index identity lower cause).callsOf wait.index).length <
        wait.below.length := by
    intro thread upper lower hlower w identity cause
    obtain ⟨rfl, hin⟩ := hat hlower
    rcases System.callsOf_raise hin cause with hnil | ⟨crew, outer, rest, hsuffix, hcaught⟩ |
      ⟨-, haborted⟩
    · rw [hnil]
      exact .inr (Nat.zero_lt_succ _)
    · rw [hcaught]
      rcases h.above_or_below hsuffix with ⟨more, rfl⟩ | hshort
      · exact .inl ⟨.disband crew (some cause) :: more, rfl⟩
      · exact .inr hshort
    · exact .inl ⟨_, haborted.trans (hsame w none)⟩
  have hadvances := s.advances wait.index
  generalize s.advance wait.index = t at hadvances ⊢
  cases hadvances with
  | rest hframe =>
      exact .inl ⟨_, hcalls⟩
  | error hmoves hmove =>
      exact .inl ⟨_, hsame _ _⟩
  | busy hmoves hmove hbusy =>
      exact .inl ⟨_, hsame _ _⟩
  | go hmoves hmove =>
      obtain ⟨rfl, hin⟩ := hat hmoves
      exact .inl ⟨_, (System.callsOf_set hin _ _).trans (List.append_assoc _ _ _).symm⟩
  | closed hmoves hmove hover hcalm =>
      obtain ⟨rfl, hin⟩ := hat hmoves
      exact .inl ⟨_, System.callsOf_set hin _ _⟩
  | panic hmoves hmove =>
      exact hraise hmoves _ _ _
  | passed hmoves hmove hover hpanic =>
      exact hraise hmoves _ _ _
  | @recruit thread upper lower world workers hmoves hmove =>
      obtain ⟨rfl, hin⟩ := hat hmoves
      obtain ⟨more, hmore⟩ := System.exists_callsOf_recruit hin workers
      exact .inl ⟨more ++ above, hmore.trans (List.append_assoc _ _ _).symm⟩

end Frames

/-- What becomes of an open wait in a turn that is not its own. -/
inductive Rests (wait : Wait) (deques evaluations : Nat) (frame : Frame) (above : List Frame) :
    System → Prop where
  | stays {more : List Frame} {t : System}
      (hmore : above = [] → more = [])
      (hstands : wait.Stands deques evaluations frame more t) :
      Rests wait deques evaluations frame above t
  /-- A panic comes from above and ends the wait. -/
  | unwinds {t : System}
      (habove : above ≠ [])
      (hshort : (t.callsOf wait.index).length < wait.below.length) :
      Rests wait deques evaluations frame above t

/-- What becomes of an open wait in its own turn, and what it does. -/
inductive Acts (wait : Wait) (deques evaluations : Nat) (frame : Frame) (m : Memory) :
    Option Deed → System → Prop where
  | returns {t : System}
      (hholds : wait.test (evaluations + 1) m = .ok true)
      (hreturned : wait.Returned (evaluations + 1) m t) :
      Acts wait deques evaluations frame m (some (.asks (evaluations + 1) m)) t
  | asks {next : Frame} {t : System}
      (hholds : wait.test (evaluations + 1) m = .ok false)
      (hstands : wait.Stands deques (evaluations + 1) next [] t) :
      Acts wait deques evaluations frame m (some (.asks (evaluations + 1) m)) t
  /-- The condition panics. -/
  | panics {cause : Panic} {t : System}
      (hholds : wait.test (evaluations + 1) m = .error cause)
      (hleft : (t.callsOf wait.index).length < wait.below.length ∨
        t.aborted.isSome = true ∧ wait.Stands deques evaluations frame [] t) :
      Acts wait deques evaluations frame m (some (.asks (evaluations + 1) m)) t
  | works {next : Frame} {more : List Frame} {deed : Option Deed} {t : System}
      (hhelper : wait.helper ≠ none)
      (hspends : frame.Spends next deed)
      (hstands : wait.Stands deques evaluations next more t) :
      Acts wait deques evaluations frame m deed t
  /-- There is no tag left for a pop, and the process is given up. -/
  | exhausted {t : System}
      (hhelper : wait.helper ≠ none)
      (haborted : t.aborted.isSome = true)
      (hstands : wait.Stands deques evaluations frame [] t) :
      Acts wait deques evaluations frame m (some .pops) t

section Steps

variable {wait : Wait} {deques capacity evaluations : Nat} {frame : Frame} {above : List Frame}
  {s : System} {turn : Nat}

theorem Stands.not_over
    (h : wait.Stands deques evaluations frame above s) :
    ¬ wait.IsOver s := by
  rw [IsOver, h.calls, List.length_append, List.length_cons]
  omega

theorem Stands.isNext_iff
    (h : wait.Stands deques evaluations frame above s) :
    wait.IsNext s ↔ above = [] := by
  rw [IsNext, h.calls, List.length_append, List.length_cons, ← List.length_eq_zero_iff]
  omega

/-- Whoever has the turn, if it is not the wait's own. -/
theorem Stands.idles
    (h : wait.Stands deques evaluations frame above s)
    (hidle : ¬ (turn = wait.index ∧ above = [] ∧ s.aborted = none)) :
    wait.deed? s turn = none ∧ wait.Rests deques evaluations frame above (s.advance turn) := by
  constructor
  · rw [deed?]
    split
    next hown =>
      have haborted : s.aborted ≠ none :=
        fun hgoing => hidle ⟨hown.1, h.isNext_iff.mp hown.2, hgoing⟩
      rw [(System.advance_of_aborted (Option.isSome_iff_ne_none.mpr haborted) turn).2]
      rfl
    next => rfl
  · by_cases hturn : turn = wait.index
    · subst hturn
      by_cases habove : above = []
      · have haborted : s.aborted ≠ none := fun hgoing => hidle ⟨rfl, habove, hgoing⟩
        rw [(System.advance_of_aborted (Option.isSome_iff_ne_none.mpr haborted) wait.index).1]
        exact .stays id h
      · rcases h.plays.advance_under habove h.calls with ⟨more, hcalls⟩ | hshort
        · exact .stays (fun hnil => absurd hnil habove)
            ⟨hcalls, h.plays, fun _ => h.rests habove⟩
        · exact .unwinds habove hshort
    · have hnil : s.callsOf wait.index ≠ [] := by
        rw [h.calls]
        exact List.append_ne_nil_of_right_ne_nil _ (List.cons_ne_nil _ _)
      obtain ⟨thread, hthread, hframes⟩ := System.exists_thread hnil
      refine .stays id ⟨?_, h.plays, h.rests⟩
      rw [System.callsOf_of_thread (System.thread_advance_of_ne hturn hthread), hframes, h.calls]

/-- The frame on top of the thread while the wait is next. -/
theorem Stands.exists_thread
    (h : wait.Stands deques evaluations frame [] s) :
    ∃ thread, s.threads[wait.index]? = some thread ∧ thread.frames = frame :: wait.below := by
  have hnil : s.callsOf wait.index ≠ [] := by
    rw [h.calls]
    exact List.cons_ne_nil _ _
  obtain ⟨thread, hthread, hframes⟩ := System.exists_thread hnil
  exact ⟨thread, hthread, hframes.trans h.calls⟩

theorem Stands.deed?_eq
    (h : wait.Stands deques evaluations frame [] s)
    (hgoing : s.aborted = none) :
    wait.deed? s wait.index = frame.deed? s.world.toMemory := by
  obtain ⟨thread, hthread, hframes⟩ := h.exists_thread
  rw [deed?, if_pos ⟨rfl, h.isNext_iff.mpr rfl⟩,
    System.frameAt_of_thread hgoing hthread hframes]
  rfl

/-- The wait's own turn. -/
theorem Stands.acts
    (h : wait.Stands deques evaluations frame [] s)
    (hsteady : s.world.scheduler.Steady deques capacity)
    (hgoing : s.aborted = none) :
    wait.Acts deques evaluations frame s.world.toMemory (wait.deed? s wait.index)
      (s.advance wait.index) := by
  obtain ⟨thread, hthread, hframes⟩ := h.exists_thread
  have hin : wait.index < s.threads.size := (Array.getElem?_eq_some_iff.mp hthread).1
  have hturns : Turns wait deques evaluations s.world thread.identity frame
      (frame.step s.world thread.identity) :=
    h.plays.turns hsteady
  rw [h.deed?_eq hgoing]
  generalize hmove : frame.step s.world thread.identity = move at hturns
  cases hturns with
  | returns hasks hholds =>
      rw [hasks, System.advance_of_go hgoing hthread hframes hmove]
      exact .returns hholds ⟨rfl, System.callsOf_set hin _ _, rfl⟩
  | asks hasks hholds hplays =>
      rw [hasks, System.advance_of_go hgoing hthread hframes hmove]
      exact .asks hholds ⟨System.callsOf_set hin _ _, hplays, fun hnot => absurd rfl hnot⟩
  | panics hasks hholds =>
      rw [hasks, System.advance_of_panic hgoing hthread hframes hmove]
      refine .panics hholds ?_
      rcases System.callsOf_raise hin _ with hnone | ⟨crew, outer, rest, hsuffix, hcaught⟩ |
        ⟨haborted, hsame⟩
      · rw [hnone]
        exact .inl (Nat.zero_lt_succ _)
      · rw [hcaught]
        exact .inl (length_lt_of_suffix hsuffix)
      · exact .inr ⟨haborted, hsame.trans h.calls, h.plays, h.rests⟩
  | works more hhelper hspends hplays hrests =>
      rw [System.advance_of_go hgoing hthread hframes hmove]
      refine .works hhelper hspends ⟨?_, hplays, hrests⟩
      rw [System.callsOf_set hin, List.append_assoc]
      rfl
  | exhausted hhelper hpops =>
      rw [hpops, System.advance_of_error hgoing hthread hframes hmove]
      exact .exhausted hhelper rfl ⟨h.calls, h.plays, h.rests⟩

/-- A wait that may not run other jobs leaves the scheduler alone. -/
theorem Stands.scheduler_advance
    (h : wait.Stands deques evaluations frame [] s)
    (hsteady : s.world.scheduler.Steady deques capacity)
    (hhelper : wait.helper = none) :
    (s.advance wait.index).world.scheduler = s.world.scheduler := by
  by_cases hgoing : s.aborted = none
  · obtain ⟨thread, hthread, hframes⟩ := h.exists_thread
    have hturns : Turns wait deques evaluations s.world thread.identity frame
        (frame.step s.world thread.identity) :=
      h.plays.turns hsteady
    generalize hmove : frame.step s.world thread.identity = move at hturns
    cases hturns with
    | returns =>
        rw [System.advance_of_go hgoing hthread hframes hmove]
        rfl
    | asks =>
        rw [System.advance_of_go hgoing hthread hframes hmove]
    | panics =>
        rw [System.advance_of_panic hgoing hthread hframes hmove, System.scheduler_raise]
    | works _ hsome | exhausted hsome =>
        exact absurd hhelper hsome
  · rw [(System.advance_of_aborted (Option.isSome_iff_ne_none.mpr hgoing) wait.index).1]

end Steps

end Wait
end Machine
end WorkStealing
