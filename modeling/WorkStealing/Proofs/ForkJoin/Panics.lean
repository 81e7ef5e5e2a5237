import WorkStealing.Proofs.ForkJoin.Sequential

/-!
# Panics in forks

Code of plain actions, panics and forks performs what comes before its first panic when
the left branch of each fork is run before the right one (`Code.upshot`). A run with one
worker does so too, and then the panic gives the process up, because what is run for a
fork or a job has the frame of that below it. Outside of any run there are no such
frames: the panic leaves the code, and nothing of the scheduler has changed
(`Launch.panic_ends_in_order`).
-/

namespace WorkStealing

namespace Action

def isPanic : Action → Bool
  | panic _ => true
  | _ => false

/-- The action writes to the log or to a cell, or panics. -/
def isRisky (action : Action) : Bool :=
  action.isPlain || action.isPanic

end Action

/-- What is performed before the first panic, and the text of that panic if there is one. -/
structure Upshot where
  actions : List Action := []
  panic : Option String := none

namespace Upshot

/-- One thing after another, if there is no panic between them. -/
def andThen (first second : Upshot) : Upshot :=
  match first.panic with
  | some _ => first
  | none => { actions := first.actions ++ second.actions, panic := second.panic }

variable {first second : Upshot} {text : String}

theorem andThen_of_panic
    (h : first.panic = some text) :
    first.andThen second = first := by
  rw [andThen, h]

theorem andThen_of_calm
    (h : first.panic = none) :
    first.andThen second =
      { actions := first.actions ++ second.actions, panic := second.panic } := by
  rw [andThen, h]

theorem andThen_calm_iff :
    (first.andThen second).panic = none ↔ first.panic = none ∧ second.panic = none := by
  cases h : first.panic with
  | none => simp [andThen_of_calm h]
  | some text => simp [andThen_of_panic h, h]

end Upshot

mutual

/-- What comes of an action when left branches are run before right ones. -/
def Action.upshot : Action → Upshot
  | .fork left right => (Code.upshot left).andThen (Code.upshot right)
  | .panic text => { panic := some text }
  | action => { actions := [action] }

def Code.upshot : List Action → Upshot
  | [] => {}
  | action :: rest => (Action.upshot action).andThen (Code.upshot rest)

end

mutual

/-- An action that comes to no panic is strict, and what comes of it is what it does in order. -/
theorem Action.upshot_calm
    (action : Action)
    (hrisky : Action.within Action.isRisky action = true)
    (hcalm : (Action.upshot action).panic = none) :
    Action.within Action.isPlain action = true ∧
      (Action.upshot action).actions = Action.inOrder action := by
  cases action with
  | fork left right =>
      rw [Action.within, Bool.and_eq_true] at hrisky
      rw [Action.upshot, Upshot.andThen_calm_iff] at hcalm
      obtain ⟨hleft, hfirst⟩ := Code.upshot_calm left hrisky.1 hcalm.1
      obtain ⟨hright, hsecond⟩ := Code.upshot_calm right hrisky.2 hcalm.2
      rw [Action.within, hleft, hright, Action.upshot, Upshot.andThen_of_calm hcalm.1, hfirst,
        hsecond, Action.inOrder]
      exact ⟨rfl, rfl⟩
  | log label =>
      exact ⟨rfl, rfl⟩
  | store cell constant sources =>
      exact ⟨rfl, rfl⟩
  | panic text =>
      cases hcalm
  | _ =>
      cases hrisky

/-- Code that comes to no panic is strict, and what comes of it is what it does in order. -/
theorem Code.upshot_calm
    (code : List Action)
    (hrisky : Code.within Action.isRisky code = true)
    (hcalm : (Code.upshot code).panic = none) :
    Code.within Action.isPlain code = true ∧ (Code.upshot code).actions = Code.inOrder code := by
  cases code with
  | nil =>
      exact ⟨rfl, rfl⟩
  | cons action rest =>
      rw [Code.within, Bool.and_eq_true] at hrisky
      rw [Code.upshot, Upshot.andThen_calm_iff] at hcalm
      obtain ⟨haction, hfirst⟩ := Action.upshot_calm action hrisky.1 hcalm.1
      obtain ⟨hrest, hsecond⟩ := Code.upshot_calm rest hrisky.2 hcalm.2
      rw [Code.within, haction, hrest, Code.upshot, Upshot.andThen_of_calm hcalm.1, hfirst,
        hsecond, Code.inOrder]
      exact ⟨rfl, rfl⟩

end

namespace ForkJoin

open Machine (Frame System World Unwound)

section Inside

/-- What has room for its forks is executed to its end. -/
theorem Executes.comes_of_fits
    {capacity spare : Nat} {jobs : List JobId} {w : World} {s : System} {marks : List Mark}
    {finish : World → System}
    (h : Executes capacity jobs spare w s marks finish)
    (hfits : marks.all (Mark.fits capacity) = true) :
    ∃ next counted, System.Comes s (Mark.actions marks) (finish next) ∧
      Strides w next counted ∧ Holding next capacity jobs spare := by
  cases h with
  | through hcomes _ hstrides _ hholding =>
      exact ⟨_, _, hcomes, hstrides, hholding⟩
  | overflows _ hover _ =>
      exact absurd hfits hover

/-- No panic may pass these frames, whoever the thread is. -/
def Guards (below : List Frame) : Prop :=
  ∀ cause identity, Machine.unwind cause identity below = Unwound.blocked

/-- The code, wherever it stands above frames that let no panic pass, gives the process up at its
first panic, if there are slots and tags for its forks. -/
def PanicStops (capacity : Nat) (code : Code) : Prop :=
  ∀ {w : World} {jobs : List JobId} {text : String} (spare : Nat) (rest : Code)
    (below : List Frame),
    Holding w capacity jobs (spare + Mark.entries (Code.marks jobs.length code)) →
    jobs.length + Code.leftDepth code ≤ capacity →
    Guards below →
    (Code.upshot code).panic = some text →
    ∃ t, System.Comes (.solo w (.perform (code ++ rest) :: below) (some 0))
        (Code.upshot code).actions t ∧
      t.aborted = some .jobPanicked

/-- A panic in a branch of a fork gives the process up: below the left branch is the frame of the
fork, and below the right one is that of its job. -/
theorem stops_fork
    {capacity spare : Nat} {jobs : List JobId} {w : World} {left right rest : Code}
    {below : List Frame} {text : String}
    (h : Holding w capacity jobs
      (spare + Mark.entries (Action.marks jobs.length (.fork left right))))
    (hroom : jobs.length + Action.leftDepth (.fork left right) ≤ capacity)
    (hrisky : Code.within Action.isRisky left = true)
    (hpanic : (Action.upshot (.fork left right)).panic = some text)
    (hleft : PanicStops capacity left)
    (hright : PanicStops capacity right) :
    ∃ t, System.Comes (.solo w (.perform (.fork left right :: rest) :: below) (some 0))
        (Action.upshot (.fork left right)).actions t ∧
      t.aborted = some .jobPanicked := by
  rw [Action.leftDepth] at hroom
  have hslot : jobs.length < capacity := by omega
  have hlength : (jobs ++ [w.bodies.size]).length = jobs.length + 1 := List.length_append
  obtain ⟨v₁, hentered, hstrides, hholding, hwaiting⟩ := comes_left left right rest below h hslot
  have hbudget : spare + Mark.entries (Action.marks jobs.length (.fork left right)) =
      spare + Mark.entries (Code.marks jobs.length right) + 1 +
        Mark.entries (Code.marks (jobs ++ [w.bodies.size]).length left) := by
    rw [Action.marks, Mark.entries_enter, Mark.entries_append, hlength]
    omega
  have hdepth : (jobs ++ [w.bodies.size]).length + Code.leftDepth left ≤ capacity := by
    rw [hlength]
    omega
  rw [hbudget] at hholding
  rw [Action.upshot] at hpanic ⊢
  cases hfirst : (Code.upshot left).panic with
  | some text =>
      obtain ⟨t, hcomes, haborted⟩ := hleft _ [] (.fork .check 0 w.bodies.size [] ::
        .perform rest :: below) hholding hdepth (fun _ _ => rfl) hfirst
      rw [List.append_nil] at hcomes
      rw [Upshot.andThen_of_panic hfirst]
      exact ⟨t, hentered.trans hcomes, haborted⟩
  | none =>
      rw [Upshot.andThen_of_calm hfirst] at hpanic ⊢
      obtain ⟨hstrict, hactions⟩ := Code.upshot_calm left hrisky hfirst
      obtain ⟨v₂, counted, hcomes, hstridesLeft, hholding⟩ := (runs_code left hstrict _ []
        (.fork .check 0 w.bodies.size [] :: .perform rest :: below) hholding
          (Nat.le_of_add_right_le hdepth)).comes_of_fits
            ((Code.fits_iff (Nat.le_of_add_right_le hdepth) left).mpr hdepth)
      rw [List.append_nil, hlength] at hcomes
      obtain ⟨v₃, hbetween, -, hholding⟩ :=
        comes_between (.perform rest :: below) hholding (hstridesLeft.waiting hwaiting)
      obtain ⟨t, hlast, haborted⟩ := hright spare [.complete w.bodies.size]
        (.guarded w.bodies.size :: .fork .closing 0 w.bodies.size [] :: .perform rest :: below)
        hholding (by omega) (fun _ _ => rfl) hpanic
      have hbefore := (hentered.trans hcomes).trans (hbetween.trans hlast)
      rw [Code.actions_marks, ← hactions] at hbefore
      exact ⟨t, hbefore, haborted⟩

mutual

/-- An action gives the process up at its first panic. -/
theorem stops_action
    {capacity spare : Nat} {jobs : List JobId} {w : World} {text : String}
    (action : Action)
    (hrisky : Action.within Action.isRisky action = true)
    (rest : Code) (below : List Frame)
    (h : Holding w capacity jobs (spare + Mark.entries (Action.marks jobs.length action)))
    (hroom : jobs.length + Action.leftDepth action ≤ capacity)
    (hguards : Guards below)
    (hpanic : (Action.upshot action).panic = some text) :
    ∃ t, System.Comes (.solo w (.perform (action :: rest) :: below) (some 0))
        (Action.upshot action).actions t ∧
      t.aborted = some .jobPanicked := by
  cases action with
  | fork left right =>
      rw [Action.within, Bool.and_eq_true] at hrisky
      exact stops_fork h hroom hrisky.1 hpanic (stops_code left hrisky.1)
        (stops_code right hrisky.2)
  | panic text =>
      exact System.Comes.blocked rfl (hguards _ _)
  | _ =>
      cases hpanic

/-- Code gives the process up at its first panic. -/
theorem stops_code
    {capacity : Nat}
    (code : List Action)
    (hrisky : Code.within Action.isRisky code = true) :
    PanicStops capacity code := by
  intro w jobs text spare rest below h hroom hguards hpanic
  cases code with
  | nil =>
      cases hpanic
  | cons action more =>
      rw [Code.within, Bool.and_eq_true] at hrisky
      rw [Code.marks, Mark.entries_append, Nat.add_comm (Mark.entries _), ← Nat.add_assoc] at h
      rw [Code.leftDepth] at hroom
      rw [Code.upshot] at hpanic ⊢
      have hdepth : jobs.length + Action.leftDepth action ≤ capacity := by omega
      cases hfirst : (Action.upshot action).panic with
      | some text =>
          rw [Upshot.andThen_of_panic hfirst]
          exact stops_action action hrisky.1 (more ++ rest) below h hdepth hguards hfirst
      | none =>
          rw [Upshot.andThen_of_calm hfirst] at hpanic ⊢
          obtain ⟨hstrict, hactions⟩ := Action.upshot_calm action hrisky.1 hfirst
          have hslots : jobs.length ≤ capacity := Nat.le_of_add_right_le hdepth
          obtain ⟨next, counted, hcomes, -, hholding⟩ :=
            (executes_action action hstrict (more ++ rest) below h hslots).comes_of_fits
              ((Action.fits_iff hslots action).mpr hdepth)
          obtain ⟨t, hlast, haborted⟩ := stops_code more hrisky.2 spare rest below hholding
            (by omega) hguards hpanic
          rw [Action.actions_marks, ← hactions] at hcomes
          exact ⟨t, hcomes.trans hlast, haborted⟩

end

end Inside

section Outside

variable {identity other : Option Nat} {text : String}

mutual

/-- Outside of runs a panic leaves the action, whose scheduler is as it was. -/
theorem leaves_action
    {w : World}
    (action : Action)
    (hrisky : Action.within Action.isRisky action = true)
    (houtside : w.scheduler.workerOf identity = none)
    (rest : Code) (below : List Frame)
    (hpasses : ∀ cause, Machine.unwind cause identity below = .over other)
    (hpanic : (Action.upshot action).panic = some text) :
    ∃ next, System.Comes (.solo w (.perform (action :: rest) :: below) identity)
        (Action.upshot action).actions (.ended next other (.raised text)) ∧
      next.scheduler = w.scheduler := by
  cases action with
  | fork left right =>
      rw [Action.within, Bool.and_eq_true] at hrisky
      have hfork : Frame.step w identity (.perform (.fork left right :: rest)) =
          .go w identity [.perform left, .perform right, .perform rest] := by
        rw [Frame.step, Machine.Action.step, houtside]
      rw [Action.upshot] at hpanic ⊢
      cases hfirst : (Code.upshot left).panic with
      | some text =>
          rw [Upshot.andThen_of_panic hfirst] at hpanic ⊢
          obtain ⟨next, hcomes, hsame⟩ := leaves_code left hrisky.1 houtside []
            (.perform right :: .perform rest :: below) hpasses hpanic
          rw [List.append_nil] at hcomes
          exact ⟨next, .next_step hfork rfl hcomes, hsame⟩
      | none =>
          rw [Upshot.andThen_of_calm hfirst] at hpanic ⊢
          obtain ⟨hstrict, hactions⟩ := Code.upshot_calm left hrisky.1 hfirst
          obtain ⟨v, hleft, hsame⟩ := outside_code left hstrict houtside []
            (.perform right :: .perform rest :: below)
          obtain ⟨next, hright, hlast⟩ := leaves_code right hrisky.2 (hsame ▸ houtside) []
            (.perform rest :: below) hpasses hpanic
          rw [List.append_nil] at hleft hright
          rw [hactions]
          exact ⟨next, .next_step hfork rfl (hleft.trans (.next_step rfl rfl hright)),
            hlast.trans hsame⟩
  | panic text =>
      cases hpanic
      exact ⟨w, .unwound rfl (hpasses _), rfl⟩
  | _ =>
      cases hpanic

/-- Outside of runs a panic leaves the code, whose scheduler is as it was. -/
theorem leaves_code
    {w : World}
    (code : List Action)
    (hrisky : Code.within Action.isRisky code = true)
    (houtside : w.scheduler.workerOf identity = none)
    (rest : Code) (below : List Frame)
    (hpasses : ∀ cause, Machine.unwind cause identity below = .over other)
    (hpanic : (Code.upshot code).panic = some text) :
    ∃ next, System.Comes (.solo w (.perform (code ++ rest) :: below) identity)
        (Code.upshot code).actions (.ended next other (.raised text)) ∧
      next.scheduler = w.scheduler := by
  cases code with
  | nil =>
      cases hpanic
  | cons action more =>
      rw [Code.within, Bool.and_eq_true] at hrisky
      rw [Code.upshot] at hpanic ⊢
      cases hfirst : (Action.upshot action).panic with
      | some text =>
          rw [Upshot.andThen_of_panic hfirst] at hpanic ⊢
          exact leaves_action action hrisky.1 houtside (more ++ rest) below hpasses hpanic
      | none =>
          rw [Upshot.andThen_of_calm hfirst] at hpanic ⊢
          obtain ⟨hstrict, hactions⟩ := Action.upshot_calm action hrisky.1 hfirst
          obtain ⟨v, haction, hsame⟩ :=
            outside_action action hstrict houtside (more ++ rest) below
          obtain ⟨next, hmore, hlast⟩ :=
            leaves_code more hrisky.2 (hsame ▸ houtside) rest below hpasses hpanic
          rw [hactions]
          exact ⟨next, haction.trans hmore, hlast.trans hsame⟩

end

end Outside

namespace Launch

variable {l : Launch} {capacity : Nat} {text : String}

/-- The worker comes to the thunk, and gives the process up at its first panic. -/
theorem Solitary.comes_panic
    (h : l.Solitary capacity)
    (hrisky : Code.within Action.isRisky l.thunk = true)
    (hroom : Code.leftDepth l.thunk ≤ capacity)
    (hpanic : (Code.upshot l.thunk).panic = some text) :
    ∃ t, System.Comes l.system (Code.upshot l.thunk).actions t ∧
      t.aborted = some .jobPanicked := by
  obtain ⟨w, region, hopened, -, hsince, hfinished, hholding, hwaiting⟩ := h.comes_region
  obtain ⟨started, hfound, -, hempty⟩ :=
    comes_root hholding hfinished hwaiting hsince (region :: l.after)
  have hbudget : Holding started capacity []
      (0 + Mark.entries (Code.marks ([] : List JobId).length l.thunk)) := by
    rw [Nat.zero_add]
    exact hempty
  have hdepth : ([] : List JobId).length + Code.leftDepth l.thunk ≤ capacity := by
    rw [List.length_nil, Nat.zero_add]
    exact hroom
  obtain ⟨t, hcomes, haborted⟩ := stops_code l.thunk hrisky 0 [.finish]
    (.guarded l.root :: .loop .poll 0 .finished 1 :: region :: l.after) hbudget hdepth
    (fun _ _ => rfl) hpanic
  exact ⟨t, (hopened.trans hfound).trans hcomes, haborted⟩

/-- A thread that performs the thunk outside of any run. -/
def outsideAs (l : Launch) (identity : Option Nat) : System :=
  .solo l.world [.perform l.thunk] identity

/-- A run of one worker whose thunk comes to a panic, in whichever branch of a fork, performs what
comes before it and gives the process up, and then nothing happens any more. Outside of any run the
same is performed, the panic ends the calling thread, and the scheduler is as it was before. -/
theorem panic_ends_in_order
    (h : l.Solitary capacity)
    (hrisky : Code.within Action.isRisky l.thunk = true)
    (hroom : Code.leftDepth l.thunk ≤ capacity)
    (hpanic : (Code.upshot l.thunk).panic = some text)
    {identity : Option Nat}
    (houtside : l.world.scheduler.workerOf identity = none) :
    ∃ steps aborted next,
      aborted.aborted = some .jobPanicked ∧ next.scheduler = l.world.scheduler ∧
      ∀ schedule : List Nat, steps ≤ schedule.count 0 →
        (l.system.run schedule = aborted ∧
          l.system.performed schedule = (Code.upshot l.thunk).actions) ∧
        (l.outsideAs identity).run schedule = .ended next identity (.raised text) ∧
          (l.outsideAs identity).performed schedule = (Code.upshot l.thunk).actions := by
  obtain ⟨t, hinside, haborted⟩ := h.comes_panic hrisky hroom hpanic
  obtain ⟨next, hleft, hsame⟩ :=
    leaves_code l.thunk hrisky houtside [] [] (fun _ => rfl) hpanic
  rw [List.append_nil] at hleft
  obtain ⟨first, hfirst⟩ :=
    hinside.settles (System.advance_of_aborted (by rw [haborted]; rfl))
  obtain ⟨second, hsecond⟩ := hleft.settles (System.quiet_ended next identity _)
  refine ⟨first + second, t, next, haborted, hsame, fun schedule hturns => ?_⟩
  exact ⟨hfirst schedule (by omega), hsecond schedule (by omega)⟩

/-- A panic in the right branch of a fork in the left branch of another one. -/
def ruined : Launch :=
  { nested with
    thunk := [.fork
      [.log "a", .fork [.log "b"] [.log "c", .panic "broken", .log "d"], .log "e"] [.log "f"]] }

theorem ruined_solitary :
    ruined.Solitary 2 := by
  have h := nested_single.toSolitary
  refine ⟨h.idle, h.flags, h.deques, h.asked, h.workers, fun place hplace => ?_⟩
  rw [(Array.mem_replicate.mp (Array.mem_of_getElem? hplace)).2]
  decide

theorem ruined_ends_in_order :
    ruined.Solitary 2 ∧ ∃ steps aborted next,
      aborted.aborted = some .jobPanicked ∧ next.scheduler = ruined.world.scheduler ∧
      ∀ schedule : List Nat, steps ≤ schedule.count 0 →
        (ruined.system.run schedule = aborted ∧
          ruined.system.performed schedule = [.log "a", .log "b", .log "c"]) ∧
        (ruined.outsideAs none).run schedule = .ended next none (.raised "broken") ∧
          (ruined.outsideAs none).performed schedule = [.log "a", .log "b", .log "c"] :=
  ⟨ruined_solitary, panic_ends_in_order ruined_solitary (by decide) (by decide) rfl rfl⟩

end Launch

end ForkJoin
end WorkStealing
