import WorkStealing.Proofs.ForkJoin.Simulation
import WorkStealing.Proofs.Machine.Advance

/-!
# Systems that show a crew

While a region is open, each of its workers has a thread, and the frames of the
thread show the calls of the worker. The thread that opened the region plays the
first worker on top of what it did before. Such a system makes the steps of a
crew until it is given up.
-/

namespace WorkStealing
namespace ForkJoin

open Function (update)
open Machine (Frame Moment System Thread World)

/-- The thread plays the worker, who has these jobs in the own deque, on top of some other
frames. -/
structure Plays (deques worker : Nat) (beneath : List Frame) (thread : Thread)
    (calls : List Call) (jobs : List JobId) : Prop where
  frames : ∃ frames, List.Forall₂ (Depicts deques worker) frames calls ∧
    thread.frames = frames ++ beneath
  identity : calls ≠ [] → thread.identity = some worker
  sound : thread.panicked = none
  /-- A worker who looks for a job elsewhere has none. -/
  looks : Looks thread.frames jobs

/-- What stands below the frames of a worker: only the first thread did something before. -/
def Setting.beneath (below : List Frame) (thread : Nat) : List Frame :=
  if thread = 0 then below else []

/-- The system shows the crew, where the first thread has these frames below its worker. -/
structure Shows (g : Setting) (below : List Frame) (s : System) (a : Crew) : Prop where
  going : s.aborted = none
  size : s.threads.size = g.workers.length
  /-- Each worker is played by the thread of its number. -/
  plays : ∀ t v, g.workers[t]? = some v → ∃ thread, s.threads[t]? = some thread ∧
    Plays g.deques v (Setting.beneath below t) thread (a.stack v) (a.lanes v).jobs
  others : ∀ v, v ∉ g.workers → a.stack v = []
  /-- A worker leaves when the first job has ended. -/
  left : ∀ v ∈ g.workers, a.stack v = [] → .finished ∈ a.history
  backed : a.Backed g s.world

/-- The step of the thread gives the process up; nothing was performed or told by it. -/
structure GivesUp (g : Setting) (s : System) (a : Crew) (t v : Nat) : Prop where
  cause : (s.advance t).aborted = some .tagExhausted ∨
    (s.advance t).aborted = some (.dequeOverflow g.capacity) ∧ g.capacity ≤ (a.lanes v).bottom ∧
      ∃ left right below, a.stack v = .fork (.publish left) right :: below
  sound : ∀ thread ∈ (s.advance t).threads, thread.panicked = none
  quiet : Quiet g.events (s.advance t).world.transcript
  action : (s.frameAt t).bind Frame.action? = none
  moment : (s.frameAt t).bind Frame.moment? = none

/-- A worker that leaves the region does so when the first job has ended. -/
theorem Step.finished_of_nil
    {thunk : Code} {root : JobId} {v : Nat} {a b : Crew}
    (hstep : Step root v a b)
    (h : Inv thunk root a)
    (hbefore : a.stack v ≠ [])
    (hafter : b.stack v = []) :
    .finished ∈ b.history := by
  cases hstep with
  | idle =>
      exact absurd hafter hbefore
  | leave hstack hended =>
      have hbelow := (Function.update_self ..).symm.trans hafter
      subst hbelow
      cases h.sits hstack
      exact h.told.finished.mpr hended
  | rewind hstack hjobs =>
      exact absurd hafter hbefore
  | retire hstack =>
      have hbelow := (Function.update_self ..).symm.trans hafter
      subst hbelow
      cases h.sits hstack
  | endCode hstack =>
      have hbelow := (Function.update_self ..).symm.trans hafter
      subst hbelow
      cases h.sits hstack
  | close hstack howner =>
      have hbelow := (Function.update_self ..).symm.trans hafter
      subst hbelow
      cases h.sits hstack
  | _ =>
      have hcons := (Function.update_self ..).symm.trans hafter
      exact absurd hcons (List.cons_ne_nil _ _)

/-- A worker puts nothing into the deque of another one. -/
theorem Step.jobs_eq_nil
    {root : JobId} {v u : Nat} {a b : Crew}
    (hstep : Step root v a b)
    (hu : u ≠ v)
    (hnil : (a.lanes u).jobs = []) :
    (b.lanes u).jobs = [] := by
  cases hstep with
  | @obtain stop deeper place job lane hstack hjobs hlane =>
      have hplace : u ≠ place := by
        rintro rfl
        rw [hnil] at hjobs
        cases hjobs
      show (update a.lanes place lane u).jobs = []
      rw [Function.update_of_ne hplace]
      exact hnil
  | rewind hstack hjobs =>
      show (update a.lanes v {} u).jobs = []
      rw [Function.update_of_ne hu]
      exact hnil
  | publish hstack =>
      show (update a.lanes v _ u).jobs = []
      rw [Function.update_of_ne hu]
      exact hnil
  | reclaim hstack hjobs =>
      show (update a.lanes v _ u).jobs = []
      rw [Function.update_of_ne hu]
      exact hnil
  | lose hstack hjobs =>
      show (update a.lanes v _ u).jobs = []
      rw [Function.update_of_ne hu]
      exact hnil
  | _ =>
      exact hnil

namespace Shows

variable {thunk : Code} {g : Setting} {below : List Frame} {s : System} {a : Crew} {t v : Nat}

/-- The thread of a worker that has not left, and the frame on top of it. -/
theorem exists_frame
    (h : Shows g below s a)
    (ht : g.workers[t]? = some v)
    (hstack : a.stack v ≠ []) :
    ∃ thread frame frames call calls, s.threads[t]? = some thread ∧
      thread.frames = frame :: (frames ++ Setting.beneath below t) ∧
      thread.identity = some v ∧ a.stack v = call :: calls ∧ Depicts g.deques v frame call ∧
      List.Forall₂ (Depicts g.deques v) frames calls ∧
      Looks (frame :: (frames ++ Setting.beneath below t)) (a.lanes v).jobs := by
  obtain ⟨thread, hthread, hplays⟩ := h.plays t v ht
  obtain ⟨all, hall, hframes⟩ := hplays.frames
  have hidentity := hplays.identity hstack
  have hlooks := hplays.looks
  rw [hframes] at hlooks
  cases hcalls : a.stack v with
  | nil =>
      exact absurd hcalls hstack
  | cons call calls =>
      rw [hcalls] at hall
      cases hall with
      | cons hdepicts hrest =>
          exact ⟨thread, _, _, call, calls, hthread, hframes, hidentity, rfl, hdepicts, hrest,
            hlooks⟩

/-- The frame on top of a thread of a region shows what its worker does, or stands beneath. -/
theorem exists_call
    (h : Shows g below s a)
    {thread : Thread} {frame : Frame} {frames : List Frame}
    (hat : s.At t thread frame frames) :
    frame ∈ below ∨ ∃ v call calls, v ∈ g.workers ∧ thread.identity = some v ∧
      a.stack v = call :: calls ∧ Depicts g.deques v frame call := by
  have hlt : t < g.workers.length := h.size ▸ (Array.getElem?_eq_some_iff.mp hat.found).1
  have hworker := List.getElem?_eq_getElem hlt
  obtain ⟨other, hother, hplays⟩ := h.plays t _ hworker
  obtain rfl : other = thread := Option.some.inj (hother.symm.trans hat.found)
  obtain ⟨all, hall, heq⟩ := hplays.frames
  rw [hat.frames] at heq
  cases hcalls : a.stack g.workers[t] with
  | nil =>
      rw [hcalls] at hall
      cases hall
      refine .inl ?_
      unfold Setting.beneath at heq
      split at heq
      · have hbelow : below = frame :: frames := heq.symm
        simp [hbelow]
      · cases heq
  | cons call calls =>
      rw [hcalls] at hall
      cases hall with
      | cons hdepicts hrest =>
          cases heq
          exact .inr ⟨_, call, calls, List.getElem_mem hlt, hplays.identity (by simp [hcalls]),
            hcalls, hdepicts⟩

/-- The thread of a worker that has left. -/
theorem exists_left
    (h : Shows g below s a)
    (ht : g.workers[t]? = some v)
    (hstack : a.stack v = []) :
    ∃ thread, s.threads[t]? = some thread ∧ thread.frames = Setting.beneath below t := by
  obtain ⟨thread, hthread, hplays⟩ := h.plays t v ht
  obtain ⟨frames, hall, hframes⟩ := hplays.frames
  rw [hstack] at hall
  cases hall
  exact ⟨thread, hthread, hframes⟩

/-- There are no other threads than those of the workers. -/
theorem advance_of_none
    (h : Shows g below s a)
    (ht : g.workers[t]? = none) :
    s.advance t = s ∧ s.frameAt t = none := by
  refine System.advance_of_none ?_
  rw [Array.getElem?_eq_none_iff, h.size]
  exact List.getElem?_eq_none_iff.mp ht

/-- A worker that has left does nothing, unless its thread is the one that opened the region. -/
theorem advance_of_left
    (h : Shows g below s a)
    (ht : g.workers[t]? = some v)
    (hstack : a.stack v = [])
    (hne : t ≠ 0) :
    s.advance t = s ∧ s.frameAt t = none := by
  obtain ⟨thread, hthread, hframes⟩ := h.exists_left ht hstack
  rw [Setting.beneath, if_neg hne] at hframes
  exact System.advance_of_over hthread hframes

/-- No thread of a region was ended by a panic. -/
theorem sound
    (h : Shows g below s a)
    {thread : Thread}
    (hthread : thread ∈ s.threads) :
    thread.panicked = none := by
  obtain ⟨t, ht, hget⟩ := Array.mem_iff_getElem.mp hthread
  have hlength : t < g.workers.length := by
    rw [← h.size]
    exact ht
  obtain ⟨other, hother, hplays⟩ := h.plays t _ (List.getElem?_eq_getElem hlength)
  rw [Array.getElem?_eq_getElem ht, hget] at hother
  cases hother
  exact hplays.sound

/-- The system after a step of a worker. -/
theorem step
    (h : Shows g below s a)
    (hg : g.Valid)
    (hinv : Inv thunk g.root a)
    (ht : g.workers[t]? = some v)
    {b : Crew} {w : World} {frames : List Frame} {calls : List Call}
    (hbefore : a.stack v ≠ [])
    (hstep : Step g.root v a b)
    (hstack : b.stack = update a.stack v calls)
    (hframes : List.Forall₂ (Depicts g.deques v) frames calls)
    (hbacked : b.Backed g w)
    (hlooks : Looks (frames ++ Setting.beneath below t) (b.lanes v).jobs)
    (hhistory : ∃ more, b.history = a.history ++ more) :
    Shows g below
      { world := w
        threads := s.threads.setIfInBounds t
          { frames := frames ++ Setting.beneath below t, identity := some v } } b := by
  have hv : v ∈ g.workers := List.mem_of_getElem? ht
  have hmono : .finished ∈ a.history → .finished ∈ b.history := by
    obtain ⟨more, hmore⟩ := hhistory
    intro hmem
    rw [hmore]
    exact List.mem_append_left _ hmem
  refine ⟨rfl, Array.size_setIfInBounds.trans h.size, ?_, ?_, ?_, hbacked⟩
  · intro t' u hu
    by_cases htt : t = t'
    · subst htt
      have hsame : u = v := Option.some.inj (hu.symm.trans ht)
      subst hsame
      obtain ⟨thread, hthread, -⟩ := h.plays t u hu
      have hin : t < s.threads.size := (Array.getElem?_eq_some_iff.mp hthread).1
      refine ⟨_, Array.getElem?_setIfInBounds_self_of_lt hin, ?_⟩
      rw [hstack, Function.update_self]
      exact ⟨⟨frames, hframes, rfl⟩, fun _ => rfl, rfl, hlooks⟩
    · have hne : u ≠ v := by
        rintro rfl
        have hlt := (List.getElem?_eq_some_iff.mp ht).1
        exact htt ((List.getElem?_inj hlt hg.nodup).mp (ht.trans hu.symm))
      obtain ⟨thread, hthread, hplays⟩ := h.plays t' u hu
      refine ⟨thread, ?_, ?_⟩
      · show (s.threads.setIfInBounds t _)[t']? = some thread
        rw [Array.getElem?_setIfInBounds_ne htt]
        exact hthread
      · rw [hstack, Function.update_of_ne hne]
        refine ⟨hplays.frames, hplays.identity, hplays.sound, fun hlooked => ?_,
          hplays.looks.deeper⟩
        exact hstep.jobs_eq_nil hne (hplays.looks.top hlooked)
  · intro u hu
    have hne : u ≠ v := by
      rintro rfl
      exact hu hv
    rw [hstack, Function.update_of_ne hne]
    exact h.others u hu
  · intro u hu hnil
    by_cases hne : u = v
    · subst hne
      exact hstep.finished_of_nil hinv hbefore hnil
    · rw [hstack, Function.update_of_ne hne] at hnil
      exact hmono (h.left u hu hnil)

/-- A step of a thread that plays a worker is a step of the crew, or gives the process up. -/
theorem advance
    (h : Shows g below s a)
    (hg : g.Valid)
    (hinv : Inv thunk g.root a)
    (ht : g.workers[t]? = some v)
    (hbefore : a.stack v ≠ []) :
    (∃ b, Step g.root v a b ∧ Shows g below (s.advance t) b ∧
        b.performed = a.performed ++ ((s.frameAt t).bind Frame.action?).toList ∧
        b.history = a.history ++ ((s.frameAt t).bind Frame.moment?).toList) ∨
      GivesUp g s a t v := by
  obtain ⟨thread, frame, frames, call, calls, hthread, hframes, hidentity, hstack, hdepicts,
    hrest, hlooks⟩ := h.exists_frame ht hbefore
  have hv := hg.below v (List.mem_of_getElem? ht)
  have hgoes := goes_step hinv hv hg.word hstack hdepicts h.backed hlooks.top
  have hat := System.frameAt_of_thread h.going hthread hframes
  generalize hmove : frame.step s.world (some v) = move at hgoes
  rw [← hidentity] at hmove
  cases hgoes with
  | on before hstep hafter hdepicted hbacked hlooksAfter hperformed hhistory =>
      left
      refine ⟨_, hstep, ?_, ?_, ?_⟩
      · rw [System.advance_of_go h.going hthread hframes hmove, ← List.append_assoc]
        refine h.step hg hinv ht hbefore hstep hafter (List.rel_append hdepicted hrest) hbacked ?_
          ⟨_, hhistory⟩
        rw [List.append_assoc]
        exact hlooks.replace hlooksAfter
      · rw [hat]
        exact hperformed
      · rw [hat]
        exact hhistory
  | full hpublish hfull hframe hquiet =>
      subst hframe
      have hafter := System.advance_of_error h.going hthread hframes hmove
      right
      refine ⟨?_, ?_, ?_, ?_, ?_⟩
      · rw [hafter]
        exact Or.inr ⟨rfl, hfull, _, _, _, hpublish⟩
      · rw [hafter]
        exact fun _ => h.sound
      · rw [hafter]
        exact hquiet.trace _
      · rw [hat]
        rfl
      · rw [hat]
        rfl
  | exhausted haction hmoment hquiet =>
      have hafter := System.advance_of_error h.going hthread hframes hmove
      right
      refine ⟨?_, ?_, ?_, ?_, ?_⟩
      · rw [hafter]
        exact Or.inl rfl
      · rw [hafter]
        exact fun _ => h.sound
      · rw [hafter]
        exact hquiet.trace _
      · rw [hat]
        exact haction
      · rw [hat]
        exact hmoment

end Shows
end ForkJoin
end WorkStealing
