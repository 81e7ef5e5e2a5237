import WorkStealing.Proofs.ForkJoin.Loose

/-!
# Stretches of a run above a floor

A lone worker that calls something comes back to the frames below the call, the floor,
unless the process is given up on the way. `Reaches` says what is so when it has come to
some frames, and that each fork it has made meanwhile was joined as it should be
(`Joins`). Stretches are put together by `Reaches.bind`, and the lemmas for single steps
say how the deque changes.
-/

namespace WorkStealing

namespace Machine

/-- The frame is about to make a fork. -/
def Frame.isForking : Frame → Bool
  | .perform (.fork _ _ :: _) => true
  | _ => false

/-- The frame is about to do something that is neither a fork nor noted. -/
def Frame.isCalm (frame : Frame) : Bool :=
  !frame.isForking && frame.note?.isNone

theorem Frame.isCalm_iff
    {frame : Frame} :
    frame.isCalm = true ↔ frame.isForking = false ∧ frame.note? = none := by
  simp [isCalm]

namespace System

/-- The system is one thread that plays this worker, with these frames. -/
def IsAt (s : System) (v : Nat) (frames : List Frame) : Prop :=
  s = .solo s.world frames (some v)

/-- So it is, and the worker has these jobs in its deque. -/
structure Stands (s : System) (v : Nat) (frames : List Frame) (jobs : List JobId) : Prop where
  isAt : s.IsAt v frames
  deque : ∃ place, s.world.scheduler.places[v]? = some place ∧ place.deque.Holds jobs

/-- Some frames stand above these in the only thread. -/
def Over (v : Nat) (floor : List Frame) (s : System) : Prop :=
  ∃ frames, frames ≠ [] ∧ s.IsAt v (frames ++ floor)

variable {s : System} {v : Nat} {frames others floor : List Frame}

theorem isAt_solo
    (w : World) (frames : List Frame) (v : Nat) :
    (solo w frames (some v)).IsAt v frames := by
  rfl

theorem IsAt.frames_eq
    (h : s.IsAt v frames)
    (hother : s.IsAt v others) :
    frames = others := by
  have heq := h.symm.trans hother
  simp only [solo, System.mk.injEq, Array.mk.injEq, List.cons.injEq, Thread.mk.injEq] at heq
  exact heq.2.1.1.1

/-- The floor itself is not above the floor. -/
theorem Over.not_isAt
    (h : s.Over v floor) :
    ¬ s.IsAt v floor := by
  obtain ⟨above, hnil, hat⟩ := h
  intro hfloor
  have hlength := congrArg List.length (hat.frames_eq hfloor)
  rw [List.length_append] at hlength
  exact hnil (List.length_eq_zero_iff.mp (by omega))

end System
end Machine

namespace ForkJoin

open Machine (Frame Note Passage System World spawnedIn spawnedIn_nil)

/-- What becomes of a fork by a worker that has these jobs in its deque, where `more` is the code
after the fork. Unless the process is given up for want of a slot or of a tag, the fork returns. At
the end of its left branch, the right one is in the deque below what the left one has left over.
Each of these jobs begins when all newer ones have ended and the older ones are all that is in the
deque, and so does the right branch, which is executed once. The jobs that were in the deque before
do not begin, and are then below what the right branch has left over. -/
inductive Joins (v capacity : Nat) (s : System) (right : JobId) (more : Code) (below : List Frame)
    (jobs : List JobId) : Prop where
  | gaveUp {n : Nat} {cause : Error}
      (haborted : (s.later n).aborted = some cause)
      (hcause : cause = .tagExhausted ∨ cause = .dequeOverflow capacity)
      (hpending : ∀ m < n, ¬ (s.later m).IsAt v (.perform more :: below))
  | returned {left finish : Nat} {above behind : List JobId}
      (hpending : ∀ m < finish, ¬ (s.later m).IsAt v (.perform more :: below))
      (hleft : (s.later left).Stands v (.fork .check v right [] :: .perform more :: below)
        (jobs ++ right :: above))
      (hbegins : ∀ (i : Nat) job, (right :: above)[i]? = some job → ∃ n deeper,
        left + n < finish ∧
        (s.later (left + n)).Stands v (.execute job :: deeper) (jobs ++ (right :: above).take i) ∧
        (∀ newer ∈ (right :: above).drop (i + 1), .ended newer ∈ (s.later left).notes n) ∧
        Balanced ((s.later left).notes n))
      (hfinish : (s.later finish).Stands v (.perform more :: below) (jobs ++ behind))
      (honce : (s.notes finish).count (.began right) = 1 ∧
        (s.notes finish).count (.ended right) = 1)
      (hkept : ∀ job ∈ jobs, .began job ∉ s.notes finish)

/-- What is shown of each system on the way above the floor: if a fork is about to be made, this
becomes of it. -/
structure Visits (v capacity : Nat) (floor : List Frame) (s : System) : Prop where
  above : s.Over v floor
  joins : ∀ {left right more below}, s.IsAt v (.perform (.fork left right :: more) :: below) →
    ∃ jobs, s.Stands v (.perform (.fork left right :: more) :: below) jobs ∧
      Joins v capacity s s.world.bodies.size more below jobs

/-- The thread comes from some frames to others, above the floor, and keeps these jobs. -/
structure Crosses (v capacity : Nat) (floor : List Frame) (kept : List JobId) (w : World)
    (frames : List Frame) (next : World) (final : List Frame) (notes : List Note) : Prop where
  passage : Passage (Visits v capacity floor) (.solo w frames (some v)) notes
    (.solo next final (some v))
  conserves : Conserves kept w notes next

/-- The thread goes on from these frames, above the floor, until this is so, or until the process is
given up for want of a slot or of a tag. -/
inductive Reaches (v capacity : Nat) (floor : List Frame) (kept : List JobId) (w : World)
    (frames : List Frame) (Q : World → List Frame → List Note → Prop) : Prop where
  | gaveUp {t : System} {notes : List Note} {cause : Error}
      (hpassage : Passage (Visits v capacity floor) (.solo w frames (some v)) notes t)
      (haborted : t.aborted = some cause)
      (hcause : cause = .tagExhausted ∨ cause = .dequeOverflow capacity)
  | through {next : World} {final : List Frame} {notes : List Note}
      (hcrosses : Crosses v capacity floor kept w frames next final notes)
      (hafter : Q next final notes)

/-- The worker is about to go on with these frames. -/
structure Poised (v capacity count : Nat) (seen : List JobId) (w : World) (frames : List Frame)
    (jobs : List JobId) : Prop where
  loaded : Loaded v capacity count seen w jobs
  spawns : (System.solo w frames (some v)).SpawnsOnce seen

theorem Loaded.stands
    {v capacity count : Nat} {seen jobs : List JobId} {w : World}
    (h : Loaded v capacity count seen w jobs)
    (frames : List Frame) :
    (System.solo w frames (some v)).Stands v frames jobs := by
  obtain ⟨place, hplace, hholds, -⟩ := h.deque
  exact ⟨System.isAt_solo w frames v, place, hplace, hholds⟩

section Calculus

variable {v capacity count : Nat} {floor below frames : List Frame}
  {kept held seen jobs : List JobId} {w next : World} {frame : Frame}
  {Q R : World → List Frame → List Note → Prop}

theorem visits_of_not_isForking
    (capacity : Nat)
    (hfloor : floor <:+ below)
    (hforking : frame.isForking = false) :
    Visits v capacity floor (.solo w (frame :: below) (some v)) := by
  constructor
  · obtain ⟨above, rfl⟩ := hfloor
    exact ⟨frame :: above, by simp, rfl⟩
  · intro left right more deeper hat
    cases hat.frames_eq (System.isAt_solo w (frame :: below) v)
    cases hforking

/-- What is above a floor is above all that lies deeper. -/
theorem Visits.lower
    {s : System}
    (h : Visits v capacity below s)
    (hfloor : floor <:+ below) :
    Visits v capacity floor s := by
  obtain ⟨deeper, rfl⟩ := hfloor
  obtain ⟨frames, hnil, hat⟩ := h.above
  refine ⟨⟨frames ++ deeper, by simp [hnil], ?_⟩, h.joins⟩
  rw [List.append_assoc]
  exact hat

namespace Reaches

theorem refl
    (h : Q w frames []) :
    Reaches v capacity floor kept w frames Q :=
  .through ⟨.refl _, .of_eq rfl rfl (by simp)⟩ h

/-- Less is kept, and less is so after it. -/
theorem mono
    (h : Reaches v capacity floor held w frames Q)
    (hkept : kept ⊆ held)
    (hmono : ∀ next final notes, Crosses v capacity floor held w frames next final notes →
      Q next final notes → R next final notes) :
    Reaches v capacity floor kept w frames R := by
  cases h with
  | gaveUp hpassage haborted hcause =>
      exact .gaveUp hpassage haborted hcause
  | through hcrosses hafter =>
      exact .through ⟨hcrosses.passage, hcrosses.conserves.mono hkept⟩ (hmono _ _ _ hcrosses hafter)

/-- One stretch after another. -/
theorem bind
    (h : Reaches v capacity floor held w frames Q)
    (hkept : kept ⊆ held)
    (hspawns : (System.solo w frames (some v)).SpawnsOnce seen)
    (hnext : ∀ next final notes, Crosses v capacity floor held w frames next final notes →
      (System.solo next final (some v)).SpawnsOnce (seen ++ spawnedIn notes) →
      Q next final notes →
      Reaches v capacity floor kept next final fun last others more =>
        R last others (notes ++ more)) :
    Reaches v capacity floor kept w frames R := by
  cases h with
  | gaveUp hpassage haborted hcause =>
      exact .gaveUp hpassage haborted hcause
  | through hcrosses hafter =>
      have hpassage := hcrosses.passage
      cases hnext _ _ _ hcrosses (hpassage.spawnsOnce hspawns) hafter with
      | gaveUp hmore haborted hcause =>
          exact .gaveUp (hpassage.trans hmore) haborted hcause
      | through hmore hlast =>
          exact .through ⟨hpassage.trans hmore.passage,
            (hcrosses.conserves.mono hkept).trans hmore.conserves⟩ hlast

/-- A step after which the thread goes on. -/
theorem step
    (hfloor : floor <:+ below)
    (hforking : frame.isForking = false)
    (hspawns : (System.solo w (frame :: below) (some v)).SpawnsOnce seen)
    (hmove : frame.step w (some v) = .go next (some v) frames)
    (hconserves : Conserves kept w frame.note?.toList next)
    (hrest : (System.solo next (frames ++ below) (some v)).SpawnsOnce
        (seen ++ spawnedIn frame.note?.toList) →
      Reaches v capacity floor kept next (frames ++ below) fun last final more =>
        Q last final (frame.note?.toList ++ more)) :
    Reaches v capacity floor kept w (frame :: below) Q := by
  have hpassage := Passage.go (visits_of_not_isForking capacity hfloor hforking) hmove
  have hstretch : Reaches v capacity floor kept w (frame :: below) fun last final notes =>
      last = next ∧ final = frames ++ below ∧ notes = frame.note?.toList :=
    .through ⟨hpassage, hconserves⟩ ⟨rfl, rfl, rfl⟩
  refine hstretch.bind (List.Subset.refl _) hspawns ?_
  rintro last final notes - hspawnsAfter ⟨rfl, rfl, rfl⟩
  exact hrest hspawnsAfter

/-- A step that spawns nothing. -/
theorem noted
    {after : List JobId}
    (hfloor : floor <:+ below)
    (hforking : frame.isForking = false)
    (hspawned : spawnedIn frame.note?.toList = [])
    (h : Poised v capacity count seen w (frame :: below) jobs)
    (hmove : frame.step w (some v) = .go next (some v) frames)
    (hloaded : Loaded v capacity count seen next after)
    (hconserves : Conserves kept w frame.note?.toList next)
    (hrest : Poised v capacity count seen next (frames ++ below) after →
      Reaches v capacity floor kept next (frames ++ below) fun last final more =>
        Q last final (frame.note?.toList ++ more)) :
    Reaches v capacity floor kept w (frame :: below) Q := by
  refine .step hfloor hforking h.spawns hmove hconserves fun hspawns => hrest ⟨hloaded, ?_⟩
  rwa [hspawned, List.append_nil] at hspawns

/-- A step that does nothing with jobs. -/
theorem quiet
    {after : List JobId}
    (hfloor : floor <:+ below)
    (hcalm : frame.isCalm = true)
    (h : Poised v capacity count seen w (frame :: below) jobs)
    (hmove : frame.step w (some v) = .go next (some v) frames)
    (hloaded : Loaded v capacity count seen next after)
    (hconserves : Conserves kept w [] next)
    (hrest : Poised v capacity count seen next (frames ++ below) after →
      Reaches v capacity floor kept next (frames ++ below) Q) :
    Reaches v capacity floor kept w (frame :: below) Q := by
  obtain ⟨hforking, hnote⟩ := Frame.isCalm_iff.mp hcalm
  have hnone : frame.note?.toList = [] := by rw [hnote]; rfl
  refine .noted hfloor hforking (by rw [hnone]; rfl) h hmove hloaded (hnone ▸ hconserves) ?_
  simpa only [hnone, List.nil_append] using hrest

/-- A step that changes neither the scheduler nor the jobs. -/
theorem silent
    (hfloor : floor <:+ below)
    (hcalm : frame.isCalm = true)
    (h : Poised v capacity count seen w (frame :: below) jobs)
    (hmove : frame.step w (some v) = .go next (some v) frames)
    (hscheduler : next.scheduler = w.scheduler)
    (hbodies : next.bodies = w.bodies)
    (hflags : next.flags = w.flags)
    (hrest : Poised v capacity count seen next (frames ++ below) jobs →
      Reaches v capacity floor kept next (frames ++ below) Q) :
    Reaches v capacity floor kept w (frame :: below) Q :=
  .quiet hfloor hcalm h hmove (h.loaded.of_eq hscheduler hbodies hflags)
    (.of_eq hbodies hflags (by simp)) hrest

/-- A step that changes nothing but the frames. -/
theorem stay
    (hfloor : floor <:+ below)
    (hcalm : frame.isCalm = true)
    (h : Poised v capacity count seen w (frame :: below) jobs)
    (hmove : frame.step w (some v) = .go w (some v) frames)
    (hrest : Poised v capacity count seen w (frames ++ below) jobs →
      Reaches v capacity floor kept w (frames ++ below) Q) :
    Reaches v capacity floor kept w (frame :: below) Q :=
  .silent hfloor hcalm h hmove rfl rfl rfl hrest

/-- A step that counts something. -/
theorem bump
    (hfloor : floor <:+ below)
    (hcalm : frame.isCalm = true)
    (h : Poised v capacity count seen w (frame :: below) jobs)
    {counter : Counter}
    (hstep : frame.step w (some v) =
      w.schedule (·.bump v counter) fun next _ => .go next (some v) frames)
    (hrest : ∀ next, next.bodies = w.bodies → next.flags = w.flags →
      Poised v capacity count seen next (frames ++ below) jobs →
      Reaches v capacity floor kept next (frames ++ below) Q) :
    Reaches v capacity floor kept w (frame :: below) Q := by
  obtain ⟨t, hbump, hloaded⟩ := h.loaded.bump counter
  rw [w.schedule_of_ok (·.bump v counter) _ hbump] at hstep
  exact .quiet hfloor hcalm h hstep hloaded (.of_eq rfl rfl (by simp)) (hrest _ rfl rfl)

/-- A step that pushes a job, and may note that, if there is a slot for it. -/
theorem spawn
    (hfloor : floor <:+ below)
    (hforking : frame.isForking = false)
    (h : Poised v capacity count seen w (frame :: below) jobs)
    {job : JobId}
    (hnote : ∀ k, .began k ∉ frame.note?.toList)
    (hjob : job < w.bodies.size)
    (hseen : job < count → job ∈ seen ++ spawnedIn frame.note?.toList)
    (hstep : frame.step w (some v) = w.schedule (·.push v job) fun next outcome =>
      Machine.mustPush next outcome (.go next (some v) frames))
    (hrest : ∀ next, next.bodies = w.bodies → next.flags = w.flags →
      Poised v capacity count (seen ++ spawnedIn frame.note?.toList) next (frames ++ below)
        (jobs ++ [job]) →
      Reaches v capacity floor kept next (frames ++ below) fun last final more =>
        Q last final (frame.note?.toList ++ more)) :
    Reaches v capacity floor kept w (frame :: below) Q := by
  rcases (h.loaded.see _).push hjob hseen with ⟨t, hpush, hloaded⟩ | ⟨t, hpush⟩
  · rw [w.schedule_of_ok (·.push v job) _ hpush] at hstep
    exact .step hfloor hforking h.spawns hstep (.of_eq rfl rfl hnote) fun hspawns =>
      hrest _ rfl rfl ⟨hloaded, hspawns⟩
  · rw [w.schedule_of_ok (·.push v job) _ hpush] at hstep
    obtain ⟨t, hpassage, haborted⟩ :=
      Passage.error (visits_of_not_isForking capacity hfloor hforking) hstep
    exact .gaveUp hpassage haborted (.inr rfl)

/-- A step that pushes a job without a note, if there is a slot for it. -/
theorem push
    (hfloor : floor <:+ below)
    (hcalm : frame.isCalm = true)
    (h : Poised v capacity count seen w (frame :: below) jobs)
    {job : JobId}
    (hjob : job < w.bodies.size)
    (hseen : job < count → job ∈ seen)
    (hstep : frame.step w (some v) = w.schedule (·.push v job) fun next outcome =>
      Machine.mustPush next outcome (.go next (some v) frames))
    (hrest : ∀ next, next.bodies = w.bodies → next.flags = w.flags →
      Poised v capacity count seen next (frames ++ below) (jobs ++ [job]) →
      Reaches v capacity floor kept next (frames ++ below) Q) :
    Reaches v capacity floor kept w (frame :: below) Q := by
  obtain ⟨hforking, hnote⟩ := Frame.isCalm_iff.mp hcalm
  have hnone : frame.note?.toList = [] := by rw [hnote]; rfl
  refine .spawn hfloor hforking h (by simp [hnone])
    hjob (fun hless => List.mem_append_left _ (hseen hless)) hstep ?_
  simpa only [hnone, spawnedIn_nil, List.append_nil, List.nil_append] using hrest

/-- A step that pops the newest job. -/
theorem pop
    (frames : List Frame)
    (hfloor : floor <:+ below)
    (hcalm : frame.isCalm = true)
    {job : JobId}
    (h : Poised v capacity count seen w (frame :: below) (jobs ++ [job]))
    (hok : ∀ t, w.scheduler.pop v = .ok (t, some job) →
      frame.step w (some v) = .go { w with scheduler := t } (some v) frames)
    (herror : ∀ cause, w.scheduler.pop v = .error cause → frame.step w (some v) = .fail w cause)
    (hrest : ∀ next, next.bodies = w.bodies → next.flags = w.flags →
      Poised v capacity count seen next (frames ++ below) jobs →
      Reaches v capacity floor kept next (frames ++ below) Q) :
    Reaches v capacity floor kept w (frame :: below) Q := by
  rcases h.loaded.pop with ⟨t, hpop, hloaded⟩ | hfail
  · exact .quiet hfloor hcalm h (hok t hpop) hloaded (.of_eq rfl rfl (by simp))
      (hrest _ rfl rfl)
  · have hforking := (Frame.isCalm_iff.mp hcalm).1
    obtain ⟨t, hpassage, haborted⟩ :=
      Passage.error (visits_of_not_isForking capacity hfloor hforking) (herror _ hfail)
    exact .gaveUp hpassage haborted (.inl rfl)

end Reaches
end Calculus
end ForkJoin
end WorkStealing
