import WorkStealing.Proofs.ForkJoin.Reaching

/-!
# Forks among jobs that nobody waits for

The left branch of a fork may leave jobs above the right branch in the deque. Then the
worker finds a foreign job where it looks for the right branch, puts it back
(`putsBack`), and waits: it executes what is in its deque, the newest job first, until
it comes to the right branch. Those jobs fork and spawn in turn, so what a wait does
(`reaches_drained`) and what code does (`performs_code`) are shown together, by induction
on the number of jobs that are still to be taken. Each fork returns with the deque as it
was below what its right branch has left over (`Poised.joins_all`).
-/

namespace WorkStealing
namespace ForkJoin

open Machine (Frame Note Passage System World spawnedIn)

/-- What is so when code has been run that found these jobs in the deque. -/
structure Leaves (v capacity count : Nat) (seen jobs : List JobId) (next : World)
    (notes : List Note) : Prop where
  leaves : ∃ own, Loaded v capacity count (seen ++ spawnedIn notes) next (jobs ++ own) ∧
    Leftover count next jobs own
  balanced : Balanced notes

/-- Code can be run wherever it stands, if no more than so many of the first jobs are left. -/
def Performs (v capacity count left : Nat) (code : Code) : Prop :=
  ∀ {floor below : List Frame} {seen jobs : List JobId} {w : World} (rest : Code),
    floor <:+ below → untaken count w ≤ left →
    Poised v capacity count seen w (.perform (code ++ rest) :: below) jobs →
    Reaches v capacity floor jobs w (.perform (code ++ rest) :: below) fun next final notes =>
      final = .perform rest :: below ∧ Leaves v capacity count seen jobs next notes

inductive Wraps (job : JobId) : Action → Code → Prop where
  | named : Wraps job (.began job) [.ended job]
  | branch : Wraps job (.start job) []

section Jobs

variable {v capacity count left : Nat} {floor below : List Frame} {kept seen jobs : List JobId}
  {w : World} {job : JobId} {first : Action} {code last rest : Code}

/-- What a job does before its code. -/
theorem reaches_first
    {Q : World → List Frame → List Note → Prop}
    (hwraps : Wraps job first last)
    (hfloor : floor <:+ below)
    (hjob : job ∉ kept)
    (h : Poised v capacity count seen w (.perform (first :: rest) :: below) jobs)
    (hrest : ∀ next, Conserves kept w [] next →
      Poised v capacity count seen next (.perform rest :: below) jobs →
      Reaches v capacity floor kept next (.perform rest :: below) Q) :
    Reaches v capacity floor kept w (.perform (first :: rest) :: below) Q := by
  cases hwraps with
  | named =>
      exact .silent hfloor rfl h rfl rfl rfl rfl (hrest _ (.of_eq rfl rfl (by simp)))
  | branch =>
      have hchange : ∀ flags : JobFlags, { flags with started := true }.taken = flags.taken :=
        fun _ => rfl
      have hconserves : Conserves kept w [] _ := Conserves.mark hjob hchange (by simp)
      exact .quiet hfloor rfl h rfl (h.loaded.mark job hchange) hconserves (hrest _ hconserves)

/-- The last that a job does. -/
theorem reaches_complete
    (hfloor : floor <:+ below)
    (hjob : job ∉ kept)
    (hlt : job < w.bodies.size)
    (h : Poised v capacity count seen w (.perform [.complete job] :: .guarded job :: below) jobs) :
    Reaches v capacity floor kept w (.perform [.complete job] :: .guarded job :: below)
      fun next final notes => final = below ∧ notes = [.ended job] ∧
        Loaded v capacity count seen next jobs ∧ next.isDone job = true := by
  have hdeeper : floor <:+ .guarded job :: below := hfloor.trans (List.suffix_cons _ _)
  have hchange : ∀ flags : JobFlags, { flags with done := true }.taken = flags.taken :=
    fun _ => rfl
  have hdone := isDone_complete (h.loaded.flags ▸ hlt)
  refine .noted hdeeper rfl rfl h rfl (h.loaded.mark job hchange)
    (.mark hjob hchange (by simp [Frame.note?])) fun h => ?_
  refine .stay hdeeper rfl h rfl fun h => ?_
  refine .stay hfloor rfl h rfl fun h => ?_
  exact .refl ⟨rfl, rfl, h.loaded, hdone⟩

/-- What a job does after its code. -/
theorem reaches_last
    (hwraps : Wraps job first last)
    (hfloor : floor <:+ below)
    (hjob : job ∉ kept)
    (hlt : job < w.bodies.size)
    (h : Poised v capacity count seen w
      (.perform (last ++ [.complete job]) :: .guarded job :: below) jobs) :
    Reaches v capacity floor kept w (.perform (last ++ [.complete job]) :: .guarded job :: below)
      fun next final notes => final = below ∧ notes = [.ended job] ∧
        Loaded v capacity count seen next jobs ∧ next.isDone job = true := by
  cases hwraps with
  | named =>
      have hdeeper : floor <:+ .guarded job :: below := hfloor.trans (List.suffix_cons _ _)
      exact .silent hdeeper rfl h rfl rfl rfl rfl fun h => reaches_complete hfloor hjob hlt h
  | branch =>
      exact reaches_complete hfloor hjob hlt h

/-- A job is executed from its first action to its last. -/
theorem reaches_execute
    (hwraps : Wraps job first last)
    (hperforms : Performs v capacity count left code)
    (hfloor : floor <:+ below)
    (hbody : w.bodies[job]? = some (first :: code ++ (last ++ [.complete job])))
    (huntaken : w.isTaken job = false)
    (hseen : job < count → job ∈ seen)
    (hjob : job ∉ jobs)
    (hleft : ∀ next, Conserves jobs w [.began job] next → untaken count next ≤ left)
    (h : Poised v capacity count seen w (.execute job :: below) jobs) :
    Reaches v capacity floor jobs w (.execute job :: below) fun next final notes =>
      final = below ∧ Leaves v capacity count seen jobs next notes ∧
        .ended job ∈ notes ∧ next.isDone job = true := by
  have hdeeper : floor <:+ .guarded job :: below := hfloor.trans (List.suffix_cons _ _)
  have hlt := (Array.getElem?_eq_some_iff.mp hbody).1
  have hflags : job < w.flags.size := h.loaded.flags ▸ hlt
  have hfree : w.flags[job].taken = false := by
    simpa [Memory.isTaken, hflags] using huntaken
  have hmove : Frame.step w (some v) (.execute job) =
      .go { w with toMemory := w.setFlags job fun flags => { flags with taken := true } } (some v)
        [.perform (first :: code ++ (last ++ [.complete job])), .guarded job] := by
    rw [Frame.step, hbody, Array.getElem?_eq_getElem hflags]
    simp only [hfree, if_neg Bool.false_ne_true]
  have htake := Conserves.take hjob hflags huntaken
  refine .noted hfloor rfl rfl h hmove (h.loaded.take hflags hseen) htake fun h₁ => ?_
  refine reaches_first hwraps hdeeper hjob h₁ fun w₂ hfirst h₂ => ?_
  have hbegun := htake.trans hfirst
  refine (hperforms (last ++ [.complete job]) hdeeper (hleft w₂ hbegun) h₂).bind
    (List.Subset.refl _) h₂.spawns ?_
  rintro w₃ final notes hcrosses hspawns ⟨rfl, ⟨own, hloaded, hover⟩, hbalanced⟩
  have hall := hbegun.trans hcrosses.conserves
  have htaken : w₃.isTaken job = true := hall.isTaken_of_began (by simp)
  have hapart : job ∉ jobs ++ own := by
    intro hmem
    rcases List.mem_append.mp hmem with hold | hown
    · exact hjob hold
    · exact Bool.noConfusion (htaken.symm.trans (hover.untaken job hown))
  have hlast := reaches_last hwraps hfloor hapart (Nat.lt_of_lt_of_le hlt hall.size_le)
    ⟨hloaded, hspawns⟩
  refine hlast.mono (List.subset_append_left _ _) ?_
  rintro next final more hend ⟨rfl, rfl, hloaded, hdone⟩
  refine ⟨rfl, ⟨⟨own, ?_, hover.conserve hend.conserves⟩, hbalanced.wrap job⟩, ?_, hdone⟩
  · simpa [Frame.note?] using hloaded
  · simp

end Jobs

/-- From this system on, the job is executed when the deque holds these jobs; newer ones have then
ended, and so have all that have begun. -/
def Begins (v capacity : Nat) (floor : List Frame) (s : System) (job : JobId)
    (jobs newer : List JobId) : Prop :=
  ∃ t notes deeper, Passage (Visits v capacity floor) s notes t ∧
    t.Stands v (.execute job :: deeper) jobs ∧ floor <:+ deeper ∧
    (∀ k ∈ newer, .ended k ∈ notes) ∧ Balanced notes

/-- The jobs above these have been executed with these notes, from the newest to the oldest. -/
structure Drained (v capacity : Nat) (floor : List Frame) (s : System) (jobs own : List JobId)
    (notes : List Note) : Prop where
  balanced : Balanced notes
  ended : ∀ job ∈ own, .ended job ∈ notes
  begins : ∀ (i : Nat) job, own[i]? = some job →
    Begins v capacity floor s job (jobs ++ own.take i) (own.drop (i + 1))

section Waiting

variable {v capacity count left : Nat} {floor below : List Frame}
  {kept seen jobs own more newer : List JobId} {w : World} {s t : System} {job r : JobId}
  {notes others : List Note} {e : Nat}

theorem Begins.after
    (h : Begins v capacity floor t job jobs newer)
    (hpassage : Passage (Visits v capacity floor) s notes t)
    (hbalanced : Balanced notes)
    (hmore : ∀ k ∈ more, .ended k ∈ notes) :
    Begins v capacity floor s job jobs (newer ++ more) := by
  obtain ⟨u, last, deeper, hrest, hstands, hfloor, hended, hlast⟩ := h
  refine ⟨u, notes ++ last, deeper, hpassage.trans hrest, hstands, hfloor, fun k hk => ?_,
    hbalanced.append hlast⟩
  rcases List.mem_append.mp hk with hnewer | hfirst
  · exact List.mem_append_right _ (hended k hnewer)
  · exact List.mem_append_left _ (hmore k hfirst)

namespace Drained

theorem nil
    (h : Balanced notes) :
    Drained v capacity floor s jobs [] notes := by
  refine ⟨h, by simp, ?_⟩
  intro i job hjob
  cases hjob

/-- Nothing was left open before. -/
theorem after
    (h : Drained v capacity floor t jobs own others)
    (hpassage : Passage (Visits v capacity floor) s notes t)
    (hbalanced : Balanced notes) :
    Drained v capacity floor s jobs own (notes ++ others) := by
  refine ⟨hbalanced.append h.balanced, fun job hjob => List.mem_append_right _ (h.ended job hjob),
    fun i job hjob => ?_⟩
  have hnone : ∀ k ∈ ([] : List JobId), .ended k ∈ notes := by simp
  simpa only [List.append_nil] using (h.begins i job hjob).after hpassage hbalanced hnone

/-- A newer job was executed before, and left others in its place. -/
theorem concat
    (h : Drained v capacity floor t jobs (own ++ more) others)
    (hpassage : Passage (Visits v capacity floor) s notes t)
    (hbalanced : Balanced notes)
    (hended : .ended job ∈ notes)
    (hbegins : Begins v capacity floor s job (jobs ++ own) []) :
    Drained v capacity floor s jobs (own ++ [job]) (notes ++ others) := by
  refine ⟨hbalanced.append h.balanced, fun k hk => ?_, fun i k hk => ?_⟩
  · rcases List.mem_append.mp hk with hown | hnewest
    · exact List.mem_append_right _ (h.ended k (List.mem_append_left _ hown))
    · rw [List.mem_singleton] at hnewest
      subst hnewest
      exact List.mem_append_left _ hended
  · by_cases hi : i < own.length
    · rw [List.getElem?_append_left hi] at hk
      have hlater := h.begins i k (by rw [List.getElem?_append_left hi, hk])
      rw [List.take_append_of_le_length (Nat.le_of_lt hi),
        List.drop_append_of_le_length hi] at hlater
      obtain ⟨u, last, deeper, hrest, hstands, hfloor, hnewer, hlast⟩ := hlater
      have hown : Begins v capacity floor t k (jobs ++ own.take i) (own.drop (i + 1)) :=
        ⟨u, last, deeper, hrest, hstands, hfloor,
          fun k hk => hnewer k (List.mem_append_left _ hk), hlast⟩
      rw [List.take_append_of_le_length (Nat.le_of_lt hi), List.drop_append_of_le_length hi]
      exact hown.after hpassage hbalanced (by simpa using hended)
    · have hlast : i = own.length := by
        have hlt := (List.getElem?_eq_some_iff.mp hk).1
        simp only [List.length_append, List.length_singleton] at hlt
        omega
      subst hlast
      rw [List.getElem?_concat_length, Option.some.injEq] at hk
      subst hk
      simpa using hbegins

end Drained

/-- A worker that waits for a job that has not ended pops the newest job to execute it. -/
theorem reaches_dispatch
    (kept : List JobId)
    (hfloor : floor <:+ below)
    (hdone : w.isDone r = false)
    (h : Poised v capacity count seen w (.loop .poll v (.jobDone r) e :: below) (jobs ++ [job])) :
    Reaches v capacity floor kept w (.loop .poll v (.jobDone r) e :: below)
      fun next final notes =>
        final = .execute job :: .loop .poll v (.jobDone r) (e + 1) :: below ∧ notes = [] ∧
          Loaded v capacity count seen next jobs := by
  have hpoll : Frame.step w (some v) (.loop .poll v (.jobDone r) e) =
      .go w (some v) [.loop .pop v (.jobDone r) (e + 1)] := by
    simp only [Frame.step, Machine.LoopPoint.step, Machine.Stop.holds, hdone]
  refine .stay hfloor rfl h hpoll fun h => ?_
  refine .pop [.loop (.popped job) v (.jobDone r) (e + 1)] hfloor rfl h (fun t hpop => ?_)
    (fun cause hpop => ?_) fun w₁ _ _ h => ?_
  · rw [Frame.step, Machine.LoopPoint.step, w.schedule_of_ok (·.pop v) _ hpop]
  · rw [Frame.step, Machine.LoopPoint.step, w.schedule_of_error (·.pop v) _ hpop]
  refine .bump hfloor rfl h rfl fun w₂ _ _ h => ?_
  refine .bump hfloor rfl h rfl fun w₃ _ _ h => ?_
  exact .refl ⟨rfl, rfl, h.loaded⟩

/-- The newest job is executed, and what it has spawned and not executed takes its place. -/
theorem reaches_newest
    (hall : ∀ less < left, ∀ code, Code.isLoose count code = true →
      Performs v capacity count less code)
    (hfloor : floor <:+ below)
    (hdone : w.isDone r = false)
    (hleft : untaken count w ≤ left)
    (hover : Leftover count w jobs (own ++ [job]))
    (h : Poised v capacity count seen w (.loop .poll v (.jobDone r) e :: below)
      (jobs ++ (own ++ [job]))) :
    Reaches v capacity floor (jobs ++ own) w (.loop .poll v (.jobDone r) e :: below)
      fun next final notes => final = .loop .poll v (.jobDone r) (e + 1) :: below ∧
        (∃ more, Loaded v capacity count (seen ++ spawnedIn notes) next (jobs ++ (own ++ more)) ∧
          Leftover count next jobs (own ++ more)) ∧
        untaken count next < untaken count w ∧ Balanced notes ∧ .ended job ∈ notes ∧
        Begins v capacity floor (.solo w (.loop .poll v (.jobDone r) e :: below) (some v)) job
          (jobs ++ own) [] := by
  obtain ⟨hrest, hjob, hlt, huntaken⟩ := hover.init
  rw [← List.append_assoc] at h
  have hdeeper : floor <:+ .loop .poll v (.jobDone r) (e + 1) :: below :=
    hfloor.trans (List.suffix_cons _ _)
  refine (reaches_dispatch (jobs ++ own ++ [job]) hfloor hdone h).bind (by simp) h.spawns ?_
  rintro w₁ final notes hfirst hspawns ⟨rfl, rfl, hloaded⟩
  have hconserves := hfirst.conserves
  have hbegins : Begins v capacity floor _ job (jobs ++ own) [] :=
    ⟨_, _, _, hfirst.passage, hloaded.stands _, hdeeper, by simp, .nil⟩
  rw [Machine.spawnedIn_nil, List.append_nil] at hspawns
  have hfree : w₁.isTaken job = false := (hconserves.isTaken_of_mem (by simp)).trans huntaken
  obtain ⟨code, hbody, hloose⟩ := hloaded.named job hlt hfree
  have hpos := untaken_pos hlt huntaken
  have hless := hconserves.untaken_le count
  have hwithin : ∀ next, Conserves (jobs ++ own) w₁ [.began job] next →
      untaken count next ≤ left - 1 := by
    intro next hbegun
    have hfewer := hbegun.untaken_lt hlt hfree (hbegun.isTaken_of_began (by simp))
    omega
  refine (reaches_execute .named (hall (left - 1) (by omega) code hloose) hdeeper hbody hfree
    (h.loaded.queued job (by simp)) hjob hwithin ⟨hloaded, hspawns⟩).mono (List.Subset.refl _) ?_
  rintro w₂ final notes hsecond ⟨rfl, ⟨⟨more, hloaded, hmore⟩, hbalanced⟩, hended, -⟩
  have hfewer := hsecond.conserves.untaken_lt hlt hfree
    (hsecond.conserves.isTaken_of_began (hbalanced.began hended))
  rw [List.append_assoc] at hloaded
  have hstill := (hrest.conserve (hconserves.mono (by simp))).conserve hsecond.conserves
  exact ⟨rfl, ⟨more, hloaded, hstill.append hmore⟩, by omega, hbalanced, hended, hbegins⟩

/-- A worker that waits for a job in its deque executes all newer ones before it. -/
theorem reaches_drained
    (hall : ∀ less < left, ∀ code, Code.isLoose count code = true →
      Performs v capacity count less code)
    (hfloor : floor <:+ below)
    (hr : r ∈ jobs)
    (hdone : w.isDone r = false)
    (hleft : untaken count w ≤ left)
    (hover : Leftover count w jobs own)
    (h : Poised v capacity count seen w (.loop .poll v (.jobDone r) e :: below) (jobs ++ own)) :
    Reaches v capacity floor jobs w (.loop .poll v (.jobDone r) e :: below)
      fun next final notes => (∃ e', final = .loop .poll v (.jobDone r) e' :: below) ∧
        Loaded v capacity count (seen ++ spawnedIn notes) next jobs ∧
        Drained v capacity floor (.solo w (.loop .poll v (.jobDone r) e :: below) (some v)) jobs own
          notes := by
  -- the deque may grow while its newest job is executed, but fewer jobs are left to be taken
  induction left using Nat.strong_induction_on generalizing w seen own e with
  | _ left ih =>
      rcases own.eq_nil_or_concat' with rfl | ⟨own, job, rfl⟩
      · rw [List.append_nil] at h
        exact .refl ⟨⟨e, rfl⟩, h.loaded.see _, .nil .nil⟩
      · refine (reaches_newest hall hfloor hdone hleft hover h).bind (by simp) h.spawns ?_
        rintro w₁ final notes hfirst hspawns
          ⟨rfl, ⟨more, hloaded, hstill⟩, hfewer, hbalanced, hended, hbegins⟩
        have hwaiting : w₁.isDone r = false :=
          (hfirst.conserves.isDone_of_mem (by simp [hr])).trans hdone
        refine (ih (untaken count w₁) (by omega) (fun less hless => hall less (by omega)) hwaiting
          (Nat.le_refl _) hstill ⟨hloaded, hspawns⟩).mono (List.Subset.refl _) ?_
        rintro next final others - ⟨hfinal, hloaded, hdrained⟩
        exact ⟨hfinal, by simpa using hloaded,
          hdrained.concat hfirst.passage hbalanced hended hbegins⟩

end Waiting

/-- The frames of a fork when its right branch is taken up. -/
inductive Resumes (v : Nat) (right : JobId) (below : List Frame) : List Frame → Prop where
  | inline : Resumes v right below (.fork .closing v right [] :: below)
  | waiting (e : Nat) :
      Resumes v right below (.loop .poll v (.jobDone right) e :: .fork .closing v right [] :: below)

/-- A fork that was about to push its right branch, in this system, has returned with these notes:
the jobs above the right branch had all been executed when it began, from the newest to the oldest,
and the deque then held what it had held before. -/
structure Returns (v capacity count : Nat) (seen jobs : List JobId) (s : System) (right : JobId)
    (below : List Frame) (next : World) (final : List Frame) (notes : List Note) : Prop where
  final : final = below
  leaves : Leaves v capacity count seen jobs next notes
  ended : .ended right ∈ notes
  course : ∃ t first above, Passage (Visits v capacity below) s first t ∧
    t.Stands v (.fork .check v right [] :: below) (jobs ++ right :: above) ∧
    ∀ (i : Nat) job, (right :: above)[i]? = some job →
      Begins v capacity below t job (jobs ++ (right :: above).take i)
        ((right :: above).drop (i + 1))

section Forks

variable {v capacity count left : Nat} {floor below deeper : List Frame}
  {kept seen jobs above : List JobId} {w : World} {job r : JobId} {code other : Code}

theorem Loaded.waitFrame
    (h : Loaded v capacity count seen w jobs)
    (stop : Machine.Stop) :
    Machine.waitFrame w.scheduler (some v) stop = .loop .poll v stop 0 := by
  rw [Machine.waitFrame, h.cooperative, h.workerOf]

/-- The right branch is pushed, and the left one is run. -/
theorem reaches_left
    (hperforms : Performs v capacity count left code)
    (hfloor : floor <:+ below)
    (hlt : r < w.bodies.size)
    (hcount : count ≤ r)
    (hleft : untaken count w ≤ left)
    (h : Poised v capacity count seen w (.fork .publish v r code :: below) jobs) :
    Reaches v capacity floor (jobs ++ [r]) w (.fork .publish v r code :: below)
      fun next final notes => final = .fork .check v r [] :: below ∧
        Leaves v capacity count seen (jobs ++ [r]) next notes := by
  have hdeeper : floor <:+ .fork .check v r [] :: below := hfloor.trans (List.suffix_cons _ _)
  refine .push hfloor rfl h hlt (fun hless => absurd hless (Nat.not_lt.mpr hcount)) rfl
    fun w₁ hbodies₁ hflags₁ h => ?_
  refine .bump hfloor rfl h rfl fun w₂ hbodies₂ hflags₂ h => ?_
  have hsame : Conserves [] w [] w₂ :=
    .of_eq (hbodies₂.trans hbodies₁) (hflags₂.trans hflags₁) (by simp)
  have hrun := hperforms [] hdeeper ((hsame.untaken_le count).trans hleft) (by simpa using h)
  rw [List.append_nil] at hrun
  refine hrun.bind (List.Subset.refl _) h.spawns ?_
  rintro w₃ final notes - hspawns ⟨rfl, ⟨own, hloaded, hover⟩, hbalanced⟩
  refine .stay hdeeper rfl ⟨hloaded, hspawns⟩ rfl fun h => ?_
  refine .refl ⟨rfl, ?_⟩
  rw [List.append_nil]
  exact ⟨⟨own, hloaded, hover⟩, hbalanced⟩

/-- After the left branch the newest job is popped, whichever it is. -/
theorem reaches_reclaimed
    {Q : World → List Frame → List Note → Prop}
    (hfloor : floor <:+ below)
    (hstarted : w.isStarted r = false)
    (h : Poised v capacity count seen w (.fork .check v r [] :: below) (jobs ++ [job]))
    (hrest : ∀ next, next.bodies = w.bodies →
      Poised v capacity count seen next (.fork (.reclaimed job) v r [] :: below) jobs →
      Reaches v capacity floor kept next (.fork (.reclaimed job) v r [] :: below) Q) :
    Reaches v capacity floor kept w (.fork .check v r [] :: below) Q := by
  have hcheck : Frame.step w (some v) (.fork .check v r []) =
      .go w (some v) [.fork .reclaim v r []] := by
    simp only [Frame.step, Machine.ForkPoint.step, hstarted, if_neg Bool.false_ne_true]
  refine .stay hfloor rfl h hcheck fun h => ?_
  refine .pop [.fork (.reclaimed job) v r []] hfloor rfl h (fun t hpop => ?_)
    (fun cause hpop => ?_) fun next hbodies _ => hrest next hbodies
  · rw [Frame.step, Machine.ForkPoint.step, w.schedule_of_ok (·.pop v) _ hpop]
  · rw [Frame.step, Machine.ForkPoint.step, w.schedule_of_error (·.pop v) _ hpop]

/-- The right branch is the newest job, and is popped. -/
theorem reaches_inline
    (kept : List JobId)
    (hfloor : floor <:+ below)
    (hstarted : w.isStarted r = false)
    (h : Poised v capacity count seen w (.fork .check v r [] :: below) (jobs ++ [r])) :
    Reaches v capacity floor kept w (.fork .check v r [] :: below)
      fun next final notes => final = .execute r :: .fork .closing v r [] :: below ∧ notes = [] ∧
        Loaded v capacity count seen next jobs := by
  refine reaches_reclaimed hfloor hstarted h fun w₁ _ h => ?_
  have hmine : Frame.step w₁ (some v) (.fork (.reclaimed r) v r []) =
      w₁.schedule (·.bump v .localPops) fun next _ =>
        .go next (some v) [.fork .inlineJoin v r []] := by
    simp only [Frame.step, Machine.ForkPoint.step, if_pos]
  refine .bump hfloor rfl h hmine fun w₂ _ _ h => ?_
  refine .bump hfloor rfl h rfl fun w₃ _ _ h => ?_
  exact .refl ⟨rfl, rfl, h.loaded⟩

/-- Another job is the newest one: it is popped and put back, and the worker waits. -/
theorem reaches_waiting
    (kept : List JobId)
    (hfloor : floor <:+ below)
    (hstarted : w.isStarted r = false)
    (hjob : job ≠ r)
    (h : Poised v capacity count seen w (.fork .check v r [] :: below) (jobs ++ [job])) :
    Reaches v capacity floor kept w (.fork .check v r [] :: below)
      fun next final notes =>
        final = .loop .poll v (.jobDone r) 0 :: .fork .closing v r [] :: below ∧ notes = [] ∧
          Loaded v capacity count seen next (jobs ++ [job]) := by
  have hlt := h.loaded.made job (by simp)
  have hseen := h.loaded.queued job (by simp)
  refine reaches_reclaimed hfloor hstarted h fun w₁ hbodies₁ h => ?_
  have hforeign : Frame.step w₁ (some v) (.fork (.reclaimed job) v r []) =
      w₁.schedule (·.bump v .localPops) fun next _ =>
        .go next (some v) [.fork (.putBack job) v r []] := by
    simp only [Frame.step, Machine.ForkPoint.step, if_neg hjob]
  refine .bump hfloor rfl h hforeign fun w₂ hbodies₂ _ h => ?_
  refine .push hfloor rfl h (by rwa [hbodies₂, hbodies₁]) hseen rfl fun w₃ _ _ h => ?_
  refine .bump hfloor rfl h rfl fun w₄ _ _ h => ?_
  obtain ⟨t, hbump, hloaded⟩ := h.loaded.bump .stolenJoins
  have hjoin : Frame.step w₄ (some v) (.fork .stolenJoin v r []) =
      .go { w₄ with scheduler := t } (some v)
        [.loop .poll v (.jobDone r) 0, .fork .closing v r []] := by
    rw [← hloaded.waitFrame, Frame.step, Machine.ForkPoint.step,
      w₄.schedule_of_ok (·.bump v .stolenJoins) _ hbump]
  refine .quiet hfloor rfl h hjoin hloaded (.of_eq rfl rfl (by simp)) fun h => ?_
  exact .refl ⟨rfl, rfl, h.loaded⟩

/-- After the left branch, all newer jobs are executed before the right one is taken up. -/
theorem reaches_branch
    (hall : ∀ less < left, ∀ code, Code.isLoose count code = true →
      Performs v capacity count less code)
    (hfloor : floor <:+ below)
    (hstarted : w.isStarted r = false)
    (hdone : w.isDone r = false)
    (hleft : untaken count w ≤ left)
    (hover : Leftover count w (jobs ++ [r]) above)
    (h : Poised v capacity count seen w (.fork .check v r [] :: below) (jobs ++ [r] ++ above)) :
    Reaches v capacity floor (jobs ++ [r]) w (.fork .check v r [] :: below)
      fun next final notes => (∃ deeper, final = .execute r :: deeper ∧ Resumes v r below deeper) ∧
        Loaded v capacity count (seen ++ spawnedIn notes) next jobs ∧
        Drained v capacity floor (.solo w (.fork .check v r [] :: below) (some v)) (jobs ++ [r])
          above notes := by
  rcases above.eq_nil_or_concat' with rfl | ⟨above, job, rfl⟩
  · rw [List.append_nil] at h
    refine (reaches_inline (jobs ++ [r]) hfloor hstarted h).mono (List.Subset.refl _) ?_
    rintro next final notes - ⟨rfl, rfl, hloaded⟩
    exact ⟨⟨_, rfl, .inline⟩, hloaded.see _, .nil .nil⟩
  have hjob : job ≠ r := by
    rintro rfl
    exact hover.apart job (by simp) (by simp)
  have hdeeper : floor <:+ .fork .closing v r [] :: below := hfloor.trans (List.suffix_cons _ _)
  rw [← List.append_assoc] at h
  refine (reaches_waiting (jobs ++ [r] ++ (above ++ [job])) hfloor hstarted hjob h).bind (by simp)
    h.spawns ?_
  rintro w₁ final notes hfirst hspawns ⟨rfl, rfl, hloaded⟩
  have hconserves := hfirst.conserves
  rw [Machine.spawnedIn_nil, List.append_nil] at hspawns
  rw [List.append_assoc] at hloaded
  have hwaiting : w₁.isDone r = false := (hconserves.isDone_of_mem (by simp)).trans hdone
  have hdrain := reaches_drained hall hdeeper (by simp) hwaiting
    ((hconserves.untaken_le count).trans hleft) (hover.conserve hconserves) ⟨hloaded, hspawns⟩
  refine hdrain.bind (List.Subset.refl _) hspawns ?_
  rintro w₂ final notes hsecond hspawns ⟨⟨e, rfl⟩, hloaded, hdrained⟩
  have hstill : w₂.isDone r = false :=
    (hsecond.conserves.isDone_of_mem (by simp)).trans hwaiting
  refine (reaches_dispatch (jobs ++ [r]) hdeeper hstill ⟨hloaded, hspawns⟩).mono
    (List.Subset.refl _) ?_
  rintro next final more - ⟨rfl, rfl, hloaded⟩
  refine ⟨⟨_, rfl, .waiting (e + 1)⟩, ?_, ?_⟩
  · simpa using hloaded
  · rw [List.append_nil]
    exact hdrained.after hfirst.passage .nil

/-- The right branch has ended, and so the fork returns. -/
theorem reaches_closing
    (kept : List JobId)
    (hresumes : Resumes v r below deeper)
    (hfloor : floor <:+ below)
    (hdone : w.isDone r = true)
    (h : Poised v capacity count seen w deeper jobs) :
    Reaches v capacity floor kept w deeper fun next final notes =>
      final = below ∧ notes = [] ∧ Loaded v capacity count seen next jobs := by
  cases hresumes with
  | inline =>
      refine .stay hfloor rfl h rfl fun h => ?_
      exact .refl ⟨rfl, rfl, h.loaded⟩
  | waiting e =>
      have hpoll : Frame.step w (some v) (.loop .poll v (.jobDone r) e) = .go w (some v) [] := by
        simp only [Frame.step, Machine.LoopPoint.step, Machine.Stop.holds, hdone]
        rfl
      refine .stay (hfloor.trans (List.suffix_cons _ _)) rfl h hpoll fun h => ?_
      refine .stay hfloor rfl h rfl fun h => ?_
      exact .refl ⟨rfl, rfl, h.loaded⟩

/-- A fork that is about to push its right branch returns when both branches have ended. -/
theorem reaches_return
    (hall : ∀ less < left, ∀ code, Code.isLoose count code = true →
      Performs v capacity count less code)
    (hfirst : Performs v capacity count left code)
    (hsecond : Performs v capacity count left other)
    (hbody : w.bodies[r]? = some (Action.branchBody r other))
    (hflags : w.flags[r]? = some {})
    (hcount : count ≤ r)
    (hr : r ∉ jobs)
    (hleft : untaken count w ≤ left)
    (h : Poised v capacity count seen w (.fork .publish v r code :: below) jobs) :
    Reaches v capacity below jobs w (.fork .publish v r code :: below)
      (Returns v capacity count seen jobs (.solo w (.fork .publish v r code :: below) (some v)) r
        below) := by
  have hfloor := List.suffix_refl below
  have hlt := (Array.getElem?_eq_some_iff.mp hbody).1
  refine (reaches_left hfirst hfloor hlt hcount hleft h).bind (by simp) h.spawns ?_
  rintro w₁ final first hleftCrosses hspawns ⟨rfl, ⟨above, hloaded, hover⟩, hbalanced⟩
  have hconserves := hleftCrosses.conserves
  have hflags₁ : w₁.flags[r]? = some {} := (hconserves.flags r (by simp)).trans hflags
  have hstarted : w₁.isStarted r = false := by rw [Memory.isStarted, hflags₁]
  have hdone : w₁.isDone r = false := by rw [Memory.isDone, hflags₁]
  have hstands := hloaded.stands (.fork .check v r [] :: below)
  rw [List.append_assoc, List.singleton_append] at hstands
  refine (reaches_branch hall hfloor hstarted hdone ((hconserves.untaken_le count).trans hleft)
    hover ⟨hloaded, hspawns⟩).bind (by simp) hspawns ?_
  rintro w₂ final second hbranch hspawns ⟨⟨deeper, rfl, hresumes⟩, hloaded, hdrained⟩
  have hkept := hconserves.trans hbranch.conserves
  have hdeeper : below <:+ deeper := by
    cases hresumes with
    | inline =>
        exact hfloor.trans (List.suffix_cons _ _)
    | waiting e =>
        exact (hfloor.trans (List.suffix_cons _ _)).trans (List.suffix_cons _ _)
  have huntaken : w₂.isTaken r = false := by
    rw [Memory.isTaken, hkept.flags r (by simp), hflags]
    rfl
  have hbegins : Begins v capacity below _ r jobs above :=
    ⟨_, _, _, hbranch.passage, hloaded.stands _, hdeeper, hdrained.ended, hdrained.balanced⟩
  refine (reaches_execute .branch hsecond hdeeper (hkept.bodies r _ hbody) huntaken
    (fun hless => absurd hless (Nat.not_lt.mpr hcount)) hr
    (fun next hbegun => ((hkept.untaken_le count).trans' (hbegun.untaken_le count)).trans hleft)
    ⟨hloaded, hspawns⟩).bind (List.Subset.refl _) hspawns ?_
  rintro w₃ final third - hafter ⟨rfl, ⟨⟨own, hloaded, hbehind⟩, hlast⟩, hended, hdone⟩
  refine (reaches_closing (jobs ++ own) hresumes hfloor hdone ⟨hloaded, hafter⟩).mono (by simp) ?_
  rintro next final fourth hcloses ⟨rfl, rfl, hloaded⟩
  refine ⟨rfl, ⟨⟨own, ?_, hbehind.conserve hcloses.conserves⟩, ?_⟩, ?_, _, first, above,
    hleftCrosses.passage, hstands, fun i job hjob => ?_⟩
  · simpa using hloaded
  · simpa using hbalanced.append (hdrained.balanced.append hlast)
  · simp [hended]
  · cases i with
    | zero =>
        cases hjob
        simpa using hbegins
    | succ i =>
        simpa using hdrained.begins i job hjob

end Forks

section Calls

variable {v capacity count left : Nat} {floor below : List Frame} {seen jobs newer : List JobId}
  {w next : World} {t : System} {job r : JobId} {code other rest : Code}

/-- The job begins before the thread has come down to the floor. -/
theorem Begins.exists_before
    {s : System} {l n : Nat}
    (h : Begins v capacity floor (s.later l) job jobs newer)
    (hbefore : ∀ m < l, ¬ (s.later m).IsAt v floor)
    (hfinish : (s.later n).IsAt v floor) :
    ∃ k deeper, l + k < n ∧ (s.later (l + k)).Stands v (.execute job :: deeper) jobs ∧
      (∀ one ∈ newer, .ended one ∈ (s.later l).notes k) ∧ Balanced ((s.later l).notes k) := by
  obtain ⟨u, notes, deeper, hpassage, hstands, ⟨above, rfl⟩, hended, hbalanced⟩ := h
  obtain ⟨k, rfl, rfl, hall⟩ := hpassage.exists_later
  refine ⟨k, _, ?_, by rwa [System.later_add], hended, hbalanced⟩
  by_contra hlate
  rcases Nat.lt_or_ge n l with hlt | hge
  · exact hbefore n hlt hfinish
  · obtain ⟨j, rfl⟩ := Nat.exists_eq_add_of_le hge
    rw [System.later_add] at hfinish
    rcases Nat.lt_or_eq_of_le (show j ≤ k by omega) with hlt | rfl
    · exact (hall j hlt).above.not_isAt hfinish
    · exact System.Over.not_isAt ⟨.execute job :: above, by simp, hstands.isAt⟩ hfinish

/-- A fork joins if it returns from where it is about to push its right branch. -/
theorem joins_of_reaches
    (hmove : Frame.step w (some v) (.perform (.fork code other :: rest)) =
      .go next (some v) [.fork .publish v r code, .perform rest])
    (hfree : next.isTaken r = false)
    (h : Reaches v capacity (.perform rest :: below) jobs next
      (.fork .publish v r code :: .perform rest :: below)
      (Returns v capacity count seen jobs
        (.solo next (.fork .publish v r code :: .perform rest :: below) (some v)) r
        (.perform rest :: below))) :
    Joins v capacity (.solo w (.perform (.fork code other :: rest) :: below) (some v)) r rest below
      jobs := by
  have hstart : ¬ (System.solo w (.perform (.fork code other :: rest) :: below) (some v)).IsAt v
      (.perform rest :: below) := by
    intro hat
    have hsame := hat.frames_eq (System.isAt_solo w _ v)
    simp at hsame
  have hpending : ∀ s, Visits v capacity (.perform rest :: below) s →
      ¬ s.IsAt v (.perform rest :: below) := fun s h => h.above.not_isAt
  have hstep := Passage.go (P := fun s => ¬ s.IsAt v (.perform rest :: below)) hstart hmove
  generalize System.solo w (.perform (.fork code other :: rest) :: below) (some v) = s at hstep ⊢
  cases h with
  | gaveUp hpassage haborted hcause =>
      obtain ⟨n, rfl, -, hall⟩ := (hstep.trans (hpassage.mono hpending)).exists_later
      exact .gaveUp haborted hcause hall
  | @through last final notes hcrosses hreturns =>
      obtain ⟨rfl, ⟨⟨own, hloaded, -⟩, hbalanced⟩, hended, t, first, above, hfirst, hstands,
        hbegins⟩ := hreturns
      obtain ⟨n, hfinish, hnotes, hall⟩ :=
        (hstep.trans (hcrosses.passage.mono hpending)).exists_later
      have hnotes : s.notes n = notes := hnotes
      obtain ⟨l, hleft, -, hbefore⟩ := (hstep.trans (hfirst.mono hpending)).exists_later
      subst hleft hnotes
      have hreturned : (s.later n).Stands v (.perform rest :: below) (jobs ++ own) := by
        rw [hfinish]
        exact hloaded.stands _
      have honce := hcrosses.conserves.count_began hfree
        (hcrosses.conserves.isTaken_of_began (hbalanced.began hended))
      exact .returned hall hstands
        (fun i job hjob => (hbegins i job hjob).exists_before hbefore hreturned.isAt) hreturned
        ⟨honce, (hbalanced r).trans honce⟩ fun job hjob => hcrosses.conserves.not_began hjob

/-- A system that is about to make a fork which joins. -/
theorem visits_of_joins
    (hfloor : floor <:+ below)
    (hstands : (System.solo w (.perform (.fork code other :: rest) :: below) (some v)).Stands v
      (.perform (.fork code other :: rest) :: below) jobs)
    (hjoins : Joins v capacity (.solo w (.perform (.fork code other :: rest) :: below) (some v))
      w.bodies.size rest below jobs) :
    Visits v capacity floor (.solo w (.perform (.fork code other :: rest) :: below) (some v)) := by
  constructor
  · obtain ⟨above, rfl⟩ := hfloor
    exact ⟨.perform (.fork code other :: rest) :: above, by simp, rfl⟩
  · intro first second more deeper hat
    cases hat.frames_eq (System.isAt_solo w _ v)
    exact ⟨jobs, hstands, hjoins⟩

/-- A fork can be run wherever it stands if its branches can. -/
theorem performs_fork
    (hall : ∀ less < left, ∀ code, Code.isLoose count code = true →
      Performs v capacity count less code)
    (hfirst : Performs v capacity count left code)
    (hsecond : Performs v capacity count left other) :
    Performs v capacity count left [.fork code other] := by
  intro floor below seen jobs w rest hfloor hleft h
  have hmove : Frame.step w (some v) (.perform (.fork code other :: rest)) =
      .go (w.addJob fun job => Action.branchBody job other).1 (some v)
        [.fork .publish v w.bodies.size code, .perform rest] := by
    rw [Frame.step, Machine.Action.step, h.loaded.workerOf]
    rfl
  have hconserves := conserves_addJob jobs (fun job => Action.branchBody job other) h.loaded.flags
    h.loaded.made
  have hadded := h.loaded.addJob fun job => Action.branchBody job other
  have hflags : (w.addJob fun job => Action.branchBody job other).1.flags[w.bodies.size]? =
      some {} := by
    rw [← h.loaded.flags]
    exact Array.getElem?_push_size
  have hspawns := (Passage.go (P := fun _ => True) trivial hmove).spawnsOnce h.spawns
  have hnone : seen ++ spawnedIn (Frame.note? (.perform (.fork code other :: rest))).toList =
      seen := List.append_nil seen
  rw [hnone] at hspawns
  have hreturns := reaches_return hall hfirst hsecond Array.getElem?_push_size hflags
    h.loaded.count_le (fun hmem => Nat.lt_irrefl _ (h.loaded.made _ hmem))
    ((hconserves.untaken_le count).trans hleft) ⟨hadded, hspawns⟩
  have hjoins := joins_of_reaches hmove (by rw [Memory.isTaken, hflags]; rfl) hreturns
  have hlower : ∀ s, Visits v capacity (.perform rest :: below) s → Visits v capacity floor s :=
    fun s hs => hs.lower (hfloor.trans (List.suffix_cons _ _))
  have hstep := Passage.go (visits_of_joins hfloor (h.loaded.stands _) hjoins) hmove
  cases hreturns with
  | gaveUp hpassage haborted hcause =>
      exact .gaveUp (hstep.trans (hpassage.mono hlower)) haborted hcause
  | through hcrosses hreturned =>
      exact .through ⟨hstep.trans (hcrosses.passage.mono hlower),
        hconserves.trans hcrosses.conserves⟩ ⟨hreturned.final, hreturned.leaves⟩

/-- A job that is spawned is left over. -/
theorem performs_spawn
    (hjob : job < count) :
    Performs v capacity count left [.spawn job] := by
  intro floor below seen jobs w rest hfloor hleft h
  have hmove : Frame.step w (some v) (.perform (.spawn job :: rest)) =
      w.schedule (·.push v job) fun next outcome => Machine.mustPush next outcome
        (.go next (some v)
          [.perform (.bump v .jobsSpawned :: .emit (.spawned job (.ok ())) :: rest)]) := by
    rw [Frame.step, Machine.Action.step, Machine.spawnStep, h.loaded.workerOf]
  have hnew : job ∉ seen := by
    refine (h.spawns 1).2 job ?_
    simp [System.notes, Passage.frameAt_solo, Frame.note?]
  have hfree : w.isTaken job = false := by
    by_contra htaken
    exact hnew (h.loaded.taken job hjob (Bool.eq_true_of_not_eq_false htaken))
  refine .spawn hfloor rfl h (by simp [Frame.note?])
    (Nat.lt_of_lt_of_le hjob h.loaded.count_le) (fun _ => by simp [Frame.note?]) hmove
    fun w₁ _ hflags₁ h₁ => ?_
  refine .bump hfloor rfl h₁ rfl fun w₂ _ hflags₂ h₂ => ?_
  refine .silent hfloor rfl h₂ rfl rfl rfl rfl fun h₃ => ?_
  refine .refl ⟨rfl, ⟨[job], h₃.loaded, ?_⟩, ?_⟩
  · refine ⟨by simp, ?_, by simpa using hjob, ?_⟩
    · rw [List.forall_mem_singleton]
      exact fun hmem => hnew (h.loaded.queued job hmem hjob)
    · rw [List.forall_mem_singleton, ← hfree]
      show (w₂.flags[job]?).any JobFlags.taken = _
      rw [hflags₂, hflags₁]
      rfl
  · intro k
    rfl

/-- An action can be run wherever it stands if it does nothing with jobs. -/
theorem performs_silent
    {action : Action}
    (hcalm : ∀ rest, (Frame.perform (action :: rest)).isCalm = true)
    (hmove : ∀ (w : World) rest, ∃ next, Frame.step w (some v) (.perform (action :: rest)) =
      .go next (some v) [.perform rest] ∧ next.scheduler = w.scheduler ∧ next.bodies = w.bodies ∧
        next.flags = w.flags) :
    Performs v capacity count left [action] := by
  intro floor below seen jobs w rest hfloor hleft h
  obtain ⟨next, hgo, hscheduler, hbodies, hflags⟩ := hmove w rest
  refine .silent hfloor (hcalm rest) h hgo hscheduler hbodies hflags fun h => ?_
  exact .refl ⟨rfl, ⟨[], by simpa using h.loaded, .nil count next jobs⟩, .nil⟩

/-- No code at all. -/
theorem performs_nil
    (v capacity count left : Nat) :
    Performs v capacity count left [] := by
  intro floor below seen jobs w rest _ _ h
  exact .refl ⟨rfl, ⟨[], by simpa using h.loaded, .nil count w jobs⟩, .nil⟩

/-- Code after other code. -/
theorem Performs.append
    (h : Performs v capacity count left code)
    (hother : Performs v capacity count left other) :
    Performs v capacity count left (code ++ other) := by
  intro floor below seen jobs w rest hfloor hleft hpoised
  rw [List.append_assoc] at hpoised ⊢
  refine (h (other ++ rest) hfloor hleft hpoised).bind (List.Subset.refl _) hpoised.spawns ?_
  rintro w₁ final notes hcrosses hspawns ⟨rfl, ⟨own, hloaded, hover⟩, hbalanced⟩
  refine (hother rest hfloor ((hcrosses.conserves.untaken_le count).trans hleft)
    ⟨hloaded, hspawns⟩).mono (List.subset_append_left _ _) ?_
  rintro next final more hmore ⟨rfl, ⟨others, hloaded, hothers⟩, hlast⟩
  exact ⟨rfl, ⟨own ++ others, by simpa using hloaded,
    (hover.conserve hmore.conserves).append hothers⟩, hbalanced.append hlast⟩

end Calls

mutual

/-- A loose action can be run wherever it stands, if loose code can when fewer jobs are left. -/
theorem performs_action
    {v capacity count left : Nat}
    (hall : ∀ less < left, ∀ code, Code.isLoose count code = true →
      Performs v capacity count less code)
    (action : Action)
    (hloose : Action.within (Action.isLoose count) action = true) :
    Performs v capacity count left [action] := by
  cases action with
  | fork code other =>
      rw [Action.within, Bool.and_eq_true] at hloose
      exact performs_fork hall (performs_code hall code hloose.1)
        (performs_code hall other hloose.2)
  | spawn job =>
      exact performs_spawn (of_decide_eq_true hloose)
  | log label =>
      refine performs_silent (fun _ => rfl) fun _ _ => ⟨_, rfl, ?_⟩
      exact ⟨rfl, rfl, rfl⟩
  | store cell constant sources =>
      refine performs_silent (fun _ => rfl) fun _ _ => ⟨_, rfl, ?_⟩
      exact ⟨rfl, rfl, rfl⟩
  | joined =>
      refine performs_silent (fun _ => rfl) fun _ _ => ⟨_, rfl, ?_⟩
      exact ⟨rfl, rfl, rfl⟩
  | _ =>
      cases hloose

/-- Loose code can be run wherever it stands, if it can when fewer jobs are left. -/
theorem performs_code
    {v capacity count left : Nat}
    (hall : ∀ less < left, ∀ code, Code.isLoose count code = true →
      Performs v capacity count less code)
    (code : List Action)
    (hloose : Code.within (Action.isLoose count) code = true) :
    Performs v capacity count left code := by
  cases code with
  | nil =>
      exact performs_nil v capacity count left
  | cons action more =>
      rw [Code.within, Bool.and_eq_true] at hloose
      exact Performs.append (performs_action hall action hloose.1)
        (performs_code hall more hloose.2)

end

/-- Loose code can be run wherever it stands. -/
theorem performs_loose
    {v capacity count : Nat}
    (left : Nat) (code : Code)
    (hloose : Code.isLoose count code = true) :
    Performs v capacity count left code := by
  induction left using Nat.strong_induction_on generalizing code with
  | _ left ih =>
      exact performs_code (fun less hless code hcode => ih less hless code hcode) code hloose

/-- If a fork of the worker is about to pop the newest job, and that is not its right branch, the
job is soon back in its place, for which there is always a slot. -/
def PutsBack (v : Nat) (s : System) : Prop :=
  ∀ {right : JobId} {left : Code} {below : List Frame} {jobs : List JobId} {job : JobId},
    s.Stands v (.fork .reclaim v right left :: below) (jobs ++ [job]) → job ≠ right →
      (s.later 1).aborted = some .tagExhausted ∨
        (s.later 1).Stands v (.fork (.reclaimed job) v right left :: below) jobs ∧
        (s.later 3).Stands v (.fork .putBackCount v right left :: below) (jobs ++ [job])

theorem putsBack
    (v : Nat) (s : System) :
    PutsBack v s := by
  intro right left below jobs job ⟨hat, place, hplace, hholds⟩ hjob
  rw [hat]
  generalize s.world = w at hplace
  rcases hholds.pop_push with ⟨d, e, hpop, hrest, -, hpush, hback, -⟩ | hfail
  · let counted : Place := { place with deque := d, stats := place.stats.bump .localPops }
    let w₁ : World := { w with scheduler := w.scheduler.put v { place with deque := d } }
    let w₂ : World := { w₁ with scheduler := w₁.scheduler.put v counted }
    let w₃ : World := { w₂ with scheduler := w₂.scheduler.put v { counted with deque := e } }
    have hplace₁ := Scheduler.place_put_self hplace { place with deque := d }
    have hplace₂ := Scheduler.place_put_self hplace₁ counted
    have hplace₃ := Scheduler.place_put_self hplace₂ { counted with deque := e }
    have hreclaim : Frame.step w (some v) (.fork .reclaim v right left) =
        .go w₁ (some v) [.fork (.reclaimed job) v right left] := by
      rw [Frame.step, Machine.ForkPoint.step,
        w.schedule_of_ok (·.pop v) _ (Scheduler.onDeque_of_ok hplace hpop)]
    have hcount : Frame.step w₁ (some v) (.fork (.reclaimed job) v right left) =
        .go w₂ (some v) [.fork (.putBack job) v right left] := by
      rw [Frame.step, Machine.ForkPoint.step,
        w₁.schedule_of_ok (·.bump v .localPops) _ (Scheduler.bump_of_place hplace₁ .localPops)]
      exact if_neg hjob
    have hreturn : Frame.step w₂ (some v) (.fork (.putBack job) v right left) =
        .go w₃ (some v) [.fork .putBackCount v right left] := by
      rw [Frame.step, Machine.ForkPoint.step,
        w₂.schedule_of_ok (·.push v job) _ (Scheduler.onDeque_of_ok hplace₂ hpush)]
      rfl
    have hfirst : ∀ n, System.later (.solo w (.fork .reclaim v right left :: below) (some v))
        (n + 1) =
        System.later (.solo w₁ (.fork (.reclaimed job) v right left :: below) (some v)) n :=
      Passage.later_solo hreclaim
    have hthird := ((hfirst 2).trans (Passage.later_solo hcount 1)).trans
      (Passage.later_solo hreturn 0)
    rw [hfirst 0, hthird]
    exact .inr ⟨⟨System.isAt_solo _ _ _, _, hplace₁, hrest⟩,
      ⟨System.isAt_solo _ _ _, _, hplace₃, hback⟩⟩
  · have hreclaim : Frame.step w (some v) (.fork .reclaim v right left) =
        .fail w (.error .tagExhausted) := by
      rw [Frame.step, Machine.ForkPoint.step,
        w.schedule_of_error (·.pop v) _ (Scheduler.onDeque_of_error hplace hfail)]
    exact .inl (congrArg System.aborted (System.advance_of_error rfl
      (System.Comes.thread_solo w _ (some v)) rfl hreclaim))

/-- Wherever a lone worker runs loose code, and whatever is in its deque, each fork that it makes on
the way joins as it should, also those of the jobs that it executes meanwhile. It comes to the end
of the code with the deque as it found it below what was left over, and so is poised to go on with
what comes after, unless it gives the process up for want of a slot or of a tag. -/
theorem Poised.joins_all
    {v capacity count : Nat} {seen jobs : List JobId} {w : World} {program rest : Code}
    {below : List Frame}
    (h : Poised v capacity count seen w (.perform (program ++ rest) :: below) jobs)
    (hloose : Code.isLoose count program = true) :
    let s := System.solo w (.perform (program ++ rest) :: below) (some v)
    ∃ n, (∀ m < n, Visits v capacity below (s.later m) ∧ PutsBack v (s.later m)) ∧
      ((∃ cause, (s.later n).aborted = some cause ∧
          (cause = .tagExhausted ∨ cause = .dequeOverflow capacity)) ∨
        ∃ own, (s.later n).IsAt v (.perform rest :: below) ∧
          Poised v capacity count (seen ++ spawnedIn (s.notes n)) (s.later n).world
            (.perform rest :: below) (jobs ++ own)) := by
  intro s
  cases performs_loose (untaken count w) program hloose rest (List.suffix_refl below)
    (Nat.le_refl _) h with
  | gaveUp hpassage haborted hcause =>
      obtain ⟨n, rfl, -, hall⟩ := hpassage.exists_later
      exact ⟨n, fun m hm => ⟨hall m hm, putsBack v _⟩, .inl ⟨_, haborted, hcause⟩⟩
  | through hcrosses hafter =>
      obtain ⟨rfl, ⟨own, hloaded, -⟩, -⟩ := hafter
      have hspawns := hcrosses.passage.spawnsOnce h.spawns
      obtain ⟨n, hlater, rfl, hall⟩ := hcrosses.passage.exists_later
      refine ⟨n, fun m hm => ⟨hall m hm, putsBack v _⟩, .inr ⟨own, ?_, ?_⟩⟩
      · rw [hlater]
        exact System.isAt_solo _ _ _
      · rw [hlater]
        exact ⟨hloaded, hspawns⟩

/-- A worker with a job in its deque, and two jobs to be spawned, the first of which spawns the
second one and forks. -/
def backlog : World :=
  { scheduler :=
      { config := {}, maxWorkers := 1, stealTrials := 2, idleSleep := .ofParts 0 500
        places :=
          #[{ deque :=
                { capacity := 8, capacity_pos := by decide, capacity_le := by decide, bottom := 1
                  slots := #[some 2] } }] }
    flags := Array.replicate 3 {}
    bodies :=
      #[Action.namedBody 0 [.spawn 1, .fork [] [.log "a"]], Action.namedBody 1 [.log "b"],
        Action.namedBody 2 [.log "c"]] }

/-- A fork whose left branch spawns the first job without waiting for it. -/
def backlogCode : Code :=
  [.fork [.spawn 0] [.log "d"], .log "e"]

theorem backlog_poised :
    Poised 0 8 3 [2] backlog [.perform (backlogCode ++ [])] [2] := by
  refine ⟨⟨⟨_, rfl, ⟨rfl, by decide, rfl, trivial⟩, rfl⟩, rfl, rfl, by decide, by decide, by decide,
    by decide, ?_⟩, ?_⟩
  · intro job hjob _
    match job, hjob with
    | 0, _ =>
        exact ⟨_, rfl, rfl⟩
    | 1, _ =>
        exact ⟨_, rfl, rfl⟩
    | 2, _ =>
        exact ⟨_, rfl, rfl⟩
  · exact System.spawnsOnce_of_hasEnded (k := 66) (by decide +kernel) (by decide +kernel)

/-- The worker comes to the end of the code with the job that it had before in its deque. -/
theorem backlog_joins :
    Poised 0 8 3 [2] backlog [.perform (backlogCode ++ [])] [2] ∧
      Code.isLoose 3 backlogCode = true ∧
      let s := System.solo backlog [.perform (backlogCode ++ [])] (some 0)
      (∀ m < 65, Visits 0 8 [] (s.later m) ∧ PutsBack 0 (s.later m)) ∧
        (s.later 65).IsAt 0 [.perform []] ∧
        Poised 0 8 3 [2, 0, 1] (s.later 65).world [.perform []] [2] := by
  refine ⟨backlog_poised, rfl, ?_⟩
  intro s
  have hstart : System.solo backlog [.perform (backlogCode ++ [])] (some 0) = s := rfl
  obtain ⟨n, hall, hend⟩ := backlog_poised.joins_all rfl
  have hlast : (s.later 66).HasEnded ∧ (s.later 66).aborted = none ∧ ¬ (s.later 65).HasEnded := by
    decide +kernel
  have hcontents : ((s.later 65).world.scheduler.places[0]?).map (·.deque.contents) =
      some [some 2] := by
    decide +kernel
  have hspawned : spawnedIn (s.notes 65) = [0, 1] := by
    decide +kernel
  rw [hstart] at hall hend
  clear_value s
  obtain ⟨hended, hgoing, hopen⟩ := hlast
  obtain ⟨cause, haborted, -⟩ | ⟨own, hat, hpoised⟩ := hend
  · cases (System.going_of_hasEnded hended hgoing n).symm.trans haborted
  · have hbefore : n < 66 := by
      refine System.lt_of_hasEnded ?_ hended
      rw [hat]
      exact Bool.false_ne_true
    have hafter : 65 < n + 1 := by
      refine System.lt_of_hasEnded hopen ?_
      rw [System.later_add, hat]
      rfl
    obtain rfl : n = 65 := by
      omega
    obtain rfl : own = [] := by
      simpa using hpoised.loaded.contents_eq.symm.trans hcontents
    rw [hspawned] at hpoised
    exact ⟨hall, hat, hpoised⟩

end ForkJoin
end WorkStealing
