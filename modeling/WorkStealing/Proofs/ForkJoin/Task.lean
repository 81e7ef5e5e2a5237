import WorkStealing.Proofs.ForkJoin.Interleaving

/-!
# What is left to be done

What is left of a job is a list of items, the outermost first: code that is
still to be run, and forks whose right branch is still to be joined. An inner
item has to be done before an outer one. Each right branch has such a list too,
so that what is left of a run as a whole is a tree, a `Task`.

A step of a worker changes the innermost items of one job. This module shows
what such a change does to the whole tree: if the new items can do, after the
actions of the step, only what the old ones could, then this is so for the
whole run.
-/

namespace WorkStealing
namespace ForkJoin

/-- Something that is left of a job. -/
inductive Item where
  | code (rest : Code)
  /-- A right branch that is still to be joined, while it may go on. -/
  | join (job : JobId)

def Item.ofCode : Code → List Item
  | [] => []
  | action :: rest => [.code (action :: rest)]

/-- What is left of a job with all the right branches that it waits for. -/
inductive Task where
  | nil
  | andThen (task : Task) (code : Code)
  /-- The task, and what is left of another job at the same time. -/
  | beside (task : Task) (job : JobId) (other : Task)

namespace Task

def jobs : Task → List JobId
  | nil => []
  | andThen task _ => task.jobs
  | beside task job other => job :: (task.jobs ++ other.jobs)

/-- The plain actions of a task in an order in which they may happen. -/
inductive Runs : Task → List Action → Prop where
  | nil : Runs nil []
  | andThen {task : Task} {code : Code} {before after : List Action} :
      Runs task before → Interleaving code after → Runs (andThen task code) (before ++ after)
  | beside {task other : Task} {job : JobId} {first second both : List Action} :
      Runs task first → Runs other second → Shuffle first second both →
      Runs (beside task job other) both

/-- The first task may become the second one with these actions, where some right branches are
joined and others are new. -/
structure Becomes (t u : Task) (emitted : List Action) (gone fresh : List JobId) : Prop where
  /-- What can still happen could have happened after these actions. -/
  runs : ∀ trace, u.Runs trace → t.Runs (emitted ++ trace)
  jobs : (gone ++ u.jobs).Perm (fresh ++ t.jobs)

namespace Becomes

variable {t u : Task} {emitted : List Action} {gone fresh : List JobId}

theorem andThen
    (h : t.Becomes u emitted gone fresh)
    (code : Code) :
    (t.andThen code).Becomes (u.andThen code) emitted gone fresh := by
  refine ⟨?_, h.jobs⟩
  intro trace htrace
  cases htrace with
  | andThen hbefore hafter =>
      rw [← List.append_assoc]
      exact .andThen (h.runs _ hbefore) hafter

theorem beside_left
    (h : t.Becomes u emitted gone fresh)
    (job : JobId) (other : Task) :
    (t.beside job other).Becomes (u.beside job other) emitted gone fresh := by
  constructor
  · intro trace htrace
    cases htrace with
    | beside hfirst hsecond hboth =>
        exact .beside (h.runs _ hfirst) hsecond (hboth.left_append emitted)
  · have hjobs := h.jobs
    rw [List.perm_iff_count] at hjobs ⊢
    intro k
    have hk := hjobs k
    simp only [Task.jobs, List.count_append, List.count_cons] at hk ⊢
    omega

theorem beside_right
    (h : t.Becomes u emitted gone fresh)
    (task : Task) (job : JobId) :
    (task.beside job t).Becomes (task.beside job u) emitted gone fresh := by
  constructor
  · intro trace htrace
    cases htrace with
    | beside hfirst hsecond hboth =>
        exact .beside hfirst (h.runs _ hsecond) (hboth.right_append emitted)
  · have hjobs := h.jobs
    rw [List.perm_iff_count] at hjobs ⊢
    intro k
    have hk := hjobs k
    simp only [Task.jobs, List.count_append, List.count_cons] at hk ⊢
    omega

end Becomes
end Task

/-- The task is what is left according to the items, where the items of each job are given. -/
inductive Fits (items : JobId → List Item) : List Item → Task → Prop where
  | nil : Fits items [] .nil
  | code {inner : List Item} {task : Task} {rest : Code} :
      Fits items inner task → Fits items (.code rest :: inner) (task.andThen rest)
  | join {inner : List Item} {task other : Task} {job : JobId} :
      Fits items inner task → Fits items (items job) other →
      Fits items (.join job :: inner) (task.beside job other)

namespace Fits

variable {items after : JobId → List Item} {list : List Item} {task : Task}

/-- Only the items of the right branches in the task matter. -/
theorem congr
    (h : Fits items list task)
    (hsame : ∀ k ∈ task.jobs, after k = items k) :
    Fits after list task := by
  induction h with
  | nil =>
      exact .nil
  | code _ ih =>
      exact .code (ih hsame)
  | join _ _ ihinner ihother =>
      simp only [Task.jobs, List.mem_cons, List.mem_append] at hsame
      refine .join (ihinner fun k hk => hsame k (Or.inr (Or.inl hk))) ?_
      rw [hsame _ (Or.inl rfl)]
      exact ihother fun k hk => hsame k (Or.inr (Or.inr hk))

/-- A change of the innermost items of a job changes what is left of the job. -/
theorem change_inner
    {outer inner more : List Item} {emitted : List Action} {gone fresh : List JobId}
    (h : Fits items (outer ++ inner) task)
    (hsame : ∀ k ∈ task.jobs, after k = items k)
    (hinner : ∀ t, Fits items inner t → (∀ k ∈ t.jobs, after k = items k) →
      ∃ u, Fits after more u ∧ t.Becomes u emitted gone fresh) :
    ∃ u, Fits after (outer ++ more) u ∧ task.Becomes u emitted gone fresh := by
  induction outer generalizing task with
  | nil =>
      exact hinner task h hsame
  | cons item rest ih =>
      cases h with
      | code hrest =>
          obtain ⟨u, hu, hbecomes⟩ := ih hrest hsame
          exact ⟨_, .code hu, hbecomes.andThen _⟩
      | @join _ t other job hrest hother =>
          simp only [Task.jobs, List.mem_cons, List.mem_append] at hsame
          obtain ⟨u, hu, hbecomes⟩ := ih hrest fun k hk => hsame k (Or.inr (Or.inl hk))
          have hkeep : Fits after (after job) other := by
            rw [hsame job (Or.inl rfl)]
            exact hother.congr fun k hk => hsame k (Or.inr (Or.inr hk))
          exact ⟨_, .join hu hkeep, hbecomes.beside_left _ _⟩

/-- A change of one right branch in a task changes the task. -/
theorem change_job
    {j : JobId} {emitted : List Action} {gone fresh : List JobId}
    (h : Fits items list task)
    (hj : j ∈ task.jobs)
    (hnodup : task.jobs.Nodup)
    (hothers : ∀ k ∈ task.jobs, k ≠ j → after k = items k)
    (hjob : ∀ t, Fits items (items j) t → (∀ k ∈ t.jobs, after k = items k) →
      ∃ u, Fits after (after j) u ∧ t.Becomes u emitted gone fresh) :
    ∃ u, Fits after list u ∧ task.Becomes u emitted gone fresh := by
  induction h with
  | nil =>
      cases hj
  | code _ ih =>
      obtain ⟨u, hu, hbecomes⟩ := ih hj hnodup hothers
      exact ⟨_, .code hu, hbecomes.andThen _⟩
  | @join inner t other job hinner hother ihinner ihother =>
      simp only [Task.jobs, List.mem_cons, List.mem_append] at hj hothers
      rw [Task.jobs, List.nodup_cons, List.nodup_append] at hnodup
      obtain ⟨hjobNotin, hnodupInner, hnodupOther, hdisjoint⟩ := hnodup
      rw [List.mem_append, not_or] at hjobNotin
      rcases hj with rfl | hj | hj
      · have hkeepInner : Fits after inner t := by
          refine hinner.congr fun k hk => hothers k (Or.inr (Or.inl hk)) ?_
          rintro rfl
          exact hjobNotin.1 hk
        have hkeepOther : ∀ k ∈ other.jobs, after k = items k := by
          intro k hk
          refine hothers k (Or.inr (Or.inr hk)) ?_
          rintro rfl
          exact hjobNotin.2 hk
        obtain ⟨u, hu, hbecomes⟩ := hjob other hother hkeepOther
        exact ⟨_, .join hkeepInner hu, hbecomes.beside_right _ _⟩
      · obtain ⟨u, hu, hbecomes⟩ := ihinner hj hnodupInner
          fun k hk hne => hothers k (Or.inr (Or.inl hk)) hne
        have hkeepOther : Fits after (after job) other := by
          have hne : job ≠ j := by
            rintro rfl
            exact hjobNotin.1 hj
          rw [hothers job (Or.inl rfl) hne]
          refine hother.congr fun k hk => hothers k (Or.inr (Or.inr hk)) ?_
          rintro rfl
          exact hdisjoint k hj k hk rfl
        exact ⟨_, .join hu hkeepOther, hbecomes.beside_left _ _⟩
      · obtain ⟨u, hu, hbecomes⟩ := ihother hj hnodupOther
          fun k hk hne => hothers k (Or.inr (Or.inr hk)) hne
        have hkeepInner : Fits after inner t := by
          refine hinner.congr fun k hk => hothers k (Or.inr (Or.inl hk)) ?_
          rintro rfl
          exact hdisjoint k hk k hj rfl
        have hne : job ≠ j := by
          rintro rfl
          exact hjobNotin.2 hj
        rw [← hothers job (Or.inl rfl) hne] at hu
        exact ⟨_, .join hkeepInner hu, hbecomes.beside_right _ _⟩

/-- The task with code after it. -/
theorem ofCode
    (h : Fits items list task)
    (rest : Code) :
    ∃ u, Fits items (Item.ofCode rest ++ list) u ∧ u.jobs = task.jobs ∧
      ∀ trace, u.Runs trace → ∃ before last, trace = before ++ last ∧
        task.Runs before ∧ Interleaving rest last := by
  cases rest with
  | nil =>
      exact ⟨task, h, rfl, fun trace htrace =>
        ⟨trace, [], (List.append_nil trace).symm, htrace, .nil⟩⟩
  | cons action rest =>
      refine ⟨_, .code h, rfl, ?_⟩
      intro trace htrace
      cases htrace with
      | andThen hbefore hlast =>
          exact ⟨_, _, rfl, hbefore, hlast⟩

/-- The first action of some code is done, and the rest may follow on what it did. -/
theorem change_head
    {action : Action} {rest : Code} {emitted : List Action}
    (hfollow : ∀ last, Interleaving rest last → Interleaving (action :: rest) (emitted ++ last))
    (h : Fits items [.code (action :: rest)] task) :
    ∃ u, Fits after (Item.ofCode rest) u ∧ task.Becomes u emitted [] [] := by
  cases h with
  | code hnil =>
      cases hnil
      obtain ⟨u, hu, hjobs, hruns⟩ := ofCode (.nil : Fits after [] .nil) rest
      rw [List.append_nil] at hu
      refine ⟨u, hu, ⟨?_, by rw [hjobs]; exact .refl _⟩⟩
      intro trace htrace
      obtain ⟨before, last, rfl, hbefore, hlast⟩ := hruns trace htrace
      cases hbefore
      have hrun := Task.Runs.andThen Task.Runs.nil (hfollow last hlast)
      exact hrun

theorem change_plain
    {action : Action} {rest : Code}
    (hplain : action.isPlain = true)
    (h : Fits items [.code (action :: rest)] task) :
    ∃ u, Fits after (Item.ofCode rest) u ∧ task.Becomes u [action] [] [] :=
  h.change_head fun _ hlast => .plain hplain hlast

theorem change_silent
    {action : Action} {rest : Code}
    (hsilent : action.isSilent = true)
    (h : Fits items [.code (action :: rest)] task) :
    ∃ u, Fits after (Item.ofCode rest) u ∧ task.Becomes u [] [] [] :=
  h.change_head fun _ hlast => .silent hsilent hlast

/-- What is left after a fork has made its right branch a job. -/
theorem change_fork
    {left right rest : Code} {job : JobId}
    (hjob : after job = [.code (Action.branchBody job right)])
    (h : Fits items [.code (.fork left right :: rest)] task) :
    ∃ u, Fits after (Item.ofCode rest ++ .join job :: Item.ofCode left) u ∧
      task.Becomes u [] [] [job] := by
  cases h with
  | code hnil =>
      cases hnil
      obtain ⟨first, hfirst, hjobsFirst, hrunsFirst⟩ := ofCode (.nil : Fits after [] .nil) left
      rw [List.append_nil] at hfirst
      have hbranch : Fits after (after job) (Task.nil.andThen (Action.branchBody job right)) := by
        rw [hjob]
        exact .code .nil
      obtain ⟨u, hu, hjobs, hruns⟩ := ofCode (.join hfirst hbranch) rest
      refine ⟨u, hu, ⟨?_, ?_⟩⟩
      · intro trace htrace
        obtain ⟨before, last, rfl, hbefore, hlast⟩ := hruns trace htrace
        cases hbefore with
        | beside hone htwo hboth =>
            obtain ⟨_, _, rfl, hnone, hleft⟩ := hrunsFirst _ hone
            cases hnone
            cases htwo with
            | andThen hnone hright =>
                cases hnone
                have hrun := Task.Runs.andThen Task.Runs.nil
                  (Interleaving.fork hleft hright.branchBody_inv hboth hlast)
                exact hrun
      · simp only [hjobs, Task.jobs, hjobsFirst]
        exact .refl _

/-- What is left after a right branch that has ended was joined. -/
theorem change_join
    {job : JobId}
    (hjob : items job = [])
    (h : Fits items [.join job] task) :
    ∃ u, Fits after [] u ∧ task.Becomes u [] [job] [] := by
  cases h with
  | join hnil hother =>
      cases hnil
      rw [hjob] at hother
      cases hother
      refine ⟨.nil, .nil, ⟨?_, .refl _⟩⟩
      intro trace htrace
      cases htrace
      exact .beside .nil .nil .nil

/-- There is an order for what is left. -/
theorem exists_runs
    (h : Fits items list task)
    (hlist : ∀ rest, Item.code rest ∈ list → Code.within Action.isPlainOrSilent rest = true)
    (hitems : ∀ k rest, Item.code rest ∈ items k →
      Code.within Action.isPlainOrSilent rest = true) :
    ∃ trace, task.Runs trace := by
  induction h with
  | nil =>
      exact ⟨[], .nil⟩
  | code _ ih =>
      obtain ⟨before, hbefore⟩ := ih fun rest hrest => hlist rest (List.mem_cons_of_mem _ hrest)
      have hcode := hlist _ List.mem_cons_self
      exact ⟨_, .andThen hbefore (Code.interleaving_inOrder _ hcode)⟩
  | join _ _ ihinner ihother =>
      obtain ⟨first, hfirst⟩ :=
        ihinner fun rest hrest => hlist rest (List.mem_cons_of_mem _ hrest)
      obtain ⟨second, hsecond⟩ := ihother (hitems _)
      exact ⟨_, .beside hfirst hsecond (.append _ _)⟩

end Fits

/-- What is left of a run with so many jobs: the items of all jobs make one tree, and whatever the
tree can still do completes the actions performed so far to what the thunk may do. -/
def Pending (thunk : Code) (root : JobId) (count : Nat) (items : JobId → List Item)
    (performed : List Action) : Prop :=
  ∃ task, Fits items (items root) task ∧ (root :: task.jobs).Nodup ∧
    (∀ k ∈ root :: task.jobs, k < count) ∧
    (∀ k, items k ≠ [] → k ∈ root :: task.jobs) ∧
    ∀ trace, task.Runs trace → Interleaving thunk (performed ++ trace)

namespace Pending

variable {thunk : Code} {root : JobId} {count : Nat} {items after : JobId → List Item}
  {performed : List Action}

/-- A change of the innermost items of one job. -/
theorem change
    {j : JobId} {outer inner more : List Item} {emitted : List Action}
    {gone fresh : List JobId} {total : Nat}
    (h : Pending thunk root count items performed)
    (hj : items j = outer ++ inner)
    (hleft : items j ≠ [])
    (hmore : after j = outer ++ more)
    (hothers : ∀ k, k ≠ j → k ∉ fresh → after k = items k)
    (htotal : count ≤ total)
    (hfresh : ∀ k ∈ fresh, count ≤ k ∧ k < total)
    (hnew : fresh.Nodup)
    (hgone : ∀ k ∈ gone, after k = [])
    (hinner : ∀ t, Fits items inner t → (∀ k ∈ t.jobs, after k = items k) →
      ∃ u, Fits after more u ∧ t.Becomes u emitted gone fresh) :
    Pending thunk root total after (performed ++ emitted) := by
  obtain ⟨task, hfits, hnodup, hbound, hcover, hruns⟩ := h
  have hapart : ∀ k ∈ root :: task.jobs, k ∉ fresh := by
    intro k hk hkfresh
    exact absurd (hbound k hk) (Nat.not_lt_of_le (hfresh k hkfresh).1)
  have hjob : ∀ t, Fits items (items j) t → (∀ k ∈ t.jobs, after k = items k) →
      ∃ u, Fits after (after j) u ∧ t.Becomes u emitted gone fresh := by
    intro t ht hsame
    rw [hj] at ht
    rw [hmore]
    exact ht.change_inner hsame hinner
  obtain ⟨u, hu, hbecomes⟩ :
      ∃ u, Fits after (after root) u ∧ task.Becomes u emitted gone fresh := by
    by_cases hroot : j = root
    · subst hroot
      refine hjob task hfits fun k hk => hothers k ?_ (hapart k (List.mem_cons_of_mem _ hk))
      rintro rfl
      exact (List.nodup_cons.mp hnodup).1 hk
    · have hin : j ∈ task.jobs :=
        (List.mem_cons.mp (hcover j hleft)).resolve_left hroot
      rw [hothers root (Ne.symm hroot) (hapart root List.mem_cons_self)]
      exact hfits.change_job hin (List.nodup_cons.mp hnodup).2
        (fun k hk hne => hothers k hne (hapart k (List.mem_cons_of_mem _ hk))) hjob
  have hall : (root :: (gone ++ u.jobs)).Perm (fresh ++ (root :: task.jobs)) :=
    (hbecomes.jobs.cons root).trans List.perm_middle.symm
  have hallNodup : (root :: (gone ++ u.jobs)).Nodup := by
    rw [hall.nodup_iff, List.nodup_append]
    refine ⟨hnew, hnodup, ?_⟩
    rintro k hk l hl rfl
    exact hapart k hl hk
  have hsub : (root :: u.jobs).Sublist (root :: (gone ++ u.jobs)) :=
    (List.sublist_append_right gone u.jobs).cons_cons root
  refine ⟨u, hu, hallNodup.sublist hsub, ?_, ?_, ?_⟩
  · intro k hk
    rcases List.mem_append.mp (hall.mem_iff.mp (hsub.subset hk)) with hk | hk
    · exact (hfresh k hk).2
    · exact Nat.lt_of_lt_of_le (hbound k hk) htotal
  · intro k hk
    have hmem : k ∈ root :: (gone ++ u.jobs) := by
      apply hall.mem_iff.mpr
      by_cases hkfresh : k ∈ fresh
      · exact List.mem_append_left _ hkfresh
      · refine List.mem_append_right _ ?_
        by_cases hkj : k = j
        · rw [hkj]
          exact hcover j hleft
        · rw [hothers k hkj hkfresh] at hk
          exact hcover k hk
    rcases List.mem_cons.mp hmem with rfl | hmem
    · exact List.mem_cons_self
    · rcases List.mem_append.mp hmem with hkgone | hmem
      · exact absurd (hgone k hkgone) hk
      · exact List.mem_cons_of_mem _ hmem
  · intro trace htrace
    rw [List.append_assoc]
    exact hruns _ (hbecomes.runs trace htrace)

/-- Where the first job has ended, the run has done what its thunk asks for, and nothing is left
of any job. -/
theorem ended
    (h : Pending thunk root count items performed)
    (hroot : items root = []) :
    Interleaving thunk performed ∧ ∀ k, items k = [] := by
  obtain ⟨task, hfits, -, -, hcover, hruns⟩ := h
  rw [hroot] at hfits
  cases hfits
  refine ⟨?_, ?_⟩
  · have hdone := hruns [] .nil
    rw [List.append_nil] at hdone
    exact hdone
  · intro k
    by_cases hk : items k = []
    · exact hk
    · have hmem := hcover k hk
      rw [Task.jobs, List.mem_singleton] at hmem
      rw [hmem]
      exact hroot

/-- What was performed so far can be completed. -/
theorem exists_completion
    (h : Pending thunk root count items performed)
    (hitems : ∀ k rest, k < count → Item.code rest ∈ items k →
      Code.within Action.isPlainOrSilent rest = true) :
    ∃ rest, Interleaving thunk (performed ++ rest) := by
  obtain ⟨task, hfits, -, hbound, hcover, hruns⟩ := h
  have hcode : ∀ k rest, Item.code rest ∈ items k →
      Code.within Action.isPlainOrSilent rest = true := by
    intro k rest hrest
    exact hitems k rest (hbound k (hcover k (List.ne_nil_of_mem hrest))) hrest
  obtain ⟨trace, htrace⟩ := hfits.exists_runs (hcode root) hcode
  exact ⟨trace, hruns trace htrace⟩

end Pending
end ForkJoin
end WorkStealing
