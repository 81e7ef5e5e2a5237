import WorkStealing.Proofs.ForkJoin.Invariant

/-!
# Steps keep the invariant

Each step of a worker keeps the four parts of the invariant of a crew. There is
one lemma for each kind of step; what a step does to a part is said by the
lemmas about that part.
-/

namespace WorkStealing
namespace ForkJoin

open Function (update)
open Machine (Moment)

/-- The jobs at each place after one lane was changed. -/
theorem jobs_update
    (lanes : Nat → Lane) (place : Nat) (lane : Lane) :
    (fun u => (update lanes place lane u).jobs) =
      update (fun u => (lanes u).jobs) place lane.jobs := by
  funext u
  exact Function.apply_update (fun _ lane => Lane.jobs lane) lanes place lane u

/-- What was changed at one place is the same elsewhere. -/
theorem suffix_update_of_ne
    (queue : Nat → List JobId) {place u : Nat} (jobs : List JobId)
    (hu : u ≠ place) :
    update queue place jobs u <:+ queue u :=
  ⟨[], (List.nil_append _).trans (Function.update_of_ne hu jobs queue)⟩

/-- A job that is moved and not started leaves the others as they are. -/
theorem taken_update
    (home : JobId → Home) (job : JobId) (next : Home)
    (hnext : next.isTaken = (home job).isTaken)
    (k : JobId) :
    (update home job next k).isTaken = true ↔ (home k).isTaken = true := by
  by_cases hk : k = job
  · subst hk
    rw [Function.update_self, hnext]
  · rw [Function.update_of_ne hk]

/-- A job that is started is started beside all others. -/
theorem taken_update_taken
    (home : JobId → Home) (job : JobId) (next : Home)
    (hnext : next.isTaken = true)
    (k : JobId) :
    (update home job next k).isTaken = true ↔ k = job ∨ (home k).isTaken = true := by
  by_cases hk : k = job
  · subst hk
    rw [Function.update_self, hnext]
    exact iff_of_true rfl (Or.inl rfl)
  · rw [Function.update_of_ne hk]
    exact (or_iff_right hk).symm

namespace Inv

variable {thunk : Code} {root : JobId} {a : Crew} {v : Nat}

/-- The first job has been made. -/
theorem root_lt
    (h : Inv thunk root a) :
    root < a.count := by
  obtain ⟨task, -, -, hbound, -⟩ := h.work.pending
  exact hbound root List.mem_cons_self

/-- A job that is somewhere in the run was made for it. -/
theorem root_le
    (h : Inv thunk root a)
    {job : JobId}
    (hjob : a.home job ≠ .gone) :
    root ≤ job :=
  Nat.le_of_not_lt fun hlt => hjob (h.places.earlier job hlt)

/-- A job that is somewhere has been made. -/
theorem lt_count
    (h : Inv thunk root a)
    {job : JobId}
    (hjob : a.home job ≠ .unborn) :
    job < a.count :=
  Nat.lt_of_not_le fun hle => hjob ((h.places.unborn job).mpr hle)

/-- Where a made job is does not tell it from the others. -/
theorem count_le_iff
    (h : Inv thunk root a)
    {job : JobId}
    (hjob : a.home job ≠ .unborn)
    (k : JobId) :
    a.count ≤ k ↔ k ≠ job ∧ a.count ≤ k := by
  refine ⟨fun hle => ⟨?_, hle⟩, And.right⟩
  rintro rfl
  exact absurd (h.lt_count hjob) (Nat.not_lt_of_le hle)

/-- A stack holds the guard of a job only once. -/
theorem nodup_guards
    (h : Inv thunk root a)
    {call : Call} {below : List Call}
    (hstack : a.stack v = call :: below) :
    (guards below).Nodup := by
  have habove := h.shape.above v
  rw [hstack] at habove
  exact Above.nodup_guards (List.pairwise_cons.mp habove).2

/-- The job that the innermost calls of a worker belong to has been made. -/
theorem owner_lt
    (h : Inv thunk root a)
    {call : Call} {below : List Call} {job : JobId}
    (hstack : a.stack v = call :: below)
    (howner : owner below = some job) :
    job < a.count := by
  apply h.lt_count
  rw [Work.home_owner h.places hstack howner]
  exact Home.noConfusion

theorem sits
    (h : Inv thunk root a)
    {call : Call} {below : List Call}
    (hstack : a.stack v = call :: below) :
    Sits call below := by
  have hwell := h.shape.wellFormed v
  rw [hstack] at hwell
  exact hwell.1

theorem suffix
    (h : Inv thunk root a)
    {calls : List Call}
    (hstack : a.stack v = calls) :
    (a.lanes v).jobs <:+ spine (base root v) calls := by
  rw [← hstack]
  exact h.places.suffix v

theorem reads
    (h : Inv thunk root a)
    {calls : List Call}
    (hstack : a.stack v = calls) :
    Reads a.items [] calls := by
  rw [← hstack]
  exact h.work.reads v

/-- A step that changes one stack only. -/
theorem restack
    (h : Inv thunk root a)
    {calls : List Call}
    (hshape : Shape root a.count (update a.stack v calls) (fun job => (a.home job).isTaken = true)
      a.start a.clock a.site)
    (hsuffix : (a.lanes v).jobs <:+ spine (base root v) calls)
    (hlost : ∀ right below, calls = .fork .stolen right :: below → (a.lanes v).jobs = [])
    (hhand : hand calls = hand (a.stack v))
    (hguards : ∀ k, k ∈ guards calls ↔ k ∈ guards (a.stack v))
    (hreads : Reads a.items [] calls)
    (hended : ∀ right below, calls = .fork .closing right :: below → a.items right = [])
    (hforks : ∀ phase right, Call.fork phase right ∈ calls →
      ∃ other, Call.fork other right ∈ a.stack v ∧ other.hasBegun = phase.hasBegun ∧
        other.hasLeft = phase.hasLeft) :
    Inv thunk root { a with stack := update a.stack v calls } :=
  ⟨hshape, h.places.restack hsuffix hlost hhand hguards, h.work.restack hreads hended,
    h.told.restack hforks⟩

/-- The forks that were further down in a stack keep their branches where they are. -/
theorem forks_below
    {call : Call} {calls below : List Call}
    (hstack : a.stack v = call :: below)
    (hcalls : ∀ phase right, Call.fork phase right ∈ calls → Call.fork phase right ∈ below)
    (phase : Phase) (right : JobId)
    (hright : Call.fork phase right ∈ calls) :
    ∃ other, Call.fork other right ∈ a.stack v ∧ other.hasBegun = phase.hasBegun ∧
      other.hasLeft = phase.hasLeft := by
  rw [hstack]
  exact ⟨phase, List.mem_cons_of_mem _ (hcalls phase right hright), rfl, rfl⟩

theorem leave
    (h : Inv thunk root a)
    {stop : Option JobId} {below : List Call}
    (hstack : a.stack v = .loop none stop :: below)
    (hended : a.items (stop.getD root) = []) :
    Inv thunk root { a with stack := update a.stack v below } := by
  have hsuffix := h.suffix hstack
  have hforks := forks_below hstack fun _ _ hright => hright
  have hguards : ∀ k, k ∈ guards below ↔ k ∈ guards (a.stack v) := by
    intro k
    rw [hstack]
    exact Iff.rfl
  have hreads := (h.reads hstack).2
  cases h.sits hstack with
  | outermost =>
      refine h.restack (h.shape.pop hstack) hsuffix ?_ ?_ hguards hreads ?_ hforks
      · intro right deeper heq
        cases heq
      · rw [hstack]
        rfl
      · intro right deeper heq
        cases heq
  | waiting held job deeper =>
      have hempty : (a.lanes v).jobs = [] := List.suffix_nil.mp hsuffix
      refine h.restack (h.shape.pop hstack) ?_ ?_ ?_ hguards hreads ?_ hforks
      · rw [hempty]
        exact List.nil_suffix
      · intro right other _
        exact hempty
      · rw [hstack]
        rfl
      · intro right other heq
        cases heq
        exact hended

/-- The jobs in the deque of a worker who is in a loop: at most the first job of the run. -/
theorem jobs_of_loop
    (h : Inv thunk root a)
    {held stop : Option JobId} {below : List Call}
    (hstack : a.stack v = .loop held stop :: below) :
    (a.lanes v).jobs = [] ∨ (a.lanes v).jobs = [root] := by
  have hsuffix := h.suffix hstack
  have hshort : spine (base root v) (.loop held stop :: below) = [] ∨
      spine (base root v) (.loop held stop :: below) = [root] := by
    cases stop with
    | none =>
        by_cases hzero : v = 0
        · exact Or.inr (if_pos hzero)
        · exact Or.inl (if_neg hzero)
    | some job =>
        exact Or.inl rfl
  rcases hshort with heq | heq
  · rw [heq] at hsuffix
    exact Or.inl (List.suffix_nil.mp hsuffix)
  · rw [heq, List.suffix_cons_iff] at hsuffix
    exact hsuffix.symm.imp_left List.suffix_nil.mp

theorem obtain
    (h : Inv thunk root a)
    {stop : Option JobId} {below : List Call} {place : Nat} {job : JobId} {lane : Lane}
    (hstack : a.stack v = .loop none stop :: below)
    (hjobs : (a.lanes place).jobs = job :: lane.jobs) :
    Inv thunk root
      { a with
        stack := update a.stack v (.loop (some job) stop :: below)
        lanes := update a.lanes place lane
        home := update a.home job (.held v) } := by
  have hhome : a.home job = .queued place := by
    rw [← h.places.queued place job, hjobs]
    exact List.mem_cons_self
  have htaken := taken_update a.home job (.held v) (by rw [hhome]; rfl)
  have hshrink : ∀ u,
      update (fun u => (a.lanes u).jobs) place lane.jobs u <:+ (a.lanes u).jobs := by
    intro u
    by_cases hu : u = place
    · subst hu
      rw [Function.update_self, hjobs]
      exact List.suffix_cons job lane.jobs
    · exact suffix_update_of_ne _ lane.jobs hu
  have hnodup := h.places.nodup place
  simp only [hjobs, List.nodup_cons] at hnodup
  have hmem : ∀ k, k ∈ (a.lanes place).jobs ↔ k ∈ lane.jobs ∨ k = job := by
    intro k
    rw [hjobs, List.mem_cons, or_comm]
  have hborn : a.home job ≠ .unborn := by
    rw [hhome]
    exact Home.noConfusion
  have hsuffix := h.suffix hstack
  rw [spine_loop _ none (some job)] at hsuffix
  refine ⟨?_, ?_, ?_, ?_⟩
  · refine Shape.congr_taken
      (h.shape.swap hstack (h.sits hstack).of_loop (fun _ _ => trivial) ?_) htaken
    intro phase right heq
    cases heq
  · rw [jobs_update]
    refine h.places.move ?_ Home.noConfusion (by rw [hhome]; exact Home.noConfusion)
      (h.count_le_iff hborn) (h.places.queue_lost hmem hnodup.1 fun _ => Home.noConfusion) ?_
      (h.places.guards_kept hhome Home.noConfusion Home.noConfusion (by rw [hstack]; rfl)) ?_
      (fun u _ => hshrink u) ((hshrink v).trans hsuffix) ?_
    · intro u hu
      rw [hhome]
      exact ⟨⟨Home.noConfusion, Home.noConfusion⟩, fun heq => hu (Home.held.inj heq).symm,
        Home.noConfusion⟩
    · intro k
      rw [hstack]
      exact hand_gained rfl k
    · intro u
      exact (h.places.nodup u).sublist (hshrink u).sublist
    · intro right deeper heq
      cases heq
  · have hreads : Reads a.items [] (.loop (some job) stop :: below) :=
      ⟨rfl, (h.reads hstack).2⟩
    refine Work.rehome (h.work.restack hreads ?_) (fun _ => by rw [hhome]; rfl) ?_
    · intro right deeper heq
      cases heq
    · intro heq
      cases heq
  · exact (h.told.restack (forks_below hstack (by simp))).congr_taken htaken

theorem rewind
    (h : Inv thunk root a)
    (hjobs : (a.lanes v).jobs = []) :
    Inv thunk root { a with lanes := update a.lanes v {} } := by
  have hsame : (fun u => (update a.lanes v {} u).jobs) = fun u => (a.lanes u).jobs := by
    rw [jobs_update, Function.update_eq_self_iff]
    exact hjobs.symm
  refine ⟨h.shape, ?_, h.work, h.told⟩
  rw [hsame]
  exact h.places

theorem dispatch
    (h : Inv thunk root a)
    {stop : Option JobId} {below : List Call} {job : JobId}
    (hstack : a.stack v = .loop (some job) stop :: below) :
    Inv thunk root
      { a with stack := update a.stack v (.fetch job :: .loop none stop :: below) } := by
  have hsuffix := h.suffix hstack
  rw [spine_loop _ (some job) none] at hsuffix
  have hreads := h.reads hstack
  refine h.restack ?_ hsuffix ?_ ?_ ?_ hreads ?_ ?_
  · refine (h.shape.swap hstack (h.sits hstack).of_loop (fun _ _ => trivial) ?_).push
      (.fetched _ _ _) (fun _ => trivial) ?_
    · intro phase right heq
      cases heq
    · intro phase right heq
      cases heq
  · intro right deeper heq
    cases heq
  · rw [hstack]
    rfl
  · intro k
    rw [hstack]
    exact Iff.rfl
  · intro right deeper heq
    cases heq
  · exact forks_below hstack (by simp)

/-- The job that a worker is about to execute is in its hands. -/
theorem home_fetch
    (h : Inv thunk root a)
    {below : List Call} {job : JobId}
    (hstack : a.stack v = .fetch job :: below) :
    a.home job = .held v := by
  rw [← h.places.held v job, hstack]
  rfl

theorem take
    (h : Inv thunk root a)
    {below : List Call} {job : JobId}
    (hstack : a.stack v = .fetch job :: below) :
    Inv thunk root
      { a with
        stack := update a.stack v (.code (a.body job) :: .guarded job :: below)
        home := update a.home job (.stacked v)
        start := update a.start job a.clock
        clock := a.clock + 1
        history := a.history ++ [.jobBegan job] } := by
  have hhome := h.home_fetch hstack
  have hborn : a.home job ≠ .unborn := by
    rw [hhome]
    exact Home.noConfusion
  have hroot : root ≤ job := by
    apply h.root_le
    rw [hhome]
    exact Home.noConfusion
  have hfresh : ¬ (a.home job).isTaken = true := by
    rw [hhome]
    exact Bool.false_ne_true
  have htaken := taken_update_taken a.home job (.stacked v) rfl
  have hitems : a.items job = [.code (a.body job)] :=
    h.work.waiting job (h.lt_count hborn) (by rw [hhome]; rfl)
  have hbody : Item.ofCode (a.body job) = [.code (a.body job)] := by
    have htidy := h.work.tidy job (h.lt_count hborn)
    rw [hitems] at htidy
    cases hcode : a.body job with
    | nil =>
        rw [hcode] at htidy
        exact absurd htidy.1 Ends.not_nil
    | cons action rest =>
        rfl
  have hnotin : job ∉ guards below := by
    have hnot := h.places.not_stacked (u := v) hhome Home.noConfusion
    rw [hstack] at hnot
    exact hnot
  have hsuffix := h.suffix hstack
  have hbelow := h.reads hstack
  have hreads : Reads a.items [] (.code (a.body job) :: .guarded job :: below) := by
    refine ⟨?_, hbelow⟩
    rw [hitems, ← hbody]
    exact (List.append_nil _).symm
  refine ⟨?_, ?_, ?_, (h.told.take hroot hfresh htaken).restack ?_⟩
  · refine (h.shape.take hstack ?_ hfresh htaken).push (.body _ _ _) (fun _ => trivial) ?_
    · intro u k hk
      rw [(h.places.stacked u k).mp hk]
      rfl
    · intro phase right heq
      cases heq
  · refine h.places.move ?_ Home.noConfusion (by rw [hhome]; exact Home.noConfusion)
      (h.count_le_iff hborn) ?_ ?_ ?_ h.places.nodup (fun u _ => List.suffix_refl _) hsuffix ?_
    · intro u hu
      rw [hhome]
      exact ⟨⟨fun heq => hu (Home.held.inj heq).symm, Home.noConfusion⟩, Home.noConfusion,
        fun heq => hu (Home.stacked.inj heq).symm⟩
    · intro u k
      exact iff_of_unmoved (h.places.not_queued hhome Home.noConfusion) Home.noConfusion k
    · intro k
      rw [hstack]
      exact hand_lost Home.noConfusion k
    · intro k
      rw [hstack]
      constructor
      · intro hk
        rcases List.mem_cons.mp hk with rfl | hbelow
        · exact Or.inr ⟨rfl, rfl⟩
        · exact Or.inl ⟨fun heq => hnotin (heq ▸ hbelow), hbelow⟩
      · rintro (⟨-, hbelow⟩ | ⟨rfl, -⟩)
        · exact List.mem_cons_of_mem _ hbelow
        · exact List.mem_cons_self
    · intro right deeper heq
      cases heq
  · refine Work.rehome (h.work.restack hreads ?_) ?_ ?_
    · intro right deeper heq
      cases heq
    · intro heq
      cases heq
    · intro heq
      cases heq
  · exact forks_below hstack (by simp)

theorem retire
    (h : Inv thunk root a)
    {below : List Call} {job : JobId}
    (hstack : a.stack v = .guarded job :: below) :
    Inv thunk root
      { a with stack := update a.stack v below, home := update a.home job .gone } := by
  have hhome : a.home job = .stacked v := by
    rw [← h.places.stacked v job, hstack]
    exact List.mem_cons_self
  have hborn : a.home job ≠ .unborn := by
    rw [hhome]
    exact Home.noConfusion
  have htaken := taken_update a.home job .gone (by rw [hhome]; rfl)
  obtain ⟨hitems, hreads⟩ := h.reads hstack
  have hnotin : job ∉ guards below := by
    have hall := Above.nodup_guards (h.shape.above v)
    rw [hstack] at hall
    exact (List.nodup_cons.mp hall).1
  have hhand : hand below = none := by
    cases h.sits hstack <;> rfl
  have hsuffix := h.suffix hstack
  refine ⟨(h.shape.pop hstack).congr_taken htaken, ?_, ?_,
    (h.told.restack ?_).congr_taken htaken⟩
  · refine h.places.move ?_ Home.noConfusion (by rw [hhome]; exact Home.noConfusion)
      (h.count_le_iff hborn) ?_ ?_ ?_ h.places.nodup (fun u _ => List.suffix_refl _) hsuffix ?_
    · intro u hu
      rw [hhome]
      exact ⟨⟨Home.noConfusion, fun heq => hu (Home.stacked.inj heq).symm⟩, Home.noConfusion,
        Home.noConfusion⟩
    · intro u k
      exact iff_of_unmoved (h.places.not_queued hhome Home.noConfusion) Home.noConfusion k
    · intro k
      have hnone : ¬ none = some job := by
        intro hno
        cases hno
      rw [hstack, hhand]
      exact iff_of_unmoved (p := fun k => none = some k) hnone Home.noConfusion k
    · intro k
      rw [hstack]
      constructor
      · intro hk
        exact Or.inl ⟨fun heq => hnotin (heq ▸ hk), List.mem_cons_of_mem _ hk⟩
      · rintro (⟨hne, hk⟩ | ⟨-, hno⟩)
        · exact (List.mem_cons.mp hk).resolve_left hne
        · cases hno
    · intro right deeper heq
      subst heq
      cases h.sits hstack
  · refine Work.rehome (h.work.restack hreads ?_) (fun heq => by cases heq) (fun _ => hitems)
    intro right deeper heq
    subst heq
    cases h.sits hstack
    exact hitems
  · exact forks_below hstack fun _ _ hright => hright

theorem endCode
    (h : Inv thunk root a)
    {below : List Call}
    (hstack : a.stack v = .code [] :: below) :
    Inv thunk root { a with stack := update a.stack v below } := by
  have hsuffix := h.suffix hstack
  have hreads := h.reads hstack
  refine h.restack (h.shape.pop hstack) hsuffix ?_ ?_ ?_ hreads ?_ ?_
  · intro right deeper heq
    subst heq
    cases h.sits hstack
  · rw [hstack]
    cases h.sits hstack <;> rfl
  · intro k
    rw [hstack]
    exact Iff.rfl
  · intro right deeper heq
    subst heq
    cases h.sits hstack
  · exact forks_below hstack fun _ _ hright => hright

/-- A step that changes what is left of the job that the innermost calls of a worker belong to. -/
theorem change
    (h : Inv thunk root a)
    {call : Call} {below : List Call} {job : JobId} {inner : List Item}
    (calls : List Call) (more : List Item) (emitted : List Action) (gone : List JobId)
    (hstack : a.stack v = call :: below)
    (howner : owner below = some job)
    (hreads : Reads a.items inner below)
    (hinner : inner ≠ [])
    (htidy : Tidy root job (outer below ++ more))
    (hcalls : ∀ after, Reads after more below → Reads after [] calls)
    (hopen : ∀ right deeper, calls ≠ .fork .closing right :: deeper)
    (hgone : ∀ k ∈ gone, k < a.count ∧ a.items k = [])
    (hlocal : ∀ after t, Fits a.items inner t → (∀ k ∈ t.jobs, after k = a.items k) →
      ∃ u, Fits after more u ∧ t.Becomes u emitted gone []) :
    Work thunk root a.count (update a.stack v calls) a.home
      (update a.items job (outer below ++ more)) a.body (a.performed ++ emitted) := by
  refine h.work.change h.places
    (fun u phase right hright => (h.shape.forks u phase right hright).2.2)
    calls more emitted gone [] hstack (h.nodup_guards hstack) howner hreads hinner
    (Function.update_self ..) ?_
    (fun _ _ => ⟨rfl, rfl⟩) (Nat.le_refl _) ?_ List.nodup_nil ?_ htidy (hcalls _) hopen hgone
    (hlocal _)
  · intro k hk _
    exact Function.update_of_ne hk _ _
  · intro k
    exact iff_of_false List.not_mem_nil fun hk => absurd hk.2 (Nat.not_lt_of_le hk.1)
  · intro k hk
    cases hk

/-- What is left of the job whose code is on top. -/
theorem items_code
    (h : Inv thunk root a)
    {action : Action} {rest : Code} {below : List Call} {job : JobId}
    (hstack : a.stack v = .code (action :: rest) :: below)
    (howner : owner below = some job) :
    Reads a.items [.code (action :: rest)] below ∧
      a.items job = outer below ++ [.code (action :: rest)] ∧
        Tidy root job (outer below ++ [.code (action :: rest)]) := by
  have hreads : Reads a.items [.code (action :: rest)] below := h.reads hstack
  have hitems := hreads.items_owner howner
  refine ⟨hreads, hitems, ?_⟩
  rw [← hitems]
  exact h.work.tidy job (h.owner_lt hstack howner)

/-- Code on top of a stack after one more step of it. -/
theorem reads_code
    {after : JobId → List Item} {rest : Code} {below : List Call}
    (h : Reads after (Item.ofCode rest) below) :
    Reads after [] (.code rest :: below) := by
  show Reads after (Item.ofCode rest ++ []) below
  rw [List.append_nil]
  exact h

/-- Code stands where other code stood. -/
theorem shape_code
    (h : Inv thunk root a)
    {code rest : Code} {below : List Call}
    (hstack : a.stack v = .code code :: below) :
    Shape root a.count (update a.stack v (.code rest :: below))
      (fun job => (a.home job).isTaken = true) a.start a.clock a.site := by
  refine h.shape.swap hstack (h.sits hstack).of_code (fun _ _ => trivial) ?_
  intro phase right heq
  cases heq

/-- The places of jobs do not change while code is run. -/
theorem places_code
    (h : Inv thunk root a)
    {code rest : Code} {below : List Call}
    (hstack : a.stack v = .code code :: below) :
    Places root a.count (update a.stack v (.code rest :: below)) (fun u => (a.lanes u).jobs)
      a.home := by
  have hsuffix := h.suffix hstack
  refine h.places.restack hsuffix ?_ ?_ ?_
  · intro right deeper heq
    cases heq
  · rw [hstack]
    rfl
  · intro k
    rw [hstack]
    exact Iff.rfl

/-- A change of one job that leaves something of it. -/
theorem items_update
    {items : JobId → List Item} {job : JobId} {list : List Item}
    (hold : items job ≠ [])
    (hnew : list ≠ [])
    (k : JobId) :
    update items job list k = [] ↔ items k = [] := by
  by_cases hk : k = job
  · subst hk
    rw [Function.update_self]
    exact iff_of_false hnew hold
  · rw [Function.update_of_ne hk]

theorem act
    (h : Inv thunk root a)
    {below : List Call} {action : Action} {rest : Code} {job : JobId}
    (hstack : a.stack v = .code (action :: rest) :: below)
    (hplain : action.isPlain = true)
    (howner : owner below = some job) :
    Inv thunk root
      { a with
        stack := update a.stack v (.code rest :: below)
        items := update a.items job (outer below ++ Item.ofCode rest)
        performed := a.performed ++ [action] } := by
  obtain ⟨hreads, hitems, htidy⟩ := h.items_code hstack howner
  obtain ⟨hafter, hleft⟩ := htidy.act hplain
  have hold : a.items job ≠ [] := by
    rw [hitems]
    exact List.append_ne_nil_of_right_ne_nil _ (List.cons_ne_nil _ _)
  refine ⟨h.shape_code hstack, h.places_code hstack, ?_, ?_⟩
  · refine h.change _ _ _ [] hstack howner hreads (List.cons_ne_nil _ _) hafter
      (fun _ => reads_code) ?_ ?_ (fun after t ht _ => ht.change_plain hplain)
    · intro right deeper heq
      cases heq
    · intro k hk
      cases hk
  · exact (h.told.restack (forks_below hstack (by simp))).reitems h.root_lt
      fun k _ => items_update hold hleft k

theorem note
    (h : Inv thunk root a)
    {below : List Call} {action : Action} {rest : Code} {job : JobId}
    (hstack : a.stack v = .code (action :: rest) :: below)
    (hsilent : action.isSilent = true)
    (howner : owner below = some job) :
    Inv thunk root
      { a with
        stack := update a.stack v (.code rest :: below)
        items := update a.items job (outer below ++ Item.ofCode rest)
        history := a.history ++ noteMoment action } := by
  obtain ⟨hreads, hitems, htidy⟩ := h.items_code hstack howner
  have hold : a.items job ≠ [] := by
    rw [hitems]
    exact List.append_ne_nil_of_right_ne_nil _ (List.cons_ne_nil _ _)
  have hjob := h.owner_lt hstack howner
  have hroot : root ≤ job := by
    apply h.root_le
    rw [Work.home_owner h.places hstack howner]
    exact Home.noConfusion
  have hstay : Told root a.count (update a.stack v (.code rest :: below)) _ a.items a.history :=
    h.told.restack (forks_below hstack (by simp))
  have hwork : Tidy root job (outer below ++ Item.ofCode rest) →
      Work thunk root a.count (update a.stack v (.code rest :: below)) a.home
        (update a.items job (outer below ++ Item.ofCode rest)) a.body a.performed := by
    intro hafter
    have hchange := h.change (.code rest :: below) (Item.ofCode rest) [] [] hstack howner hreads
      (List.cons_ne_nil _ _) hafter (fun _ => reads_code) ?_ ?_
      (fun after t ht _ => ht.change_silent hsilent)
    · rw [List.append_nil] at hchange
      exact hchange
    · intro right deeper heq
      cases heq
    · intro k hk
      cases hk
  refine ⟨h.shape_code hstack, h.places_code hstack, ?_, ?_⟩
  · rcases htidy.note hsilent with ⟨-, hafter, -⟩ | ⟨-, hnil⟩
    · exact hwork hafter
    · apply hwork
      rw [hnil]
      trivial
  · rcases htidy.note hsilent with ⟨rfl, -, hleft⟩ | ⟨rfl, hnil⟩
    · show Told _ _ _ _ _ (a.history ++ [])
      rw [List.append_nil]
      exact hstay.reitems h.root_lt fun k _ => items_update hold hleft k
    · exact hstay.close hroot hjob hold
        ((Function.update_self ..).trans hnil) (fun k hk => Function.update_of_ne hk _ _)

/-- The right branch of a fork is made, and is in the hands of the worker. -/
theorem places_make
    (h : Inv thunk root a)
    {below : List Call} {left right rest : Code}
    (hstack : a.stack v = .code (.fork left right :: rest) :: below) :
    Places root (a.count + 1)
      (update a.stack v (.fork (.publish left) a.count :: .code rest :: below))
      (fun u => (a.lanes u).jobs) (update a.home a.count (.held v)) := by
  have hunborn : a.home a.count = .unborn := (h.places.unborn a.count).mpr (Nat.le_refl _)
  have hsuffix := h.suffix hstack
  refine h.places.move ?_ Home.noConfusion (by rw [hunborn]; exact Home.noConfusion) ?_ ?_ ?_
    (h.places.guards_kept hunborn Home.noConfusion Home.noConfusion (by rw [hstack]; rfl))
    h.places.nodup (fun u _ => List.suffix_refl _) ?_ ?_
  · intro u hu
    rw [hunborn]
    exact ⟨⟨Home.noConfusion, Home.noConfusion⟩, fun heq => hu (Home.held.inj heq).symm,
      Home.noConfusion⟩
  · intro k
    rw [Nat.succ_le_iff, Nat.lt_iff_le_and_ne, and_comm, ne_comm]
  · intro u k
    exact iff_of_unmoved (h.places.not_queued hunborn Home.noConfusion) Home.noConfusion k
  · intro k
    rw [hstack]
    exact hand_gained rfl k
  · rw [spine_of_not_isLive _ rfl]
    exact hsuffix
  · intro other deeper heq
    cases heq

/-- Of the job whose code forks, the rest of the code, the join and the left branch are left; the
right branch is left of a job of its own. -/
theorem work_make
    (h : Inv thunk root a)
    {below : List Call} {left right rest : Code} {job : JobId}
    (hstack : a.stack v = .code (.fork left right :: rest) :: below)
    (howner : owner below = some job)
    (hafter : Tidy root job (outer below ++ (Item.ofCode rest ++ .join a.count ::
      Item.ofCode left)))
    (hcode : Ends root a.count (Action.branchBody a.count right)) :
    Work thunk root (a.count + 1)
      (update a.stack v (.fork (.publish left) a.count :: .code rest :: below))
      (update a.home a.count (.held v))
      (update
        (update a.items job (outer below ++ (Item.ofCode rest ++ .join a.count ::
          Item.ofCode left)))
        a.count [.code (Action.branchBody a.count right)])
      (update a.body a.count (Action.branchBody a.count right)) a.performed := by
  obtain ⟨hreads, -, -⟩ := h.items_code hstack howner
  have hne : job ≠ a.count := Nat.ne_of_lt (h.owner_lt hstack howner)
  rw [← List.append_nil a.performed]
  refine h.work.change h.places
    (fun u phase right hright => (h.shape.forks u phase right hright).2.2)
    (.fork (.publish left) a.count :: .code rest :: below)
    (Item.ofCode rest ++ .join a.count :: Item.ofCode left) [] [] [a.count]
    hstack (h.nodup_guards hstack) howner hreads (List.cons_ne_nil _ _)
    ?_ ?_ ?_ (Nat.le_succ _) ?_ (List.pairwise_singleton _ _) ?_ hafter ?_ ?_ ?_ ?_
  · rw [Function.update_of_ne hne, Function.update_self]
  · intro k hk hfresh
    rw [List.mem_singleton] at hfresh
    rw [Function.update_of_ne hfresh, Function.update_of_ne hk]
  · intro k hfresh
    rw [List.mem_singleton] at hfresh
    exact ⟨Function.update_of_ne hfresh _ _, Function.update_of_ne hfresh _ _⟩
  · intro k
    rw [List.mem_singleton]
    constructor
    · rintro rfl
      exact ⟨Nat.le_refl _, Nat.lt_succ_self _⟩
    · rintro ⟨hle, hlt⟩
      exact Nat.le_antisymm (Nat.le_of_lt_succ hlt) hle
  · intro k hk
    rw [List.mem_singleton] at hk
    subst hk
    rw [Function.update_self, Function.update_self, Function.update_self]
    exact ⟨rfl, Home.noConfusion, (Tidy.single hcode).1⟩
  · intro hmore
    show Reads _ (Item.ofCode rest ++ (.join a.count :: Item.ofCode left ++ [])) below
    rw [List.append_nil]
    exact hmore
  · intro other deeper heq
    cases heq
  · intro k hk
    cases hk
  · intro t ht _
    refine ht.change_fork ?_
    rw [Function.update_self]

theorem fork
    (h : Inv thunk root a)
    {below : List Call} {left right rest : Code} {job : JobId}
    (hstack : a.stack v = .code (.fork left right :: rest) :: below)
    (howner : owner below = some job) :
    Inv thunk root
      { a with
        stack := update a.stack v (.fork (.publish left) a.count :: .code rest :: below)
        count := a.count + 1
        body := update a.body a.count (Action.branchBody a.count right)
        items := update
          (update a.items job (outer below ++ (Item.ofCode rest ++ .join a.count ::
            Item.ofCode left)))
          a.count [.code (Action.branchBody a.count right)]
        home := update a.home a.count (.held v)
        site := update a.site a.count v } := by
  obtain ⟨-, hitems, htidy⟩ := h.items_code hstack howner
  obtain ⟨hafter, hright⟩ := htidy.fork a.count
  have hunborn : a.home a.count = .unborn := (h.places.unborn a.count).mpr (Nat.le_refl _)
  have hold : a.items job ≠ [] := by
    rw [hitems]
    exact List.append_ne_nil_of_right_ne_nil _ (List.cons_ne_nil _ _)
  have hleft : outer below ++ (Item.ofCode rest ++ .join a.count :: Item.ofCode left) ≠ [] :=
    List.append_ne_nil_of_right_ne_nil _
      (List.append_ne_nil_of_right_ne_nil _ (List.cons_ne_nil _ _))
  have htaken := taken_update a.home a.count (.held v)
    (by rw [hunborn]; rfl)
  refine ⟨?_, h.places_make hstack, ?_, ?_⟩
  · refine Shape.congr_taken (h.shape.fork hstack h.root_lt ?_) htaken
    rw [hunborn]
    exact Bool.false_ne_true
  · exact h.work_make hstack howner hafter (.branchBody (Nat.ne_of_gt h.root_lt) hright)
  · refine Told.congr_taken (h.told.fork hstack h.root_lt ?_ ?_) htaken
    · intro k hk
      dsimp only
      rw [Function.update_of_ne (Nat.ne_of_lt hk)]
      exact items_update hold hleft k
    · dsimp only
      rw [Function.update_self]
      exact List.cons_ne_nil _ _

/-- A fork on top of a stack goes on to another point. -/
theorem shape_fork
    (h : Inv thunk root a)
    {phase : Phase} {right : JobId} {below : List Call}
    (hstack : a.stack v = .fork phase right :: below)
    (next : Phase) :
    Shape root a.count (update a.stack v (.fork next right :: below))
      (fun job => (a.home job).isTaken = true) a.start a.clock a.site := by
  refine h.shape.swap hstack ?_ ?_ ?_
  · cases h.sits hstack with
    | forking =>
        exact .forking _ _ _ _
  · intro other habove
    cases other <;> exact habove
  · intro phase other heq
    cases heq
    exact ⟨_, rfl⟩

/-- The forks of a stack keep their branches where they are. -/
theorem forks_fork
    {phase : Phase} {right : JobId} {below : List Call}
    (hstack : a.stack v = .fork phase right :: below)
    (next : Phase)
    (hbegun : phase.hasBegun = next.hasBegun)
    (hleft : phase.hasLeft = next.hasLeft)
    (other : Phase) (k : JobId)
    (hk : Call.fork other k ∈ Call.fork next right :: below) :
    ∃ old, Call.fork old k ∈ a.stack v ∧ old.hasBegun = other.hasBegun ∧
      old.hasLeft = other.hasLeft := by
  rw [hstack]
  rcases List.mem_cons.mp hk with heq | hbelow
  · cases heq
    exact ⟨_, List.mem_cons_self, hbegun, hleft⟩
  · exact ⟨other, List.mem_cons_of_mem _ hbelow, rfl, rfl⟩

theorem publish
    (h : Inv thunk root a)
    {below : List Call} {left : Code} {right : JobId}
    (hstack : a.stack v = .fork (.publish left) right :: below) :
    Inv thunk root
      { a with
        stack := update a.stack v (.fork (.published left) right :: below)
        lanes := update a.lanes v ((a.lanes v).push right)
        home := update a.home right (.queued v) } := by
  have hhome : a.home right = .held v := by
    rw [← h.places.held v right, hstack]
    rfl
  have hborn : a.home right ≠ .unborn := by
    rw [hhome]
    exact Home.noConfusion
  have htaken := taken_update a.home right (.queued v)
    (by rw [hhome]; rfl)
  have hheld : ∀ u, a.home right ≠ .queued u := by
    intro u
    rw [hhome]
    exact Home.noConfusion
  have hmem : ∀ k, k ∈ (a.lanes v).jobs ++ [right] ↔ k ∈ (a.lanes v).jobs ∨ k = right := by
    intro k
    rw [List.mem_append, List.mem_singleton]
  have hsuffix := h.suffix hstack
  rw [spine_of_not_isLive _ rfl] at hsuffix
  have hbelow := h.reads hstack
  have hreads : Reads a.items [] (.fork (.published left) right :: below) := hbelow
  refine ⟨(h.shape_fork hstack _).congr_taken htaken, ?_, ?_, ?_⟩
  · rw [jobs_update, Lane.jobs_push]
    refine h.places.move ?_ Home.noConfusion (by rw [hhome]; exact Home.noConfusion)
      (h.count_le_iff hborn) (h.places.queue_gained hheld hmem) ?_
      (h.places.guards_kept hhome Home.noConfusion Home.noConfusion (by rw [hstack]; rfl))
      ?_ ?_ ?_ ?_
    · intro u hu
      rw [hhome]
      exact ⟨⟨fun heq => hu (Home.held.inj heq).symm, Home.noConfusion⟩, Home.noConfusion,
        Home.noConfusion⟩
    · intro k
      rw [hstack]
      exact hand_lost Home.noConfusion k
    · intro u
      by_cases hu : u = v
      · subst hu
        rw [Function.update_self, List.nodup_append]
        refine ⟨h.places.nodup u, List.pairwise_singleton _ _, ?_⟩
        rintro k hk l hl rfl
        rw [List.mem_singleton] at hl
        exact h.places.not_queued hhome Home.noConfusion (hl ▸ hk)
      · rw [Function.update_of_ne hu]
        exact h.places.nodup u
    · exact fun u hu => suffix_update_of_ne _ _ hu
    · rw [Function.update_self, spine_of_isLive _ rfl]
      exact List.suffix_concat_iff.mpr (Or.inr ⟨_, rfl, hsuffix⟩)
    · intro other deeper heq
      cases heq
  · refine Work.rehome (h.work.restack hreads ?_) (fun _ => by rw [hhome]; rfl) ?_
    · intro other deeper heq
      cases heq
    · intro heq
      cases heq
  · exact (h.told.restack (forks_fork hstack (.published left) rfl rfl)).congr_taken htaken

/-- What was told about a fork on top of a stack. -/
theorem told_fork
    (h : Inv thunk root a)
    {phase : Phase} {right : JobId} {below : List Call}
    (hstack : a.stack v = .fork phase right :: below) :
    (.leftBegan right ∈ a.history ↔ phase.hasBegun = true) ∧
      (.leftEnded right ∈ a.history ↔ phase.hasLeft = true) ∧ .returned right ∉ a.history := by
  apply h.told.forks v phase right
  rw [hstack]
  exact List.mem_cons_self

theorem goLeft
    (h : Inv thunk root a)
    {below : List Call} {left : Code} {right : JobId}
    (hstack : a.stack v = .fork (.published left) right :: below) :
    Inv thunk root
      { a with
        stack := update a.stack v (.code left :: .fork .check right :: below)
        history := a.history ++ [.leftBegan right] } := by
  obtain ⟨hbegun, hleft, hreturned⟩ := h.told_fork hstack
  have hsuffix := h.suffix hstack
  have hreads : Reads a.items (.join right :: Item.ofCode left ++ []) below := h.reads hstack
  refine ⟨?_, ?_, ?_, ?_⟩
  · refine (h.shape_fork hstack .check).push (.left _ _ _) (fun _ => trivial) ?_
    intro phase other heq
    cases heq
  · refine h.places.restack hsuffix ?_ ?_ ?_
    · intro other deeper heq
      cases heq
    · rw [hstack]
      rfl
    · intro k
      rw [hstack]
      exact Iff.rfl
  · refine h.work.restack ?_ ?_
    · exact hreads
    · intro other deeper heq
      cases heq
  · refine h.told.tellFork h.shape hstack (Or.inl rfl) ?_ ?_ ?_
    · rw [hbegun]
      exact Bool.false_ne_true
    · intro heq
      cases heq
    · intro other k hk
      rcases List.mem_cons.mp hk with heq | hk
      · cases heq
      · rcases List.mem_cons.mp hk with heq | hk
        · cases heq
          refine Or.inr ⟨rfl, iff_of_true Moment.mem_concat_self rfl, ?_, ?_⟩
          · rw [Moment.mem_concat_of_ne Moment.noConfusion, hleft]
            rfl
          · rw [Moment.mem_concat_of_ne Moment.noConfusion]
            exact hreturned
        · exact Or.inl hk

/-- The left branch of a fork has ended. -/
theorem told_leftEnded
    (h : Inv thunk root a)
    {next : Phase} {right : JobId} {below : List Call}
    (hstack : a.stack v = .fork .check right :: below)
    (hbegun : next.hasBegun = true)
    (hleft : next.hasLeft = true) :
    Told root a.count (update a.stack v (.fork next right :: below))
      (fun job => (a.home job).isTaken = true) a.items (a.history ++ [.leftEnded right]) := by
  obtain ⟨hold, hnotLeft, hreturned⟩ := h.told_fork hstack
  refine h.told.tellFork h.shape hstack (Or.inr (Or.inl rfl)) ?_ ?_ ?_
  · rw [hnotLeft]
    exact Bool.false_ne_true
  · intro heq
    cases heq
  · intro other k hk
    rcases List.mem_cons.mp hk with heq | hk
    · cases heq
      refine Or.inr ⟨rfl, ?_, iff_of_true Moment.mem_concat_self hleft, ?_⟩
      · rw [Moment.mem_concat_of_ne Moment.noConfusion, hold, hbegun]
        rfl
      · rw [Moment.mem_concat_of_ne Moment.noConfusion]
        exact hreturned
    · exact Or.inl hk

/-- A fork that goes on without a move of a job. -/
theorem places_fork
    (h : Inv thunk root a)
    {phase next : Phase} {right : JobId} {below : List Call}
    (hstack : a.stack v = .fork phase right :: below)
    (hsuffix : (a.lanes v).jobs <:+ spine (base root v) (.fork next right :: below))
    (hlost : next = .stolen → (a.lanes v).jobs = [])
    (hhand : hand (.fork next right :: below) = hand (.fork phase right :: below)) :
    Places root a.count (update a.stack v (.fork next right :: below))
      (fun u => (a.lanes u).jobs) a.home := by
  refine h.places.restack hsuffix ?_ ?_ ?_
  · intro other deeper heq
    cases heq
    exact hlost rfl
  · rw [hstack]
    exact hhand
  · intro k
    rw [hstack]
    exact Iff.rfl

theorem look
    (h : Inv thunk root a)
    {below : List Call} {right : JobId}
    (hstack : a.stack v = .fork .check right :: below) :
    Inv thunk root
      { a with
        stack := update a.stack v (.fork .reclaim right :: below)
        history := a.history ++ [.leftEnded right] } := by
  have hsuffix := h.suffix hstack
  have hreads := h.reads hstack
  refine ⟨h.shape_fork hstack _, h.places_fork hstack hsuffix ?_ rfl, h.work.restack hreads ?_,
    h.told_leftEnded hstack rfl rfl⟩
  · intro heq
    cases heq
  · intro other deeper heq
    cases heq

/-- A right branch that is not in the deque any more was the last one there. -/
theorem jobs_nil_of_not_mem
    (h : Inv thunk root a)
    {phase : Phase} {right : JobId} {below : List Call}
    (hstack : a.stack v = .fork phase right :: below)
    (hlive : phase.isLive = true)
    (hright : right ∉ (a.lanes v).jobs) :
    (a.lanes v).jobs = [] := by
  have hsuffix := h.suffix hstack
  rw [spine_of_isLive _ hlive] at hsuffix
  rcases List.suffix_concat_iff.mp hsuffix with hnil | ⟨older, hjobs, -⟩
  · exact hnil
  · rw [hjobs] at hright
    exact absurd (List.mem_append_right _ List.mem_cons_self) hright

/-- A right branch that was started is in no deque. -/
theorem not_mem_of_isTaken
    (h : Inv thunk root a)
    {job : JobId}
    (htaken : (a.home job).isTaken = true)
    (u : Nat) :
    job ∉ (a.lanes u).jobs := by
  intro hmem
  rw [(h.places.queued u job).mp hmem] at htaken
  cases htaken

theorem miss
    (h : Inv thunk root a)
    {below : List Call} {right : JobId}
    (hstack : a.stack v = .fork .check right :: below)
    (htaken : (a.home right).isTaken = true) :
    Inv thunk root
      { a with
        stack := update a.stack v (.fork .stolen right :: below)
        history := a.history ++ [.leftEnded right] } := by
  have hnil := h.jobs_nil_of_not_mem hstack rfl (h.not_mem_of_isTaken htaken v)
  have hreads := h.reads hstack
  refine ⟨h.shape_fork hstack _, h.places_fork hstack ?_ (fun _ => hnil) rfl,
    h.work.restack hreads ?_, h.told_leftEnded hstack rfl rfl⟩
  · rw [hnil]
    exact List.nil_suffix
  · intro other deeper heq
    cases heq

theorem lose
    (h : Inv thunk root a)
    {below : List Call} {right : JobId}
    (hstack : a.stack v = .fork .reclaim right :: below)
    (hjobs : (a.lanes v).jobs = []) :
    Inv thunk root
      { a with
        stack := update a.stack v (.fork .stolen right :: below)
        lanes := update a.lanes v {} } := by
  have hreads := h.reads hstack
  have hstep :
      Inv thunk root { a with stack := update a.stack v (.fork .stolen right :: below) } := by
    refine ⟨h.shape_fork hstack _, h.places_fork hstack ?_ (fun _ => hjobs) rfl,
      h.work.restack hreads ?_, h.told.restack (forks_fork hstack .stolen rfl rfl)⟩
    · rw [hjobs]
      exact List.nil_suffix
    · intro other deeper heq
      cases heq
  exact hstep.rewind hjobs

theorem reclaim
    (h : Inv thunk root a)
    {below : List Call} {right : JobId} {older : List JobId}
    (hstack : a.stack v = .fork .reclaim right :: below)
    (hjobs : (a.lanes v).jobs = older ++ [right]) :
    Inv thunk root
      { a with
        stack := update a.stack v (.fork .inline right :: below)
        lanes := update a.lanes v (a.lanes v).pop
        home := update a.home right (.held v) } := by
  have hhome : a.home right = .queued v := by
    rw [← h.places.queued v right, hjobs]
    exact List.mem_append_right _ List.mem_cons_self
  have hborn : a.home right ≠ .unborn := by
    rw [hhome]
    exact Home.noConfusion
  have htaken := taken_update a.home right (.held v)
    (by rw [hhome]; rfl)
  have hnodup : (older ++ [right]).Nodup := by
    rw [← hjobs]
    exact h.places.nodup v
  have hnotin : right ∉ older := by
    intro hmem
    exact (List.nodup_append.mp hnodup).2.2 right hmem right List.mem_cons_self rfl
  have hmem : ∀ k, k ∈ (a.lanes v).jobs ↔ k ∈ older ∨ k = right := by
    intro k
    rw [hjobs, List.mem_append, List.mem_singleton]
  have hpop : (a.lanes v).pop.jobs = older := by
    rw [Lane.jobs_pop, hjobs, List.dropLast_concat]
  have hbelow := h.reads hstack
  have hreads : Reads a.items [] (.fork .inline right :: below) := hbelow
  have hsuffix := h.suffix hstack
  rw [hjobs, spine_of_isLive _ rfl] at hsuffix
  have hrest : older <:+ spine (base root v) below := by
    rcases List.suffix_concat_iff.mp hsuffix with hnil | ⟨rest, heq, hrest⟩
    · exact absurd (List.append_eq_nil_iff.mp hnil).2 (List.cons_ne_nil _ _)
    · rw [(List.append_inj' heq rfl).1]
      exact hrest
  refine ⟨(h.shape_fork hstack _).congr_taken htaken, ?_, ?_, ?_⟩
  · rw [jobs_update, hpop]
    refine h.places.move ?_ Home.noConfusion (by rw [hhome]; exact Home.noConfusion)
      (h.count_le_iff hborn) (h.places.queue_lost hmem hnotin fun _ => Home.noConfusion) ?_
      (h.places.guards_kept hhome Home.noConfusion Home.noConfusion (by rw [hstack]; rfl))
      ?_ ?_ ?_ ?_
    · intro u hu
      rw [hhome]
      exact ⟨⟨Home.noConfusion, Home.noConfusion⟩, fun heq => hu (Home.held.inj heq).symm,
        Home.noConfusion⟩
    · intro k
      rw [hstack]
      exact hand_gained rfl k
    · intro u
      by_cases hu : u = v
      · subst hu
        rw [Function.update_self]
        exact (List.nodup_append.mp hnodup).1
      · rw [Function.update_of_ne hu]
        exact h.places.nodup u
    · exact fun u hu => suffix_update_of_ne _ _ hu
    · rw [Function.update_self, spine_of_not_isLive _ rfl]
      exact hrest
    · intro other deeper heq
      cases heq
  · refine Work.rehome (h.work.restack hreads ?_) (fun _ => by rw [hhome]; rfl) ?_
    · intro other deeper heq
      cases heq
    · intro heq
      cases heq
  · exact (h.told.restack (forks_fork hstack .inline rfl rfl)).congr_taken htaken

theorem inline
    (h : Inv thunk root a)
    {below : List Call} {right : JobId}
    (hstack : a.stack v = .fork .inline right :: below) :
    Inv thunk root
      { a with stack := update a.stack v (.fetch right :: .fork .closing right :: below) } := by
  have hsuffix := h.suffix hstack
  have hreads := h.reads hstack
  refine h.restack ?_ hsuffix ?_ ?_ ?_ hreads ?_ ?_
  · refine (h.shape_fork hstack _).push (.fetchedBack _ _) (fun _ => trivial) ?_
    intro phase other heq
    cases heq
  · intro other deeper heq
    cases heq
  · rw [hstack]
    rfl
  · intro k
    rw [hstack]
    exact Iff.rfl
  · intro other deeper heq
    cases heq
  · intro phase other hother
    rcases List.mem_cons.mp hother with heq | hother
    · cases heq
    · exact forks_fork hstack .closing rfl rfl phase other hother

theorem wait
    (h : Inv thunk root a)
    {below : List Call} {right : JobId}
    (hstack : a.stack v = .fork .stolen right :: below) :
    Inv thunk root
      { a with
        stack := update a.stack v (.loop none (some right) :: .fork .closing right :: below) } := by
  have hnil := h.places.lost v right below hstack
  have hreads := h.reads hstack
  refine h.restack ?_ ?_ ?_ ?_ ?_ ⟨rfl, hreads⟩ ?_ ?_
  · refine (h.shape_fork hstack _).push (.waiting _ _ _) (fun _ => trivial) ?_
    intro phase other heq
    cases heq
  · rw [hnil]
    exact List.nil_suffix
  · intro other deeper heq
    cases heq
  · rw [hstack]
    rfl
  · intro k
    rw [hstack]
    exact Iff.rfl
  · intro other deeper heq
    cases heq
  · intro phase other hother
    rcases List.mem_cons.mp hother with heq | hother
    · cases heq
    · exact forks_fork hstack .closing rfl rfl phase other hother

theorem close
    (h : Inv thunk root a)
    {below : List Call} {right job : JobId}
    (hstack : a.stack v = .fork .closing right :: below)
    (howner : owner below = some job) :
    Inv thunk root
      { a with
        stack := update a.stack v below
        items := update a.items job (outer below)
        history := a.history ++ [.returned right] } := by
  obtain ⟨hbegun, hleft, hreturned⟩ := h.told_fork hstack
  have hdone : a.items right = [] := h.work.ended v right below hstack
  have hreads : Reads a.items [.join right] below := h.reads hstack
  have hitems := hreads.items_owner howner
  have hold : a.items job ≠ [] := by
    rw [hitems]
    exact List.append_ne_nil_of_right_ne_nil _ (List.cons_ne_nil _ _)
  have hjob := h.owner_lt hstack howner
  obtain ⟨-, hroot, hright⟩ := h.shape.forks v .closing right (by
    rw [hstack]
    exact List.mem_cons_self)
  obtain ⟨hafter, hmore⟩ := Tidy.close (hitems ▸ h.work.tidy job hjob)
  have htaken : (a.home right).isTaken = true := by
    rw [← Bool.not_eq_false]
    intro hwaiting
    rw [h.work.waiting right hright hwaiting] at hdone
    exact List.cons_ne_nil _ _ hdone
  have hsuffix := h.suffix hstack
  rw [spine_of_not_isLive _ rfl] at hsuffix
  refine ⟨h.shape.pop hstack, ?_, ?_, ?_⟩
  · refine h.places.restack hsuffix ?_ ?_ ?_
    · intro other deeper heq
      subst heq
      cases h.sits hstack
    · rw [hstack]
      cases h.sits hstack
      rfl
    · intro k
      rw [hstack]
      exact Iff.rfl
  · have hchange := h.change below [] [] [right] hstack howner hreads (List.cons_ne_nil _ _) ?_
      (fun _ hr => hr) ?_ ?_ (fun after t ht _ => ht.change_join hdone)
    · rw [List.append_nil, List.append_nil] at hchange
      exact hchange
    · rw [List.append_nil]
      exact hafter
    · rintro other deeper rfl
      cases h.sits hstack
    · intro k hk
      rw [List.mem_singleton] at hk
      subst hk
      exact ⟨hright, hdone⟩
  · refine Told.reitems (h.told.tellFork h.shape hstack (Or.inr (Or.inr rfl)) hreturned ?_ ?_)
      h.root_lt (fun k _ => items_update hold hmore k)
    · intro _
      exact ⟨hbegun.mpr rfl, hleft.mpr rfl, (h.told.began right (Nat.le_of_lt hroot)).mpr htaken,
        (h.told.ended right).mpr ⟨hroot, hright, hdone⟩⟩
    · intro other k hk
      exact Or.inl hk

/-- A step of a worker keeps the invariant. -/
theorem step
    (h : Inv thunk root a)
    {b : Crew}
    (hstep : Step root v a b) :
    Inv thunk root b := by
  cases hstep with
  | idle =>
      exact h
  | leave hstack hended =>
      exact h.leave hstack hended
  | obtain hstack hjobs hlane =>
      exact h.obtain hstack hjobs
  | rewind hstack hjobs =>
      exact h.rewind hjobs
  | dispatch hstack =>
      exact h.dispatch hstack
  | take hstack =>
      exact h.take hstack
  | retire hstack =>
      exact h.retire hstack
  | endCode hstack =>
      exact h.endCode hstack
  | act hstack hplain howner =>
      exact h.act hstack hplain howner
  | note hstack hsilent howner =>
      exact h.note hstack hsilent howner
  | fork hstack howner =>
      exact h.fork hstack howner
  | publish hstack =>
      exact h.publish hstack
  | goLeft hstack =>
      exact h.goLeft hstack
  | look hstack =>
      exact h.look hstack
  | miss hstack htaken =>
      exact h.miss hstack htaken
  | reclaim hstack hjobs =>
      exact h.reclaim hstack hjobs
  | lose hstack hjobs =>
      exact h.lose hstack hjobs
  | inline hstack =>
      exact h.inline hstack
  | wait hstack =>
      exact h.wait hstack
  | close hstack howner =>
      exact h.close hstack howner

end Inv
end ForkJoin
end WorkStealing
