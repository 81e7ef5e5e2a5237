import WorkStealing.Proofs.ForkJoin.Bodies
import WorkStealing.Proofs.ForkJoin.Crew

/-!
# The invariant of a crew

What holds of a crew at all times, in four parts. The *shape* of the stacks:
which calls stand on which, and in which order jobs were started. The *places*
of jobs: each job is in one deque, in one worker's hands or on one stack, and
the deque of a worker holds no more than the right branches of its innermost
forks. The *work*: what is left of each job stands above its guard, and is
part of one tree. And what has been *told*: the moments so far agree with all
that.
-/

namespace WorkStealing
namespace ForkJoin

open Function (update forall_update_iff)
open Machine (Moment Orderly)

/-- The jobs that come into a deque from outside: the first job of the run. -/
def base (root : JobId) (v : Nat) : List JobId :=
  if v = 0 then [root] else []

theorem mem_base
    {root job : JobId} {v : Nat} :
    job ∈ base root v ↔ v = 0 ∧ job = root := by
  by_cases hzero : v = 0 <;> simp [base, hzero]

theorem nodup_base
    (root : JobId) (v : Nat) :
    (base root v).Nodup := by
  unfold base
  split
  · exact List.pairwise_singleton _ _
  · exact List.nodup_nil

def Phase.hasBegun : Phase → Bool
  | publish _ => false
  | published _ => false
  | _ => true

def Phase.hasLeft : Phase → Bool
  | publish _ => false
  | published _ => false
  | check => false
  | _ => true

/-- How the stacks of the workers are built. -/
structure Shape (root : JobId) (count : Nat) (stack : Nat → List Call) (taken : JobId → Prop)
    (start : JobId → Nat) (clock : Nat) (site : JobId → Nat) : Prop where
  wellFormed : ∀ v, WellFormed (stack v)
  /-- What is further down is older. -/
  above : ∀ v, (stack v).Pairwise (Above start taken)
  started : ∀ job, taken job → start job < clock
  /-- A fork is on the stack of the worker that made its right branch. -/
  forks : ∀ v phase right, Call.fork phase right ∈ stack v →
    site right = v ∧ root < right ∧ right < count

/-- Where the jobs are. -/
structure Places (root : JobId) (count : Nat) (stack : Nat → List Call)
    (queue : Nat → List JobId) (home : JobId → Home) : Prop where
  /-- The deque of a worker is the end of its spine: the rest was stolen. -/
  suffix : ∀ v, queue v <:+ spine (base root v) (stack v)
  /-- A worker whose right branch is elsewhere has nothing in its deque. -/
  lost : ∀ v right below, stack v = .fork .stolen right :: below → queue v = []
  nodup : ∀ v, (queue v).Nodup
  queued : ∀ v job, job ∈ queue v ↔ home job = .queued v
  held : ∀ v job, hand (stack v) = some job ↔ home job = .held v
  stacked : ∀ v job, job ∈ guards (stack v) ↔ home job = .stacked v
  unborn : ∀ job, home job = .unborn ↔ count ≤ job
  /-- Jobs made before the first job of the run are not part of it. -/
  earlier : ∀ job, job < root → home job = .gone

/-- What is left to be done. -/
structure Work (thunk : Code) (root : JobId) (count : Nat) (stack : Nat → List Call)
    (home : JobId → Home) (items : JobId → List Item) (body : JobId → Code)
    (performed : List Action) : Prop where
  /-- What is left of the jobs on a stack stands above their guards. -/
  reads : ∀ v, Reads items [] (stack v)
  /-- A fork returns when nothing is left of its right branch. -/
  ended : ∀ v right below, stack v = .fork .closing right :: below → items right = []
  /-- All is left of a job that was not started. -/
  waiting : ∀ job, job < count → (home job).isTaken = false → items job = [.code (body job)]
  gone : ∀ job, home job = .gone → items job = []
  /-- The end of a job comes last. -/
  tidy : ∀ job, job < count → Tidy root job (items job)
  /-- What is left of all jobs completes what was performed. -/
  pending : Pending thunk root count items performed

/-- What an observer has been told. -/
structure Told (root : JobId) (count : Nat) (stack : Nat → List Call) (taken : JobId → Prop)
    (items : JobId → List Item) (history : List Moment) : Prop where
  orderly : Orderly history
  /-- How far a fork has come. -/
  forks : ∀ v phase right, Call.fork phase right ∈ stack v →
    (.leftBegan right ∈ history ↔ phase.hasBegun = true) ∧
      (.leftEnded right ∈ history ↔ phase.hasLeft = true) ∧ .returned right ∉ history
  /-- Nothing was told about forks that have not been made. -/
  fresh : ∀ job, count ≤ job →
    .leftBegan job ∉ history ∧ .leftEnded job ∉ history ∧ .returned job ∉ history
  began : ∀ job, root ≤ job → (.jobBegan job ∈ history ↔ taken job)
  /-- The right branches that have ended. -/
  ended : ∀ job, .jobEnded job ∈ history ↔ root < job ∧ job < count ∧ items job = []
  /-- Whether the first job has ended. -/
  finished : .finished ∈ history ↔ items root = []

/-- What holds of a crew at all times. -/
structure Inv (thunk : Code) (root : JobId) (a : Crew) : Prop where
  shape : Shape root a.count a.stack (fun job => (a.home job).isTaken = true) a.start a.clock a.site
  places : Places root a.count a.stack (fun v => (a.lanes v).jobs) a.home
  work : Work thunk root a.count a.stack a.home a.items a.body a.performed
  told : Told root a.count a.stack (fun job => (a.home job).isTaken = true) a.items a.history

namespace Shape

variable {root : JobId} {count : Nat} {stack : Nat → List Call} {taken : JobId → Prop}
  {start : JobId → Nat} {clock : Nat} {site : JobId → Nat}

/-- A step that changes one stack, and makes no forks. -/
theorem restack
    (h : Shape root count stack taken start clock site)
    {v : Nat} {calls : List Call}
    (hwell : WellFormed calls)
    (habove : calls.Pairwise (Above start taken))
    (hforks : ∀ phase right, Call.fork phase right ∈ calls →
      ∃ other, Call.fork other right ∈ stack v) :
    Shape root count (update stack v calls) taken start clock site := by
  refine ⟨?_, ?_, h.started, ?_⟩
  · exact (forall_update_iff stack fun _ calls => WellFormed calls).mpr
      ⟨hwell, fun u _ => h.wellFormed u⟩
  · exact (forall_update_iff stack fun _ calls => calls.Pairwise (Above start taken)).mpr
      ⟨habove, fun u _ => h.above u⟩
  · apply (forall_update_iff stack fun u calls => ∀ phase right, Call.fork phase right ∈ calls →
      site right = u ∧ root < right ∧ right < count).mpr
    refine ⟨?_, fun u _ => h.forks u⟩
    intro phase right hright
    obtain ⟨other, hother⟩ := hforks phase right hright
    exact h.forks v other right hother

theorem pop
    (h : Shape root count stack taken start clock site)
    {v : Nat} {call : Call} {below : List Call}
    (hstack : stack v = call :: below) :
    Shape root count (update stack v below) taken start clock site := by
  have hwell := h.wellFormed v
  have habove := h.above v
  rw [hstack] at hwell habove
  refine h.restack hwell.2 (List.pairwise_cons.mp habove).2 ?_
  intro phase right hright
  exact ⟨phase, by rw [hstack]; exact List.mem_cons_of_mem _ hright⟩

/-- A call that is replaced by one that may stand in its place. -/
theorem swap
    (h : Shape root count stack taken start clock site)
    {v : Nat} {call next : Call} {below : List Call}
    (hstack : stack v = call :: below)
    (hsits : Sits next below)
    (hnext : ∀ other, Above start taken call other → Above start taken next other)
    (hforks : ∀ phase right, next = .fork phase right → ∃ other, call = .fork other right) :
    Shape root count (update stack v (next :: below)) taken start clock site := by
  have hwell := h.wellFormed v
  have habove := h.above v
  rw [hstack] at hwell habove
  refine h.restack ⟨hsits, hwell.2⟩ (Above.replace habove hnext) ?_
  intro phase right hright
  rw [hstack]
  rcases List.mem_cons.mp hright with heq | hbelow
  · obtain ⟨other, rfl⟩ := hforks phase right heq.symm
    exact ⟨other, List.mem_cons_self⟩
  · exact ⟨phase, List.mem_cons_of_mem _ hbelow⟩

/-- A call on top of others that is neither a fork nor a guard. -/
theorem push
    {v : Nat} {call : Call} {calls : List Call}
    (h : Shape root count (update stack v calls) taken start clock site)
    (hsits : Sits call calls)
    (hplain : ∀ other, Above start taken call other)
    (hforks : ∀ phase right, call ≠ .fork phase right) :
    Shape root count (update stack v (call :: calls)) taken start clock site := by
  have hwell := h.wellFormed v
  have habove := h.above v
  rw [Function.update_self] at hwell habove
  have hmore : Shape root count (update (update stack v calls) v (call :: calls)) taken start clock
      site := by
    refine h.restack ⟨hsits, hwell⟩
      (List.pairwise_cons.mpr ⟨fun other _ => hplain other, habove⟩) ?_
    intro phase right hright
    rw [Function.update_self]
    rcases List.mem_cons.mp hright with heq | hbelow
    · exact absurd heq.symm (hforks phase right)
    · exact ⟨phase, hbelow⟩
  rw [Function.update_idem] at hmore
  exact hmore

/-- A fork is on one stack only. -/
theorem forks_unique
    (h : Shape root count stack taken start clock site)
    {u v : Nat} {phase other : Phase} {right : JobId}
    (hu : Call.fork phase right ∈ stack u)
    (hv : Call.fork other right ∈ stack v) :
    u = v := by
  rw [← (h.forks u phase right hu).1, ← (h.forks v other right hv).1]

/-- A fork is on a stack only once. -/
theorem fork_not_mem
    (h : Shape root count stack taken start clock site)
    {v : Nat} {phase other : Phase} {right : JobId} {below : List Call}
    (hstack : stack v = .fork phase right :: below) :
    Call.fork other right ∉ below := by
  intro hother
  have habove := h.above v
  rw [hstack, List.pairwise_cons] at habove
  exact Nat.lt_irrefl _ (habove.1 _ hother)

theorem congr_taken
    (h : Shape root count stack taken start clock site)
    {other : JobId → Prop}
    (hother : ∀ k, other k ↔ taken k) :
    Shape root count stack other start clock site := by
  have heq : other = taken := funext fun k => propext (hother k)
  rw [heq]
  exact h

theorem take
    (h : Shape root count stack taken start clock site)
    {v : Nat} {job : JobId} {below : List Call} {other : JobId → Prop}
    (hstack : stack v = .fetch job :: below)
    (hguards : ∀ u, ∀ k ∈ guards (stack u), taken k)
    (hjob : ¬ taken job)
    (hother : ∀ k, other k ↔ k = job ∨ taken k) :
    Shape root count (update stack v (.guarded job :: below)) other (update start job clock)
      (clock + 1) site := by
  have hlater : ∀ u, (stack u).Pairwise (Above (update start job clock) other) := fun u =>
    Above.taken_later (h.above u) (hguards u) hjob h.started fun k hk => (hother k).mp hk
  have hwell := h.wellFormed v
  have hbelow := hlater v
  have hguardsBelow := hguards v
  rw [hstack] at hwell hbelow hguardsBelow
  refine ⟨?_, ?_, ?_, ?_⟩
  · apply (forall_update_iff stack fun _ calls => WellFormed calls).mpr
    refine ⟨⟨?_, hwell.2⟩, fun u _ => h.wellFormed u⟩
    cases hwell.1 with
    | fetched stop =>
        exact .entered _ _ _
    | fetchedBack =>
        exact .inlined _ _
  · apply (forall_update_iff stack fun _ calls =>
      calls.Pairwise (Above (update start job clock) other)).mpr
    refine ⟨List.pairwise_cons.mpr ⟨?_, (List.pairwise_cons.mp hbelow).2⟩, fun u _ => hlater u⟩
    intro call hcall
    cases call with
    | guarded earlier =>
        have htaken : taken earlier :=
          hguardsBelow earlier (mem_guards.mpr (List.mem_cons_of_mem _ hcall))
        have hne : earlier ≠ job := by
          rintro rfl
          exact hjob htaken
        show update start job clock earlier < update start job clock job
        rw [Function.update_self, Function.update_of_ne hne]
        exact h.started earlier htaken
    | _ =>
        trivial
  · intro k hk
    by_cases hne : k = job
    · rw [hne, Function.update_self]
      exact Nat.lt_succ_self clock
    · rw [Function.update_of_ne hne]
      exact Nat.lt_succ_of_lt (h.started k (((hother k).mp hk).resolve_left hne))
  · apply (forall_update_iff stack fun u calls => ∀ phase right, Call.fork phase right ∈ calls →
      site right = u ∧ root < right ∧ right < count).mpr
    refine ⟨?_, fun u _ => h.forks u⟩
    intro phase right hright
    apply h.forks v phase right
    rw [hstack]
    rcases List.mem_cons.mp hright with heq | hright
    · cases heq
    · exact List.mem_cons_of_mem _ hright

theorem fork
    (h : Shape root count stack taken start clock site)
    {v : Nat} {code rest : Code} {below : List Call} {phase : Phase}
    (hstack : stack v = .code code :: below)
    (hroot : root < count)
    (hcount : ¬ taken count) :
    Shape root (count + 1) (update stack v (.fork phase count :: .code rest :: below)) taken start
      clock (update site count v) := by
  have hwell := h.wellFormed v
  have habove := h.above v
  have hforks := h.forks v
  rw [hstack] at hwell habove hforks
  have hkeep : ∀ u phase right, Call.fork phase right ∈ stack u →
      update site count v right = u ∧ root < right ∧ right < count + 1 := by
    intro u phase right hright
    obtain ⟨hsite, habove, hbelow⟩ := h.forks u phase right hright
    rw [Function.update_of_ne (Nat.ne_of_lt hbelow)]
    exact ⟨hsite, habove, Nat.lt_succ_of_lt hbelow⟩
  refine ⟨?_, ?_, h.started, ?_⟩
  · exact (forall_update_iff stack fun _ calls => WellFormed calls).mpr
      ⟨⟨.forking _ _ _ _, hwell.1.of_code, hwell.2⟩, fun u _ => h.wellFormed u⟩
  · apply (forall_update_iff stack fun _ calls => calls.Pairwise (Above start taken)).mpr
    refine ⟨List.pairwise_cons.mpr ⟨?_, Above.replace habove fun _ _ => trivial⟩,
      fun u _ => h.above u⟩
    intro call hcall
    cases call with
    | guarded earlier =>
        exact fun htaken => absurd htaken hcount
    | fork other right =>
        rcases List.mem_cons.mp hcall with heq | hright
        · cases heq
        · exact (hforks other right (List.mem_cons_of_mem _ hright)).2.2
    | _ =>
        trivial
  · apply (forall_update_iff stack fun u calls => ∀ phase right, Call.fork phase right ∈ calls →
      update site count v right = u ∧ root < right ∧ right < count + 1).mpr
    refine ⟨?_, fun u _ => hkeep u⟩
    intro other right hright
    rcases List.mem_cons.mp hright with heq | hright
    · cases heq
      exact ⟨Function.update_self .., hroot, Nat.lt_succ_self count⟩
    · rcases List.mem_cons.mp hright with heq | hright
      · cases heq
      · apply hkeep v other right
        rw [hstack]
        exact List.mem_cons_of_mem _ hright

end Shape

/-- Where one job is neither before nor after it was moved, nothing has changed. -/
theorem iff_of_unmoved
    {p : JobId → Prop} {q : Prop} {job : JobId}
    (hold : ¬ p job)
    (hnew : ¬ q)
    (k : JobId) :
    p k ↔ (k ≠ job ∧ p k) ∨ (k = job ∧ q) := by
  constructor
  · intro hk
    refine Or.inl ⟨?_, hk⟩
    rintro rfl
    exact hold hk
  · rintro (⟨-, hk⟩ | ⟨-, hq⟩)
    · exact hk
    · exact absurd hq hnew

/-- Empty hands get a job. -/
theorem hand_gained
    {q : Prop} {job : JobId}
    (hnew : q)
    (k : JobId) :
    some job = some k ↔ (k ≠ job ∧ none = some k) ∨ (k = job ∧ q) := by
  constructor
  · intro heq
    exact Or.inr ⟨(Option.some.inj heq).symm, hnew⟩
  · rintro (⟨-, hno⟩ | ⟨rfl, -⟩)
    · cases hno
    · rfl

/-- Hands give their job away. -/
theorem hand_lost
    {q : Prop} {job : JobId}
    (hnew : ¬ q)
    (k : JobId) :
    none = some k ↔ (k ≠ job ∧ some job = some k) ∨ (k = job ∧ q) := by
  constructor
  · intro hno
    cases hno
  · rintro (⟨hne, heq⟩ | ⟨-, hq⟩)
    · exact absurd (Option.some.inj heq).symm hne
    · exact absurd hq hnew

namespace Places

variable {root : JobId} {count : Nat} {stack : Nat → List Call} {queue : Nat → List JobId}
  {home : JobId → Home}

/-- A step that changes one stack, and moves no job. -/
theorem restack
    (h : Places root count stack queue home)
    {v : Nat} {calls : List Call}
    (hsuffix : queue v <:+ spine (base root v) calls)
    (hlost : ∀ right below, calls = .fork .stolen right :: below → queue v = [])
    (hhand : hand calls = hand (stack v))
    (hguards : ∀ k, k ∈ guards calls ↔ k ∈ guards (stack v)) :
    Places root count (update stack v calls) queue home := by
  refine ⟨?_, ?_, h.nodup, h.queued, ?_, ?_, h.unborn, h.earlier⟩
  · exact (forall_update_iff stack fun u calls => queue u <:+ spine (base root u) calls).mpr
      ⟨hsuffix, fun u _ => h.suffix u⟩
  · exact (forall_update_iff stack fun u calls =>
      ∀ right below, calls = .fork .stolen right :: below → queue u = []).mpr
        ⟨hlost, fun u _ => h.lost u⟩
  · apply (forall_update_iff stack fun u calls =>
      ∀ job, hand calls = some job ↔ home job = .held u).mpr
    refine ⟨?_, fun u _ => h.held u⟩
    rw [hhand]
    exact h.held v
  · apply (forall_update_iff stack fun u calls =>
      ∀ job, job ∈ guards calls ↔ home job = .stacked u).mpr
    refine ⟨?_, fun u _ => h.stacked u⟩
    intro k
    rw [hguards k]
    exact h.stacked v k

/-- Where a job is after one job was moved. -/
theorem update_home_eq
    {job k : JobId} {next place : Home} :
    update home job next k = place ↔ (k ≠ job ∧ home k = place) ∨ (k = job ∧ next = place) := by
  by_cases hk : k = job
  · subst hk
    rw [Function.update_self]
    exact ⟨fun heq => Or.inr ⟨rfl, heq⟩,
      fun hor => hor.elim (fun hno => absurd rfl hno.1) And.right⟩
  · rw [Function.update_of_ne hk]
    exact ⟨fun heq => Or.inl ⟨hk, heq⟩, fun hor => hor.elim And.right fun hno => absurd hno.1 hk⟩

/-- Where no job came from and went to, nothing has changed. -/
theorem update_home_of_ne
    {job k : JobId} {next place : Home}
    (hold : home job ≠ place)
    (hnew : next ≠ place) :
    update home job next k = place ↔ home k = place := by
  by_cases hk : k = job
  · subst hk
    rw [Function.update_self]
    exact ⟨fun heq => absurd heq hnew, fun heq => absurd heq hold⟩
  · rw [Function.update_of_ne hk]

/-- A job is in no deque but the one where it is. -/
theorem not_queued
    (h : Places root count stack queue home)
    {job : JobId} {place : Home} {u : Nat}
    (hhome : home job = place)
    (hne : place ≠ .queued u) :
    job ∉ queue u := by
  intro hjob
  exact hne (hhome.symm.trans ((h.queued u job).mp hjob))

/-- A job is on no stack but the one where it is. -/
theorem not_stacked
    (h : Places root count stack queue home)
    {job : JobId} {place : Home} {u : Nat}
    (hhome : home job = place)
    (hne : place ≠ .stacked u) :
    job ∉ guards (stack u) := by
  intro hjob
  exact hne (hhome.symm.trans ((h.stacked u job).mp hjob))

/-- The guards of a stack are those that they were when a job was moved elsewhere. -/
theorem guards_kept
    (h : Places root count stack queue home)
    {v : Nat} {calls : List Call} {job : JobId} {place next : Home}
    (hhome : home job = place)
    (hold : place ≠ .stacked v)
    (hnew : next ≠ .stacked v)
    (hguards : guards calls = guards (stack v))
    (k : JobId) :
    k ∈ guards calls ↔ (k ≠ job ∧ k ∈ guards (stack v)) ∨ (k = job ∧ next = .stacked v) := by
  rw [hguards]
  exact iff_of_unmoved (h.not_stacked hhome hold) hnew k

/-- A job was put into a deque. -/
theorem queue_gained
    (h : Places root count stack queue home)
    {place : Nat} {job : JobId} {jobs : List JobId}
    (hjob : ∀ u, home job ≠ .queued u)
    (hjobs : ∀ k, k ∈ jobs ↔ k ∈ queue place ∨ k = job)
    (u : Nat) (k : JobId) :
    k ∈ update queue place jobs u ↔
      (k ≠ job ∧ k ∈ queue u) ∨ (k = job ∧ Home.queued place = .queued u) := by
  have hnotin : job ∉ queue u := h.not_queued rfl (hjob u)
  by_cases hu : u = place
  · subst hu
    rw [Function.update_self, hjobs]
    constructor
    · rintro (hk | rfl)
      · exact Or.inl ⟨fun heq => hnotin (heq ▸ hk), hk⟩
      · exact Or.inr ⟨rfl, rfl⟩
    · exact fun hor => hor.imp And.right And.left
  · rw [Function.update_of_ne hu]
    exact iff_of_unmoved hnotin (fun heq => hu (Home.queued.inj heq).symm) k

/-- A job was taken out of a deque. -/
theorem queue_lost
    (h : Places root count stack queue home)
    {place : Nat} {job : JobId} {jobs : List JobId} {next : Home}
    (hjobs : ∀ k, k ∈ queue place ↔ k ∈ jobs ∨ k = job)
    (hnotin : job ∉ jobs)
    (hnext : ∀ u, next ≠ .queued u)
    (u : Nat) (k : JobId) :
    k ∈ update queue place jobs u ↔
      (k ≠ job ∧ k ∈ queue u) ∨ (k = job ∧ next = .queued u) := by
  by_cases hu : u = place
  · subst hu
    rw [Function.update_self, hjobs]
    constructor
    · exact fun hk => Or.inl ⟨fun heq => hnotin (heq ▸ hk), Or.inl hk⟩
    · rintro (⟨hne, hk⟩ | ⟨-, hno⟩)
      · exact hk.resolve_right hne
      · exact absurd hno (hnext u)
  · have hhome : home job = .queued place :=
      (h.queued place job).mp ((hjobs job).mpr (Or.inr rfl))
    rw [Function.update_of_ne hu]
    exact iff_of_unmoved
      (h.not_queued hhome fun heq => hu (Home.queued.inj heq).symm) (hnext u) k

/-- A step of one worker that moves one job. -/
theorem move
    (h : Places root count stack queue home)
    {v : Nat} {calls : List Call} {job : JobId} {next : Home} {total : Nat}
    {after : Nat → List JobId}
    (hothers : ∀ u, u ≠ v → (home job ≠ .held u ∧ home job ≠ .stacked u) ∧
      next ≠ .held u ∧ next ≠ .stacked u)
    (hborn : next ≠ .unborn)
    (hgone : home job ≠ .gone)
    (htotal : ∀ k, total ≤ k ↔ k ≠ job ∧ count ≤ k)
    (hqueue : ∀ u k, k ∈ after u ↔ (k ≠ job ∧ k ∈ queue u) ∨ (k = job ∧ next = .queued u))
    (hhand : ∀ k, hand calls = some k ↔
      (k ≠ job ∧ hand (stack v) = some k) ∨ (k = job ∧ next = .held v))
    (hguards : ∀ k, k ∈ guards calls ↔
      (k ≠ job ∧ k ∈ guards (stack v)) ∨ (k = job ∧ next = .stacked v))
    (hnodup : ∀ u, (after u).Nodup)
    (hshrink : ∀ u, u ≠ v → after u <:+ queue u)
    (hsuffix : after v <:+ spine (base root v) calls)
    (hlost : ∀ right below, calls = .fork .stolen right :: below → after v = []) :
    Places root total (update stack v calls) after (update home job next) := by
  refine ⟨?_, ?_, hnodup, ?_, ?_, ?_, ?_, ?_⟩
  · exact (forall_update_iff stack fun u calls => after u <:+ spine (base root u) calls).mpr
      ⟨hsuffix, fun u hu => (hshrink u hu).trans (h.suffix u)⟩
  · apply (forall_update_iff stack fun u calls =>
      ∀ right below, calls = .fork .stolen right :: below → after u = []).mpr
    refine ⟨hlost, ?_⟩
    intro u hu right below hstack
    have hshorter := hshrink u hu
    rw [h.lost u right below hstack] at hshorter
    exact List.suffix_nil.mp hshorter
  · intro u k
    rw [hqueue u k, update_home_eq, ← h.queued u k]
  · apply (forall_update_iff stack fun u calls =>
      ∀ k, hand calls = some k ↔ update home job next k = .held u).mpr
    constructor
    · intro k
      rw [hhand k, update_home_eq, ← h.held v k]
    · intro u hu k
      obtain ⟨⟨hold, -⟩, hnew, -⟩ := hothers u hu
      rw [h.held u k]
      exact (update_home_of_ne hold hnew).symm
  · apply (forall_update_iff stack fun u calls =>
      ∀ k, k ∈ guards calls ↔ update home job next k = .stacked u).mpr
    constructor
    · intro k
      rw [hguards k, update_home_eq, ← h.stacked v k]
    · intro u hu k
      obtain ⟨⟨-, hold⟩, -, hnew⟩ := hothers u hu
      rw [h.stacked u k]
      exact (update_home_of_ne hold hnew).symm
  · intro k
    rw [htotal k, ← h.unborn k, update_home_eq]
    exact ⟨fun hor => hor.elim id fun hno => absurd hno.2 hborn, Or.inl⟩
  · intro k hk
    have hne : k ≠ job := by
      rintro rfl
      exact hgone (h.earlier k hk)
    rw [Function.update_of_ne hne]
    exact h.earlier k hk

end Places

namespace Work

variable {thunk : Code} {root : JobId} {count : Nat} {stack : Nat → List Call}
  {home : JobId → Home} {items : JobId → List Item} {body : JobId → Code}
  {performed : List Action}

/-- A step that changes one stack, and nothing that is left to be done. -/
theorem restack
    (h : Work thunk root count stack home items body performed)
    {v : Nat} {calls : List Call}
    (hreads : Reads items [] calls)
    (hended : ∀ right below, calls = .fork .closing right :: below → items right = []) :
    Work thunk root count (update stack v calls) home items body performed := by
  refine ⟨?_, ?_, h.waiting, h.gone, h.tidy, h.pending⟩
  · exact (forall_update_iff stack fun _ calls => Reads items [] calls).mpr
      ⟨hreads, fun u _ => h.reads u⟩
  · exact (forall_update_iff stack fun _ calls =>
      ∀ right below, calls = .fork .closing right :: below → items right = []).mpr
        ⟨hended, fun u _ => h.ended u⟩

/-- A step that moves a job. -/
theorem rehome
    (h : Work thunk root count stack home items body performed)
    {job : JobId} {next : Home}
    (hwaiting : next.isTaken = false → (home job).isTaken = false)
    (hgone : next = .gone → items job = []) :
    Work thunk root count stack (update home job next) items body performed := by
  refine ⟨h.reads, h.ended, ?_, ?_, h.tidy, h.pending⟩
  · intro k hk htaken
    by_cases hjob : k = job
    · subst hjob
      rw [Function.update_self] at htaken
      exact h.waiting k hk (hwaiting htaken)
    · rw [Function.update_of_ne hjob] at htaken
      exact h.waiting k hk htaken
  · intro k hk
    by_cases hjob : k = job
    · subst hjob
      rw [Function.update_self] at hk
      exact hgone hk
    · rw [Function.update_of_ne hjob] at hk
      exact h.gone k hk

/-- The calls on top of a stack, of which something is left, belong to a job on the stack. -/
theorem home_owner
    {queue : Nat → List JobId}
    (hplaces : Places root count stack queue home)
    {v : Nat} {call : Call} {below : List Call} {job : JobId}
    (hstack : stack v = call :: below)
    (howner : owner below = some job) :
    home job = .stacked v := by
  apply (hplaces.stacked v job).mp
  rw [hstack]
  have hmem := owner_mem_guards howner
  rw [mem_guards] at hmem ⊢
  exact List.mem_cons_of_mem _ hmem

/-- A step that changes what is left of the job that the innermost calls of a worker belong to,
and makes some jobs. -/
theorem change
    (h : Work thunk root count stack home items body performed)
    {queue : Nat → List JobId}
    (hplaces : Places root count stack queue home)
    (hforks : ∀ u phase right, Call.fork phase right ∈ stack u → right < count)
    {v : Nat} {call : Call} {below : List Call} {job : JobId} {inner : List Item} {total : Nat}
    {after : JobId → List Item} {homeAfter : JobId → Home} {bodyAfter : JobId → Code}
    (calls : List Call) (more : List Item) (emitted : List Action) (gone fresh : List JobId)
    (hstack : stack v = call :: below)
    (hnodup : (guards below).Nodup)
    (howner : owner below = some job)
    (hreads : Reads items inner below)
    (hinner : inner ≠ [])
    (hself : after job = outer below ++ more)
    (hkeep : ∀ k, k ≠ job → k ∉ fresh → after k = items k)
    (hsame : ∀ k, k ∉ fresh → homeAfter k = home k ∧ bodyAfter k = body k)
    (htotal : count ≤ total)
    (hfresh : ∀ k, k ∈ fresh ↔ count ≤ k ∧ k < total)
    (hdistinct : fresh.Nodup)
    (hnew : ∀ k ∈ fresh, after k = [.code (bodyAfter k)] ∧ homeAfter k ≠ .gone ∧
      Tidy root k (after k))
    (htidy : Tidy root job (outer below ++ more))
    (hcalls : Reads after more below → Reads after [] calls)
    (hopen : ∀ right deeper, calls ≠ .fork .closing right :: deeper)
    (hgone : ∀ k ∈ gone, k < count ∧ items k = [])
    (hlocal : ∀ t, Fits items inner t → (∀ k ∈ t.jobs, after k = items k) →
      ∃ u, Fits after more u ∧ t.Becomes u emitted gone fresh) :
    Work thunk root total (update stack v calls) homeAfter after bodyAfter
      (performed ++ emitted) := by
  have hhome := home_owner hplaces hstack howner
  have hitems : items job = outer below ++ inner := hreads.items_owner howner
  have hleft : items job ≠ [] := by
    rw [hitems]
    exact fun heq => hinner (List.append_eq_nil_iff.mp heq).2
  have hold : ∀ k, k < count → k ∉ fresh := fun k hk hmem =>
    absurd hk (Nat.not_lt_of_le ((hfresh k).mp hmem).1)
  have hempty : ∀ k, k ∉ fresh → items k = [] → after k = [] := by
    intro k hk hnil
    rw [hkeep k (fun heq => hleft (heq ▸ hnil)) hk, hnil]
  have hguards : ∀ u, ∀ k ∈ guards (stack u), k ∉ fresh := by
    intro u k hk
    apply hold
    refine Nat.lt_of_not_le fun hle => ?_
    have hunborn := (hplaces.unborn k).mpr hle
    rw [(hplaces.stacked u k).mp hk] at hunborn
    cases hunborn
  refine ⟨?_, ?_, ?_, ?_, ?_, ?_⟩
  · apply (forall_update_iff stack fun _ calls => Reads after [] calls).mpr
    constructor
    · refine hcalls (hreads.replace hnodup howner hself fun k hk hne => hkeep k hne ?_)
      apply hguards v
      rw [hstack, mem_guards]
      exact List.mem_cons_of_mem _ (mem_guards.mp hk)
    · intro u hu
      refine (h.reads u).congr fun k hk => hkeep k ?_ (hguards u k hk)
      rintro rfl
      rw [(hplaces.stacked u k).mp hk] at hhome
      exact hu (Home.stacked.inj hhome)
  · apply (forall_update_iff stack fun _ calls =>
      ∀ right deeper, calls = .fork .closing right :: deeper → after right = []).mpr
    refine ⟨fun right deeper heq => absurd heq (hopen right deeper), ?_⟩
    intro u _ right deeper heq
    refine hempty right (hold right (hforks u .closing right ?_)) (h.ended u right deeper heq)
    rw [heq]
    exact List.mem_cons_self
  · intro k hk htaken
    by_cases hmem : k ∈ fresh
    · exact (hnew k hmem).1
    · rw [(hsame k hmem).1] at htaken
      rw [(hsame k hmem).2, hkeep k ?_ hmem]
      · exact h.waiting k (Nat.lt_of_not_le fun hle => hmem ((hfresh k).mpr ⟨hle, hk⟩)) htaken
      · rintro rfl
        rw [hhome] at htaken
        cases htaken
  · intro k hk
    by_cases hmem : k ∈ fresh
    · exact absurd hk (hnew k hmem).2.1
    · rw [(hsame k hmem).1] at hk
      exact hempty k hmem (h.gone k hk)
  · intro k hk
    by_cases hmem : k ∈ fresh
    · exact (hnew k hmem).2.2
    · by_cases hjob : k = job
      · subst hjob
        rw [hself]
        exact htidy
      · rw [hkeep k hjob hmem]
        exact h.tidy k (Nat.lt_of_not_le fun hle => hmem ((hfresh k).mpr ⟨hle, hk⟩))
  · refine h.pending.change hitems hleft hself hkeep htotal (fun k hk => (hfresh k).mp hk) hdistinct
      ?_ hlocal
    intro k hk
    exact hempty k (hold k (hgone k hk).1) (hgone k hk).2

end Work

namespace Told

variable {root : JobId} {count : Nat} {stack : Nat → List Call} {taken : JobId → Prop}
  {items : JobId → List Item} {history : List Moment}

theorem congr_taken
    (h : Told root count stack taken items history)
    {other : JobId → Prop}
    (hother : ∀ k, other k ↔ taken k) :
    Told root count stack other items history := by
  have heq : other = taken := funext fun k => propext (hother k)
  rw [heq]
  exact h

/-- A step that changes one stack, where all forks keep their branches where they are. -/
theorem restack
    (h : Told root count stack taken items history)
    {v : Nat} {calls : List Call}
    (hforks : ∀ phase right, Call.fork phase right ∈ calls →
      ∃ other, Call.fork other right ∈ stack v ∧ other.hasBegun = phase.hasBegun ∧
        other.hasLeft = phase.hasLeft) :
    Told root count (update stack v calls) taken items history := by
  refine ⟨h.orderly, ?_, h.fresh, h.began, h.ended, h.finished⟩
  apply (forall_update_iff stack fun _ calls => ∀ phase right, Call.fork phase right ∈ calls →
    (.leftBegan right ∈ history ↔ phase.hasBegun = true) ∧
      (.leftEnded right ∈ history ↔ phase.hasLeft = true) ∧ .returned right ∉ history).mpr
  refine ⟨?_, fun u _ => h.forks u⟩
  intro phase right hright
  obtain ⟨other, hother, hbegun, hleft⟩ := hforks phase right hright
  rw [← hbegun, ← hleft]
  exact h.forks v other right hother

/-- A step that changes what is left of jobs, and ends none of them. -/
theorem reitems
    (h : Told root count stack taken items history)
    {after : JobId → List Item}
    (hroot : root < count)
    (hitems : ∀ k, k < count → (after k = [] ↔ items k = [])) :
    Told root count stack taken after history := by
  refine ⟨h.orderly, h.forks, h.fresh, h.began, ?_, ?_⟩
  · intro k
    rw [h.ended k]
    constructor
    · rintro ⟨hne, hlt, hnil⟩
      exact ⟨hne, hlt, (hitems k hlt).mpr hnil⟩
    · rintro ⟨hne, hlt, hnil⟩
      exact ⟨hne, hlt, (hitems k hlt).mp hnil⟩
  · rw [h.finished, hitems root hroot]

theorem fork
    (h : Told root count stack taken items history)
    {v : Nat} {left code rest : Code} {below : List Call} {after : JobId → List Item}
    (hstack : stack v = .code code :: below)
    (hroot : root < count)
    (hitems : ∀ k, k < count → (after k = [] ↔ items k = []))
    (hcount : after count ≠ []) :
    Told root (count + 1)
      (update stack v (.fork (.publish left) count :: .code rest :: below)) taken
      after history := by
  have hfresh := h.fresh count (Nat.le_refl count)
  refine ⟨h.orderly, ?_, fun k hk => h.fresh k (Nat.le_of_succ_le hk), h.began, ?_, ?_⟩
  · apply (forall_update_iff stack fun _ calls => ∀ phase right, Call.fork phase right ∈ calls →
      (.leftBegan right ∈ history ↔ phase.hasBegun = true) ∧
        (.leftEnded right ∈ history ↔ phase.hasLeft = true) ∧ .returned right ∉ history).mpr
    refine ⟨?_, fun u _ => h.forks u⟩
    intro phase right hright
    rcases List.mem_cons.mp hright with heq | hright
    · cases heq
      exact ⟨iff_of_false hfresh.1 Bool.false_ne_true, iff_of_false hfresh.2.1 Bool.false_ne_true,
        hfresh.2.2⟩
    · rcases List.mem_cons.mp hright with heq | hright
      · cases heq
      · apply h.forks v phase right
        rw [hstack]
        exact List.mem_cons_of_mem _ hright
  · intro k
    rw [h.ended k]
    constructor
    · rintro ⟨hne, hlt, hnil⟩
      exact ⟨hne, Nat.lt_succ_of_lt hlt, (hitems k hlt).mpr hnil⟩
    · rintro ⟨hne, hlt, hnil⟩
      have hbelow : k < count := by
        refine Nat.lt_of_le_of_ne (Nat.le_of_lt_succ hlt) ?_
        rintro rfl
        exact hcount hnil
      exact ⟨hne, hbelow, (hitems k hbelow).mp hnil⟩
  · rw [h.finished, hitems root hroot]

/-- A moment of a fork on top of a stack. -/
theorem tellFork
    (h : Told root count stack taken items history)
    {start : JobId → Nat} {clock : Nat} {site : JobId → Nat}
    (hshape : Shape root count stack taken start clock site)
    {v : Nat} {phase : Phase} {right : JobId} {below calls : List Call} {moment : Moment}
    (hstack : stack v = .fork phase right :: below)
    (hmoment : moment = .leftBegan right ∨ moment = .leftEnded right ∨ moment = .returned right)
    (hnew : moment ∉ history)
    (hjoined : moment = .returned right →
      .leftBegan right ∈ history ∧ .leftEnded right ∈ history ∧
        .jobBegan right ∈ history ∧ .jobEnded right ∈ history)
    (hcalls : ∀ other k, Call.fork other k ∈ calls → Call.fork other k ∈ below ∨ (k = right ∧
      (.leftBegan right ∈ history ++ [moment] ↔ other.hasBegun = true) ∧
        (.leftEnded right ∈ history ++ [moment] ↔ other.hasLeft = true) ∧
          .returned right ∉ history ++ [moment])) :
    Told root count (update stack v calls) taken items (history ++ [moment]) := by
  have hbelow : right < count := by
    refine (hshape.forks v phase right ?_).2.2
    rw [hstack]
    exact List.mem_cons_self
  have hkeep : ∀ {other : Phase} {k : JobId}, k ≠ right →
      ((.leftBegan k ∈ history ↔ other.hasBegun = true) ∧
        (.leftEnded k ∈ history ↔ other.hasLeft = true) ∧ .returned k ∉ history) →
      (.leftBegan k ∈ history ++ [moment] ↔ other.hasBegun = true) ∧
        (.leftEnded k ∈ history ++ [moment] ↔ other.hasLeft = true) ∧
          .returned k ∉ history ++ [moment] := by
    intro other k hk hold
    rcases hmoment with rfl | rfl | rfl <;> simpa [List.mem_append, hk] using hold
  refine ⟨h.orderly.concat hnew ?_, ?_, ?_, ?_, ?_, ?_⟩
  · intro k hk
    rcases hmoment with rfl | rfl | rfl
    · cases hk
    · cases hk
    · cases hk
      exact hjoined rfl
  · apply (forall_update_iff stack fun _ calls => ∀ phase right, Call.fork phase right ∈ calls →
      (.leftBegan right ∈ history ++ [moment] ↔ phase.hasBegun = true) ∧
        (.leftEnded right ∈ history ++ [moment] ↔ phase.hasLeft = true) ∧
          .returned right ∉ history ++ [moment]).mpr
    constructor
    · intro other k hk
      rcases hcalls other k hk with hold | ⟨rfl, hnow⟩
      · have hne : k ≠ right := by
          rintro rfl
          exact hshape.fork_not_mem hstack hold
        refine hkeep hne (h.forks v other k ?_)
        rw [hstack]
        exact List.mem_cons_of_mem _ hold
      · exact hnow
    · intro u hu other k hk
      have hne : k ≠ right := by
        rintro rfl
        have hright : Call.fork phase k ∈ stack v := by
          rw [hstack]
          exact List.mem_cons_self
        exact hu (hshape.forks_unique hk hright)
      exact hkeep hne (h.forks u other k hk)
  · intro k hk
    have hne : k ≠ right := by
      rintro rfl
      exact absurd hbelow (Nat.not_lt_of_le hk)
    have hold := h.fresh k hk
    rcases hmoment with rfl | rfl | rfl <;> simpa [List.mem_append, hne] using hold
  · intro k hk
    rw [Moment.mem_concat_of_ne]
    · exact h.began k hk
    · rcases hmoment with rfl | rfl | rfl <;> exact Moment.noConfusion
  · intro k
    rw [Moment.mem_concat_of_ne]
    · exact h.ended k
    · rcases hmoment with rfl | rfl | rfl <;> exact Moment.noConfusion
  · rw [Moment.mem_concat_of_ne]
    · exact h.finished
    · rcases hmoment with rfl | rfl | rfl <;> exact Moment.noConfusion

/-- A moment that is not one of a fork. -/
theorem tellJob
    (h : Told root count stack taken items history)
    {moment : Moment} {other : JobId → Prop} {after : JobId → List Item}
    (hmoment : ∀ right, moment ≠ .leftBegan right ∧ moment ≠ .leftEnded right ∧
      moment ≠ .returned right)
    (hnew : moment ∉ history)
    (hbegan : ∀ k, root ≤ k → (.jobBegan k ∈ history ++ [moment] ↔ other k))
    (hended : ∀ k, .jobEnded k ∈ history ++ [moment] ↔ root < k ∧ k < count ∧ after k = [])
    (hfinished : .finished ∈ history ++ [moment] ↔ after root = []) :
    Told root count stack other after (history ++ [moment]) := by
  refine ⟨h.orderly.concat hnew ?_, ?_, ?_, hbegan, hended, hfinished⟩
  · intro right hright
    exact absurd hright (hmoment right).2.2
  · intro v phase right hright
    obtain ⟨hbegun, hleft, hreturned⟩ := hmoment right
    rw [Moment.mem_concat_of_ne hbegun.symm, Moment.mem_concat_of_ne hleft.symm,
      Moment.mem_concat_of_ne hreturned.symm]
    exact h.forks v phase right hright
  · intro k hk
    obtain ⟨hbegun, hleft, hreturned⟩ := hmoment k
    rw [Moment.mem_concat_of_ne hbegun.symm, Moment.mem_concat_of_ne hleft.symm,
      Moment.mem_concat_of_ne hreturned.symm]
    exact h.fresh k hk

theorem take
    (h : Told root count stack taken items history)
    {job : JobId} {other : JobId → Prop}
    (hroot : root ≤ job)
    (hjob : ¬ taken job)
    (hother : ∀ k, other k ↔ k = job ∨ taken k) :
    Told root count stack other items (history ++ [.jobBegan job]) := by
  refine h.tellJob ?_ ?_ ?_ ?_ ?_
  · intro right
    exact ⟨Moment.noConfusion, Moment.noConfusion, Moment.noConfusion⟩
  · rw [h.began job hroot]
    exact hjob
  · intro k hk
    rw [hother k, List.mem_append, List.mem_singleton, h.began k hk, or_comm]
    exact or_congr_left ⟨Moment.jobBegan.inj, congrArg _⟩
  · intro k
    rw [Moment.mem_concat_of_ne Moment.noConfusion]
    exact h.ended k
  · rw [Moment.mem_concat_of_ne Moment.noConfusion]
    exact h.finished

/-- A job comes to its end. -/
theorem close
    (h : Told root count stack taken items history)
    {job : JobId} {after : JobId → List Item}
    (hroot : root ≤ job)
    (hjob : job < count)
    (hleft : items job ≠ [])
    (hdone : after job = [])
    (hkeep : ∀ k, k ≠ job → after k = items k) :
    Told root count stack taken after (history ++ noteMoment (closing root job)) := by
  unfold closing
  by_cases hfirst : job = root
  · subst hfirst
    rw [if_pos rfl]
    refine h.tellJob ?_ ?_ ?_ ?_ ?_
    · intro right
      exact ⟨Moment.noConfusion, Moment.noConfusion, Moment.noConfusion⟩
    · rw [h.finished]
      exact hleft
    · intro k hk
      rw [Moment.mem_concat_of_ne Moment.noConfusion]
      exact h.began k hk
    · intro k
      rw [Moment.mem_concat_of_ne Moment.noConfusion, h.ended k]
      refine and_congr_right fun hlt => ?_
      rw [hkeep k (Nat.ne_of_gt hlt)]
    · exact iff_of_true Moment.mem_concat_self hdone
  · rw [if_neg hfirst]
    refine h.tellJob ?_ ?_ ?_ ?_ ?_
    · intro right
      exact ⟨Moment.noConfusion, Moment.noConfusion, Moment.noConfusion⟩
    · rw [h.ended]
      exact fun hended => hleft hended.2.2
    · intro k hk
      rw [Moment.mem_concat_of_ne Moment.noConfusion]
      exact h.began k hk
    · intro k
      by_cases hk : k = job
      · subst hk
        exact iff_of_true Moment.mem_concat_self
          ⟨Nat.lt_of_le_of_ne hroot (Ne.symm hfirst), hjob, hdone⟩
      · rw [Moment.mem_concat_of_ne fun heq => hk (Moment.jobEnded.inj heq), h.ended k, hkeep k hk]
    · rw [Moment.mem_concat_of_ne Moment.noConfusion, hkeep root (Ne.symm hfirst)]
      exact h.finished

end Told
end ForkJoin
end WorkStealing
