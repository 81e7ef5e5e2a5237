import Mathlib.Logic.Function.Basic
import WorkStealing.Proofs.ForkJoin.Task

/-!
# The stack of a worker

The calls of a worker inside a parallel region, the innermost first. A stack of
calls is read in four ways: which call may stand on which other one
(`WellFormed`), what is left of the jobs that the worker has started (`Reads`),
which right branches may still be in the worker's deque (`spine`), and which
job the worker has in its hands (`hand`).
-/

namespace WorkStealing
namespace ForkJoin

/-- How far a fork has come. -/
inductive Phase where
  | publish (left : Code)
  | published (left : Code)
  /-- The left branch is running, or has ended. -/
  | check
  | reclaim
  | inline
  /-- The right branch is elsewhere, and is to be waited for. -/
  | stolen
  | closing

/-- While the fork has come so far, its right branch may be in the deque. -/
def Phase.isLive : Phase → Bool
  | published _ => true
  | check => true
  | reclaim => true
  | _ => false

/-- A call of a worker that has not returned. -/
inductive Call where
  | code (rest : Code)
  | fetch (job : JobId)
  /-- A job whose code is above. -/
  | guarded (job : JobId)
  | fork (phase : Phase) (right : JobId)
  /-- A worker loop, or a wait that only polls, with the job that the worker has obtained there;
  it ends when a job has ended, or else when the run has. -/
  | loop (held : Option JobId) (stop : Option JobId)

/-- The call may stand on these. -/
inductive Sits : Call → List Call → Prop where
  | outermost (held : Option JobId) : Sits (.loop held none) []
  | waiting (held : Option JobId) (job : JobId) (below : List Call) :
      Sits (.loop held (some job)) (.fork .closing job :: below)
  | forking (phase : Phase) (right : JobId) (rest : Code) (below : List Call) :
      Sits (.fork phase right) (.code rest :: below)
  | body (rest : Code) (job : JobId) (below : List Call) :
      Sits (.code rest) (.guarded job :: below)
  | left (rest : Code) (right : JobId) (below : List Call) :
      Sits (.code rest) (.fork .check right :: below)
  | entered (job : JobId) (stop : Option JobId) (below : List Call) :
      Sits (.guarded job) (.loop none stop :: below)
  | inlined (job : JobId) (below : List Call) :
      Sits (.guarded job) (.fork .closing job :: below)
  | fetched (job : JobId) (stop : Option JobId) (below : List Call) :
      Sits (.fetch job) (.loop none stop :: below)
  | fetchedBack (job : JobId) (below : List Call) :
      Sits (.fetch job) (.fork .closing job :: below)

/-- A loop may stand where it stands whatever it holds. -/
theorem Sits.of_loop
    {held other : Option JobId} {stop : Option JobId} {below : List Call}
    (h : Sits (.loop held stop) below) :
    Sits (.loop other stop) below := by
  cases h with
  | outermost =>
      exact .outermost _
  | waiting =>
      exact .waiting _ _ _

/-- Code may stand where it stands whatever is left of it. -/
theorem Sits.of_code
    {code rest : Code} {below : List Call}
    (h : Sits (.code code) below) :
    Sits (.code rest) below := by
  cases h with
  | body =>
      exact .body _ _ _
  | left =>
      exact .left _ _ _

def WellFormed : List Call → Prop
  | [] => True
  | call :: below => Sits call below ∧ WellFormed below

def guards : List Call → List JobId
  | [] => []
  | .guarded job :: below => job :: guards below
  | _ :: below => guards below

theorem mem_guards
    {job : JobId} {stack : List Call} :
    job ∈ guards stack ↔ Call.guarded job ∈ stack := by
  induction stack with
  | nil =>
      simp [guards]
  | cons call below ih =>
      cases call with
      | guarded other =>
          simp [guards, ih]
      | _ =>
          simp [guards, ih]

/-- What a call leaves to be done for the job that it belongs to. -/
def Call.items : Call → List Item
  | .code rest => Item.ofCode rest
  | .fork (.publish left) right => .join right :: Item.ofCode left
  | .fork (.published left) right => .join right :: Item.ofCode left
  | .fork _ right => [.join right]
  | _ => []

/-- What the calls down to the first guard or loop leave to be done. -/
def outer : List Call → List Item
  | [] => []
  | .guarded _ :: _ => []
  | .loop _ _ :: _ => []
  | .code rest :: below => outer below ++ (Call.code rest).items
  | .fetch job :: below => outer below ++ (Call.fetch job).items
  | .fork phase right :: below => outer below ++ (Call.fork phase right).items

/-- The job that the calls down to the first guard belong to. -/
def owner : List Call → Option JobId
  | [] => none
  | .guarded job :: _ => some job
  | .loop _ _ :: _ => none
  | _ :: below => owner below

/-- Code and forks belong to a job. -/
theorem exists_owner
    {call : Call} {below : List Call}
    (hsits : Sits call below)
    (hbelow : WellFormed below)
    (hcall : (∃ rest, call = .code rest) ∨ ∃ phase right, call = .fork phase right) :
    ∃ job, owner below = some job := by
  induction below generalizing call with
  | nil =>
      cases hsits
      rcases hcall with ⟨rest, hcall⟩ | ⟨phase, right, hcall⟩ <;> cases hcall
  | cons next deeper ih =>
      cases hsits with
      | body rest job =>
          exact ⟨job, rfl⟩
      | left rest right =>
          exact ih hbelow.1 hbelow.2 (Or.inr ⟨_, _, rfl⟩)
      | forking phase right rest =>
          exact ih hbelow.1 hbelow.2 (Or.inl ⟨_, rfl⟩)
      | _ =>
          rcases hcall with ⟨rest, hcall⟩ | ⟨phase, right, hcall⟩ <;> cases hcall

theorem owner_mem_guards
    {stack : List Call} {job : JobId}
    (h : owner stack = some job) :
    job ∈ guards stack := by
  induction stack with
  | nil =>
      cases h
  | cons call below ih =>
      cases call with
      | guarded other =>
          cases h
          exact List.mem_cons_self
      | loop held stop =>
          cases h
      | code rest =>
          exact ih h
      | fetch other =>
          exact ih h
      | fork phase right =>
          exact ih h

/-- The items of each job with a guard are what stands above the guard. -/
def Reads (items : JobId → List Item) : List Item → List Call → Prop
  | above, [] => above = []
  | above, .guarded job :: below => items job = above ∧ Reads items [] below
  | above, .loop _ _ :: below => above = [] ∧ Reads items [] below
  | above, call :: below => Reads items (call.items ++ above) below

namespace Reads

variable {items after : JobId → List Item} {above : List Item} {stack : List Call}

/-- Only the items of jobs with a guard matter. -/
theorem congr
    (h : Reads items above stack)
    (hsame : ∀ job ∈ guards stack, after job = items job) :
    Reads after above stack := by
  induction stack generalizing above with
  | nil =>
      exact h
  | cons call below ih =>
      cases call with
      | guarded job =>
          refine ⟨?_, ih h.2 fun k hk => hsame k (List.mem_cons_of_mem _ hk)⟩
          rw [hsame job List.mem_cons_self]
          exact h.1
      | loop held stop =>
          exact ⟨h.1, ih h.2 hsame⟩
      | code rest =>
          exact ih h hsame
      | fetch job =>
          exact ih h hsame
      | fork phase right =>
          exact ih h hsame

/-- The items of the job that the innermost calls belong to. -/
theorem items_owner
    (h : Reads items above stack)
    {job : JobId}
    (howner : owner stack = some job) :
    items job = outer stack ++ above := by
  induction stack generalizing above with
  | nil =>
      cases howner
  | cons call below ih =>
      cases call with
      | guarded other =>
          cases howner
          exact h.1
      | loop held stop =>
          cases howner
      | code rest =>
          rw [outer, List.append_assoc]
          exact ih h howner
      | fetch other =>
          rw [outer, List.append_assoc]
          exact ih h howner
      | fork phase right =>
          rw [outer, List.append_assoc]
          exact ih h howner

/-- The items that stand above the calls may change with the items of the job that they belong
to. -/
theorem replace
    {more : List Item} {job : JobId}
    (h : Reads items above stack)
    (hnodup : (guards stack).Nodup)
    (howner : owner stack = some job)
    (hjob : after job = outer stack ++ more)
    (hothers : ∀ k ∈ guards stack, k ≠ job → after k = items k) :
    Reads after more stack := by
  induction stack generalizing above more with
  | nil =>
      cases howner
  | cons call below ih =>
      cases call with
      | guarded other =>
          cases howner
          rw [guards, List.nodup_cons] at hnodup
          refine ⟨hjob, h.2.congr fun k hk => hothers k (List.mem_cons_of_mem _ hk) ?_⟩
          rintro rfl
          exact hnodup.1 hk
      | loop held stop =>
          cases howner
      | code rest =>
          rw [outer, List.append_assoc] at hjob
          exact ih h hnodup howner hjob hothers
      | fetch other =>
          rw [outer, List.append_assoc] at hjob
          exact ih h hnodup howner hjob hothers
      | fork phase right =>
          rw [outer, List.append_assoc] at hjob
          exact ih h hnodup howner hjob hothers

end Reads

/-- The right branches that may still be in the deque of the worker, the oldest first: those of
the forks above the innermost loop. A worker in the outermost loop may have some other jobs
there. -/
def spine (base : List JobId) : List Call → List JobId
  | [] => base
  | .loop _ none :: _ => base
  | .loop _ (some _) :: _ => []
  | .fork phase right :: below => spine base below ++ (if phase.isLive then [right] else [])
  | _ :: below => spine base below

/-- The right branch of a fork may be in the deque while the fork has not popped it. -/
theorem spine_of_isLive
    (base : List JobId) {phase : Phase} {right : JobId} {below : List Call}
    (hlive : phase.isLive = true) :
    spine base (.fork phase right :: below) = spine base below ++ [right] := by
  rw [spine, if_pos hlive]

/-- Else it is not in the deque. -/
theorem spine_of_not_isLive
    (base : List JobId) {phase : Phase} {right : JobId} {below : List Call}
    (hlive : phase.isLive = false) :
    spine base (.fork phase right :: below) = spine base below := by
  rw [spine, hlive, if_neg Bool.false_ne_true, List.append_nil]

/-- What a loop has obtained does not matter for the deque. -/
theorem spine_loop
    (base : List JobId) (held other stop : Option JobId) (below : List Call) :
    spine base (.loop held stop :: below) = spine base (.loop other stop :: below) := by
  cases stop <;> rfl

/-- The job that the worker has in its hands: in no deque, and not started yet. -/
def hand : List Call → Option JobId
  | .loop held _ :: _ => held
  | .fetch job :: _ => some job
  | .fork (.publish _) right :: _ => some right
  | .fork .inline right :: _ => some right
  | _ => none

/-- What a call has to do with one further down in the stack. Jobs further down were started
earlier; a right branch that was taken was taken later than each job below its fork was
started; and forks further down were made earlier. -/
def Above (start : JobId → Nat) (taken : JobId → Prop) : Call → Call → Prop
  | .guarded later, .guarded earlier => start earlier < start later
  | .fork _ right, .guarded earlier => taken right → start earlier < start right
  | .fork _ right, .fork _ other => other < right
  | _, _ => True

namespace Above

variable {start : JobId → Nat} {taken : JobId → Prop} {stack : List Call}

/-- A job is started at most once in a stack. -/
theorem nodup_guards
    (h : stack.Pairwise (Above start taken)) :
    (guards stack).Nodup := by
  induction stack with
  | nil =>
      exact List.nodup_nil
  | cons call below ih =>
      rw [List.pairwise_cons] at h
      cases call with
      | guarded job =>
          rw [guards, List.nodup_cons]
          refine ⟨?_, ih h.2⟩
          intro hjob
          exact Nat.lt_irrefl _ (h.1 _ (mem_guards.mp hjob))
      | _ =>
          exact ih h.2

/-- A call may be replaced by one of the same kind. -/
theorem replace
    {call next : Call} {below : List Call}
    (h : (call :: below).Pairwise (Above start taken))
    (hnext : ∀ other, Above start taken call other → Above start taken next other) :
    (next :: below).Pairwise (Above start taken) := by
  rw [List.pairwise_cons] at h ⊢
  exact ⟨fun other hother => hnext other (h.1 other hother), h.2⟩

/-- A job that is started later than all others. -/
theorem taken_later
    {other : JobId → Prop} {job : JobId} {clock : Nat}
    (h : stack.Pairwise (Above start taken))
    (hguards : ∀ k ∈ guards stack, taken k)
    (hjob : ¬ taken job)
    (hstarted : ∀ k, taken k → start k < clock)
    (hother : ∀ k, other k → k = job ∨ taken k) :
    stack.Pairwise (Above (Function.update start job clock) other) := by
  have hkeep : ∀ k, taken k → Function.update start job clock k = start k := by
    intro k hk
    apply Function.update_of_ne
    rintro rfl
    exact hjob hk
  refine List.Pairwise.imp_of_mem ?_ h
  intro call next hcall hnext habove
  cases next with
  | guarded earlier =>
      have hearlier : taken earlier := hguards earlier (mem_guards.mpr hnext)
      cases call with
      | guarded later =>
          have hlater : taken later := hguards later (mem_guards.mpr hcall)
          show Function.update start job clock earlier < Function.update start job clock later
          rw [hkeep earlier hearlier, hkeep later hlater]
          exact habove
      | fork phase right =>
          intro hright
          rw [hkeep earlier hearlier]
          rcases hother right hright with rfl | htaken
          · rw [Function.update_self]
            exact hstarted earlier hearlier
          · rw [hkeep right htaken]
            exact habove htaken
      | _ =>
          trivial
  | fork phase right =>
      cases call with
      | fork other later =>
          exact habove
      | _ =>
          trivial
  | _ =>
      cases call <;> trivial

end Above
end ForkJoin
end WorkStealing
