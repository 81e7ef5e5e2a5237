import WorkStealing.Proofs.Deque.Tags

/-!
# A deque as a plain list of jobs

With a single user, a deque is a list with two numbers beside it: its bottom and its
tag. A *shelf* is that list, and says for each request what the answer is and what is
left. A new deque and an empty shelf answer all requests alike, one after another,
and end alike. They end before the last request only when a request needs a new tag
and there is none.
-/

namespace WorkStealing
namespace Deque

variable {α : Type}

/-- What a single user asks of a deque. -/
inductive Order (α : Type) where
  | push (job : α)
  | pop
  | steal
  | reset

/-- What the user is told. -/
inductive Answer (α : Type) where
  | pushed (outcome : Except Error Unit)
  | took (job : Option α)
  | done
  /-- The request was a mistake of the user, and was not carried out. -/
  | panicked (cause : Panic)

/-- What an operation says as an answer; an error about which nothing can be done is the end. -/
def answered {β : Type} (d : Deque α) (answer : β → Answer α) :
    Except Failure β → Except Error (Deque α × Answer α)
  | .ok result => .ok (d, answer result)
  | .error (.panic cause) => .ok (d, .panicked cause)
  | .error (.error cause) => .error cause

/-- Carries out a request. -/
def serve (d : Deque α) : Order α → Except Error (Deque α × Answer α)
  | .push job => (d.push job).1.answered .pushed (d.push job).2
  | .pop => d.pop.1.answered .took d.pop.2
  | .steal => d.steal.1.answered .took d.steal.2
  | .reset => (d.reset.toOption.getD d).answered (fun _ => .done) d.reset

/-- The jobs of a deque, oldest first, with its bottom and its tag. -/
structure Shelf (α : Type) where
  jobs : List α := []
  bottom : Nat := 0
  tag : Nat := 0

namespace Shelf

/-- An empty shelf with the next tag, if there is one. -/
def restart (s : Shelf α) (answer : Answer α) : Except Error (Shelf α × Answer α) :=
  if s.tag + 1 < UInt32.size then .ok ({ tag := s.tag + 1 }, answer) else .error .tagExhausted

/-- Carries out a request on a shelf with so many places. -/
def serve (capacity : Nat) (s : Shelf α) : Order α → Except Error (Shelf α × Answer α)
  | .push job =>
    if s.bottom = capacity then .ok (s, .pushed (.error (.dequeOverflow capacity)))
    else .ok ({ s with jobs := s.jobs ++ [job], bottom := s.bottom + 1 }, .pushed (.ok ()))
  | .steal => .ok ({ s with jobs := s.jobs.tail }, .took s.jobs.head?)
  | .pop =>
    if s.bottom = 0 then .ok (s, .took none)
    else if s.jobs.dropLast = [] then s.restart (.took s.jobs.getLast?)
    else
      .ok ({ s with jobs := s.jobs.dropLast, bottom := s.bottom - 1 }, .took s.jobs.getLast?)
  | .reset =>
    if s.jobs ≠ [] then .ok (s, .panicked .resetNonEmpty)
    else if s.bottom = 0 then .ok (s, .done)
    else s.restart .done

end Shelf

/-- Carries out requests one after another, for as long as that is possible: the answers, and
what is left in the end. -/
def serveEach {σ : Type} (serve : σ → Order α → Except Error (σ × Answer α)) (state : σ) :
    List (Order α) → List (Answer α) × Except Error σ
  | [] => ([], .ok state)
  | order :: rest =>
    match serve state order with
    | .error cause => ([], .error cause)
    | .ok (next, answer) =>
      let ended := serveEach serve next rest
      (answer :: ended.1, ended.2)

/-- What a deque answers to requests, and what is left of it. -/
def serveAll (d : Deque α) (orders : List (Order α)) : List (Answer α) × Except Error (Deque α) :=
  serveEach serve d orders

/-- What a shelf answers to requests, and what is left on it. -/
def Shelf.serveAll (capacity : Nat) (s : Shelf α) (orders : List (Order α)) :
    List (Answer α) × Except Error (Shelf α) :=
  serveEach (Shelf.serve capacity) s orders

/-- What can be seen of the deque is what is on the shelf. -/
structure Mirrors (d : Deque α) (s : Shelf α) : Prop where
  contents : d.contents = s.jobs.map some
  size : d.size = s.jobs.length
  empty : d.isEmpty = true ↔ s.jobs = []
  bottom : d.bottom.toNat = s.bottom
  tag : d.age.tag.toNat = s.tag
  ends : d.age.top.toNat + s.jobs.length = s.bottom
  room : s.bottom ≤ d.capacity

/-- The jobs on the shelf are those in the deque. -/
structure Agrees (d : Deque α) (s : Shelf α) : Prop where
  holds : d.Holds s.jobs
  bottom : d.bottom.toNat = s.bottom
  tag : d.age.tag.toNat = s.tag

/-- Both sides find no tag left, or give the same answer and agree again. A request that leaves
the shelf as it was leaves the deque as it was. -/
def Alike (d : Deque α) (s : Shelf α) :
    Except Error (Deque α × Answer α) → Except Error (Shelf α × Answer α) → Prop
  | .error cause, .error expected => cause = .tagExhausted ∧ expected = .tagExhausted
  | .ok (e, answer), .ok (t, expected) =>
    answer = expected ∧ e.Agrees t ∧ e.capacity = d.capacity ∧ (t = s → e = d)
  | _, _ => False

namespace Agrees

variable {d : Deque α} {s : Shelf α}

theorem mirrors
    (h : d.Agrees s) :
    d.Mirrors s where
  contents := h.holds.contents_eq
  size := h.holds.size_eq
  empty := h.holds.isEmpty_iff
  bottom := h.bottom
  tag := h.tag
  ends := by
    have hends := h.holds.bottom_eq
    have hbottom := h.bottom
    omega
  room := by
    have hroom := h.holds.bottom_le
    have hbottom := h.bottom
    omega

theorem bottom_eq_zero
    (h : d.Agrees s) :
    d.bottom = 0 ↔ s.bottom = 0 := by
  rw [← h.bottom, ← UInt32.toNat_inj]
  rfl

/-- A request that changes nothing. -/
theorem unchanged
    (h : d.Agrees s)
    (answer : Answer α) :
    Alike d s (.ok (d, answer)) (.ok (s, answer)) :=
  ⟨rfl, h, rfl, fun _ => rfl⟩

/-- A request that changes the shelf. -/
theorem changed
    {e : Deque α} {t : Shelf α}
    (h : e.Agrees t)
    (hcapacity : e.capacity = d.capacity)
    (hne : t ≠ s)
    (answer : Answer α) :
    Alike d s (.ok (e, answer)) (.ok (t, answer)) :=
  ⟨rfl, h, hcapacity, fun heq => absurd heq hne⟩

/-- There is no next tag on either side. -/
theorem exhausted
    (h : d.Agrees s)
    (hnone : d.age.restarted? = none)
    (answer : Answer α) :
    Alike d s (.error .tagExhausted) (s.restart answer) := by
  have hlast : ¬ s.tag + 1 < UInt32.size := by
    have htag := Age.restarted?_eq_none.mp hnone
    have hsame := h.tag
    omega
  simp [Shelf.restart, hlast, Alike]

/-- A deque that starts again is an empty shelf with the next tag. -/
theorem restarted
    (h : d.Agrees s)
    {fresh : Age}
    (hfresh : d.age.restarted? = some fresh)
    (answer : Answer α) :
    Alike d s (.ok ({ d with bottom := 0, ageWord := fresh.pack }, answer))
      (s.restart answer) := by
  obtain ⟨htag, htop⟩ := Age.restarted?_eq_some.mp hfresh
  obtain ⟨hnil, hage⟩ := Holds.restarted d htop
  rw [h.tag] at htag
  have hspare : s.tag + 1 < UInt32.size := htag ▸ fresh.tag.toNat_lt
  rw [Shelf.restart, if_pos hspare]
  have hagrees : Agrees _ { tag := s.tag + 1 } := ⟨hnil, rfl, by rw [hage, htag]⟩
  refine changed (d := d) hagrees rfl ?_ answer
  intro hsame
  have hcount := congrArg Shelf.tag hsame
  simp at hcount

theorem push
    (h : d.Agrees s)
    (job : α) :
    Alike d s (d.serve (.push job)) (s.serve d.capacity (.push job)) := by
  have hbottom := h.bottom
  have hle := h.holds.bottom_le
  by_cases hroom : d.bottom.toNat < d.capacity
  · obtain ⟨e, hpush, hholds, hcapacity, hage⟩ := h.holds.push_of_lt hroom job
    have hne : s.bottom ≠ d.capacity := by omega
    have hmore : e.bottom.toNat = s.bottom + 1 := by
      have hends := h.holds.bottom_eq
      have hpast := hholds.bottom_eq
      simp only [hage, List.length_append, List.length_singleton] at hpast
      omega
    simp only [Deque.serve, Shelf.serve, hpush, answered, hne, if_false]
    refine changed ⟨hholds, hmore, by rw [hage, h.tag]⟩ hcapacity ?_ _
    intro hsame
    have hcount := congrArg Shelf.bottom hsame
    simp at hcount
  · have heq : s.bottom = d.capacity := by omega
    simp only [Deque.serve, Shelf.serve, push_of_not_lt hroom, answered, heq, if_true]
    exact h.unchanged _

theorem steal
    (h : d.Agrees s) :
    Alike d s (d.serve .steal) (s.serve d.capacity .steal) := by
  obtain ⟨jobs, bottom, tag⟩ := s
  cases jobs with
  | nil =>
      simp only [Deque.serve, Shelf.serve, h.holds.steal_nil, answered]
      exact h.unchanged _
  | cons job rest =>
      obtain ⟨e, hsteal, hrest, hcapacity, -⟩ := h.holds.steal_cons
      obtain ⟨hbottom, htag⟩ := d.steal_keeps
      rw [hsteal] at hbottom htag
      simp only [Deque.serve, Shelf.serve, hsteal, answered]
      refine changed ⟨hrest, by rw [hbottom, h.bottom], by rw [htag, h.tag]⟩ hcapacity ?_ _
      simp

theorem pop
    (h : d.Agrees s) :
    Alike d s (d.serve .pop) (s.serve d.capacity .pop) := by
  have hbottom := h.bottom
  by_cases hzero : d.bottom = 0
  · have hpop : d.pop = (d, .ok none) := by
      simp [Deque.pop, Routine.pop, Routine.run, hzero]
    simp only [Deque.serve, Shelf.serve, hpop, answered, h.bottom_eq_zero.mp hzero, if_true]
    exact h.unchanged _
  · have hpos : s.bottom ≠ 0 := mt h.bottom_eq_zero.mpr hzero
    by_cases hmore : 1 < s.jobs.length
    · obtain ⟨hpop, hrest, hlast⟩ := h.holds.pop_of_more hmore
      have hleft : s.jobs.dropLast ≠ [] :=
        List.ne_nil_of_length_pos (by simp only [List.length_dropLast]; omega)
      simp only [Deque.serve, Shelf.serve, hpop, answered, hpos, hleft, if_false]
      have hagrees : Agrees _ { s with jobs := s.jobs.dropLast, bottom := s.bottom - 1 } :=
        ⟨hrest, by simp only at hlast ⊢; omega, h.tag⟩
      refine changed (d := d) hagrees rfl ?_ _
      intro hsame
      have hcount := congrArg Shelf.bottom hsame
      simp only at hcount
      omega
    · have hpop := h.holds.pop_of_few (by omega) hzero
      have hleft : s.jobs.dropLast = [] :=
        List.eq_nil_of_length_eq_zero (by simp only [List.length_dropLast]; omega)
      simp only [Deque.serve, Shelf.serve, hpop, hpos, hleft, if_false, if_true]
      cases hfresh : d.age.restarted? with
      | none =>
          exact h.exhausted hfresh _
      | some fresh =>
          exact h.restarted hfresh _

theorem reset
    (h : d.Agrees s) :
    Alike d s (d.serve .reset) (s.serve d.capacity .reset) := by
  obtain ⟨jobs, bottom, tag⟩ := s
  cases jobs with
  | nil =>
      by_cases hzero : d.bottom = 0
      · have hreset := h.holds.reset_of_bottom_eq_zero hzero
        obtain rfl : bottom = 0 := h.bottom_eq_zero.mp hzero
        simp only [Deque.serve, Shelf.serve, hreset, answered]
        exact h.unchanged _
      · have hreset := h.holds.reset_of_bottom_ne_zero hzero
        have hbottom : bottom ≠ 0 := mt h.bottom_eq_zero.mpr hzero
        cases hfresh : d.age.restarted? with
        | none =>
            simp only [hfresh] at hreset
            simp only [Deque.serve, Shelf.serve, hreset, hbottom, answered]
            exact h.exhausted hfresh _
        | some fresh =>
            simp only [hfresh] at hreset
            simp only [Deque.serve, Shelf.serve, hreset, hbottom, answered]
            exact h.restarted hfresh _
  | cons job rest =>
      have hreset := h.holds.reset_of_ne_nil (List.cons_ne_nil job rest)
      simp only [Deque.serve, Shelf.serve, hreset, answered]
      exact h.unchanged _

/-- Each request is answered alike. -/
theorem serve
    (h : d.Agrees s)
    (order : Order α) :
    Alike d s (d.serve order) (s.serve d.capacity order) := by
  cases order with
  | push job => exact h.push job
  | pop => exact h.pop
  | steal => exact h.steal
  | reset => exact h.reset

end Agrees

/-- How requests to a deque with so many slots end, beside how they end on the shelf. -/
def EndsAlike (capacity : Nat) : Except Error (Deque α) → Except Error (Shelf α) → Prop
  | .error cause, .error expected => cause = .tagExhausted ∧ expected = .tagExhausted
  | .ok d, .ok s =>
    d.capacity = capacity ∧ d.Mirrors s ∧
      ∀ order answer, s.serve capacity order = .ok (s, answer) →
        d.serve order = .ok (d, answer)
  | _, _ => False

/-- What the shelf does not notice, the deque does not notice. -/
theorem Agrees.still
    {d : Deque α} {s : Shelf α} {order : Order α} {answer : Answer α}
    (h : d.Agrees s)
    (hstill : s.serve d.capacity order = .ok (s, answer)) :
    d.serve order = .ok (d, answer) := by
  have halike := h.serve order
  rw [hstill] at halike
  cases hserve : d.serve order with
  | error cause =>
      rw [hserve] at halike
      exact halike.elim
  | ok left =>
      obtain ⟨e, given⟩ := left
      rw [hserve] at halike
      obtain ⟨rfl, -, -, hsame⟩ := halike
      rw [hsame rfl]

/-- As long as they agree, a deque and a shelf answer all requests alike and end alike. -/
theorem Agrees.serveAll
    {d : Deque α} {s : Shelf α}
    (h : d.Agrees s)
    (orders : List (Order α)) :
    (d.serveAll orders).1 = (s.serveAll d.capacity orders).1 ∧
      EndsAlike d.capacity (d.serveAll orders).2 (s.serveAll d.capacity orders).2 := by
  induction orders generalizing d s with
  | nil =>
      exact ⟨rfl, rfl, h.mirrors, fun _ _ => h.still⟩
  | cons order rest ih =>
      have halike := h.serve order
      simp only [Deque.serveAll, Shelf.serveAll, serveEach] at ih ⊢
      cases hserve : d.serve order with
      | error cause =>
          cases hexpected : s.serve d.capacity order with
          | error expected =>
              rw [hserve, hexpected] at halike
              exact ⟨rfl, halike⟩
          | ok left =>
              rw [hserve, hexpected] at halike
              exact halike.elim
      | ok left =>
          obtain ⟨e, answer⟩ := left
          cases hexpected : s.serve d.capacity order with
          | error expected =>
              rw [hserve, hexpected] at halike
              exact halike.elim
          | ok expected =>
              obtain ⟨t, told⟩ := expected
              rw [hserve, hexpected] at halike
              obtain ⟨rfl, hagrees, hcapacity, -⟩ := halike
              obtain ⟨hanswers, hends⟩ := ih hagrees
              rw [hcapacity] at hanswers hends
              exact ⟨congrArg (answer :: ·) hanswers, hends⟩

/-- A new deque with any number of slots that it can have is a shelf: all requests are answered as
the list of jobs, the bottom and the tag say, and what can be seen of the deque afterwards is what
they are then. -/
theorem refines_shelf
    (capacity : UInt64)
    (hpos : 0 < capacity.toNat)
    (hle : capacity.toNat ≤ maxCapacity)
    (orders : List (Order α)) :
    ∃ d : Deque α, ofCapacity capacity = .ok d ∧
      (d.serveAll orders).1 = (Shelf.serveAll capacity.toNat {} orders).1 ∧
      EndsAlike capacity.toNat (d.serveAll orders).2
        (Shelf.serveAll capacity.toNat {} orders).2 := by
  let d : Deque α := { capacity := capacity.toNat, capacity_pos := hpos, capacity_le := hle }
  have hnew : d.Agrees {} :=
    ⟨holds_nil_of_bottom_eq_zero rfl rfl, rfl, Age.tag_unpack 0⟩
  exact ⟨d, dif_pos ⟨hpos, hle⟩, hnew.serveAll orders⟩

/-- Slots of stolen jobs are used again only after the deque was emptied by its owner. -/
example :
    (Shelf.serveAll 2 {} [.push 1, .push 2, .steal, .push 3, .pop, .push 3]).1 =
      [.pushed (.ok ()), .pushed (.ok ()), .took (some 1),
        .pushed (.error (.dequeOverflow 2)), .took (some 2), .pushed (.ok ())] := by
  rfl

/-- A job is stolen from a deque with one slot, and a reset frees the slot. -/
theorem single_slot_refines_shelf :
    0 < (1 : UInt64).toNat ∧ (1 : UInt64).toNat ≤ maxCapacity ∧
      ∃ d : Deque Nat, ofCapacity 1 = .ok d ∧
        let orders : List (Order Nat) := [.push 7, .steal, .push 8, .reset, .push 8, .reset, .pop]
        (d.serveAll orders).1 = (Shelf.serveAll 1 {} orders).1 ∧
          EndsAlike 1 (d.serveAll orders).2 (Shelf.serveAll 1 {} orders).2 :=
  ⟨by decide, by decide, refines_shelf 1 (by decide) (by decide) _⟩

end Deque
end WorkStealing
