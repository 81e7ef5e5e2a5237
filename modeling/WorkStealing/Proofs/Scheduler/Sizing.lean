import Mathlib.Algebra.GroupWithZero.Nat
import WorkStealing.Config.Lookup
import WorkStealing.Proofs.Scheduler.Construction

/-!
# The sizes of a new scheduler

How many deques there are, how many attempts a round has and how long a worker pauses
are products of settings. The check of a configuration looks at one setting at a time
and passes settings whose products leave their words: then nothing is built, or the
pause is worked out from a count of deques that was cut to 32 bits. The sizes are the
products exactly if these fit.
-/

namespace WorkStealing

/-- Two steps succeed if the first one does, and the second one after it. -/
theorem exists_bind_of_ok
    {ε α β : Type} {first : Except ε α} {next : α → Except ε β} {a : α}
    (hfirst : first = .ok a)
    (hnext : ∃ answer, next a = .ok answer) :
    ∃ answer, first >>= next = .ok answer := by
  rw [hfirst]
  exact hnext

namespace Duration

/-- A multiple of a duration is one if it is short enough. -/
theorem times?_of_lt
    {d : Duration} {count : Nat}
    (h : d.nanos * count < UInt64.size * nanosPerSecond) :
    d.times? count = some ⟨d.nanos * count, h⟩ :=
  dif_pos h

theorem nanos_of_times?
    {d e : Duration} {count : Nat}
    (h : d.times? count = some e) :
    e.nanos = d.nanos * count := by
  unfold times? ofNanos? at h
  split at h
  · cases h
    rfl
  · cases h

end Duration

/-- A deque is made with a number of slots that it can have. -/
theorem Deque.exists_ofCapacity
    {α : Type} {capacity : UInt64}
    (h : 0 < capacity.toNat ∧ capacity.toNat ≤ maxCapacity) :
    ∃ d : Deque α, ofCapacity capacity = .ok d :=
  ⟨_, dif_pos h⟩

namespace Config

/-- The number of deques that the settings ask for. -/
def dequesOn (config : Config) (offered : UInt64) : Nat :=
  (config.workersOn offered).toNat * config.dequesPerWorker.toNat

/-- The number of attempts in a round that the settings ask for. -/
def trialsOn (config : Config) (offered : UInt64) : Nat :=
  config.stealRoundsPerDeque.toNat * config.dequesOn offered

/-- The pause, in nanoseconds, that the settings ask for. -/
def pauseOn (config : Config) (offered : UInt64) : Nat :=
  config.idleSleepPerDeque.nanos * config.dequesOn offered

/-- The products of the settings fit the words that hold them. -/
structure Fits (config : Config) (offered : UInt64) : Prop where
  deques : config.dequesOn offered < UInt64.size
  trials : config.trialsOn offered < UInt64.size
  pause : config.pauseOn offered < UInt64.size * nanosPerSecond
  /-- The pause is worked out from the lower half of the number of deques. -/
  half : config.dequesOn offered < UInt32.size ∨ config.idleSleepPerDeque.nanos = 0

/-- The number of workers is the one that is set, or else the one that is offered. -/
theorem workersOn_toNat
    (config : Config) (offered : UInt64) :
    (config.workersOn offered).toNat = max 1 (config.maxWorkers.getD offered).toNat := by
  unfold workersOn
  by_cases hzero : config.maxWorkers.getD offered = 0
  · rw [if_pos hzero, hzero]
    rfl
  · rw [if_neg hzero]
    have hpos : (config.maxWorkers.getD offered).toNat ≠ 0 :=
      fun heq => hzero (UInt64.toNat_inj.mp heq)
    omega

/-- A configuration that passes the check has a number of slots that a deque can have. -/
theorem capacity_of_validate
    {config : Config}
    (h : config.validate = .ok ()) :
    0 < config.dequeCapacity.toNat ∧ config.dequeCapacity.toNat ≤ maxCapacity := by
  by_contra hnot
  have hbad : config.dequeCapacity = 0 ∨ maxCapacity < config.dequeCapacity.toNat := by
    by_cases hlarge : maxCapacity < config.dequeCapacity.toNat
    · exact .inr hlarge
    · refine .inl (UInt64.toNat_inj.mp ?_)
      show config.dequeCapacity.toNat = 0
      omega
  unfold validate fault? at h
  rw [if_pos hbad] at h
  split at h
  · cases h
  · next hfault =>
    split at hfault
    · cases hfault
    · split at hfault <;> cases hfault

/-- The settings that no variable changes have their default values. -/
structure Usual (config : Config) : Prop where
  deques : config.dequesPerWorker = 2
  rounds : config.stealRoundsPerDeque = 4
  pause : config.idleSleepPerDeque = .ofParts 0 500

theorem usual_of_setting
    {entry : Setting} {config next : Config} {value : String}
    (hmem : entry ∈ settings)
    (happly : entry.apply config value = .ok next)
    (h : config.Usual) :
    next.Usual := by
  simp only [settings, List.mem_cons, List.not_mem_nil, or_false] at hmem
  obtain rfl | rfl | rfl := hmem
  all_goals
    obtain ⟨_, -, hnext⟩ := exists_of_bind happly
    cases hnext
    exact ⟨h.deques, h.rounds, h.pause⟩

/-- What was read from variables has passed the check. -/
theorem usual_of_readSettings
    {lookup : String → Option String} {entries : List Setting} {config final : Config}
    {asked : List String}
    (hentries : ∀ entry ∈ entries, entry ∈ settings)
    (hstart : config.Usual)
    (h : (readSettings lookup entries config asked).result = .ok final) :
    final.validate = .ok () ∧ final.Usual := by
  induction entries generalizing config asked with
  | nil =>
      unfold readSettings at h
      cases hvalid : config.validate with
      | error error =>
          rw [hvalid] at h
          cases h
      | ok _ =>
          rw [hvalid] at h
          cases h
          exact ⟨hvalid, hstart⟩
  | cons entry rest ih =>
      have hrest : ∀ other ∈ rest, other ∈ settings :=
        fun other hother => hentries other (List.mem_cons_of_mem _ hother)
      unfold readSettings at h
      cases hlookup : lookup entry.key with
      | none =>
          rw [hlookup] at h
          exact ih hrest hstart h
      | some value =>
          rw [hlookup] at h
          cases happly : entry.apply config value with
          | error error =>
              simp only [happly] at h
              cases h
          | ok next =>
              simp only [happly] at h
              have hmem := hentries entry List.mem_cons_self
              exact ih hrest (usual_of_setting hmem happly hstart) h

theorem usual_of_ofLookup
    {lookup : String → Option String} {config : Config}
    (h : (ofLookup lookup).result = .ok config) :
    config.validate = .ok () ∧ config.Usual :=
  usual_of_readSettings (fun _ hmem => hmem) ⟨rfl, rfl, rfl⟩ h

/-- With the usual settings all products fit as long as the deques are fewer than 2^32. -/
theorem Usual.fits_iff
    {config : Config}
    (h : config.Usual)
    (offered : UInt64) :
    config.Fits offered ↔ (config.workersOn offered).toNat < 2 ^ 31 := by
  have hdeques : config.dequesOn offered = (config.workersOn offered).toNat * 2 := by
    rw [dequesOn, h.deques]
    rfl
  have htrials : config.trialsOn offered = 4 * config.dequesOn offered := by
    rw [trialsOn, h.rounds]
    rfl
  have hnanos : config.idleSleepPerDeque.nanos = 500 := by
    rw [h.pause]
    decide
  have hpause : config.pauseOn offered = 500 * config.dequesOn offered := by
    rw [pauseOn, hnanos]
  constructor
  · intro hfits
    have hhalf := hfits.half
    rw [hnanos, hdeques] at hhalf
    simp only [UInt32.size] at hhalf
    omega
  · intro hfew
    refine ⟨?_, ?_, ?_, .inl ?_⟩
    all_goals
      simp only [hdeques, htrials, hpause, UInt64.size, UInt32.size, nanosPerSecond]
      omega

end Config

namespace Scheduler

/-- The scheduler has the sizes that the settings ask for, as products of numbers. -/
structure SizedBy (s : Scheduler) (config : Config) (offered : UInt64) : Prop where
  workers : s.maxWorkers = max 1 (config.maxWorkers.getD offered).toNat
  deques : s.dequeCount = s.maxWorkers * config.dequesPerWorker.toNat
  trials : s.stealTrials = config.stealRoundsPerDeque.toNat * s.dequeCount
  pause : s.idleSleep.nanos = config.idleSleepPerDeque.nanos * s.dequeCount

theorem times?_of_lt
    {a b : UInt64}
    (h : a.toNat * b.toNat < UInt64.size) :
    times? a b = .ok (a * b) :=
  if_pos h

variable {config : Config} {offered : UInt64} {s : Scheduler}

/-- The sizes of a scheduler that was built. The pause counts the deques in 32 bits. -/
structure Measured (s : Scheduler) (config : Config) (offered : UInt64) : Prop where
  workers : s.maxWorkers = (config.workersOn offered).toNat
  deques : s.dequeCount = config.dequesOn offered
  trials : s.stealTrials = config.trialsOn offered
  pause : s.idleSleep.nanos =
    config.idleSleepPerDeque.nanos * (config.dequesOn offered % UInt32.size)

theorem measured_of_build
    (h : build config offered = .ok s) :
    s.Measured config offered ∧
      config.dequesOn offered < UInt64.size ∧ config.trialsOn offered < UInt64.size := by
  obtain ⟨_, -, h⟩ := exists_of_bind h
  obtain ⟨count, hcount, h⟩ := exists_of_bind h
  obtain ⟨deque, -, h⟩ := exists_of_bind h
  obtain ⟨trials, htrials, h⟩ := exists_of_bind h
  have hdeques : count.toNat = config.dequesOn offered := times?_eq_ok hcount
  have hrounds : trials.toNat = config.trialsOn offered := by
    rw [times?_eq_ok htrials, hdeques]
    rfl
  have hsmall : config.dequesOn offered < UInt64.size := hdeques ▸ count.toNat_lt
  have hfew : config.trialsOn offered < UInt64.size := hrounds ▸ trials.toNat_lt
  split at h
  · cases h
  · next pause hpause =>
    cases h
    refine ⟨⟨rfl, ?_, hrounds, ?_⟩, hsmall, hfew⟩
    · rw [dequeCount, Array.size_replicate]
      exact hdeques
    · rw [Duration.nanos_of_times? hpause, UInt64.toNat_toUInt32, hdeques]

/-- Where the products fit, a configuration that passed the check is built. -/
theorem exists_build
    (hvalid : config.validate = .ok ())
    (hdeques : config.dequesOn offered < UInt64.size)
    (htrials : config.trialsOn offered < UInt64.size)
    (hpause : config.idleSleepPerDeque.nanos * (config.dequesOn offered % UInt32.size) <
      UInt64.size * nanosPerSecond) :
    ∃ s, build config offered = .ok s := by
  have hcount := times?_of_lt hdeques
  have hnat := times?_eq_ok hcount
  obtain ⟨deque, hdeque⟩ := Deque.exists_ofCapacity (config.capacity_of_validate hvalid)
  refine exists_bind_of_ok (congrArg (Except.mapError Failure.error) hvalid) ?_
  refine exists_bind_of_ok hcount ?_
  refine exists_bind_of_ok (congrArg (Except.mapError Failure.error) hdeque) ?_
  refine exists_bind_of_ok (times?_of_lt (hnat.symm ▸ htrials)) ?_
  rw [Duration.times?_of_lt (by rw [UInt64.toNat_toUInt32, hnat]; exact hpause)]
  exact ⟨_, rfl⟩

/-- A scheduler has exact sizes if and only if the products of the settings fit. -/
theorem exists_sizedBy_iff
    (hvalid : config.validate = .ok ())
    (offered : UInt64) :
    (∃ s, build config offered = .ok s ∧ s.SizedBy config offered) ↔ config.Fits offered := by
  constructor
  · rintro ⟨s, hbuild, hsized⟩
    obtain ⟨hmeasured, hdeques, htrials⟩ := measured_of_build hbuild
    have hpause : config.idleSleepPerDeque.nanos * (config.dequesOn offered % UInt32.size) =
        config.pauseOn offered := by
      rw [← hmeasured.pause, hsized.pause, hmeasured.deques]
      rfl
    refine ⟨hdeques, htrials, ?_, ?_⟩
    · rw [← hpause, ← hmeasured.pause]
      exact s.idleSleep.nanos_lt
    · by_cases hzero : config.idleSleepPerDeque.nanos = 0
      · exact .inr hzero
      · have hmod := Nat.eq_of_mul_eq_mul_left (Nat.pos_of_ne_zero hzero) hpause
        exact .inl (hmod ▸ Nat.mod_lt _ (by decide))
  · rintro ⟨hdeques, htrials, hpause, hhalf⟩
    have hexact : config.idleSleepPerDeque.nanos * (config.dequesOn offered % UInt32.size) =
        config.pauseOn offered := by
      cases hhalf with
      | inl hsmall =>
          rw [Nat.mod_eq_of_lt hsmall]
          rfl
      | inr hzero =>
          rw [Config.pauseOn, hzero, Nat.zero_mul, Nat.zero_mul]
    obtain ⟨s, hbuild⟩ := exists_build hvalid hdeques htrials (hexact ▸ hpause)
    obtain ⟨hmeasured, -, -⟩ := measured_of_build hbuild
    have hworkers := hmeasured.workers
    refine ⟨s, hbuild, ⟨?_, ?_, ?_, ?_⟩⟩
    · rw [hworkers, config.workersOn_toNat]
    · rw [hworkers]
      exact hmeasured.deques
    · rw [hmeasured.deques]
      exact hmeasured.trials
    · rw [hmeasured.deques]
      exact hmeasured.pause.trans hexact

/-- The check lets the products of settings pass unseen. A configuration that passed it gives a
scheduler of exactly the sizes it asks for if and only if the products fit; if it was read from
variables, that is if and only if it asks for fewer than 2^31 workers. -/
theorem validated_sized_iff
    (hvalid : config.validate = .ok ())
    (offered : UInt64) :
    ((∃ s, build config offered = .ok s ∧ s.SizedBy config offered) ↔ config.Fits offered) ∧
      ∀ lookup : String → Option String, (Config.ofLookup lookup).result = .ok config →
        ((∃ s, build config offered = .ok s ∧ s.SizedBy config offered) ↔
          max 1 (config.maxWorkers.getD offered).toNat < 2 ^ 31) := by
  refine ⟨exists_sizedBy_iff hvalid offered, fun lookup hread => ?_⟩
  obtain ⟨-, husual⟩ := Config.usual_of_ofLookup hread
  rw [exists_sizedBy_iff hvalid, husual.fits_iff, config.workersOn_toNat]

/-- A variable that asks for so many workers. -/
def crowd (workers : String) (key : String) : Option String :=
  if key = Config.threadsVariable then some workers else none

/-- As many attempts in a round as a word can count, and as many workers as variables can ask for
without a product that is cut. -/
theorem largest_sized :
    (∃ s, build { Config.sequential with stealRoundsPerDeque := 18446744073709551615 } 1 = .ok s ∧
      s.SizedBy { Config.sequential with stealRoundsPerDeque := 18446744073709551615 } 1) ∧
    ∃ s, build { maxWorkers := some 2147483647 } 1 = .ok s ∧
      s.SizedBy { maxWorkers := some 2147483647 } 1 := by
  constructor
  · refine (validated_sized_iff (by decide) 1).1.mpr ⟨by decide, by decide, by decide, ?_⟩
    exact .inl (by decide)
  · have hread : (Config.ofLookup (crowd "2147483647")).result =
        .ok { maxWorkers := some 2147483647 } := by
      decide
    exact ((validated_sized_iff (by decide) 1).2 _ hread).mpr (by decide)

/-- Settings pass the check with which nothing can be built: too many attempts in a round, a pause
that is too long, and too many workers, as a variable asks for them. -/
theorem validated_not_built :
    (∀ config ∈ [{ maxWorkers := some 1, stealRoundsPerDeque := 9223372036854775808 },
        { maxWorkers := some 1, idleSleepPerDeque := .ofParts 9223372036854775808 0 }],
      Config.validate config = .ok () ∧ ∃ cause, build config 1 = .error (.panic cause)) ∧
    (Config.ofLookup (crowd "9223372036854775808")).result =
      .ok { maxWorkers := some 9223372036854775808 } ∧
    build { maxWorkers := some 9223372036854775808 } 1 = .error (.panic .multiplyOverflow) := by
  refine ⟨?_, by decide, rfl⟩
  intro config hconfig
  simp only [List.mem_cons, List.not_mem_nil, or_false] at hconfig
  obtain rfl | rfl := hconfig
  · exact ⟨by decide, .multiplyOverflow, rfl⟩
  · exact ⟨by decide, .durationOverflow, rfl⟩

end Scheduler
end WorkStealing
