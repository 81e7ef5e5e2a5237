import Mathlib.Data.List.TakeWhile
import Mathlib.Data.Nat.Digits.Defs
import WorkStealing.Config.Lookup

/-!
# The grammar of the variables

What a value may be is said without reading it from left to right: a text has a core
that is left when the white space around it is cut (`Text.HasCore`); a core is a numeral
if it is made of digits after at most one plus sign (`Config.Numeral`), and the name of
a policy whatever the case of its letters (`WaitPolicy.IsNamed`). Each reader is
shown to accept its part of the grammar, and no more.

A table of variables is read setting by setting. What one setting does to the
configuration, and what it is refused for, is the same for all three of them
(`Setting.Follows`), so that one lemma takes the reading a setting further.
-/

namespace WorkStealing

namespace Text

/-- The core is what is left of a text when the white space at both ends is cut. -/
def HasCore (text core : List Char) : Prop :=
  ∃ before after, text = before ++ core ++ after ∧
    (∀ c ∈ before ++ after, isBlank c = true) ∧
    (∀ c ∈ core.head?, isBlank c = false) ∧ ∀ c ∈ core.getLast?, isBlank c = false

/-- What follows the blanks at the front of a text does not start with one. -/
theorem head?_dropWhile_isBlank
    (cs : List Char) :
    ∀ c ∈ (cs.dropWhile isBlank).head?, isBlank c = false := by
  intro c hc
  have hnot := List.head?_dropWhile_not isBlank cs
  rw [Option.mem_def] at hc
  rwa [hc] at hnot

/-- A text that does not start with a blank keeps all its characters. -/
theorem dropWhile_isBlank_eq_self
    {cs : List Char}
    (h : ∀ c ∈ cs.head?, isBlank c = false) :
    cs.dropWhile isBlank = cs := by
  cases cs with
  | nil => rfl
  | cons c rest => exact List.dropWhile_cons_of_neg (by simp [h c rfl])

theorem hasCore_trimmed
    (text : List Char) :
    HasCore text (trimmed text) := by
  have hfront : text.takeWhile isBlank ++ text.dropWhile isBlank = text :=
    List.takeWhile_append_dropWhile
  have hback : (text.dropWhile isBlank).reverse.takeWhile isBlank ++
      (text.dropWhile isBlank).reverse.dropWhile isBlank = (text.dropWhile isBlank).reverse :=
    List.takeWhile_append_dropWhile
  have hrest : text.dropWhile isBlank =
      trimmed text ++ ((text.dropWhile isBlank).reverse.takeWhile isBlank).reverse := by
    rw [trimmed, ← List.reverse_append, hback, List.reverse_reverse]
  refine ⟨text.takeWhile isBlank,
    ((text.dropWhile isBlank).reverse.takeWhile isBlank).reverse, ?_, ?_, ?_, ?_⟩
  · rw [List.append_assoc, ← hrest, hfront]
  · intro c hc
    rw [List.mem_append, List.mem_reverse] at hc
    exact hc.elim List.mem_takeWhile_imp List.mem_takeWhile_imp
  · intro c hc
    refine head?_dropWhile_isBlank text c ?_
    rw [hrest, List.head?_append, Option.mem_def.mp hc]
    rfl
  · intro c hc
    rw [trimmed, List.getLast?_reverse] at hc
    exact head?_dropWhile_isBlank _ c hc

/-- Trimming a text gives its core. -/
theorem trimmed_eq_iff
    {text core : List Char} :
    trimmed text = core ↔ HasCore text core := by
  constructor
  · rintro rfl
    exact hasCore_trimmed text
  · rintro ⟨before, after, rfl, hblank, hhead, hlast⟩
    have hbefore : ∀ c ∈ before, isBlank c = true :=
      fun c hc => hblank c (List.mem_append_left after hc)
    have hafter : ∀ c ∈ after, isBlank c = true :=
      fun c hc => hblank c (List.mem_append_right before hc)
    have hback : (after.reverse ++ core.reverse).dropWhile isBlank = core.reverse := by
      rw [List.dropWhile_append_of_pos (fun c hc => hafter c (List.mem_reverse.mp hc))]
      refine dropWhile_isBlank_eq_self fun c hc => hlast c ?_
      rwa [List.head?_reverse] at hc
    rw [trimmed, List.append_assoc, List.dropWhile_append_of_pos hbefore]
    cases core with
    | nil =>
        rw [List.nil_append, List.dropWhile_eq_nil_iff.mpr hafter]
        rfl
    | cons c rest =>
        have hcore : (c :: rest ++ after).dropWhile isBlank = c :: rest ++ after :=
          dropWhile_isBlank_eq_self hhead
        rw [hcore, List.reverse_append, hback, List.reverse_reverse]

end Text

namespace Config

/-- One or more decimal digits, which stand for the number. -/
def Digits (cs : List Char) (n : Nat) : Prop :=
  cs ≠ [] ∧ (∀ c ∈ cs, c.isDigit = true) ∧
    n = Nat.ofDigits 10 (cs.reverse.map fun c => c.toNat - '0'.toNat)

/-- At most one plus sign, and then digits that stand for the number. -/
def Numeral (cs : List Char) (n : Nat) : Prop :=
  ∃ sign digits, cs = sign ++ digits ∧ (sign = [] ∨ sign = ['+']) ∧ Digits digits n

theorem digitValue?_eq
    (c : Char) :
    digitValue? c = if c.isDigit = true then some (c.toNat - '0'.toNat) else none := by
  unfold digitValue?
  congr 1
  rw [Char.isDigit, Bool.and_eq_true, decide_eq_true_eq, decide_eq_true_eq]
  rfl

/-- Digits are worth ten times as much for each digit that follows them. -/
theorem digitsValue?_eq_some_iff
    {value n : Nat} {cs : List Char} :
    digitsValue? value cs = some n ↔
      (∀ c ∈ cs, c.isDigit = true) ∧
        n = Nat.ofDigits 10 (cs.reverse.map fun c => c.toNat - '0'.toNat) +
          10 ^ cs.length * value := by
  induction cs generalizing value with
  | nil =>
      rw [digitsValue?, Option.some_inj, List.reverse_nil, List.map_nil, Nat.ofDigits_nil,
        List.length_nil, pow_zero, one_mul, zero_add, eq_comm]
      exact (and_iff_right (List.forall_mem_nil _)).symm
  | cons c rest ih =>
      rw [digitsValue?, digitValue?_eq]
      by_cases hdigit : c.isDigit = true
      · rw [if_pos hdigit, Option.bind_some, ih, List.reverse_cons, List.map_append,
          Nat.ofDigits_append]
        simp only [List.forall_mem_cons, hdigit, true_and, List.map_cons, List.map_nil,
          Nat.ofDigits_singleton, List.length_map, List.length_reverse, List.length_cons]
        ring_nf
      · rw [if_neg hdigit]
        simp [hdigit]

/-- Digits are read as a count if the number they stand for fits a word. -/
theorem countOfDigits_eq_some_iff
    {digits : List Char} {count : UInt64} :
    (if digits.isEmpty then none
      else (digitsValue? 0 digits).bind fun n =>
        if n < UInt64.size then some (UInt64.ofNat n) else none) = some count ↔
      Digits digits count.toNat := by
  cases hempty : digits.isEmpty with
  | true =>
      simp [Digits, List.isEmpty_iff.mp hempty]
  | false =>
      have hne : digits ≠ [] := by
        rintro rfl
        cases hempty
      simp only [Bool.false_eq_true, if_false, Option.bind_eq_some_iff, digitsValue?_eq_some_iff,
        mul_zero, add_zero]
      constructor
      · rintro ⟨n, ⟨hdigits, hn⟩, hcount⟩
        split at hcount
        · next hlt =>
          cases hcount
          rw [Digits, UInt64.toNat_ofNat_of_lt' hlt]
          exact ⟨hne, hdigits, hn⟩
        · cases hcount
      · rintro ⟨-, hdigits, hcount⟩
        refine ⟨count.toNat, ⟨hdigits, hcount⟩, ?_⟩
        rw [if_pos count.toNat_lt, UInt64.ofNat_toNat]

/-- What is read as a count are the numerals of numbers that fit a word. -/
theorem countOfChars?_eq_some_iff
    {cs : List Char} {count : UInt64} :
    countOfChars? cs = some count ↔ Numeral cs count.toNat := by
  unfold countOfChars?
  rw [countOfDigits_eq_some_iff]
  constructor
  · intro h
    split at h
    · exact ⟨['+'], _, rfl, .inr rfl, h⟩
    · exact ⟨[], _, rfl, .inl rfl, h⟩
  · rintro ⟨sign, digits, rfl, rfl | rfl, h⟩
    · split
      · next rest hrest =>
        obtain ⟨-, hdigits, -⟩ := h
        rw [List.nil_append] at hrest
        subst hrest
        exact absurd (hdigits '+' List.mem_cons_self) (by decide)
      · exact h
    · exact h

/-- The value of a variable is the numeral of a number, with white space around it. -/
def IsCount (value : String) (n : Nat) : Prop :=
  ∃ core, Text.HasCore value.toList core ∧ Numeral core n

/-- A count is read if it fits a word, and else the variable and its value are reported. -/
theorem readCount_eq_ok_iff
    (key : String) {value : String} {count : UInt64} :
    readCount key value = .ok count ↔ IsCount value count.toNat := by
  simp only [IsCount, ← Text.trimmed_eq_iff, exists_eq_left', ← countOfChars?_eq_some_iff]
  unfold readCount
  cases countOfChars? (Text.trimmed value.toList) with
  | some other => simp
  | none => simp

theorem readCount_eq_error
    {key value : String}
    (h : ∀ count : UInt64, ¬ IsCount value count.toNat) :
    readCount key value = .error (.invalidConfig (.notACount key value)) := by
  cases hread : readCount key value with
  | ok count => exact absurd ((readCount_eq_ok_iff key).mp hread) (h count)
  | error error =>
      unfold readCount at hread
      split at hread <;> cases hread
      rfl

end Config

namespace WaitPolicy

def word : WaitPolicy → String
  | cooperative => "cooperative"
  | conservative => "conservative"

/-- The value of a variable is the word for the policy, in letters of either case and with white
space around it. -/
def IsNamed (policy : WaitPolicy) (value : String) : Prop :=
  ∃ core, Text.HasCore value.toList core ∧ core.map Char.toLower = policy.word.toList

/-- The value is compared with the two words, trimmed and in lower case. -/
theorem read_eq
    {value : String} {core : List Char}
    (hcore : Text.HasCore value.toList core) :
    read value =
      if core.map Char.toLower = cooperative.word.toList then .ok cooperative
      else if core.map Char.toLower = conservative.word.toList then .ok conservative
      else
        .error (.invalidConfig (.unknownWaitPolicy (String.ofList (core.map Char.toLower)))) := by
  have hname : ∀ word : String,
      (String.ofList (core.map Char.toLower) = word) = (core.map Char.toLower = word.toList) := by
    intro word
    rw [← String.toList_inj, String.toList_ofList]
  unfold read
  rw [Text.trimmed_eq_iff.mpr hcore]
  simp only [← hname]
  rfl

theorem read_eq_ok_iff
    {value : String} {policy : WaitPolicy} :
    read value = .ok policy ↔ policy.IsNamed value := by
  have hcore := Text.hasCore_trimmed value.toList
  simp only [IsNamed, ← Text.trimmed_eq_iff, exists_eq_left']
  rw [read_eq hcore]
  generalize (Text.trimmed value.toList).map Char.toLower = name
  by_cases hfirst : name = cooperative.word.toList
  · rw [if_pos hfirst, hfirst]
    cases policy <;> decide
  · rw [if_neg hfirst]
    by_cases hsecond : name = conservative.word.toList
    · rw [if_pos hsecond, hsecond]
      cases policy <;> decide
    · rw [if_neg hsecond]
      cases policy with
      | cooperative => simp only [hfirst, reduceCtorEq]
      | conservative => simp only [hsecond, reduceCtorEq]

/-- What is no name of a policy is reported in lower case and without the white space around it. -/
theorem read_eq_error
    {value : String} {core : List Char}
    (hcore : Text.HasCore value.toList core)
    (h : ∀ policy : WaitPolicy, ¬ policy.IsNamed value) :
    read value =
      .error (.invalidConfig (.unknownWaitPolicy (String.ofList (core.map Char.toLower)))) := by
  rw [read_eq hcore, if_neg fun heq => h .cooperative ⟨core, hcore, heq⟩,
    if_neg fun heq => h .conservative ⟨core, hcore, heq⟩]

end WaitPolicy

namespace Config

section Settings

variable {α : Type} {Reads : String → α → Prop} {change : Config → α → Config}
  {fault : String → ConfigFault}

/-- What a variable stands for: what its value reads as, or a default if it is absent. -/
def Stands (Reads : String → α → Prop) (absent : α) : Option String → α → Prop
  | none, a => a = absent
  | some value, a => Reads value a

/-- The setting changes the configuration by what its value reads as, and reports a fault of any
value that does not read. -/
structure Setting.Follows (entry : Setting) (Reads : String → α → Prop)
    (change : Config → α → Config) (fault : String → ConfigFault) : Prop where
  accepts : ∀ config {value a}, Reads value a → entry.apply config value = .ok (change config a)
  refuses : ∀ config {value}, (∀ a, ¬ Reads value a) →
    entry.apply config value = .error (.invalidConfig (fault value))

/-- A setting is read and changes the configuration, or ends the reading. -/
theorem Setting.Follows.reads
    {entry : Setting} {rest : List Setting} {asked : List String}
    (h : entry.Follows Reads change fault)
    (lookup : String → Option String) (config : Config) (absent : α)
    (habsent : change config absent = config) :
    (∃ a, Stands Reads absent (lookup entry.key) a ∧
      readSettings lookup (entry :: rest) config asked =
        readSettings lookup rest (change config a) (asked ++ [entry.key])) ∨
    ∃ value, lookup entry.key = some value ∧ (∀ a, ¬ Reads value a) ∧
      readSettings lookup (entry :: rest) config asked =
        { asked := asked ++ [entry.key], result := .error (.invalidConfig (fault value)) } := by
  rw [readSettings]
  cases hlookup : lookup entry.key with
  | none =>
      refine .inl ⟨absent, rfl, ?_⟩
      rw [habsent]
  | some value =>
      by_cases hreads : ∃ a, Reads value a
      · obtain ⟨a, ha⟩ := hreads
        refine .inl ⟨a, ha, ?_⟩
        simp only [h.accepts config ha]
      · have hnot := not_exists.mp hreads
        refine .inr ⟨value, rfl, hnot, ?_⟩
        simp only [h.refuses config hnot]

end Settings

/-- The number of workers is changed; zero leaves it to the host. -/
def setWorkers (config : Config) (workers : UInt64) : Config :=
  { config with maxWorkers := if workers = 0 then none else some workers }

def setCapacity (config : Config) (capacity : UInt64) : Config :=
  { config with dequeCapacity := capacity }

def setPolicy (config : Config) (policy : WaitPolicy) : Config :=
  { config with waitPolicy := policy }

/-- The setting reads a count. -/
def countSetting (key : String) (change : Config → UInt64 → Config) : Setting :=
  { key, apply := fun config value => do return change config (← readCount key value) }

def policySetting (key : String) (change : Config → WaitPolicy → Config) : Setting :=
  { key, apply := fun config value => do return change config (← WaitPolicy.read value) }

theorem settings_eq :
    settings =
      [countSetting threadsVariable setWorkers, countSetting capacityVariable setCapacity,
        policySetting waitVariable setPolicy] := by
  rfl

theorem follows_count
    (key : String) (change : Config → UInt64 → Config) :
    (countSetting key change).Follows
      (fun value count => IsCount value count.toNat) change (.notACount key) where
  accepts config value count hcount := by
    show readCount key value >>= _ = _
    rw [(readCount_eq_ok_iff key).mpr hcount]
    rfl
  refuses config value hnot := by
    show readCount key value >>= _ = _
    rw [readCount_eq_error hnot]
    rfl

theorem follows_policy
    (key : String) (change : Config → WaitPolicy → Config) :
    (policySetting key change).Follows
      (fun value policy => policy.IsNamed value) change
      fun value => .unknownWaitPolicy
        (String.ofList ((Text.trimmed value.toList).map Char.toLower)) where
  accepts config value policy hpolicy := by
    show WaitPolicy.read value >>= _ = _
    rw [WaitPolicy.read_eq_ok_iff.mpr hpolicy]
    rfl
  refuses config value hnot := by
    show WaitPolicy.read value >>= _ = _
    rw [WaitPolicy.read_eq_error (Text.hasCore_trimmed _) hnot]
    rfl

/-- The variable is absent, or its value is a count below 2^64. -/
def CountReads (value? : Option String) : Prop :=
  ∀ value ∈ value?, ∃ n, IsCount value n ∧ n < 2 ^ 64

def PolicyReads (value? : Option String) : Prop :=
  ∀ value ∈ value?, ∃ policy : WaitPolicy, policy.IsNamed value

/-- The values of all variables are as the grammar wants them. -/
structure Grammatical (lookup : String → Option String) : Prop where
  threads : CountReads (lookup threadsVariable)
  capacity : CountReads (lookup capacityVariable)
  range : ∀ value ∈ lookup capacityVariable, ∃ n, IsCount value n ∧ 1 ≤ n ∧ n ≤ 2 ^ 32 - 1
  policy : PolicyReads (lookup waitVariable)

/-- The default configuration with the changes for which the variables ask. Where the number of
workers is not given or is zero, it is left to the host. -/
def Reflects (config : Config) (lookup : String → Option String) : Prop :=
  ∃ (workers capacity : UInt64) (policy : WaitPolicy),
    Stands (fun value n => IsCount value n.toNat) 0 (lookup threadsVariable) workers ∧
    Stands (fun value n => IsCount value n.toNat) defaultDequeCapacity (lookup capacityVariable)
      capacity ∧
    Stands (fun value name => name.IsNamed value) WaitPolicy.cooperative (lookup waitVariable)
      policy ∧
    config =
      { maxWorkers := if workers = 0 then none else some workers
        dequeCapacity := capacity
        waitPolicy := policy }

/-- What is said against variables: the first of them that cannot be read, or else that the number
of slots is none that a deque can have. -/
inductive Objects (lookup : String → Option String) : ConfigFault → Prop
  | threads {value : String}
      (hvalue : lookup threadsVariable = some value)
      (hbad : ¬ CountReads (some value)) :
      Objects lookup (.notACount threadsVariable value)
  | capacity {value : String}
      (hthreads : CountReads (lookup threadsVariable))
      (hvalue : lookup capacityVariable = some value)
      (hbad : ¬ CountReads (some value)) :
      Objects lookup (.notACount capacityVariable value)
  | policy {value : String} {core : List Char}
      (hthreads : CountReads (lookup threadsVariable))
      (hcapacity : CountReads (lookup capacityVariable))
      (hvalue : lookup waitVariable = some value)
      (hcore : Text.HasCore value.toList core)
      (hbad : ¬ PolicyReads (some value)) :
      Objects lookup (.unknownWaitPolicy (String.ofList (core.map Char.toLower)))
  | range {value : String} {count : UInt64}
      (hthreads : CountReads (lookup threadsVariable))
      (hpolicy : PolicyReads (lookup waitVariable))
      (hvalue : lookup capacityVariable = some value)
      (hcount : IsCount value count.toNat)
      (hbad : ¬ (1 ≤ count.toNat ∧ count.toNat ≤ 2 ^ 32 - 1)) :
      Objects lookup (.capacityField count)

/-- Variables are asked for in their order and once, up to the first one that cannot be read. -/
structure AsksInOrder (lookup : String → Option String) (asked : List String) : Prop where
  threads : ¬ CountReads (lookup threadsVariable) → asked = [threadsVariable]
  capacity : CountReads (lookup threadsVariable) → ¬ CountReads (lookup capacityVariable) →
    asked = [threadsVariable, capacityVariable]
  all : CountReads (lookup threadsVariable) → CountReads (lookup capacityVariable) →
    asked = [threadsVariable, capacityVariable, waitVariable]

theorem countReads_some_iff
    {value : String} :
    CountReads (some value) ↔ ∃ count : UInt64, IsCount value count.toNat := by
  constructor
  · intro h
    obtain ⟨n, hn, hlt⟩ := h value rfl
    refine ⟨.ofNat n, ?_⟩
    rwa [UInt64.toNat_ofNat_of_lt' hlt]
  · rintro ⟨count, hcount⟩ other hother
    cases hother
    exact ⟨count.toNat, hcount, count.toNat_lt⟩

theorem countReads_of_stands
    {value? : Option String} {absent count : UInt64}
    (h : Stands (fun value (n : UInt64) => IsCount value n.toNat) absent value? count) :
    CountReads value? := by
  cases value? with
  | none => exact fun value hvalue => absurd hvalue (Option.not_mem_none value)
  | some value => exact countReads_some_iff.mpr ⟨count, h⟩

theorem policyReads_of_stands
    {value? : Option String} {absent policy : WaitPolicy}
    (h : Stands (fun value name => name.IsNamed value) absent value? policy) :
    PolicyReads value? := by
  cases value? with
  | none => exact fun value hvalue => absurd hvalue (Option.not_mem_none value)
  | some value =>
      rintro other hother
      cases hother
      exact ⟨policy, h⟩

/-- A configuration that variables have changed passes the check if its number of slots does. -/
theorem validate_of_changed
    (workers capacity : UInt64) (policy : WaitPolicy) :
    Config.validate
        { maxWorkers := if workers = 0 then none else some workers
          dequeCapacity := capacity
          waitPolicy := policy } =
      if 1 ≤ capacity.toNat ∧ capacity.toNat ≤ 2 ^ 32 - 1 then .ok ()
      else .error (.invalidConfig (.capacityField capacity)) := by
  have hworkers : (if workers = 0 then none else some workers) ≠ some 0 := by
    split
    · exact Option.some_ne_none 0 ∘ Eq.symm
    · next hne => exact fun heq => hne (Option.some.inj heq)
  have hcapacity : (capacity = 0 ∨ maxCapacity < capacity.toNat) ↔
      ¬ (1 ≤ capacity.toNat ∧ capacity.toNat ≤ 2 ^ 32 - 1) := by
    rw [← UInt64.toNat_inj]
    show capacity.toNat = 0 ∨ 2 ^ 32 - 1 < capacity.toNat ↔ _
    omega
  unfold validate fault?
  rw [if_neg hworkers, if_neg (show ¬ (2 : UInt64) = 0 by decide)]
  by_cases hrange : 1 ≤ capacity.toNat ∧ capacity.toNat ≤ 2 ^ 32 - 1
  · rw [if_pos hrange, if_neg (not_not_intro hrange ∘ hcapacity.mp)]
    rfl
  · rw [if_neg hrange, if_pos (hcapacity.mpr hrange)]

section Reading

variable {lookup : String → Option String}

/-- How the reading of the variables can end. -/
inductive Outcome (lookup : String → Option String) : Reading → Prop
  | refused {asked : List String} {fault : ConfigFault}
      (hasked : AsksInOrder lookup asked)
      (hfault : Objects lookup fault)
      (hbad : ¬ Grammatical lookup) :
      Outcome lookup { asked, result := .error (.invalidConfig fault) }
  | read {asked : List String} {config : Config}
      (hasked : AsksInOrder lookup asked)
      (hconfig : config.Reflects lookup)
      (hvalid : config.validate = .ok ())
      (hgood : Grammatical lookup) :
      Outcome lookup { asked, result := .ok config }

/-- A value that does not read as a count ends the reading. -/
theorem not_countReads
    {value? : Option String} {value : String}
    (hvalue : value? = some value)
    (hnot : ∀ count : UInt64, ¬ IsCount value count.toNat) :
    ¬ CountReads value? := by
  rw [hvalue, countReads_some_iff]
  exact not_exists.mpr hnot

/-- The number of slots is in the range if the value for it is. -/
theorem range_iff
    {value? : Option String} {capacity : UInt64}
    (h : Stands (fun value (n : UInt64) => IsCount value n.toNat) defaultDequeCapacity value?
      capacity) :
    (∀ value ∈ value?, ∃ n, IsCount value n ∧ 1 ≤ n ∧ n ≤ 2 ^ 32 - 1) ↔
      1 ≤ capacity.toNat ∧ capacity.toNat ≤ 2 ^ 32 - 1 := by
  cases value? with
  | none =>
      rw [show capacity = defaultDequeCapacity from h]
      simp only [Option.mem_def, reduceCtorEq, false_implies, implies_true, true_iff]
      decide
  | some value =>
      constructor
      · intro hall
        obtain ⟨n, hn, hpos, hle⟩ := hall value rfl
        have hlt : n < UInt64.size := Nat.lt_of_le_of_lt hle (by decide)
        rw [← UInt64.toNat_ofNat_of_lt' hlt, ← readCount_eq_ok_iff threadsVariable] at hn
        have hsame := (readCount_eq_ok_iff threadsVariable).mpr h
        rw [hn] at hsame
        cases hsame
        rw [UInt64.toNat_ofNat_of_lt' hlt]
        exact ⟨hpos, hle⟩
      · rintro hrange other hother
        cases hother
        exact ⟨capacity.toNat, h, hrange⟩

/-- A number of slots that is out of the range was given by the variable. -/
theorem exists_of_not_range
    {value? : Option String} {capacity : UInt64}
    (h : Stands (fun value (n : UInt64) => IsCount value n.toNat) defaultDequeCapacity value?
      capacity)
    (hrange : ¬ (1 ≤ capacity.toNat ∧ capacity.toNat ≤ 2 ^ 32 - 1)) :
    ∃ value, value? = some value ∧ IsCount value capacity.toNat := by
  cases value? with
  | none =>
      rw [show capacity = defaultDequeCapacity from h] at hrange
      exact absurd (by decide) hrange
  | some value => exact ⟨value, rfl, h⟩

/-- When both counts can be read, all three variables are asked for. -/
theorem asksInOrder_all
    (hthreads : CountReads (lookup threadsVariable))
    (hcapacity : CountReads (lookup capacityVariable)) :
    AsksInOrder lookup [threadsVariable, capacityVariable, waitVariable] :=
  ⟨fun h => absurd hthreads h, fun _ h => absurd hcapacity h, fun _ _ => rfl⟩

/-- The three settings are read one after another; the check comes last. -/
theorem outcome_ofLookup
    (lookup : String → Option String) :
    Outcome lookup (ofLookup lookup) := by
  rw [ofLookup, settings_eq]
  obtain ⟨workers, hworkers, hread⟩ | ⟨value, hvalue, hnot, hread⟩ :=
    (follows_count threadsVariable setWorkers).reads lookup {} 0 rfl <;> rw [hread]
  case inr =>
    have hbad := not_countReads hvalue hnot
    exact .refused ⟨fun _ => rfl, fun h => absurd h hbad, fun h => absurd h hbad⟩
      (.threads hvalue (hvalue ▸ hbad)) fun h => hbad h.threads
  have hthreads := countReads_of_stands hworkers
  obtain ⟨capacity, hcapacity, hread⟩ | ⟨value, hvalue, hnot, hread⟩ :=
    (follows_count capacityVariable setCapacity).reads lookup (setWorkers {} workers)
      defaultDequeCapacity rfl <;> rw [hread]
  case inr =>
    have hbad := not_countReads hvalue hnot
    exact .refused ⟨fun h => absurd hthreads h, fun _ _ => rfl, fun _ h => absurd h hbad⟩
      (.capacity hthreads hvalue (hvalue ▸ hbad)) fun h => hbad h.capacity
  have hslots := countReads_of_stands hcapacity
  obtain ⟨policy, hpolicy, hread⟩ | ⟨value, hvalue, hnot, hread⟩ :=
    (follows_policy waitVariable setPolicy).reads lookup
      (setCapacity (setWorkers {} workers) capacity) .cooperative rfl <;> rw [hread]
  case inr =>
    have hbad : ¬ PolicyReads (some value) := fun h => (h value rfl).elim hnot
    exact .refused (asksInOrder_all hthreads hslots)
      (.policy hthreads hslots hvalue (Text.hasCore_trimmed _) hbad)
      fun h => hbad (hvalue ▸ h.policy)
  have hname := policyReads_of_stands hpolicy
  have hvalid := validate_of_changed workers capacity policy
  show Outcome lookup { asked := _, result := (Config.validate _).map _ }
  by_cases hrange : 1 ≤ capacity.toNat ∧ capacity.toNat ≤ 2 ^ 32 - 1
  · rw [if_pos hrange] at hvalid
    have hgood : Grammatical lookup := ⟨hthreads, hslots, (range_iff hcapacity).mpr hrange, hname⟩
    have hread := Outcome.read (asksInOrder_all hthreads hslots)
      ⟨workers, capacity, policy, hworkers, hcapacity, hpolicy, rfl⟩ hvalid hgood
    exact hvalid ▸ hread
  · rw [if_neg hrange] at hvalid
    have hbad : ¬ Grammatical lookup := fun h => hrange ((range_iff hcapacity).mp h.range)
    obtain ⟨value, hvalue, hcount⟩ := exists_of_not_range hcapacity hrange
    have hread := Outcome.refused (asksInOrder_all hthreads hslots)
      (.range hthreads hname hvalue hcount hrange) hbad
    exact hvalid ▸ hread

/-- The values of the variables decide whether there is a configuration: there is one exactly if
they follow the grammar, and it is the default one with the changes they ask for. Otherwise the
first fault is reported, and no variable is asked for after one that cannot be read. -/
theorem reads_grammar
    (lookup : String → Option String) :
    ((∃ config, (ofLookup lookup).result = .ok config) ↔ Grammatical lookup) ∧
      (∀ config, (ofLookup lookup).result = .ok config →
        config.Reflects lookup ∧ config.validate = .ok ()) ∧
      (¬ Grammatical lookup →
        ∃ fault, (ofLookup lookup).result = .error (.invalidConfig fault) ∧
          Objects lookup fault) ∧
      AsksInOrder lookup (ofLookup lookup).asked := by
  have houtcome := outcome_ofLookup lookup
  generalize ofLookup lookup = reading at houtcome ⊢
  cases houtcome with
  | refused hasked hfault hbad =>
      refine ⟨⟨?_, fun h => absurd h hbad⟩, ?_, fun _ => ⟨_, rfl, hfault⟩, hasked⟩
      · rintro ⟨config, hconfig⟩
        cases hconfig
      · intro config hconfig
        cases hconfig
  | read hasked hconfig hvalid hgood =>
      refine ⟨⟨fun _ => hgood, fun _ => ⟨_, rfl⟩⟩, ?_, fun h => absurd hgood h, hasked⟩
      intro config hok
      cases hok
      exact ⟨hconfig, hvalid⟩

/-- A sign, zeros in front and white space beyond ASCII belong to the grammar. -/
example :
    (ofLookup fun key =>
        if key = capacityVariable then some "\u2003+004294967295\u0085"
        else if key = waitVariable then some " ConServative\n" else some "0").result =
      .ok { dequeCapacity := 4294967295, waitPolicy := .conservative } := by
  decide

/-- A number of slots that no deque can have is refused only after the wait policy was read. -/
example :
    ofLookup (fun key => if key = capacityVariable then some "4294967296" else none) =
      { asked := [threadsVariable, capacityVariable, waitVariable]
        result := .error (.invalidConfig (.capacityField 4294967296)) } := by
  rfl

end Reading

end Config
end WorkStealing
