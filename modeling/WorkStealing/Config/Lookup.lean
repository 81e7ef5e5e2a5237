import WorkStealing.Config
import WorkStealing.Text.Blank

/-!
# Configuration from variables

The default configuration with the changes that a table of variables asks for.
Three variables are read, one after another; a value that cannot be read stops
the reading, so that no later variable is asked for.
-/

namespace WorkStealing
namespace Config

/-- The variable that holds the number of workers; zero leaves it to the host. -/
def threadsVariable : String := "STEALFORK_NUM_THREADS"

/-- The variable that holds the number of slots of each deque. -/
def capacityVariable : String := "STEALFORK_DEQUE_CAPACITY"

/-- The variable that names the wait policy. -/
def waitVariable : String := "STEALFORK_WAIT"

def digitValue? (c : Char) : Option Nat :=
  if '0' ≤ c ∧ c ≤ '9' then some (c.toNat - '0'.toNat) else none

/-- The number that decimal digits stand for, after `value` for the digits before them. -/
def digitsValue? (value : Nat) : List Char → Option Nat
  | [] => some value
  | c :: rest => (digitValue? c).bind fun d => digitsValue? (10 * value + d) rest

/-- One or more digits after at most one plus sign, for a number below 2^64. -/
def countOfChars? (cs : List Char) : Option UInt64 :=
  let digits := match cs with
    | '+' :: rest => rest
    | cs => cs
  if digits.isEmpty then none
  else (digitsValue? 0 digits).bind fun n => if n < UInt64.size then some (.ofNat n) else none

/-- Reads the count in a variable; blanks around it do not matter. -/
def readCount (key value : String) : Except Error UInt64 :=
  match countOfChars? (Text.trimmed value.toList) with
  | some count => .ok count
  | none => .error (.invalidConfig (.notACount key value))

end Config

/-- Reads the name of a policy; blanks around it and the case of ASCII letters do not matter. -/
def WaitPolicy.read (text : String) : Except Error WaitPolicy :=
  let name := String.ofList ((Text.trimmed text.toList).map Char.toLower)
  if name = "cooperative" then .ok .cooperative
  else if name = "conservative" then .ok .conservative
  else .error (.invalidConfig (.unknownWaitPolicy name))

namespace Config

/-- One setting that a variable can change: the name of the variable, and what its value does. -/
structure Setting where
  key : String
  apply : Config → String → Except Error Config

/-- The settings in the order in which they are read. -/
def settings : List Setting :=
  [{ key := threadsVariable
     apply := fun config value => do
      let workers ← readCount threadsVariable value
      return { config with maxWorkers := if workers = 0 then none else some workers } },
    { key := capacityVariable
      apply := fun config value => do
        let capacity ← readCount capacityVariable value
        return { config with dequeCapacity := capacity } },
    { key := waitVariable
      apply := fun config value => do
        let policy ← WaitPolicy.read value
        return { config with waitPolicy := policy } }]

/-- The outcome of reading variables, with the keys that were asked for. -/
structure Reading where
  /-- The keys in the order in which they were asked for. -/
  asked : List String
  result : Except Error Config

/-- Reads settings in turn, as long as no value is refused. -/
def readSettings (lookup : String → Option String) :
    List Setting → Config → List String → Reading
  | [], config, asked => { asked, result := config.validate.map fun _ => config }
  | entry :: rest, config, asked =>
    match lookup entry.key with
    | none => readSettings lookup rest config (asked ++ [entry.key])
    | some value =>
      match entry.apply config value with
      | .error error => { asked := asked ++ [entry.key], result := .error error }
      | .ok config => readSettings lookup rest config (asked ++ [entry.key])

/-- The default configuration changed as the variables say, with the keys asked for. -/
def ofLookup (lookup : String → Option String) : Reading :=
  readSettings lookup settings {} []

end Config
end WorkStealing
