/-!
# Durations

A duration is a whole number of nanoseconds whose whole seconds fit a 64-bit
word. A multiple that does not fit is refused. The text of a duration is exact:
it uses the largest unit of which there is at least one, and as many decimal
places as it needs.
-/

namespace WorkStealing

def nanosPerSecond : Nat := 1000000000

/-- A length of time in nanoseconds, shorter than 2^64 seconds. -/
structure Duration where
  nanos : Nat
  /-- The whole seconds fit a 64-bit word. -/
  nanos_lt : nanos < UInt64.size * nanosPerSecond
  deriving DecidableEq

namespace Duration

/-- The duration of so many nanoseconds, where that is one. -/
def ofNanos? (nanos : Nat) : Option Duration :=
  if h : nanos < UInt64.size * nanosPerSecond then some ⟨nanos, h⟩ else none

/-- The longest duration there is. -/
def longest : Duration := ⟨UInt64.size * nanosPerSecond - 1, by decide⟩

/-- Seconds and nanoseconds together; what is longer than every duration counts as the longest. -/
def ofParts (seconds nanos : Nat) : Duration :=
  (ofNanos? (seconds * nanosPerSecond + nanos)).getD longest

def seconds (d : Duration) : Nat := d.nanos / nanosPerSecond

def subsecNanos (d : Duration) : Nat := d.nanos % nanosPerSecond

/-- So many times the duration, unless that is too long. -/
def times? (d : Duration) (count : Nat) : Option Duration :=
  ofNanos? (d.nanos * count)

/-- A unit in which durations are written. -/
structure TimeUnit where
  nanos : Nat
  /-- The number of decimal places that show a single nanosecond. -/
  places : Nat
  symbol : String

/-- Seconds, milliseconds, microseconds and nanoseconds. -/
def units : List TimeUnit :=
  [⟨nanosPerSecond, 9, "s"⟩, ⟨1000000, 6, "ms"⟩, ⟨1000, 3, "µs"⟩, ⟨1, 0, "ns"⟩]

/-- So many decimal places that stand for the part, without the zeros at the end. -/
def decimals (places part : Nat) : String :=
  let digits := (toString part).toList
  let padded := List.replicate (places - digits.length) '0' ++ digits
  let shown := (padded.reverse.dropWhile (· == '0')).reverse
  if shown.isEmpty then "" else "." ++ String.ofList shown

/-- So many nanoseconds in the unit. -/
def inUnit (nanos : Nat) (unit : TimeUnit) : String :=
  toString (nanos / unit.nanos) ++ decimals unit.places (nanos % unit.nanos) ++ unit.symbol

/-- The duration in the largest unit of which it holds at least one, else in nanoseconds. -/
def describe (d : Duration) : String :=
  inUnit d.nanos ((units.find? fun unit => unit.nanos ≤ d.nanos).getD ⟨1, 0, "ns"⟩)

end Duration
end WorkStealing
