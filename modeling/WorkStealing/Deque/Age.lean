/-!
# The age of a deque

The index of the oldest job and a tag share one 64-bit word, so that a single
compare-and-swap checks both. The tag is the high half: an age with a larger
tag is a larger word, whatever its top.
-/

namespace WorkStealing

/-- The tag and the index of the oldest job. -/
structure Age where
  /-- Advances each time that the deque is put back to its first slot. -/
  tag : UInt32
  /-- The index of the oldest job that was not stolen. -/
  top : UInt32
  deriving DecidableEq, Repr

namespace Age

def pack (age : Age) : UInt64 :=
  (age.tag.toUInt64 <<< 32) ||| age.top.toUInt64

def unpack (word : UInt64) : Age :=
  { tag := (word >>> 32).toUInt32, top := word.toUInt32 }

/-- The next larger 32-bit word, if there is one. -/
def next? (word : UInt32) : Option UInt32 :=
  if word.toNat + 1 < UInt32.size then some (word + 1) else none

/-- The age of a deque that is put back to its first slot, unless the tags are used up. -/
def restarted? (age : Age) : Option Age :=
  (next? age.tag).map fun tag => { tag, top := 0 }

end Age
end WorkStealing
