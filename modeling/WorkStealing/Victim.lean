import WorkStealing.Error

/-!
# Choice of a victim

A thief looks for its next victim by mixing its own number and the number of
its attempt. The two mixes are added in 32 bits, so that the sequence of
victims does not depend on the width of a word.
-/

namespace WorkStealing
namespace Victim

/-- A mix of 32 bits in which each bit of the input affects about half of the output: six steps,
each of which can be undone. -/
def mix (a : UInt32) : UInt32 :=
  let a := (a + (0x7ed55d16 : UInt32)) + (a <<< 12)
  let a := (a ^^^ (0xc761c23c : UInt32)) ^^^ (a >>> 19)
  let a := (a + (0x165667b1 : UInt32)) + (a <<< 5)
  let a := (a + (0xd3a2646c : UInt32)) ^^^ (a <<< 9)
  let a := (a + (0xfd7046c5 : UInt32)) + (a <<< 3)
  (a ^^^ (0xb55a4f09 : UInt32)) ^^^ (a >>> 16)

/-- The victim of a worker's attempt among so many deques; there must be at least one. -/
def choose (worker attempt deques : UInt64) : Except Panic UInt64 :=
  if deques = 0 then .error .remainderByZero
  else .ok ((mix worker.toUInt32 + mix attempt.toUInt32).toUInt64 % deques)

/-- The victims of consecutive attempts; the number of the attempt wraps at 2^64. -/
def probes (worker first deques : UInt64) (count : Nat) : Except Panic (List UInt64) :=
  (List.range count).mapM fun i => choose worker (first + .ofNat i) deques

end Victim
end WorkStealing
