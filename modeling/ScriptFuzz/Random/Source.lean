/-!
# Sources of randomness

A random source is a stream of 32-bit words and a position in it. Every random choice of the library
is a function of such a stream, so that a statement about all runs is a statement about all streams.
-/

namespace ScriptFuzz

set_option autoImplicit false

/-- A stream of words and the position of the next one. -/
structure Random where
  word : Nat → UInt32
  position : Nat := 0

/-- A choice that depends on the random source. -/
abbrev Draw (α : Type) := StateM Random α

namespace Draw

def word : Draw Nat := fun r => ((r.word r.position).toNat, { r with position := r.position + 1 })

/-- The next two words as one number, the first the low half. -/
def doubleWord : Draw Nat := do
  let low ← word
  let high ← word
  return low + 0x100000000 * high

end Draw

end ScriptFuzz
