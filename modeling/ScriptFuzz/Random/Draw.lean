import ScriptFuzz.Random.Source
import ScriptFuzz.Number.Binary64

/-!
# Random choices

Uniform numbers, truth values and choices from lists. A uniform number below `range` is the high
half of the product of a drawn word and `range`; a draw whose low half is above the acceptance zone
is repeated, so that every number is equally likely. The number of repetitions is bounded: a stream
that is refused all the time gives a number of the range all the same.
-/

namespace ScriptFuzz.Draw

set_option autoImplicit false

open ScriptFuzz.Number

/-- The width of a drawn word. -/
inductive Width where
  | single
  | double

namespace Width

def bits : Width → Nat
  | single => 32
  | double => 64

/-- The number of different words. -/
def size : Width → Nat
  | single => 0x100000000
  | double => 0x10000000000000000

end Width

/-- A word of the given width. -/
def ofWidth : Width → Draw Nat
  | .single => word
  | .double => doubleWord

/-- The bound on repeated draws. -/
def attempts : Nat := 4096

/-- The high half of the product of a word and `range`, for the first word whose low half is in the
zone. -/
def scaled (w : Width) (range zone : Nat) : Nat → Draw Nat
  | 0 => do
    let v ← ofWidth w
    return v * range / w.size
  | fuel + 1 => do
    let v ← ofWidth w
    if v * range % w.size ≤ zone then return v * range / w.size else scaled w range zone fuel

/-- The zone that is a multiple of the range by a power of two, less one. -/
def shiftedZone (w : Width) (range : Nat) : Nat :=
  (range <<< (w.bits - 1 - Nat.log2 range)) - 1

/-- The largest zone that gives every number the same chance. -/
def exactZone (w : Width) (range : Nat) : Nat := w.size - 1 - (w.size - range) % range

/-- A number below `range`. -/
def below (w : Width) (range : Nat) : Draw Nat := scaled w range (shiftedZone w range) attempts

/-- A number below `range`, for ranges so small that the exact zone is cheap. -/
def belowSmall (range : Nat) : Draw Nat := scaled .single range (exactZone .single range) attempts

/-- A number from `low` to `high`. -/
def between (w : Width) (low high : Int) : Draw Int := do
  return low + (← below w (high - low + 1).toNat)

/-- The number of equally likely outcomes that a probability out of `2 ^ 64` stands for. -/
def threshold (p : Float) : Nat := (p * 18446744073709551616.0).toUInt64.toNat

def isProbability (p : Float) : Bool := 0 ≤ p && p ≤ 1

/-- True with the given probability. Certainty draws nothing. -/
def chance (p : Float) : Draw Bool := do
  if p == 1 then return true
  return (← doubleWord) < threshold p

/-- Either truth value: the highest bit of a word. -/
def bool : Draw Bool := do return 0x80000000 ≤ (← word)

/-- A floating-point number from `low` to below `high`. -/
def floatBetween (low high : Float) : Nat → Draw Float
  | 0 => return low
  | fuel + 1 => do
    let v ← doubleWord
    let fraction := (UInt64.ofNat (v / 0x1000)).toFloat / 4503599627370496.0
    let r := fraction * (high - low) + low
    if r < high then return r else floatBetween low high fuel

def choose {α : Type} (xs : List α) : Draw (Option α) := do
  if xs.isEmpty then return none
  return xs[← below .single xs.length]?

/-- Replaces elements of a sample while walking through the remaining candidates. -/
def refill {α : Type} (sample : List α) (seen : Nat) : List α → Draw (List α)
  | [] => return sample
  | x :: xs => do
    let k ← below .single (seen + 1)
    refill (if k < sample.length then sample.set k x else sample) (seen + 1) xs

/-- Up to `count` different elements of a list. -/
def sample {α : Type} (count : Nat) (xs : List α) : Draw (List α) :=
  refill (xs.take count) count (xs.drop count)

/-- The first index whose cumulative weight exceeds `x`. -/
def indexOfWeight (x : Nat) : List Nat → Nat
  | [] => 0
  | [_] => 0
  | w :: ws => if x < w then 0 else indexOfWeight (x - w) ws + 1

def totalWeight (weights : List Nat) : Nat := weights.foldr (· + ·) 0

/-- An index of a list of weights, each as likely as its weight; nothing if none is positive. -/
def weighted (w : Width) (weights : List Nat) : Draw (Option Nat) := do
  let total := totalWeight weights
  if total = 0 then return none
  let x ← scaled w total (exactZone w total) attempts
  return some (indexOfWeight x weights)

end ScriptFuzz.Draw
