/-!
# Binary64 numbers as bit patterns

A floating-point constant is kept as its sixty-four bits, so that two constants are equal exactly
when every bit agrees: the sign of zero and the payload of a NaN are part of the value. Arithmetic
goes through `Float`; reading the pattern (sign, significand, scale) is exact integer work.
-/

namespace ScriptFuzz.Number

set_option autoImplicit false

/-- A double-precision number, given by its bits. -/
structure Binary64 where
  bits : UInt64
deriving DecidableEq, Inhabited

namespace Binary64

/-- The number with the value of a machine float. -/
def ofFloat (x : Float) : Binary64 := ⟨x.toBits⟩

def toFloat (x : Binary64) : Float := Float.ofBits x.bits

/-- The sign bit; it is also set on `-0` and may be set on a NaN. -/
def isNegative (x : Binary64) : Bool := 0x8000000000000000 ≤ x.bits.toNat

def exponentField (x : Binary64) : Nat := x.bits.toNat / 0x10000000000000 % 0x800

/-- The fifty-two stored bits of the significand. -/
def fractionField (x : Binary64) : Nat := x.bits.toNat % 0x10000000000000

def isNaN (x : Binary64) : Bool := x.exponentField == 2047 && x.fractionField != 0

def isInfinite (x : Binary64) : Bool := x.exponentField == 2047 && x.fractionField == 0

def isFinite (x : Binary64) : Bool := x.exponentField != 2047

/-- Whether the number is one of the two zeros. -/
def isZero (x : Binary64) : Bool := x.exponentField == 0 && x.fractionField == 0

/-- The integer `m` of the magnitude `m * 2 ^ scale` of a finite number. -/
def significand (x : Binary64) : Nat :=
  if x.exponentField = 0 then x.fractionField else 0x10000000000000 + x.fractionField

/-- The exponent `q` of the magnitude `m * 2 ^ q` of a finite number. -/
def scale (x : Binary64) : Int := (max x.exponentField 1 : Nat) - 1075

/-- Whether the neighbour below is only half as far away as the one above: the number is a power
of two and its neighbour below is stored with a smaller exponent. -/
def isBinadeStart (x : Binary64) : Bool := x.fractionField == 0 && 1 < x.exponentField

/-- The NaN with an empty payload. -/
def nan : Binary64 := ⟨0x7ff8000000000000⟩

def infinity : Binary64 := ⟨0x7ff0000000000000⟩

def negInfinity : Binary64 := ⟨0xfff0000000000000⟩

end Binary64

end ScriptFuzz.Number
