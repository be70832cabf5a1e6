import ScriptFuzz.Number.Shortest

/-!
# The number nearest to a decimal

`nearest` rounds a positive ratio of integers to the nearest double-precision number, a tie going
to the even significand. The quotient is scaled so that its integer part has fifty-three bits, or to the
finest scale there is, and the remainder decides the rounding.
-/

namespace ScriptFuzz.Number

set_option autoImplicit false

/-- The quotient of two naturals, rounded to the nearest integer and to the even one of two. -/
def roundedQuotient (num den : Nat) : Nat :=
  let q := num / den
  let twice := 2 * (num % den)
  if den < twice ∨ (twice = den ∧ q % 2 = 1) then q + 1 else q

/-- The numerator and denominator of `num / (den * 2 ^ q)`. -/
def atScale (num den : Nat) (q : Int) : Nat × Nat := (num * raise 2 (-q), den * raise 2 q)

/-- The least scale that is used. -/
def finestScale : Int := -1074

/-- The scale at which the integer part of `num / den` has fifty-three bits. -/
def scaleFor (num den : Nat) : Int :=
  let guess : Int := Nat.log2 num - Nat.log2 den - 52
  let (n, d) := atScale num den guess
  max finestScale (if n / d < 0x10000000000000 then guess - 1 else guess)

/-- The number nearest to a ratio of naturals; infinity if it is beyond the largest number. -/
def nearest (num den : Nat) : Binary64 :=
  if num = 0 then ⟨0⟩
  else
    let q := scaleFor num den
    let (n, d) := atScale num den q
    let m := roundedQuotient n d
    let bits :=
      if m < 0x10000000000000 then m
      else (q + 1075).toNat * 0x10000000000000 + (m - 0x10000000000000)
    if bits < 0x7ff0000000000000 then ⟨UInt64.ofNat bits⟩ else .infinity

/-- The number nearest to a decimal. Exponents so large or small that they alone decide the result
are not expanded. -/
def Decimal.nearest (d : Decimal) : Binary64 :=
  let size : Int := (toString d.digits).length + d.exponent
  if d.digits = 0 ∨ size < -400 then ⟨0⟩
  else if 400 < size then .infinity
  else Number.nearest (d.digits * raise 10 d.exponent) (raise 10 (-d.exponent))

/-- The number with the opposite sign. -/
def Binary64.negate (x : Binary64) : Binary64 := ⟨x.bits ^^^ 0x8000000000000000⟩

end ScriptFuzz.Number
