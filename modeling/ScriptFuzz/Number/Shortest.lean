import ScriptFuzz.Number.Binary64

/-!
# The fewest decimal digits that identify a number

A finite number stands for every real that rounds to it. `Binary64.shortest` selects, among the
decimals in that interval, one with the fewest digits and among those the nearest to the number.
The search is the specification turned into a loop: for each digit count it tests the two
neighbours of the number on that decimal grid, in exact integer arithmetic.
-/

namespace ScriptFuzz.Number

set_option autoImplicit false

/-- The positive decimal `digits * 10 ^ exponent`. -/
structure Decimal where
  digits : Nat
  exponent : Int
deriving DecidableEq, Inhabited

/-- Which of two equally near candidates is taken. -/
inductive Tie
  /-- The larger one. -/
  | up
  /-- The one whose last digit is even. -/
  | toEven
deriving DecidableEq

namespace Decimal

/-- Digits without zeros at the end; the fuel bounds the number of removed digits. -/
def strip : Nat → Decimal → Decimal
  | 0, d => d
  | fuel + 1, d =>
    if d.digits ≠ 0 ∧ d.digits % 10 = 0 then strip fuel ⟨d.digits / 10, d.exponent + 1⟩ else d

/-- The digits as characters, most significant first. -/
def text (d : Decimal) : List Char := (toString d.digits).toList

end Decimal

/-- The numerator of a ratio with the factor `base ^ e`, if the factor is an integer. -/
def raise (base : Nat) (e : Int) : Nat := Nat.pow base e.toNat

/-- A magnitude `m * 2 ^ q` together with the interval of reals that round to it. The interval is
stored in quarters of a unit in the last place, so that its ends are integers. -/
structure Rounding where
  low : Nat
  value : Nat
  high : Nat
  /-- The exponent of two that the three integers are scaled by. -/
  scale : Int
  /-- Whether the ends themselves round to the number. -/
  closed : Bool

/-- The interval of a finite number: halfway to the neighbours, the ends included exactly when the
significand is even. -/
def Binary64.rounding (x : Binary64) : Rounding :=
  let m := x.significand
  { low := 4 * m - (if x.isBinadeStart then 1 else 2)
    value := 4 * m
    high := 4 * m + 2
    scale := x.scale - 2
    closed := m % 2 = 0 }

namespace Rounding

/-- Both sides of the comparison of `d * 10 ^ e` with `n * 2 ^ r.scale`, as integers. -/
def sides (r : Rounding) (d : Nat) (e : Int) (n : Nat) : Nat × Nat :=
  (d * raise 10 e * raise 2 (-r.scale), n * raise 2 r.scale * raise 10 (-e))

/-- Whether the decimal `d * 10 ^ e` rounds to the number. -/
def admits (r : Rounding) (d : Nat) (e : Int) : Bool :=
  let (a, lo) := r.sides d e r.low
  let (b, hi) := r.sides d e r.high
  if r.closed then lo ≤ a && b ≤ hi else lo < a && b < hi

/-- The largest point of the grid `10 ^ e` that is not above the number. -/
def floor (r : Rounding) (e : Int) : Nat :=
  (r.value * raise 2 r.scale * raise 10 (-e)) / (raise 10 e * raise 2 (-r.scale))

/-- Whether the upper neighbour on the grid is taken when both neighbours round to the number. -/
def prefersUpper (r : Rounding) (tie : Tie) (d : Nat) (e : Int) : Bool :=
  let (mid, twice) := r.sides (2 * d + 1) e (2 * r.value)
  if twice = mid then
    match tie with
    | .up => true
    | .toEven => d % 2 = 1
  else mid < twice

/-- The point of the grid `10 ^ e` nearest to the number among those that round to it. -/
def onGrid? (r : Rounding) (tie : Tie) (e : Int) : Option Nat :=
  let d := r.floor e
  match d ≠ 0 && r.admits d e, r.admits (d + 1) e with
  | true, true => some (if r.prefersUpper tie d e then d + 1 else d)
  | true, false => some d
  | false, true => some (d + 1)
  | false, false => none

/-- The first grid, from `10 ^ e` downwards, that holds a point that rounds to the number. -/
def search (r : Rounding) (tie : Tie) : Nat → Int → Option Decimal
  | 0, _ => none
  | fuel + 1, e =>
    match r.onGrid? tie e with
    | some d => some ⟨d, e⟩
    | none => search r tie fuel (e - 1)

end Rounding

/-- An exponent of ten that is at least as large as the number, from its binary logarithm:
`log10 2` lies between `0.30102` and `0.30103`. -/
def Binary64.decimalBound (x : Binary64) : Int :=
  (Nat.log2 x.significand + 1 + x.scale) * 30103 / 100000 + 1

/-- The shortest decimal that reads back as the magnitude of a finite non-zero number. Should no
grid be fine enough, which the search range excludes, the exact value is given. -/
def Binary64.shortest (x : Binary64) (tie : Tie) : Decimal :=
  if x.isZero then ⟨0, 0⟩
  else
    match x.rounding.search tie 40 x.decimalBound with
    | some d => d.strip 400
    | none =>
      let exact : Decimal :=
        ⟨x.significand * raise 2 x.scale * raise 5 (-x.scale), min x.scale 0⟩
      exact.strip 2000

end ScriptFuzz.Number
