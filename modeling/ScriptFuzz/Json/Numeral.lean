import ScriptFuzz.Json.Value
import ScriptFuzz.Number.Notation
import ScriptFuzz.Number.Nearest

/-!
# Numbers inside JSON

What the lexeme of a number denotes. Integers are exact and carry neither fraction nor exponent. A
floating-point value is computed from at most the leading digits that fit sixty-four bits, scaled
by a power of ten in floating-point arithmetic; it is therefore close to the written decimal but
not always the nearest number.
-/

namespace ScriptFuzz.Json

set_option autoImplicit false

open ScriptFuzz.Number

/-- The number that a list of decimal digits stands for. -/
def ofDigits (ds : List Char) : Nat := ds.foldl (fun n d => n * 10 + (d.toNat - 48)) 0

def natural? (lexeme : List Char) : Option Nat :=
  if lexeme ≠ [] ∧ lexeme.all Char.isDigit then some (ofDigits lexeme) else none

/-- The natural number that digits write, with a plus sign before them or without. -/
def unsigned? : List Char → Option Nat
  | '+' :: ds => natural? ds
  | ds => natural? ds

/-- The integer that a lexeme writes; `-0` is not an integer. -/
def integer? : List Char → Option Int
  | '-' :: ds =>
    match natural? ds with
    | some 0 => none
    | some n => some (-n)
    | none => none
  | ds => (natural? ds).map Int.ofNat

/-- The powers of ten up to the largest that a floating-point number reaches. -/
def powerOfTen (n : Nat) : Float := (Decimal.nearest ⟨1, n⟩).toFloat

/-- `f * 10 ^ exponent` in steps of at most `10 ^ 308`; `none` if the magnitude is too large. The
number of steps bounds how small an exponent can be before the result is zero. -/
def scaled? : Nat → Float → Int → Option Float
  | 0, _, _ => some 0
  | steps + 1, f, exponent =>
    if exponent.natAbs ≤ 308 then
      if 0 ≤ exponent then
        let r := f * powerOfTen exponent.natAbs
        if r.isInf then none else some r
      else some (f / powerOfTen exponent.natAbs)
    else if f == 0 then some f
    else if 0 ≤ exponent then none
    else scaled? steps (f / powerOfTen 308) (exponent + 308)

/-- The bound on what the digits of a number may add up to. -/
def digitLimit : Nat := 0x10000000000000000

/-- Adds digits to a significand while it stays below the limit: the significand, the number of
digits taken and the digits left over. -/
def takeDigits : Nat → Nat → List Char → Nat × Nat × List Char
  | significand, taken, [] => (significand, taken, [])
  | significand, taken, d :: ds =>
    let next := significand * 10 + (d.toNat - 48)
    if next < digitLimit then takeDigits next (taken + 1) ds else (significand, taken, d :: ds)

/-- The exponents that are told apart; a larger one overflows. -/
def exponentLimit : Nat := 0x80000000

/-- The magnitude of a number with the given parts; `none` if it is too large. -/
def magnitude? (whole fraction : List Char) (exponent : Option (Bool × List Char)) :
    Option Float :=
  let (significand, _, leftWhole) := takeDigits 0 0 whole
  let (significand, taken, _) := takeDigits significand 0 fraction
  let base : Int := (leftWhole.length : Int) - taken
  let scale (n : Int) := scaled? 10 ((UInt64.ofNat significand).toFloat) n
  match exponent with
  | none => scale base
  | some (negative, ds) =>
    let e := ofDigits ds
    if exponentLimit ≤ e then
      if significand ≠ 0 ∧ ¬negative then none else some 0
    else if negative then scale (base - e)
    else scale (base + e)

/-- The parts of a lexeme without its minus sign: whole digits, fraction digits and exponent. -/
def parts (lexeme : List Char) : List Char × List Char × Option (Bool × List Char) :=
  let (whole, rest) := lexeme.span Char.isDigit
  let (fraction, rest) := match rest with
    | '.' :: cs => cs.span Char.isDigit
    | cs => ([], cs)
  let exponent := match rest with
    | _ :: '-' :: ds => some (true, ds)
    | _ :: '+' :: ds => some (false, ds)
    | _ :: ds => some (false, ds)
    | [] => none
  (whole, fraction, exponent)

/-- The floating-point number that a lexeme denotes; `none` if it is too large. An integer that
fits its machine type is converted from there. -/
def float? (lexeme : List Char) : Option Binary64 :=
  let (negative, lexeme) := match lexeme with
    | '-' :: cs => (true, cs)
    | cs => (false, cs)
  let (whole, fraction, exponent) := parts lexeme
  (magnitude? whole fraction exponent).map fun f =>
    Binary64.ofFloat (if negative then -f else f)

def ofNat (n : Nat) : Json := .number (toString n).toList

/-- The number written for an integer. -/
def ofInt (n : Int) : Json := .number (toString n).toList

/-- The number written for a floating-point number; one that is not finite is written as `null`. -/
def ofBinary64 (x : Binary64) : Json :=
  if x.isFinite then .number (Layout.json.text x).toList else .null

/-- The natural number below `bound` that a value is. -/
def nat? (bound : Nat) : Json → Option Nat
  | .number lexeme => (natural? lexeme).filter (· < bound)
  | _ => none

/-- The integer between `low` and `high` that a value is. -/
def int? (low high : Int) : Json → Option Int
  | .number lexeme => (integer? lexeme).filter fun n => low ≤ n ∧ n ≤ high
  | _ => none

/-- The floating-point number that a value is. -/
def binary64? : Json → Option Binary64
  | .number lexeme => float? lexeme
  | _ => none

/-- The truth value that a value is. -/
def bool? : Json → Option Bool
  | .bool b => some b
  | _ => none

end ScriptFuzz.Json
