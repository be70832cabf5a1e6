import ScriptFuzz.Json.Numeral
import ScriptFuzz.Settings.Value

/-!
# Numbers and times inside TOML

Integers of 64 bits in four bases, floating-point numbers, and dates and times. Underscores may
separate digits. A floating-point number is the nearest to its decimal. A date or a time is a table
with its normal form under a reserved key, so that it is taken where a table is taken and nowhere
else.
-/

namespace ScriptFuzz.Toml

set_option autoImplicit false

open ScriptFuzz.Number

/-- Digits that single underscores may separate, without the underscores. -/
def digits? (isDigit : Char → Bool) : List Char → Option (List Char × List Char)
  | [] => none
  | d :: cs => if isDigit d then some (more d cs) else none
where
  /-- The digits after the digit `d`, which is put in front of them. -/
  more (d : Char) : List Char → List Char × List Char
    | '_' :: e :: cs =>
      if isDigit e then let (ds, rest) := more e cs; (d :: ds, rest) else ([d], '_' :: e :: cs)
    | e :: cs =>
      if isDigit e then let (ds, rest) := more e cs; (d :: ds, rest) else ([d], e :: cs)
    | [] => ([d], [])

/-- A sign: whether it is a minus sign, and the text after it. -/
def sign : List Char → Bool × List Char
  | '-' :: cs => (true, cs)
  | '+' :: cs => (false, cs)
  | cs => (false, cs)

/-- The digits of a decimal integer: a zero alone, or digits that start with another. -/
def decimal? : List Char → Option (List Char × List Char)
  | '0' :: cs => some (['0'], cs)
  | cs => digits? Char.isDigit cs

def valueOf (base : Nat) (ds : List Char) : Nat :=
  ds.foldl (fun n d => n * base + (Text.Hex.value? d).getD 0) 0

def integer? (n : Int) : Option Setting :=
  if -0x8000000000000000 ≤ n ∧ n < 0x8000000000000000 then some (.integer n) else none

def isDigitOf (base : Nat) (c : Char) : Bool := (Text.Hex.value? c).any (· < base)

/-- An integer in a base other than ten, after its mark. -/
def based? (base : Nat) (cs : List Char) : Option (Setting × List Char) := do
  let (ds, rest) ← digits? (isDigitOf base) cs
  return (← integer? (valueOf base ds), rest)

/-- The exponent of a number, if the text starts with one. -/
def exponent? : List Char → Option (Option Int × List Char)
  | c :: cs =>
    if c = 'e' ∨ c = 'E' then do
      let (negative, cs) := sign cs
      let (ds, rest) ← digits? Char.isDigit cs
      let n : Int := valueOf 10 ds
      return (some (if negative then -n else n), rest)
    else some (none, c :: cs)
  | [] => some (none, [])

/-- The fraction of a number, if the text starts with one. -/
def fraction? : List Char → Option (Option (List Char) × List Char)
  | '.' :: cs => (digits? Char.isDigit cs).map fun (ds, rest) => (some ds, rest)
  | cs => some (none, cs)

/-- The number with the given sign and magnitude. A magnitude beyond all numbers has a value only
below zero. -/
def signed? (negative : Bool) (magnitude : Binary64) : Option Setting :=
  if negative then some (.float magnitude.negate)
  else if magnitude.isInfinite then none
  else some (.float magnitude)

/-- A decimal number: an integer unless it has a fraction or an exponent. -/
def number? (cs : List Char) : Option (Setting × List Char) := do
  let (negative, cs) := sign cs
  let (whole, cs) ← decimal? cs
  let (fraction, cs) ← fraction? cs
  let (exponent, cs) ← exponent? cs
  if fraction.isNone && exponent.isNone then
    let n : Int := valueOf 10 whole
    return (← integer? (if negative then -n else n), cs)
  else
    let places := fraction.getD []
    let d : Decimal := ⟨valueOf 10 (whole ++ places), exponent.getD 0 - places.length⟩
    return (← signed? negative d.nearest, cs)

/-- Infinity or a NaN, with a sign. -/
def special? (cs : List Char) : Option (Setting × List Char) :=
  let (negative, cs) := sign cs
  let withSign (x : Binary64) : Setting := .float (if negative then x.negate else x)
  match cs with
  | 'i' :: 'n' :: 'f' :: rest => some (withSign .infinity, rest)
  | 'n' :: 'a' :: 'n' :: rest => some (withSign .nan, rest)
  | _ => none

/-! ## Dates and times -/

/-- A number of exactly `places` digits between two bounds. -/
def fixed? (places low high : Nat) (cs : List Char) : Option (Nat × List Char) :=
  let ds := cs.take places
  let n := valueOf 10 ds
  if ds.length = places ∧ ds.all Char.isDigit ∧ low ≤ n ∧ n ≤ high then some (n, cs.drop places)
  else none

/-- The text after a character that the text has to start with. -/
def after? (c : Char) : List Char → Option (List Char)
  | d :: cs => if c = d then some cs else none
  | [] => none

def daysOf (year month : Nat) : Nat :=
  if month = 2 then
    if year % 4 = 0 ∧ (year % 100 ≠ 0 ∨ year % 400 = 0) then 29 else 28
  else if month ∈ [4, 6, 9, 11] then 30
  else 31

/-- A date; its text is its own normal form. -/
def date? (cs : List Char) : Option (List Char × List Char) := do
  let (year, rest) ← fixed? 4 0 9999 cs
  let rest ← after? '-' rest
  let (month, rest) ← fixed? 2 1 12 rest
  let rest ← after? '-' rest
  let (_, rest) ← fixed? 2 1 (daysOf year month) rest
  return (cs.take 10, rest)

/-- The fraction of a second in its normal form: up to nine digits, none of them a zero at the
end. -/
def secondFraction? : List Char → Option (List Char × List Char)
  | '.' :: cs =>
    match cs.span Char.isDigit with
    | ([], _) => none
    | (ds, rest) =>
      match ((ds.take 9).reverse.dropWhile (· = '0')).reverse with
      | [] => some ([], rest)
      | ds => some ('.' :: ds, rest)
  | cs => some ([], cs)

/-- A time of a day, with its normal form. -/
def time? (cs : List Char) : Option (List Char × List Char) := do
  let (_, rest) ← fixed? 2 0 23 cs
  let rest ← after? ':' rest
  let (_, rest) ← fixed? 2 0 59 rest
  let rest ← after? ':' rest
  let (_, rest) ← fixed? 2 0 60 rest
  let (fraction, rest) ← secondFraction? rest
  return (cs.take 8 ++ fraction, rest)

/-- The distance of a clock from universal time, with its normal form; empty if there is none. -/
def offset? : List Char → Option (List Char × List Char)
  | 'Z' :: cs | 'z' :: cs => some (['Z'], cs)
  | c :: cs =>
    if c = '+' ∨ c = '-' then do
      let (hours, rest) ← fixed? 2 0 23 cs
      let rest ← after? ':' rest
      let (minutes, rest) ← fixed? 2 0 59 rest
      let c := if hours = 0 ∧ minutes = 0 then '+' else c
      return (c :: cs.take 5, rest)
    else some ([], c :: cs)
  | [] => some ([], [])

/-- A date, a time, or a date with a time, in its normal form. -/
def moment? (cs : List Char) : Option (List Char × List Char) :=
  match cs with
  | _ :: _ :: ':' :: _ => time? cs
  | _ => do
    let (date, rest) ← date? cs
    let withTime (after : List Char) : Option (List Char × List Char) := do
      let (time, rest) ← time? after
      let (offset, rest) ← offset? rest
      return (date ++ 'T' :: time ++ offset, rest)
    match rest with
    | 'T' :: after | 't' :: after => withTime after
    | ' ' :: d :: e :: ':' :: after =>
      if d.isDigit ∧ e.isDigit then withTime (d :: e :: ':' :: after) else return (date, rest)
    | _ => return (date, rest)

/-- Whether a text starts like a date or a time. -/
def startsMoment : List Char → Bool
  | a :: b :: ':' :: _ => a.isDigit && b.isDigit
  | a :: b :: c :: d :: '-' :: _ => a.isDigit && b.isDigit && c.isDigit && d.isDigit
  | _ => false

/-- The key under which a date or a time is kept. -/
def momentKey : String := "$__toml_private_datetime"

/-- A number, a date or a time. -/
def numeral? (cs : List Char) : Option (Setting × List Char) :=
  if startsMoment cs then
    (moment? cs).map fun (m, rest) => (.table [(momentKey, .text (String.ofList m))], rest)
  else
    match cs with
    | '0' :: 'x' :: cs => based? 16 cs
    | '0' :: 'o' :: cs => based? 8 cs
    | '0' :: 'b' :: cs => based? 2 cs
    | _ =>
      match number? cs with
      | some r => some r
      | none => special? cs

end ScriptFuzz.Toml
