import ScriptFuzz.Number.Shortest

/-!
# Laying out decimal digits

`Layout` gathers the decisions of a number format: which magnitudes are written positionally,
whether a whole number keeps a `.0`, and how an exponent is written. `Layout.text` applies them
to the shortest digits of a number.
-/

namespace ScriptFuzz.Number

set_option autoImplicit false

/-- The decisions of a number format. -/
structure Layout where
  /-- The choice between two shortest decimals that are equally near. -/
  tie : Tie
  /-- The exponents of the leading digit that are written positionally. -/
  positional : Int → Bool
  /-- Whether a positional whole number ends in `.0`. -/
  keepsPoint : Bool
  signedExponent : Bool
  nan : String
  infinity : String

/-- The digits `ds` with the point after the first `10 ^ lead` place. -/
def positionalText (keepsPoint : Bool) (ds : List Char) (lead : Int) : List Char :=
  if lead < 0 then
    '0' :: '.' :: List.replicate (-lead - 1).toNat '0' ++ ds
  else
    let whole := lead.toNat + 1
    if ds.length ≤ whole then
      ds ++ List.replicate (whole - ds.length) '0' ++ (if keepsPoint then ['.', '0'] else [])
    else ds.take whole ++ '.' :: ds.drop whole

/-- The digits `ds` with the point after the first, followed by the exponent `lead`. -/
def scientificText (signed : Bool) (ds : List Char) (lead : Int) : List Char :=
  let fraction :=
    match ds.drop 1 with
    | [] => []
    | rest => '.' :: rest
  let sign := if signed && 0 ≤ lead then ['+'] else []
  ds.take 1 ++ fraction ++ 'e' :: sign ++ (toString lead).toList

namespace Layout

def decimalText (l : Layout) (d : Decimal) : List Char :=
  let ds := d.text
  let lead : Int := d.exponent + ds.length - 1
  if l.positional lead then positionalText l.keepsPoint ds lead
  else scientificText l.signedExponent ds lead

/-- The text of a number, with a minus sign if the sign bit of a number other than NaN is set. -/
def text (l : Layout) (x : Binary64) : String :=
  if x.isNaN then l.nan
  else
    let magnitude :=
      if x.isInfinite then l.infinity.toList
      else if x.isZero then positionalText l.keepsPoint ['0'] 0
      else l.decimalText (x.shortest l.tie)
    String.ofList (if x.isNegative then '-' :: magnitude else magnitude)

/-- Plain text never has an exponent and drops the point of a whole number. -/
def plain : Layout :=
  { tie := .up, positional := fun _ => true, keepsPoint := false, signedExponent := false
    nan := "NaN", infinity := "inf" }

/-- Source text always shows that the number is a float; magnitudes below `10 ^ (-4)` and from
`10 ^ 16` on have an exponent. -/
def source : Layout :=
  { tie := .up, positional := fun e => -4 ≤ e && e < 16, keepsPoint := true
    signedExponent := false, nan := "NaN", infinity := "inf" }

/-- JSON text is positional from `10 ^ (-5)` to below `10 ^ 16`; a positive exponent is signed. A
number that is not finite has no JSON text and is written as `null`. -/
def json : Layout :=
  { tie := .toEven, positional := fun e => -5 ≤ e && e < 16, keepsPoint := true
    signedExponent := true, nan := "null", infinity := "null" }

end Layout

end ScriptFuzz.Number
