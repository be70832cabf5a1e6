import ScriptFuzz.Number.Nearest
import ScriptFuzz.Ordered
import ScriptFuzz.Random.Draw
import ScriptFuzz.Text.Lines

/-!
# The environment of programs

What the fuzzer knows about the target: the paths of its builtins, from which the names of
properties and methods are taken, and literal values that tend to meet edge cases.
-/

namespace ScriptFuzz

set_option autoImplicit false

open ScriptFuzz.Number

/-- What is known about the target. -/
structure Environment where
  /-- The paths of the builtins, ascending. -/
  builtins : List String
  /-- The names that occur in the paths, ascending. -/
  components : List String
deriving DecidableEq, Inhabited

namespace Environment

/-- The characters between the names of a path. -/
def separators : List Char := ['.', ':', '-', '>']

def namesOf (path : String) : List String :=
  let marked := path.toList.map fun c => if c ∈ separators then '.' else c
  ((Text.splitOn '.' marked).filter (!·.isEmpty)).map String.ofList

def ofBuiltins (paths : List String) : Environment :=
  let builtins := Ordered.ofList paths
  { builtins, components := Ordered.ofList (builtins.flatMap namesOf) }

/-- The name of a property that no builtin needs to have. -/
def customProperty : String := "p"

/-- The name of a method that no builtin needs to have. -/
def customMethod : String := "m"

/-- The property names, ascending. -/
def properties (e : Environment) : List String := Ordered.insert customProperty e.components

/-- The method names, ascending. The name of the custom property is not among them. -/
def methods (e : Environment) : List String :=
  Ordered.insert customMethod (e.components.filter (· ≠ customProperty))

/-- The texts that tend to meet edge cases. -/
def strings (e : Environment) : List String := "" :: e.components

/-- Integers that tend to meet edge cases: those around the limits of machine words. -/
def integers : List Int64 :=
  [-9223372036854775808, -9223372036854775807, -9007199254740992, -9007199254740991,
    -9007199254740990, -4294967297, -4294967296, -4294967295, -2147483649, -2147483648,
    -2147483647, -1073741824, -536870912, -268435456, -65537, -65536, -65535, -4096, -1024, -256,
    -128, -2, -1, 0, 1, 2, 3, 4, 5, 6, 7, 8, 9, 10, 16, 64, 127, 128, 129, 255, 256, 257, 512,
    1000, 1024, 4096, 10000, 65535, 65536, 65537, 268435456, 536870912, 1073741824, 2147483647,
    2147483648, 2147483649, 4294967295, 4294967296, 4294967297, 9007199254740990,
    9007199254740991, 9007199254740992, 9223372036854775806, 9223372036854775807]

/-- The largest finite number. -/
def largest : Binary64 := ⟨0x7fefffffffffffff⟩

/-- The smallest positive number with a full significand. -/
def smallestNormal : Binary64 := ⟨0x0010000000000000⟩

/-- The distance from one to the next larger number. -/
def epsilon : Binary64 := ⟨0x3cb0000000000000⟩

/-- The number nearest to a decimal with the given digits and exponent. -/
private def decimal (digits : Nat) (exponent : Int) : Binary64 := Decimal.nearest ⟨digits, exponent⟩

/-- Floating-point numbers that tend to meet edge cases. -/
def floats : List Binary64 :=
  let wholes := [decimal 1 12, decimal 1 9, decimal 1 6, decimal 1 3, decimal 5 0, decimal 4 0,
    decimal 3 0, decimal 2 0, decimal 1 0]
  [.negInfinity, largest.negate, (decimal 1 (-15)).negate] ++ wholes.map Binary64.negate ++
    [epsilon.negate, smallestNormal.negate, (decimal 0 0).negate, decimal 0 0, smallestNormal,
      epsilon] ++
    wholes.reverse ++ [decimal 1 (-15), largest, .infinity, .nan]

/-- Regular expressions that match one character. -/
def regexpAtoms : List String := [".", "\\d", "\\w", "\\s", "\\D", "\\W", "\\S"]

/-- How often an atom may be repeated. -/
def quantifiers : List String := ["", "*", "+", "?"]

/-- A builtin, if any is known. -/
def drawBuiltin (e : Environment) : Draw (Option String) := Draw.choose e.builtins

/-- A name of a pool, but at times the custom one. -/
def drawName (pool : List String) (custom : String) : Draw String := do
  let pool ← if pool.isEmpty then pure [custom] else
    if ← Draw.chance 0.1 then pure [custom] else pure pool
  return (← Draw.choose pool).getD customProperty

def drawProperty (e : Environment) : Draw String := drawName e.properties customProperty

def drawMethod (e : Environment) : Draw String := drawName e.methods customMethod

def drawInt : Draw Int64 := do
  if ← Draw.chance 0.5 then return (← Draw.choose integers).getD 0
  return Int64.ofInt (← Draw.between .double (-0x1000) 0x1000)

/-- The bound on repeated draws of a floating-point number. -/
def floatAttempts : Nat := 64

/-- A floating-point number from `low` to below `high`. -/
def drawFloatBetween (low high : Float) : Draw Float := Draw.floatBetween low high floatAttempts

def drawFloat : Draw Binary64 := do
  if ← Draw.chance 0.5 then return (← Draw.choose floats).getD (decimal 0 0)
  return .ofFloat (← drawFloatBetween (-1000000.0) 1000000.0)

/-- Letters at random. -/
def drawLetters : Nat → Draw (List Char)
  | 0 => return []
  | n + 1 => do
    let k ← Draw.belowSmall 26
    return Char.ofNat (97 + k) :: (← drawLetters n)

def drawString (e : Environment) : Draw String := do
  if ← Draw.chance 0.7 then
    if let some s ← Draw.choose e.strings then return s
  return String.ofList (← drawLetters (← Draw.below .single 8))

def drawRegexp : Draw String := do
  let atom ← Draw.choose regexpAtoms
  let quantifier ← Draw.choose quantifiers
  return atom.getD "." ++ quantifier.getD ""

end Environment

end ScriptFuzz
