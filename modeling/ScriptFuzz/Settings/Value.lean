import ScriptFuzz.Json.Numeral
import ScriptFuzz.Json.Text
import ScriptFuzz.Ordered

/-!
# Values of a configuration

What a configuration says, whatever the notation it is written in. A table may be written as the
list of its entries in order; what is left out has a default.
-/

namespace ScriptFuzz

set_option autoImplicit false

open ScriptFuzz.Number

/-- A value of a configuration. -/
inductive Setting where
  | null
  | bool (value : Bool)
  | integer (value : Int)
  | float (value : Binary64)
  | text (value : String)
  | list (items : List Setting)
  | table (entries : List (String × Setting))

namespace Setting

instance : Inhabited Setting := ⟨null⟩

/-- The integers that a JSON number stands for; beyond them a number is a floating-point one. -/
def integerBounds : Int × Int := (-0x8000000000000000, 0xffffffffffffffff)

mutual

/-- The value that a JSON value stands for; of two members with one key the later counts. -/
def ofJson? : Json → Option Setting
  | .null => some null
  | .bool b => some (bool b)
  | .number lexeme =>
    match (Json.integer? lexeme).filter fun n => integerBounds.1 ≤ n ∧ n ≤ integerBounds.2 with
    | some n => some (integer n)
    | none => (Json.float? lexeme).map float
  | .string body => (Json.decode? body).map fun cs => text (String.ofList cs)
  | .array items => (ofJsonItems? items).map list
  | .object members => (ofJsonMembers? members).map fun es => table (Ordered.ofPairs es)
  | .broken => none

def ofJsonItems? : List Json → Option (List Setting)
  | [] => some []
  | j :: js => do return (← ofJson? j) :: (← ofJsonItems? js)

def ofJsonMembers? : List (List Char × Json) → Option (List (String × Setting))
  | [] => some []
  | (key, j) :: ms => do
    return (String.ofList (← Json.decode? key), ← ofJson? j) :: (← ofJsonMembers? ms)

end

def bool? : Setting → Option Bool
  | bool b => some b
  | _ => none

/-- A natural number below `bound`. -/
def nat? (bound : Nat) : Setting → Option Nat
  | integer n => if 0 ≤ n ∧ n < bound then some n.toNat else none
  | _ => none

/-- An integer as a floating-point number. -/
def floatOfInt (n : Int) : Binary64 :=
  let magnitude := nearest n.natAbs 1
  if n < 0 then magnitude.negate else magnitude

def float? : Setting → Option Binary64
  | float x => some x
  | integer n => some (floatOfInt n)
  | _ => none

def text? : Setting → Option String
  | text s => some s
  | _ => none

/-- A value that may be `null`. -/
def optional? {α : Type} (decode : Setting → Option α) : Setting → Option (Option α)
  | null => some none
  | s => (decode s).map some

def list? {α : Type} (decode : Setting → Option α) : Setting → Option (List α)
  | list items => items.mapM decode
  | _ => none

/-- The entries of a table, keys ascending. -/
def map? {α : Type} (decode : Setting → Option α) : Setting → Option (List (String × α))
  | table entries => do
    return Ordered.ofPairs (← entries.mapM fun (k, s) => do return (k, ← decode s))
  | _ => none

/-- The entries of a table with the given keys. A list gives its items to the keys in order; a
notation that is `strict` has no room for surplus items. -/
def entries? (strict : Bool) (keys : List String) : Setting → Option (List (String × Setting))
  | table entries => some entries
  | list items => if strict ∧ keys.length < items.length then none else some (keys.zip items)
  | _ => none

/-- The entry with a key, or the default if there is none. -/
def entry? {α : Type} (entries : List (String × Setting)) (key : String) (default : α)
    (decode : Setting → Option α) : Option α :=
  match entries.lookup key with
  | none => some default
  | some s => decode s

end Setting

end ScriptFuzz
