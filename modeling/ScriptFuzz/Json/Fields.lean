import ScriptFuzz.Json.Text
import ScriptFuzz.Json.Numeral

/-!
# Records and variants inside JSON

A record is an object whose known keys occur at most once, in any order and among unknown keys, or
an array of its fields in declaration order. `entries` lists the known fields in the order in which
the text has them and ends with a broken entry where the record stops being well formed, so that a
reader that works through the list meets every fault in the order of the text. A variant is a name,
or an object with the name as its only key.
-/

namespace ScriptFuzz.Json

set_option autoImplicit false

/-- The entry at which a record stops being well formed. -/
def brokenEntry : String × Json := ("", .broken)

/-- The known fields among the members of an object; `seen` are those that have occurred. -/
def memberEntries (fields seen : List String) : List (List Char × Json) → List (String × Json)
  | [] => []
  | (key, value) :: rest =>
    match decode? key with
    | none => [brokenEntry]
    | some k =>
      let name := String.ofList k
      if name ∈ seen then [brokenEntry]
      else if name ∈ fields then (name, value) :: memberEntries fields (name :: seen) rest
      else if value.isWhole then memberEntries fields seen rest
      else [brokenEntry]

/-- The items of an array as the fields of a record. -/
def itemEntries : List String → List Json → List (String × Json)
  | [], [] => []
  | f :: fs, j :: js => (f, j) :: itemEntries fs js
  | _, _ => [brokenEntry]

/-- The fields of a record in the order of the text. -/
def entries (fields : List String) : Json → List (String × Json)
  | .object members => memberEntries fields [] members
  | .array items => itemEntries fields items
  | _ => [brokenEntry]

def record? (fields : List String) (j : Json) : Option (List (String × Json)) :=
  let es := entries fields j
  if es.all fun (_, value) => value.isWhole then some es else none

def field? (es : List (String × Json)) (name : String) : Option Json := es.lookup name

/-- A field that may be absent or `null`. -/
def optional? {α : Type} (es : List (String × Json)) (name : String) (decode : Json → Option α) :
    Option (Option α) :=
  match field? es name with
  | none => some none
  | some .null => some none
  | some j => (decode j).map some

/-- A field that has a default when it is absent. -/
def withDefault? {α : Type} (es : List (String × Json)) (name : String) (default : α)
    (decode : Json → Option α) : Option α :=
  match field? es name with
  | none => some default
  | some j => decode j

def list? {α : Type} (decode : Json → Option α) : Json → Option (List α)
  | .array items => items.mapM decode
  | _ => none

/-- The members of an object whose keys are texts, in order of appearance. -/
def map? {α : Type} (decode : Json → Option α) : Json → Option (List (String × α))
  | .object members =>
    members.mapM fun (key, value) => do
      return (String.ofList (← decode? key), ← decode value)
  | _ => none

/-- The name of a variant and, unless the variant is written as its name alone, its content. -/
def variant? : Json → Option (String × Option Json)
  | .string body => (decode? body).map fun k => (String.ofList k, none)
  | .object [(key, value)] => (decode? key).map fun k => (String.ofList k, some value)
  | _ => none

end ScriptFuzz.Json
