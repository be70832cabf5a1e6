import ScriptFuzz.Json.Text
import ScriptFuzz.Json.Numeral

/-!
# Writing JSON

Two layouts of one tree: `compact` has no white space, and `pretty` gives each item and member a
line of its own, two spaces deeper than the value that holds it. An empty array or object is `[]`
or `{}` in both.
-/

namespace ScriptFuzz.Json

set_option autoImplicit false

def quoted (body : List Char) : List Char := '"' :: body ++ ['"']

/-- A value without inner values, as it is written. A break is written as nothing. -/
def scalarText : Json → List Char
  | .null => "null".toList
  | .bool true => "true".toList
  | .bool false => "false".toList
  | .number lexeme => lexeme
  | .string body => quoted body
  | _ => []

mutual

def compactText : Json → List Char
  | .array items => '[' :: compactItems items ++ [']']
  | .object members => '{' :: compactMembers members ++ ['}']
  | j => scalarText j

def compactItems : List Json → List Char
  | [] => []
  | [j] => compactText j
  | j :: js => compactText j ++ ',' :: compactItems js

def compactMembers : List (List Char × Json) → List Char
  | [] => []
  | [(k, j)] => quoted k ++ ':' :: compactText j
  | (k, j) :: ms => quoted k ++ ':' :: compactText j ++ ',' :: compactMembers ms

end

def newLine (depth : Nat) : List Char := '\n' :: List.replicate (2 * depth) ' '

mutual

def prettyText (depth : Nat) : Json → List Char
  | .array [] => ['[', ']']
  | .array items => '[' :: prettyItems (depth + 1) items ++ newLine depth ++ [']']
  | .object [] => ['{', '}']
  | .object members => '{' :: prettyMembers (depth + 1) members ++ newLine depth ++ ['}']
  | j => scalarText j

def prettyItems (depth : Nat) : List Json → List Char
  | [] => []
  | [j] => newLine depth ++ prettyText depth j
  | j :: js => newLine depth ++ prettyText depth j ++ ',' :: prettyItems depth js

def prettyMembers (depth : Nat) : List (List Char × Json) → List Char
  | [] => []
  | [(k, j)] => newLine depth ++ quoted k ++ ':' :: ' ' :: prettyText depth j
  | (k, j) :: ms =>
    newLine depth ++ quoted k ++ ':' :: ' ' :: prettyText depth j ++ ',' :: prettyMembers depth ms

end

/-- The value without white space. -/
def compact (j : Json) : String := String.ofList (compactText j)

/-- The value with a line for each item and member. -/
def pretty (j : Json) : String := String.ofList (prettyText 0 j)

/-- An object with the given keys and values, in this order. -/
def ofFields (fields : List (String × Json)) : Json :=
  .object (fields.map fun (k, j) => (encode k.toList, j))

/-- A text, or `null`. -/
def ofText? (s : Option String) : Json := (s.map ofText).getD .null

/-- A natural number, or `null`. -/
def ofNat? (n : Option Nat) : Json := (n.map ofNat).getD .null

end ScriptFuzz.Json
