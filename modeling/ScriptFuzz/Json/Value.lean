/-!
# JSON values as trees of lexemes

A tree keeps numbers and strings as they are written: what a lexeme denotes depends on the type
that is asked for, and a string may escape surrogates that form no text. Reading never fails; a
text that breaks off is read as the tree up to the break, with `broken` in the place of what could
not be read. Whoever takes values from the tree meets the break exactly where the text has it.
-/

namespace ScriptFuzz

set_option autoImplicit false

/-- A JSON value. -/
inductive Json where
  | null
  | bool (value : Bool)
  | number (lexeme : List Char)
  /-- A string with the characters between its quotes, escapes included. -/
  | string (body : List Char)
  | array (items : List Json)
  /-- The members in order of appearance, each key with its body. -/
  | object (members : List (List Char × Json))
  /-- The place where a text stops being JSON. -/
  | broken

namespace Json

instance : Inhabited Json := ⟨null⟩

mutual

/-- Whether the text of the value was read to its end. -/
def isWhole : Json → Bool
  | .array items => areWhole items
  | .object members => membersAreWhole members
  | .broken => false
  | _ => true

def areWhole : List Json → Bool
  | [] => true
  | j :: js => j.isWhole && areWhole js

def membersAreWhole : List (List Char × Json) → Bool
  | [] => true
  | (_, j) :: ms => j.isWhole && membersAreWhole ms

end

end Json

end ScriptFuzz
