import ScriptFuzz.Json.Value

/-!
# Reading JSON

`Json.read` turns a text into a tree of lexemes. Each reader returns what it read together with the
rest of the text; there is no rest once the text has broken off. Main facts: the reader is total,
and the nesting depth is bounded only by the length of the text.
-/

namespace ScriptFuzz.Json

set_option autoImplicit false

/-- White space between tokens. -/
def isSpace (c : Char) : Bool := c = ' ' || c = '\n' || c = '\r' || c = '\t'

/-- The text from its first token on. -/
def skipSpace (cs : List Char) : List Char := cs.dropWhile isSpace

/-- Whether a character is a hexadecimal digit. -/
def isHexDigit (c : Char) : Bool :=
  c.isDigit || ('a' ≤ c && c ≤ 'f') || ('A' ≤ c && c ≤ 'F')

/-- The body of a string up to its closing quote, and the text after the quote. -/
def readBody : List Char → Option (List Char × List Char)
  | [] => none
  | '"' :: cs => some ([], cs)
  | '\\' :: 'u' :: a :: b :: c :: d :: cs =>
    if isHexDigit a && isHexDigit b && isHexDigit c && isHexDigit d then
      (readBody cs).map fun (body, rest) => ('\\' :: 'u' :: a :: b :: c :: d :: body, rest)
    else none
  | '\\' :: e :: cs =>
    if e ∈ ['"', '\\', '/', 'b', 'f', 'n', 'r', 't'] then
      (readBody cs).map fun (body, rest) => ('\\' :: e :: body, rest)
    else none
  | '\\' :: [] => none
  | c :: cs =>
    if c.toNat < 0x20 then none
    else (readBody cs).map fun (body, rest) => (c :: body, rest)

def digitRun (cs : List Char) : List Char × List Char := cs.span Char.isDigit

/-- The integer digits of a number: a single zero, or digits that start with another. -/
def readWhole (cs : List Char) : Option (List Char × List Char) :=
  match digitRun cs with
  | ([], _) => none
  | ('0' :: _ :: _, _) => none
  | r => some r

/-- The fraction of a number with its point, empty if there is none. -/
def readFraction : List Char → Option (List Char × List Char)
  | '.' :: cs =>
    match digitRun cs with
    | ([], _) => none
    | (ds, rest) => some ('.' :: ds, rest)
  | cs => some ([], cs)

/-- A sign, if the text starts with one. -/
def readSign : List Char → List Char × List Char
  | '+' :: cs => (['+'], cs)
  | '-' :: cs => (['-'], cs)
  | cs => ([], cs)

/-- The exponent of a number with its mark, empty if there is none. -/
def readExponent : List Char → Option (List Char × List Char)
  | [] => some ([], [])
  | c :: cs =>
    if c = 'e' || c = 'E' then
      let (sign, cs) := readSign cs
      match digitRun cs with
      | ([], _) => none
      | (ds, rest) => some (c :: sign ++ ds, rest)
    else some ([], c :: cs)

/-- The lexeme of a number and the text after it. -/
def readNumber (cs : List Char) : Option (List Char × List Char) := do
  let (minus, cs) := match cs with
    | '-' :: cs => (['-'], cs)
    | cs => ([], cs)
  let (whole, cs) ← readWhole cs
  let (fraction, cs) ← readFraction cs
  let (exponent, cs) ← readExponent cs
  return (minus ++ whole ++ fraction ++ exponent, cs)

/-- The text after the word `word`, if it starts with it. -/
def dropWord? : List Char → List Char → Option (List Char)
  | [], cs => some cs
  | w :: ws, c :: cs => if w = c then dropWord? ws cs else none
  | _ :: _, [] => none

/-- A value without inner values. -/
def readScalar (cs : List Char) : Json × Option (List Char) :=
  let word (w : String) (j : Json) :=
    match dropWord? w.toList cs with
    | some rest => (j, some rest)
    | none => (.broken, none)
  match cs with
  | 'n' :: _ => word "null" .null
  | 't' :: _ => word "true" (.bool true)
  | 'f' :: _ => word "false" (.bool false)
  | '"' :: body =>
    match readBody body with
    | some (body, rest) => (.string body, some rest)
    | none => (.broken, none)
  | _ =>
    match readNumber cs with
    | some (lexeme, rest) => (.number lexeme, some rest)
    | none => (.broken, none)

mutual

/-- A value at the start of the text, after white space. -/
def readValue : Nat → List Char → Json × Option (List Char)
  | 0, _ => (.broken, none)
  | fuel + 1, cs =>
    match skipSpace cs with
    | '[' :: cs =>
      match skipSpace cs with
      | ']' :: rest => (.array [], some rest)
      | cs => let (items, rest) := readItems fuel cs; (.array items, rest)
    | '{' :: cs =>
      match skipSpace cs with
      | '}' :: rest => (.object [], some rest)
      | cs => let (members, rest) := readMembers fuel cs; (.object members, rest)
    | cs => readScalar cs

/-- The items of an array up to its closing bracket; at least one is expected. -/
def readItems : Nat → List Char → List Json × Option (List Char)
  | 0, _ => ([.broken], none)
  | fuel + 1, cs =>
    match readValue fuel cs with
    | (item, none) => ([item], none)
    | (item, some cs) =>
      match skipSpace cs with
      | ']' :: rest => ([item], some rest)
      | ',' :: cs => let (items, rest) := readItems fuel cs; (item :: items, rest)
      | _ => ([item, .broken], none)

/-- The members of an object up to its closing brace; at least one is expected. -/
def readMembers : Nat → List Char → List (List Char × Json) × Option (List Char)
  | 0, _ => ([([], .broken)], none)
  | fuel + 1, cs =>
    match skipSpace cs with
    | '"' :: cs =>
      match readBody cs with
      | none => ([([], .broken)], none)
      | some (key, cs) =>
        match skipSpace cs with
        | ':' :: cs =>
          match readValue fuel cs with
          | (value, none) => ([(key, value)], none)
          | (value, some cs) =>
            match skipSpace cs with
            | '}' :: rest => ([(key, value)], some rest)
            | ',' :: cs =>
              let (members, rest) := readMembers fuel cs
              ((key, value) :: members, rest)
            | _ => ([(key, value), ([], .broken)], none)
        | _ => ([(key, .broken)], none)
    | _ => ([([], .broken)], none)

end

/-- The value that a text starts with, and whether nothing but white space follows it. -/
def readFirst (cs : List Char) : Json × Bool :=
  match readValue (2 * cs.length + 2) cs with
  | (j, none) => (j, false)
  | (j, some rest) => (j, (skipSpace rest).isEmpty)

/-- The value that makes up a whole text. -/
def read? (s : String) : Option Json :=
  match readFirst s.toList with
  | (j, true) => if j.isWhole then some j else none
  | (_, false) => none

end ScriptFuzz.Json
