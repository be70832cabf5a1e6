import ScriptFuzz.Toml.Numeral
import ScriptFuzz.Toml.Text
import ScriptFuzz.Toml.Tree

/-!
# TOML documents

A document is a sequence of lines: comments, headers, and pairs of a key and a value. `read?` gives
the table that a document describes, or nothing if the text is no document.
-/

namespace ScriptFuzz.Toml

set_option autoImplicit false

/-- Whether a character may stand in a key without quotes. -/
def isBare (c : Char) : Bool := c.isAlphanum || c = '-' || c = '_'

def keyPart? (cs : List Char) : Option (String × List Char) :=
  match cs with
  | '"' :: _ | '\'' :: _ => (shortString? cs).map fun (s, rest) => (String.ofList s, rest)
  | _ =>
    match cs.span isBare with
    | ([], _) => none
    | (s, rest) => some (String.ofList s, rest)

/-- A key: parts with points between them, with white space around each. -/
def key? : Nat → List Char → Option (List String × List Char)
  | 0, _ => none
  | fuel + 1, cs => do
    let (part, rest) ← keyPart? (skipSpace cs)
    match skipSpace rest with
    | '.' :: rest => do
      let (parts, rest) ← key? fuel rest
      return (part :: parts, rest)
    | rest => return ([part], rest)

/-- The greatest depth of lists and tables inside each other, and the greatest number of parts of a
key. -/
def depthLimit : Nat := 79

/-- A key that is not too long. -/
def boundedKey? (cs : List Char) : Option (List String × List Char) :=
  (key? (cs.length + 1) cs).filter fun (parts, _) => parts.length ≤ depthLimit

/-- A truth value or a number. -/
def scalar? (cs : List Char) : Option (Setting × List Char) :=
  match cs with
  | 't' :: 'r' :: 'u' :: 'e' :: rest => some (.bool true, rest)
  | 'f' :: 'a' :: 'l' :: 's' :: 'e' :: rest => some (.bool false, rest)
  | _ => numeral? cs

mutual

/-- A value; `depth` values may still be nested in each other. -/
def value? : Nat → Nat → List Char → Option (Setting × List Char)
  | 0, _, _ => none
  | fuel + 1, depth, cs =>
    match cs with
    | '"' :: _ | '\'' :: _ => (string? cs).map fun (s, rest) => (.text (String.ofList s), rest)
    | '[' :: cs =>
      if depth = 0 then none
      else (items? fuel (depth - 1) cs).map fun (items, rest) => (.list items, rest)
    | '{' :: cs =>
      if depth = 0 then none
      else
        match skipSpace cs with
        | '}' :: rest => some (.table [], rest)
        | cs => do
          let (pairs, rest) ← pairs? fuel (depth - 1) cs
          return ((Node.table .header (← ofPairs? pairs [])).toSetting, rest)
    | _ => scalar? cs

/-- The items of an array after its opening bracket. -/
def items? : Nat → Nat → List Char → Option (List Setting × List Char)
  | 0, _, _ => none
  | fuel + 1, depth, cs =>
    match skipBlank (cs.length + 1) cs with
    | ']' :: rest => some ([], rest)
    | cs => do
      let (item, rest) ← value? fuel depth cs
      match skipBlank (rest.length + 1) rest with
      | ']' :: rest => return ([item], rest)
      | ',' :: rest => do
        let (items, rest) ← items? fuel depth rest
        return (item :: items, rest)
      | _ => none

/-- The pairs of a table in braces, of which there is at least one, up to the closing brace. -/
def pairs? : Nat → Nat → List Char → Option (List (List String × Setting) × List Char)
  | 0, _, _ => none
  | fuel + 1, depth, cs => do
    let (key, rest) ← boundedKey? cs
    let rest ← after? '=' rest
    let (s, rest) ← value? fuel depth (skipSpace rest)
    match skipSpace rest with
    | '}' :: rest => return ([(key, s)], rest)
    | ',' :: rest => do
      let (pairs, rest) ← pairs? fuel depth rest
      return ((key, s) :: pairs, rest)
    | _ => none

end

/-- A key with its value on a line of their own. -/
def pairLine? (cs : List Char) : Option ((List String × Setting) × List Char) := do
  let (key, rest) ← boundedKey? cs
  let rest ← after? '=' rest
  let (s, rest) ← value? (2 * cs.length + 2) depthLimit (skipSpace rest)
  return ((key, s), ← endOfLine? rest)

/-- A header on a line of its own: the path, and whether it starts a further one of the tables that
share it. -/
def headerLine? (cs : List Char) : Option ((List String × Bool) × List Char) :=
  match cs with
  | '[' :: '[' :: cs => do
    let (path, rest) ← boundedKey? cs
    match rest with
    | ']' :: ']' :: rest => return ((path, true), ← endOfLine? rest)
    | _ => none
  | '[' :: cs => do
    let (path, rest) ← boundedKey? cs
    return ((path, false), ← endOfLine? (← after? ']' rest))
  | _ => none

/-- The pairs up to the next header, and the sections from there on. -/
def lines? : Nat → List Char → Option (List (List String × Setting) × List Section)
  | 0, _ => none
  | fuel + 1, cs =>
    match skipSpace cs with
    | [] => some ([], [])
    | '#' :: cs => (endOfLine? ('#' :: cs)).bind (lines? fuel)
    | '[' :: cs => do
      let ((path, shared), rest) ← headerLine? ('[' :: cs)
      let (pairs, sections) ← lines? fuel rest
      return ([], (if shared then Section.item path pairs else .table path pairs) :: sections)
    | cs =>
      match newLine? cs with
      | some rest => lines? fuel rest
      | none => do
        let (pair, rest) ← pairLine? cs
        let (pairs, sections) ← lines? fuel rest
        return (pair :: pairs, sections)

/-- The table that a document describes. A mark of the byte order at its start does not count. -/
def read? (source : String) : Option Setting := do
  let cs := match source.toList with
    | '\ufeff' :: cs => cs
    | cs => cs
  let (pairs, sections) ← lines? (cs.length + 1) cs
  ofSections? (.root pairs :: sections)

end ScriptFuzz.Toml
