import ScriptFuzz.Text.Hex

/-!
# Texts inside TOML

The four kinds of strings, comments and the white space around them. Every reader gives what it
read and the text after it. A text that spans lines has line feeds for its line endings, whichever
endings the document has.
-/

namespace ScriptFuzz.Toml

set_option autoImplicit false

open ScriptFuzz.Text

/-- White space inside of a line. -/
def isSpace (c : Char) : Bool := c = ' ' || c = '\t'

/-- Whether a character may stand in comments and strings: all but the controls, of which only the
tab is allowed. -/
def isPrintable (c : Char) : Bool := c = '\t' || (0x20 ≤ c.toNat && c.toNat ≠ 0x7f)

def skipSpace (cs : List Char) : List Char := cs.dropWhile isSpace

/-- The text after a line ending, if it starts with one. -/
def newLine? : List Char → Option (List Char)
  | '\n' :: cs => some cs
  | '\r' :: '\n' :: cs => some cs
  | _ => none

/-- The text after a comment, if it starts with one. -/
def skipComment : List Char → List Char
  | '#' :: cs => cs.dropWhile isPrintable
  | cs => cs

/-- The text after the rest of a line: white space, perhaps a comment, and the line ending or the
end of the document. -/
def endOfLine? (cs : List Char) : Option (List Char) :=
  match skipComment (skipSpace cs) with
  | [] => some []
  | rest => newLine? rest

/-- The text after white space, line endings and comments. -/
def skipBlank : Nat → List Char → List Char
  | 0, cs => cs
  | fuel + 1, cs =>
    match cs with
    | ' ' :: cs | '\t' :: cs | '\n' :: cs | '\r' :: '\n' :: cs => skipBlank fuel cs
    | '#' :: cs => skipBlank fuel (cs.dropWhile isPrintable)
    | cs => cs

/-- The text after white space and line endings. -/
def skipLines : Nat → List Char → List Char
  | 0, cs => cs
  | fuel + 1, cs =>
    match cs with
    | ' ' :: cs | '\t' :: cs | '\n' :: cs | '\r' :: '\n' :: cs => skipLines fuel cs
    | cs => cs

/-- The character with the code point that digits write, if there is one. -/
def codePoint? (ds : List Char) : Option Char := do
  let n ← Hex.number? ds
  if n < 0xd800 ∨ (0xe000 ≤ n ∧ n < 0x110000) then return Char.ofNat n else none

/-- The character that an escape after its backslash stands for. -/
def escape? : List Char → Option (Char × List Char)
  | 'b' :: cs => some ('\x08', cs)
  | 'f' :: cs => some ('\x0c', cs)
  | 'n' :: cs => some ('\n', cs)
  | 'r' :: cs => some ('\r', cs)
  | 't' :: cs => some ('\t', cs)
  | '\\' :: cs => some ('\\', cs)
  | '"' :: cs => some ('"', cs)
  | 'u' :: cs => if 4 ≤ cs.length then (codePoint? (cs.take 4)).map (·, cs.drop 4) else none
  | 'U' :: cs => if 8 ≤ cs.length then (codePoint? (cs.take 8)).map (·, cs.drop 8) else none
  | _ => none

/-- The content of a literal string after its opening quote. -/
def literal? : List Char → Option (List Char × List Char)
  | [] => none
  | '\'' :: cs => some ([], cs)
  | c :: cs => if isPrintable c then (literal? cs).map fun (s, rest) => (c :: s, rest) else none

/-- The content of a string with escapes after its opening quote. -/
def basic? : Nat → List Char → Option (List Char × List Char)
  | 0, _ => none
  | fuel + 1, cs =>
    match cs with
    | [] => none
    | '"' :: cs => some ([], cs)
    | '\\' :: cs => do
      let (c, cs) ← escape? cs
      let (s, rest) ← basic? fuel cs
      return (c :: s, rest)
    | c :: cs =>
      if isPrintable c then (basic? fuel cs).map fun (s, rest) => (c :: s, rest) else none

/-- The end of a string of several lines at the text `cs`, which starts with quotes: three quotes
end it, and up to two before them belong to the content. -/
def closing? (quote : Char) (cs : List Char) : Option (List Char × List Char) :=
  let run := (cs.takeWhile (· = quote)).length
  if run < 3 then none
  else
    let extra := min (run - 3) 2
    some (List.replicate extra quote, cs.drop (extra + 3))

/-- The text after an escaped line ending: the white space before it, and the white space and line
endings after it. -/
def joinedLine? (cs : List Char) : Option (List Char) :=
  (newLine? (skipSpace cs)).map fun rest => skipLines (rest.length + 1) rest

/-- The content of a string of several lines; `escapes` tells whether it has escapes. -/
def multiline? (quote : Char) (escapes : Bool) : Nat → List Char → Option (List Char × List Char)
  | 0, _ => none
  | fuel + 1, cs =>
    match cs with
    | [] => none
    | c :: rest =>
      if c = quote then
        match closing? quote cs with
        | some r => some r
        | none => (multiline? quote escapes fuel rest).map fun (s, r) => (c :: s, r)
      else if c = '\\' ∧ escapes then
        match joinedLine? rest with
        | some rest => multiline? quote escapes fuel rest
        | none => do
          let (e, rest) ← escape? rest
          let (s, r) ← multiline? quote escapes fuel rest
          return (e :: s, r)
      else
        match newLine? cs with
        | some rest => (multiline? quote escapes fuel rest).map fun (s, r) => ('\n' :: s, r)
        | none =>
          if isPrintable c then
            (multiline? quote escapes fuel rest).map fun (s, r) => (c :: s, r)
          else none

/-- A string of several lines after its opening quotes; a line ending right after them does not
count. -/
def afterOpening? (quote : Char) (escapes : Bool) (cs : List Char) :
    Option (List Char × List Char) :=
  let cs := (newLine? cs).getD cs
  multiline? quote escapes (cs.length + 1) cs

def shortString? : List Char → Option (List Char × List Char)
  | '"' :: cs => basic? (cs.length + 1) cs
  | '\'' :: cs => literal? cs
  | _ => none

def string? : List Char → Option (List Char × List Char)
  | '"' :: '"' :: '"' :: cs => afterOpening? '"' true cs
  | '\'' :: '\'' :: '\'' :: cs => afterOpening? '\'' false cs
  | cs => shortString? cs

end ScriptFuzz.Toml
