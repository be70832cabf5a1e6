import ScriptFuzz.Text.Hex

/-!
# Names and string literals of the target language

Which texts are names, and how a text is written as a double-quoted literal of printable ASCII.
-/

namespace ScriptFuzz.Python

set_option autoImplicit false

open ScriptFuzz.Text

def keywords : List String :=
  ["False", "None", "True", "and", "as", "assert", "async", "await", "break", "class", "continue",
    "def", "del", "elif", "else", "except", "finally", "for", "from", "global", "if", "import",
    "in", "is", "lambda", "nonlocal", "not", "or", "pass", "raise", "return", "try", "while",
    "with", "yield"]

def startsName (c : Char) : Bool := c = '_' || c.isAlpha

def continuesName (c : Char) : Bool := c = '_' || c.isAlphanum

/-- Whether a text can stand after the point of an attribute access. Only ASCII names count. -/
def isIdentifier (s : String) : Bool :=
  match s.toList with
  | [] => false
  | c :: cs => startsName c && cs.all continuesName && !keywords.contains s

/-- A character inside of a double-quoted literal. -/
def quoteChar (c : Char) : List Char :=
  match c with
  | '\\' => ['\\', '\\']
  | '"' => ['\\', '"']
  | '\n' => ['\\', 'n']
  | '\r' => ['\\', 'r']
  | '\t' => ['\\', 't']
  | c =>
    if c.toNat < 0x20 || c.toNat = 0x7f then '\\' :: 'x' :: Hex.digits 2 c.toNat
    else if c.toNat < 0x80 then [c]
    else if c.toNat ≤ 0xffff then '\\' :: 'u' :: Hex.digits 4 c.toNat
    else '\\' :: 'U' :: Hex.digits 8 c.toNat

/-- The literal that denotes a text. -/
def quote (s : String) : String := String.ofList ('"' :: s.toList.flatMap quoteChar ++ ['"'])

end ScriptFuzz.Python
