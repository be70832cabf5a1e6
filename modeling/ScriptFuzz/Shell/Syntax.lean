import ScriptFuzz.Files

/-!
# Shell scripts as trees

Scripts work on bytes. A value writes each byte as the character of the same number, so that
letters, digits and signs of a script are the characters that they are called by. Words are sequences
of pieces that are expanded to values when a command runs; commands are made of words, redirections and
other commands.
-/

namespace ScriptFuzz.Shell

set_option autoImplicit false

/-- Bytes, each as the character of its number. -/
abbrev Value := List Char

namespace Value

def ofBytes (bs : Bytes) : Value := bs.map fun b => Char.ofNat b.toNat

def toBytes (v : Value) : Bytes := v.map fun c => UInt8.ofNat c.toNat

def ofText (s : String) : Value := ofBytes (Text.Utf8.encode s)

/-- The text of the value; what is no text in it is replaced. -/
def toText (v : Value) : String := String.ofList (Text.Utf8.decodeLossy (toBytes v))

/-- The value that ends where the ends of lines at its end begin. -/
def withoutFinalLines (v : Value) : Value := (v.reverse.dropWhile (· = '\n')).reverse

/-- The decimal digits of a number. -/
def ofNat (n : Nat) : Value := (toString n).toList

/-- Whether a value comes no later than another one when they are sorted by their bytes. -/
def isUpTo : Value → Value → Bool
  | [], _ => true
  | _ :: _, [] => false
  | c :: v, d :: w => c.toNat < d.toNat || (c == d && isUpTo v w)

/-- The number that decimal digits form. -/
def nat? (v : Value) : Option Nat :=
  if v ≠ [] ∧ v.all Char.isDigit then some (v.foldl (fun n c => n * 10 + (c.toNat - 48)) 0)
  else none

/-- Whether a character is space where numbers are read. -/
def isSpace (c : Char) : Bool := c = ' ' || (9 ≤ c.toNat && c.toNat ≤ 13)

/-- The number of 64 bits that a value writes with or without a sign, between spaces. -/
def integer? (v : Value) : Option Int :=
  let v := (v.dropWhile isSpace).reverse.dropWhile isSpace |>.reverse
  let n? : Option Int :=
    match v with
    | '-' :: ds => (nat? ds).map fun n => -n
    | '+' :: ds => (nat? ds).map fun n => n
    | ds => (nat? ds).map fun n => n
  n?.filter fun n => -0x8000000000000000 ≤ n ∧ n ≤ 0x7fffffffffffffff

/-- The greatest number that counts something. -/
def greatest : Nat := 0x7fffffff

def count? (v : Value) : Option Nat :=
  (integer? v).bind fun n => if 0 ≤ n ∧ n.toNat ≤ greatest then some n.toNat else none

end Value

/-- When a parameter counts as missing: when it is unset, or also when it is empty. -/
inductive Missing where
  | unset
  | empty
deriving DecidableEq

/-- Which end of a value is trimmed, and whether as much as possible. -/
structure Trim where
  fromEnd : Bool
  longest : Bool

/-- How a redirection opens its target. -/
inductive Opening where
  | read
  | write
  | append
  /-- The target is the number of an open descriptor, or a hyphen to close. -/
  | duplicate
  /-- The target is the text to be read. -/
  | here

mutual

/-- A part of a word. Quoted parts are neither split into fields nor taken for patterns. -/
inductive Piece where
  | text (characters : List Char) (quoted : Bool)
  | parameter (name : List Char) (use : Use) (quoted : Bool)
  | output (commands : List Command) (quoted : Bool)
  | arithmetic (expression : List Piece) (quoted : Bool)

/-- What is made of the value of a parameter. -/
inductive Use where
  | value
  | length
  /-- The word if the value is missing. -/
  | orElse (missing : Missing) (word : List Piece)
  /-- The word if the value is missing, and the parameter is set to it. -/
  | orAssign (missing : Missing) (word : List Piece)
  /-- The script ends if the value is missing. -/
  | orFail (missing : Missing) (word : List Piece)
  /-- The word unless the value is missing. -/
  | instead (missing : Missing) (word : List Piece)
  | trimmed (trim : Trim) (pattern : List Piece)
  /-- Something that has no meaning. -/
  | bad

inductive Redirection where
  | mk (descriptor : Nat) (opening : Opening) (target : List Piece)

inductive Command where
  | simple (line : Nat) (assignments : List (List Char × List Piece)) (words : List (List Piece))
      (redirections : List Redirection)
  | pipeline (commands : List Command)
  | not (command : Command)
  | and (left right : Command)
  | or (left right : Command)
  | background (command : Command)
  | group (commands : List Command)
  | subshell (commands : List Command)
  /-- Conditions with the commands for them, and the commands if none holds. -/
  | branch (cases : List (List Command × List Command)) (otherwise : List Command)
  /-- Commands that are repeated while the condition ends with success, or until it does. -/
  | loop (untilTrue : Bool) (condition body : List Command)
  /-- Commands for each word; without words, for each argument of the script. -/
  | each (name : List Char) (words : Option (List (List Piece))) (body : List Command)
  /-- The commands of the first clause with a pattern that matches the word. -/
  | choice (line : Nat) (word : List Piece)
      (clauses : List (List (List Piece) × List Command))
  | define (name : List Char) (body : Command)
  | redirected (line : Nat) (command : Command) (redirections : List Redirection)

end

/-- A word of a script. -/
abbrev Word := List Piece

end ScriptFuzz.Shell
