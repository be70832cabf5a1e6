import ScriptFuzz.Json.Numeral
import ScriptFuzz.Text.Alphanumeric
import ScriptFuzz.Text.Blank
import ScriptFuzz.Text.Regexp

/-!
# Log rules

A rule gives a level to the messages of a part of the program. It may ask for more: that they are
sent within a span, and that they have certain fields, possibly with certain values. The text of a
rule is read as if there were no blanks around it, but its pieces are cut from the text as it is.
-/

namespace ScriptFuzz.CommandLine

set_option autoImplicit false

/-- How important a message is. -/
inductive LogLevel where
  | off
  | error
  | warn
  | info
  | debug
  | trace
deriving DecidableEq, Repr

namespace LogLevel

/-- The levels from the fewest messages to the most. -/
def all : List LogLevel := [off, error, warn, info, debug, trace]

def name : LogLevel → String
  | off => "off"
  | error => "error"
  | warn => "warn"
  | info => "info"
  | debug => "debug"
  | trace => "trace"

/-- The place of the level among all. -/
def rank : LogLevel → Nat
  | off => 0
  | error => 1
  | warn => 2
  | info => 3
  | debug => 4
  | trace => 5

/-- The level with a name, in capitals or not, or with a number. -/
def ofText? (s : String) : Option LogLevel :=
  match Json.unsigned? s.toList with
  | some n => all[n]?
  | none => all.find? fun l => l.name == s.map Char.toLower

end LogLevel

/-- Which messages are logged: those of the part, in the span and with the fields that are named. -/
structure LogRule where
  /-- The beginning of the names of parts; nothing for all parts. -/
  part : Option String := none
  span : Option String := none
  /-- The names of fields, some with what their value has to be. -/
  fields : List (String × Option String) := []
  level : LogLevel := .trace
deriving DecidableEq, Repr

/-- Why a text gives no rule. -/
inductive LogRuleError where
  | malformed
  /-- A piece would begin or end inside of a character. -/
  | divided
deriving DecidableEq, Repr

namespace LogRule

/-- What a reader of a rule is at, and the position at which it began. -/
inductive Progress where
  | start
  | part (begin : Nat)
  | span (begin : Nat)
  | field (begin : Nat)
  | fields
  | spanned
  | level (begin : Nat)

/-- The characters behind so many bytes. -/
def dropBytes : Nat → List Char → Except LogRuleError (List Char)
  | 0, cs => .ok cs
  | _ + 1, [] => .ok []
  | n + 1, c :: cs =>
    if c.utf8Size ≤ n + 1 then dropBytes (n + 1 - c.utf8Size) cs else .error .divided

/-- The piece of a text between two positions. -/
def piece (text : List Char) (begin stop : Nat) : Except LogRuleError String := do
  let tail ← dropBytes begin text
  let rest ← dropBytes (stop - begin) tail
  return String.ofList (tail.take (tail.length - rest.length))

/-- The piece of a text from a position on. -/
def tail (text : List Char) (begin : Nat) : Except LogRuleError String :=
  String.ofList <$> dropBytes begin text

/-- Whether a text is a number with a plus sign. -/
def isPositive (value : List Char) : Bool :=
  match value with
  | '+' :: cs =>
    let digits := cs.takeWhile Char.isDigit
    let rest := cs.drop digits.length
    let (places, rest) : List Char × List Char :=
      match rest with
      | '.' :: ds => (ds.takeWhile Char.isDigit, ds.dropWhile Char.isDigit)
      | ds => ([], ds)
    let ends : Bool :=
      match rest with
      | [] => true
      | e :: ds =>
        let ds := if ds.head? = some '+' ∨ ds.head? = some '-' then ds.drop 1 else ds
        (e = 'e' || e = 'E') && ds ≠ [] && ds.all Char.isDigit
    (digits ++ places ≠ [] && ends) ||
      ["inf", "infinity", "nan"].contains (String.ofList (cs.map Char.toLower))
  | _ => false

/-- A field with what its value has to be: a number or an expression for its text. -/
def field (text : String) : Except LogRuleError (String × Option String) :=
  match (Text.splitOn '=' text.toList).map String.ofList with
  | name :: value :: _ =>
    if isPositive value.toList || Text.Regexp.isRegexp value.toList then .ok (name, some value)
    else .error .malformed
  | [name] => if name = "" then .error .malformed else .ok (name, none)
  | [] => .error .malformed

/-- The level that a text gives; without a text all messages are logged. -/
def levelOf (text : String) : Except LogRuleError LogLevel :=
  if text = "" then .ok .trace
  else
    match LogLevel.ofText? text with
    | some l => .ok l
    | none => .error .malformed

/-- Whether a character may begin the name of a part. -/
def startsPart (c : Char) : Bool := c ∈ ['-', ':', '_'] || Text.isAlphanumeric c

def read (text : List Char) (rule : LogRule) (position : Nat) (c : Char) :
    Progress → Except LogRuleError (LogRule × Progress)
  | .start =>
    if c = '[' then .ok (rule, .span (position + 1))
    else if startsPart c then .ok (rule, .part position)
    else .error .malformed
  | .part begin =>
    if c = '=' then do
      return ({ rule with part := ← piece text begin position }, .level (position + 1))
    else if c = '[' then do
      return ({ rule with part := ← piece text begin position }, .span (position + 1))
    else .ok (rule, .part begin)
  | .span begin =>
    if c = ']' then do
      return ({ rule with span := ← piece text begin position }, .spanned)
    else if c = '{' then do
      let name ← piece text begin position
      return ({ rule with span := if name = "" then none else some name }, .field (position + 1))
    else .ok (rule, .span begin)
  | .field begin =>
    if c = '}' then do
      let f ← field (← piece text begin position)
      return ({ rule with fields := rule.fields ++ [f] }, .fields)
    else .ok (rule, .field begin)
  | .fields => if c = ']' then .ok (rule, .spanned) else .error .malformed
  | .spanned => if c = '=' then .ok (rule, .level (position + 1)) else .error .malformed
  | .level begin => .ok (rule, .level begin)

/-- Reads characters from a position on. -/
def readAll (text : List Char) : LogRule → Progress → Nat → List Char →
    Except LogRuleError (LogRule × Progress)
  | rule, progress, _, [] => .ok (rule, progress)
  | rule, progress, position, c :: cs => do
    let (rule, progress) ← read text rule position c progress
    readAll text rule progress (position + c.utf8Size) cs

def ofText (s : String) : Except LogRuleError LogRule := do
  let text := s.toList
  let (rule, progress) ← readAll text {} .start 0 (Text.trim text)
  match progress with
  | .part begin =>
    let name ← tail text begin
    return match LogLevel.ofText? name with
      | some level => { rule with level }
      | none => { rule with part := some name }
  | .level begin => return { rule with level := ← levelOf (← tail text begin) }
  | .spanned => return rule
  | .start | .span _ | .field _ | .fields => throw .malformed

/-- Whether the rule asks for something that is known only while the program runs. -/
def isDynamic (r : LogRule) : Bool := r.span.isSome || !r.fields.isEmpty

/-- Whether a message can be told to fit the rule before the program runs. -/
def isStatic (r : LogRule) : Bool := r.span.isNone && r.fields.all fun (_, v) => v.isNone

def fieldNames (r : LogRule) : List String := r.fields.map (·.1)

/-- How much the rule asks for: the length of the name of the part, and the number of fields. -/
def precision (r : LogRule) : Nat × Nat :=
  ((r.part.map fun p => p.utf8ByteSize + 1).getD 0, r.fields.length)

end LogRule

end ScriptFuzz.CommandLine
