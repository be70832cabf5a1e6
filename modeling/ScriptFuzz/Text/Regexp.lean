import ScriptFuzz.Text.Lines

/-!
# Regular expressions

Whether a text is a regular expression that an automaton can be built for. Groups, alternatives,
repetitions and classes of characters are known; boundaries of words and references to groups are
not.
-/

namespace ScriptFuzz.Text.Regexp

set_option autoImplicit false

/-- Goes over hexadecimal digits. -/
def hex? (count : Nat) (cs : List Char) : Option (List Char) :=
  let digits := cs.take count
  let isDigit (c : Char) : Bool := c.isDigit || ('a' ≤ c.toLower && c.toLower ≤ 'f')
  if digits.length = count && digits.all isDigit then some (cs.drop count) else none

/-- The character that an escape of one letter stands for. -/
def escaped? (c : Char) : Option Char :=
  match c with
  | 'n' => some '\n'
  | 't' => some '\t'
  | 'r' => some '\r'
  | 'f' => some '\x0c'
  | 'v' => some '\x0b'
  | 'a' => some '\x07'
  | c => if c.toNat < 128 && !c.isAlphanum && c ≠ '<' && c ≠ '>' then some c else none

/-- Goes over what stands behind a backslash; gives the character, unless it is a class. -/
def escape? : List Char → Option (Option Char × List Char)
  | [] => none
  | 'x' :: cs => (hex? 2 cs).map (some 'x', ·)
  | 'u' :: cs => (hex? 4 cs).map (some 'u', ·)
  | 'U' :: cs => (hex? 8 cs).map (some 'U', ·)
  | 'p' :: c :: cs | 'P' :: c :: cs => if "CLMNPSZ".contains c then some (none, cs) else none
  | c :: cs =>
    if "dDsSwW".contains c then some (none, cs) else (escaped? c).map fun e => (some e, cs)

/-- The names of classes that are written between colons. -/
def classNames : List String :=
  ["alnum", "alpha", "ascii", "blank", "cntrl", "digit", "graph", "lower", "print", "punct",
    "space", "upper", "word", "xdigit"]

/-- Goes over a class that is written by its name, of which the first bracket has been read. -/
def named? (cs : List Char) : Option (List Char) :=
  let cs := if cs.take 2 = [':', '^'] then ':' :: cs.drop 2 else cs
  classNames.findSome? fun n =>
    let whole := ':' :: n.toList ++ [':', ']']
    if whole.isPrefixOf cs then some (cs.drop whole.length) else none

/-- Goes over the items of a class up to its last bracket; a bracket that comes first is an item. -/
def items? : Nat → Bool → List Char → Option (List Char)
  | 0, _, _ => none
  | fuel + 1, isFirst, cs =>
    let rest? (item : Option (Option Char × List Char)) : Option (List Char) :=
      match item with
      | none => none
      | some (start, '-' :: stop :: cs) =>
        if stop = ']' || stop = '-' then items? fuel false ('-' :: stop :: cs)
        else
          let stop? := if stop = '\\' then escape? cs else some (some stop, cs)
          match start, stop? with
          | some lo, some (some hi, cs) => if lo ≤ hi then items? fuel false cs else none
          | _, _ => none
      | some (_, cs) => items? fuel false cs
    match cs with
    | [] => none
    | ']' :: cs => if isFirst then rest? (some (some ']', cs)) else some cs
    | '-' :: cs => items? fuel isFirst cs
    | '[' :: cs =>
      match named? cs with
      | some cs => items? fuel false cs
      | none => do
        let cs ← items? fuel true (if cs.head? = some '^' then cs.drop 1 else cs)
        items? fuel false cs
    | '\\' :: cs => rest? (escape? cs)
    | c :: cs => rest? (some (some c, cs))

/-- Goes over a class, of which the first bracket has been read. -/
def class? (cs : List Char) : Option (List Char) :=
  items? (2 * cs.length + 2) true (if cs.head? = some '^' then cs.drop 1 else cs)

/-- Goes over what stands behind the question mark at the front of a group; tells whether the group
goes on. -/
def groupStart? (cs : List Char) : Option (Bool × List Char) :=
  let nameAt (cs : List Char) : Option (Bool × List Char) :=
    let name := cs.takeWhile (· ≠ '>')
    let isName := name ≠ [] && !(name.head?.all Char.isDigit) &&
      name.all fun c => c.isAlphanum || c = '_'
    if isName && name.length < cs.length then some (true, cs.drop (name.length + 1)) else none
  match cs with
  | 'P' :: '<' :: cs | '<' :: cs => nameAt cs
  | cs =>
    let flags := cs.takeWhile fun c => "imsUuxR-".contains c
    match cs.drop flags.length with
    | ':' :: cs => some (true, cs)
    | ')' :: cs => if flags = [] then none else some (false, cs)
    | _ => none

/-- Whether an expression goes on well inside of groups of the given depth; `repeats` tells whether
there is something in front that can be repeated. -/
def goesOn : Nat → Nat → Bool → List Char → Bool
  | 0, _, _, _ => false
  | fuel + 1, depth, repeats, cs =>
    match cs with
    | [] => depth = 0
    | '(' :: '?' :: cs =>
      match groupStart? cs with
      | some (opens, cs) => goesOn fuel (if opens then depth + 1 else depth) false cs
      | none => false
    | '(' :: cs => goesOn fuel (depth + 1) false cs
    | ')' :: cs => 0 < depth && goesOn fuel (depth - 1) true cs
    | '|' :: cs => goesOn fuel depth false cs
    | '*' :: cs | '+' :: cs | '?' :: cs => repeats && goesOn fuel depth true cs
    | '{' :: _ => false
    | '[' :: cs =>
      match class? cs with
      | some cs => goesOn fuel depth true cs
      | none => false
    | '\\' :: 'A' :: cs | '\\' :: 'z' :: cs => goesOn fuel depth true cs
    | '\\' :: cs =>
      match escape? cs with
      | some (_, cs) => goesOn fuel depth true cs
      | none => false
    | _ :: cs => goesOn fuel depth true cs

/-- Whether a text is a regular expression, if no number of repetitions is written in it. -/
def isRegexp (s : List Char) : Bool := goesOn (s.length + 1) 0 false s

end ScriptFuzz.Text.Regexp
