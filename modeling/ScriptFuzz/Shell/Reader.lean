import ScriptFuzz.Shell.Syntax

/-!
# Reading shell scripts

A script is read line by line, where a line goes on until its commands are complete: what comes
before a mistake is carried out before the mistake is found. The readers take characters from the
front of a source; their fuel bounds how deep they call each other and is never used up, since every
second call takes a character.
-/

namespace ScriptFuzz.Shell

set_option autoImplicit false

/-- What stands where something else should stand. -/
inductive Token where
  | word
  | newLine
  | redirection
  | endOfText
  | symbol (text : String)

namespace Token

def text : Token → String
  | word => "word"
  | newLine => "newline"
  | redirection => "redirection"
  | endOfText => "end of file"
  | symbol s => "\"" ++ s ++ "\""

end Token

/-- Why a script cannot be read. -/
inductive Mistake where
  | openQuote
  | openBrace
  | openArithmetic
  | functionName
  | loopVariable
  | token (found : Token) (expected : Option String)

namespace Mistake

def text : Mistake → String
  | openQuote => "Unterminated quoted string"
  | openBrace => "Missing '\x7d'"
  | openArithmetic => "Missing '))'"
  | functionName => "Bad function name"
  | loopVariable => "Bad for loop variable"
  | token found none => found.text ++ " unexpected"
  | token found (some e) => found.text ++ " unexpected (expecting \"" ++ e ++ "\")"

end Mistake

/-- A mistake with the number of its line. -/
structure SyntaxError where
  line : Nat
  mistake : Mistake

/-- What is left of a script, and the number of its first line. -/
structure Source where
  rest : List Char
  line : Nat := 1

abbrev Reader := StateT Source (Except SyntaxError)

namespace Reader

def peek : Reader (List Char) := return (← get).rest

def skip (n : Nat) : Reader Unit :=
  modify fun s => { rest := s.rest.drop n, line := s.line + (s.rest.take n).count '\n' }

def fail {α : Type} (m : Mistake) : Reader α := do throw { line := (← get).line, mistake := m }

/-- Whether a character ends a word without quotes. -/
def isMeta (c : Char) : Bool := " \t\n;&|<>()".contains c

/-- Whether a character may begin a name. -/
def startsName (c : Char) : Bool := c.isAlpha || c = '_'

def isNameCharacter (c : Char) : Bool := c.isAlphanum || c = '_'

/-- The name at the front of a text. -/
def nameAt (cs : List Char) : List Char :=
  match cs with
  | c :: _ => if startsName c then cs.takeWhile isNameCharacter else []
  | [] => []

def isName (cs : List Char) : Bool := cs ≠ [] && nameAt cs = cs

/-- The number of blanks and characters of a comment at the front of a text. -/
def blankLength : List Char → Nat
  | ' ' :: cs | '\t' :: cs => blankLength cs + 1
  | '\\' :: '\n' :: cs => blankLength cs + 2
  | '#' :: cs => (cs.takeWhile (· ≠ '\n')).length + 1
  | _ => 0

def skipBlank : Reader Unit := do skip (blankLength (← peek))

/-- Goes over blanks, comments and ends of lines. -/
def skipLines : Nat → Reader Unit
  | 0 => return
  | n + 1 => do
    skipBlank
    if (← peek).head? = some '\n' then
      skip 1
      skipLines n

/-- Goes over all ends of lines that come next. -/
def skipAllLines : Reader Unit := do skipLines ((← peek).length + 1)

/-- The words that have a meaning where a command may begin. -/
def reserved : List String :=
  ["if", "then", "elif", "else", "fi", "while", "until", "for", "do", "done", "case", "esac",
    "\x7b", "\x7d", "!", "in"]

/-- The reserved word at the front of a text. -/
def reservedAt? (cs : List Char) : Option String :=
  reserved.find? fun w =>
    w.toList.isPrefixOf cs && ((cs.drop w.length).head?.map isMeta).getD true

/-- Whether no command can begin here. -/
def atCloser : Reader Bool := do
  match ← peek with
  | [] | ')' :: _ | ';' :: ';' :: _ => return true
  | cs =>
    return match reservedAt? cs with
      | some w => ["then", "elif", "else", "fi", "do", "done", "esac", "\x7d"].contains w
      | none => false

/-- The operators, longer ones first. -/
def operators : List String := [";;", "&&", "||", ";", "&", "|", "(", ")"]

/-- What stands at the front of a text. -/
def tokenAt (cs : List Char) : Token :=
  match cs with
  | [] => .endOfText
  | '\n' :: _ => .newLine
  | '<' :: _ | '>' :: _ => .redirection
  | _ =>
    match operators.find? fun o => o.toList.isPrefixOf cs with
    | some o => .symbol o
    | none =>
      match reservedAt? cs with
      | some w => .symbol w
      | none => .word

def unexpected {α : Type} (expected : Option String) : Reader α := do
  skipBlank
  fail (.token (tokenAt (← peek)) expected)

/-- Goes over a reserved word or a parenthesis that has to come next. -/
def expect (w : String) : Reader Unit := do
  skipBlank
  let cs ← peek
  let found := if w = ")" then cs.head? = some ')' else reservedAt? cs = some w
  if found then skip w.length else unexpected (some w)

/-- In what a piece of a word stands. -/
inductive Enclosure where
  | bare
  | quotes
  | braces (quoted : Bool)
  | hereText
  /-- An arithmetic expression inside so many parentheses. -/
  | arithmetic (depth : Nat)

namespace Enclosure

def isQuoted : Enclosure → Bool
  | bare => false
  | braces q => q
  | _ => true

/-- Whether a backslash takes the meaning of a character. -/
def escapes : Enclosure → Char → Bool
  | bare, _ | braces false, _ => true
  | quotes, c => "$`\"\\".contains c
  | braces true, c => "$`\"\\\x7d".contains c
  | hereText, c | arithmetic _, c => "$`\\".contains c

/-- Whether quotes have a meaning: double ones, and single ones. -/
def quoting : Enclosure → Bool × Bool
  | bare | braces false => (true, true)
  | quotes | braces true => (true, false)
  | hereText | arithmetic _ => (false, false)

/-- What is missing at the end of the text. -/
def atEnd? : Enclosure → Option Mistake
  | bare | hereText => none
  | quotes => some .openQuote
  | braces _ => some .openBrace
  | arithmetic _ => some .openArithmetic

end Enclosure

/-- Puts a character in front of the pieces that follow it. -/
def addText (c : Char) (quoted : Bool) : List Piece → List Piece
  | .text cs q :: ps =>
    if q = quoted then .text (c :: cs) q :: ps else .text [c] quoted :: .text cs q :: ps
  | ps => .text [c] quoted :: ps

/-- The text between backquotes and the number of its characters with the closing one. -/
def backquoted? : List Char → Option (List Char × Nat)
  | [] => none
  | '`' :: _ => some ([], 1)
  | '\\' :: c :: cs =>
    (backquoted? cs).map fun (t, n) =>
      if "$`\\".contains c then (c :: t, n + 2) else ('\\' :: c :: t, n + 2)
  | c :: cs => (backquoted? cs).map fun (t, n) => (c :: t, n + 1)

/-- The parameter at the front of a text: a name, digits, or a sign; only one digit where no braces
are around it. -/
def parameterAt (braces : Bool) (cs : List Char) : List Char :=
  match cs with
  | [] => []
  | c :: _ =>
    if startsName c then nameAt cs
    else if c.isDigit then if braces then cs.takeWhile Char.isDigit else [c]
    else if "@*#?-$!".contains c then [c]
    else []

/-- The sign that says what is made of a parameter, with what it makes of the word that follows. -/
def useAt? (cs : List Char) : Option (Nat × (List Piece → Use)) :=
  let missing : Missing × List Char :=
    match cs with
    | ':' :: rest => (.empty, rest)
    | rest => (.unset, rest)
  let length := cs.length - missing.2.length + 1
  match missing.2, cs with
  | '-' :: _, _ => some (length, .orElse missing.1)
  | '=' :: _, _ => some (length, .orAssign missing.1)
  | '?' :: _, _ => some (length, .orFail missing.1)
  | '+' :: _, _ => some (length, .instead missing.1)
  | _, '%' :: '%' :: _ => some (2, .trimmed ⟨true, true⟩)
  | _, '%' :: _ => some (1, .trimmed ⟨true, false⟩)
  | _, '#' :: '#' :: _ => some (2, .trimmed ⟨false, true⟩)
  | _, '#' :: _ => some (1, .trimmed ⟨false, false⟩)
  | _, _ => none

/-- The operator that opens a redirection, and the descriptor it is for if none is written. -/
def openings : List (String × Opening × Nat) :=
  [("<<-", .here, 0), ("<<", .here, 0), ("<&", .duplicate, 0), (">&", .duplicate, 1),
    ("<>", .read, 0), (">>", .append, 1), (">|", .write, 1), ("<", .read, 0), (">", .write, 1)]

/-- The descriptor, the operator and the length of a redirection at the front of a text. -/
def redirectionAt? (cs : List Char) : Option (Nat × Opening × String × Nat) :=
  let digits := cs.takeWhile Char.isDigit
  let rest := cs.drop digits.length
  (openings.find? fun (o, _) => o.toList.isPrefixOf rest).map fun (o, opening, usual) =>
    let descriptor :=
      if digits = [] then usual else digits.foldl (fun n c => n * 10 + (c.toNat - 48)) 0
    (descriptor, opening, o, digits.length + o.length)

/-- The characters of a word as they are written, and whether any of them is quoted. -/
def literal (w : List Piece) : List Char × Bool :=
  w.foldl
    (fun (cs, quoted) p =>
      match p with
      | .text t q => (cs ++ t, quoted || q)
      | _ => (cs, quoted))
    ([], false)

/-- Takes the lines up to one that consists of the delimiter out of the text after the current line:
the lines, and what is left. -/
def cutHere (stripTabs : Bool) (delimiter : List Char) : Nat → List Char → List Char × List Char
  | 0, cs => ([], cs)
  | fuel + 1, cs =>
    if cs = [] then ([], []) else
    let cs := if stripTabs then cs.dropWhile (· = '\t') else cs
    let line := cs.takeWhile (· ≠ '\n')
    let rest := cs.drop (line.length + 1)
    if line = delimiter then ([], rest)
    else
      let (text, rest) := cutHere stripTabs delimiter fuel rest
      (line ++ '\n' :: text, rest)

/-- The name of an assignment at the front of a text. -/
def assignmentAt? (cs : List Char) : Option (List Char) :=
  let name := nameAt cs
  if name ≠ [] ∧ (cs.drop name.length).head? = some '=' then some name else none

mutual

/-- The pieces up to the end of a word or of what encloses them. -/
def pieces : Nat → Enclosure → Reader (List Piece)
  | 0, _ => fail .openQuote
  | fuel + 1, e => do
    match ← peek with
    | [] =>
      match e.atEnd? with
      | some m => fail m
      | none => return []
    | '\\' :: '\n' :: _ =>
      skip 2
      pieces fuel e
    | '\\' :: c :: _ =>
      if e.escapes c then
        skip 2
        return addText c true (← pieces fuel e)
      else
        skip 1
        return addText '\\' e.isQuoted (← pieces fuel e)
    | '$' :: _ =>
      skip 1
      let p ← expansion fuel e.isQuoted
      return p :: (← pieces fuel e)
    | '`' :: cs =>
      match backquoted? cs with
      | none => fail (.token .endOfText (some "`"))
      | some (text, length) =>
        let line := (← get).line
        skip (length + 1)
        let (body, _) ← (commands fuel).run { rest := text, line }
        return .output body e.isQuoted :: (← pieces fuel e)
    | c :: _ =>
      if c = '"' ∧ e matches .quotes then
        skip 1
        return []
      else if c = '"' ∧ e.quoting.1 then
        skip 1
        let inner ← pieces fuel .quotes
        let inner := if inner.isEmpty then [.text [] true] else inner
        return inner ++ (← pieces fuel e)
      else if c = '\'' ∧ e.quoting.2 then
        skip 1
        let text := (← peek).takeWhile (· ≠ '\'')
        skip text.length
        if (← peek).isEmpty then fail .openQuote
        skip 1
        return .text text true :: (← pieces fuel e)
      else if c = '}' ∧ e matches .braces _ then
        skip 1
        return []
      else if c = ')' ∧ e matches .arithmetic 0 then
        skip 1
        if (← peek).head? ≠ some ')' then fail .openArithmetic
        skip 1
        return []
      else if isMeta c ∧ e matches .bare then return []
      else
        let e : Enclosure :=
          match e, c with
          | .arithmetic d, '(' => .arithmetic (d + 1)
          | .arithmetic d, ')' => .arithmetic (d - 1)
          | e, _ => e
        skip 1
        return addText c e.isQuoted (← pieces fuel e)

/-- What a dollar sign, which has been read, introduces. -/
def expansion : Nat → Bool → Reader Piece
  | 0, _ => fail .openQuote
  | fuel + 1, quoted => do
    match ← peek with
    | '(' :: '(' :: _ =>
      skip 2
      return .arithmetic (← pieces fuel (.arithmetic 0)) quoted
    | '(' :: _ =>
      skip 1
      let body ← commands fuel
      expect ")"
      return .output body quoted
    | '{' :: '#' :: cs =>
      let name := parameterAt true cs
      if name ≠ [] ∧ (cs.drop name.length).head? = some '}' then
        skip (name.length + 3)
        return .parameter name .length quoted
      else
        skip 1
        modified fuel quoted
    | '{' :: _ =>
      skip 1
      modified fuel quoted
    | cs =>
      let name := parameterAt false cs
      skip name.length
      return if name = [] then .text ['$'] quoted else .parameter name .value quoted

/-- A parameter in braces, of which the opening one has been read. -/
def modified : Nat → Bool → Reader Piece
  | 0, _ => fail .openBrace
  | fuel + 1, quoted => do
    let name := parameterAt true (← peek)
    skip name.length
    let cs ← peek
    if cs.isEmpty then fail .openBrace
    else if name ≠ [] ∧ cs.head? = some '}' then
      skip 1
      return .parameter name .value quoted
    else
      match if name = [] then none else useAt? cs with
      | some (length, use) =>
        skip length
        let isPattern := cs.head? = some '%' || cs.head? = some '#'
        return .parameter name (use (← pieces fuel (.braces (quoted && !isPattern)))) quoted
      | none =>
        let _ ← pieces fuel (.braces quoted)
        return .parameter name .bad quoted

/-- Commands up to something that closes them. -/
def commands : Nat → Reader (List Command)
  | 0 => return []
  | fuel + 1 => do
    skipAllLines
    if ← atCloser then return []
    let c ← chain fuel
    skipBlank
    match ← peek with
    | ';' :: ';' :: _ => return [c]
    | ';' :: _ =>
      skip 1
      return c :: (← commands fuel)
    | '\n' :: _ => return c :: (← commands fuel)
    | '&' :: _ =>
      skip 1
      return .background c :: (← commands fuel)
    | _ => return [c]

/-- Commands of which there has to be one at least. -/
def block : Nat → Reader (List Command)
  | 0 => return []
  | fuel + 1 => do
    let cs ← commands fuel
    if cs.isEmpty then unexpected none else return cs

/-- Pipelines that depend on how the ones before them end. -/
def chain : Nat → Reader Command
  | 0 => unexpected none
  | fuel + 1 => do
    let first ← pipeline fuel
    further fuel first

/-- The pipelines of a chain after those that have been read. -/
def further : Nat → Command → Reader Command
  | 0, c => return c
  | fuel + 1, c => do
    skipBlank
    match ← peek with
    | '&' :: '&' :: _ =>
      skip 2
      skipAllLines
      further fuel (.and c (← pipeline fuel))
    | '|' :: '|' :: _ =>
      skip 2
      skipAllLines
      further fuel (.or c (← pipeline fuel))
    | _ => return c

def pipeline : Nat → Reader Command
  | 0 => unexpected none
  | fuel + 1 => do
    skipBlank
    if reservedAt? (← peek) = some "!" then
      skip 1
      return .not (← pipeline fuel)
    match ← stages fuel with
    | [c] => return c
    | cs => return .pipeline cs

def stages : Nat → Reader (List Command)
  | 0 => unexpected none
  | fuel + 1 => do
    let c ← command fuel
    skipBlank
    match ← peek with
    | '|' :: '|' :: _ => return [c]
    | '|' :: _ =>
      skip 1
      skipAllLines
      return c :: (← stages fuel)
    | _ => return [c]

def command : Nat → Reader Command
  | 0 => unexpected none
  | fuel + 1 => do
    skipBlank
    let line := (← get).line
    let compound (read : Reader Command) : Reader Command := do
      let c ← read
      match ← redirections fuel with
      | [] => return c
      | rs => return .redirected line c rs
    let cs ← peek
    match reservedAt? cs, cs with
    | some "\x7b", _ => compound do
      skip 1
      let body ← block fuel
      expect "\x7d"
      return .group body
    | some "if", _ => compound do
      skip 2
      branches fuel
    | some "while", _ => compound do
      skip 5
      repeated fuel false
    | some "until", _ => compound do
      skip 5
      repeated fuel true
    | some "for", _ => compound do
      skip 3
      skipBlank
      let name := (← peek).takeWhile fun c => !isMeta c
      if !isName name then fail .loopVariable
      skip name.length
      skipAllLines
      let words ←
        if reservedAt? (← peek) = some "in" then
          skip 2
          some <$> words fuel
        else pure none
      skipBlank
      if (← peek).head? = some ';' then skip 1
      skipAllLines
      expect "do"
      let body ← block fuel
      expect "done"
      return .each name words body
    | some "case", _ => compound do
      skip 4
      skipBlank
      let word ← wordHere fuel
      skipAllLines
      expect "in"
      return .choice line word (← clauses fuel)
    | _, '(' :: _ => compound do
      skip 1
      let body ← block fuel
      expect ")"
      return .subshell body
    | some w, _ => if w = "in" then simple fuel line [] [] [] else unexpected none
    | none, _ => simple fuel line [] [] []

/-- A word that has to come next. -/
def wordHere : Nat → Reader (List Piece)
  | 0 => unexpected none
  | fuel + 1 => do
    let w ← pieces fuel .bare
    if w.isEmpty then unexpected none else return w

/-- The words up to the end of the line. -/
def words : Nat → Reader (List (List Piece))
  | 0 => return []
  | fuel + 1 => do
    skipBlank
    let w ← pieces fuel .bare
    if w.isEmpty then return [] else return w :: (← words fuel)

/-- The rest of a branch after its first word. -/
def branches : Nat → Reader Command
  | 0 => unexpected none
  | fuel + 1 => do
    let condition ← block fuel
    expect "then"
    let body ← block fuel
    match reservedAt? (← peek) with
    | some "elif" =>
      skip 4
      match ← branches fuel with
      | .branch cases otherwise => return .branch ((condition, body) :: cases) otherwise
      | _ => unexpected none
    | some "else" =>
      skip 4
      let otherwise ← block fuel
      expect "fi"
      return .branch [(condition, body)] otherwise
    | _ =>
      expect "fi"
      return .branch [(condition, body)] []

/-- The rest of a loop after its first word. -/
def repeated : Nat → Bool → Reader Command
  | 0, _ => unexpected none
  | fuel + 1, untilTrue => do
    let condition ← block fuel
    expect "do"
    let body ← block fuel
    expect "done"
    return .loop untilTrue condition body

/-- The clauses of a choice with the word that closes it. -/
def clauses : Nat → Reader (List (List (List Piece) × List Command))
  | 0 => unexpected none
  | fuel + 1 => do
    skipAllLines
    if reservedAt? (← peek) = some "esac" then
      skip 4
      return []
    if (← peek).head? = some '(' then skip 1
    let ps ← patterns fuel
    let body ← commands fuel
    match ← peek with
    | ';' :: ';' :: _ =>
      skip 2
      return (ps, body) :: (← clauses fuel)
    | _ =>
      expect "esac"
      return [(ps, body)]

/-- The patterns of a clause with the parenthesis after them. -/
def patterns : Nat → Reader (List (List Piece))
  | 0 => unexpected none
  | fuel + 1 => do
    skipBlank
    let p ← pieces fuel .bare
    if p.isEmpty then unexpected (some ")")
    skipBlank
    match ← peek with
    | '|' :: _ =>
      skip 1
      return p :: (← patterns fuel)
    | _ =>
      expect ")"
      return [p]

/-- A redirection, if one comes next. -/
def redirection? : Nat → Reader (Option Redirection)
  | 0 => return none
  | fuel + 1 => do
    skipBlank
    match redirectionAt? (← peek) with
    | none => return none
    | some (descriptor, opening, operator, length) =>
      skip length
      skipBlank
      let target ← wordHere fuel
      match opening with
      | .here =>
        let (delimiter, quoted) := literal target
        let s ← get
        let line := s.rest.takeWhile (· ≠ '\n')
        let (text, rest) :=
          cutHere (operator = "<<-") delimiter (s.rest.length + 1) (s.rest.drop (line.length + 1))
        set { s with rest := line ++ '\n' :: rest }
        if quoted then return some (.mk descriptor .here [.text text true])
        let (body, _) ← (pieces fuel .hereText).run { rest := text, line := s.line }
        return some (.mk descriptor .here body)
      | opening => return some (.mk descriptor opening target)

def redirections : Nat → Reader (List Redirection)
  | 0 => return []
  | fuel + 1 => do
    match ← redirection? fuel with
    | none => return []
    | some r => return r :: (← redirections fuel)

/-- A command of words, of which some have been read, the latest first; a definition if a
parenthesis follows its first word. -/
def simple : Nat → Nat → List (List Char × List Piece) → List (List Piece) → List Redirection →
    Reader Command
  | 0, _, _, _, _ => unexpected none
  | fuel + 1, line, assignments, ws, rs => do
    match ← redirection? fuel with
    | some r => simple fuel line assignments ws (r :: rs)
    | none =>
      let cs ← peek
      match cs, ws, if ws.isEmpty then assignmentAt? cs else none with
      | _, _, some name =>
        skip (name.length + 1)
        let value ← pieces fuel .bare
        simple fuel line ((name, value) :: assignments) ws rs
      | '(' :: _, [w], none =>
        skip 1
        expect ")"
        let (name, quoted) := literal w
        if quoted || !isName name then fail .functionName
        skipAllLines
        return .define name (← command fuel)
      | _, _, none =>
        let w ← pieces fuel .bare
        if !w.isEmpty then simple fuel line assignments (w :: ws) rs
        else if assignments.isEmpty && ws.isEmpty && rs.isEmpty then unexpected none
        else return .simple line assignments.reverse ws.reverse rs.reverse

end

/-- The chains of one line, of which none has been read yet. -/
def lineChains : Nat → Reader (List Command)
  | 0 => return []
  | fuel + 1 => do
    let c ← chain fuel
    skipBlank
    match ← peek with
    | [] => return [c]
    | '\n' :: _ =>
      skip 1
      return [c]
    | ';' :: ';' :: _ => unexpected none
    | ';' :: _ =>
      skip 1
      rest fuel c
    | '&' :: _ =>
      skip 1
      rest fuel (.background c)
    | _ => unexpected none
where
  rest (fuel : Nat) (c : Command) : Reader (List Command) := do
    skipBlank
    match ← peek with
    | [] => return [c]
    | '\n' :: _ =>
      skip 1
      return [c]
    | _ => return c :: (← lineChains fuel)

/-- The commands of the next line, if there is one. -/
def line? : Reader (Option (List Command)) := do
  skipAllLines
  let cs ← peek
  if cs.isEmpty then return none
  some <$> lineChains (8 * cs.length + 8)

end Reader

end ScriptFuzz.Shell
