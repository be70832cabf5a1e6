import ScriptFuzz.Shell.Syntax

/-!
# Printing

The texts that `echo` and `printf` write: escapes, and formats with directives for the arguments.
-/

namespace ScriptFuzz.Shell.Print

set_option autoImplicit false

/-- The characters that letters after a backslash stand for. -/
def letters : List (Char × Char) :=
  [('\\', '\\'), ('a', '\x07'), ('b', '\x08'), ('f', '\x0c'), ('n', '\n'), ('r', '\r'),
    ('t', '\t'), ('v', '\x0b')]

def isOctal (c : Char) : Bool := '0' ≤ c && c ≤ '7'

/-- The character that up to three octal digits at the front of a value denote, and the number of
the digits. -/
def octalAt (v : Value) : Char × Nat :=
  let digits := (v.take 3).takeWhile isOctal
  (Char.ofNat (digits.foldl (fun n c => n * 8 + (c.toNat - 48)) 0 % 256), digits.length)

/-- The character for what follows a backslash, and the length of what it stands for; a backslash
that escapes nothing stands for itself. -/
def escape (v : Value) : Char × Nat :=
  match v with
  | [] => ('\\', 0)
  | c :: _ =>
    if isOctal c then octalAt v
    else
      match letters.lookup c with
      | some d => (d, 1)
      | none => ('\\', 0)

/-- The value with its escapes replaced, and whether it asks for nothing more to be written. -/
def unescaped : Nat → Value → Value × Bool
  | 0, _ | _, [] => ([], false)
  | fuel + 1, '\\' :: v =>
    match v with
    | 'c' :: _ => ([], true)
    | _ =>
      let zero :=
        match v with
        | '0' :: d :: _ => isOctal d
        | _ => false
      let v := if zero then v.drop 1 else v
      let (c, length) := escape v
      let (out, stopped) := unescaped fuel (v.drop length)
      (c :: out, stopped)
  | fuel + 1, c :: v =>
    let (out, stopped) := unescaped fuel v
    (c :: out, stopped)

/-- What `echo` writes for its arguments. -/
def echoed (arguments : List Value) : Value :=
  let (quiet, arguments) :=
    match arguments with
    | ['-', 'n'] :: rest => (true, rest)
    | _ => (false, arguments)
  let text := [' '].intercalate arguments
  let (out, stopped) := unescaped (text.length + 1) text
  if quiet || stopped then out else out ++ ['\n']

/-- What the separate program of this name writes, which knows more switches and expands escapes
only if a switch asks for it. -/
def echoedPlainly (arguments : List Value) : Value :=
  let isSwitch (v : Value) : Bool :=
    match v with
    | '-' :: c :: cs => (c :: cs).all fun c => "neE".contains c
    | _ => false
  let switches := (arguments.takeWhile isSwitch).flatMap (·.drop 1)
  let text := [' '].intercalate (arguments.dropWhile isSwitch)
  let expands := (switches.filter (· ≠ 'n')).getLast? = some 'e'
  let (out, stopped) := if expands then unescaped (text.length + 1) text else (text, false)
  if switches.contains 'n' || stopped then out else out ++ ['\n']

/-- How a directive lays out its argument. -/
structure Layout where
  left : Bool := false
  plus : Bool := false
  blank : Bool := false
  alternate : Bool := false
  zeros : Bool := false
  width : Nat := 0
  precision : Option Nat := none

namespace Layout

def withFlag (l : Layout) : Char → Option Layout
  | '-' => some { l with left := true }
  | '+' => some { l with plus := true }
  | ' ' => some { l with blank := true }
  | '#' => some { l with alternate := true }
  | '0' => some { l with zeros := true }
  | _ => none

/-- Fills a text up to the width. -/
def pad (l : Layout) (v : Value) : Value :=
  let fill := List.replicate (l.width - v.length) ' '
  if l.left then v ++ fill else fill ++ v

/-- Lays out a number from its sign, which may be a mark of its base, and its digits. -/
def number (l : Layout) (sign digits : Value) : Value :=
  let least :=
    match l.precision with
    | some p => p
    | none => if l.zeros && !l.left then l.width - sign.length else 0
  l.pad (sign ++ List.replicate (least - digits.length) '0' ++ digits)

end Layout

/-- The number that an argument denotes, and the complaint about it. -/
def numberOf (v : Value) : Int × Option String :=
  match v with
  | [] => (0, none)
  | '\'' :: c :: _ | '"' :: c :: _ => (c.toNat, none)
  | _ =>
    let (sign, digits) : Int × Value :=
      match v with
      | '-' :: ds => (-1, ds)
      | '+' :: ds => (1, ds)
      | ds => (1, ds)
    let (base, digits) : Nat × Value :=
      match digits with
      | '0' :: 'x' :: ds | '0' :: 'X' :: ds => (16, ds)
      | '0' :: ds => (8, '0' :: ds)
      | ds => (10, ds)
    let value? (c : Char) : Option Nat :=
      (("0123456789abcdef".toList.idxOf? c).or ("0123456789ABCDEF".toList.idxOf? c)).filter
        (· < base)
    let used := digits.takeWhile fun c => (value? c).isSome
    let n := used.foldl (fun n c => n * base + (value? c).getD 0) 0
    let complaint :=
      if used = [] then some (v.toText ++ ": expected numeric value")
      else if used.length < digits.length then some (v.toText ++ ": not completely converted")
      else none
    (sign * n, complaint)

/-- What a format has written so far. -/
structure Printed where
  out : Value := []
  arguments : List Value
  complaints : List String := []
  /-- Whether nothing more is to be written, and whether that is a mistake. -/
  stopped : Option Bool := none

namespace Printed

def add (p : Printed) (v : Value) : Printed := { p with out := p.out ++ v }

def complain (p : Printed) (c : Option String) : Printed :=
  { p with complaints := p.complaints ++ c.toList }

/-- The next argument; nothing if there is none. -/
def next (p : Printed) : Value × Printed :=
  (p.arguments.headD [], { p with arguments := p.arguments.drop 1 })

end Printed

/-- Writes an argument as a directive tells. -/
def convert (l : Layout) (kind : Char) (p : Printed) : Printed :=
  let (v, p) := p.next
  let cut (v : Value) : Value :=
    match l.precision with
    | some n => v.take n
    | none => v
  match kind with
  | 's' => p.add (l.pad (cut v))
  | 'c' => p.add (l.pad (v.take 1))
  | 'b' =>
    let (out, stopped) := unescaped (v.length + 1) v
    let p := p.add (l.pad (cut out))
    if stopped then { p with stopped := some false } else p
  | _ =>
    let (n, complaint) := numberOf v
    let p := p.complain complaint
    let digits (base m : Nat) : Value := Nat.toDigits base m
    let unsigned := (n % 0x10000000000000000).toNat
    match kind with
    | 'd' | 'i' =>
      let sign :=
        if n < 0 then ['-'] else if l.plus then ['+'] else if l.blank then [' '] else []
      p.add (l.number sign (digits 10 n.natAbs))
    | 'u' => p.add (l.number [] (digits 10 unsigned))
    | 'o' => p.add (l.number [] ((if l.alternate then ['0'] else []) ++ digits 8 unsigned))
    | 'x' => p.add (l.number (if l.alternate then ['0', 'x'] else []) (digits 16 unsigned))
    | _ =>
      p.add (l.number (if l.alternate then ['0', 'X'] else [])
        ((digits 16 unsigned).map Char.toUpper))

/-- The number at the front of a value, where a star stands for the next argument, and what is
left. -/
def measure (v : Value) (p : Printed) : Option Nat × Value × Printed :=
  match v with
  | '*' :: rest =>
    let (a, p) := p.next
    (some (numberOf a).1.toNat, rest, p)
  | _ =>
    let digits := v.takeWhile Char.isDigit
    (Value.nat? digits, v.drop digits.length, p)

/-- The flags at the front of a value, and what is left. -/
def flags : Layout → Value → Layout × Value
  | l, [] => (l, [])
  | l, c :: v =>
    match l.withFlag c with
    | some l => flags l v
    | none => (l, c :: v)

/-- Goes through a format once. -/
def formatted : Nat → Value → Printed → Printed
  | 0, _, p | _, [], p => p
  | fuel + 1, c :: v, p =>
    if p.stopped.isSome then p
    else if c = '\\' then
      let (d, length) := escape v
      formatted fuel (v.drop length) (p.add [d])
    else if c ≠ '%' then formatted fuel v (p.add [c])
    else
      match v with
      | '%' :: v => formatted fuel v (p.add ['%'])
      | _ =>
        let (l, rest) := flags {} v
        let (width, rest, p) := measure rest p
        let (precision, rest, p) :=
          match rest with
          | '.' :: rest =>
            let (n, rest, p) := measure rest p
            (some (n.getD 0), rest, p)
          | _ => (none, rest, p)
        let l := { l with width := width.getD 0, precision }
        match rest with
        | [] => { p.complain (some "missing format character") with stopped := some true }
        | kind :: rest =>
          if "scbdiuoxX".contains kind then formatted fuel rest (convert l kind p)
          else
            let directive := String.ofList ('%' :: v.take (v.length - rest.length))
            { p.complain (some (directive ++ ": invalid directive")) with stopped := some true }

/-- Goes through a format until no argument is left, or once if it takes none. -/
def repeated : Nat → Value → Printed → Printed
  | 0, _, p => p
  | fuel + 1, format, p =>
    let before := p.arguments.length
    let p := formatted (format.length + 1) format p
    if p.stopped.isSome || p.arguments.isEmpty || p.arguments.length = before then p
    else repeated fuel format p

/-- What `printf` writes, its complaints, and its status. -/
def printed (format : Value) (arguments : List Value) : Value × List String × Nat :=
  let p := repeated (arguments.length + 1) format { arguments }
  let status := if p.stopped = some true then 2 else if p.complaints.isEmpty then 0 else 1
  (p.out, p.complaints, status)

end ScriptFuzz.Shell.Print
