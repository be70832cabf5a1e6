import ScriptFuzz.Shell.Pattern
import ScriptFuzz.Shell.Print

/-!
# Working on lines

What the utilities for text make of their input: counts, parts, replaced characters, and the lines
that an expression matches.
-/

namespace ScriptFuzz.Shell.Line

set_option autoImplicit false

/-- The lines of a value, with their ends. -/
def withEnds : Value → List Value
  | [] => []
  | '\n' :: v => ['\n'] :: withEnds v
  | c :: v =>
    match withEnds v with
    | [] => [[c]]
    | l :: ls => (c :: l) :: ls

/-- A line without its end. -/
def body (line : Value) : Value := line.filter (· ≠ '\n')

/-- The numbers of lines, words and bytes. -/
def counts (v : Value) : Nat × Nat × Nat :=
  let isBlank (c : Char) : Bool := " \t\n\x0b\x0c\r".contains c
  let words := (v.zip (' ' :: v)).countP fun (c, before) => !isBlank c && isBlank before
  (v.count '\n', words, v.length)

/-- The first lines, so many of them, or all but so many of the last. -/
def first (fromEnd : Bool) (n : Nat) (v : Value) : Value :=
  let ls := withEnds v
  (ls.take (if fromEnd then ls.length - n else n)).flatten

/-- The last lines, so many of them, or those from the line with the number. -/
def last (fromStart : Bool) (n : Nat) (v : Value) : Value :=
  let ls := withEnds v
  (ls.drop (if fromStart then n - 1 else ls.length - n)).flatten

def field (width n : Nat) : Value := ({ width } : Print.Layout).pad (Value.ofNat n)

/-- The lines with their numbers, where the first has the number `n`. -/
def numbered (n : Nat) (v : Value) : Value :=
  ((withEnds v).zipIdx n).flatMap fun (l, k) => field 6 k ++ '\t' :: l

/-! ## Sets of characters -/

/-- The members of classes of characters. -/
def classes : List (String × (Char → Bool)) :=
  [("upper", Char.isUpper), ("lower", Char.isLower), ("alpha", Char.isAlpha),
    ("digit", Char.isDigit), ("alnum", Char.isAlphanum),
    ("space", fun c => " \t\n\x0b\x0c\r".contains c), ("blank", fun c => c = ' ' || c = '\t'),
    ("punct", fun c => '!' ≤ c && c ≤ '~' && !c.isAlphanum)]

/-- Every byte as a character, ascending. -/
def allCharacters : Value := (List.range 256).map Char.ofNat

/-- The characters that a set denotes, in order. -/
def members : Nat → Value → Value
  | 0, _ | _, [] => []
  | fuel + 1, c :: v =>
    let named? : Option (String × (Char → Bool)) :=
      match c :: v with
      | '[' :: ':' :: rest =>
        classes.find? fun (name, _) => (name ++ ":]").toList.isPrefixOf rest
      | _ => none
    match named? with
    | some (name, isMember) =>
      allCharacters.filter isMember ++ members fuel (v.drop (name.length + 3))
    | none =>
      let (lo, v) : Char × Value :=
        if c = '\\' ∧ v ≠ [] then
          let (d, length) := Print.escape v
          (d, v.drop length)
        else (c, v)
      match v with
      | '-' :: hi :: rest =>
        ((List.range (hi.toNat + 1)).drop lo.toNat).map Char.ofNat ++ members fuel rest
      | _ => lo :: members fuel v

/-- What is done with the characters of a set. -/
structure Replacement where
  complement : Bool := false
  deletes : Bool := false
  squeezes : Bool := false

/-- Leaves one of equal neighbours of a set. -/
def squeezed (isMember : Char → Bool) : Value → Value
  | c :: d :: v =>
    if c = d ∧ isMember c then squeezed isMember (d :: v) else c :: squeezed isMember (d :: v)
  | v => v

/-- Replaces, deletes or squeezes the characters of sets. -/
def replaced (r : Replacement) (source target v : Value) : Value :=
  let isMember (c : Char) : Bool := source.contains c != r.complement
  if r.deletes then
    let v := v.filter fun c => !isMember c
    if r.squeezes then squeezed target.contains v else v
  else if target = [] then squeezed isMember v
  else
    let source := if r.complement then allCharacters.filter isMember else source
    let v := v.map fun c =>
      match source.idxOf? c with
      | some n => (target[n]?).getD (target.getLast?.getD c)
      | none => c
    if r.squeezes then squeezed target.contains v else v

/-! ## Expressions that match parts of lines -/

/-- Some character, which may stand any number of times in a row. -/
structure Step where
  atom : Pattern.Atom
  times : Bool := false

/-- An expression: steps, and whether they start and end where the line does. -/
structure Expression where
  atStart : Bool := false
  steps : List Step := []
  atEnd : Bool := false

/-- The steps of an expression, and whether it ends with the line. -/
def steps : Nat → Value → List Step × Bool
  | 0, _ | _, [] => ([], false)
  | _, ['$'] => ([], true)
  | fuel + 1, c :: v =>
    let (atom, v) : Pattern.Atom × Value :=
      match c, v with
      | '.', _ => (.anyOne, v)
      | '\\', d :: v => (.exactly d, v)
      | '[', _ =>
        let negated := v.head? = some '^'
        match Pattern.members? true ((v.drop (if negated then 1 else 0)).map (·, false)) with
        | some (cs, rest) => (.oneOf negated (Pattern.ranges cs), rest.map (·.1))
        | none => (.exactly c, v)
      | _, _ => (.exactly c, v)
    let times := v.head? = some '*'
    let (rest, atEnd) := steps fuel (if times then v.drop 1 else v)
    ({ atom, times } :: rest, atEnd)

def expression (fixed : Bool) (v : Value) : Expression :=
  if fixed then { steps := v.map fun c => { atom := .exactly c } }
  else
    let atStart := v.head? = some '^'
    let (steps, atEnd) := steps (v.length + 1) (if atStart then v.drop 1 else v)
    { atStart, steps, atEnd }

/-- The lengths of the parts at the front of a line that the steps match, as long ones first. -/
def fits : List Step → Value → List Nat
  | [], _ => [0]
  | ⟨atom, true⟩ :: ss, c :: v =>
    (if atom.accepts c then (fits (⟨atom, true⟩ :: ss) v).map (· + 1) else []) ++ fits ss (c :: v)
  | ⟨_, true⟩ :: ss, [] => fits ss []
  | ⟨atom, false⟩ :: ss, c :: v => if atom.accepts c then (fits ss v).map (· + 1) else []
  | ⟨_, false⟩ :: _, [] => []
termination_by ss v => ss.length + v.length

/-- The length of the part at the front of a line that an expression matches. -/
def Expression.fit? (e : Expression) (v : Value) : Option Nat :=
  (fits e.steps v).find? fun n => !e.atEnd || n = v.length

/-- The parts of a line that an expression matches, from left to right. -/
def Expression.parts (e : Expression) : Bool → Nat → Value → List Value
  | _, 0, _ => []
  | isStart, fuel + 1, v =>
    match if e.atStart && !isStart then none else e.fit? v, v with
    | some (n + 1), _ => v.take (n + 1) :: e.parts false fuel (v.drop (n + 1))
    | some 0, [] => [[]]
    | some 0, _ :: rest => [] :: e.parts false fuel rest
    | none, [] => []
    | none, _ :: rest => e.parts false fuel rest

def Expression.matches (e : Expression) (v : Value) : Bool :=
  !(e.parts true (v.length + 1) v).isEmpty

end ScriptFuzz.Shell.Line
