import ScriptFuzz.Shell.Syntax

/-!
# Patterns

A pattern is a sequence of atoms, each of which stands for one character but for the one that stands
for any number of them.
-/

namespace ScriptFuzz.Shell

set_option autoImplicit false

/-- A character of an expanded word, and whether it is quoted and so stands for itself. -/
abbrev Mark := Char × Bool

namespace Pattern

inductive Atom where
  | exactly (c : Char)
  | anyOne
  | anyMany
  /-- A character of one of the ranges, or of none of them. -/
  | oneOf (negated : Bool) (ranges : List (Char × Char))

/-- Whether an atom stands for the character. -/
def Atom.accepts (c : Char) : Atom → Bool
  | exactly a => a = c
  | anyOne | anyMany => true
  | oneOf negated ranges => (ranges.any fun (lo, hi) => lo ≤ c && c ≤ hi) != negated

/-- The members of a set up to the closing bracket, which may itself be the first member, and what
is left. -/
def members? : Bool → List Mark → Option (Value × List Mark)
  | _, [] => none
  | first, (c, quoted) :: ms =>
    if c = ']' && !quoted && !first then some ([], ms)
    else (members? false ms).map fun (cs, rest) => (c :: cs, rest)

/-- The ranges that the members of a set form. -/
def ranges : Value → List (Char × Char)
  | lo :: dash :: hi :: cs =>
    if dash = '-' then (lo, hi) :: ranges cs else (lo, lo) :: ranges (dash :: hi :: cs)
  | [a, b] => [(a, a), (b, b)]
  | [a] => [(a, a)]
  | [] => []

theorem members?_length {first : Bool} {ms rest : List Mark} {cs : Value}
    (h : members? first ms = some (cs, rest)) : rest.length < ms.length := by
  induction ms generalizing first rest cs with
  | nil => simp [members?] at h
  | cons m ms ih =>
    obtain ⟨c, quoted⟩ := m
    simp only [members?] at h
    split at h
    · simp_all
    · obtain ⟨⟨ds, r⟩, hm, he⟩ := Option.map_eq_some_iff.1 h
      simp only [Prod.mk.injEq] at he
      have := ih hm
      simp [← he.2]
      omega

/-- The atoms of an expanded word. -/
def atoms (ms : List Mark) : List Atom :=
  match ms with
  | [] => []
  | (c, quoted) :: ms =>
    if quoted then .exactly c :: atoms ms
    else if c = '*' then .anyMany :: atoms ms
    else if c = '?' then .anyOne :: atoms ms
    else if c = '[' then
      let negated := ms.head? = some ('!', false)
      match h : members? true (ms.drop (if negated then 1 else 0)) with
      | some (cs, rest) =>
        have := members?_length h
        .oneOf negated (ranges cs) :: atoms rest
      | none => .exactly c :: atoms ms
    else .exactly c :: atoms ms
termination_by ms.length
decreasing_by all_goals simp_all <;> omega

def accepts : List Atom → Value → Bool
  | [], cs => cs.isEmpty
  | .anyMany :: as, cs =>
    accepts as cs ||
      match cs with
      | [] => false
      | _ :: rest => accepts (.anyMany :: as) rest
  | a :: as, c :: cs => a.accepts c && accepts as cs
  | _ :: _, [] => false
termination_by as cs => as.length + cs.length

/-- Whether a word has a character that does not stand for itself. -/
def isPattern (ms : List Mark) : Bool :=
  ms.any fun (c, quoted) => !quoted && (c = '*' || c = '?' || c = '[')

/-- The value with a part that the pattern stands for taken from one end: the longest such part, or
the shortest. -/
def trim (fromEnd longest : Bool) (pattern : List Mark) (value : Value) : Value :=
  let as := atoms pattern
  let cuts := List.range (value.length + 1)
  let ordered := if longest = fromEnd then cuts else cuts.reverse
  match ordered.find? fun n =>
      accepts as (if fromEnd then value.drop n else value.take n) with
  | some n => if fromEnd then value.take n else value.drop n
  | none => value

end Pattern

end ScriptFuzz.Shell
