import ScriptFuzz.Python.Quoted
import ScriptFuzz.Number.Notation
import ScriptFuzz.Proofs.Number.Digits
import ScriptFuzz.Proofs.Number.ReadBack
import ScriptFuzz.Proofs.Text.Hex

/-!
# Tokens of the target language

`Lexer.tokens` splits the text of an expression into tokens, by the rules of the target language for
names, numerals, string literals and symbols. Only symbols that occur in expressions are known; what starts
with anything else has no tokens.
-/

namespace ScriptFuzz.Python

set_option autoImplicit false

open ScriptFuzz.Number ScriptFuzz.Text

/-- The symbols and reserved words of expressions. -/
inductive Symbol where
  | plus
  | minus
  | tilde
  | star
  | doubleStar
  | slash
  | doubleSlash
  | percent
  | ampersand
  | bar
  | caret
  | shiftLeft
  | shiftRight
  | less
  | lessEqual
  | greater
  | greaterEqual
  | doubleEqual
  | notEqual
  | openParen
  | closeParen
  | openBracket
  | closeBracket
  | comma
  | point
  | orWord
  | andWord
  | notWord
  | isWord
  | ifWord
  | elseWord
  | trueWord
  | falseWord
  | noneWord
deriving DecidableEq

/-- A token. -/
inductive Token where
  | symbol (s : Symbol)
  | name (text : String)
  | int (value : Nat)
  | float (value : Binary64)
  | string (value : String)
deriving DecidableEq

/-- What was read and what is left, which must be shorter than `n`. -/
def within {α β : Type} (n : Nat) (x : Option (α × List β)) :
    Option (α × {rest : List β // rest.length < n}) := do
  let (a, rest) ← x
  if h : rest.length < n then return (a, ⟨rest, h⟩) else none

@[simp]
theorem within_none {α β : Type} (n : Nat) : within n (none : Option (α × List β)) = none := rfl

theorem within_some {α β : Type} {n : Nat} {a : α} {rest : List β} (h : rest.length < n) :
    within n (some (a, rest)) = some (a, ⟨rest, h⟩) :=
  dif_pos h

theorem within_append {α β : Type} (a : α) (read rest : List β) :
    within ((read ++ rest).length + 1) (some (a, rest)) =
      some (a, ⟨rest, Nat.lt_succ_of_le (List.suffix_append read rest).length_le⟩) :=
  within_some _

namespace Lexer

/-- Whether a character may start a word. All characters beyond ASCII count as letters. -/
def startsWord (c : Char) : Bool := startsName c || 0x80 ≤ c.toNat

/-- Whether a character may continue a word. -/
def continuesWord (c : Char) : Bool := continuesName c || 0x80 ≤ c.toNat

/-- The reserved words that occur in expressions. -/
def reserved? (text : String) : Option Symbol :=
  if text = "or" then some .orWord
  else if text = "and" then some .andWord
  else if text = "not" then some .notWord
  else if text = "is" then some .isWord
  else if text = "if" then some .ifWord
  else if text = "else" then some .elseWord
  else if text = "True" then some .trueWord
  else if text = "False" then some .falseWord
  else if text = "None" then some .noneWord
  else none

/-- A reserved word or a name. -/
def word (text : String) : Option Token :=
  if keywords.contains text then (reserved? text).map .symbol else some (.name text)

/-- Whether a character starts neither a word nor a literal. -/
def startsSymbol (c : Char) : Bool :=
  !(startsWord c || c.isDigit || c = ' ' || c = '"' || c = '\'')

/-- The longest symbol that starts a text. -/
def symbol : List Char → Option (Token × List Char)
  | '*' :: '*' :: cs => some (.symbol .doubleStar, cs)
  | '/' :: '/' :: cs => some (.symbol .doubleSlash, cs)
  | '<' :: '<' :: cs => some (.symbol .shiftLeft, cs)
  | '>' :: '>' :: cs => some (.symbol .shiftRight, cs)
  | '<' :: '=' :: cs => some (.symbol .lessEqual, cs)
  | '>' :: '=' :: cs => some (.symbol .greaterEqual, cs)
  | '=' :: '=' :: cs => some (.symbol .doubleEqual, cs)
  | '!' :: '=' :: cs => some (.symbol .notEqual, cs)
  | '+' :: cs => some (.symbol .plus, cs)
  | '-' :: cs => some (.symbol .minus, cs)
  | '~' :: cs => some (.symbol .tilde, cs)
  | '*' :: cs => some (.symbol .star, cs)
  | '/' :: cs => some (.symbol .slash, cs)
  | '%' :: cs => some (.symbol .percent, cs)
  | '&' :: cs => some (.symbol .ampersand, cs)
  | '|' :: cs => some (.symbol .bar, cs)
  | '^' :: cs => some (.symbol .caret, cs)
  | '<' :: cs => some (.symbol .less, cs)
  | '>' :: cs => some (.symbol .greater, cs)
  | '(' :: cs => some (.symbol .openParen, cs)
  | ')' :: cs => some (.symbol .closeParen, cs)
  | '[' :: cs => some (.symbol .openBracket, cs)
  | ']' :: cs => some (.symbol .closeBracket, cs)
  | ',' :: cs => some (.symbol .comma, cs)
  | '.' :: cs => some (.symbol .point, cs)
  | _ => none

/-- The number that digits stand for. -/
def decimal (ds : List Char) : Nat := Nat.ofDigitChars 10 ds 0

/-- The digits after a point, if there is a point, and what follows. -/
def fraction : List Char → Option (List Char) × List Char
  | '.' :: cs => (some (cs.takeWhile Char.isDigit), cs.dropWhile Char.isDigit)
  | cs => (none, cs)

/-- A sign and what follows. -/
def sign : List Char → Int × List Char
  | '-' :: cs => (-1, cs)
  | '+' :: cs => (1, cs)
  | cs => (1, cs)

/-- An exponent, if there is one, and what follows. -/
def exponent : List Char → Option Int × List Char
  | [] => (none, [])
  | c :: cs =>
    let (factor, rest) := sign cs
    if (c = 'e' ∨ c = 'E') ∧ rest.takeWhile Char.isDigit ≠ [] then
      (some (factor * decimal (rest.takeWhile Char.isDigit)), rest.dropWhile Char.isDigit)
    else (none, c :: cs)

/-- A numeral. It is a float if it has a point or an exponent; an integer other than zero does not start
with a zero. -/
def number (cs : List Char) : Option (Token × List Char) :=
  let whole := cs.takeWhile Char.isDigit
  let (point, rest) := fraction (cs.dropWhile Char.isDigit)
  let (power, rest) := exponent rest
  if point.isNone ∧ power.isNone then
    if whole.head? = some '0' ∧ decimal whole ≠ 0 then none
    else some (.int (decimal whole), rest)
  else
    let places := point.getD []
    let d : Decimal := ⟨decimal (whole ++ places), power.getD 0 - places.length⟩
    some (.float d.nearest, rest)

/-- A character that is given by its number. -/
def coded (places : Nat) (cs : List Char) : Option (Char × List Char) := do
  let n ← Hex.number? (cs.take places)
  if places ≤ cs.length ∧ n.isValidChar then return (Char.ofNat n, cs.drop places) else none

/-- A character of a literal, which may be escaped, and what follows. -/
def character : List Char → Option (Char × List Char)
  | '\\' :: '\\' :: cs => some ('\\', cs)
  | '\\' :: '"' :: cs => some ('"', cs)
  | '\\' :: '\'' :: cs => some ('\'', cs)
  | '\\' :: 'n' :: cs => some ('\n', cs)
  | '\\' :: 'r' :: cs => some ('\r', cs)
  | '\\' :: 't' :: cs => some ('\t', cs)
  | '\\' :: 'x' :: cs => coded 2 cs
  | '\\' :: 'u' :: cs => coded 4 cs
  | '\\' :: 'U' :: cs => coded 8 cs
  | c :: cs => if c = '\\' ∨ c = '\n' ∨ c = '\r' then none else some (c, cs)
  | [] => none

/-- The characters up to the end of a literal, and what follows. -/
def characters (delimiter : Char) : List Char → Option (List Char × List Char)
  | [] => none
  | c :: cs =>
    if c = delimiter then some ([], cs)
    else do
      let (first, rest) ← within (cs.length + 1) (character (c :: cs))
      let (others, rest) ← characters delimiter rest
      return (first :: others, rest)
termination_by cs => cs.length
decreasing_by exact rest.property

/-- The first token, and what follows. -/
def token : List Char → Option (Token × List Char)
  | [] => none
  | c :: cs =>
    if startsWord c then do
      let t ← word (String.ofList (c :: cs.takeWhile continuesWord))
      return (t, cs.dropWhile continuesWord)
    else if c.isDigit then number (c :: cs)
    else if c = '"' ∨ c = '\'' then do
      let (text, rest) ← characters c cs
      return (.string (String.ofList text), rest)
    else symbol (c :: cs)

/-- The tokens of a text. -/
def tokens : List Char → Option (List Token)
  | [] => some []
  | c :: cs =>
    if c = ' ' then tokens cs
    else do
      let (t, rest) ← within (cs.length + 1) (token (c :: cs))
      return t :: (← tokens rest)
termination_by cs => cs.length
decreasing_by
  · exact Nat.lt_succ_self _
  · exact rest.property

/-- A text does not continue a word or a numeral. -/
def Separates (rest : List Char) : Prop := ∀ c ∈ rest.head?, continuesWord c = false ∧ c ≠ '.'

theorem continuesWord_of_isDigit {c : Char} (h : c.isDigit = true) : continuesWord c = true := by
  simp [continuesWord, continuesName, Char.isAlphanum, h]

theorem Separates.isDigit {rest : List Char} (h : Separates rest) :
    ∀ c ∈ rest.head?, c.isDigit = false := by
  intro c hc
  by_contra hd
  rw [Bool.not_eq_false] at hd
  have := (h c hc).1
  rw [continuesWord_of_isDigit hd] at this
  cases this

theorem fraction_of_separates {rest : List Char} (h : ∀ c ∈ rest.head?, c ≠ '.') :
    fraction rest = (none, rest) := by
  unfold fraction
  split
  · exact absurd rfl (h '.' rfl)
  · rfl

theorem exponent_of_separates {rest : List Char} (h : Separates rest) :
    exponent rest = (none, rest) := by
  cases rest with
  | nil => rfl
  | cons c cs =>
    have hc : ¬ ((c = 'e' ∨ c = 'E') ∧ (sign cs).2.takeWhile Char.isDigit ≠ []) := by
      rintro ⟨rfl | rfl, -⟩
      · exact absurd (h 'e' rfl).1 (by decide)
      · exact absurd (h 'E' rfl).1 (by decide)
    simp only [exponent]
    rw [if_neg hc]

theorem decimal_toDigits (n : Nat) : decimal (Nat.toDigits 10 n) = n :=
  Nat.ofDigitChars_ten_toDigits

/-- A numeral, from the readings of its parts. -/
theorem number_append {whole tail tail' rest : List Char} {point : Option (List Char)}
    {power : Option Int} (hwhole : ∀ c ∈ whole, c.isDigit = true)
    (htail : ∀ c ∈ tail.head?, c.isDigit = false) (hpoint : fraction tail = (point, tail'))
    (hpower : exponent tail' = (power, rest)) :
    number (whole ++ tail) =
      if point.isNone ∧ power.isNone then
        if whole.head? = some '0' ∧ decimal whole ≠ 0 then none
        else some (.int (decimal whole), rest)
      else some (.float (Decimal.mk (decimal (whole ++ point.getD []))
        (power.getD 0 - (point.getD []).length)).nearest, rest) := by
  obtain ⟨htake, hdrop⟩ := takeWhile_append hwhole htail
  unfold number
  rw [htake, hdrop, hpoint]
  dsimp only
  rw [hpower]

theorem number_toDigits {rest : List Char} (n : Nat) (h : Separates rest) :
    number (Nat.toDigits 10 n ++ rest) = some (.int n, rest) := by
  rw [number_append isDigit_of_mem_toDigits h.isDigit
    (fraction_of_separates fun c hc => (h c hc).2) (exponent_of_separates h), decimal_toDigits,
    if_pos ⟨rfl, rfl⟩, if_neg]
  rintro ⟨hhead, hne⟩
  exact hne (head_toDigits hhead)

theorem sign_of_isDigit {cs : List Char} (h : ∀ c ∈ cs.head?, c.isDigit = true) :
    sign cs = (1, cs) := by
  unfold sign
  split
  · exact absurd (h '-' rfl) (by decide)
  · exact absurd (h '+' rfl) (by decide)
  · rfl

/-- An exponent is read as the number it is written for. -/
theorem exponent_toString {rest : List Char} (e : Int) (h : Separates rest) :
    exponent ('e' :: ((toString e).toList ++ rest)) = (some e, rest) := by
  have hdigits (n : Nat) := takeWhile_append (isDigit_of_mem_toDigits (n := n)) h.isDigit
  rw [toList_toString]
  split
  · rename_i he
    obtain ⟨htake, hdrop⟩ := hdigits e.toNat
    simp only [exponent, sign_of_isDigit (head_toDigits_append _ rest)]
    rw [htake, hdrop, if_pos ⟨.inl trivial, Nat.toDigits_ne_nil⟩, decimal_toDigits, one_mul,
      Int.toNat_of_nonneg he]
  · rename_i he
    obtain ⟨htake, hdrop⟩ := hdigits (-e).toNat
    simp only [exponent, List.cons_append, sign]
    rw [htake, hdrop, if_pos ⟨.inl trivial, Nat.toDigits_ne_nil⟩, decimal_toDigits]
    congr 2
    omega

theorem number_of_point (whole places : List Char) {tail rest : List Char} {power : Option Int}
    (hwhole : ∀ c ∈ whole, c.isDigit = true) (hplaces : ∀ c ∈ places, c.isDigit = true)
    (htail : ∀ c ∈ tail.head?, c.isDigit = false) (hpower : exponent tail = (power, rest)) :
    number (whole ++ '.' :: (places ++ tail)) =
      some (.float (Decimal.mk (decimal (whole ++ places))
        (power.getD 0 - places.length)).nearest, rest) := by
  obtain ⟨htake, hdrop⟩ := takeWhile_append hplaces htail
  have hpoint : fraction ('.' :: (places ++ tail)) = (some places, tail) := by
    rw [fraction, htake, hdrop]
  rw [number_append hwhole (by simp) hpoint hpower, if_neg (by simp)]
  rfl

/-- A numeral with an exponent only. -/
theorem number_of_exponent {whole tail rest : List Char} {power : Int}
    (hwhole : ∀ c ∈ whole, c.isDigit = true) (htail : ∀ c ∈ tail.head?, c.isDigit = false ∧ c ≠ '.')
    (hpower : exponent tail = (some power, rest)) :
    number (whole ++ tail) = some (.float (Decimal.mk (decimal whole) power).nearest, rest) := by
  rw [number_append hwhole (fun c hc => (htail c hc).1)
    (fraction_of_separates fun c hc => (htail c hc).2) hpower, if_neg (by simp)]
  simp

theorem decimal_append (a b : List Char) : decimal (a ++ b) = decimal a * 10 ^ b.length + decimal b := by
  unfold decimal
  rw [Nat.ofDigitChars_append, Nat.ofDigitChars_eq_ofDigitChars_zero, Nat.mul_comm]

theorem decimal_replicate (n : Nat) : decimal (List.replicate n '0') = 0 := by
  unfold decimal
  rw [Nat.ofDigitChars_replicate_zero, Nat.mul_zero]

theorem decimal_text (d : Decimal) : decimal d.text = d.digits :=
  Decimal.text_eq d ▸ decimal_toDigits _

/-- A positional numeral reads as a decimal of the same value. -/
theorem number_positionalText {d : Decimal} {rest : List Char} (h : Separates rest) :
    ∃ d' : Decimal, d'.value = d.value ∧
      number (positionalText true d.text (d.exponent + d.text.length - 1) ++ rest) =
        some (.float d'.nearest, rest) := by
  have hexponent := exponent_of_separates h
  have hlength : 0 < d.text.length := by
    rw [Decimal.text_eq]
    exact Nat.length_toDigits_pos
  generalize hlead : d.exponent + d.text.length - 1 = lead
  unfold positionalText
  split
  · -- Zeros stand between the point and the digits.
    refine ⟨_, ?_, number_of_point ['0']
      (List.replicate (-lead - 1).toNat '0' ++ d.text) (List.forall_mem_singleton.mpr rfl)
      (List.forall_mem_append.mpr ⟨isDigit_of_mem_replicate _, Decimal.isDigit_of_mem_text⟩) h.isDigit
      hexponent⟩
    have hplaces : ((List.replicate (-lead - 1).toNat '0' ++ d.text).length : Int) =
        -d.exponent := by
      rw [List.length_append, List.length_replicate]
      omega
    rw [hplaces, decimal_append, decimal_append, decimal_replicate, decimal_text]
    simp [Decimal.value, decimal, Nat.ofDigitChars]
  · dsimp only
    split
    · -- Zeros stand between the digits and the point.
      rw [if_pos rfl, List.append_assoc _ _ rest]
      refine ⟨_, ?_, number_of_point _ ['0']
        (List.forall_mem_append.mpr ⟨Decimal.isDigit_of_mem_text, isDigit_of_mem_replicate _⟩)
        (List.forall_mem_singleton.mpr rfl) h.isDigit hexponent⟩
      have hzeros : d.exponent = (lead.toNat + 1 - d.text.length : Nat) := by omega
      rw [decimal_append, decimal_append, decimal_replicate, decimal_text, List.length_replicate,
        Decimal.value, Decimal.value, hzeros, zpow_natCast]
      simp [decimal, Nat.ofDigitChars]
    · -- The point stands between digits.
      rw [List.append_assoc]
      refine ⟨_, ?_, number_of_point _ _ (fun c hc => Decimal.isDigit_of_mem_text c (List.mem_of_mem_take hc))
        (fun c hc => Decimal.isDigit_of_mem_text c (List.mem_of_mem_drop hc)) h.isDigit hexponent⟩
      have hplaces : ((d.text.drop (lead.toNat + 1)).length : Int) = -d.exponent := by
        rw [List.length_drop]
        omega
      rw [hplaces, List.take_append_drop, decimal_text]
      simp [Decimal.value]

/-- A numeral with an exponent reads as a decimal of the same value. -/
theorem number_scientificText {d : Decimal} {rest : List Char} (h : Separates rest) :
    ∃ d' : Decimal, d'.value = d.value ∧
      number (scientificText false d.text (d.exponent + d.text.length - 1) ++ rest) =
        some (.float d'.nearest, rest) := by
  have hexponent := exponent_toString (d.exponent + d.text.length - 1) h
  have hmarker (cs : List Char) : ∀ c ∈ ('e' :: cs).head?, c.isDigit = false ∧ c ≠ '.' := by
    rintro _ ⟨⟩
    decide
  have hdigits := Decimal.isDigit_of_mem_text (d := d)
  have hvalue := decimal_text d
  cases hds : d.text with
  | nil =>
    rw [Decimal.text_eq] at hds
    exact absurd hds Nat.toDigits_ne_nil
  | cons first others =>
    rw [hds] at hdigits hvalue hexponent
    have hfirst : ∀ c ∈ [first], c.isDigit = true := by
      simpa using hdigits first List.mem_cons_self
    cases others with
    | nil =>
      have hshape (e : Int) : scientificText false [first] e ++ rest =
          [first] ++ 'e' :: ((toString e).toList ++ rest) := by
        simp [scientificText]
      rw [hshape]
      refine ⟨_, ?_, number_of_exponent hfirst (hmarker _) hexponent⟩
      rw [hvalue]
      simp [Decimal.value]
    | cons second others =>
      have hshape (e : Int) : scientificText false (first :: second :: others) e ++ rest =
          [first] ++ '.' :: (second :: others ++ 'e' :: ((toString e).toList ++ rest)) := by
        simp [scientificText]
      rw [hshape]
      refine ⟨_, ?_, number_of_point _ _ hfirst (fun c hc => hdigits c (List.mem_cons_of_mem _ hc))
        (fun c hc => (hmarker _ c hc).1) hexponent⟩
      have hplaces : (some (d.exponent + (first :: second :: others).length - 1)).getD 0 -
          ((second :: others).length : Int) = d.exponent := by
        simp only [List.length_cons, Option.getD_some]
        omega
      rw [hplaces, List.singleton_append, hvalue]

/-- The source text of a number that is not negative reads as that number. -/
theorem number_source {x : Binary64} {rest : List Char} (hfinite : x.isFinite = true)
    (hpos : x.isNegative = false) (h : Separates rest) :
    number ((Layout.source.text x).toList ++ rest) = some (.float x, rest) := by
  obtain ⟨hnan, hinfinite⟩ := Binary64.isFinite_iff.mp hfinite
  unfold Layout.text
  rw [hnan, hinfinite, hpos, if_neg Bool.false_ne_true]
  dsimp only
  rw [if_neg Bool.false_ne_true, if_neg Bool.false_ne_true, String.toList_ofList]
  split
  · rename_i hzero
    rw [Binary64.eq_zero_of_isZero hpos hzero]
    refine (number_of_point ['0'] ['0'] (List.forall_mem_singleton.mpr rfl)
      (List.forall_mem_singleton.mpr rfl) h.isDigit (exponent_of_separates h)).trans ?_
    rfl
  · rename_i hzero
    rw [Bool.not_eq_true] at hzero
    have hnumber : ∃ d' : Decimal, d'.value = (x.shortest .up).value ∧
        number (Layout.source.decimalText (x.shortest .up) ++ rest) =
          some (.float d'.nearest, rest) := by
      simp only [Layout.decimalText]
      split
      · exact number_positionalText h
      · exact number_scientificText h
    obtain ⟨d, hvalue, hnumber⟩ := hnumber
    exact hnumber.trans (by rw [Binary64.nearest_of_value_eq hfinite hpos hzero hvalue])

/-- The source text of a number that is not negative starts with a digit. -/
theorem head_source {x : Binary64} (hfinite : x.isFinite = true) (hpos : x.isNegative = false) :
    ∃ c cs, (Layout.source.text x).toList = c :: cs ∧ c.isDigit = true := by
  obtain ⟨hnan, hinfinite⟩ := Binary64.isFinite_iff.mp hfinite
  have hpositional {first : Char} (others : List Char) (lead : Int) (h : first.isDigit = true) :
      ∃ c cs, positionalText true (first :: others) lead = c :: cs ∧ c.isDigit = true := by
    unfold positionalText
    split
    · exact ⟨_, _, rfl, by decide⟩
    · dsimp only
      split
      · exact ⟨_, _, rfl, h⟩
      · exact ⟨_, _, rfl, h⟩
  unfold Layout.text
  rw [hnan, hinfinite, hpos, if_neg Bool.false_ne_true]
  dsimp only
  rw [if_neg Bool.false_ne_true, if_neg Bool.false_ne_true, String.toList_ofList]
  split
  · exact hpositional [] 0 (by decide)
  · have hdigits := Decimal.isDigit_of_mem_text (d := x.shortest .up)
    simp only [Layout.decimalText]
    cases hds : (x.shortest Layout.source.tie).text with
    | nil =>
      rw [Decimal.text_eq] at hds
      exact absurd hds Nat.toDigits_ne_nil
    | cons first others =>
      have hfirst : first.isDigit = true := by
        refine hdigits first ?_
        rw [show x.shortest .up = x.shortest Layout.source.tie from rfl, hds]
        exact List.mem_cons_self
      split
      · exact hpositional others _ hfirst
      · exact ⟨_, _, rfl, hfirst⟩

/-- The source text of a negative number is that of its opposite, after a sign. -/
theorem toList_source_of_isNegative {x : Binary64} (hfinite : x.isFinite = true)
    (hneg : x.isNegative = true) :
    (Layout.source.text x).toList = '-' :: (Layout.source.text x.negate).toList := by
  simp only [Binary64.isFinite, bne_iff_ne] at hfinite
  simp [Layout.text, Binary64.isNaN, Binary64.isInfinite, Binary64.isZero,
    Binary64.exponentField_negate, Binary64.fractionField_negate, Binary64.isNegative_negate,
    Binary64.shortest_negate, hfinite, hneg]

theorem coded_digits (places : Nat) {c : Char} (h : c.toNat < 16 ^ places) (rest : List Char) :
    coded places (Hex.digits places c.toNat ++ rest) = some (c, rest) := by
  have hlength := Hex.length_digits places c.toNat
  have htake : (Hex.digits places c.toNat ++ rest).take places = Hex.digits places c.toNat :=
    List.take_left' hlength
  have hdrop : (Hex.digits places c.toNat ++ rest).drop places = rest := List.drop_left' hlength
  have hvalid : c.toNat.isValidChar := c.valid
  unfold coded
  rw [htake, hdrop, Hex.number?_digits_of_lt h]
  change (if _ then some (Char.ofNat c.toNat, rest) else none) = _
  rw [if_pos ⟨by simp, hvalid⟩, Char.ofNat_toNat]

/-- A character of a quoted text reads as itself. -/
theorem character_quoteChar (c : Char) (rest : List Char) :
    character (quoteChar c ++ rest) = some (c, rest) := by
  unfold quoteChar
  split
  · rfl
  · rfl
  · rfl
  · rfl
  · rfl
  · rename_i hbackslash hquote hnewline hreturn htab
    split
    · rename_i hcontrol
      refine coded_digits 2 ?_ rest
      simp only [Bool.or_eq_true, decide_eq_true_eq] at hcontrol
      omega
    · split
      · simp only [List.cons_append, List.nil_append]
        unfold character
        split <;> simp_all
      · split
        · refine coded_digits 4 ?_ rest
          omega
        · refine coded_digits 8 ?_ rest
          have hvalid : c.toNat.isValidChar := c.valid
          unfold Nat.isValidChar at hvalid
          omega

/-- No character of a quoted text ends it. -/
theorem head_quoteChar (c : Char) : ∃ first others, quoteChar c = first :: others ∧ first ≠ '"' := by
  unfold quoteChar
  split
  all_goals try exact ⟨_, _, rfl, by decide⟩
  rename_i hbackslash hquote hnewline hreturn htab
  split
  · exact ⟨_, _, rfl, by decide⟩
  · split
    · exact ⟨_, _, rfl, hquote⟩
    · split
      · exact ⟨_, _, rfl, by decide⟩
      · exact ⟨_, _, rfl, by decide⟩

/-- A quoted text reads as itself. -/
theorem characters_quote (text rest : List Char) :
    characters '"' (text.flatMap quoteChar ++ '"' :: rest) = some (text, rest) := by
  induction text with
  | nil =>
    rw [List.flatMap_nil, List.nil_append, characters, if_pos rfl]
  | cons c cs ih =>
    obtain ⟨first, others, hquote, hne⟩ := head_quoteChar c
    have hc := character_quoteChar c (cs.flatMap quoteChar ++ '"' :: rest)
    rw [List.flatMap_cons, List.append_assoc]
    rw [hquote, List.cons_append] at hc ⊢
    rw [characters, if_neg hne, hc]
    simp only [within_append, Option.bind_eq_bind, Option.bind_some, ih]
    rfl

/-- A text without special characters reads as itself. -/
theorem characters_plain {delimiter : Char} {text : List Char} (rest : List Char)
    (h : ∀ c ∈ text, c ≠ delimiter ∧ c ≠ '\\' ∧ c ≠ '\n' ∧ c ≠ '\r') :
    characters delimiter (text ++ delimiter :: rest) = some (text, rest) := by
  induction text with
  | nil => rw [List.nil_append, characters, if_pos rfl]
  | cons c cs ih =>
    obtain ⟨hdelimiter, hbackslash, hnewline, hreturn⟩ := h c List.mem_cons_self
    have hc : character (c :: (cs ++ delimiter :: rest)) = some (c, cs ++ delimiter :: rest) := by
      unfold character
      split <;> simp_all
    have ih' := ih fun d hd => h d (List.mem_cons_of_mem _ hd)
    rw [List.cons_append, characters, if_neg hdelimiter, hc]
    simp only [within_some (Nat.lt_succ_self _), Option.bind_eq_bind, Option.bind_some, ih']
    rfl

/-- What a text contributes to the tokens before `rest`. -/
def Reads (text : List Char) (ts : List Token) (rest : List Char) : Prop :=
  tokens (text ++ rest) = (tokens rest).map (ts ++ ·)

theorem Reads.nil (rest : List Char) : Reads [] [] rest := by
  unfold Reads
  simp

theorem Reads.append {a b rest : List Char} {ts us : List Token} (ha : Reads a ts (b ++ rest))
    (hb : Reads b us rest) : Reads (a ++ b) (ts ++ us) rest := by
  unfold Reads at *
  rw [List.append_assoc, ha, hb, Option.map_map]
  congr 1
  funext vs
  exact (List.append_assoc ts us vs).symm

theorem Reads.cons {c : Char} {a rest : List Char} {ts us : List Token}
    (hc : Reads [c] ts (a ++ rest)) (ha : Reads a us rest) : Reads (c :: a) (ts ++ us) rest :=
  hc.append ha

theorem Reads.blank (rest : List Char) : Reads [' '] [] rest := by
  unfold Reads
  rw [List.singleton_append, tokens, if_pos rfl]
  simp

theorem Reads.after_blank {a rest : List Char} {ts : List Token} (h : Reads a ts rest) :
    Reads (' ' :: a) ts rest :=
  (Reads.blank _).append h

theorem Reads.before_blank {a rest : List Char} {ts : List Token} (h : Reads a ts (' ' :: rest)) :
    Reads (a ++ [' ']) ts rest := by
  have := Reads.append h (.blank rest)
  rwa [List.append_nil] at this

theorem Reads.of_token {c : Char} {cs rest : List Char} {t : Token} (hc : c ≠ ' ')
    (h : token (c :: cs ++ rest) = some (t, rest)) : Reads (c :: cs) [t] rest := by
  unfold Reads
  rw [List.cons_append] at h ⊢
  rw [tokens, if_neg hc, h]
  simp only [within_append, Option.bind_eq_bind, Option.bind_some]
  cases tokens rest <;> rfl

/-- A word in front of something else. -/
theorem Reads.word {c : Char} {cs rest : List Char} {t : Token} (hstart : startsWord c = true)
    (hcontinue : ∀ d ∈ cs, continuesWord d = true)
    (hrest : ∀ d ∈ rest.head?, continuesWord d = false)
    (hword : Lexer.word (String.ofList (c :: cs)) = some t) : Reads (c :: cs) [t] rest := by
  obtain ⟨htake, hdrop⟩ := takeWhile_append hcontinue hrest
  refine .of_token ?_ ?_
  · rintro rfl
    cases hstart
  · rw [List.cons_append, token, if_pos hstart, htake, hdrop, hword]
    rfl

theorem Reads.reserved {w rest : List Char} {s : Symbol}
    (h : reserved? (String.ofList w) = some s) (hrest : ∀ d ∈ rest.head?, continuesWord d = false) :
    Reads w [.symbol s] rest := by
  obtain ⟨text, rfl⟩ : ∃ text : String, w = text.toList := ⟨String.ofList w, by simp⟩
  rw [String.ofList_toList] at h
  unfold reserved? at h
  repeat' split at h
  all_goals cases h
  all_goals
    subst text
    exact .word rfl (List.all_eq_true.mp rfl) hrest (by decide)

theorem startsWord_of_isDigit {c : Char} (h : c.isDigit = true) : startsWord c = false := by
  have hdigits : ∀ n ≤ 57, 48 ≤ n → startsWord (Char.ofNat n) = false := by decide
  obtain ⟨hlow, hhigh⟩ := Char.isDigit_iff_toNat.mp h
  have := hdigits c.toNat hhigh hlow
  rwa [Char.ofNat_toNat] at this

/-- A numeral in front of something else. -/
theorem Reads.number {cs rest : List Char} {t : Token} (hcs : ∀ c ∈ cs.head?, c.isDigit = true)
    (hne : cs ≠ []) (h : Lexer.number (cs ++ rest) = some (t, rest)) : Reads cs [t] rest := by
  obtain ⟨c, cs, rfl⟩ := List.exists_cons_of_ne_nil hne
  have hc : c.isDigit = true := hcs c rfl
  refine .of_token ?_ ?_
  · rintro rfl
    cases hc
  · rw [List.cons_append, token, startsWord_of_isDigit hc, if_neg Bool.false_ne_true, if_pos hc]
    exact h

theorem toList_quote (text : String) :
    (Python.quote text).toList = '"' :: (text.toList.flatMap quoteChar ++ ['"']) := by
  rw [Python.quote, String.toList_ofList]
  rfl

/-- A literal is a token, whatever follows. -/
theorem token_quote_append (text : String) (rest : List Char) :
    token ((Python.quote text).toList ++ rest) = some (.string text, rest) := by
  rw [toList_quote, List.cons_append, token, if_neg (by decide), if_neg (by decide),
    if_pos (.inl rfl), List.append_assoc, List.singleton_append, characters_quote]
  change some (Token.string (String.ofList text.toList), rest) = _
  rw [String.ofList_toList]

/-- A literal in front of anything. -/
theorem Reads.quote (text : String) (rest : List Char) :
    Reads (Python.quote text).toList [.string text] rest := by
  have htoken := token_quote_append text rest
  rw [toList_quote] at htoken ⊢
  exact .of_token (by decide) htoken

/-- A symbol in front of something that does not make it longer. -/
theorem Reads.symbol {c : Char} {cs rest : List Char} {s : Symbol} (hc : startsSymbol c = true)
    (h : Lexer.symbol (c :: cs ++ rest) = some (.symbol s, rest)) :
    Reads (c :: cs) [.symbol s] rest := by
  simp only [startsSymbol, Bool.not_eq_true', Bool.or_eq_false_iff, decide_eq_false_iff_not] at hc
  obtain ⟨⟨⟨⟨hword, hdigit⟩, hblank⟩, hdouble⟩, hsingle⟩ := hc
  refine .of_token hblank ?_
  rw [List.cons_append, token, hword, if_neg Bool.false_ne_true, hdigit, if_neg Bool.false_ne_true,
    if_neg (not_or.mpr ⟨hdouble, hsingle⟩)]
  exact h

end Lexer

end ScriptFuzz.Python
