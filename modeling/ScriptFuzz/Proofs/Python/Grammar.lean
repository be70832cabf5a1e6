import ScriptFuzz.Program.Operator
import ScriptFuzz.Proofs.Python.Lexer

/-!
# The grammar of expressions

`Tree.parse?` reads the text of an expression by the grammar of the target language. Each rule of the
grammar is a level: an expression of a level is an operand of the next tighter level, preceded by unary
operators or followed by what continues it. Binary operators associate to the left; only `**` and the
conditional expression associate to the right, and comparisons form chains.
-/

namespace ScriptFuzz.Python

set_option autoImplicit false

open ScriptFuzz.Number

/-- A syntax tree. Literals are never negative. -/
inductive Tree where
  | name (text : String)
  | int (value : Nat)
  | float (value : Binary64)
  | string (value : String)
  | bool (value : Bool)
  | none
  | list (items : List Tree)
  | attribute (object : Tree) (name : String)
  | subscript (object index : Tree)
  | call (callee : Tree) (arguments : List Tree)
  | unary (op : UnaryOperator) (operand : Tree)
  | binary (op : BinaryOperator) (left right : Tree)
  /-- An operand with the comparisons that follow it. -/
  | compare (first : Tree) (others : List (Comparator × Tree))
  | conditional (condition whenTrue whenFalse : Tree)

/-- The rules of the grammar, loosest first. -/
inductive Level where
  | expression
  | disjunction
  | conjunction
  | inversion
  | comparison
  | bitwiseOr
  | bitwiseXor
  | bitwiseAnd
  | shift
  | sum
  | term
  | factor
  | power
  | primary
  | atom
deriving DecidableEq

namespace Level

/-- The rule for operands. -/
def tighter : Level → Level
  | expression => disjunction
  | disjunction => conjunction
  | conjunction => inversion
  | inversion => comparison
  | comparison => bitwiseOr
  | bitwiseOr => bitwiseXor
  | bitwiseXor => bitwiseAnd
  | bitwiseAnd => shift
  | shift => sum
  | sum => term
  | term => factor
  | factor => power
  | power => primary
  | primary => atom
  | atom => atom

/-- The levels in order, loosest first. -/
def rank : Level → Nat
  | expression => 1
  | disjunction => 2
  | conjunction => 3
  | inversion => 4
  | comparison => 5
  | bitwiseOr => 6
  | bitwiseXor => 7
  | bitwiseAnd => 8
  | shift => 9
  | sum => 10
  | term => 11
  | factor => 12
  | power => 13
  | primary => 14
  | atom => 15

theorem rank_tighter {level : Level} (h : level ≠ atom) : level.tighter.rank = level.rank + 1 := by
  cases level <;> first | rfl | exact absurd rfl h

theorem rank_le (level : Level) : level.rank ≤ 15 := by
  cases level <;> decide

theorem eq_of_rank_eq {a b : Level} (h : a.rank = b.rank) : a = b := by
  cases a <;> cases b <;> first | rfl | cases h

/-- The unary operator that starts an expression of a level. -/
def unary? : Level → Symbol → Option UnaryOperator
  | inversion, .notWord => some .logicalNot
  | factor, .plus => some .plus
  | factor, .minus => some .minus
  | factor, .tilde => some .bitwiseNot
  | _, _ => none

theorem unary?_of_ne {level level' : Level} {s : Symbol} {op : UnaryOperator}
    (h : level.unary? s = some op) (hne : level ≠ level') : level'.unary? s = none := by
  unfold unary? at h
  split at h
  · cases level' <;> first | rfl | exact absurd rfl hne
  · cases level' <;> first | rfl | exact absurd rfl hne
  · cases level' <;> first | rfl | exact absurd rfl hne
  · cases level' <;> first | rfl | exact absurd rfl hne
  · cases h

end Level

namespace Symbol

/-- The rule in which a symbol follows an operand. -/
def level? : Symbol → Option Level
  | ifWord => some .expression
  | orWord => some .disjunction
  | andWord => some .conjunction
  | doubleEqual | notEqual | less | lessEqual | greater | greaterEqual | isWord => some .comparison
  | bar => some .bitwiseOr
  | caret => some .bitwiseXor
  | ampersand => some .bitwiseAnd
  | shiftLeft | shiftRight => some .shift
  | plus | minus => some .sum
  | star | slash | doubleSlash | percent => some .term
  | doubleStar => some .power
  | openParen | openBracket | point => some .primary
  | _ => none

/-- The binary operators that associate to the left. -/
def binary? : Symbol → Option BinaryOperator
  | orWord => some .logicalOr
  | andWord => some .logicalAnd
  | bar => some .bitOr
  | caret => some .xor
  | ampersand => some .bitAnd
  | shiftLeft => some .lShift
  | shiftRight => some .rShift
  | plus => some .add
  | minus => some .sub
  | star => some .mul
  | slash => some .div
  | doubleSlash => some .floorDiv
  | percent => some .mod
  | _ => none

end Symbol

namespace Grammar

/-- A comparison operator and what follows. -/
def comparator? : List Token → Option (Comparator × List Token)
  | .symbol .doubleEqual :: ts => some (.equal, ts)
  | .symbol .notEqual :: ts => some (.notEqual, ts)
  | .symbol .less :: ts => some (.lessThan, ts)
  | .symbol .lessEqual :: ts => some (.lessThanOrEqual, ts)
  | .symbol .greater :: ts => some (.greaterThan, ts)
  | .symbol .greaterEqual :: ts => some (.greaterThanOrEqual, ts)
  | .symbol .isWord :: .symbol .notWord :: ts => some (.isNot, ts)
  | .symbol .isWord :: ts => some (.is, ts)
  | _ => none

/-- A unary operator of a level and what follows. -/
def unary? (level : Level) : List Token → Option (UnaryOperator × List Token)
  | .symbol s :: ts => (level.unary? s).map (·, ts)
  | _ => none

/-- What follows an expected symbol. -/
def expect (s : Symbol) : List Token → Option (Unit × List Token)
  | .symbol s' :: ts => if s' = s then some ((), ts) else none
  | _ => none

/-- What is followed by a symbol, and what follows the symbol. -/
def closedBy {α : Type} (s : Symbol) (x : Option (α × List Token)) : Option (α × List Token) := do
  let (a, rest) ← x
  let (_, rest) ← expect s rest
  return (a, rest)

mutual

/-- An expression of a level, and what follows. -/
def parse (level : Level) (ts : List Token) : Option (Tree × List Token) :=
  if level = .atom then atom ts
  else
    match within ts.length (unary? level ts) with
    | some (op, rest) => do
      let (t, rest) ← parse level rest
      return (.unary op t, rest)
    | none => do
      let (t, rest) ← within ts.length (parse level.tighter ts)
      extend level t rest
termination_by (ts.length, 17 - level.rank)
decreasing_by
  · have := level.rank_le
    exact .right _ (by omega)
  · exact .left _ _ rest.property
  · have := level.rank_le
    have := Level.rank_tighter ‹level ≠ .atom›
    exact .right _ (by omega)
  · exact .left _ _ rest.property

/-- An expression of a level that starts with the operand `t`, and what follows. -/
def extend (level : Level) (t : Tree) (ts : List Token) : Option (Tree × List Token) :=
  match ts with
  | .symbol s :: rest =>
    if s.level? = some level then
      match s, rest with
      | .ifWord, rest => do
        let (condition, rest) ←
          within (rest.length + 1) (closedBy .elseWord (parse .disjunction rest))
        let (whenFalse, rest) ← parse .expression rest
        return (.conditional condition t whenFalse, rest)
      | .doubleStar, rest => do
        let (exponent, rest) ← parse .factor rest
        return (.binary .pow t exponent, rest)
      | .point, .name name :: rest => extend .primary (.attribute t name) rest
      | .point, _ => none
      | .openBracket, rest => do
        let (index, rest) ←
          within (rest.length + 1) (closedBy .closeBracket (parse .expression rest))
        extend .primary (.subscript t index) rest
      | .openParen, rest => do
        let (arguments, rest) ← within (rest.length + 1) (items .closeParen rest)
        extend .primary (.call t arguments) rest
      | s, rest =>
        match s.binary? with
        | some op => do
          let (right, rest) ← within (rest.length + 1) (parse level.tighter rest)
          extend level (.binary op t right) rest
        | none => do
          let (others, rest) ← comparisons (.symbol s :: rest)
          return (.compare t others, rest)
    else some (t, ts)
  | _ => some (t, ts)
termination_by (ts.length, 1)

/-- A chain of comparisons, and what follows. -/
def comparisons (ts : List Token) : Option (List (Comparator × Tree) × List Token) :=
  match within ts.length (comparator? ts) with
  | none => some ([], ts)
  | some (op, rest) => do
    let (t, rest) ← within ts.length (parse .bitwiseOr rest)
    let (others, rest) ← comparisons rest
    return ((op, t) :: others, rest)
termination_by (ts.length, 0)

/-- Expressions with commas between them up to a closing symbol, and what follows. -/
def items (close : Symbol) (ts : List Token) : Option (List Tree × List Token) :=
  match expect close ts with
  | some (_, rest) => some ([], rest)
  | none => do
    let (t, rest) ← parse .expression ts
    match within ts.length (expect .comma rest) with
    | some (_, rest) => do
      let (others, rest) ← items close rest
      return (t :: others, rest)
    | none => do
      let (_, rest) ← expect close rest
      return ([t], rest)
termination_by (ts.length, 17)
decreasing_by
  · exact .right _ (by decide)
  · exact .left _ _ rest.property

/-- An expression that needs no operator, and what follows. -/
def atom (ts : List Token) : Option (Tree × List Token) :=
  match ts with
  | .name text :: rest => some (.name text, rest)
  | .int value :: rest => some (.int value, rest)
  | .float value :: rest => some (.float value, rest)
  | .string value :: rest => some (.string value, rest)
  | .symbol .trueWord :: rest => some (.bool true, rest)
  | .symbol .falseWord :: rest => some (.bool false, rest)
  | .symbol .noneWord :: rest => some (.none, rest)
  | .symbol .openParen :: rest => closedBy .closeParen (parse .expression rest)
  | .symbol .openBracket :: rest => do
    let (elements, rest) ← items .closeBracket rest
    return (.list elements, rest)
  | _ => none
termination_by (ts.length, 0)

end

/-- The level that a token continues, by its rank. -/
def rank : Token → Nat
  | .symbol s => (s.level?.map Level.rank).getD 0
  | _ => 0

/-- What follows continues only levels below the rank `n`. -/
def Stops (n : Nat) (rest : List Token) : Prop := ∀ t ∈ rest.head?, rank t < n

theorem Stops.mono {m n : Nat} {rest : List Token} (h : Stops m rest) (hle : m ≤ n) :
    Stops n rest :=
  fun t ht => Nat.lt_of_lt_of_le (h t ht) hle

variable {level level' : Level} {t : Tree} {ts rest : List Token} {s : Symbol}

theorem expect_self (s : Symbol) (ts : List Token) : expect s (.symbol s :: ts) = some ((), ts) :=
  if_pos rfl

theorem closedBy_some {α : Type} (s : Symbol) (a : α) (ts : List Token) :
    closedBy s (some (a, .symbol s :: ts)) = some (a, ts) := by
  simp only [closedBy, expect_self, Option.bind_eq_bind, Option.bind_some]
  rfl

theorem parse_atom : parse .atom ts = atom ts := by
  rw [parse, if_pos rfl]

theorem extend_of_stops (h : Stops level.rank rest) : extend level t rest = some (t, rest) := by
  unfold extend
  split
  · rename_i s rest
    have hs : s.level? ≠ some level := by
      intro hs
      have := h (.symbol s) rfl
      simp [rank, hs] at this
    rw [if_neg hs]
  · rfl

theorem parse_of_unary {op : UnaryOperator} (h : level.unary? s = some op) :
    parse level (.symbol s :: ts) = do
      let (t, ts) ← parse level ts
      return (.unary op t, ts) := by
  have hatom : level ≠ .atom := by
    rintro rfl
    cases h
  have hunary : within (Token.symbol s :: ts).length (unary? level (.symbol s :: ts)) =
      some (op, ⟨ts, Nat.lt_succ_self _⟩) := by
    rw [unary?, h]
    exact within_some (Nat.lt_succ_self _)
  rw [parse, if_neg hatom, hunary]

theorem parse_of_operand (hatom : level ≠ .atom) (hunary : unary? level ts = none)
    (h : parse level.tighter ts = some (t, rest)) (hshort : rest.length < ts.length) :
    parse level ts = extend level t rest := by
  rw [parse, if_neg hatom, hunary, within_none, h]
  simp only [within_some hshort, Option.bind_eq_bind, Option.bind_some]

/-- What starts neither with an atom nor with a unary operator is no expression. -/
theorem parse_eq_none (hatom : atom ts = none)
    (h : ∀ level' : Level, level.rank ≤ level'.rank → unary? level' ts = none) :
    parse level ts = none := by
  induction hn : 15 - level.rank generalizing level with
  | zero =>
    have hlevel : level = .atom := by
      refine Level.eq_of_rank_eq ?_
      have := level.rank_le
      change _ = 15
      omega
    rw [hlevel, parse_atom, hatom]
  | succ n ih =>
    have hlevel : level ≠ .atom := by
      rintro rfl
      cases hn
    have hrank := Level.rank_tighter hlevel
    have htighter : parse level.tighter ts = none :=
      ih (fun level' hle => h level' (by omega)) (by omega)
    rw [parse, if_neg hlevel, h level (Nat.le_refl _), within_none, htighter]
    rfl

theorem ne_nil_of_parse (h : parse level ts = some (t, rest)) : ts ≠ [] := by
  rintro rfl
  rw [parse_eq_none (by unfold atom; rfl) fun _ _ => rfl] at h
  cases h

theorem length_lt_append (h : ts ≠ []) : rest.length < (ts ++ rest).length := by
  rw [List.length_append]
  exact Nat.lt_add_of_pos_left (List.length_pos_iff.mpr h)

theorem parse_unary_eq_none {op : UnaryOperator} (h : level.unary? s = some op)
    (hlt : level.rank < level'.rank) : parse level' (.symbol s :: ts) = none := by
  refine parse_eq_none ?_ fun level'' hle => ?_
  · unfold Level.unary? at h
    split at h
    all_goals first | (unfold atom; rfl) | cases h
  · have hne : level ≠ level'' := by
      rintro rfl
      omega
    rw [unary?, Level.unary?_of_ne h hne]
    rfl

/-- An expression is one of every looser level, if nothing continues it. -/
theorem parse_eq_extend (hlt : level.rank < level'.rank) (h : parse level' ts = some (t, rest))
    (hshort : rest.length < ts.length) (hs : Stops (level.rank + 1) rest) : parse level ts = extend level t rest := by
  induction hn : level'.rank - level.rank generalizing level with
  | zero => omega
  | succ n ih =>
    have hatom : level ≠ .atom := by
      rintro rfl
      have := level'.rank_le
      change 15 < _ at hlt
      omega
    have hrank := Level.rank_tighter hatom
    have hunary : unary? level ts = none := by
      unfold unary?
      split
      · rename_i s ts
        cases hop : level.unary? s with
        | none => rfl
        | some op =>
          rw [parse_unary_eq_none hop hlt] at h
          cases h
      · rfl
    have htighter : parse level.tighter ts = some (t, rest) := by
      rcases Nat.lt_or_eq_of_le (Nat.succ_le_of_lt hlt) with hlt' | heq
      · rw [ih (by omega) (hs.mono (by omega)) (by omega)]
        exact extend_of_stops (hs.mono (by omega))
      · rw [Level.eq_of_rank_eq (hrank.trans heq)]
        exact h
    exact parse_of_operand hatom hunary htighter hshort

/-- The rank below which the level must be that continues an expression of `level`. Only where operators
associate to the left it may be continued by that level itself. -/
def reach (level : Level) : Nat :=
  match level with
  | .expression | .inversion | .comparison | .factor | .power => level.rank
  | _ => level.rank + 1

theorem rank_le_reach (level : Level) : level.rank ≤ reach level ∧ reach level ≤ level.rank + 1 := by
  cases level <;> decide

/-- Tokens of an expression of the level `own` or a looser one. -/
def Parses (ts : List Token) (t : Tree) (own : Level) : Prop :=
  ∀ level rest, level.rank ≤ own.rank → Stops (reach level) rest →
    parse level (ts ++ rest) = extend level t rest

namespace Parses

variable {own own' : Level} {us : List Token} {u : Tree}

theorem parse_eq_some (h : Parses ts t own) (level : Level) (rest : List Token)
    (hle : level.rank ≤ own.rank) (hs : Stops level.rank rest) :
    parse level (ts ++ rest) = some (t, rest) := by
  rw [h level rest hle (hs.mono (rank_le_reach level).1)]
  exact extend_of_stops hs

/-- It is enough to look at the expression's own level. -/
theorem of_own (h : ∀ rest, Stops (reach own) rest → parse own (ts ++ rest) = extend own t rest) :
    Parses ts t own := by
  have hts : ts ≠ [] := by
    have hparse := h [] (by rintro _ ⟨⟩)
    rw [List.append_nil, extend_of_stops (by rintro _ ⟨⟩)] at hparse
    exact ne_nil_of_parse hparse
  intro level rest hle hs
  rcases Nat.lt_or_eq_of_le hle with hlt | heq
  · have hreach := (rank_le_reach level).2
    have hown : parse own (ts ++ rest) = some (t, rest) := by
      rw [h rest (hs.mono (hreach.trans (Nat.le_trans hlt (rank_le_reach own).1)))]
      exact extend_of_stops (hs.mono (by omega))
    exact parse_eq_extend hlt hown (length_lt_append hts) (hs.mono hreach)
  · rw [Level.eq_of_rank_eq heq] at hs ⊢
    exact h rest hs

theorem of_le (h : Parses ts t own) (hle : own'.rank ≤ own.rank) : Parses ts t own' :=
  fun level rest hle' hs => h level rest (hle'.trans hle) hs

theorem ne_nil (h : Parses ts t own) : ts ≠ [] := by
  have hparse := h.parse_eq_some own [] (Nat.le_refl _) (by rintro _ ⟨⟩)
  rw [List.append_nil] at hparse
  exact ne_nil_of_parse hparse

/-- As the operand of a looser level, whatever continues that level. -/
theorem parse_of_lt (h : Parses ts t own) (level : Level) (rest : List Token)
    (hlt : level.rank < own.rank) (hs : Stops (level.rank + 1) rest) :
    parse level (ts ++ rest) = extend level t rest := by
  have hown : parse own (ts ++ rest) = some (t, rest) :=
    h.parse_eq_some own rest (Nat.le_refl _) (hs.mono hlt)
  exact parse_eq_extend hlt hown (length_lt_append h.ne_nil) hs

theorem of_atom (h : ∀ rest, atom (ts ++ rest) = some (t, rest)) : Parses ts t .primary := by
  refine of_own fun rest _ => ?_
  have hunary : unary? .primary (ts ++ rest) = none := by
    unfold unary?
    split <;> rfl
  have hts : ts ≠ [] := by
    rintro rfl
    have := h []
    unfold atom at this
    cases this
  refine parse_of_operand (by decide) hunary ?_ (length_lt_append hts)
  rw [Level.tighter, parse_atom, h rest]

theorem name (text : String) : Parses [.name text] (.name text) .primary :=
  of_atom fun _ => by rw [List.singleton_append, atom]

theorem int (value : Nat) : Parses [.int value] (.int value) .primary :=
  of_atom fun _ => by rw [List.singleton_append, atom]

theorem float (value : Binary64) : Parses [.float value] (.float value) .primary :=
  of_atom fun _ => by rw [List.singleton_append, atom]

theorem string (value : String) : Parses [.string value] (.string value) .primary :=
  of_atom fun _ => by rw [List.singleton_append, atom]

theorem bool (value : Bool) :
    Parses [.symbol (if value then .trueWord else .falseWord)] (.bool value) .primary :=
  of_atom fun _ => by cases value <;> rw [List.singleton_append] <;> unfold atom <;> rfl

theorem none : Parses [.symbol .noneWord] .none .primary :=
  of_atom fun _ => by rw [List.singleton_append, atom]

theorem stops_of_level?_eq_none {n : Nat} (hs : s.level? = Option.none) (hn : 0 < n) :
    Stops n (.symbol s :: ts) := by
  rintro _ ⟨⟩
  simpa [rank, hs] using hn

/-- Every expression in parentheses needs no operator. -/
theorem group (h : Parses ts t own) :
    Parses (.symbol .openParen :: ts ++ [.symbol .closeParen]) t .primary := by
  refine of_atom fun rest => ?_
  have hinner := h.parse_eq_some .expression (.symbol .closeParen :: rest)
    (by cases own <;> decide) (stops_of_level?_eq_none rfl (by decide))
  simp only [List.cons_append, List.append_assoc, List.nil_append]
  rw [atom, hinner, closedBy_some]

theorem unary {op : UnaryOperator} (hop : level.unary? s = some op) (h : Parses ts t own)
    (hle : level.rank ≤ own.rank) : Parses (.symbol s :: ts) (.unary op t) level := by
  have hreach : reach level = level.rank := by
    unfold Level.unary? at hop
    split at hop
    all_goals first | rfl | cases hop
  refine of_own fun rest hs => ?_
  rw [hreach] at hs
  rw [List.cons_append, parse_of_unary hop, h.parse_eq_some level rest hle hs, extend_of_stops hs]
  rfl

theorem extend_binary {op : BinaryOperator} (hlevel : s.level? = some level)
    (hop : s.binary? = some op) (hright : parse level.tighter (us ++ rest) = some (u, rest)) :
    extend level t (.symbol s :: (us ++ rest)) = extend level (.binary op t u) rest := by
  rw [extend, if_pos hlevel, hop, hright]
  · simp only [within_append, Option.bind_eq_bind, Option.bind_some]
  all_goals
    intros
    subst s
    cases hop

theorem binary {op : BinaryOperator} (hlevel : s.level? = some level) (hop : s.binary? = some op)
    (hl : Parses ts t own) (hle : level.rank ≤ own.rank) (hr : Parses us u own')
    (hlt : level.rank < own'.rank) : Parses (ts ++ .symbol s :: us) (.binary op t u) level := by
  have hreach : reach level = level.rank + 1 := by
    cases s
    all_goals first | (cases hop; cases hlevel; rfl) | cases hop
  have htighter : level.tighter.rank = level.rank + 1 := by
    refine Level.rank_tighter ?_
    rintro rfl
    cases s <;> cases hlevel
  refine of_own fun rest hs => ?_
  have hleft := hl level (.symbol s :: (us ++ rest)) hle (by
    rintro _ ⟨⟩
    simp [rank, hlevel, hreach])
  have hright := hr.parse_eq_some level.tighter rest (by omega)
    (hs.mono (by omega))
  rw [List.append_assoc, List.cons_append, hleft, extend_binary hlevel hop hright]

/-- No symbol continues a factor. -/
theorem stops_factor (h : Stops Level.power.rank rest) : Stops Level.factor.rank rest := by
  intro first hfirst
  have := h first hfirst
  revert this
  cases first with
  | symbol s => cases s <;> decide
  | _ => exact fun _ => Nat.zero_lt_succ 11

/-- A power associates to the right, and its exponent may have a sign. -/
theorem power (hl : Parses ts t .primary) (hr : Parses us u own') (hle : Level.factor.rank ≤ own'.rank) :
    Parses (ts ++ .symbol .doubleStar :: us) (.binary .pow t u) .power := by
  refine of_own fun rest (hs : Stops Level.power.rank rest) => ?_
  have hleft := hl.parse_of_lt .power (.symbol .doubleStar :: (us ++ rest))
    (by decide) (by rintro _ ⟨⟩; decide)
  have hright := hr.parse_eq_some .factor rest hle (stops_factor hs)
  rw [List.append_assoc, List.cons_append, hleft, extend,
    if_pos (show Symbol.doubleStar.level? = some .power from rfl), hright, extend_of_stops hs]
  rfl

theorem comparisons_of_stops (h : Stops Level.comparison.rank rest) :
    comparisons rest = some ([], rest) := by
  have hnone : comparator? rest = Option.none := by
    cases rest with
    | nil => rfl
    | cons first rest =>
      have := h first rfl
      revert this
      cases first with
      | symbol s =>
        cases s
        all_goals first | (intro _; rfl) | (intro h; exact absurd h (by decide))
      | _ => exact fun _ => rfl
  rw [comparisons, hnone, within_none]

theorem compare {op : Comparator} {symbols : List Token} (hlevel : s.level? = some .comparison)
    (hop : ∀ rest, comparator? (.symbol s :: (symbols ++ us ++ rest)) = some (op, us ++ rest))
    (hl : Parses ts t own) (hlt : Level.comparison.rank < own.rank) (hr : Parses us u own')
    (hlt' : Level.comparison.rank < own'.rank) :
    Parses (ts ++ .symbol s :: (symbols ++ us)) (.compare t [(op, u)]) .comparison := by
  refine of_own fun rest (hs : Stops Level.comparison.rank rest) => ?_
  have hleft := hl.parse_of_lt .comparison
    (.symbol s :: (symbols ++ us ++ rest)) hlt (by
      rintro _ ⟨⟩
      simp [rank, hlevel])
  have hright := hr.parse_eq_some .bitwiseOr rest hlt'
    (hs.mono (by decide))
  have hbinary : s.binary? = Option.none := by
    cases s <;> first | rfl | cases hlevel
  have hothers : comparisons (.symbol s :: (symbols ++ us ++ rest)) = some ([(op, u)], rest) := by
    have hoperand : (us ++ rest).length < (Token.symbol s :: (symbols ++ us ++ rest)).length := by
      simp only [List.length_cons, List.length_append]
      omega
    have hrest : rest.length < (Token.symbol s :: (symbols ++ us ++ rest)).length := by
      simp only [List.length_cons, List.length_append]
      omega
    rw [comparisons, hop, within_some hoperand]
    simp only [hright, within_some hrest, comparisons_of_stops hs, Option.bind_eq_bind,
      Option.bind_some]
    rfl
  rw [List.append_assoc, List.cons_append, hleft, extend, if_pos hlevel, hbinary]
  · simp only [hothers, Option.bind_eq_bind, Option.bind_some]
    rw [extend_of_stops hs]
    rfl
  all_goals
    intros
    subst s
    cases hlevel

/-- A conditional expression associates to the right. -/
theorem conditional {vs : List Token} {v : Tree} {own'' : Level} (ht : Parses ts t own)
    (hlt : Level.expression.rank < own.rank) (hc : Parses us u own')
    (hlt' : Level.expression.rank < own'.rank) (hf : Parses vs v own'') :
    Parses (ts ++ .symbol .ifWord :: (us ++ .symbol .elseWord :: vs)) (.conditional u t v)
      .expression := by
  refine of_own fun rest (hs : Stops Level.expression.rank rest) => ?_
  have hexpression : Level.expression.rank ≤ own''.rank := by
    cases own'' <;> decide
  have hleft := ht.parse_of_lt .expression
    (.symbol .ifWord :: (us ++ .symbol .elseWord :: (vs ++ rest))) hlt
    (by rintro _ ⟨⟩; decide)
  have hmiddle := hc.parse_eq_some .disjunction
    (.symbol .elseWord :: (vs ++ rest)) hlt' (stops_of_level?_eq_none rfl (by decide))
  have hright := hf.parse_eq_some .expression rest hexpression hs
  simp only [List.append_assoc, List.cons_append]
  rw [hleft, extend, if_pos (show Symbol.ifWord.level? = some .expression from rfl), hmiddle,
    closedBy_some, List.append_cons us, within_append]
  simp only [hright, Option.bind_eq_bind, Option.bind_some]
  rw [extend_of_stops hs]
  rfl

theorem property (h : Parses ts t .primary) (text : String) :
    Parses (ts ++ [.symbol .point, .name text]) (.attribute t text) .primary := by
  refine of_own fun rest _ => ?_
  have hobject := h .primary (.symbol .point :: .name text :: rest) (Nat.le_refl _)
    (by rintro _ ⟨⟩; decide)
  rw [List.append_assoc]
  change parse .primary (ts ++ .symbol .point :: .name text :: rest) = _
  rw [hobject, extend, if_pos (show Symbol.point.level? = some .primary from rfl)]

theorem subscript (h : Parses ts t .primary) (hindex : Parses us u own) :
    Parses (ts ++ .symbol .openBracket :: us ++ [.symbol .closeBracket]) (.subscript t u)
      .primary := by
  refine of_own fun rest _ => ?_
  have hexpression : Level.expression.rank ≤ own.rank := by
    cases own <;> decide
  have hobject := h .primary (.symbol .openBracket :: (us ++ .symbol .closeBracket :: rest))
    (Nat.le_refl _) (by rintro _ ⟨⟩; decide)
  have hinner := hindex.parse_eq_some .expression
    (.symbol .closeBracket :: rest) hexpression (stops_of_level?_eq_none rfl (by decide))
  simp only [List.append_assoc, List.cons_append, List.nil_append]
  rw [hobject, extend, if_pos (show Symbol.openBracket.level? = some .primary from rfl), hinner,
    closedBy_some, List.append_cons us, within_append]
  rfl

end Parses

/-- Tokens with commas between them. -/
def commas : List (List Token) → List Token
  | [] => []
  | [ts] => ts
  | ts :: us :: tss => ts ++ .symbol .comma :: commas (us :: tss)

/-- No expression starts with a closing symbol. -/
theorem expect_eq_none {own : Level} (h : Parses ts t own)
    (hs : s = .closeParen ∨ s = .closeBracket) : expect s (ts ++ rest) = none := by
  have hparse := h.parse_eq_some .expression []
    (by cases own <;> decide) (by rintro _ ⟨⟩)
  rw [List.append_nil] at hparse
  cases ts with
  | nil => exact absurd rfl h.ne_nil
  | cons first ts =>
    cases first with
    | symbol s' =>
      have hne : s' ≠ s := by
        rintro rfl
        rw [parse_eq_none] at hparse
        · cases hparse
        · rcases hs with rfl | rfl <;> (unfold atom; rfl)
        · intro level _
          rcases hs with rfl | rfl <;> cases level <;> rfl
      rw [List.cons_append, expect, if_neg hne]
    | _ => rfl

/-- Elements with commas between them up to a closing symbol. -/
theorem items_commas {tss : List (List Token)} {trees : List Tree}
    (h : List.Forall₂ (fun ts t => ∃ own, Parses ts t own) tss trees)
    (hs : s = .closeParen ∨ s = .closeBracket) :
    items s (commas tss ++ .symbol s :: rest) = some (trees, rest) := by
  induction h with
  | nil => rw [commas, List.nil_append, items, expect_self]
  | @cons ts t tss trees hfirst hothers ih =>
    obtain ⟨own, hfirst⟩ := hfirst
    have hexpression : Level.expression.rank ≤ own.rank := by
      cases own <;> decide
    cases hothers with
    | nil =>
      have hparse := hfirst.parse_eq_some .expression (.symbol s :: rest)
        hexpression (Parses.stops_of_level?_eq_none (by rcases hs with rfl | rfl <;> rfl) (by decide))
      have hcomma : expect .comma (.symbol s :: rest) = none := by
        rcases hs with rfl | rfl <;> rfl
      rw [commas, items, expect_eq_none hfirst hs, hparse]
      simp only [hcomma, within_none, expect_self, Option.bind_eq_bind, Option.bind_some]
      rfl
    | cons hnext hothers =>
      rename_i ts' t' tss' trees'
      have hparse := hfirst.parse_eq_some .expression
        (.symbol .comma :: (commas (ts' :: tss') ++ Token.symbol s :: rest))
        hexpression (Parses.stops_of_level?_eq_none rfl (by decide))
      have hshort : (commas (ts' :: tss') ++ Token.symbol s :: rest).length <
          (ts ++ Token.symbol .comma :: (commas (ts' :: tss') ++ Token.symbol s :: rest)).length := by
        simp only [List.length_append, List.length_cons]
        omega
      rw [commas, List.append_assoc, List.cons_append, items, expect_eq_none hfirst hs, hparse]
      simp only [expect_self, within_some hshort, ih, Option.bind_eq_bind, Option.bind_some]
      rfl

namespace Parses

variable {tss : List (List Token)} {trees : List Tree}

theorem call (h : Parses ts t .primary)
    (hitems : List.Forall₂ (fun ts t => ∃ own, Parses ts t own) tss trees) :
    Parses (ts ++ .symbol .openParen :: commas tss ++ [.symbol .closeParen]) (.call t trees)
      .primary := by
  refine of_own fun rest _ => ?_
  have hcallee := h .primary (.symbol .openParen :: (commas tss ++ .symbol .closeParen :: rest))
    (Nat.le_refl _) (by rintro _ ⟨⟩; decide)
  simp only [List.append_assoc, List.cons_append, List.nil_append]
  rw [hcallee, extend, if_pos (show Symbol.openParen.level? = some .primary from rfl),
    items_commas hitems (.inl rfl), List.append_cons (commas tss), within_append]
  rfl

theorem list (hitems : List.Forall₂ (fun ts t => ∃ own, Parses ts t own) tss trees) :
    Parses (.symbol .openBracket :: commas tss ++ [.symbol .closeBracket]) (.list trees) .primary := by
  refine of_atom fun rest => ?_
  simp only [List.append_assoc, List.cons_append, List.nil_append]
  rw [atom, items_commas hitems (.inr rfl)]
  rfl

end Parses

end Grammar

/-- The tree of a text that is an expression. -/
def Tree.parse? (text : String) : Option Tree := do
  let ts ← Lexer.tokens text.toList
  let (t, rest) ← Grammar.parse .expression ts
  guard rest.isEmpty
  return t

end ScriptFuzz.Python
