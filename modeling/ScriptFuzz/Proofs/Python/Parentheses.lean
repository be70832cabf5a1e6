import ScriptFuzz.Python.Expression
import ScriptFuzz.Proofs.Python.Grammar

/-!
# Parentheses

Expressions are written with parentheses only where the grammar needs them. `Expr.parse?_text` says that
these are enough: the text of an expression reads as its tree.
-/

namespace ScriptFuzz.Python

set_option autoImplicit false

open ScriptFuzz.Number Lexer Grammar

/-- Whether a text is one word that is not reserved. -/
def isWord (w : List Char) : Bool :=
  match w with
  | [] => false
  | c :: cs => startsWord c && cs.all continuesWord && !keywords.contains (String.ofList w)

/-- Whether a text consists of words with points between them. -/
def isPath (path : String) : Bool := (path.toList.splitOn '.').all isWord

/-- The chain of attributes that a path stands for. -/
def Tree.ofPath (path : String) : Tree :=
  match (path.toList.splitOn '.').map String.ofList with
  | [] => .name path
  | w :: ws => ws.foldl .attribute (.name w)

/-- The tree of an integer literal: a sign is an operator. -/
def Tree.ofInt (v : Int) : Tree :=
  if v < 0 then .unary .minus (.int (-v).toNat) else .int v.toNat

/-- The tree of a float literal. What is not finite is a call of the constructor. -/
def Tree.ofFloat (x : Binary64) : Tree :=
  if x.isNaN then .call (.name "float") [.string "nan"]
  else if x.isInfinite then
    if x.isNegative then .unary .minus (.call (.name "float") [.string "inf"])
    else .call (.name "float") [.string "inf"]
  else if x.isNegative then .unary .minus (.float x.negate)
  else .float x

namespace Expr

mutual

/-- The tree that an expression denotes. -/
def tree : Expr → Tree
  | name n => .name n.text
  | builtin path => .ofPath path
  | int v => .ofInt v.toInt
  | float x => .ofFloat x
  | string s => .string s
  | bool b => .bool b
  | none => .none
  | list items => .list (trees items)
  | .attribute object n =>
    if isIdentifier n then .attribute object.tree n
    else .call (.name "getattr") [object.tree, .string n]
  | subscript object i => .subscript object.tree (.ofInt i.toInt)
  | call callee arguments => .call callee.tree (trees arguments)
  | unary op e => .unary op e.tree
  | binary op l r => .binary op l.tree r.tree
  | compare op l r => .compare l.tree [(op, r.tree)]
  | conditional c t f => .conditional c.tree t.tree f.tree
  | computed _ e => e.tree

def trees : List Expr → List Tree
  | [] => []
  | e :: es => e.tree :: trees es

end

mutual

/-- The paths of the builtins in an expression. -/
def paths : Expr → List String
  | builtin path => [path]
  | list items => pathsOfList items
  | .attribute object _ => object.paths
  | subscript object _ => object.paths
  | call callee arguments => callee.paths ++ pathsOfList arguments
  | unary _ e => e.paths
  | binary _ l r => l.paths ++ r.paths
  | compare _ l r => l.paths ++ r.paths
  | conditional c t f => c.paths ++ t.paths ++ f.paths
  | computed _ e => e.paths
  | _ => []

def pathsOfList : List Expr → List String
  | [] => []
  | e :: es => e.paths ++ pathsOfList es

end

end Expr

/-- The rule of the grammar for a strength. -/
def Level.ofPrecedence : Precedence → Level
  | .ternary => .expression
  | .or => .disjunction
  | .and => .conjunction
  | .not => .inversion
  | .comparison => .comparison
  | .bitOr => .bitwiseOr
  | .bitXor => .bitwiseXor
  | .bitAnd => .bitwiseAnd
  | .shift => .shift
  | .additive => .sum
  | .multiplicative => .term
  | .unary => .factor
  | .power => .power
  | .primary | .atom => .primary

theorem Level.rank_ofPrecedence (p : Precedence) :
    (Level.ofPrecedence p).rank = min p.rank Level.primary.rank := by
  cases p <;> rfl

/-- The symbol of a binary operator. -/
def Symbol.ofBinary : BinaryOperator → Symbol
  | .add => plus
  | .sub => minus
  | .mul => star
  | .div => slash
  | .floorDiv => doubleSlash
  | .mod => percent
  | .pow => doubleStar
  | .bitAnd => ampersand
  | .bitOr => bar
  | .xor => caret
  | .lShift => shiftLeft
  | .rShift => shiftRight
  | .logicalAnd => andWord
  | .logicalOr => orWord

/-- The first symbol of a comparison operator. -/
def Symbol.ofComparator : Comparator → Symbol
  | .equal => doubleEqual
  | .notEqual => notEqual
  | .lessThan => less
  | .lessThanOrEqual => lessEqual
  | .greaterThan => greater
  | .greaterThanOrEqual => greaterEqual
  | .is | .isNot => isWord

/-- A text ends where something follows that continues no word. A point may follow only if the text is
`closed`. -/
def Follows (closed : Bool) (rest : List Char) : Prop :=
  ∀ c ∈ rest.head?, continuesWord c = false ∧ (c = '.' → closed = true)

theorem Follows.mono {a b : Bool} {rest : List Char} (h : Follows a rest) (hab : a = true → b = true) :
    Follows b rest :=
  fun c hc => ⟨(h c hc).1, fun hp => hab ((h c hc).2 hp)⟩

theorem Follows.separates {rest : List Char} (h : Follows false rest) : Separates rest :=
  fun c hc => ⟨(h c hc).1, fun hp => Bool.false_ne_true ((h c hc).2 hp)⟩

theorem Follows.cons {closed : Bool} {c : Char} {rest : List Char} (h : continuesWord c = false)
    (hp : c ≠ '.') : Follows closed (c :: rest) := by
  rintro _ ⟨⟩
  exact ⟨h, fun h => absurd h hp⟩

/-- A text reads as a tree of a level. -/
def Denotes (text : List Char) (t : Tree) (own : Level) (closed : Bool) : Prop :=
  ∃ ts, (∀ rest, Follows closed rest → Reads text ts rest) ∧ Parses ts t own

namespace Denotes

variable {a b : List Char} {t u : Tree} {own own' level : Level} {closed closed' : Bool}

theorem mono (h : Denotes a t own closed) (hle : own'.rank ≤ own.rank)
    (hclosed : closed' = true → closed = true) : Denotes a t own' closed' := by
  obtain ⟨ts, hreads, hparses⟩ := h
  exact ⟨ts, fun rest hrest => hreads rest (hrest.mono hclosed), hparses.of_le hle⟩

theorem symbol_open (rest : List Char) : Reads ['('] [.symbol .openParen] rest :=
  .symbol rfl rfl

theorem symbol_close (rest : List Char) : Reads [')'] [.symbol .closeParen] rest :=
  .symbol rfl rfl

/-- Parentheses make an operand of every level. -/
theorem parenthesize {s : String} {holds : Bool} (h : Denotes s.toList t own closed)
    (level : Level) (hle : holds = true → level.rank ≤ own.rank) (hprimary : level.rank ≤ Level.primary.rank) :
    Denotes (Expr.parenthesize holds s).toList t level (closed && holds || !holds) := by
  unfold Expr.parenthesize
  split
  · rename_i hholds
    refine h.mono (hle hholds) ?_
    simp [hholds]
  · obtain ⟨ts, hreads, hparses⟩ := h
    refine ⟨_, fun rest _ => ?_, hparses.group.of_le hprimary⟩
    rw [String.toList_append, String.toList_append]
    refine .append (.append (symbol_open _) ?_) (symbol_close rest)
    exact hreads _ (.cons (by decide) (by decide))

theorem reads_word {w rest : List Char} (h : isWord w = true) (hrest : Follows closed rest) :
    Reads w [.name (String.ofList w)] rest := by
  cases w with
  | nil => cases h
  | cons c cs =>
    simp only [isWord, Bool.and_eq_true, Bool.not_eq_true', List.all_eq_true] at h
    obtain ⟨⟨hstart, hcontinue⟩, hkeyword⟩ := h
    refine .word hstart hcontinue (fun d hd => (hrest d hd).1) ?_
    rw [Lexer.word, hkeyword, if_neg Bool.false_ne_true]

theorem word {w : List Char} (h : isWord w = true) :
    Denotes w (.name (String.ofList w)) .primary true :=
  ⟨_, fun _ hrest => reads_word h hrest, .name _⟩

/-- A word that comes from the source's own names is not reserved. -/
theorem isWord_text (n : Name) : isWord n.text.toList = true := by
  have hdigits (k : Nat) : ∀ c ∈ Nat.toDigits 10 k, c.isDigit = true := isDigit_of_mem_toDigits
  have hkeywords : (keywords.all fun w => w.toList.all fun c => !c.isDigit) = true := by decide
  simp only [List.all_eq_true, Bool.not_eq_true'] at hkeywords
  have hletter {c : Char} (hc : startsWord c = true) (k : Nat) :
      isWord (c :: Nat.toDigits 10 k) = true := by
    simp only [isWord, Bool.and_eq_true, Bool.not_eq_true', List.all_eq_true]
    refine ⟨⟨hc, fun d hd => continuesWord_of_isDigit (hdigits k d hd)⟩, ?_⟩
    by_contra hreserved
    rw [Bool.not_eq_false, List.contains_iff_mem] at hreserved
    obtain ⟨d, hd⟩ := List.exists_mem_of_ne_nil _ (Nat.toDigits_ne_nil (n := k) (b := 10))
    have := hkeywords _ hreserved d (by
      rw [String.toList_ofList]
      exact List.mem_cons_of_mem c hd)
    rw [hdigits k d hd] at this
    cases this
  rcases n with ⟨role, v⟩ | line | index
  · have hrole : ∃ c, role.letter.toList = [c] ∧ startsWord c = true := by
      cases role <;> exact ⟨_, rfl, rfl⟩
    obtain ⟨c, hc, hstart⟩ := hrole
    rw [Name.text, String.toList_append, hc, Nat.toString_eq_repr, Nat.toList_repr]
    exact hletter hstart _
  · rw [Name.text, String.toList_append, Nat.toString_eq_repr, Nat.toList_repr]
    exact hletter (by decide) _
  · rw [Name.text, String.toList_append, Nat.toString_eq_repr, Nat.toList_repr]
    exact hletter (by decide) _

theorem digits (n : Nat) : Denotes (Nat.toDigits 10 n) (.int n) .primary false := by
  refine ⟨_, fun rest hrest => ?_, .int n⟩
  refine .number (fun c hc => isDigit_of_mem_toDigits c (List.mem_of_mem_head? hc))
    Nat.toDigits_ne_nil (number_toDigits n hrest.separates)

theorem string (s : String) : Denotes (quote s).toList (.string s) .primary true :=
  ⟨_, fun rest _ => .quote s rest, .string s⟩

theorem minus (h : Denotes a t own closed) (hle : Level.factor.rank ≤ own.rank) :
    Denotes ('-' :: a) (.unary .minus t) .factor closed := by
  obtain ⟨ts, hreads, hparses⟩ := h
  refine ⟨_, fun rest hrest => ?_, .unary (s := .minus) rfl hparses hle⟩
  exact .cons (.symbol rfl rfl) (hreads rest hrest)

theorem unary (op : UnaryOperator) (h : Denotes a t own closed)
    (hle : (Level.ofPrecedence (.ofUnary op)).rank ≤ own.rank) :
    Denotes (op.token.toList ++ a) (.unary op t) (Level.ofPrecedence (.ofUnary op)) closed := by
  obtain ⟨ts, hreads, hparses⟩ := h
  cases op with
  | minus => exact minus ⟨ts, hreads, hparses⟩ hle
  | plus =>
    refine ⟨_, fun rest hrest => ?_, .unary (s := .plus) rfl hparses hle⟩
    exact .cons (.symbol rfl rfl) (hreads rest hrest)
  | bitwiseNot =>
    refine ⟨_, fun rest hrest => ?_, .unary (s := .tilde) rfl hparses hle⟩
    exact .cons (.symbol rfl rfl) (hreads rest hrest)
  | logicalNot =>
    refine ⟨_, fun rest hrest => ?_, .unary (s := .notWord) rfl hparses hle⟩
    have hnot : Reads ['n', 'o', 't'] [.symbol .notWord] (' ' :: (a ++ rest)) :=
      .reserved (by decide) (by rintro _ ⟨⟩; rfl)
    exact hnot.before_blank.append (hreads rest hrest)

theorem reads_binary (op : BinaryOperator) (rest : List Char) :
    Reads (' ' :: (op.token.toList ++ [' '])) [.symbol (.ofBinary op)] rest := by
  have hop : Reads op.token.toList [.symbol (.ofBinary op)] (' ' :: rest) := by
    cases op with
    | logicalAnd | logicalOr => exact .reserved (by decide) (by rintro _ ⟨⟩; rfl)
    | _ => exact .symbol rfl rfl
  exact hop.before_blank.after_blank

theorem binary (op : BinaryOperator) (ha : Denotes a t own closed) (hb : Denotes b u own' closed')
    (hop : op ≠ .pow) (hle : (Level.ofPrecedence (.ofBinary op)).rank ≤ own.rank)
    (hlt : (Level.ofPrecedence (.ofBinary op)).rank < own'.rank) :
    Denotes (a ++ ' ' :: (op.token.toList ++ [' ']) ++ b) (.binary op t u)
      (Level.ofPrecedence (.ofBinary op)) false := by
  obtain ⟨ts, hreads, hparses⟩ := ha
  obtain ⟨us, hreads', hparses'⟩ := hb
  have hlevel : (Symbol.ofBinary op).level? = some (Level.ofPrecedence (.ofBinary op)) := by
    cases op <;> rfl
  have hbinary : (Symbol.ofBinary op).binary? = some op := by
    cases op <;> first | rfl | exact absurd rfl hop
  have hparses'' := Parses.binary hlevel hbinary hparses hle hparses' hlt
  rw [List.append_cons] at hparses''
  refine ⟨_, fun rest hrest => ?_, hparses''⟩
  refine .append (.append (hreads _ (.cons (by decide) (by decide))) (reads_binary op _)) ?_
  exact hreads' rest (hrest.mono Bool.noConfusion)

theorem power (ha : Denotes a t .primary closed) (hb : Denotes b u own' closed')
    (hle : Level.factor.rank ≤ own'.rank) :
    Denotes (a ++ ' ' :: (BinaryOperator.pow.token.toList ++ [' ']) ++ b) (.binary .pow t u) .power
      false := by
  obtain ⟨ts, hreads, hparses⟩ := ha
  obtain ⟨us, hreads', hparses'⟩ := hb
  have hparses'' := Parses.power hparses hparses' hle
  rw [List.append_cons] at hparses''
  refine ⟨_, fun rest hrest => ?_, hparses''⟩
  refine .append (.append (hreads _ (.cons (by decide) (by decide))) (reads_binary .pow _)) ?_
  exact hreads' rest (hrest.mono Bool.noConfusion)

/-- What is looser than a negation does not start with it. -/
theorem head_ne_not {us : List Token} (h : Parses us u own) (hlt : Level.inversion.rank < own.rank) :
    ∃ first others, us = first :: others ∧ first ≠ .symbol .notWord := by
  have hparse := h.parse_eq_some own [] (Nat.le_refl _) (by rintro _ ⟨⟩)
  rw [List.append_nil] at hparse
  cases us with
  | nil => exact absurd rfl h.ne_nil
  | cons first others =>
    refine ⟨first, others, rfl, ?_⟩
    rintro rfl
    have hnone : parse own (.symbol .notWord :: others) = none := parse_unary_eq_none rfl hlt
    rw [hnone] at hparse
    cases hparse

theorem compare (op : Comparator) (ha : Denotes a t own closed) (hb : Denotes b u own' closed')
    (hlt : Level.comparison.rank < own.rank) (hlt' : Level.comparison.rank < own'.rank) :
    Denotes (a ++ ' ' :: (op.token.toList ++ [' ']) ++ b) (.compare t [(op, u)]) .comparison
      false := by
  obtain ⟨ts, hreads, hparses⟩ := ha
  obtain ⟨us, hreads', hparses'⟩ := hb
  obtain ⟨first, others, rfl, hfirst⟩ := head_ne_not hparses' (Nat.lt_trans (by decide) hlt')
  have hlevel : (Symbol.ofComparator op).level? = some .comparison := by
    cases op <;> rfl
  let symbols : List Token := if op = .isNot then [.symbol .notWord] else []
  have hop (rest : List Token) :
      comparator? (.symbol (.ofComparator op) :: (symbols ++ first :: others ++ rest)) =
        some (op, first :: others ++ rest) := by
    cases op with
    | is =>
      change comparator? (.symbol .isWord :: first :: (others ++ rest)) = _
      rw [comparator?]
      · rfl
      · intro _ h
        cases h
        exact hfirst rfl
    | _ => rfl
  have hsymbols (rest : List Char) : Reads (' ' :: (op.token.toList ++ [' ']))
      (.symbol (.ofComparator op) :: symbols) rest := by
    cases op with
    | is =>
      have his : Reads ['i', 's'] [.symbol .isWord] (' ' :: rest) :=
        .reserved (by decide) (by rintro _ ⟨⟩; rfl)
      exact his.before_blank.after_blank
    | isNot =>
      have hnot : Reads ['n', 'o', 't'] [.symbol .notWord] (' ' :: rest) :=
        .reserved (by decide) (by rintro _ ⟨⟩; rfl)
      have his : Reads ['i', 's'] [.symbol .isWord] (' ' :: (['n', 'o', 't'] ++ [' '] ++ rest)) :=
        .reserved (by decide) (by rintro _ ⟨⟩; rfl)
      exact (his.append hnot.before_blank.after_blank).after_blank
    | _ =>
      refine Reads.after_blank (Reads.before_blank ?_)
      exact .symbol rfl rfl
  have hparses'' := Parses.compare hlevel hop hparses hlt hparses' hlt'
  rw [← List.cons_append, ← List.append_assoc] at hparses''
  refine ⟨_, fun rest hrest => ?_, hparses''⟩
  refine .append (.append (hreads _ (.cons (by decide) (by decide))) (hsymbols _)) ?_
  exact hreads' rest (hrest.mono Bool.noConfusion)

theorem conditional {c : List Char} {v : Tree} {own'' : Level} {closed'' : Bool}
    (ha : Denotes a t own closed) (hlt : Level.expression.rank < own.rank)
    (hb : Denotes b u own' closed') (hlt' : Level.expression.rank < own'.rank)
    (hc : Denotes c v own'' closed'') :
    Denotes (a ++ " if ".toList ++ b ++ " else ".toList ++ c) (.conditional u t v) .expression
      false := by
  obtain ⟨ts, hreads, hparses⟩ := ha
  obtain ⟨us, hreads', hparses'⟩ := hb
  obtain ⟨vs, hreads'', hparses''⟩ := hc
  have hif (rest : List Char) : Reads " if ".toList [.symbol .ifWord] rest := by
    have hword : Reads ['i', 'f'] [.symbol .ifWord] (' ' :: rest) :=
      .reserved (by decide) (by rintro _ ⟨⟩; rfl)
    exact hword.before_blank.after_blank
  have helse (rest : List Char) : Reads " else ".toList [.symbol .elseWord] rest := by
    have hword : Reads ['e', 'l', 's', 'e'] [.symbol .elseWord] (' ' :: rest) :=
      .reserved (by decide) (by rintro _ ⟨⟩; rfl)
    exact hword.before_blank.after_blank
  have hblank {closed : Bool} (rest : List Char) : Follows closed (' ' :: rest) :=
    .cons (by decide) (by decide)
  refine ⟨_, fun rest hrest => ?_, .conditional hparses hlt hparses' hlt' hparses''⟩
  have hright := (helse _).append (hreads'' rest (hrest.mono Bool.noConfusion))
  have hmiddle := (hif _).append ((hreads' _ (hblank _)).append hright)
  have hall := (hreads _ (hblank _)).append hmiddle
  simpa only [List.append_assoc, List.cons_append, List.nil_append] using hall

/-- Expressions with commas between them. -/
def All (text : List Char) (trees : List Tree) : Prop :=
  ∃ tss, (∀ rest, Follows false rest → Reads text (commas tss) rest) ∧
    List.Forall₂ (fun ts t => ∃ own, Parses ts t own) tss trees

theorem All.nil : All [] [] :=
  ⟨[], fun rest _ => .nil rest, .nil⟩

theorem All.single (h : Denotes a t own closed) : All a [t] := by
  obtain ⟨ts, hreads, hparses⟩ := h
  exact ⟨[ts], fun rest hrest => hreads rest (hrest.mono Bool.noConfusion),
    .cons ⟨own, hparses⟩ .nil⟩

theorem All.cons {trees : List Tree} (h : Denotes a t own closed) (hall : All b (u :: trees)) :
    All (a ++ ", ".toList ++ b) (t :: u :: trees) := by
  obtain ⟨ts, hreads, hparses⟩ := h
  obtain ⟨tss, hreads', hparses'⟩ := hall
  cases hparses' with
  | cons hfirst hothers =>
    rename_i us tss
    refine ⟨ts :: us :: tss, fun rest hrest => ?_, .cons ⟨own, hparses⟩ (.cons hfirst hothers)⟩
    have hcomma (rest : List Char) : Reads ", ".toList [.symbol .comma] rest := by
      have hsymbol : Reads [','] [.symbol .comma] (' ' :: rest) := .symbol rfl rfl
      exact hsymbol.before_blank
    have hright := (hcomma _).append (hreads' rest hrest)
    rw [List.append_assoc]
    exact (hreads _ (.cons (by decide) (by decide))).append hright

theorem list {trees : List Tree} (h : All a trees) :
    Denotes ('[' :: a ++ [']']) (.list trees) .primary true := by
  obtain ⟨tss, hreads, hparses⟩ := h
  refine ⟨_, fun rest _ => ?_, .list hparses⟩
  refine .append (.cons (.symbol rfl rfl) ?_)
    (.symbol rfl rfl)
  exact hreads _ (.cons (by decide) (by decide))

theorem call {trees : List Tree} (h : Denotes a t .primary true) (hall : All b trees) :
    Denotes (a ++ '(' :: b ++ [')']) (.call t trees) .primary true := by
  obtain ⟨ts, hreads, hparses⟩ := h
  obtain ⟨tss, hreads', hparses'⟩ := hall
  refine ⟨_, fun rest _ => ?_, .call hparses hparses'⟩
  refine .append (.append (hreads _ (.cons (by decide) (by decide))) (.cons (symbol_open _) ?_))
    (symbol_close rest)
  exact hreads' _ (.cons (by decide) (by decide))

theorem subscript (h : Denotes a t .primary true) (hindex : Denotes b u own closed) :
    Denotes (a ++ '[' :: b ++ [']']) (.subscript t u) .primary true := by
  obtain ⟨ts, hreads, hparses⟩ := h
  obtain ⟨us, hreads', hparses'⟩ := hindex
  refine ⟨_, fun rest _ => ?_, .subscript hparses hparses'⟩
  refine .append (.append (hreads _ (.cons (by decide) (by decide)))
    (.cons (.symbol rfl rfl) ?_))
    (.symbol rfl rfl)
  exact hreads' _ (.cons (by decide) (by decide))

theorem property {w : List Char} (h : Denotes a t .primary true) (hw : isWord w = true) :
    Denotes (a ++ '.' :: w) (.attribute t (String.ofList w)) .primary true := by
  obtain ⟨ts, hreads, hparses⟩ := h
  refine ⟨_, fun rest hrest => ?_, hparses.property _⟩
  refine .append (hreads _ ?_) (.cons (.symbol rfl rfl)
    (reads_word hw hrest))
  rintro _ ⟨⟩
  exact ⟨by decide, fun _ => rfl⟩

/-- A path is a chain of attributes. -/
theorem path {text : String} (h : isPath text = true) :
    Denotes text.toList (.ofPath text) .primary true := by
  have hchain (ws : List (List Char)) {a : List Char} {t : Tree} (hws : ∀ w ∈ ws, isWord w = true)
      (ha : Denotes a t .primary true) :
      Denotes (a ++ ws.flatMap ('.' :: ·)) ((ws.map String.ofList).foldl .attribute t) .primary
        true := by
    induction ws generalizing a t with
    | nil => simpa using ha
    | cons w ws ih =>
      have := ih (fun w' hw' => hws w' (List.mem_cons_of_mem _ hw'))
        (ha.property (hws w List.mem_cons_self))
      rwa [List.append_assoc] at this
  have hjoin (w : List Char) (ws : List (List Char)) :
      ['.'].intercalate (w :: ws) = w ++ ws.flatMap ('.' :: ·) := by
    induction ws generalizing w with
    | nil => simp
    | cons w' ws ih => rw [List.intercalate_cons_cons, ih]; simp
  have htext : ['.'].intercalate (text.toList.splitOn '.') = text.toList :=
    List.intercalate_splitOn '.'
  rw [isPath, List.all_eq_true] at h
  rw [← htext, Tree.ofPath]
  cases hsplit : text.toList.splitOn '.' with
  | nil => exact absurd hsplit (List.splitOn_ne_nil _ _)
  | cons w ws =>
    rw [hsplit] at h
    rw [hjoin]
    exact hchain ws (fun w' hw' => h w' (List.mem_cons_of_mem _ hw')) (word (h w List.mem_cons_self))

theorem int (v : Int) :
    Denotes (toString v).toList (.ofInt v) (if v < 0 then .factor else .primary) false := by
  rw [toList_toString, Tree.ofInt]
  by_cases hv : v < 0
  · rw [if_neg (by omega), if_pos hv, if_pos hv]
    exact minus (digits _) (by decide)
  · rw [if_pos (by omega), if_neg hv, if_neg hv]
    exact digits _

/-- A call of the constructor with a text between single quotes. -/
theorem floatCall (text : List Char) (h : text.all Char.isAlpha = true) :
    Denotes ("float(".toList ++ '\'' :: (text ++ ['\'']) ++ [')'])
      (.call (.name "float") [.string (String.ofList text)]) .primary true := by
  have hplain : ∀ c ∈ text, c ≠ '\'' ∧ c ≠ '\\' ∧ c ≠ '\n' ∧ c ≠ '\r' := by
    intro c hc
    have := List.all_eq_true.mp h c hc
    refine ⟨?_, ?_, ?_, ?_⟩ <;> (rintro rfl; cases this)
  have hliteral : Denotes ('\'' :: (text ++ ['\''])) (.string (String.ofList text)) .primary true := by
    refine ⟨_, fun rest _ => ?_, .string _⟩
    refine .of_token (c := '\'') (by decide) ?_
    rw [List.cons_append, token, if_neg (by decide), if_neg (by decide), if_pos (.inr rfl),
      List.append_assoc, List.singleton_append, characters_plain rest hplain]
    rfl
  exact call (word (w := "float".toList) (by decide)) (.single hliteral)

theorem floatLiteral {x : Binary64} (hfinite : x.isFinite = true) (hpos : x.isNegative = false) :
    Denotes (Layout.source.text x).toList (.float x) .primary false := by
  obtain ⟨c, cs, htext, hc⟩ := head_source hfinite hpos
  refine ⟨_, fun rest hrest => .number ?_ ?_ (number_source hfinite hpos hrest.separates), .float x⟩
  · rw [htext]
    rintro _ ⟨⟩
    exact hc
  · rw [htext]
    exact List.cons_ne_nil _ _

theorem float (x : Binary64) :
    Denotes (floatText x).toList (.ofFloat x) (Level.ofPrecedence (Expr.float x).precedence)
      (Expr.float x).bindsAsSubject := by
  have hinf := floatCall "inf".toList rfl
  unfold floatText Tree.ofFloat Expr.precedence
  by_cases hnan : x.isNaN = true
  · rw [if_pos hnan, if_pos hnan, if_pos hnan]
    exact (floatCall "nan".toList rfl).mono (Nat.le_refl _) fun _ => rfl
  rw [if_neg hnan, if_neg hnan, if_neg hnan]
  by_cases hinfinite : x.isInfinite = true
  · rw [if_pos hinfinite, if_pos hinfinite, if_pos hinfinite]
    split
    · exact (minus hinf (by decide)).mono (Nat.le_refl _) fun _ => rfl
    · exact hinf.mono (Nat.le_refl _) fun _ => rfl
  rw [if_neg hinfinite, if_neg hinfinite, if_neg hinfinite]
  have hfinite : x.isFinite = true :=
    Binary64.isFinite_iff.mpr ⟨Bool.eq_false_iff.mpr hnan, Bool.eq_false_iff.mpr hinfinite⟩
  have hsubject : (Expr.float x).bindsAsSubject = false := by
    simp [Expr.bindsAsSubject, Expr.isNumeral, hfinite]
  rw [hsubject]
  split
  · rename_i hneg
    rw [toList_source_of_isNegative hfinite hneg]
    refine minus (floatLiteral ?_ ?_) (by decide)
    · rw [Binary64.isFinite, Binary64.exponentField_negate]
      exact hfinite
    · rw [Binary64.isNegative_negate, hneg]
      rfl
  · rename_i hneg
    exact floatLiteral hfinite (Bool.eq_false_iff.mpr hneg)

end Denotes

namespace Expr

variable {e : Expr} {closed : Bool}

/-- What reads as an operand of the expression's own strength is one where at least `p` is needed. -/
theorem denotes_operand (h : Denotes e.text.toList e.tree (.ofPrecedence e.precedence) closed)
    (p : Precedence) : ∃ closed', Denotes (parenthesize (e.bindsAtLeast p) e.text).toList e.tree
      (.ofPrecedence p) closed' := by
  refine ⟨_, h.parenthesize _ ?_ ?_⟩
  · intro hp
    have hp : p.rank ≤ e.precedence.rank := of_decide_eq_true hp
    rw [Level.rank_ofPrecedence, Level.rank_ofPrecedence]
    omega
  · rw [Level.rank_ofPrecedence]
    exact Nat.min_le_right _ _

/-- The same where more than `p` is needed. -/
theorem denotes_operandAbove (h : Denotes e.text.toList e.tree (.ofPrecedence e.precedence) closed)
    {p : Precedence} (hp : p.rank < Level.primary.rank) :
    ∃ own closed', Denotes (parenthesize (e.bindsAbove p) e.text).toList e.tree own closed' ∧
      (Level.ofPrecedence p).rank < own.rank := by
  have hrank := Level.rank_ofPrecedence p
  have htighter : (Level.ofPrecedence p).tighter.rank = p.rank + 1 := by
    rw [Level.rank_tighter, hrank]
    · omega
    · cases p <;> decide
  refine ⟨_, _, h.parenthesize (Level.ofPrecedence p).tighter ?_ ?_, ?_⟩
  · intro hp'
    have hp' : p.rank < e.precedence.rank := of_decide_eq_true hp'
    rw [htighter, Level.rank_ofPrecedence]
    omega
  · rw [htighter]
    exact hp
  · rw [htighter, hrank]
    omega

/-- What may stand before a point, a subscript or arguments. -/
theorem denotes_subject (h : Denotes e.text.toList e.tree (.ofPrecedence e.precedence) e.bindsAsSubject) :
    Denotes (parenthesize e.bindsAsSubject e.text).toList e.tree .primary true := by
  refine (h.parenthesize .primary ?_ (Nat.le_refl _)).mono (Nat.le_refl _) ?_
  · intro hsubject
    rw [bindsAsSubject, Bool.and_eq_true] at hsubject
    have hp : Precedence.primary.rank ≤ e.precedence.rank := of_decide_eq_true hsubject.2
    rw [Level.rank_ofPrecedence]
    exact Nat.le_min.mpr ⟨hp, Nat.le_refl _⟩
  · cases e.bindsAsSubject <;> exact fun _ => rfl

/-- An operator binds too loosely for its expression to stand before a point. -/
theorem bindsAsSubject_eq_false (h : e.precedence.rank < Precedence.primary.rank) :
    e.bindsAsSubject = false := by
  rw [bindsAsSubject, bindsAtLeast, decide_eq_false (by omega), Bool.and_false]

theorem isWord_of_isIdentifier {n : String} (h : isIdentifier n = true) : isWord n.toList = true := by
  unfold isIdentifier at h
  cases hn : n.toList with
  | nil =>
    rw [hn] at h
    cases h
  | cons c cs =>
    rw [hn] at h
    simp only [Bool.and_eq_true, List.all_eq_true] at h
    obtain ⟨⟨hstart, hcontinue⟩, hkeyword⟩ := h
    simp only [isWord, Bool.and_eq_true, List.all_eq_true]
    refine ⟨⟨?_, fun d hd => ?_⟩, ?_⟩
    · simp [startsWord, hstart]
    · simp [continuesWord, hcontinue d hd]
    · rw [← hn, String.ofList_toList]
      exact hkeyword

theorem denotes_int (v : Int64) : Denotes (Expr.int v).text.toList (Expr.int v).tree
    (.ofPrecedence (Expr.int v).precedence) (Expr.int v).bindsAsSubject := by
  have hlt : v < 0 ↔ v.toInt < 0 := Int64.lt_iff_toInt_lt
  have h := Denotes.int v.toInt
  rw [text, tree, precedence]
  split at h
  · rename_i hneg
    rw [if_pos (hlt.mpr hneg)]
    exact h
  · rename_i hpos
    rw [if_neg (mt hlt.mp hpos)]
    exact h

theorem denotes_bool (b : Bool) : Denotes (Expr.bool b).text.toList (.bool b) .primary true := by
  refine ⟨_, fun rest hrest => ?_, .bool b⟩
  cases b <;> exact .reserved (by decide) fun c hc => (hrest c hc).1

theorem denotes_none : Denotes Expr.none.text.toList .none .primary true :=
  ⟨_, fun _ hrest => .reserved (by decide) fun c hc => (hrest c hc).1, .none⟩

/-- An operator between operands, as texts. -/
theorem toList_between (a b : String) (token : String) :
    (a ++ " " ++ token ++ " " ++ b).toList =
      a.toList ++ ' ' :: (token.toList ++ [' ']) ++ b.toList := by
  simp [String.toList_append]

theorem denotes_binary (op : BinaryOperator) {l r : Expr} {closed closed' : Bool}
    (hl : Denotes l.text.toList l.tree (.ofPrecedence l.precedence) closed)
    (hr : Denotes r.text.toList r.tree (.ofPrecedence r.precedence) closed') :
    Denotes (Expr.binary op l r).text.toList (.binary op l.tree r.tree)
      (.ofPrecedence (.ofBinary op)) false := by
  rw [text, toList_between]
  by_cases hop : op = .pow
  · subst hop
    rw [bindsLeft, bindsRight, if_pos rfl, if_pos rfl]
    obtain ⟨own, _, hleft, hlt⟩ := denotes_operandAbove hl (p := .power) (by decide)
    obtain ⟨_, hright⟩ := denotes_operand hr .unary
    exact .power (hleft.mono hlt (fun h => h)) hright (Nat.le_refl _)
  · rw [bindsLeft, bindsRight, if_neg hop, if_neg hop]
    obtain ⟨_, hleft⟩ := denotes_operand hl (.ofBinary op)
    obtain ⟨own, _, hright, hlt⟩ := denotes_operandAbove hr (p := .ofBinary op)
      (by cases op <;> decide)
    exact hleft.binary op hright hop (Nat.le_refl _) hlt

theorem denotes_compare (op : Comparator) {l r : Expr} {closed closed' : Bool}
    (hl : Denotes l.text.toList l.tree (.ofPrecedence l.precedence) closed)
    (hr : Denotes r.text.toList r.tree (.ofPrecedence r.precedence) closed') :
    Denotes (Expr.compare op l r).text.toList (.compare l.tree [(op, r.tree)]) .comparison
      false := by
  rw [text, toList_between]
  obtain ⟨own, _, hleft, hlt⟩ := denotes_operandAbove hl (p := .comparison) (by decide)
  obtain ⟨own', _, hright, hlt'⟩ := denotes_operandAbove hr (p := .comparison) (by decide)
  exact hleft.compare op hright hlt hlt'

theorem denotes_conditional {c t f : Expr} {closed closed' closed'' : Bool}
    (hc : Denotes c.text.toList c.tree (.ofPrecedence c.precedence) closed)
    (ht : Denotes t.text.toList t.tree (.ofPrecedence t.precedence) closed')
    (hf : Denotes f.text.toList f.tree (.ofPrecedence f.precedence) closed'') :
    Denotes (Expr.conditional c t f).text.toList (.conditional c.tree t.tree f.tree) .expression
      false := by
  obtain ⟨own, _, hleft, hlt⟩ := denotes_operandAbove ht (p := .ternary) (by decide)
  obtain ⟨own', _, hmiddle, hlt'⟩ := denotes_operandAbove hc (p := .ternary) (by decide)
  obtain ⟨_, hright⟩ := denotes_operand hf .ternary
  rw [text]
  simp only [String.toList_append]
  exact hleft.conditional hlt hmiddle hlt' hright

mutual

/-- The text of an expression reads as its tree, at the level of its strength. -/
theorem denotes (e : Expr) (h : ∀ path ∈ e.paths, isPath path = true) :
    Denotes e.text.toList e.tree (.ofPrecedence e.precedence) e.bindsAsSubject := by
  match e with
  | .name n =>
    have := Denotes.word (Denotes.isWord_text n)
    rw [String.ofList_toList] at this
    exact this
  | .builtin path => exact .path (h path List.mem_cons_self)
  | .int v => exact denotes_int v
  | .float x => exact .float x
  | .string s => exact .string s
  | .bool b => exact denotes_bool b
  | .none => exact denotes_none
  | .list items =>
    rw [text, String.toList_append, String.toList_append]
    exact .list (denotesAll items h)
  | .attribute object n =>
    have hobject := denotes object h
    rw [text, tree]
    split
    · rename_i hn
      rw [String.toList_append, String.toList_append, List.append_assoc]
      have := (denotes_subject hobject).property (isWord_of_isIdentifier hn)
      rw [String.ofList_toList] at this
      exact this
    · have hitems := Denotes.All.cons hobject (.single (.string n))
      have := (Denotes.word (w := "getattr".toList) (by decide)).call hitems
      simp only [String.toList_append] at this ⊢
      exact this
  | .subscript object i =>
    have := (denotes_subject (denotes object h)).subscript (Denotes.int i.toInt)
    rw [text, tree]
    simp only [String.toList_append, List.append_assoc]
    simp only [List.append_assoc] at this
    exact this
  | .call callee arguments =>
    have hcallee := denotes callee fun path hp => h path (List.mem_append_left _ hp)
    have harguments := denotesAll arguments fun path hp => h path (List.mem_append_right _ hp)
    have := (denotes_subject hcallee).call harguments
    rw [text, tree]
    simp only [String.toList_append, List.append_assoc]
    simp only [List.append_assoc] at this
    exact this
  | .unary op e =>
    obtain ⟨closed, hoperand⟩ := denotes_operand (denotes e h) (.ofUnary op)
    rw [text, tree, String.toList_append]
    have := hoperand.unary op (Nat.le_refl _)
    have hlow : (Expr.unary op e).precedence.rank < Precedence.primary.rank := by
      change (Precedence.ofUnary op).rank < _
      cases op <;> decide
    rw [bindsAsSubject_eq_false hlow]
    exact this.mono (Nat.le_refl _) Bool.noConfusion
  | .binary op l r =>
    have hlow : (Expr.binary op l r).precedence.rank < Precedence.primary.rank := by
      change (Precedence.ofBinary op).rank < _
      cases op <;> decide
    rw [bindsAsSubject_eq_false hlow]
    exact denotes_binary op (denotes l fun path hp => h path (List.mem_append_left _ hp))
      (denotes r fun path hp => h path (List.mem_append_right _ hp))
  | .compare op l r =>
    rw [bindsAsSubject_eq_false (Nat.lt_of_sub_eq_succ rfl)]
    exact denotes_compare op (denotes l fun path hp => h path (List.mem_append_left _ hp))
      (denotes r fun path hp => h path (List.mem_append_right _ hp))
  | .conditional c t f =>
    rw [bindsAsSubject_eq_false (Nat.lt_of_sub_eq_succ rfl)]
    refine denotes_conditional (denotes c fun path hp => h path ?_)
      (denotes t fun path hp => h path ?_) (denotes f fun path hp => h path ?_)
    · exact List.mem_append_left _ (List.mem_append_left _ hp)
    · exact List.mem_append_left _ (List.mem_append_right _ hp)
    · exact List.mem_append_right _ hp
  | .computed _ e => exact denotes e h

theorem denotesAll (es : List Expr) (h : ∀ path ∈ pathsOfList es, isPath path = true) :
    Denotes.All (textList es).toList (trees es) := by
  match es with
  | [] => exact .nil
  | [e] =>
    exact .single (denotes e fun path hp => h path (by simpa [pathsOfList] using hp))
  | e :: e' :: es =>
    rw [textList, String.toList_append, String.toList_append]
    · exact .cons (denotes e fun path hp => h path (List.mem_append_left _ hp))
        (denotesAll (e' :: es) fun path hp => h path (List.mem_append_right _ hp))
    · simp

end

/-- The text of an expression, whose builtins are paths, reads as the tree of that expression. -/
theorem parse?_text (e : Expr) (h : ∀ path ∈ e.paths, isPath path = true) :
    Tree.parse? e.text = some e.tree := by
  obtain ⟨ts, hreads, hparses⟩ := denotes e h
  have htokens := hreads [] (by rintro _ ⟨⟩)
  rw [Reads, List.append_nil, tokens, Option.map_some, List.append_nil] at htokens
  have hparse := hparses.parse_eq_some .expression []
    (by cases e.precedence <;> decide) (by rintro _ ⟨⟩)
  rw [List.append_nil] at hparse
  simp only [Tree.parse?, htokens, hparse, Option.bind_eq_bind, Option.bind_some]
  rfl

theorem parse?_text_power :
    (∀ path ∈ ["math.pi"], isPath path = true) ∧
      Tree.parse? "(-1) ** -math.pi" = some (.binary .pow (.unary .minus (.int 1))
        (.unary .minus (.attribute (.name "math") "pi"))) :=
  ⟨by decide, parse?_text (binary .pow (int (-1)) (unary .minus (builtin "math.pi"))) (by decide)⟩

end Expr

end ScriptFuzz.Python
