import Mathlib.Algebra.Group.Nat.Even
import ScriptFuzz.Proofs.Python.Lexer

/-!
# String literals

`quotes_quote` says that a quoted text is printable ASCII between two double quotes, that these two are
the only ones that no backslash escapes, and that the literal is read as the text up to its closing
quote, whatever follows. Literals are read by the rules for one delimiter at either end; a delimiter that
is written three times is not known to these rules.
-/

namespace ScriptFuzz.Python

set_option autoImplicit false

open ScriptFuzz.Text Lexer

def isPrintable (c : Char) : Bool := 0x20 ≤ c.toNat && c.toNat < 0x7f

/-- The number of backslashes that a text ends in. -/
def trailingBackslashes (cs : List Char) : Nat := (cs.reverse.takeWhile (· = '\\')).length

/-- A double quote that ends a literal: each two of the backslashes before it stand for one, and none
is left over. -/
def IsUnescaped (cs : List Char) (n : Nat) : Prop :=
  cs[n]? = some '"' ∧ Even (trailingBackslashes (cs.take n))

/-- A text between two double quotes, which are the only ones that are not escaped. -/
structure IsQuoted (cs : List Char) : Prop where
  printable : ∀ c ∈ cs, isPrintable c = true
  delimited : ∃ body, cs = '"' :: (body ++ ['"']) ∧
    ∀ n, IsUnescaped cs n ↔ n = 0 ∨ n = body.length + 1

/-- Behind `before`, no double quote of the text ends a literal. -/
def HidesQuotes (before cs : List Char) : Prop :=
  ∀ n, cs[n]? = some '"' → ¬Even (trailingBackslashes (before ++ cs.take n))

variable {before cs ds : List Char} {c : Char}

/-! ## Printable characters -/

theorem isPrintable_digit : ∀ n < 16, isPrintable (Hex.digit n) = true := by decide

theorem isPrintable_of_mem_digits {places n : Nat} (h : c ∈ Hex.digits places n) :
    isPrintable c = true := by
  induction places generalizing n with
  | zero => cases h
  | succ places ih =>
    rcases List.mem_append.mp h with h | h
    · exact ih h
    · rw [List.mem_singleton.mp h]
      exact isPrintable_digit _ (Nat.mod_lt n (by decide))

theorem isPrintable_of_mem_quoteChar {d : Char} (h : d ∈ quoteChar c) : isPrintable d = true := by
  have hescape {places n : Nat} {x : Char} (hx : isPrintable x = true)
      (h : d ∈ '\\' :: x :: Hex.digits places n) : isPrintable d = true := by
    rcases List.mem_cons.mp h with rfl | h
    · rfl
    · rcases List.mem_cons.mp h with rfl | h
      · exact hx
      · exact isPrintable_of_mem_digits h
  have hshort (cs : List Char) (hcs : cs.all isPrintable = true) (h : d ∈ cs) :
      isPrintable d = true := List.all_eq_true.mp hcs d h
  unfold quoteChar at h
  split at h
  · exact hshort _ rfl h
  · exact hshort _ rfl h
  · exact hshort _ rfl h
  · exact hshort _ rfl h
  · exact hshort _ rfl h
  · split at h
    · exact hescape rfl h
    · rename_i hcontrol
      split at h
      · rename_i hascii
        obtain rfl := List.mem_singleton.mp h
        simp only [Bool.or_eq_true, decide_eq_true_eq] at hcontrol
        simp only [isPrintable, Bool.and_eq_true, decide_eq_true_eq]
        omega
      · split at h <;> exact hescape rfl h

/-! ## Escaped quotes -/

theorem trailingBackslashes_concat (cs : List Char) (c : Char) :
    trailingBackslashes (cs ++ [c]) = if c = '\\' then trailingBackslashes cs + 1 else 0 := by
  unfold trailingBackslashes
  rw [List.reverse_concat, List.takeWhile_cons]
  by_cases h : c = '\\'
  · simp [h]
  · simp [h]

theorem HidesQuotes.append (hcs : HidesQuotes before cs) (hds : HidesQuotes (before ++ cs) ds) :
    HidesQuotes before (cs ++ ds) := by
  intro n hn
  rw [List.getElem?_append] at hn
  split at hn
  · rename_i hlt
    rw [List.take_append_of_le_length (Nat.le_of_lt hlt)]
    exact hcs n hn
  · rename_i hge
    rw [List.take_append, List.take_of_length_le (Nat.le_of_not_lt hge), ← List.append_assoc]
    exact hds _ hn

theorem hidesQuotes_of_not_mem (h : '"' ∉ cs) : HidesQuotes before cs :=
  fun _ hn => absurd (List.mem_of_getElem? hn) h

/-- A character is doubled, is the quote behind its backslash, or becomes something without quotes that
does not end in a backslash. -/
theorem quoteChar_cases (c : Char) : quoteChar c = ['\\', '\\'] ∨ quoteChar c = ['\\', '"'] ∨
    ∃ cs d, quoteChar c = cs ++ [d] ∧ d ≠ '\\' ∧ '"' ∉ cs ++ [d] := by
  have hdigit : ∀ n < 16, Hex.digit n ≠ '\\' ∧ Hex.digit n ≠ '"' := by decide
  have hdigits (places n : Nat) : '"' ∉ Hex.digits places n := by
    induction places generalizing n with
    | zero => exact List.not_mem_nil
    | succ places ih =>
      rw [Hex.digits, List.mem_append, List.mem_singleton, not_or]
      exact ⟨ih _, (hdigit _ (Nat.mod_lt n (by decide))).2.symm⟩
  have hescape (places n : Nat) {x : Char} (hx : x ≠ '"') :
      ∃ cs d, '\\' :: x :: Hex.digits (places + 1) n = cs ++ [d] ∧ d ≠ '\\' ∧ '"' ∉ cs ++ [d] := by
    refine ⟨'\\' :: x :: Hex.digits places (n / 16), Hex.digit (n % 16), rfl,
      (hdigit _ (Nat.mod_lt n (by decide))).1, ?_⟩
    intro hmem
    rcases List.mem_cons.mp hmem with h | hmem
    · cases h
    · rcases List.mem_cons.mp hmem with h | hmem
      · exact hx h.symm
      · exact hdigits (places + 1) n hmem
  unfold quoteChar
  split
  · exact .inl rfl
  · exact .inr (.inl rfl)
  · exact .inr (.inr ⟨['\\'], 'n', rfl, by decide, by decide⟩)
  · exact .inr (.inr ⟨['\\'], 'r', rfl, by decide, by decide⟩)
  · exact .inr (.inr ⟨['\\'], 't', rfl, by decide, by decide⟩)
  · rename_i hbackslash hquote _ _ _
    right
    right
    split
    · exact hescape 1 _ (by decide)
    · split
      · exact ⟨[], c, rfl, hbackslash, fun h => hquote (List.mem_singleton.mp h).symm⟩
      · split
        · exact hescape 3 _ (by decide)
        · exact hescape 7 _ (by decide)

/-- Where no backslash is left over before a character, none is left over behind it. -/
theorem hidesQuotes_quoteChar (h : Even (trailingBackslashes before)) (c : Char) :
    Even (trailingBackslashes (before ++ quoteChar c)) ∧ HidesQuotes before (quoteChar c) := by
  rcases quoteChar_cases c with hc | hc | ⟨cs, d, hc, hd, hquote⟩
  · rw [hc]
    have hpair : before ++ ['\\', '\\'] = (before ++ ['\\']) ++ ['\\'] := by simp
    constructor
    · rw [hpair, trailingBackslashes_concat, trailingBackslashes_concat, if_pos rfl, if_pos rfl]
      exact h.add even_two
    · exact hidesQuotes_of_not_mem (by decide)
  · rw [hc]
    have hpair : before ++ ['\\', '"'] = (before ++ ['\\']) ++ ['"'] := by simp
    constructor
    · rw [hpair, trailingBackslashes_concat, if_neg (by decide)]
      exact Even.zero
    · intro n hn
      match n, hn with
      | 1, _ =>
        change ¬Even (trailingBackslashes (before ++ ['\\']))
        rw [trailingBackslashes_concat, if_pos rfl, Nat.even_add_one]
        exact not_not_intro h
  · rw [hc]
    constructor
    · rw [← List.append_assoc, trailingBackslashes_concat, if_neg hd]
      exact Even.zero
    · exact hidesQuotes_of_not_mem hquote

theorem hidesQuotes_flatMap (h : Even (trailingBackslashes before)) (text : List Char) :
    Even (trailingBackslashes (before ++ text.flatMap quoteChar)) ∧
      HidesQuotes before (text.flatMap quoteChar) := by
  induction text generalizing before with
  | nil =>
    rw [List.flatMap_nil, List.append_nil]
    exact ⟨h, hidesQuotes_of_not_mem List.not_mem_nil⟩
  | cons c cs ih =>
    obtain ⟨heven, hhides⟩ := hidesQuotes_quoteChar h c
    obtain ⟨heven', hhides'⟩ := ih heven
    rw [List.flatMap_cons, ← List.append_assoc]
    exact ⟨heven', hhides.append hhides'⟩

theorem isUnescaped_quote_iff (s : String) (n : Nat) : IsUnescaped (quote s).toList n ↔
    n = 0 ∨ n = (s.toList.flatMap quoteChar).length + 1 := by
  have hstart : Even (trailingBackslashes ['"']) := Even.zero
  obtain ⟨heven, hhides⟩ := hidesQuotes_flatMap hstart s.toList
  rw [toList_quote, IsUnescaped]
  generalize s.toList.flatMap quoteChar = body at heven hhides ⊢
  cases n with
  | zero => exact iff_of_true ⟨rfl, Even.zero⟩ (.inl rfl)
  | succ n =>
    rw [List.getElem?_cons_succ, List.take_succ_cons, Nat.add_right_cancel_iff, or_iff_right nofun]
    rcases Nat.lt_trichotomy n body.length with hlt | rfl | hgt
    · rw [List.getElem?_append_left hlt, List.take_append_of_le_length (Nat.le_of_lt hlt)]
      exact iff_of_false (fun h => hhides n h.1 h.2) (Nat.ne_of_lt hlt)
    · rw [List.getElem?_concat_length, List.take_left]
      exact iff_of_true ⟨rfl, heven⟩ rfl
    · rw [List.getElem?_eq_none (by rw [List.length_append]; exact hgt)]
      exact iff_of_false (fun h => nomatch h.1) (Nat.ne_of_gt hgt)

theorem isQuoted_quote (s : String) : IsQuoted (quote s).toList where
  printable c hc := by
    rw [toList_quote] at hc
    rcases List.mem_cons.mp hc with rfl | hc
    · rfl
    · rcases List.mem_append.mp hc with hc | hc
      · obtain ⟨d, -, hd⟩ := List.mem_flatMap.mp hc
        exact isPrintable_of_mem_quoteChar hd
      · rw [List.mem_singleton.mp hc]
        rfl
  delimited := ⟨_, toList_quote s, isUnescaped_quote_iff s⟩

/-! ## Reading literals -/

/-- No literal is the start of another one. -/
theorem quote_append_inj {s t : String} {rest rest' : List Char} :
    (quote s).toList ++ rest = (quote t).toList ++ rest' ↔ s = t ∧ rest = rest' := by
  constructor
  · intro h
    have hread := token_quote_append s rest
    rw [h, token_quote_append] at hread
    cases hread
    exact ⟨rfl, rfl⟩
  · rintro ⟨rfl, rfl⟩
    rfl

/-- A quoted text is printable, ends where it should, and reads as the text and as no other, also in
front of anything else. -/
theorem quotes_quote : (∀ s, IsQuoted (quote s).toList) ∧
    (∀ s rest, token ((quote s).toList ++ rest) = some (.string s, rest)) ∧
    Function.Injective quote ∧
    ∀ s t rest rest', (quote s).toList ++ rest = (quote t).toList ++ rest' ↔ s = t ∧ rest = rest' := by
  refine ⟨isQuoted_quote, token_quote_append, ?_, fun _ _ _ _ => quote_append_inj⟩
  intro s t h
  have happend : (quote s).toList ++ [] = (quote t).toList ++ [] := by rw [h]
  exact (quote_append_inj.mp happend).1

end ScriptFuzz.Python
