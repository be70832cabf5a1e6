import ScriptFuzz.Json.Reader
import ScriptFuzz.Json.Text
import ScriptFuzz.Proofs.Text.Hex

/-!
# Texts read back from JSON strings

The body of a string ends where it was ended, and the text that it was written for is read from it,
whatever characters the text has.
-/

namespace ScriptFuzz.Json

set_option autoImplicit false

open ScriptFuzz.Text

/-- The letters behind a backslash, each with the character that it stands for. -/
def letters : List (Char × Char) :=
  [('"', '"'), ('\\', '\\'), ('/', '/'), ('b', '\x08'), ('f', '\x0c'), ('n', '\n'), ('r', '\r'),
    ('t', '\t')]

/-- A hexadecimal digit of either case, and its value. -/
inductive HexDigit : Char → Nat → Prop where
  | decimal (n : Nat) (h : n < 10) : HexDigit (Char.ofNat (48 + n)) n
  | lower (n : Nat) (h : n < 6) : HexDigit (Char.ofNat (97 + n)) (10 + n)
  | upper (n : Nat) (h : n < 6) : HexDigit (Char.ofNat (65 + n)) (10 + n)

/-- Four digits, most significant first, and the unit of sixteen bits that they make. -/
inductive HexUnit : List Char → Nat → Prop where
  | digits {a b c d : Char} {x y z w : Nat} (ha : HexDigit a x) (hb : HexDigit b y)
      (hc : HexDigit c z) (hd : HexDigit d w) :
      HexUnit [a, b, c, d] (((x * 16 + y) * 16 + z) * 16 + w)

/-- How a character may be written: with a letter, with its number, as a pair of surrogates, or as it
stands. -/
inductive Writes (c : Char) : List Char → Prop where
  | letter (e : Char) (h : (e, c) ∈ letters) : Writes c ['\\', e]
  | number {ds : List Char} (h : HexUnit ds c.toNat) : Writes c ('\\' :: 'u' :: ds)
  | pair {high low : Nat} {ds es : List Char} (hhigh : HexUnit ds high) (hlow : HexUnit es low)
      (hds : 0xd800 ≤ high ∧ high < 0xdc00) (hes : 0xdc00 ≤ low ∧ low < 0xe000)
      (h : c.toNat = 0x10000 + (high - 0xd800) * 0x400 + (low - 0xdc00)) :
      Writes c ('\\' :: 'u' :: ds ++ '\\' :: 'u' :: es)
  | plain (hquote : c ≠ '"') (hslash : c ≠ '\\') (h : 0x20 ≤ c.toNat) : Writes c [c]

theorem hexDigit_digit {n : Nat} (h : n < 16) : HexDigit (Hex.digit n) n := by
  unfold Hex.digit
  split
  · exact .decimal n ‹_›
  · obtain ⟨m, rfl⟩ := Nat.exists_eq_add_of_le (Nat.le_of_not_lt ‹¬n < 10›)
    rw [← Nat.add_assoc]
    exact .lower m (by omega)

theorem hexUnit_digits {n : Nat} (h : n < 0x10000) : HexUnit (Hex.digits 4 n) n := by
  have hunit : HexUnit (Hex.digits 4 n) _ :=
    .digits (hexDigit_digit (Nat.mod_lt (n / 16 / 16 / 16) (by decide)))
      (hexDigit_digit (Nat.mod_lt (n / 16 / 16) (by decide)))
      (hexDigit_digit (Nat.mod_lt (n / 16) (by decide))) (hexDigit_digit (Nat.mod_lt n (by decide)))
  have hvalue : ((n / 16 / 16 / 16 % 16 * 16 + n / 16 / 16 % 16) * 16 + n / 16 % 16) * 16 +
      n % 16 = n := by omega
  rwa [hvalue] at hunit

theorem HexDigit.read {c : Char} {n : Nat} (h : HexDigit c n) :
    isHexDigit c = true ∧ Hex.value? c = some n := by
  have hdecimal : ∀ m < 10, isHexDigit (Char.ofNat (48 + m)) = true ∧
      Hex.value? (Char.ofNat (48 + m)) = some m := by decide
  have hlower : ∀ m < 6, isHexDigit (Char.ofNat (97 + m)) = true ∧
      Hex.value? (Char.ofNat (97 + m)) = some (10 + m) := by decide
  have hupper : ∀ m < 6, isHexDigit (Char.ofNat (65 + m)) = true ∧
      Hex.value? (Char.ofNat (65 + m)) = some (10 + m) := by decide
  cases h with
  | decimal n h => exact hdecimal n h
  | lower m h => exact hlower m h
  | upper m h => exact hupper m h

theorem HexUnit.read {ds : List Char} {n : Nat} (h : HexUnit ds n) :
    ∃ a b c d, ds = [a, b, c, d] ∧
      (isHexDigit a && isHexDigit b && isHexDigit c && isHexDigit d) = true ∧
      Hex.number? [a, b, c, d] = some n := by
  obtain @⟨a, b, c, d, x, y, z, w, ha, hb, hc, hd⟩ := h
  refine ⟨a, b, c, d, rfl, ?_, ?_⟩
  · rw [ha.read.1, hb.read.1, hc.read.1, hd.read.1]
    rfl
  · simp [Hex.number?, ha.read.2, hb.read.2, hc.read.2, hd.read.2]

theorem writes_encodeChar (c : Char) : Writes c (encodeChar c) := by
  unfold encodeChar
  split
  · exact .letter _ (by decide)
  · exact .letter _ (by decide)
  · exact .letter _ (by decide)
  · exact .letter _ (by decide)
  · exact .letter _ (by decide)
  · exact .letter _ (by decide)
  · exact .letter _ (by decide)
  · rename_i hquote hslash _ _ _ _ _
    split
    · exact .number (hexUnit_digits (by omega))
    · exact .plain hquote hslash (by omega)

theorem escaped?_of_mem_letters {e c : Char} (h : (e, c) ∈ letters) :
    e ∈ ['"', '\\', '/', 'b', 'f', 'n', 'r', 't'] ∧ escaped? e = some c := by
  have hall : ∀ x ∈ letters, x.1 ∈ ['"', '\\', '/', 'b', 'f', 'n', 'r', 't'] ∧
      escaped? x.1 = some x.2 := by decide
  exact hall _ h

/-- No character is a surrogate. -/
theorem isSurrogate_toNat (c : Char) : isSurrogate c.toNat = false := by
  have hvalid : c.toNat < 0xd800 ∨ 0xdfff < c.toNat ∧ c.toNat < 0x110000 := c.valid
  simp only [isSurrogate, Bool.and_eq_false_iff, decide_eq_false_iff_not]
  omega

theorem readBody_append {c : Char} {w : List Char} (h : Writes c w) (cs : List Char) :
    readBody (w ++ cs) = (readBody cs).map fun (body, rest) => (w ++ body, rest) := by
  cases h with
  | letter e h =>
    obtain ⟨he, -⟩ := escaped?_of_mem_letters h
    simp only [List.mem_cons, List.not_mem_nil, or_false] at he
    rcases he with rfl | rfl | rfl | rfl | rfl | rfl | rfl | rfl <;> rfl
  | number h =>
    obtain ⟨a, b, c, d, rfl, hhex, -⟩ := h.read
    simp only [List.cons_append, List.nil_append, readBody, hhex, if_true]
  | pair hhigh hlow _ _ _ =>
    obtain ⟨a, b, c, d, rfl, hhex, -⟩ := hhigh.read
    obtain ⟨e, f, g, h, rfl, hhex', -⟩ := hlow.read
    simp only [List.cons_append, List.nil_append, readBody, hhex, hhex', if_true, Option.map_map]
    rfl
  | plain hquote hslash h =>
    rw [List.singleton_append, readBody, if_neg (Nat.not_lt.mpr h)]
    · rfl
    · exact hquote
    · exact fun _ _ _ _ _ hc => absurd hc hslash
    · exact fun _ _ hc => absurd hc hslash
    · exact fun hc => absurd hc hslash

theorem decode?_append {c : Char} {w : List Char} (h : Writes c w) (cs : List Char) :
    decode? (w ++ cs) = (decode? cs).map (c :: ·) := by
  cases h with
  | letter e h =>
    obtain ⟨he, h⟩ := escaped?_of_mem_letters h
    simp only [List.mem_cons, List.not_mem_nil, or_false] at he
    rcases he with rfl | rfl | rfl | rfl | rfl | rfl | rfl | rfl <;> cases h <;>
      cases hcs : decode? cs <;> simp [decode?, escaped?, hcs]
  | number h =>
    obtain ⟨a, b, e, d, rfl, -, hnumber⟩ := h.read
    simp only [List.cons_append, List.nil_append, decode?, hnumber]
    rw [Option.bind_eq_bind, Option.bind_some, isSurrogate_toNat, if_neg Bool.false_ne_true,
      Char.ofNat_toNat]
    cases decode? cs <;> rfl
  | @pair high low _ _ hhigh hlow hds hes h =>
    obtain ⟨a, b, c', d, rfl, -, hnumber⟩ := hhigh.read
    obtain ⟨e, f, g, i, rfl, -, hnumber'⟩ := hlow.read
    have hsurrogate : isSurrogate high = true := by
      simp only [isSurrogate, Bool.and_eq_true, decide_eq_true_eq]
      omega
    have hpair : pair? high low = some c := by
      rw [pair?, if_pos ⟨hds.1, hds.2, hes.1, hes.2⟩, ← h, Char.ofNat_toNat]
    simp only [List.cons_append, List.nil_append, decode?, hnumber, hnumber', hpair, hsurrogate,
      Option.bind_eq_bind, Option.bind_some, if_true]
    cases decode? cs <;> rfl
  | plain hquote hslash h =>
    rw [List.singleton_append, decode?]
    · cases decode? cs <;> rfl
    · exact fun _ _ _ _ _ hc => absurd hc hslash
    · exact fun _ _ hc => absurd hc hslash

/-- How a text may be written in a body: its characters one after the other. -/
inductive WritesText : List Char → List Char → Prop where
  | nil : WritesText [] []
  | cons {c : Char} {w cs body : List Char} (hw : Writes c w) (h : WritesText cs body) :
      WritesText (c :: cs) (w ++ body)

theorem writesText_encode (cs : List Char) : WritesText cs (encode cs) := by
  induction cs with
  | nil => exact .nil
  | cons c cs ih => exact .cons (writes_encodeChar c) ih

theorem WritesText.decode? {cs body : List Char} (h : WritesText cs body) :
    decode? body = some cs := by
  induction h with
  | nil => rfl
  | cons hw _ ih => rw [decode?_append hw, ih, Option.map_some]

/-- A text is read from the body that is written for it. -/
theorem decode?_encode (cs : List Char) : decode? (encode cs) = some cs :=
  (writesText_encode cs).decode?

/-- The body of a string ends at its closing quote. -/
def IsBody (body : List Char) : Prop :=
  ∀ rest, readBody (body ++ '"' :: rest) = some (body, rest)

theorem IsBody.append {c : Char} {w body : List Char} (hw : Writes c w) (h : IsBody body) :
    IsBody (w ++ body) := by
  intro rest
  rw [List.append_assoc, readBody_append hw, h rest]
  rfl

theorem WritesText.isBody {cs body : List Char} (h : WritesText cs body) : IsBody body := by
  induction h with
  | nil => exact fun _ => rfl
  | cons hw _ ih => exact ih.append hw

theorem isBody_encode (cs : List Char) : IsBody (encode cs) := (writesText_encode cs).isBody

/-- Digits need no escapes. -/
theorem isBody_of_isDigit {ds : List Char} (h : ∀ c ∈ ds, c.isDigit = true) : IsBody ds := by
  induction ds with
  | nil => exact fun _ => rfl
  | cons c ds ih =>
    have hc := h c List.mem_cons_self
    have hplain : Writes c [c] := by
      refine .plain ?_ ?_ ?_
      · rintro rfl
        exact absurd hc (by decide)
      · rintro rfl
        exact absurd hc (by decide)
      · simp only [Char.isDigit, Bool.and_eq_true, decide_eq_true_eq] at hc
        exact Nat.le_trans (by decide) (UInt32.le_iff_toNat_le.mp hc.1)
    exact (ih fun d hd => h d (List.mem_cons_of_mem c hd)).append hplain

end ScriptFuzz.Json
