import ScriptFuzz.Json.Numeral
import ScriptFuzz.Json.Reader
import ScriptFuzz.Proofs.Number.Digits
import ScriptFuzz.Proofs.Number.ReadBack

/-!
# Numbers read back from JSON

`Numeral` is the grammar of numbers. A number is read up to its last character if nothing follows
that continues it (`Numeral.readNumber`). What is written for integers and for finite numbers is a
numeral, and integers have the value that they were written for.
-/

namespace ScriptFuzz.Json

set_option autoImplicit false

open ScriptFuzz.Number

/-- What follows does not continue a number. -/
def Ends (rest : List Char) : Prop :=
  ∀ c ∈ rest.head?, c.isDigit = false ∧ c ≠ '.' ∧ c ≠ 'e' ∧ c ≠ 'E'

/-- The digits before the point: a single zero, or digits that do not start with one. -/
structure WholeDigits (ds : List Char) : Prop where
  ne_nil : ds ≠ []
  isDigit : ∀ c ∈ ds, c.isDigit = true
  zero : ds.head? = some '0' → ds = ['0']

inductive Fraction : List Char → Prop where
  | none : Fraction []
  | places (ds : List Char) (hne : ds ≠ []) (hds : ∀ c ∈ ds, c.isDigit = true) :
      Fraction ('.' :: ds)

inductive Exponent : List Char → Prop where
  | none : Exponent []
  | power (sign ds : List Char) (hsign : sign = [] ∨ sign = ['+'] ∨ sign = ['-']) (hne : ds ≠ [])
      (hds : ∀ c ∈ ds, c.isDigit = true) : Exponent ('e' :: (sign ++ ds))

inductive Numeral : List Char → Prop where
  | positive {whole fraction exponent : List Char} (hw : WholeDigits whole)
      (hf : Fraction fraction) (he : Exponent exponent) : Numeral (whole ++ fraction ++ exponent)
  | negative {whole fraction exponent : List Char} (hw : WholeDigits whole)
      (hf : Fraction fraction) (he : Exponent exponent) :
      Numeral ('-' :: (whole ++ fraction ++ exponent))

section Reading

variable {ds whole fraction exponent rest : List Char}

theorem digitRun_append (hds : ∀ c ∈ ds, c.isDigit = true)
    (hrest : ∀ c ∈ rest.head?, c.isDigit = false) : digitRun (ds ++ rest) = (ds, rest) := by
  obtain ⟨htake, hdrop⟩ := takeWhile_append hds hrest
  rw [digitRun, List.span_eq_takeWhile_dropWhile, htake, hdrop]

theorem WholeDigits.readWhole (h : WholeDigits whole)
    (hrest : ∀ c ∈ rest.head?, c.isDigit = false) :
    readWhole (whole ++ rest) = some (whole, rest) := by
  unfold Json.readWhole
  rw [digitRun_append h.isDigit hrest]
  split
  · rename_i heq
    exact absurd (congrArg Prod.fst heq) h.ne_nil
  · rename_i heq
    have hwhole : whole = '0' :: _ :: _ := congrArg Prod.fst heq
    have hzero := h.zero (by rw [hwhole]; rfl)
    rw [hwhole] at hzero
    cases hzero
  · rfl

theorem Fraction.readFraction (h : Fraction fraction)
    (hrest : ∀ c ∈ rest.head?, c.isDigit = false ∧ c ≠ '.') :
    readFraction (fraction ++ rest) = some (fraction, rest) := by
  cases h with
  | none =>
    rw [List.nil_append]
    unfold Json.readFraction
    split
    · exact absurd rfl (hrest '.' rfl).2
    · rfl
  | places ds hne hds =>
    rw [List.cons_append, Json.readFraction, digitRun_append hds fun c hc => (hrest c hc).1]
    split
    · rename_i heq
      exact absurd (congrArg Prod.fst heq) hne
    · rename_i heq
      cases heq
      rfl

theorem readSign_append {sign : List Char} (hsign : sign = [] ∨ sign = ['+'] ∨ sign = ['-'])
    (hne : ds ≠ []) (hds : ∀ c ∈ ds, c.isDigit = true) :
    readSign (sign ++ (ds ++ rest)) = (sign, ds ++ rest) := by
  rcases hsign with rfl | rfl | rfl
  · obtain ⟨d, ds, rfl⟩ := List.exists_cons_of_ne_nil hne
    have hd := hds d List.mem_cons_self
    rw [List.nil_append, List.cons_append]
    unfold readSign
    split
    · rename_i heq
      rw [(List.cons.inj heq).1] at hd
      exact absurd hd (by decide)
    · rename_i heq
      rw [(List.cons.inj heq).1] at hd
      exact absurd hd (by decide)
    · rfl
  · rfl
  · rfl

theorem Exponent.readExponent (h : Exponent exponent) (hrest : Ends rest) :
    readExponent (exponent ++ rest) = some (exponent, rest) := by
  cases h with
  | none =>
    cases rest with
    | nil => rfl
    | cons c cs =>
      obtain ⟨-, -, he, hE⟩ := hrest c rfl
      rw [List.nil_append, Json.readExponent, if_neg (by simp [he, hE])]
  | power sign ds hsign hne hds =>
    rw [List.cons_append, List.append_assoc, Json.readExponent, if_pos (by decide),
      readSign_append hsign hne hds]
    simp only
    rw [digitRun_append hds fun c hc => (hrest c hc).1]
    split
    · rename_i heq
      exact absurd (congrArg Prod.fst heq) hne
    · rename_i heq
      cases heq
      rfl

theorem Exponent.head (h : Exponent exponent) (hrest : Ends rest) :
    ∀ c ∈ (exponent ++ rest).head?, c.isDigit = false ∧ c ≠ '.' := by
  cases h with
  | none => exact fun c hc => ⟨(hrest c hc).1, (hrest c hc).2.1⟩
  | power sign ds =>
    rintro _ ⟨⟩
    decide

theorem Fraction.head (h : Fraction fraction)
    (hrest : ∀ c ∈ rest.head?, c.isDigit = false ∧ c ≠ '.') :
    ∀ c ∈ (fraction ++ rest).head?, c.isDigit = false := by
  cases h with
  | none => exact fun c hc => (hrest c hc).1
  | places ds =>
    rintro _ ⟨⟩
    decide

theorem WholeDigits.exists_cons (h : WholeDigits whole) :
    ∃ d ds, whole = d :: ds ∧ d.isDigit = true := by
  obtain ⟨d, ds, rfl⟩ := List.exists_cons_of_ne_nil h.ne_nil
  exact ⟨d, ds, rfl, h.isDigit d List.mem_cons_self⟩

theorem Numeral.readNumber {lexeme : List Char} (h : Numeral lexeme) (hrest : Ends rest) :
    readNumber (lexeme ++ rest) = some (lexeme, rest) := by
  cases h with
  | @positive whole fraction exponent hw hf he =>
    have hexponent := he.head hrest
    obtain ⟨d, ds, hcons, hd⟩ := hw.exists_cons
    have hread := hw.readWhole (hf.head hexponent)
    rw [List.append_assoc, List.append_assoc]
    unfold Json.readNumber
    split
    rename_i heq
    split at heq
    · rename_i hminus
      rw [hcons] at hminus
      rw [(List.cons.inj hminus).1] at hd
      exact absurd hd (by decide)
    · cases heq
      rw [hread]
      simp only [Option.bind_eq_bind, Option.bind_some]
      rw [hf.readFraction hexponent]
      simp only [Option.bind_some]
      rw [he.readExponent hrest]
      rfl
  | @negative whole fraction exponent hw hf he =>
    have hexponent := he.head hrest
    rw [List.cons_append, List.append_assoc, List.append_assoc]
    unfold Json.readNumber
    simp only
    rw [hw.readWhole (hf.head hexponent)]
    simp only [Option.bind_eq_bind, Option.bind_some]
    rw [hf.readFraction hexponent]
    simp only [Option.bind_some]
    rw [he.readExponent hrest]
    rfl

end Reading

/-! ## What is written -/

theorem wholeDigits_zero : WholeDigits ['0'] :=
  ⟨List.cons_ne_nil _ _, List.forall_mem_singleton.mpr rfl, fun _ => rfl⟩

theorem fraction_zero : Fraction ['.', '0'] :=
  .places ['0'] (List.cons_ne_nil _ _) (List.forall_mem_singleton.mpr rfl)

theorem wholeDigits_toDigits (n : Nat) : WholeDigits (Nat.toDigits 10 n) where
  ne_nil := Nat.toDigits_ne_nil
  isDigit := isDigit_of_mem_toDigits
  zero h := by
    rw [head_toDigits h]
    rfl

theorem WholeDigits.numeral {ds : List Char} (h : WholeDigits ds) : Numeral ds := by
  have hnumeral := Numeral.positive h .none .none
  rwa [List.append_nil, List.append_nil] at hnumeral

theorem toList_toString_nat (n : Nat) : (toString n).toList = Nat.toDigits 10 n := by
  rw [Nat.toString_eq_repr, Nat.toList_repr]

theorem numeral_toString_nat (n : Nat) : Numeral (toString n).toList := by
  rw [toList_toString_nat]
  exact (wholeDigits_toDigits n).numeral

theorem numeral_toString_int (n : Int) : Numeral (toString n).toList := by
  rw [toList_toString]
  split
  · exact (wholeDigits_toDigits _).numeral
  · have h := Numeral.negative (wholeDigits_toDigits (-n).toNat) .none .none
    rwa [List.append_nil, List.append_nil] at h

theorem ofDigits_toDigits (n : Nat) : ofDigits (Nat.toDigits 10 n) = n := by
  have hfold (ds : List Char) (m : Nat) :
      ds.foldl (fun n d => n * 10 + (d.toNat - 48)) m = Nat.ofDigitChars 10 ds m := by
    induction ds generalizing m with
    | nil => rfl
    | cons d ds ih => rw [List.foldl_cons, ih, Nat.mul_comm]; rfl
  rw [ofDigits, hfold]
  exact Nat.ofDigitChars_ten_toDigits

/-- The digits of a number are read as the number. -/
theorem natural?_toDigits (n : Nat) : natural? (Nat.toDigits 10 n) = some n := by
  have hall : (Nat.toDigits 10 n).all Char.isDigit = true :=
    List.all_eq_true.mpr isDigit_of_mem_toDigits
  rw [natural?, if_pos ⟨Nat.toDigits_ne_nil, hall⟩, ofDigits_toDigits]

theorem nat?_ofNat {n bound : Nat} (h : n < bound) : nat? bound (ofNat n) = some n := by
  change (natural? (toString n).toList).filter (· < bound) = some n
  rw [toList_toString_nat, natural?_toDigits, Option.filter_some, if_pos (decide_eq_true h)]

/-- An integer is read back with its sign. -/
theorem integer?_toString (n : Int) : integer? (toString n).toList = some n := by
  rw [toList_toString]
  split
  · rename_i hn
    obtain ⟨d, ds, hcons, hd⟩ := (wholeDigits_toDigits n.toNat).exists_cons
    have hnatural := natural?_toDigits n.toNat
    unfold integer?
    split
    · rename_i heq
      rw [heq] at hcons
      rw [← (List.cons.inj hcons).1] at hd
      exact absurd hd (by decide)
    · rw [hnatural]
      exact congrArg some (Int.toNat_of_nonneg hn)
  · rw [integer?, natural?_toDigits]
    split
    · rename_i heq
      have := Option.some.inj heq
      omega
    · rename_i heq
      have := Option.some.inj heq
      congr 1
      omega
    · rename_i heq
      cases heq

theorem int?_ofInt {n low high : Int} (hlow : low ≤ n) (hhigh : n ≤ high) :
    int? low high (ofInt n) = some n := by
  change (integer? (toString n).toList).filter (fun n => low ≤ n ∧ n ≤ high) = some n
  rw [integer?_toString, Option.filter_some, if_pos (decide_eq_true ⟨hlow, hhigh⟩)]

section Text

variable {ds : List Char} {lead : Int}

/-- Digits whose first one is not zero. -/
structure LeadingDigits (ds : List Char) : Prop where
  ne_nil : ds ≠ []
  isDigit : ∀ c ∈ ds, c.isDigit = true
  head : ds.head? ≠ some '0'

theorem LeadingDigits.wholeDigits (h : LeadingDigits ds) : WholeDigits ds :=
  ⟨h.ne_nil, h.isDigit, fun hzero => absurd hzero h.head⟩

theorem LeadingDigits.append (h : LeadingDigits ds) {ds' : List Char}
    (h' : ∀ c ∈ ds', c.isDigit = true) : LeadingDigits (ds ++ ds') where
  ne_nil := List.append_ne_nil_of_left_ne_nil h.ne_nil _
  isDigit := List.forall_mem_append.mpr ⟨h.isDigit, h'⟩
  head := by
    rw [List.head?_append_of_ne_nil _ h.ne_nil]
    exact h.head

theorem LeadingDigits.take (h : LeadingDigits ds) (n : Nat) : LeadingDigits (ds.take (n + 1)) where
  ne_nil := by
    obtain ⟨d, ds, rfl⟩ := List.exists_cons_of_ne_nil h.ne_nil
    exact List.cons_ne_nil _ _
  isDigit c hc := h.isDigit c (List.mem_of_mem_take hc)
  head := by
    obtain ⟨d, ds, rfl⟩ := List.exists_cons_of_ne_nil h.ne_nil
    exact h.head

theorem leadingDigits_text {d : Decimal} (h : d.digits ≠ 0) : LeadingDigits d.text where
  ne_nil := by
    rw [Decimal.text_eq]
    exact Nat.toDigits_ne_nil
  isDigit := Decimal.isDigit_of_mem_text
  head hzero := h (head_toDigits (Decimal.text_eq d ▸ hzero))

/-- Digits with a point are digits on both sides of it. -/
theorem exists_positionalText (h : LeadingDigits ds) (lead : Int) : ∃ whole fraction,
    WholeDigits whole ∧ Fraction fraction ∧ positionalText true ds lead = whole ++ fraction := by
  unfold positionalText
  split
  · refine ⟨['0'], '.' :: (List.replicate (-lead - 1).toNat '0' ++ ds), wholeDigits_zero,
      .places _ ?_ ?_, rfl⟩
    · exact List.append_ne_nil_of_right_ne_nil _ h.ne_nil
    · exact List.forall_mem_append.mpr ⟨isDigit_of_mem_replicate _, h.isDigit⟩
  · dsimp only
    split
    · exact ⟨_, _, (h.append (isDigit_of_mem_replicate _)).wholeDigits, fraction_zero, rfl⟩
    · rename_i hlength
      refine ⟨_, _, (h.take lead.toNat).wholeDigits, .places (ds.drop (lead.toNat + 1)) ?_ ?_, rfl⟩
      · exact fun hnil => hlength (List.drop_eq_nil_iff.mp hnil)
      · exact fun c hc => h.isDigit c (List.mem_of_mem_drop hc)

theorem exists_scientificText (h : LeadingDigits ds) (lead : Int) : ∃ whole fraction exponent,
    WholeDigits whole ∧ Fraction fraction ∧ Exponent exponent ∧
      scientificText true ds lead = whole ++ fraction ++ exponent := by
  have hexponent : Exponent
      ('e' :: ((if true && decide (0 ≤ lead) then ['+'] else []) ++ (toString lead).toList)) := by
    rw [toList_toString]
    by_cases hlead : 0 ≤ lead
    · rw [if_pos hlead, if_pos (by simpa using hlead)]
      exact .power ['+'] _ (.inr (.inl rfl)) Nat.toDigits_ne_nil isDigit_of_mem_toDigits
    · rw [if_neg hlead, if_neg (by simpa using hlead)]
      exact .power ['-'] _ (.inr (.inr rfl)) Nat.toDigits_ne_nil isDigit_of_mem_toDigits
  have hwhole : WholeDigits (ds.take 1) := (h.take 0).wholeDigits
  unfold scientificText
  dsimp only
  split
  · exact ⟨_, [], _, hwhole, .none, hexponent, List.append_assoc _ _ _⟩
  · rename_i hne
    have hfraction : Fraction ('.' :: ds.drop 1) :=
      .places _ (fun hnil => hne hnil) fun c hc => h.isDigit c (List.mem_of_mem_drop hc)
    exact ⟨_, _, _, hwhole, hfraction, hexponent, List.append_assoc _ _ _⟩

theorem numeral_text {x : Binary64} (h : x.isFinite = true) :
    Numeral (Layout.json.text x).toList := by
  obtain ⟨hnan, hinfinite⟩ := Binary64.isFinite_iff.mp h
  have hmagnitude : ∃ whole fraction exponent, WholeDigits whole ∧ Fraction fraction ∧
      Exponent exponent ∧
      (if x.isZero then positionalText Layout.json.keepsPoint ['0'] 0
        else Layout.json.decimalText (x.shortest Layout.json.tie)) =
          whole ++ fraction ++ exponent := by
    split
    · exact ⟨_, _, [], wholeDigits_zero, fraction_zero, .none, rfl⟩
    · rename_i hzero
      have hdigits := leadingDigits_text
        (Binary64.contains_shortest (Bool.not_eq_true _ ▸ hzero) Layout.json.tie).2
      unfold Layout.decimalText
      dsimp only
      split
      · obtain ⟨whole, fraction, hw, hf, heq⟩ := exists_positionalText hdigits
          ((x.shortest Layout.json.tie).exponent + (x.shortest Layout.json.tie).text.length - 1)
        exact ⟨whole, fraction, [], hw, hf, .none, heq.trans (List.append_nil _).symm⟩
      · exact exists_scientificText hdigits _
  obtain ⟨whole, fraction, exponent, hw, hf, he, heq⟩ := hmagnitude
  unfold Layout.text
  rw [hnan, hinfinite, if_neg Bool.false_ne_true]
  simp only [Bool.false_eq_true, if_false]
  rw [String.toList_ofList, heq]
  split
  · exact .negative hw hf he
  · exact .positive hw hf he

end Text

end ScriptFuzz.Json
