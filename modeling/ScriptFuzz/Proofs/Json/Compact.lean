import ScriptFuzz.Proofs.Json.Reading

/-!
# Values read back from one line

A writable value without white space stands on one line, and it is read back as the same tree
(`readFirst_compact`).
-/

namespace ScriptFuzz.Json

set_option autoImplicit false

/-! ## One line -/

/-- No character is a control. -/
def Printable (cs : List Char) : Prop := ∀ c ∈ cs, 0x20 ≤ c.toNat

instance (cs : List Char) : Decidable (Printable cs) := List.decidableBAll _ cs

theorem printable_nil : Printable [] := by
  intro c hc
  cases hc

theorem printable_cons {c : Char} {cs : List Char} :
    Printable (c :: cs) ↔ 0x20 ≤ c.toNat ∧ Printable cs := List.forall_mem_cons

theorem printable_append {cs ds : List Char} :
    Printable (cs ++ ds) ↔ Printable cs ∧ Printable ds := List.forall_mem_append

theorem toNat_of_isDigit {c : Char} (h : c.isDigit = true) : 0x20 ≤ c.toNat := by
  simp only [Char.isDigit, Bool.and_eq_true, decide_eq_true_eq] at h
  exact Nat.le_trans (by decide) (UInt32.le_iff_toNat_le.mp h.1)

theorem printable_of_isDigit {ds : List Char} (h : ∀ c ∈ ds, c.isDigit = true) :
    Printable ds := fun c hc => toNat_of_isDigit (h c hc)

theorem toNat_of_isHexDigit {c : Char} (h : isHexDigit c = true) : 0x20 ≤ c.toNat := by
  simp only [isHexDigit, Bool.or_eq_true, Bool.and_eq_true, decide_eq_true_eq] at h
  rcases h with (h | h) | h
  · exact toNat_of_isDigit h
  · exact Nat.le_trans (by decide) (UInt32.le_iff_toNat_le.mp h.1)
  · exact Nat.le_trans (by decide) (UInt32.le_iff_toNat_le.mp h.1)

/-- A string with a control in it is not read. -/
theorem printable_of_readBody {cs body rest : List Char} (h : readBody cs = some (body, rest)) :
    Printable body := by
  induction cs using readBody.induct generalizing body rest with
  | case1 => cases h
  | case2 cs =>
    cases h
    exact printable_nil
  | case3 a b c d cs hhex ih =>
    rw [readBody, if_pos hhex] at h
    obtain ⟨⟨body', rest'⟩, hread, hbody⟩ := Option.map_eq_some_iff.mp h
    cases hbody
    simp only [Bool.and_eq_true] at hhex
    obtain ⟨⟨⟨ha, hb⟩, hc⟩, hd⟩ := hhex
    simp only [printable_cons]
    exact ⟨by decide, by decide, toNat_of_isHexDigit ha, toNat_of_isHexDigit hb,
      toNat_of_isHexDigit hc, toNat_of_isHexDigit hd, ih hread⟩
  | case4 a b c d cs hhex =>
    rw [readBody, if_neg hhex] at h
    cases h
  | case5 e cs hnot he ih =>
    rw [readBody, if_pos he] at h
    · obtain ⟨⟨body', rest'⟩, hread, hbody⟩ := Option.map_eq_some_iff.mp h
      cases hbody
      simp only [printable_cons]
      refine ⟨by decide, ?_, ih hread⟩
      have hall : Printable ['"', '\\', '/', 'b', 'f', 'n', 'r', 't'] := by decide
      exact hall e he
    · exact hnot
  | case6 e cs hnot he =>
    rw [readBody, if_neg he] at h
    · cases h
    · exact hnot
  | case7 => cases h
  | case8 c cs hquote hhex hletter hslash hcontrol =>
    rw [readBody, if_pos hcontrol] at h
    · cases h
    all_goals assumption
  | case9 c cs hquote hhex hletter hslash hcontrol ih =>
    rw [readBody, if_neg hcontrol] at h
    · obtain ⟨⟨body', rest'⟩, hread, hbody⟩ := Option.map_eq_some_iff.mp h
      cases hbody
      exact printable_cons.mpr ⟨Nat.le_of_not_lt hcontrol, ih hread⟩
    all_goals assumption

theorem IsBody.printable {body : List Char} (h : IsBody body) : Printable body :=
  printable_of_readBody (h [])

theorem WholeDigits.printable {ds : List Char} (h : WholeDigits ds) : Printable ds :=
  printable_of_isDigit h.isDigit

theorem Fraction.printable {cs : List Char} (h : Fraction cs) : Printable cs := by
  cases h with
  | none => exact printable_nil
  | places ds hne hds => exact printable_cons.mpr ⟨by decide, printable_of_isDigit hds⟩

theorem Exponent.printable {cs : List Char} (h : Exponent cs) : Printable cs := by
  cases h with
  | none => exact printable_nil
  | power sign ds hsign hne hds =>
    refine printable_cons.mpr ⟨by decide, printable_append.mpr ⟨?_, printable_of_isDigit hds⟩⟩
    have hchars : Printable [] ∧ Printable ['+'] ∧ Printable ['-'] := by
      decide
    rcases hsign with rfl | rfl | rfl
    · exact hchars.1
    · exact hchars.2.1
    · exact hchars.2.2

theorem Numeral.printable {cs : List Char} (h : Numeral cs) : Printable cs := by
  cases h with
  | positive hw hf he =>
    exact printable_append.mpr ⟨printable_append.mpr ⟨hw.printable, hf.printable⟩, he.printable⟩
  | negative hw hf he =>
    refine printable_cons.mpr ⟨by decide, ?_⟩
    exact printable_append.mpr ⟨printable_append.mpr ⟨hw.printable, hf.printable⟩, he.printable⟩

theorem printable_quoted {body : List Char} (h : IsBody body) : Printable (quoted body) := by
  refine printable_cons.mpr ⟨by decide, printable_append.mpr ⟨h.printable, ?_⟩⟩
  exact printable_cons.mpr ⟨by decide, printable_nil⟩

mutual

theorem printable_compactText : ∀ {j : Json}, j.IsWritable → Printable (compactText j)
  | .null, _ | .bool true, _ | .bool false, _ => by
    decide
  | .number lexeme, h => Numeral.printable h
  | .string body, h => printable_quoted h
  | .array items, h => by
    rw [compactText]
    refine printable_cons.mpr ⟨by decide, printable_append.mpr ⟨printable_compactItems h, ?_⟩⟩
    exact printable_cons.mpr ⟨by decide, printable_nil⟩
  | .object members, h => by
    rw [compactText]
    refine printable_cons.mpr ⟨by decide, printable_append.mpr ⟨printable_compactMembers h, ?_⟩⟩
    exact printable_cons.mpr ⟨by decide, printable_nil⟩

theorem printable_compactItems : ∀ {js : List Json}, AreWritable js → Printable (compactItems js)
  | [], _ => printable_nil
  | [j], h => printable_compactText h.1
  | j :: j' :: js, h => by
    rw [compactItems]
    · refine printable_append.mpr ⟨printable_compactText h.1, printable_cons.mpr ⟨by decide, ?_⟩⟩
      exact printable_compactItems h.2
    · exact nofun

theorem printable_compactMembers : ∀ {ms : List (List Char × Json)}, MembersAreWritable ms →
    Printable (compactMembers ms)
  | [], _ => printable_nil
  | [(k, j)], h => by
    rw [compactMembers]
    exact printable_append.mpr ⟨printable_quoted h.1,
      printable_cons.mpr ⟨by decide, printable_compactText h.2.1⟩⟩
  | (k, j) :: m :: ms, h => by
    rw [compactMembers]
    · refine printable_append.mpr ⟨printable_append.mpr ⟨printable_quoted h.1, ?_⟩, ?_⟩
      · exact printable_cons.mpr ⟨by decide, printable_compactText h.2.1⟩
      · exact printable_cons.mpr ⟨by decide, printable_compactMembers h.2.2⟩
    · exact nofun

end

/-! ## Reading -/

/-- A value starts neither with white space nor with the end of an array. -/
theorem exists_compactText {j : Json} (h : j.IsWritable) :
    ∃ c cs, compactText j = c :: cs ∧ isSpace c = false ∧ c ≠ ']' := by
  cases j with
  | null => exact ⟨_, _, rfl, rfl, by decide⟩
  | bool b => cases b <;> exact ⟨_, _, rfl, rfl, by decide⟩
  | number lexeme =>
    obtain ⟨c, cs, rfl, hspace, -, hclose, -⟩ := Numeral.exists_cons h
    exact ⟨c, cs, rfl, hspace, hclose⟩
  | string body => exact ⟨_, _, rfl, rfl, by decide⟩
  | array items => exact ⟨_, _, rfl, rfl, by decide⟩
  | object members => exact ⟨_, _, rfl, rfl, by decide⟩
  | broken => exact absurd h not_false

theorem skipSpace_compactItems {j : Json} {js : List Json} (h : j.IsWritable)
    (cs rest : List Char) : skipSpace (compactItems (j :: js) ++ cs) ≠ ']' :: rest := by
  obtain ⟨c, cs', htext, hspace, hc⟩ := exists_compactText h
  have hitems : ∃ tail, compactItems (j :: js) ++ cs = c :: tail := by
    cases js <;> simp [compactItems, htext]
  obtain ⟨tail, hitems⟩ := hitems
  rw [hitems, skipSpace_cons hspace]
  exact fun heq => hc (List.cons.inj heq).1

theorem skipSpace_compactMembers (m : List Char × Json) (ms : List (List Char × Json))
    (cs rest : List Char) : skipSpace (compactMembers (m :: ms) ++ cs) ≠ '\x7d' :: rest := by
  obtain ⟨k, j⟩ := m
  have hmembers : ∃ tail, compactMembers ((k, j) :: ms) ++ cs = '"' :: tail := by
    cases ms <;> simp [compactMembers, quoted]
  obtain ⟨tail, hmembers⟩ := hmembers
  rw [hmembers, skipSpace_cons rfl]
  exact fun heq => absurd (List.cons.inj heq).1 (by decide)

theorem skipSpace_quoted (key cs : List Char) :
    skipSpace (quoted key ++ cs) = quoted key ++ cs := skipSpace_cons rfl

mutual

/-- A value is read up to the end of its text, each inner value on fuel for its own text. -/
theorem readValue_compactText : ∀ (fuel : Nat) {j : Json} {rest : List Char}, j.IsWritable →
    2 * (compactText j).length ≤ fuel → Ends rest →
    readValue fuel (compactText j ++ rest) = (j, some rest)
  | fuel, j, rest, h, hfuel, hrest => by
    obtain ⟨c, cs, htext, -⟩ := exists_compactText h
    have hlength : (compactText j).length = cs.length + 1 := congrArg List.length htext
    obtain ⟨fuel, rfl, hlt⟩ := exists_fuel (hlength ▸ hfuel)
    match j, h with
    | .null, _ => rfl
    | .bool true, _ => rfl
    | .bool false, _ => rfl
    | .number lexeme, h => exact readValue_number h hrest
    | .string body, h => exact readValue_string h
    | .array [], _ => rfl
    | .object [], _ => rfl
    | .array (j :: js), h =>
      simp only [compactText, List.length_append, List.length_cons] at hfuel
      have hclose : skipSpace (']' :: rest) = ']' :: rest := skipSpace_cons rfl
      have hread := readItems_compactItems fuel (List.cons_ne_nil j js) h (by omega)
        (ends_cons (by decide)) hclose
      simp only [compactText, List.cons_append, List.append_assoc, List.nil_append]
      exact readValue_array (skipSpace_compactItems h.1 _) hread
    | .object (m :: ms), h =>
      simp only [compactText, List.length_append, List.length_cons] at hfuel
      have hclose : skipSpace ('\x7d' :: rest) = '\x7d' :: rest := skipSpace_cons rfl
      have hread := readMembers_compactMembers fuel (List.cons_ne_nil m ms) h (by omega)
        (ends_cons (by decide)) hclose
      simp only [compactText, List.cons_append, List.append_assoc, List.nil_append]
      exact readValue_object (skipSpace_compactMembers m ms _) hread

theorem readItems_compactItems : ∀ (fuel : Nat) {js : List Json} {tail rest : List Char},
    js ≠ [] → AreWritable js → 2 * ((compactItems js).length + 1) ≤ fuel → Ends tail →
    skipSpace tail = ']' :: rest → readItems fuel (compactItems js ++ tail) = (js, some rest)
  | _, [], _, _, hne, _, _, _, _ => absurd rfl hne
  | fuel, [j], tail, rest, _, h, hfuel, hends, htail => by
    rw [compactItems] at hfuel
    obtain ⟨fuel, rfl, hlt⟩ := exists_fuel hfuel
    rw [compactItems]
    exact readItems_last (readValue_compactText fuel h.1 (by omega) hends) htail
  | fuel, j :: j' :: js, tail, rest, _, h, hfuel, hends, htail => by
    simp only [compactItems, List.length_append, List.length_cons, ← Nat.add_assoc] at hfuel
    obtain ⟨fuel, rfl, hlt⟩ := exists_fuel hfuel
    have hrest := readItems_compactItems fuel (List.cons_ne_nil j' js) h.2 (by omega) hends htail
    simp only [compactItems, List.append_assoc, List.cons_append]
    exact readItems_cons
      (readValue_compactText fuel h.1 (by omega) (ends_cons (by decide))) hrest

theorem readMembers_compactMembers : ∀ (fuel : Nat) {ms : List (List Char × Json)}
    {tail rest : List Char}, ms ≠ [] → MembersAreWritable ms →
    2 * ((compactMembers ms).length + 1) ≤ fuel → Ends tail → skipSpace tail = '\x7d' :: rest →
    readMembers fuel (compactMembers ms ++ tail) = (ms, some rest)
  | _, [], _, _, hne, _, _, _, _ => absurd rfl hne
  | fuel, [(k, j)], tail, rest, _, h, hfuel, hends, htail => by
    simp only [compactMembers, List.length_append, List.length_cons, ← Nat.add_assoc] at hfuel
    obtain ⟨fuel, rfl, hlt⟩ := exists_fuel hfuel
    have hread := readValue_compactText fuel h.2.1 (by omega) hends
    simp only [compactMembers, List.append_assoc, List.cons_append]
    exact readMembers_last h.1 (skipSpace_quoted k _) hread htail
  | fuel, (k, j) :: m :: ms, tail, rest, _, h, hfuel, hends, htail => by
    simp only [compactMembers, List.length_append, List.length_cons, ← Nat.add_assoc] at hfuel
    obtain ⟨fuel, rfl, hlt⟩ := exists_fuel hfuel
    have hrest := readMembers_compactMembers fuel (List.cons_ne_nil m ms) h.2.2 (by omega) hends
      htail
    simp only [compactMembers, List.append_assoc, List.cons_append]
    exact readMembers_cons h.1 (skipSpace_quoted k _)
      (readValue_compactText fuel h.2.1 (by omega) (ends_cons (by decide))) hrest

end

/-- What is written on one line is read from it. -/
theorem readFirst_compact {j : Json} (h : j.IsWritable) :
    readFirst j.compact.toList = (j, true) := by
  have hread : readValue (2 * (compactText j).length + 2) (compactText j ++ []) = (j, some []) :=
    readValue_compactText _ h (Nat.le_add_right _ 2) nofun
  rw [List.append_nil] at hread
  rw [compact, String.toList_ofList, readFirst, hread]
  rfl

theorem read?_compact {j : Json} (h : j.IsWritable) : read? j.compact = some j := by
  rw [read?, readFirst_compact h]
  exact if_pos (isWhole_of_isWritable h)

end ScriptFuzz.Json
