import ScriptFuzz.Json.Writer
import ScriptFuzz.Proofs.Json.Numeral
import ScriptFuzz.Proofs.Json.Text

/-!
# Values read back from JSON

A value is writable if its lexemes are those of the grammar. Written with a line for each item and
member, it is read back as the same tree (`readFirst_pretty`), by induction over the tree. The text
that is left over is never shorter than what the reader still needs, so the reader does not give up.
-/

namespace ScriptFuzz.Json

set_option autoImplicit false

mutual

/-- Every lexeme of the value is one of the grammar. -/
def IsWritable : Json → Prop
  | .number lexeme => Numeral lexeme
  | .string body => IsBody body
  | .array items => AreWritable items
  | .object members => MembersAreWritable members
  | .broken => False
  | _ => True

def AreWritable : List Json → Prop
  | [] => True
  | j :: js => j.IsWritable ∧ AreWritable js

def MembersAreWritable : List (List Char × Json) → Prop
  | [] => True
  | (k, j) :: ms => IsBody k ∧ j.IsWritable ∧ MembersAreWritable ms

end

theorem areWritable_iff {js : List Json} : AreWritable js ↔ ∀ j ∈ js, j.IsWritable := by
  induction js with
  | nil => simp [AreWritable]
  | cons j js ih => simp [AreWritable, ih]

theorem membersAreWritable_iff {ms : List (List Char × Json)} :
    MembersAreWritable ms ↔ ∀ m ∈ ms, IsBody m.1 ∧ m.2.IsWritable := by
  induction ms with
  | nil => simp [MembersAreWritable]
  | cons m ms ih => simp [MembersAreWritable, ih, and_assoc]

mutual

theorem isWhole_of_isWritable : ∀ {j : Json}, j.IsWritable → j.isWhole = true
  | .null, _ | .bool _, _ | .number _, _ | .string _, _ => rfl
  | .array _, h => areWhole_of_areWritable h
  | .object _, h => membersAreWhole_of_membersAreWritable h

theorem areWhole_of_areWritable : ∀ {js : List Json}, AreWritable js → areWhole js = true
  | [], _ => rfl
  | j :: js, h => by
    rw [areWhole, isWhole_of_isWritable h.1, areWhole_of_areWritable h.2, Bool.and_self]

theorem membersAreWhole_of_membersAreWritable : ∀ {ms : List (List Char × Json)},
    MembersAreWritable ms → membersAreWhole ms = true
  | [], _ => rfl
  | (k, j) :: ms, h => by
    rw [membersAreWhole, isWhole_of_isWritable h.2.1, membersAreWhole_of_membersAreWritable h.2.2,
      Bool.and_self]

end

/-! ## White space -/

section Space

variable {c : Char} {cs : List Char} {fuel depth : Nat}

theorem skipSpace_cons (h : isSpace c = false) : skipSpace (c :: cs) = c :: cs :=
  List.dropWhile_cons_of_neg (Bool.eq_false_iff.mp h)

theorem skipSpace_newLine (depth : Nat) (cs : List Char) :
    skipSpace (newLine depth ++ cs) = skipSpace cs := by
  refine List.dropWhile_append_of_pos fun c hc => ?_
  rcases List.mem_cons.mp hc with rfl | hc
  · rfl
  · rw [List.eq_of_mem_replicate hc]
    rfl

theorem skipSpace_idem (cs : List Char) : skipSpace (skipSpace cs) = skipSpace cs := by
  induction cs with
  | nil => rfl
  | cons c cs ih =>
    cases hc : isSpace c with
    | true =>
      have hskip : skipSpace (c :: cs) = skipSpace cs := List.dropWhile_cons_of_pos hc
      rw [hskip, ih]
    | false => rw [skipSpace_cons hc, skipSpace_cons hc]

theorem readValue_congr {cs cs' : List Char} (h : skipSpace cs = skipSpace cs') :
    readValue fuel cs = readValue fuel cs' := by
  cases fuel with
  | zero => rfl
  | succ fuel => rw [readValue, readValue, h]

theorem readItems_congr {cs cs' : List Char} (h : skipSpace cs = skipSpace cs') :
    readItems fuel cs = readItems fuel cs' := by
  cases fuel with
  | zero => rfl
  | succ fuel => rw [readItems, readItems, readValue_congr h]

theorem readMembers_congr {cs cs' : List Char} (h : skipSpace cs = skipSpace cs') :
    readMembers fuel cs = readMembers fuel cs' := by
  cases fuel with
  | zero => rfl
  | succ fuel => rw [readMembers, readMembers, h]

theorem ends_cons {rest : List Char}
    (h : c.isDigit = false ∧ c ≠ '.' ∧ c ≠ 'e' ∧ c ≠ 'E') : Ends (c :: rest) := by
  rintro _ ⟨⟩
  exact h

end Space

/-! ## Scalars -/

section Scalars

variable {rest : List Char} {fuel : Nat}

/-- The reader goes on to a scalar at a character that opens nothing. -/
theorem readValue_scalar {c : Char} {cs : List Char} (hspace : isSpace c = false) (harray : c ≠ '[')
    (hobject : c ≠ '\x7b') : readValue (fuel + 1) (c :: cs) = readScalar (c :: cs) := by
  rw [readValue, skipSpace_cons hspace]
  split
  · rename_i heq
    exact absurd (List.cons.inj heq).1 harray
  · rename_i heq
    exact absurd (List.cons.inj heq).1 hobject
  · rfl

/-- A numeral starts with a character that starts nothing else. -/
theorem Numeral.exists_cons {lexeme : List Char} (h : Numeral lexeme) :
    ∃ c cs, lexeme = c :: cs ∧ isSpace c = false ∧ c ≠ '[' ∧ c ≠ ']' ∧ c ≠ '\x7b' ∧ c ≠ 'n' ∧
      c ≠ 't' ∧ c ≠ 'f' ∧ c ≠ '"' := by
  cases h with
  | negative => exact ⟨'-', _, rfl, by decide, by decide⟩
  | positive hw =>
    obtain ⟨c, cs, rfl, hc⟩ := hw.exists_cons
    have hnot {d : Char} (hd : d.isDigit = false) : c ≠ d := by
      rintro rfl
      exact Bool.eq_false_iff.mp hd hc
    have hspace : isSpace c = false := by
      simp [isSpace, hnot (d := ' ') rfl, hnot (d := '\n') rfl, hnot (d := '\r') rfl,
        hnot (d := '\t') rfl]
    exact ⟨c, _, rfl, hspace, hnot rfl, hnot rfl, hnot rfl, hnot rfl, hnot rfl, hnot rfl, hnot rfl⟩

theorem readValue_number {lexeme : List Char} (h : Numeral lexeme) (hrest : Ends rest) :
    readValue (fuel + 1) (lexeme ++ rest) = (.number lexeme, some rest) := by
  have hread := h.readNumber hrest
  obtain ⟨c, cs, rfl, hspace, harray, -, hobject, hn, ht, hf, hq⟩ := h.exists_cons
  rw [List.cons_append] at hread ⊢
  rw [readValue_scalar hspace harray hobject]
  unfold readScalar
  split
  · rename_i heq
    exact absurd (List.cons.inj heq).1 hn
  · rename_i heq
    exact absurd (List.cons.inj heq).1 ht
  · rename_i heq
    exact absurd (List.cons.inj heq).1 hf
  · rename_i heq
    exact absurd (List.cons.inj heq).1 hq
  · rw [hread]

theorem readValue_string {body : List Char} (h : IsBody body) :
    readValue (fuel + 1) (quoted body ++ rest) = (.string body, some rest) := by
  have htext : quoted body ++ rest = '"' :: (body ++ '"' :: rest) := by simp [quoted]
  rw [htext, readValue_scalar rfl (by decide) (by decide), readScalar, h rest]

end Scalars

/-! ## Arrays and objects -/

section Inner

variable {rest tail : List Char} {fuel depth : Nat}

theorem readValue_array {cs : List Char} {items : List Json}
    (hcs : ∀ rest, skipSpace cs ≠ ']' :: rest)
    (hread : readItems fuel cs = (items, some rest)) :
    readValue (fuel + 1) ('[' :: cs) = (.array items, some rest) := by
  rw [readValue, skipSpace_cons rfl]
  simp only
  rw [readItems_congr (skipSpace_idem cs), hread]

theorem readValue_object {cs : List Char} {members : List (List Char × Json)}
    (hcs : ∀ rest, skipSpace cs ≠ '\x7d' :: rest)
    (hread : readMembers fuel cs = (members, some rest)) :
    readValue (fuel + 1) ('\x7b' :: cs) = (.object members, some rest) := by
  rw [readValue, skipSpace_cons rfl]
  simp only
  rw [readMembers_congr (skipSpace_idem cs), hread]

theorem readItems_last {cs : List Char} {j : Json} (hread : readValue fuel cs = (j, some tail))
    (htail : skipSpace tail = ']' :: rest) : readItems (fuel + 1) cs = ([j], some rest) := by
  rw [readItems]
  simp only [hread, htail]

theorem readItems_cons {cs : List Char} {j : Json} {js : List Json}
    (hread : readValue fuel cs = (j, some (',' :: tail)))
    (hrest : readItems fuel tail = (js, some rest)) :
    readItems (fuel + 1) cs = (j :: js, some rest) := by
  rw [readItems, hread]
  simp only
  rw [skipSpace_cons rfl]
  simp only
  rw [hrest]

/-- A key and a colon stand before the value of a member, and the end of the object or a further
member behind it. -/
theorem readMembers_key {start cs key : List Char} {j : Json}
    {read : List (List Char × Json) × Option (List Char)} (hkey : IsBody key)
    (hstart : skipSpace start = quoted key ++ ':' :: cs)
    (hread : readValue fuel cs = (j, some tail))
    (htail : (∃ rest, skipSpace tail = '\x7d' :: rest ∧ read = ([(key, j)], some rest)) ∨
      ∃ next, skipSpace tail = ',' :: next ∧
        read = ((key, j) :: (readMembers fuel next).1, (readMembers fuel next).2)) :
    readMembers (fuel + 1) start = read := by
  have htext : quoted key ++ ':' :: cs = '"' :: (key ++ '"' :: ':' :: cs) := by
    simp [quoted]
  rw [readMembers, hstart, htext]
  simp only
  rw [hkey]
  simp only
  rw [skipSpace_cons rfl]
  rcases htail with ⟨rest, htail, rfl⟩ | ⟨next, htail, rfl⟩
  · simp only [hread, htail]
  · simp only [hread, htail]

theorem readMembers_last {start cs key : List Char} {j : Json} (hkey : IsBody key)
    (hstart : skipSpace start = quoted key ++ ':' :: cs)
    (hread : readValue fuel cs = (j, some tail)) (htail : skipSpace tail = '\x7d' :: rest) :
    readMembers (fuel + 1) start = ([(key, j)], some rest) :=
  readMembers_key hkey hstart hread (.inl ⟨rest, htail, rfl⟩)

theorem readMembers_cons {start cs key : List Char} {j : Json} {ms : List (List Char × Json)}
    (hkey : IsBody key) (hstart : skipSpace start = quoted key ++ ':' :: cs)
    (hread : readValue fuel cs = (j, some (',' :: tail)))
    (hrest : readMembers fuel tail = (ms, some rest)) :
    readMembers (fuel + 1) start = ((key, j) :: ms, some rest) :=
  readMembers_key hkey hstart hread (.inr ⟨tail, skipSpace_cons rfl, by rw [hrest]⟩)

/-- A member on a line of its own starts with its key. -/
theorem skipSpace_member (depth : Nat) (key cs : List Char) :
    skipSpace (newLine depth ++ (quoted key ++ ':' :: cs)) = quoted key ++ ':' :: cs := by
  rw [skipSpace_newLine]
  exact skipSpace_cons rfl

theorem readValue_space {cs : List Char} : readValue fuel (' ' :: cs) = readValue fuel cs :=
  readValue_congr (List.dropWhile_cons_of_pos rfl)

end Inner

/-- A value starts neither with white space nor with the end of an array. -/
theorem exists_prettyText {j : Json} (h : j.IsWritable) (depth : Nat) :
    ∃ c cs, prettyText depth j = c :: cs ∧ isSpace c = false ∧ c ≠ ']' := by
  cases j with
  | null => exact ⟨_, _, rfl, rfl, by decide⟩
  | bool b => cases b <;> exact ⟨_, _, rfl, rfl, by decide⟩
  | number lexeme =>
    obtain ⟨c, cs, rfl, hspace, -, hclose, -⟩ := Numeral.exists_cons h
    exact ⟨c, cs, rfl, hspace, hclose⟩
  | string body => exact ⟨_, _, rfl, rfl, by decide⟩
  | array items => cases items <;> exact ⟨_, _, rfl, rfl, by decide⟩
  | object members => cases members <;> exact ⟨_, _, rfl, rfl, by decide⟩
  | broken => exact absurd h not_false

theorem skipSpace_prettyItems {js : List Json} (hne : js ≠ []) (h : AreWritable js) (depth : Nat)
    (cs rest : List Char) : skipSpace (prettyItems depth js ++ cs) ≠ ']' :: rest := by
  obtain ⟨j, js, rfl⟩ := List.exists_cons_of_ne_nil hne
  obtain ⟨c, cs', htext, hspace, hc⟩ := exists_prettyText h.1 depth
  have hitems : ∃ tail, prettyItems depth (j :: js) ++ cs = newLine depth ++ c :: tail := by
    cases js <;> simp [prettyItems, htext]
  obtain ⟨tail, hitems⟩ := hitems
  rw [hitems, skipSpace_newLine, skipSpace_cons hspace]
  exact fun heq => hc (List.cons.inj heq).1

theorem skipSpace_prettyMembers {ms : List (List Char × Json)} (hne : ms ≠ []) (depth : Nat)
    (cs rest : List Char) : skipSpace (prettyMembers depth ms ++ cs) ≠ '\x7d' :: rest := by
  obtain ⟨⟨k, j⟩, ms, rfl⟩ := List.exists_cons_of_ne_nil hne
  have hmembers : ∃ tail,
      prettyMembers depth ((k, j) :: ms) ++ cs = newLine depth ++ '"' :: tail := by
    cases ms <;> simp [prettyMembers, quoted]
  obtain ⟨tail, hmembers⟩ := hmembers
  rw [hmembers, skipSpace_newLine, skipSpace_cons rfl]
  exact fun heq => absurd (List.cons.inj heq).1 (by decide)

theorem length_newLine (depth : Nat) : (newLine depth).length = 2 * depth + 1 := by
  rw [newLine, List.length_cons, List.length_replicate]

theorem ends_newLine (depth : Nat) (cs : List Char) : Ends (newLine depth ++ cs) :=
  ends_cons (by decide)

/-- Fuel for a text that is not empty. -/
theorem exists_fuel {fuel n : Nat} (h : 2 * (n + 1) ≤ fuel) : ∃ k, fuel = k + 1 ∧ 2 * n < k :=
  ⟨fuel - 1, by omega, by omega⟩

mutual

/-- A value is read up to the end of its text, each inner value on fuel for its own text. -/
theorem readValue_prettyText : ∀ (fuel depth : Nat) {j : Json} {rest : List Char}, j.IsWritable →
    2 * (prettyText depth j).length ≤ fuel → Ends rest →
    readValue fuel (prettyText depth j ++ rest) = (j, some rest)
  | fuel, depth, j, rest, h, hfuel, hrest => by
    obtain ⟨c, cs, htext, -⟩ := exists_prettyText h depth
    have hlength : (prettyText depth j).length = cs.length + 1 := congrArg List.length htext
    obtain ⟨fuel, rfl, hlt⟩ := exists_fuel (hlength ▸ hfuel)
    match j, h with
    | .null, _ => rfl
    | .bool true, _ => rfl
    | .bool false, _ => rfl
    | .number lexeme, h => exact readValue_number h hrest
    | .string body, h => exact readValue_string h
    | .array [], _ => rfl
    | .object [], _ => rfl
    | .array (j :: js), h =>
      simp only [prettyText, List.length_append, List.length_cons] at hfuel
      have hread := readItems_prettyItems fuel (depth + 1) (List.cons_ne_nil j js) h (by omega)
        (ends_newLine depth (']' :: rest)) (skipSpace_newLine depth _)
      simp only [prettyText, List.cons_append, List.append_assoc, List.nil_append]
      exact readValue_array (skipSpace_prettyItems (List.cons_ne_nil j js) h _ _) hread
    | .object (m :: ms), h =>
      simp only [prettyText, List.length_append, List.length_cons] at hfuel
      have hread := readMembers_prettyMembers fuel (depth + 1) (List.cons_ne_nil m ms) h
        (by omega) (ends_newLine depth ('\x7d' :: rest)) (skipSpace_newLine depth _)
      simp only [prettyText, List.cons_append, List.append_assoc, List.nil_append]
      exact readValue_object (skipSpace_prettyMembers (List.cons_ne_nil m ms) _ _) hread

theorem readItems_prettyItems : ∀ (fuel depth : Nat) {js : List Json} {tail rest : List Char},
    js ≠ [] → AreWritable js → 2 * (prettyItems depth js).length ≤ fuel → Ends tail →
    skipSpace tail = ']' :: rest → readItems fuel (prettyItems depth js ++ tail) = (js, some rest)
  | _, _, [], _, _, hne, _, _, _, _ => absurd rfl hne
  | fuel, depth, [j], tail, rest, _, h, hfuel, hends, htail => by
    rw [prettyItems, List.length_append, length_newLine, Nat.add_right_comm] at hfuel
    obtain ⟨fuel, rfl, hlt⟩ := exists_fuel hfuel
    rw [prettyItems, List.append_assoc, readItems_congr (skipSpace_newLine depth _)]
    exact readItems_last (readValue_prettyText fuel depth h.1 (by omega) hends) htail
  | fuel, depth, j :: j' :: js, tail, rest, _, h, hfuel, hends, htail => by
    simp only [prettyItems, List.length_append, List.length_cons, ← Nat.add_assoc] at hfuel
    obtain ⟨fuel, rfl, hlt⟩ := exists_fuel hfuel
    have hrest := readItems_prettyItems fuel depth (List.cons_ne_nil j' js) h.2 (by omega) hends
      htail
    simp only [prettyItems, List.append_assoc, List.cons_append]
    rw [readItems_congr (skipSpace_newLine depth _)]
    exact readItems_cons
      (readValue_prettyText fuel depth h.1 (by omega) (ends_cons (by decide))) hrest

theorem readMembers_prettyMembers : ∀ (fuel depth : Nat) {ms : List (List Char × Json)}
    {tail rest : List Char}, ms ≠ [] → MembersAreWritable ms →
    2 * (prettyMembers depth ms).length ≤ fuel → Ends tail → skipSpace tail = '\x7d' :: rest →
    readMembers fuel (prettyMembers depth ms ++ tail) = (ms, some rest)
  | _, _, [], _, _, hne, _, _, _, _ => absurd rfl hne
  | fuel, depth, [(k, j)], tail, rest, _, h, hfuel, hends, htail => by
    simp only [prettyMembers, List.length_append, List.length_cons, ← Nat.add_assoc] at hfuel
    obtain ⟨fuel, rfl, hlt⟩ := exists_fuel hfuel
    have hread := readValue_prettyText fuel depth h.2.1 (by omega) hends
    simp only [prettyMembers, List.append_assoc, List.cons_append]
    exact readMembers_last h.1 (skipSpace_member depth k _) (readValue_space.trans hread) htail
  | fuel, depth, (k, j) :: m :: ms, tail, rest, _, h, hfuel, hends, htail => by
    simp only [prettyMembers, List.length_append, List.length_cons, ← Nat.add_assoc] at hfuel
    obtain ⟨fuel, rfl, hlt⟩ := exists_fuel hfuel
    have hrest := readMembers_prettyMembers fuel depth (List.cons_ne_nil m ms) h.2.2 (by omega)
      hends htail
    simp only [prettyMembers, List.append_assoc, List.cons_append]
    exact readMembers_cons h.1 (skipSpace_member depth k _)
      (readValue_space.trans
        (readValue_prettyText fuel depth h.2.1 (by omega) (ends_cons (by decide)))) hrest

end

/-- What is written as a text is read from it. -/
theorem readFirst_pretty {j : Json} (h : j.IsWritable) : readFirst j.pretty.toList = (j, true) := by
  have hread : readValue (2 * (prettyText 0 j).length + 2) (prettyText 0 j ++ []) = (j, some []) :=
    readValue_prettyText _ 0 h (Nat.le_add_right _ 2) nofun
  rw [List.append_nil] at hread
  rw [pretty, String.toList_ofList, readFirst, hread]
  rfl

end ScriptFuzz.Json
