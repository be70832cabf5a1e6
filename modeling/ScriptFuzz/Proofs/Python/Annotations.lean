import ScriptFuzz.Proofs.Python.Mirroring
import ScriptFuzz.Proofs.Python.PhysicalLines

/-!
# Comments and positions leave the program as it is

`Line.remaining` is what the language still sees of a line when its annotation is deleted: the lines of
a comment that start with the sign of comments, and the position at the end of a line of code.
`Program.remaining_source` says when what remains of an annotated source is the plain source.
-/

namespace ScriptFuzz

set_option autoImplicit false

namespace Python

/-! ## Line ends -/

section

variable {cs ds s : List Char} {c : Char}

theorem physicalLines_ne_nil (h : cs ≠ []) : physicalLines cs ≠ [] := by
  fun_cases physicalLines cs <;> simp_all

theorem physicalLines_cons (hc : endsLine c = false) (hcs : cs ≠ []) :
    physicalLines (c :: cs) = (physicalLines cs).modifyHead (c :: ·) := by
  simp only [endsLine, Bool.or_eq_false_iff, decide_eq_false_iff_not] at hc
  rw [physicalLines]
  · cases hlines : physicalLines cs with
    | nil => exact absurd hlines (physicalLines_ne_nil hcs)
    | cons l ls => rfl
  · exact hc.1
  · exact fun _ hreturn => absurd hreturn hc.2
  · exact hc.2

theorem physicalLines_return (hcs : cs.head? ≠ some '\n') :
    physicalLines ('\r' :: cs) = [] :: physicalLines cs := by
  rw [physicalLines]
  rintro rest rfl
  exact hcs rfl

theorem physicalLines_append_left (hds : Inline ds) (hcs : cs ≠ []) :
    physicalLines (ds ++ cs) = (physicalLines cs).modifyHead (ds ++ ·) := by
  induction ds with
  | nil => exact (congrFun List.modifyHead_id _).symm
  | cons d ds ih =>
    obtain ⟨hd, hds⟩ := List.forall_mem_cons.mp hds
    rw [List.cons_append, physicalLines_cons hd (List.append_ne_nil_of_right_ne_nil _ hcs), ih hds,
      List.modifyHead_modifyHead]
    rfl

/-- A character before a text does not change what follows the text. -/
theorem physicalLines_cons_append {ls : List (List Char)} (hcs : cs ≠ [])
    (h : physicalLines (cs ++ ds) = physicalLines cs ++ ls) (c : Char) :
    physicalLines (c :: cs ++ ds) = physicalLines (c :: cs) ++ ls := by
  obtain ⟨d, rest, rfl⟩ := List.exists_cons_of_ne_nil hcs
  cases hc : endsLine c with
  | false =>
    obtain ⟨l, ls', hlines⟩ := List.exists_cons_of_ne_nil (physicalLines_ne_nil hcs)
    rw [List.cons_append, physicalLines_cons hc (List.append_ne_nil_of_left_ne_nil hcs ds), h,
      physicalLines_cons hc hcs, hlines]
    rfl
  | true =>
    simp only [endsLine, Bool.or_eq_true, decide_eq_true_eq] at hc
    rcases hc with rfl | rfl
    · exact congrArg ([] :: ·) h
    · by_cases hd : d = '\n'
      · subst hd
        exact h
      · have hhead (rest : List Char) : (d :: rest).head? ≠ some '\n' := by simpa using hd
        rw [List.cons_append, List.cons_append, physicalLines_return (hhead _),
          physicalLines_return (hhead _)]
        exact congrArg ([] :: ·) h

theorem inline_of_not_mem (hnewline : '\n' ∉ cs) (hreturn : '\r' ∉ cs) : Inline cs := by
  intro c hc
  rw [endsLine, Bool.or_eq_false_iff, decide_eq_false_iff_not, decide_eq_false_iff_not]
  refine ⟨?_, ?_⟩
  · rintro rfl
    exact hnewline hc
  · rintro rfl
    exact hreturn hc

theorem physicalLines_append_of_end
    (h : cs.getLast? = some '\n' ∨ cs.getLast? = some '\r' ∧ ds.head? ≠ some '\n') :
    physicalLines (cs ++ ds) = physicalLines cs ++ physicalLines ds := by
  induction cs with
  | nil => rcases h with h | ⟨h, -⟩ <;> cases h
  | cons c cs ih =>
    cases cs with
    | nil =>
      rcases h with h | ⟨h, hds⟩ <;> cases h
      · rfl
      · exact physicalLines_return hds
    | cons d cs =>
      rw [List.getLast?_cons_cons] at h
      exact physicalLines_cons_append (List.cons_ne_nil d cs) (ih h) c

/-- A carriage return and a line feed end one line. -/
theorem physicalLines_return_newline (h : cs.getLast? = some '\r') :
    physicalLines (cs ++ ['\n']) = physicalLines cs := by
  induction cs with
  | nil => cases h
  | cons c cs ih =>
    cases cs with
    | nil =>
      cases h
      rfl
    | cons d cs =>
      rw [List.getLast?_cons_cons] at h
      have hlines := (ih h).trans (List.append_nil _).symm
      rw [physicalLines_cons_append (List.cons_ne_nil d cs) hlines c, List.append_nil]

/-- The last line of a text, which has no end yet. -/
theorem exists_last_line (cs : List Char) : ∃ before last, cs = before ++ last ∧ Inline last ∧
    (before = [] ∨ before.getLast? = some '\n' ∨ before.getLast? = some '\r') := by
  induction cs using List.reverseRecOn with
  | nil => exact ⟨[], [], rfl, List.forall_mem_nil _, .inl rfl⟩
  | append_singleton cs c ih =>
    obtain ⟨before, last, rfl, hlast, hbefore⟩ := ih
    cases hc : endsLine c with
    | false =>
      refine ⟨before, last ++ [c], List.append_assoc _ _ _, ?_, hbefore⟩
      exact inline_append.mpr ⟨hlast, List.forall_mem_singleton.mpr hc⟩
    | true =>
      refine ⟨before ++ last ++ [c], [], (List.append_nil _).symm, List.forall_mem_nil _, .inr ?_⟩
      rw [List.getLast?_concat]
      simpa [endsLine] using hc

theorem physicalLines_append_right (hs : Inline s) (hcs : cs.getLast? ≠ some '\r') :
    ∃ before last, physicalLines (cs ++ ['\n']) = before ++ [last] ∧
      physicalLines (cs ++ s ++ ['\n']) = before ++ [last ++ s] := by
  obtain ⟨before, last, rfl, hlast, hbefore⟩ := exists_last_line cs
  have hline {s : List Char} (hs : Inline s) :
      physicalLines (before ++ last ++ s ++ ['\n']) = physicalLines before ++ [last ++ s] := by
    have hrest : physicalLines (last ++ s ++ ['\n']) = [last ++ s] :=
      physicalLines_append (inline_append.mpr ⟨hlast, hs⟩) []
    rw [List.append_assoc, List.append_assoc, ← List.append_assoc last, ← hrest]
    rcases hbefore with rfl | hbefore | hbefore
    · rfl
    · exact physicalLines_append_of_end (.inl hbefore)
    · -- A line feed at the start of the last line would be part of the end of the line before it.
      refine physicalLines_append_of_end (.inr ⟨hbefore, ?_⟩)
      cases last with
      | nil => exact absurd hbefore (by simpa using hcs)
      | cons c last =>
        rintro hc
        cases hc
        exact absurd (hlast _ List.mem_cons_self) (by decide)
  refine ⟨physicalLines before, last, ?_, hline hs⟩
  simpa using hline (s := []) (List.forall_mem_nil _)

/-- Behind a carriage return, another line starts. -/
theorem physicalLines_append_right_of_return (hs : Inline s) (hne : s ≠ [])
    (hcs : cs.getLast? = some '\r') :
    physicalLines (cs ++ s ++ ['\n']) = physicalLines (cs ++ ['\n']) ++ [s] := by
  have hline : physicalLines (s ++ ['\n']) = [s] := physicalLines_append hs []
  rw [physicalLines_return_newline hcs, List.append_assoc, ← hline]
  refine physicalLines_append_of_end (.inr ⟨hcs, ?_⟩)
  obtain ⟨c, s, rfl⟩ := List.exists_cons_of_ne_nil hne
  rintro hc
  cases hc
  exact absurd (hs _ List.mem_cons_self) (by decide)

end

/-! ## What remains of a line -/

namespace Line

/-- The lines that the language sees of a line. -/
def physical (annotations : Annotations) (x : Line) : List (List Char) :=
  physicalLines (x.chars annotations ++ ['\n'])

/-- Whether the language takes a line for a comment. -/
def startsComment (cs : List Char) : Bool := (cs.dropWhile isIndentation).head? == some '#'

/-- The lines without the position at the end of the last one. -/
def withoutSuffix (suffix : List Char) (ls : List (List Char)) : List (List Char) :=
  ls.dropLast ++ (ls.getLast?.map fun l =>
    if suffix.isSuffixOf l then l.take (l.length - suffix.length) else l).toList

/-- What the language sees of a line when its annotation is deleted. -/
def remaining (annotations : Annotations) (x : Line) : List (List Char) :=
  match x.content with
  | .statement _ n | .header _ n =>
    withoutSuffix (suffix annotations n).toList (x.physical annotations)
  | .comment _ => (x.physical annotations).filter fun cs => !startsComment cs
  | .filler => x.physical annotations

/-- Whether nothing of the annotation of a line can be left: behind a carriage return, a comment goes on
with another comment, and a statement that gets a position does not end. -/
def IsErasable (annotations : Annotations) (x : Line) : Prop :=
  match x.content with
  | .statement st _ => annotations.positions = true → st.text.toList.getLast? ≠ some '\r'
  | .comment text => ∀ cs ∈ (physicalLines (text.toList ++ ['\n'])).tail, startsComment cs = true
  | .header _ _ | .filler => True

/-- What the language sees of the line in a source without annotations. -/
def plain (x : Line) : List (List Char) := if x.isComment then [] else x.physical {}

variable {annotations : Annotations} {x : Line}

theorem withoutSuffix_concat (before : List (List Char)) (last suffix : List Char) :
    withoutSuffix suffix (before ++ [last ++ suffix]) = before ++ [last] := by
  have hsuffix : suffix.isSuffixOf (last ++ suffix) = true :=
    List.isSuffixOf_iff_suffix.mpr (List.suffix_append _ _)
  rw [withoutSuffix, List.dropLast_concat, List.getLast?_concat, Option.map_some, if_pos hsuffix]
  simp

theorem withoutSuffix_nil {ls : List (List Char)} (h : ls ≠ []) : withoutSuffix [] ls = ls := by
  have hconcat := withoutSuffix_concat ls.dropLast (ls.getLast h) []
  rwa [List.append_nil, List.dropLast_concat_getLast] at hconcat

theorem withoutSuffix_physicalLines {cs s : List Char} (hs : Inline s)
    (h : s = [] ∨ cs.getLast? ≠ some '\r') :
    withoutSuffix s (physicalLines (cs ++ s ++ ['\n'])) = physicalLines (cs ++ ['\n']) := by
  rcases h with rfl | h
  · rw [List.append_nil]
    exact withoutSuffix_nil (physicalLines_ne_nil (by simp))
  · obtain ⟨before, last, hplain, hsuffix⟩ := physicalLines_append_right hs h
    rw [hplain, hsuffix, withoutSuffix_concat]

/-- Behind a carriage return, the position is on a line of its own. -/
theorem withoutSuffix_of_return {cs s : List Char} (hs : Inline s) (hne : s ≠ [])
    (h : cs.getLast? = some '\r') :
    withoutSuffix s (physicalLines (cs ++ s ++ ['\n'])) = physicalLines (cs ++ ['\n']) ++ [[]] := by
  rw [physicalLines_append_right_of_return hs hne h]
  exact withoutSuffix_concat _ [] s

theorem suffix_eq_nil (n : Nat) :
    (suffix annotations n).toList = [] ↔ annotations.positions = false := by
  unfold suffix
  cases annotations.positions with
  | true => simp
  | false => simp

/-- Indentation changes nothing at the end of a line. -/
theorem getLast?_indented (d : Nat) (cs : List Char) :
    (List.replicate (4 * d) ' ' ++ cs).getLast? = some '\r' ↔ cs.getLast? = some '\r' := by
  cases cs with
  | nil =>
    rw [List.append_nil, List.getLast?_replicate]
    split <;> simp
  | cons c cs => rw [List.getLast?_append_of_ne_nil _ (List.cons_ne_nil c cs)]

theorem getLast?_toList_append {a b : String} {c : Char} (h : b.toList.getLast? = some c) :
    (a ++ b).toList.getLast? = some c := by
  rw [String.toList_append, List.getLast?_append, h]
  rfl

theorem getLast?_header (hd : Header) : hd.text.toList.getLast? = some ':' := by
  cases hd with
  | otherwise | tryBlock | finallyBlock | caseAny => decide
  | classBody name base =>
    cases base with
    | none => exact getLast?_toList_append (by decide)
    | some e => exact getLast?_toList_append (by decide)
  | _ => exact getLast?_toList_append (by decide)

theorem physical_code {text : String} {n : Nat}
    (hbody : ∀ annotations, body annotations x.content = text ++ suffix annotations n)
    (annotations : Annotations) :
    x.physical annotations = physicalLines (List.replicate (4 * x.depth) ' ' ++ text.toList ++
      (suffix annotations n).toList ++ ['\n']) := by
  rw [physical, chars, hbody, String.toList_append]
  simp only [List.append_assoc]

/-- What remains of a line of code is the line without its position, unless the position is behind a
carriage return. -/
theorem remaining_code (annotations : Annotations) (x : Line) {text : String} {n : Nat}
    (hcomment : x.isComment = false)
    (hbody : ∀ annotations, body annotations x.content = text ++ suffix annotations n) :
    (annotations.positions = true → text.toList.getLast? ≠ some '\r') ∧
        withoutSuffix (suffix annotations n).toList (x.physical annotations) = x.plain ∨
      (annotations.positions = true ∧ text.toList.getLast? = some '\r') ∧
        withoutSuffix (suffix annotations n).toList (x.physical annotations) = x.plain ++ [[]] := by
  have hplain : x.plain =
      physicalLines (List.replicate (4 * x.depth) ' ' ++ text.toList ++ ['\n']) := by
    rw [plain, hcomment, if_neg Bool.false_ne_true, physical_code hbody,
      (suffix_eq_nil n).mpr rfl, List.append_nil]
  rw [hplain, physical_code hbody]
  have hinline := inline_suffix annotations n
  by_cases hend : annotations.positions = true ∧ text.toList.getLast? = some '\r'
  · have hne : (suffix annotations n).toList ≠ [] := fun hnil => by
      rw [(suffix_eq_nil n).mp hnil] at hend
      exact Bool.false_ne_true hend.1
    exact .inr ⟨hend, withoutSuffix_of_return hinline hne ((getLast?_indented _ _).mpr hend.2)⟩
  · refine .inl ⟨fun hpositions hreturn => hend ⟨hpositions, hreturn⟩,
      withoutSuffix_physicalLines hinline ?_⟩
    cases hpositions : annotations.positions with
    | false => exact .inl ((suffix_eq_nil n).mpr hpositions)
    | true => exact .inr fun hreturn => hend ⟨hpositions, (getLast?_indented _ _).mp hreturn⟩

theorem remaining_comment (d : Nat) (text : String) :
    (⟨d, .comment text⟩ : Line).remaining annotations =
      (physicalLines (text.toList ++ ['\n'])).tail.filter fun cs => !startsComment cs := by
  have hinline : Inline (List.replicate (4 * d) ' ' ++ "# ".toList) := by
    refine inline_append.mpr ⟨fun c hc => ?_, by decide⟩
    rw [List.eq_of_mem_replicate hc]
    rfl
  have hne : text.toList ++ ['\n'] ≠ [] := by simp
  have hstarts (cs : List Char) :
      startsComment (List.replicate (4 * d) ' ' ++ "# ".toList ++ cs) = true := by
    rw [startsComment, List.append_assoc, List.dropWhile_append_of_pos]
    · rfl
    · intro c hc
      rw [List.eq_of_mem_replicate hc]
      rfl
  obtain ⟨first, rest, hlines⟩ := List.exists_cons_of_ne_nil (physicalLines_ne_nil hne)
  have hphysical : (⟨d, .comment text⟩ : Line).physical annotations =
      (List.replicate (4 * d) ' ' ++ "# ".toList ++ first) :: rest := by
    rw [physical, chars, body, String.toList_append, ← List.append_assoc, List.append_assoc,
      physicalLines_append_left hinline hne, hlines]
    rfl
  change List.filter _ (Line.physical annotations _) = _
  rw [hphysical, hlines, List.filter_cons_of_neg (by rw [hstarts]; decide)]
  rfl

/-- What remains of a line is its code, exactly if its annotation can be erased. Otherwise there is
more. -/
theorem remaining_cases (annotations : Annotations) (x : Line) :
    x.IsErasable annotations ∧ x.remaining annotations = x.plain ∨
      ¬x.IsErasable annotations ∧ x.plain.length < (x.remaining annotations).length := by
  obtain ⟨d, content⟩ := x
  cases content with
  | statement st n =>
    have hcode := remaining_code annotations ⟨d, .statement st n⟩ rfl fun _ => rfl
    rcases hcode with ⟨herasable, hremaining⟩ | ⟨⟨hpositions, hreturn⟩, hremaining⟩
    · exact .inl ⟨herasable, hremaining⟩
    · refine .inr ⟨fun herasable => herasable hpositions hreturn, ?_⟩
      change _ < (withoutSuffix _ _).length
      rw [hremaining, List.length_append]
      exact Nat.lt_succ_self _
  | header hd n =>
    have hcode := remaining_code annotations ⟨d, .header hd n⟩ rfl fun _ => rfl
    rcases hcode with ⟨-, hremaining⟩ | ⟨⟨-, hreturn⟩, -⟩
    · exact .inl ⟨trivial, hremaining⟩
    · rw [getLast?_header] at hreturn
      exact absurd hreturn (by decide)
  | comment text =>
    rw [remaining_comment]
    by_cases herasable : (⟨d, .comment text⟩ : Line).IsErasable annotations
    · refine .inl ⟨herasable, List.filter_eq_nil_iff.mpr fun cs hcs => ?_⟩
      rw [herasable cs hcs]
      decide
    · refine .inr ⟨herasable, List.length_pos_iff.mpr fun hnil => herasable fun cs hcs => ?_⟩
      have hkept := List.filter_eq_nil_iff.mp hnil cs hcs
      simpa using hkept
  | filler => exact .inl ⟨trivial, rfl⟩

/-- Where no line ends before its end, every annotation can be erased. -/
theorem isErasable_of_within
    (h : x.content.Within (isLine · = true) fun text => Inline text.toList) :
    x.IsErasable annotations := by
  obtain ⟨d, content⟩ := x
  cases content with
  | statement st n =>
    intro _ hreturn
    have hinline := (Statement.plain_text h).inline '\r' (List.mem_of_getLast? hreturn)
    exact absurd hinline (by decide)
  | comment text =>
    have hline : physicalLines (text.toList ++ ['\n']) = [text.toList] := physicalLines_append h []
    change ∀ cs ∈ (physicalLines (text.toList ++ ['\n'])).tail, _
    rw [hline]
    exact List.forall_mem_nil _
  | header _ _ | filler => trivial

end Line

/-! ## What remains of a source -/

/-- Where each element gives at least as much by `f`, the same lists come of the same parts. -/
theorem length_eq_of_flatMap_eq {α β : Type} {f g : α → List β} {xs : List α}
    (hle : ∀ x ∈ xs, (g x).length ≤ (f x).length) (h : xs.flatMap f = xs.flatMap g) :
    ∀ x ∈ xs, (f x).length = (g x).length := by
  have hsum {xs : List α} (hle : ∀ x ∈ xs, (g x).length ≤ (f x).length) :
      (xs.flatMap g).length ≤ (xs.flatMap f).length := by
    induction xs with
    | nil => exact Nat.le_refl 0
    | cons x xs ih =>
      obtain ⟨hx, hxs⟩ := List.forall_mem_cons.mp hle
      rw [List.flatMap_cons, List.flatMap_cons, List.length_append, List.length_append]
      exact Nat.add_le_add hx (ih hxs)
  have hlength := congrArg List.length h
  clear h
  induction xs with
  | nil => exact List.forall_mem_nil _
  | cons x xs ih =>
    obtain ⟨hx, hxs⟩ := List.forall_mem_cons.mp hle
    have hrest := hsum hxs
    rw [List.flatMap_cons, List.flatMap_cons, List.length_append, List.length_append] at hlength
    refine List.forall_mem_cons.mpr ⟨by omega, ih hxs (by omega)⟩

theorem remaining_eq_plain_iff (annotations : Annotations) (ls : List Line) :
    ls.flatMap (Line.remaining annotations) = ls.flatMap Line.plain ↔
      ∀ x ∈ ls, x.IsErasable annotations := by
  constructor
  · intro h x hx
    have hle (x : Line) : x.plain.length ≤ (x.remaining annotations).length := by
      rcases x.remaining_cases annotations with ⟨-, hremaining⟩ | ⟨-, hmore⟩
      · exact Nat.le_of_eq (congrArg List.length hremaining.symm)
      · exact Nat.le_of_lt hmore
    -- No line has less left than its code, so where all together have no more, none has more.
    have hlength := length_eq_of_flatMap_eq (fun x _ => hle x) h x hx
    rcases x.remaining_cases annotations with ⟨herasable, -⟩ | ⟨-, hmore⟩
    · exact herasable
    · omega
  · intro h
    rw [List.flatMap_def, List.flatMap_def]
    refine congrArg List.flatten (List.map_congr_left fun x hx => ?_)
    rcases x.remaining_cases annotations with ⟨-, hremaining⟩ | ⟨herasable, -⟩
    · exact hremaining
    · exact absurd (h x hx) herasable

theorem flatMap_plain (ls : List Line) :
    ls.flatMap Line.plain = (codeLines ls).flatMap (Line.physical {}) := by
  induction ls with
  | nil => rfl
  | cons x ls ih =>
    rw [List.flatMap_cons, ih, codeLines, codeLines, List.filter_cons, Line.plain]
    cases x.isComment <;> simp

theorem physicalLines_text (annotations : Annotations) (l : Layout) :
    physicalLines (l.text annotations).toList = l.lines.toList.flatMap (Line.physical annotations) := by
  rw [Layout.text, String.toList_join, List.flatMap_map]
  induction l.lines.toList with
  | nil => rfl
  | cons x ls ih =>
    rw [List.flatMap_cons, List.flatMap_cons, Line.toList_text, physicalLines_append_of_end, ih]
    · rfl
    · exact .inl List.getLast?_concat

end Python

open Python

/-- What the language sees of an annotated source is what it sees of its lines. Without the comments,
these are the lines of the plain source, but for the names of the temporaries. What remains when the
annotations are deleted is the plain source with these names, exactly if the annotations can be erased.
They can if builtins and raw code are single lines and no comment holds a carriage return. -/
theorem Program.remaining_source (p : Program) (annotations : Annotations) :
    ∃ ρ : Nat → Nat, StrictMono ρ ∧
      let lines := (p.layout annotations).lines.toList
      let renamed := ((p.layout {}).renamed ρ).text {}
      codeLines lines = (p.layout {}).lines.toList.map (Line.renamed ρ) ∧
      physicalLines (({ annotations } : Rendering).source p).toList =
        lines.flatMap (Line.physical annotations) ∧
      (lines.flatMap (Line.remaining annotations) = physicalLines renamed.toList ↔
        ∀ x ∈ lines, x.IsErasable annotations) ∧
      (p.code.check = .ok () → (∀ i ∈ p.code, ∀ text ∈ i.rawTexts, isLine text = true) →
        (annotations.comments = true → ∀ text ∈ p.comments.texts, ∀ line ∈ Text.lines text.toList,
          '\r' ∉ line) → ∀ x ∈ lines, x.IsErasable annotations) := by
  obtain ⟨ρ, hρ, hcode⟩ := codeLines_layout p annotations
  refine ⟨ρ, hρ, hcode, ?_, ?_, fun hcheck hraw hreturn x hx => ?_⟩
  · have hempty : Rendering.terminated "" = "" := rfl
    rw [Rendering.source, hempty, String.append_empty, String.empty_append, physicalLines_text]
  · have hrenamed : physicalLines (((p.layout {}).renamed ρ).text {}).toList =
        (p.layout annotations).lines.toList.flatMap Line.plain := by
      rw [physicalLines_text, flatMap_plain, hcode, Layout.renamed, Array.toList_map]
    rw [hrenamed]
    exact remaining_eq_plain_iff annotations _
  · obtain ⟨-, -, hwithin⟩ := p.suite_layout annotations hcheck hraw
      (K := fun text => Inline text.toList) fun hwanted text htext line hline => by
        have hfeed : '\n' ∉ line := Text.not_mem_of_mem_lines hline
        rw [String.toList_ofList]
        exact inline_of_not_mem hfeed (hreturn hwanted text htext line hline)
    exact Line.isErasable_of_within (hwithin x (Array.mem_toList_iff.mp hx))

/-- The end of a comment is left behind a carriage return. The plain source does not have it, whatever
the names of its temporaries are. -/
theorem Program.remaining_brokenComment :
    brokenComment.code.check = .ok () ∧
      (brokenComment.layout { comments := true }).lines.toList.flatMap
          (Line.remaining { comments := true }) =
        ["if True:".toList, "b".toList, "    Mirror.print(True)".toList] ∧
      ∀ ρ : Nat → Nat, physicalLines (((brokenComment.layout {}).renamed ρ).text {}).toList =
        ["if True:".toList, "    Mirror.print(True)".toList] := by
  refine ⟨rfl, by decide +kernel, fun ρ => ?_⟩
  let lines : List Line :=
    [⟨0, .header (.ifTrue (.bool true)) 1⟩, ⟨1, .statement (.report (.bool true)) 2⟩]
  have hlines : (brokenComment.layout {}).lines.toList = lines := rfl
  have hrenamed : lines.map (Line.renamed ρ) = lines := rfl
  rw [physicalLines_text, Layout.renamed, Array.toList_map, hlines, hrenamed]
  decide +kernel

end ScriptFuzz
