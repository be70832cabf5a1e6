import ScriptFuzz.Proofs.Python.Blocks
import ScriptFuzz.Proofs.Python.Plain

/-!
# The lines that the language sees

The language ends a line at a line feed, at a carriage return, or at both. `Program.lines_source` says
that the source of a program is a suite of lines, each with the blanks of its depth before it, and that
the language sees these lines unless a comment holds a carriage return.
-/

namespace ScriptFuzz

set_option autoImplicit false

namespace Python

/-- The lines of a source, as the language splits it. -/
def physicalLines : List Char → List (List Char)
  | [] => []
  | '\n' :: cs => [] :: physicalLines cs
  | '\r' :: '\n' :: cs => [] :: physicalLines cs
  | '\r' :: cs => [] :: physicalLines cs
  | c :: cs =>
    match physicalLines cs with
    | [] => [[c]]
    | l :: ls => (c :: l) :: ls

namespace Line

/-- The characters of a line, with four blanks a level before the text. -/
def chars (annotations : Annotations) (x : Line) : List Char :=
  List.replicate (4 * x.depth) ' ' ++ (body annotations x.content).toList

theorem inline_suffix (annotations : Annotations) (origin : Nat) :
    Inline (suffix annotations origin).toList := by
  unfold suffix
  split
  · rw [String.toList_append]
    exact inline_append.mpr ⟨by decide, inline_nat origin⟩
  · decide

/-- The text of a line does not start with a blank. -/
theorem start_body {K : String → Prop} {content : Content}
    (h : content.Within (isLine · = true) K) (annotations : Annotations) :
    ∃ c ∈ (body annotations content).toList.head?, isIndentation c = false := by
  have hplain {cs : List Char} (hcs : Plain cs) : ∃ c ∈ cs.head?, isIndentation c = false := by
    obtain ⟨⟨c, rest, rfl, hc⟩, -⟩ := hcs
    exact ⟨c, rfl, hc⟩
  cases content with
  | statement st n =>
    refine hplain ?_
    rw [body, String.toList_append]
    exact (Statement.plain_text h).append (inline_suffix annotations n)
  | header hd n =>
    refine hplain ?_
    rw [body, String.toList_append]
    exact (Header.plain_text h).append (inline_suffix annotations n)
  | comment text =>
    rw [body, String.toList_append]
    exact ⟨'#', rfl, rfl⟩
  | filler =>
    rw [body]
    exact ⟨'p', rfl, rfl⟩

/-- The line ends `E` occur in no line if they occur in no comment. -/
theorem forall_mem_chars {E : Char → Prop} (hE : ∀ c, E c → endsLine c = true) {x : Line}
    (h : x.content.Within (isLine · = true) fun text => ∀ c ∈ text.toList, ¬E c)
    (annotations : Annotations) : ∀ c ∈ x.chars annotations, ¬E c := by
  have hinline {cs : List Char} (hcs : Inline cs) : ∀ c ∈ cs, ¬E c := by
    intro c hc hend
    have := hcs c hc
    rw [hE c hend] at this
    cases this
  refine List.forall_mem_append.mpr ⟨?_, ?_⟩
  · refine hinline fun c hc => ?_
    rw [List.eq_of_mem_replicate hc]
    rfl
  · obtain ⟨depth, content⟩ := x
    cases content with
    | statement st n =>
      rw [body, String.toList_append]
      exact hinline ((Statement.plain_text h).append (inline_suffix annotations n)).inline
    | header hd n =>
      rw [body, String.toList_append]
      exact hinline ((Header.plain_text h).append (inline_suffix annotations n)).inline
    | comment text =>
      rw [body, String.toList_append]
      exact List.forall_mem_append.mpr ⟨hinline (by decide), h⟩
    | filler =>
      rw [body]
      exact hinline (by decide)

theorem toList_pushn (s : String) (c : Char) (n : Nat) :
    (s.pushn c n).toList = s.toList ++ List.replicate n c := by
  rw [String.pushn_eq_repeat_push]
  induction n with
  | zero => simp [Nat.repeat]
  | succ n ih => rw [Nat.repeat, String.toList_push, ih, List.append_assoc, List.replicate_succ']

theorem toList_text (annotations : Annotations) (x : Line) :
    (text annotations x).toList = x.chars annotations ++ ['\n'] := by
  unfold text chars
  rw [String.toList_append, String.toList_append, toList_pushn]
  rfl

end Line

theorem physicalLines_append {line : List Char} (h : Inline line) (rest : List Char) :
    physicalLines (line ++ '\n' :: rest) = line :: physicalLines rest := by
  induction line with
  | nil => rfl
  | cons c cs ih =>
    obtain ⟨hc, hcs⟩ := List.forall_mem_cons.mp h
    simp only [endsLine, Bool.or_eq_false_iff, decide_eq_false_iff_not] at hc
    rw [List.cons_append, physicalLines, ih hcs]
    · exact hc.1
    · exact fun _ hreturn => absurd hreturn hc.2
    · exact hc.2

end Python

theorem Text.splitOn_append {sep : Char} {part : List Char} (h : sep ∉ part) (rest : List Char) :
    splitOn sep (part ++ sep :: rest) = part :: splitOn sep rest := by
  induction part with
  | nil => simp [splitOn]
  | cons c cs ih =>
    have hc : c ≠ sep := fun hc => h (hc ▸ List.mem_cons_self)
    rw [List.cons_append, splitOn, if_neg hc, ih fun hmem => h (List.mem_cons_of_mem _ hmem)]

theorem Text.not_mem_of_mem_lines {cs line : List Char} (h : line ∈ lines cs) : '\n' ∉ line := by
  fun_induction lines cs generalizing line with
  | case1 => cases h
  | case2 cs ih =>
    rcases List.mem_cons.mp h with rfl | h
    · exact List.not_mem_nil
    · exact ih h
  | case3 cs ih =>
    rcases List.mem_cons.mp h with rfl | h
    · exact List.not_mem_nil
    · exact ih h
  | case4 c cs hc _ hlines ih =>
    rw [List.mem_singleton.mp h, List.mem_singleton]
    exact fun hnewline => hc hnewline.symm
  | case5 c cs hc _ l ls hlines ih =>
    rcases List.mem_cons.mp h with rfl | h
    · rw [List.mem_cons]
      rintro (hnewline | hmem)
      · exact hc hnewline.symm
      · exact ih (hlines ▸ List.mem_cons_self) hmem
    · exact ih (hlines ▸ List.mem_cons_of_mem l h)

/-- Pieces without a separator, each with a separator behind it. -/
theorem Text.splitOn_flatMap {sep : Char} {parts : List (List Char)} (h : ∀ part ∈ parts, sep ∉ part) :
    splitOn sep (parts.flatMap (· ++ [sep])) = parts ++ [[]] := by
  induction parts with
  | nil => rfl
  | cons part parts ih =>
    obtain ⟨hpart, hparts⟩ := List.forall_mem_cons.mp h
    rw [List.flatMap_cons, List.append_assoc, List.singleton_append, splitOn_append hpart, ih hparts]
    rfl

namespace Python

theorem physicalLines_flatMap {lines : List (List Char)} (h : ∀ line ∈ lines, Inline line) :
    physicalLines (lines.flatMap (· ++ ['\n'])) = lines := by
  induction lines with
  | nil => rfl
  | cons line lines ih =>
    obtain ⟨hline, hlines⟩ := List.forall_mem_cons.mp h
    rw [List.flatMap_cons, List.append_assoc, List.singleton_append, physicalLines_append hline,
      ih hlines]

end Python

open Python

theorem Program.toList_source (p : Program) (annotations : Annotations) :
    (({ annotations } : Rendering).source p).toList =
      ((p.layout annotations).lines.toList.map (Line.chars annotations)).flatMap (· ++ ['\n']) := by
  have hempty : Rendering.terminated "" = "" := rfl
  rw [Rendering.source, hempty, String.append_empty, String.empty_append, Layout.text,
    String.toList_join, List.flatMap_map, List.flatMap_map]
  simp only [Line.toList_text]

/-- The source of a program is a suite of lines. The language sees the lines that were written, unless a
comment holds a carriage return. -/
theorem Program.lines_source (p : Program) (annotations : Annotations)
    (h : p.code.check = .ok ())
    (hraw : ∀ i ∈ p.code, ∀ text ∈ i.rawTexts, isLine text = true) :
    let source := (({ annotations } : Rendering).source p).toList
    let lines := (p.layout annotations).lines.toList
    Suite .statements 0 lines ∧ (p.layout annotations).filled = [] ∧
      lines.IsChain Line.Precedes ∧
      (∀ x ∈ lines, ∃ c ∈ (Line.body annotations x.content).toList.head?, isIndentation c = false) ∧
      Text.splitOn '\n' source = lines.map (Line.chars annotations) ++ [[]] ∧
      ((annotations.comments = true → ∀ text ∈ p.comments.texts, ∀ line ∈ Text.lines text.toList,
          '\r' ∉ line) →
        physicalLines source = lines.map (Line.chars annotations)) := by
  intro source lines
  have hlayout {E : Char → Prop} (hE : annotations.comments = true → ∀ text ∈ p.comments.texts,
      ∀ line ∈ Text.lines text.toList, ∀ c ∈ line, ¬E c) :=
    p.suite_layout annotations h hraw (K := fun text => ∀ c ∈ text.toList, ¬E c)
      fun hwanted text htext line hline => by
        rw [String.toList_ofList]
        exact hE hwanted text htext line hline
  have hnewline {line : List Char} : (∀ c ∈ line, ¬c = '\n') ↔ '\n' ∉ line := by
    simp [List.forall_mem_ne']
  obtain ⟨hsuite, hfilled, hwithin⟩ := hlayout (E := (· = '\n')) fun _ text _ line hline =>
    hnewline.mpr (Text.not_mem_of_mem_lines hline)
  refine ⟨hsuite, hfilled, hsuite.steps.chain, ?_, ?_, ?_⟩
  · exact fun x hx => Line.start_body (hwithin x (Array.mem_toList_iff.mp hx)) annotations
  · rw [show source = _ from p.toList_source annotations]
    refine Text.splitOn_flatMap (List.forall_mem_map.mpr fun x hx => hnewline.mp ?_)
    refine Line.forall_mem_chars ?_ (hwithin x (Array.mem_toList_iff.mp hx)) annotations
    rintro c rfl
    rfl
  · intro hreturn
    obtain ⟨-, -, hwithin⟩ := hlayout (E := (endsLine · = true))
      fun hwanted text htext line hline c hc hend => by
        rcases Bool.or_eq_true_iff.mp hend with hend | hend
        · exact Text.not_mem_of_mem_lines hline (of_decide_eq_true hend ▸ hc)
        · exact hreturn hwanted text htext line hline (of_decide_eq_true hend ▸ hc)
    rw [show source = _ from p.toList_source annotations]
    refine physicalLines_flatMap (List.forall_mem_map.mpr fun x hx c hc => ?_)
    have := Line.forall_mem_chars (fun _ hend => hend) (hwithin x (Array.mem_toList_iff.mp hx))
      annotations c hc
    exact Bool.eq_false_iff.mpr this

/-- Blocks without a statement of their own, and comments. -/
def Program.emptyBlocks : Program where
  id := default
  code := .ofRows [
    (.loadBoolean true, [0]),
    (.beginIf false, [0]),
    (.beginElse, []),
    (.eval "x = 1" 0, []),
    (.endIf, []),
    (.beginSwitch, [0]),
    (.endSwitch, []),
    (.beginClassDefinition false, [1]),
    (.beginClassMethod "run" 0, [2]),
    (.endClassMethod, []),
    (.endClassDefinition, [])]
  comments := { header := some "one\ntwo", instructions := [(2, "nothing")] }

theorem Program.lines_source_emptyBlocks :
    emptyBlocks.code.check = .ok () ∧
      (∀ i ∈ emptyBlocks.code, ∀ text ∈ i.rawTexts, isLine text = true) ∧
      (∀ text ∈ emptyBlocks.comments.texts, ∀ line ∈ Text.lines text.toList, '\r' ∉ line) ∧
      Suite .statements 0 (emptyBlocks.layout { comments := true }).lines.toList ∧
      physicalLines (({ annotations := { comments := true } } : Rendering).source emptyBlocks).toList =
        (emptyBlocks.layout { comments := true }).lines.toList.map
          (Line.chars { comments := true }) := by
  have hraw : ∀ i ∈ emptyBlocks.code, ∀ text ∈ i.rawTexts, isLine text = true := by decide
  have hcomments : ∀ text ∈ emptyBlocks.comments.texts, ∀ line ∈ Text.lines text.toList,
      '\r' ∉ line := by decide
  obtain ⟨hsuite, -, -, -, -, hlines⟩ := lines_source emptyBlocks { comments := true } rfl hraw
  exact ⟨rfl, hraw, hcomments, hsuite, hlines fun _ => hcomments⟩

/-- A comment with a carriage return in a block. -/
def Program.brokenComment : Program where
  id := default
  code := .ofRows [
    (.loadBoolean true, [0]),
    (.beginIf false, [0]),
    (.print, [0]),
    (.endIf, [])]
  comments := { instructions := [(2, "a\rb")] }

/-- The end of the comment is a line of its own, which is not indented. -/
theorem Program.lines_source_brokenComment :
    brokenComment.code.check = .ok () ∧
      (physicalLines (({ annotations := { comments := true } } : Rendering).source
        brokenComment).toList).map String.ofList =
          ["if True:", "    # a", "b", "    Mirror.print(True)"] :=
  ⟨rfl, by decide +kernel⟩

end ScriptFuzz
