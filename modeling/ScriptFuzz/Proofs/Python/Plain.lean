import ScriptFuzz.Proofs.Python.Leaves
import ScriptFuzz.Proofs.Python.Parentheses

/-!
# Texts of one line

Names, literals, expressions, statements and headers are written as texts without line ends that do not
start with a blank, if the builtins and the raw code in them are such texts.
-/

namespace ScriptFuzz

set_option autoImplicit false

open ScriptFuzz.Number ScriptFuzz.Text

namespace Python

/-- The characters that the language takes for indentation. -/
def isIndentation (c : Char) : Bool := c = ' ' || c = '\t' || c = '\x0c'

/-- The characters that end a line. -/
def endsLine (c : Char) : Bool := c = '\n' || c = '\r'

/-- Whether a text is a line by itself: it is not empty, holds no line end and is not indented. -/
def isLine (s : String) : Bool :=
  match s.toList with
  | [] => false
  | c :: cs => !isIndentation c && (c :: cs).all fun c => !endsLine c

/-- A text without line ends. -/
def Inline (cs : List Char) : Prop := ∀ c ∈ cs, endsLine c = false

instance (cs : List Char) : Decidable (Inline cs) := List.decidableBAll _ cs

/-- A text without line ends that starts with a character other than a blank. -/
structure Plain (cs : List Char) : Prop where
  start : ∃ c rest, cs = c :: rest ∧ isIndentation c = false
  inline : Inline cs

section

variable {as bs cs : List Char}

theorem plain_of_isLine {s : String} (h : isLine s = true) : Plain s.toList := by
  unfold isLine at h
  split at h
  · cases h
  · rename_i c cs hs
    rw [Bool.and_eq_true, Bool.not_eq_true', List.all_eq_true] at h
    rw [hs]
    exact ⟨⟨c, cs, rfl, h.1⟩, fun d hd => by simpa using h.2 d hd⟩

theorem inline_append : Inline (as ++ bs) ↔ Inline as ∧ Inline bs := List.forall_mem_append

theorem Plain.append (h : Plain as) (hbs : Inline bs) : Plain (as ++ bs) := by
  obtain ⟨⟨c, rest, rfl, hc⟩, has⟩ := h
  exact ⟨⟨c, rest ++ bs, rfl, hc⟩, inline_append.mpr ⟨has, hbs⟩⟩

theorem plain_cons {c : Char} (hc : isIndentation c = false) (hc' : endsLine c = false)
    (h : Inline cs) : Plain (c :: cs) :=
  ⟨⟨c, cs, rfl, hc⟩, List.forall_mem_cons.mpr ⟨hc', h⟩⟩

theorem inline_of_all {p : Char → Bool} (hp : ∀ c, p c = true → endsLine c = false)
    (h : ∀ c ∈ cs, p c = true) : Inline cs := fun c hc => hp c (h c hc)

theorem endsLine_of_continuesWord {c : Char} (h : Lexer.continuesWord c = true) :
    endsLine c = false := by
  rw [← Bool.not_eq_true]
  intro hend
  simp only [endsLine, Bool.or_eq_true, decide_eq_true_eq] at hend
  rcases hend with rfl | rfl <;> exact absurd h (by decide)

theorem endsLine_of_isDigit {c : Char} (h : c.isDigit = true) : endsLine c = false :=
  endsLine_of_continuesWord (Lexer.continuesWord_of_isDigit h)

theorem isIndentation_of_isDigit {c : Char} (h : c.isDigit = true) : isIndentation c = false := by
  rw [← Bool.not_eq_true]
  intro hblank
  simp only [isIndentation, Bool.or_eq_true, decide_eq_true_eq] at hblank
  rcases hblank with (rfl | rfl) | rfl <;> exact absurd h (by decide)

theorem inline_toDigits (n : Nat) : Inline (Nat.toDigits 10 n) :=
  inline_of_all (fun _ => endsLine_of_isDigit) isDigit_of_mem_toDigits

theorem plain_of_isWord {w : List Char} (h : isWord w = true) : Plain w := by
  cases w with
  | nil => cases h
  | cons c cs =>
    simp only [isWord, Bool.and_eq_true, List.all_eq_true] at h
    obtain ⟨⟨hstart, hcontinue⟩, -⟩ := h
    have hfirst : isIndentation c = false ∧ endsLine c = false := by
      rw [← Bool.not_eq_true, ← Bool.not_eq_true]
      refine ⟨fun hc => ?_, fun hc => ?_⟩
      · simp only [isIndentation, Bool.or_eq_true, decide_eq_true_eq] at hc
        rcases hc with (rfl | rfl) | rfl <;> exact absurd hstart (by decide)
      · simp only [endsLine, Bool.or_eq_true, decide_eq_true_eq] at hc
        rcases hc with rfl | rfl <;> exact absurd hstart (by decide)
    exact plain_cons hfirst.1 hfirst.2 fun d hd => endsLine_of_continuesWord (hcontinue d hd)

theorem plain_name (n : Name) : Plain n.text.toList := plain_of_isWord (Denotes.isWord_text n)

theorem inline_identifier {name : String} (h : isIdentifier name = true) : Inline name.toList :=
  (plain_of_isWord (Expr.isWord_of_isIdentifier h)).inline

theorem inline_nat (n : Nat) : Inline (toString n).toList := by
  rw [Nat.toString_eq_repr, Nat.toList_repr]
  exact inline_toDigits n

theorem plain_toDigits (n : Nat) : Plain (Nat.toDigits 10 n) := by
  cases h : Nat.toDigits 10 n with
  | nil => exact absurd h Nat.toDigits_ne_nil
  | cons c cs =>
    have hdigits := isDigit_of_mem_toDigits (n := n)
    have hinline := inline_toDigits n
    rw [h] at hdigits hinline
    exact ⟨⟨c, cs, rfl, isIndentation_of_isDigit (hdigits c List.mem_cons_self)⟩, hinline⟩

theorem plain_int (e : Int) : Plain (toString e).toList := by
  rw [toList_toString]
  split
  · exact plain_toDigits _
  · exact plain_cons rfl rfl (inline_toDigits _)

theorem inline_replicate (n : Nat) : Inline (List.replicate n '0') :=
  inline_of_all (fun _ => endsLine_of_isDigit) (isDigit_of_mem_replicate n)

theorem inline_positionalText {ds : List Char} (h : Inline ds) (keepsPoint : Bool) (lead : Int) :
    Inline (positionalText keepsPoint ds lead) := by
  unfold positionalText
  split
  · exact (plain_cons rfl rfl (List.forall_mem_cons.mpr
      ⟨rfl, inline_append.mpr ⟨inline_replicate _, h⟩⟩)).inline
  · dsimp only
    split
    · refine inline_append.mpr ⟨inline_append.mpr ⟨h, inline_replicate _⟩, ?_⟩
      split <;> decide
    · exact inline_append.mpr ⟨fun c hc => h c (List.mem_of_mem_take hc),
        List.forall_mem_cons.mpr ⟨rfl, fun c hc => h c (List.mem_of_mem_drop hc)⟩⟩

theorem inline_scientificText {ds : List Char} (h : Inline ds) (signed : Bool) (lead : Int) :
    Inline (scientificText signed ds lead) := by
  unfold scientificText
  dsimp only
  refine inline_append.mpr ⟨inline_append.mpr ⟨inline_append.mpr ⟨?_, ?_⟩, ?_⟩, (plain_int lead).inline⟩
  · exact fun c hc => h c (List.mem_of_mem_take hc)
  · split
    · decide
    · rename_i heq
      exact List.forall_mem_cons.mpr ⟨rfl, fun c hc => h c (List.mem_of_mem_drop hc)⟩
  · refine List.forall_mem_cons.mpr ⟨rfl, (?_ : Inline _)⟩
    split <;> decide

theorem inline_source (x : Binary64) : Inline (Layout.source.text x).toList := by
  unfold Number.Layout.text
  split
  · decide
  · dsimp only
    rw [String.toList_ofList]
    have hmagnitude : Inline (if x.isInfinite then Layout.source.infinity.toList
        else if x.isZero then positionalText Layout.source.keepsPoint ['0'] 0
        else Layout.source.decimalText (x.shortest Layout.source.tie)) := by
      have hdigits : Inline (x.shortest Layout.source.tie).text :=
        inline_of_all (fun _ => endsLine_of_isDigit) Decimal.isDigit_of_mem_text
      split
      · decide
      · split
        · decide
        · unfold Number.Layout.decimalText
          dsimp only
          split
          · exact inline_positionalText hdigits _ _
          · exact inline_scientificText hdigits _ _
    split
    · exact List.forall_mem_cons.mpr ⟨rfl, hmagnitude⟩
    · exact hmagnitude

theorem plain_float (x : Binary64) : Plain (floatText x).toList := by
  unfold floatText
  split
  · exact plain_of_isLine (by decide)
  · split
    · split <;> exact plain_of_isLine (by decide)
    · rename_i hnan hinfinite
      have hfinite := Binary64.isFinite_iff.mpr
        ⟨Bool.eq_false_iff.mpr hnan, Bool.eq_false_iff.mpr hinfinite⟩
      cases hneg : x.isNegative with
      | false =>
        obtain ⟨c, cs, htext, hc⟩ := Lexer.head_source hfinite hneg
        exact ⟨⟨c, cs, htext, isIndentation_of_isDigit hc⟩, inline_source x⟩
      | true =>
        rw [Lexer.toList_source_of_isNegative hfinite hneg]
        exact plain_cons rfl rfl (inline_source _)

theorem endsLine_digit : ∀ n < 16, endsLine (Hex.digit n) = false := by decide

theorem inline_digits (places n : Nat) : Inline (Hex.digits places n) := by
  induction places generalizing n with
  | zero => exact fun _ hc => nomatch hc
  | succ places ih =>
    exact inline_append.mpr ⟨ih _, List.forall_mem_singleton.mpr
      (endsLine_digit _ (Nat.mod_lt _ (by decide)))⟩

theorem inline_quoteChar (c : Char) : Inline (quoteChar c) := by
  unfold quoteChar
  split
  · decide
  · decide
  · decide
  · decide
  · decide
  · rename_i hnewline hreturn _
    split
    · exact List.forall_mem_cons.mpr ⟨rfl, List.forall_mem_cons.mpr ⟨rfl, inline_digits _ _⟩⟩
    · split
      · refine List.forall_mem_singleton.mpr ?_
        simp only [endsLine, Bool.or_eq_false_iff, decide_eq_false_iff_not]
        exact ⟨hnewline, hreturn⟩
      · split <;>
          exact List.forall_mem_cons.mpr ⟨rfl, List.forall_mem_cons.mpr ⟨rfl, inline_digits _ _⟩⟩

/-- A literal escapes line ends. -/
theorem plain_quote (s : String) : Plain (quote s).toList := by
  unfold quote
  rw [String.toList_ofList]
  refine plain_cons rfl rfl (inline_append.mpr ⟨?_, by decide⟩)
  intro c hc
  obtain ⟨d, -, hd⟩ := List.mem_flatMap.mp hc
  exact inline_quoteChar d c hd

end

/-! ## Expressions and statements -/

namespace Expr

variable {e : Expr} {es : List Expr}

theorem plain_parenthesize {holds : Bool} {text : String} (h : Plain text.toList) :
    Plain (parenthesize holds text).toList := by
  unfold parenthesize
  split
  · exact h
  · simp only [String.toList_append]
    exact (Plain.append (plain_of_isLine (by decide)) h.inline).append (by decide)

mutual

/-- The text of an expression whose builtins are lines by themselves. -/
theorem plain_text (e : Expr) (h : e.Over (fun _ => True) (isLine · = true)) :
    Plain e.text.toList := by
  match e with
  | .name n => exact plain_name n
  | .builtin path => exact plain_of_isLine h
  | .int v => exact plain_int _
  | .float x => exact plain_float x
  | .string s => exact plain_quote s
  | .bool b => cases b <;> exact plain_of_isLine (by decide)
  | .none => exact plain_of_isLine (by decide)
  | .list items =>
    simp only [text, String.toList_append]
    exact (Plain.append (plain_of_isLine (by decide)) (inline_textList items h)).append (by decide)
  | .attribute object n =>
    have hobject := plain_text object h
    rw [text]
    split
    · rename_i hn
      simp only [String.toList_append]
      exact ((plain_parenthesize hobject).append (by decide)).append (inline_identifier hn)
    · simp only [String.toList_append]
      exact (((Plain.append (plain_of_isLine (by decide)) hobject.inline).append (by decide)).append
        (plain_quote n).inline).append (by decide)
  | .subscript object i =>
    simp only [text, String.toList_append]
    exact (((plain_parenthesize (plain_text object h)).append (by decide)).append
      (plain_int _).inline).append (by decide)
  | .call callee arguments =>
    simp only [text, String.toList_append]
    exact (((plain_parenthesize (plain_text callee h.1)).append (by decide)).append
      (inline_textList arguments h.2)).append (by decide)
  | .unary op e =>
    simp only [text, String.toList_append]
    refine Plain.append ?_ (plain_parenthesize (plain_text e h)).inline
    cases op <;> exact plain_of_isLine (by decide)
  | .binary op l r =>
    have hop : Inline op.token.toList := by cases op <;> decide
    simp only [text, String.toList_append]
    exact ((((plain_parenthesize (plain_text l h.1)).append (by decide)).append hop).append
      (by decide)).append (plain_parenthesize (plain_text r h.2)).inline
  | .compare op l r =>
    have hop : Inline op.token.toList := by cases op <;> decide
    simp only [text, String.toList_append]
    exact ((((plain_parenthesize (plain_text l h.1)).append (by decide)).append hop).append
      (by decide)).append (plain_parenthesize (plain_text r h.2)).inline
  | .conditional c t f =>
    simp only [text, String.toList_append]
    exact ((((plain_parenthesize (plain_text t h.2.1)).append (by decide)).append
      (plain_parenthesize (plain_text c h.1)).inline).append (by decide)).append
      (plain_parenthesize (plain_text f h.2.2)).inline
  | .computed _ e => exact plain_text e h

theorem inline_textList (es : List Expr) (h : AllOver (fun _ => True) (isLine · = true) es) :
    Inline (textList es).toList := by
  match es with
  | [] => exact fun _ hc => nomatch hc
  | [e] => exact (plain_text e h.1).inline
  | e :: e' :: es =>
    rw [textList, String.toList_append, String.toList_append]
    · exact (((plain_text e h.1).append (by decide)).append (inline_textList (e' :: es) h.2)).inline
    · simp

end

end Expr

/-- The characters of a piece of raw code. -/
def Piece.chars : Piece → List Char
  | .text s => s.toList
  | .argument e => (e.operandText .primary).toList

namespace Render

theorem cutPlaceholders_ne_nil (cs : List Char) : cutPlaceholders cs ≠ [] := by
  fun_induction cutPlaceholders cs <;> simp

/-- The parts of raw code hold nothing but its characters. -/
theorem inline_cutPlaceholders {cs : List Char} (h : Inline cs) :
    ∀ part ∈ cutPlaceholders cs, Inline part := by
  fun_induction cutPlaceholders cs with
  | case1 => exact List.forall_mem_singleton.mpr h
  | case2 cs ih =>
    have hcs := (List.forall_mem_cons.mp (List.forall_mem_cons.mp h).2).2
    exact List.forall_mem_cons.mpr ⟨(fun _ hc => nomatch hc), ih hcs⟩
  | case3 c cs hne hcut ih => exact absurd hcut (cutPlaceholders_ne_nil cs)
  | case4 c cs hne p ps hcut ih =>
    obtain ⟨hc, hcs⟩ := List.forall_mem_cons.mp h
    obtain ⟨hp, hps⟩ := List.forall_mem_cons.mp (hcut ▸ ih hcs)
    exact List.forall_mem_cons.mpr ⟨List.forall_mem_cons.mpr ⟨hc, hp⟩, hps⟩

theorem plain_operandText {e : Expr} (h : e.Over (fun _ => True) (isLine · = true))
    (p : Precedence) : Plain (e.operandText p).toList :=
  Expr.plain_parenthesize (Expr.plain_text e h)

theorem inline_fillPlaceholders {parts : List (List Char)} {es : List Expr}
    (hparts : ∀ part ∈ parts, Inline part)
    (hes : Expr.AllOver (fun _ => True) (isLine · = true) es) :
    ∀ piece ∈ fillPlaceholders parts es, Inline piece.chars := by
  fun_induction fillPlaceholders parts es with
  | case1 => exact List.forall_mem_nil _
  | case2 last =>
    refine List.forall_mem_singleton.mpr ?_
    rw [Piece.chars, String.toList_ofList]
    exact hparts _ List.mem_cons_self
  | case3 part parts hne ih =>
    obtain ⟨hpart, hrest⟩ := List.forall_mem_cons.mp hparts
    refine List.forall_mem_cons.mpr ⟨?_, List.forall_mem_cons.mpr ⟨by decide, ih hrest hes⟩⟩
    rw [Piece.chars, String.toList_ofList]
    exact hpart
  | case4 part parts e es hne ih =>
    obtain ⟨hpart, hrest⟩ := List.forall_mem_cons.mp hparts
    refine List.forall_mem_cons.mpr ⟨?_, List.forall_mem_cons.mpr
      ⟨(plain_operandText hes.1 _).inline, ih hrest hes.2⟩⟩
    rw [Piece.chars, String.toList_ofList]
    exact hpart

theorem head_fillPlaceholders (part : List Char) (parts : List (List Char)) (es : List Expr) :
    ∃ pieces, fillPlaceholders (part :: parts) es = .text (String.ofList part) :: pieces := by
  cases parts with
  | nil => exact ⟨_, rfl⟩
  | cons p ps => cases es <;> exact ⟨_, rfl⟩

/-- Raw code that is a line by itself stays one when its placeholders are filled. -/
theorem plain_fillPlaceholders {cs : List Char} {es : List Expr} (h : Plain cs)
    (hes : Expr.AllOver (fun _ => True) (isLine · = true) es) :
    Plain ((fillPlaceholders (cutPlaceholders cs) es).flatMap Piece.chars) := by
  have hinline : Inline ((fillPlaceholders (cutPlaceholders cs) es).flatMap Piece.chars) := by
    intro c hc
    obtain ⟨piece, hpiece, hc⟩ := List.mem_flatMap.mp hc
    exact inline_fillPlaceholders (inline_cutPlaceholders h.inline) hes piece hpiece c hc
  refine ⟨?_, hinline⟩
  obtain ⟨⟨first, others, rfl, hfirst⟩, -⟩ := h
  unfold cutPlaceholders
  split
  · rename_i hcs
    cases hcs
  · -- The code starts with a placeholder, so what stands for it comes first.
    rename_i cs' hcs
    cases hcut : cutPlaceholders cs' with
    | nil => exact absurd hcut (cutPlaceholders_ne_nil cs')
    | cons q qs =>
      cases es with
      | nil => exact ⟨'%', _, rfl, rfl⟩
      | cons e es =>
        obtain ⟨⟨c, rest, htext, hc⟩, -⟩ := plain_operandText hes.1 .primary
        refine ⟨c, rest ++ (fillPlaceholders (q :: qs) es).flatMap Piece.chars, ?_, hc⟩
        rw [fillPlaceholders, List.flatMap_cons, List.flatMap_cons, Piece.chars, Piece.chars, htext]
        · rfl
        · simp
  · rename_i hne hcs
    cases hcs
    split
    · rename_i hcut
      exact absurd hcut (cutPlaceholders_ne_nil _)
    · rename_i p ps hcut
      obtain ⟨pieces, hpieces⟩ := head_fillPlaceholders (first :: p) ps es
      refine ⟨first, p ++ pieces.flatMap Piece.chars, ?_, hfirst⟩
      rw [hpieces, List.flatMap_cons, Piece.chars, String.toList_ofList]
      rfl

end Render

theorem inline_nameList (names : List Name) : Inline (nameList names).toList := by
  unfold nameList
  rw [String.toList_intercalate]
  induction names with
  | nil => exact fun _ hc => nomatch hc
  | cons n names ih =>
    have hn := (plain_name n).inline
    cases names with
    | nil => simpa [List.intercalate] using hn
    | cons n' names =>
      rw [List.map_cons, List.map_cons, List.map_cons, List.map_cons, List.intercalate_cons_cons]
      exact inline_append.mpr ⟨inline_append.mpr ⟨hn, by decide⟩, ih⟩

theorem Statement.plain_text {st : Statement} (h : st.Over (fun _ => True) (isLine · = true)) :
    Plain st.text.toList := by
  have hword {s : String} (hs : isLine s = true) {cs : List Char} (hcs : Inline cs) :
      Plain (s.toList ++ cs) := (plain_of_isLine hs).append hcs
  cases st with
  | pass | breakLoop | continueLoop => exact plain_of_isLine (by decide)
  | expression e => exact Expr.plain_text e h
  | bind target e =>
    simp only [text, String.toList_append]
    exact ((plain_name target).append (by decide)).append (Expr.plain_text e h).inline
  | assign target e =>
    simp only [text, String.toList_append]
    exact ((Expr.plain_text target h.1).append (by decide)).append (Expr.plain_text e h.2).inline
  | augment target op e =>
    have hop : Inline op.token.toList := by cases op <;> decide
    simp only [text, String.toList_append]
    exact ((((Expr.plain_text target h.1).append (by decide)).append hop).append (by decide)).append
      (Expr.plain_text e h.2).inline
  | setAttribute object name e =>
    have hobject := Expr.plain_text object h.1
    have he := (Expr.plain_text e h.2).inline
    rw [text]
    split
    · rename_i hname
      simp only [String.toList_append]
      exact (((hobject.append (by decide)).append (inline_identifier hname)).append
        (by decide)).append he
    · simp only [String.toList_append]
      exact (((((hword (by decide) hobject.inline).append (by decide)).append
        (plain_quote name).inline).append (by decide)).append he).append (by decide)
  | setElement object i e =>
    simp only [text, String.toList_append]
    exact ((((Expr.plain_text object h.1).append (by decide)).append (plain_int _).inline).append
      (by decide)).append (Expr.plain_text e h.2).inline
  | ret e | raise e =>
    simp only [text, String.toList_append]
    exact hword (by decide) (Expr.plain_text e h).inline
  | raw pieces =>
    obtain ⟨code, es, hcode, hes, rfl⟩ := h
    have := Render.plain_fillPlaceholders (plain_of_isLine hcode) hes
    rw [text, String.toList_join, List.flatMap_map]
    refine Eq.mp (congrArg Plain (List.flatMap_congr fun piece _ => ?_)) this
    cases piece <;> rfl
  | report e =>
    simp only [text, String.toList_append]
    exact ((hword (by decide) (by decide)).append (Expr.plain_text e h).inline).append (by decide)
  | globals names | nonlocals names =>
    simp only [text, String.toList_append]
    exact hword (by decide) (inline_nameList names)

theorem Header.plain_text {hd : Header} (h : hd.Over (fun _ => True) (isLine · = true)) :
    Plain hd.text.toList := by
  have hword {s : String} (hs : isLine s = true) {cs : List Char} (hcs : Inline cs) :
      Plain (s.toList ++ cs) := (plain_of_isLine hs).append hcs
  cases hd with
  | function name ps =>
    unfold text
    simp only [String.toList_append]
    exact ((((hword (by decide) (plain_name name).inline).append (by decide)).append
      (inline_nameList ps)).append (by decide))
  | method name ps =>
    have hname : Inline name.toList := by
      rcases h with h | ⟨n, rfl⟩
      · exact inline_identifier h
      · rw [String.toList_append]
        exact inline_append.mpr ⟨by decide, inline_nat n⟩
    unfold text
    simp only [String.toList_append]
    exact ((((hword (by decide) hname).append (by decide)).append (inline_nameList ps)).append
      (by decide))
  | ifTrue c =>
    unfold text
    simp only [String.toList_append]
    exact (hword (by decide) (Expr.plain_text c h).inline).append (by decide)
  | ifFalse c =>
    unfold text
    simp only [String.toList_append]
    exact (hword (by decide) (Render.plain_operandText h _).inline).append (by decide)
  | otherwise | tryBlock | finallyBlock | caseAny => exact plain_of_isLine (by decide)
  | whileLoop op l r =>
    have hop : Inline op.token.toList := by cases op <;> decide
    unfold text
    simp only [String.toList_append]
    exact (((((hword (by decide) (Expr.plain_parenthesize (Expr.plain_text l h.1)).inline).append
      (by decide)).append hop).append (by decide)).append
      (Expr.plain_parenthesize (Expr.plain_text r h.2)).inline).append (by decide)
  | forLoop counter range =>
    unfold text
    simp only [String.toList_append]
    exact (((hword (by decide) (plain_name counter).inline).append (by decide)).append
      (Expr.inline_textList range h)).append (by decide)
  | exceptBlock error =>
    unfold text
    simp only [String.toList_append]
    exact (hword (by decide) (plain_name error).inline).append (by decide)
  | matching subject =>
    unfold text
    simp only [String.toList_append]
    exact (hword (by decide) (Expr.plain_parenthesize (Expr.plain_text subject h)).inline).append
      (by decide)
  | caseEqual capture value =>
    have hcapture := (plain_name capture).inline
    unfold text
    simp only [String.toList_append]
    exact (((((hword (by decide) hcapture).append (by decide)).append hcapture).append
      (by decide)).append (Expr.plain_parenthesize (Expr.plain_text value h.2)).inline).append
      (by decide)
  | classBody name base =>
    have hname := (plain_name name).inline
    cases base with
    | none =>
      unfold text
      simp only [String.toList_append]
      exact (hword (by decide) hname).append (by decide)
    | some e =>
      unfold text
      simp only [String.toList_append]
      exact ((((hword (by decide) hname).append (by decide)).append
        (Expr.plain_text e (h e rfl)).inline).append (by decide))

end Python

end ScriptFuzz
