import ScriptFuzz.Proofs.Python.Plain

/-!
# Names and what binds them

`Line.identifiers` lists the identifiers that stand for variables in a line, and `Line.binders` the names
that the line binds, each with the depth of the block in which it is bound. `Bound` is the scoping of
names: a name is bound where a line before binds it in a block that is still open.
-/

namespace ScriptFuzz

set_option autoImplicit false

namespace Python

namespace Name

def letter : Name → Char
  | .variable .value _ => 'v'
  | .variable .function _ => 'f'
  | .variable .classObject _ => 'C'
  | .variable .receiver _ => 's'
  | .variable .parameter _ => 'a'
  | .variable .exception _ => 'e'
  | .variable .counter _ => 'i'
  | .temporary _ => 't'
  | .capture _ => 'c'

def number : Name → Nat
  | .variable _ v => v.number
  | .temporary n | .capture n => n

theorem toList_text (n : Name) : n.text.toList = n.letter :: Nat.toDigits 10 n.number := by
  have h (letter : String) (k : Nat) :
      (letter ++ toString k).toList = letter.toList ++ Nat.toDigits 10 k := by
    rw [String.toList_append, Nat.toString_eq_repr, Nat.toList_repr]
  rcases n with ⟨role, v⟩ | k | k
  · cases role <;> exact h _ _
  · exact h _ _
  · exact h _ _

theorem ext_letter {m n : Name} (hletter : m.letter = n.letter) (hnumber : m.number = n.number) :
    m = n := by
  rcases m with ⟨r, ⟨v⟩⟩ | j | j <;> rcases n with ⟨r', ⟨w⟩⟩ | k | k <;>
    simp only [number] at hnumber <;> subst hnumber
  · cases r <;> cases r' <;> first | rfl | simp [letter] at hletter
  · cases r <;> simp [letter] at hletter
  · cases r <;> simp [letter] at hletter
  · cases r' <;> simp [letter] at hletter
  · rfl
  · simp [letter] at hletter
  · cases r' <;> simp [letter] at hletter
  · simp [letter] at hletter
  · rfl

/-- Different names are written differently. -/
theorem text_injective : Function.Injective text := by
  intro m n h
  have h := congrArg String.toList h
  rw [toList_text, toList_text] at h
  obtain ⟨hletter, hdigits⟩ := List.cons.inj h
  refine ext_letter hletter ?_
  have hnumber := congrArg (Nat.ofDigitChars 10 · 0) hdigits
  simpa only [Nat.ofDigitChars_ten_toDigits] using hnumber

/-- Whether the source introduces the name for a purpose of its own. -/
def isAuxiliary : Name → Bool
  | .variable _ _ => false
  | .temporary _ | .capture _ => true

end Name

/-! ## Identifiers of a line -/

section

variable (words : String → List String)

namespace Expr

mutual

/-- The identifiers that stand for variables in an expression; `words` are those in the path of a
builtin. -/
def identifiers : Expr → List String
  | name n => [n.text]
  | builtin path => words path
  | int _ | float _ | string _ | bool _ | none => []
  | list items => identifiersList items
  | .attribute object _ | subscript object _ => object.identifiers
  | call callee arguments => callee.identifiers ++ identifiersList arguments
  | unary _ e => e.identifiers
  | binary _ l r | compare _ l r => l.identifiers ++ r.identifiers
  | conditional c t f => c.identifiers ++ t.identifiers ++ f.identifiers
  | computed _ e => e.identifiers

def identifiersList : List Expr → List String
  | [] => []
  | e :: es => e.identifiers ++ identifiersList es

end

end Expr

/-- A piece as it stands in the code that an instruction was given. -/
def Piece.code : Piece → String
  | text s => s
  | argument _ => "%@"

/-- The identifiers that stand for variables in a statement, other than the name that it binds; `words`
are those in the path of a builtin or in raw code. -/
def Statement.identifiers : Statement → List String
  | pass | breakLoop | continueLoop => []
  | expression e | bind _ e | ret e | raise e | report e => e.identifiers words
  | assign target e | augment target _ e | setAttribute target _ e | setElement target _ e =>
    target.identifiers words ++ e.identifiers words
  | raw pieces =>
    words (String.join (pieces.map Piece.code)) ++
      Expr.identifiersList words (pieces.filterMap Piece.argument?)
  | globals names | nonlocals names => names.map Name.text

/-- The identifiers that stand for variables in a header, other than the names that it binds. -/
def Header.identifiers : Header → List String
  | ifTrue e | ifFalse e | matching e => e.identifiers words
  | whileLoop _ l r => l.identifiers words ++ r.identifiers words
  | forLoop _ range => Expr.identifiersList words range
  | caseEqual capture value => capture.text :: value.identifiers words
  | classBody _ base => Expr.identifiersList words base.toList
  | function _ _ | method _ _ | otherwise | tryBlock | exceptBlock _ | finallyBlock | caseAny => []

def Content.identifiers : Content → List String
  | .statement st _ => st.identifiers words
  | .header h _ => h.identifiers words
  | .comment _ | .filler => []

end

/-- The names that a line binds, each with the depth of the block in which it is bound: that of the line,
or that of the body behind it. -/
def Line.binders (x : Line) : List (Nat × Name) :=
  match x.content with
  | .statement (.bind target _) _ => [(x.depth, target)]
  | .header (.function name ps) _ => (x.depth, name) :: ps.map (Prod.mk (x.depth + 1))
  | .header (.method _ ps) _ => ps.map (Prod.mk (x.depth + 1))
  | .header (.forLoop n _) _ | .header (.exceptBlock n) _ | .header (.caseEqual n _) _ =>
    [(x.depth + 1, n)]
  | .header (.classBody name _) _ => [(x.depth, name)]
  | _ => []

/-! ## Scopes -/

/-- Behind the lines `ls`, the name is bound at depth `d`: a line binds it in a block of at most this
depth, and no line behind ends this block. -/
def Bound (ls : List Line) (d : Nat) (n : Name) : Prop :=
  ∃ a x b k, ls = a ++ x :: b ∧ (k, n) ∈ x.binders ∧ k ≤ d ∧ ∀ y ∈ b, k ≤ y.depth

/-- Whether a name in the line `x` behind the lines `ls` is bound before it is read. -/
inductive BoundBefore (ls : List Line) (x : Line) : Name → Prop where
  | line {n : Name} (h : Bound ls x.depth n) : BoundBefore ls x n
  /-- The guard of a case reads what the pattern before it binds. -/
  | pattern {n : Name} {value : Expr} {origin : Nat}
      (h : x.content = .header (.caseEqual n value) origin) : BoundBefore ls x n

section

variable {ls ms : List Line} {d e k : Nat} {n : Name} {x : Line}

theorem Bound.append (h : Bound ls d n) (hms : ∀ y ∈ ms, d ≤ y.depth) : Bound (ls ++ ms) d n := by
  obtain ⟨a, x, b, k, rfl, hx, hk, hb⟩ := h
  refine ⟨a, x, b ++ ms, k, by simp, hx, hk, ?_⟩
  exact List.forall_mem_append.mpr ⟨hb, fun y hy => Nat.le_trans hk (hms y hy)⟩

theorem Bound.mono (h : Bound ls d n) (hd : d ≤ e) : Bound ls e n := by
  obtain ⟨a, x, b, k, hls, hx, hk, hb⟩ := h
  exact ⟨a, x, b, k, hls, hx, Nat.le_trans hk hd, hb⟩

theorem bound_last (h : (k, n) ∈ x.binders) (hk : k ≤ d) : Bound (ls ++ [x]) d n :=
  ⟨ls, x, [], k, rfl, h, hk, by simp⟩

/-- Some line binds a name that is bound. -/
theorem Bound.exists_binder (h : Bound ls d n) : ∃ a x b k, ls = a ++ x :: b ∧ (k, n) ∈ x.binders := by
  obtain ⟨a, x, b, k, hls, hx, -, -⟩ := h
  exact ⟨a, x, b, k, hls, hx⟩

end

/-! ## Identifiers that come from names and from raw texts -/

/-- Whether the names in a line are `P`, and the paths of its builtins and its raw code are `Q`. -/
def Content.Over (P : Name → Prop) (Q : String → Prop) : Content → Prop
  | .statement st _ => st.Over P Q
  | .header h _ => h.Over P Q
  | .comment _ | .filler => True

/-- Where an identifier comes from: it is a name, or part of a raw text. -/
def Arises (P : Name → Prop) (Q : String → Prop) (words : String → List String) (y : String) : Prop :=
  (∃ n, P n ∧ n.text = y) ∨ ∃ text, Q text ∧ y ∈ words text

section

variable {P : Name → Prop} {Q : String → Prop} {words : String → List String} {y : String}

namespace Expr

mutual

theorem arises : ∀ e : Expr, e.Over P Q → y ∈ e.identifiers words → Arises P Q words y
  | name n, h, hy => .inl ⟨n, h, (List.mem_singleton.mp hy).symm⟩
  | builtin path, h, hy => .inr ⟨path, h, hy⟩
  | int _, _, hy | float _, _, hy | string _, _, hy | bool _, _, hy | none, _, hy => nomatch hy
  | list items, h, hy => arisesList items h hy
  | .attribute object _, h, hy | subscript object _, h, hy => arises object h hy
  | call callee arguments, h, hy =>
    (List.mem_append.mp hy).elim (arises callee h.1) (arisesList arguments h.2)
  | unary _ e, h, hy | computed _ e, h, hy => arises e h hy
  | binary _ l r, h, hy | compare _ l r, h, hy =>
    (List.mem_append.mp hy).elim (arises l h.1) (arises r h.2)
  | conditional c t f, h, hy =>
    (List.mem_append.mp hy).elim
      (fun hy => (List.mem_append.mp hy).elim (arises c h.1) (arises t h.2.1)) (arises f h.2.2)

theorem arisesList : ∀ es : List Expr, AllOver P Q es → y ∈ identifiersList words es →
    Arises P Q words y
  | [], _, hy => nomatch hy
  | e :: es, h, hy => (List.mem_append.mp hy).elim (arises e h.1) (arisesList es h.2)

end

end Expr

namespace Render

/-- The parts of raw code and its placeholders are the raw code. -/
theorem flatten_intersperse_cutPlaceholders (cs : List Char) :
    ((cutPlaceholders cs).intersperse ['%', '@']).flatten = cs := by
  fun_induction cutPlaceholders cs with
  | case1 => rfl
  | case2 cs ih =>
    cases hcut : cutPlaceholders cs with
    | nil => exact absurd hcut (cutPlaceholders_ne_nil cs)
    | cons p ps =>
      rw [hcut] at ih
      rw [List.intersperse_cons_cons, List.flatten_cons, List.flatten_cons, ih]
      rfl
  | case3 c cs _ hcut _ => exact absurd hcut (cutPlaceholders_ne_nil cs)
  | case4 c cs _ p ps hcut ih =>
    rw [hcut] at ih
    cases ps with
    | nil => simpa using ih
    | cons q qs => simpa using ih

/-- The pieces of raw code are the raw code, whatever stands for the placeholders. -/
theorem join_fillPlaceholders (parts : List (List Char)) (es : List Expr) :
    String.join ((fillPlaceholders parts es).map Piece.code) =
      String.ofList (parts.intersperse ['%', '@']).flatten := by
  have hparts (part q : List Char) (qs : List (List Char)) :
      String.ofList ((part :: q :: qs).intersperse ['%', '@']).flatten =
        String.ofList part ++ "%@" ++ String.ofList ((q :: qs).intersperse ['%', '@']).flatten := by
    rw [List.intersperse_cons_cons, List.flatten_cons, List.flatten_cons, String.ofList_append,
      String.ofList_append, ← String.append_assoc]
  fun_induction fillPlaceholders parts es with
  | case1 => rfl
  | case2 last => simp [Piece.code]
  | case3 part parts hne ih =>
    obtain ⟨q, qs, rfl⟩ := List.exists_cons_of_ne_nil hne
    rw [hparts, ← ih]
    simp [Piece.code, String.append_assoc]
  | case4 part parts e es hne ih =>
    obtain ⟨q, qs, rfl⟩ := List.exists_cons_of_ne_nil hne
    rw [hparts, ← ih]
    simp [Piece.code, String.append_assoc]

end Render

theorem Statement.arises {st : Statement} (h : st.Over P Q) (hy : y ∈ st.identifiers words) :
    Arises P Q words y := by
  cases st with
  | pass | breakLoop | continueLoop => cases hy
  | expression e | bind _ e | ret e | raise e | report e => exact e.arises h hy
  | assign target e | augment target _ e | setAttribute target _ e | setElement target _ e =>
    exact (List.mem_append.mp hy).elim (target.arises h.1) (e.arises h.2)
  | raw pieces =>
    obtain ⟨code, es, hcode, hes, rfl⟩ := h
    rcases List.mem_append.mp hy with hy | hy
    · rw [Render.join_fillPlaceholders, Render.flatten_intersperse_cutPlaceholders,
        String.ofList_toList] at hy
      exact .inr ⟨code, hcode, hy⟩
    · refine Expr.arisesList _ (Expr.allOver_iff.mpr ?_) hy
      intro e he
      rw [Render.arguments_fillPlaceholders] at he
      exact Expr.allOver_iff.mp hes e (List.mem_of_mem_take he)
  | globals names | nonlocals names =>
    obtain ⟨n, hn, rfl⟩ := List.mem_map.mp hy
    exact .inl ⟨n, h n hn, rfl⟩

theorem Header.arises {hd : Header} (h : hd.Over P Q) (hy : y ∈ hd.identifiers words) :
    Arises P Q words y := by
  cases hd with
  | ifTrue e | ifFalse e | matching e => exact e.arises h hy
  | whileLoop _ l r => exact (List.mem_append.mp hy).elim (l.arises h.1) (r.arises h.2)
  | forLoop _ range => exact Expr.arisesList range h hy
  | caseEqual capture value =>
    rcases List.mem_cons.mp hy with rfl | hy
    · exact .inl ⟨capture, h.1, rfl⟩
    · exact value.arises h.2 hy
  | classBody _ base =>
    refine Expr.arisesList _ (Expr.allOver_iff.mpr ?_) hy
    intro e he
    exact h e (Option.mem_toList.mp he)
  | function _ _ | method _ _ | otherwise | tryBlock | exceptBlock _ | finallyBlock | caseAny =>
    cases hy

/-- Every identifier of a line is a name of the line or part of its raw texts. -/
theorem Content.arises {c : Content} (h : c.Over P Q) (hy : y ∈ c.identifiers words) :
    Arises P Q words y := by
  cases c with
  | statement st _ => exact Statement.arises h hy
  | header hd _ => exact Header.arises h hy
  | comment _ | filler => cases hy

end

end Python
end ScriptFuzz
