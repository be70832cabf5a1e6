import ScriptFuzz.Proofs.Python.Leaves
import ScriptFuzz.Proofs.Python.Suites

/-!
# Other lines for temporaries

A temporary has its name from the line that binds it. `Line.renamed` names it after another line, and
changes nothing else. What an instruction writes for its inputs does not depend on their names.
-/

namespace ScriptFuzz

set_option autoImplicit false

namespace Python

/-- The name, if a temporary that was named after a line `n` is named after the line `ρ n`. -/
def Name.renamed (ρ : Nat → Nat) : Name → Name
  | .temporary n => .temporary (ρ n)
  | n => n

namespace Expr

mutual

def renamed (ρ : Nat → Nat) : Expr → Expr
  | name n => name (n.renamed ρ)
  | list items => list (renamedList ρ items)
  | .attribute object n => .attribute (object.renamed ρ) n
  | subscript object i => subscript (object.renamed ρ) i
  | call callee arguments => call (callee.renamed ρ) (renamedList ρ arguments)
  | unary op e => unary op (e.renamed ρ)
  | binary op l r => binary op (l.renamed ρ) (r.renamed ρ)
  | compare op l r => compare op (l.renamed ρ) (r.renamed ρ)
  | conditional c t f => conditional (c.renamed ρ) (t.renamed ρ) (f.renamed ρ)
  | computed n e => computed n (e.renamed ρ)
  | e => e

def renamedList (ρ : Nat → Nat) : List Expr → List Expr
  | [] => []
  | e :: es => e.renamed ρ :: renamedList ρ es

end

section

variable {ρ : Nat → Nat}

@[simp] theorem renamedList_eq (es : List Expr) : renamedList ρ es = es.map (renamed ρ) := by
  induction es with
  | nil => rfl
  | cons e es ih => rw [renamedList, ih, List.map_cons]

theorem isName_renamed : ∀ e : Expr, (e.renamed ρ).isName = e.isName
  | computed _ e => isName_renamed e
  | name _ | builtin _ | int _ | float _ | string _ | bool _ | none | list _ | .attribute _ _
  | subscript _ _ | call _ _ | unary _ _ | binary _ _ _ | compare _ _ _ | conditional _ _ _ => rfl

theorem isEffectful_renamed (e : Expr) : (e.renamed ρ).isEffectful = e.isEffectful := by
  cases e <;> rfl

@[simp] theorem getD_map_renamed (e : Option Expr) :
    (e.map (renamed ρ)).getD .none = (e.getD .none).renamed ρ := by
  cases e <;> rfl

end
end Expr

def Piece.renamed (ρ : Nat → Nat) : Piece → Piece
  | text s => text s
  | argument e => argument (e.renamed ρ)

def Statement.renamed (ρ : Nat → Nat) : Statement → Statement
  | expression e => expression (e.renamed ρ)
  | bind target e => bind (target.renamed ρ) (e.renamed ρ)
  | assign target e => assign (target.renamed ρ) (e.renamed ρ)
  | augment target op e => augment (target.renamed ρ) op (e.renamed ρ)
  | setAttribute object name e => setAttribute (object.renamed ρ) name (e.renamed ρ)
  | setElement object i e => setElement (object.renamed ρ) i (e.renamed ρ)
  | ret e => ret (e.renamed ρ)
  | raise e => raise (e.renamed ρ)
  | raw pieces => raw (pieces.map (Piece.renamed ρ))
  | report e => report (e.renamed ρ)
  | globals names => globals (names.map (Name.renamed ρ))
  | nonlocals names => nonlocals (names.map (Name.renamed ρ))
  | st => st

def Header.renamed (ρ : Nat → Nat) : Header → Header
  | function name ps => function (name.renamed ρ) (ps.map (Name.renamed ρ))
  | method name ps => method name (ps.map (Name.renamed ρ))
  | ifTrue c => ifTrue (c.renamed ρ)
  | ifFalse c => ifFalse (c.renamed ρ)
  | whileLoop op l r => whileLoop op (l.renamed ρ) (r.renamed ρ)
  | forLoop counter range => forLoop (counter.renamed ρ) (range.map (Expr.renamed ρ))
  | exceptBlock error => exceptBlock (error.renamed ρ)
  | matching subject => matching (subject.renamed ρ)
  | caseEqual capture value => caseEqual (capture.renamed ρ) (value.renamed ρ)
  | classBody name base => classBody (name.renamed ρ) (base.map (Expr.renamed ρ))
  | hd => hd

def Content.renamed (ρ : Nat → Nat) : Content → Content
  | statement st n => statement (st.renamed ρ) n
  | header hd n => header (hd.renamed ρ) n
  | content => content

def Line.renamed (ρ : Nat → Nat) (x : Line) : Line := ⟨x.depth, x.content.renamed ρ⟩

/-- The source with other names for its temporaries. -/
def Layout.renamed (ρ : Nat → Nat) (l : Layout) : Layout :=
  { l with lines := l.lines.map (Line.renamed ρ) }

section

variable {ρ : Nat → Nat}

theorem Line.isComment_renamed (x : Line) : (x.renamed ρ).isComment = x.isComment := by
  obtain ⟨depth, content⟩ := x
  cases content <;> rfl

theorem Render.fillPlaceholders_renamed (parts : List (List Char)) (es : List Expr) :
    fillPlaceholders parts (es.map (Expr.renamed ρ)) =
      (fillPlaceholders parts es).map (Piece.renamed ρ) := by
  fun_induction fillPlaceholders parts es with
  | case1 => rfl
  | case2 => rfl
  | case3 part parts hne ih =>
    rw [List.map_nil] at ih ⊢
    rw [fillPlaceholders, List.map_cons, List.map_cons, ← ih]
    · rfl
    · exact hne
  | case4 part parts e es hne ih =>
    rw [List.map_cons, fillPlaceholders, ih]
    · rfl
    · exact hne

theorem value_renamed (ρ : Nat → Nat) (i : Instruction) (es : List Expr) :
    i.value (es.map (Expr.renamed ρ)) = (i.value es).renamed ρ := by
  unfold Instruction.value
  cases i.op <;> simp [Expr.renamed]

theorem statement_renamed (ρ : Nat → Nat) (i : Instruction) (es : List Expr) :
    i.statement (es.map (Expr.renamed ρ)) = (i.statement es).renamed ρ := by
  unfold Instruction.statement
  cases i.op with
  | update op =>
    dsimp only
    split <;> simp [Statement.renamed, Expr.renamed]
  | eval code n =>
    dsimp only
    rw [Render.fillPlaceholders_renamed]
    rfl
  | _ => simp [Statement.renamed]

end

end Python
end ScriptFuzz
