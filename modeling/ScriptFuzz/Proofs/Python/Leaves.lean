import ScriptFuzz.Proofs.Python.Instructions

/-!
# What lines are made of

`Expr.Over` says what the names and the paths of builtins in an expression are, `Statement.Over` and
`Header.Over` say it of a line. `exists_finish` is what an instruction inside of a body does: it takes
the expressions of its inputs from the queue and makes one declaration or one statement of them, which
adds no other name and nothing but the instruction's own texts.
-/

namespace ScriptFuzz

set_option autoImplicit false

/-- The texts that an instruction writes as they are. -/
def Instruction.rawTexts (i : Instruction) : List String :=
  match i.op with
  | .loadBuiltin path => [path]
  | .eval code _ => [code]
  | _ => []

namespace Python

namespace Expr

mutual

/-- Whether the names in an expression are `P` and the paths of its builtins are `Q`. -/
def Over (P : Name → Prop) (Q : String → Prop) : Expr → Prop
  | name n => P n
  | builtin path => Q path
  | int _ | float _ | string _ | bool _ | none => True
  | list items => AllOver P Q items
  | .attribute object _ => object.Over P Q
  | subscript object _ => object.Over P Q
  | call callee arguments => callee.Over P Q ∧ AllOver P Q arguments
  | unary _ e => e.Over P Q
  | binary _ l r => l.Over P Q ∧ r.Over P Q
  | compare _ l r => l.Over P Q ∧ r.Over P Q
  | conditional c t f => c.Over P Q ∧ t.Over P Q ∧ f.Over P Q
  | computed _ e => e.Over P Q

def AllOver (P : Name → Prop) (Q : String → Prop) : List Expr → Prop
  | [] => True
  | e :: es => e.Over P Q ∧ AllOver P Q es

end

section

variable {P P' : Name → Prop} {Q : String → Prop}

theorem allOver_iff {es : List Expr} : AllOver P Q es ↔ ∀ e ∈ es, e.Over P Q := by
  induction es with
  | nil => simp [AllOver]
  | cons e es ih => simp [AllOver, ih]

theorem AllOver.headD {es : List Expr} (h : AllOver P Q es) : (es.headD .none).Over P Q := by
  cases es with
  | nil => trivial
  | cons e es => exact h.1

theorem AllOver.tail {es : List Expr} (h : AllOver P Q es) : AllOver P Q es.tail := by
  cases es with
  | nil => trivial
  | cons e es => exact h.2

theorem AllOver.getD {es : List Expr} (h : AllOver P Q es) (n : Nat) :
    ((es[n]?).getD .none).Over P Q := by
  cases he : es[n]? with
  | none => trivial
  | some e => exact allOver_iff.mp h e (List.mem_of_getElem? he)

mutual

/-- What is over some names is over more names. -/
theorem Over.mono (hP : ∀ n, P n → P' n) : ∀ e : Expr, e.Over P Q → e.Over P' Q
  | name n, h => hP n h
  | builtin _, h => h
  | int _, _ | float _, _ | string _, _ | bool _, _ | none, _ => trivial
  | list items, h => AllOver.mono hP items h
  | .attribute object _, h => Over.mono hP object h
  | subscript object _, h => Over.mono hP object h
  | call callee arguments, h => ⟨Over.mono hP callee h.1, AllOver.mono hP arguments h.2⟩
  | unary _ e, h => Over.mono hP e h
  | binary _ l r, h => ⟨Over.mono hP l h.1, Over.mono hP r h.2⟩
  | compare _ l r, h => ⟨Over.mono hP l h.1, Over.mono hP r h.2⟩
  | conditional c t f, h => ⟨Over.mono hP c h.1, Over.mono hP t h.2.1, Over.mono hP f h.2.2⟩
  | computed _ e, h => Over.mono hP e h

theorem AllOver.mono (hP : ∀ n, P n → P' n) : ∀ es : List Expr, AllOver P Q es → AllOver P' Q es
  | [], _ => trivial
  | e :: es, h => ⟨Over.mono hP e h.1, AllOver.mono hP es h.2⟩

end
end
end Expr

/-- Whether the names that a statement reads are `P`, and the paths of its builtins and its raw code
are `Q`. -/
def Statement.Over (P : Name → Prop) (Q : String → Prop) : Statement → Prop
  | .pass | .breakLoop | .continueLoop => True
  | .expression e | .bind _ e | .ret e | .raise e | .report e => e.Over P Q
  | .assign target e | .augment target _ e => target.Over P Q ∧ e.Over P Q
  | .setAttribute object _ e | .setElement object _ e => object.Over P Q ∧ e.Over P Q
  | .raw pieces => ∃ code es, Q code ∧ Expr.AllOver P Q es ∧
      pieces = Render.fillPlaceholders (Render.cutPlaceholders code.toList) es
  | .globals names | .nonlocals names => ∀ n ∈ names, P n

/-- What a statement gives a new value, unless it is a name that the source binds. -/
def Statement.target? : Statement → Option Expr
  | .assign target _ | .augment target _ _ => some target
  | _ => none

/-- Whether the names that a header reads are `P` and the paths of its builtins are `Q`. The head of a
method has a proper name. -/
def Header.Over (P : Name → Prop) (Q : String → Prop) : Header → Prop
  | .method name _ => isIdentifier name = true ∨ ∃ n : Nat, name = "m" ++ toString n
  | .ifTrue e | .ifFalse e | .matching e => e.Over P Q
  | .whileLoop _ l r => l.Over P Q ∧ r.Over P Q
  | .forLoop _ range => Expr.AllOver P Q range
  | .caseEqual capture value => P capture ∧ value.Over P Q
  | .classBody _ base => ∀ e ∈ base, e.Over P Q
  | .function _ _ | .otherwise | .tryBlock | .exceptBlock _ | .finallyBlock | .caseAny => True

/-- A method has a proper name, its own or another. -/
theorem Header.over_method (P : Name → Prop) (Q : String → Prop) (name : String) (k : Nat)
    (ps : List Name) :
    (Header.method (if isIdentifier name then name else "m" ++ toString k) ps).Over P Q := by
  split
  · rename_i hname
    exact .inl hname
  · exact .inr ⟨k, rfl⟩

namespace Render

/-- What an instruction does with the expressions of its inputs. -/
inductive Finish where
  | declare (v : Variable) (e : Expr)
  | assign (v : Variable) (e : Expr)
  | emit (st : Statement)

namespace Finish

def run (s : Subject) (n : Nat) : Finish → Render Unit
  | declare v e => Render.declare s n v e
  | assign v e => Render.assign s n v e
  | emit st => Render.emit s n st

/-- The variables that get a meaning. -/
def outputs : Finish → List Variable
  | declare v _ | assign v _ => [v]
  | emit _ => []

def Over (P : Name → Prop) (Q : String → Prop) : Finish → Prop
  | declare _ e | assign _ e => e.Over P Q
  | emit st => st.Over P Q

def target? : Finish → Option Expr
  | declare _ _ | assign _ _ => none
  | emit st => st.target?

end Finish

/-- The instruction takes its inputs from the queue and goes on with `f`. -/
structure Finishes (s : Subject) (i : Instruction) (Q : String → Prop)
    (f : List Expr → Finish) : Prop where
  run : instruction s i = operands s i.index i.slots >>= fun es => (f es).run s i.index
  outputs : ∀ es, (f es).outputs = i.outputs
  inScope : ∀ {P : Name → Prop} {es : List Expr}, Expr.AllOver P Q es → (f es).Over P Q
  target : ∀ es, (f es).target? = if i.op.assigns then some (es.headD .none) else none
  binds : ∀ es target e, f es ≠ .emit (.bind target e)

variable {s : Subject} {i : Instruction} {Q : String → Prop}

theorem output?_eq (h : i.op.shape.outputs = 1) : ∃ v, i.output? = some v ∧ i.outputs = [v] := by
  obtain ⟨v, hv⟩ := List.length_eq_one_iff.mp (i.length_outputs.trans h)
  exact ⟨v, by rw [Instruction.output?, hv], hv⟩

/-- What declares a variable assigns to no other one. -/
theorem assigns_eq_false (h : i.op.shape.outputs = 1) : i.op.assigns = false := by
  cases hop : i.op <;> rw [hop] at h <;> first | rfl | cases h

/-- The names and paths in a value are those of the inputs and the instruction's own. -/
theorem over_value {P : Name → Prop} {es : List Expr} (hQ : ∀ text ∈ i.rawTexts, Q text)
    (hes : Expr.AllOver P Q es) : (i.value es).Over P Q := by
  unfold Instruction.rawTexts at hQ
  unfold Instruction.value
  cases hop : i.op with
  | loadBuiltin path =>
    rw [hop] at hQ
    exact hQ path (List.mem_singleton_self path)
  | createArray n => exact hes
  | getProperty name | getElement index | unaryOperation op | dup => exact hes.headD
  | callFunction n | construct n | callMethod name n => exact ⟨hes.headD, hes.tail⟩
  | binaryOperation op | compare op => exact ⟨hes.headD, hes.getD 1⟩
  | ternaryOperation => exact ⟨hes.headD, hes.getD 1, hes.getD 2⟩
  | _ => trivial

theorem over_statement {P : Name → Prop} {es : List Expr} (hQ : ∀ text ∈ i.rawTexts, Q text)
    (hes : Expr.AllOver P Q es) : (i.statement es).Over P Q := by
  unfold Instruction.rawTexts at hQ
  unfold Instruction.statement
  cases hop : i.op with
  | setProperty name | setElement index | reassign => exact ⟨hes.headD, hes.getD 1⟩
  | ret | throwException | print => exact hes.headD
  | update op =>
    dsimp only
    split
    · exact ⟨hes.headD, hes.headD, hes.getD 1⟩
    · exact ⟨hes.headD, hes.getD 1⟩
  | eval code n =>
    rw [hop] at hQ
    exact ⟨code, es, hQ code (List.mem_singleton_self code), hes, rfl⟩
  | _ => trivial

/-- Only what assigns has a target, its first input. -/
theorem target?_statement (es : List Expr) :
    (i.statement es).target? = if i.op.assigns then some (es.headD .none) else none := by
  unfold Instruction.statement
  cases i.op with
  | update op =>
    dsimp only
    split <;> rfl
  | _ => rfl

theorem statement_ne_bind (es : List Expr) (target : Name) (e : Expr) :
    i.statement es ≠ .bind target e := by
  unfold Instruction.statement
  cases i.op with
  | update op =>
    dsimp only
    split <;> simp
  | _ => simp

theorem finishes_declare {v : Variable} {f : List Expr → Expr} (hout : i.op.shape.outputs = 1)
    (hv : i.outputs = [v])
    (hrun : instruction s i = operands s i.index i.slots >>= fun es => declare s i.index v (f es))
    (hover : ∀ {P : Name → Prop} {es : List Expr}, Expr.AllOver P Q es → (f es).Over P Q) :
    Finishes s i Q fun es => .declare v (f es) := by
  refine ⟨hrun, fun _ => hv.symm, hover, ?_, ?_⟩
  · intro es
    rw [assigns_eq_false hout]
    rfl
  · intro es target e h
    cases h

theorem exists_finish_of_load (hevent : i.event? = none) (hend : i.isBlockEnd = false)
    (hQ : ∀ text ∈ i.rawTexts, Q text) : ∃ f, Finishes s i Q f := by
  have hout := of_load hevent hend
  obtain ⟨v, hv, hvs⟩ := output?_eq hout
  refine ⟨_, finishes_declare (f := fun _ => i.value []) hout hvs ?_ fun _ =>
    over_value hQ trivial⟩
  rw [instruction_eq_load hevent hend, (of_silent hevent).2, operands_nil]
  unfold load
  rw [hv]
  rfl

theorem exists_finish_of_computes (hevent : i.event? = some (.computes i.index))
    (hQ : ∀ text ∈ i.rawTexts, Q text) : ∃ f, Finishes s i Q f := by
  have hout := (of_computes hevent).2
  obtain ⟨v, hv, hvs⟩ := output?_eq hout
  by_cases hop : ∃ n, i.op = .construct n
  · obtain ⟨n, hop⟩ := hop
    refine ⟨fun es => .assign v (.computed i.index (i.value es)), instruction_eq_assign hop hv,
      fun _ => hvs.symm, over_value hQ, ?_, ?_⟩
    · intro es
      rw [hop]
      rfl
    · intro es target e h
      cases h
  · refine ⟨_, finishes_declare (f := fun es => .computed i.index (i.value es)) hout hvs ?_
      (over_value hQ)⟩
    rw [instruction_eq_compute hevent fun n h => hop ⟨n, h⟩]
    unfold compute
    rw [hv]

theorem exists_finish_of_performs (hevent : i.event? = some (.performs i.index))
    (hQ : ∀ text ∈ i.rawTexts, Q text) : ∃ f, Finishes s i Q f := by
  have hout := (of_performs hevent).2
  refine ⟨fun es => .emit (i.statement es), instruction_eq_emit hevent,
    fun _ => (Instruction.outputs_eq_nil hout).symm, over_statement hQ, target?_statement, ?_⟩
  intro es target e h
  exact statement_ne_bind es target e (Finish.emit.inj h)

/-- What an instruction inside of a body does. -/
theorem exists_finish (s : Subject) (hi : i.isBlock = false) (hQ : ∀ text ∈ i.rawTexts, Q text) :
    ∃ f, Finishes s i Q f := by
  have hend : i.isBlockEnd = false := by
    simp only [Instruction.isBlock, Bool.or_eq_false_iff] at hi
    exact hi.2
  rcases event?_cases i with hevent | hevent | hevent | hevent
  · exact exists_finish_of_load hevent hend hQ
  · exact exists_finish_of_computes hevent hQ
  · exact exists_finish_of_performs hevent hQ
  · rw [Instruction.isBlock, of_opens hevent] at hi
    cases hi

end Render
end Python
end ScriptFuzz
