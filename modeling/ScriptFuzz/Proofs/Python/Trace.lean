import ScriptFuzz.Python.Source

/-!
# What the source does, in order

`Layout.trace` reads the lines of a source from top to bottom and lists what happens, in the order in
which the language evaluates the parts of a line. Each event comes with the headers around it.
-/

namespace ScriptFuzz.Python

set_option autoImplicit false

/-- Something that happens when a source runs. -/
inductive Event where
  /-- The instruction at a position reads a variable by its name. -/
  | reads (reader : Nat) (v : Variable)
  /-- The instruction at a position computes its value. -/
  | computes (n : Nat)
  /-- The statement of the instruction at a position takes effect. -/
  | performs (n : Nat)
  /-- The block that the instruction at a position starts is entered. -/
  | opens (n : Nat)
deriving DecidableEq

namespace Event

/-- Whether the instruction at position `n` reads a variable. -/
def isReadBy (n : Nat) : Event → Bool
  | reads reader _ => reader == n
  | _ => false

/-- The position of the instruction that computes its value. -/
def computation? : Event → Option Nat
  | computes n => some n
  | _ => none

end Event

/-- The variable that a name stands for is read. -/
def Name.trace (reader : Nat) : Name → List Event
  | .variable _ v => [.reads reader v]
  | .temporary _ | .capture _ => []

namespace Expr

mutual

/-- What happens when an expression is evaluated as part of an instruction. -/
def trace (reader : Nat) : Expr → List Event
  | name n => n.trace reader
  | builtin _ | int _ | float _ | string _ | bool _ | none => []
  | list items => traceList reader items
  | .attribute object _ | subscript object _ => object.trace reader
  | call callee arguments => callee.trace reader ++ traceList reader arguments
  | unary _ e => e.trace reader
  | binary _ l r | compare _ l r => l.trace reader ++ r.trace reader
  | conditional c t f => c.trace reader ++ t.trace reader ++ f.trace reader
  | computed n e => e.trace n ++ [.computes n]

/-- What happens when expressions are evaluated from left to right. -/
def traceList (reader : Nat) : List Expr → List Event
  | [] => []
  | e :: es => e.trace reader ++ traceList reader es

end

/-- The instructions whose computations an expression contains. -/
def computations (e : Expr) : List Nat := (e.trace 0).filterMap Event.computation?

mutual

/-- The instructions whose computations stand where evaluation is conditional: in the right operand of
a logical operator or in a branch of a conditional expression. -/
def deferred : Expr → List Nat
  | name _ | builtin _ | int _ | float _ | string _ | bool _ | none => []
  | list items => deferredList items
  | .attribute object _ | subscript object _ => object.deferred
  | call callee arguments => callee.deferred ++ deferredList arguments
  | unary _ e => e.deferred
  | binary op l r => l.deferred ++ if op.isLogical then r.computations else r.deferred
  | compare _ l r => l.deferred ++ r.deferred
  | conditional c t f => c.deferred ++ t.computations ++ f.computations
  | computed _ e => e.deferred

def deferredList : List Expr → List Nat
  | [] => []
  | e :: es => e.deferred ++ deferredList es

end

theorem traceList_eq (reader : Nat) (es : List Expr) :
    traceList reader es = es.flatMap (trace reader) := by
  induction es with
  | nil => rfl
  | cons e es ih => rw [traceList, ih, List.flatMap_cons]

theorem deferredList_eq (es : List Expr) : deferredList es = es.flatMap deferred := by
  induction es with
  | nil => rfl
  | cons e es ih => rw [deferredList, ih, List.flatMap_cons]

end Expr

/-- The expression that stands for a placeholder of raw code. -/
def Piece.argument? : Piece → Option Expr
  | text _ => none
  | argument e => some e

namespace Statement

/-- What happens in a statement of the instruction at position `n`. The right side of an assignment is
evaluated before the target, but `setattr` evaluates its arguments from left to right, and an augmented
assignment reads its target first. -/
def trace (n : Nat) : Statement → List Event
  | pass | breakLoop | continueLoop => [.performs n]
  | expression e | bind _ e => e.trace n
  | assign target e => e.trace n ++ target.trace n ++ [.performs n]
  | augment target _ e => target.trace n ++ e.trace n ++ [.performs n]
  | setAttribute object name e =>
    (if isIdentifier name then e.trace n ++ object.trace n else object.trace n ++ e.trace n) ++
      [.performs n]
  | setElement object _ e => e.trace n ++ object.trace n ++ [.performs n]
  | ret e | raise e | report e => e.trace n ++ [.performs n]
  | raw pieces => (pieces.filterMap Piece.argument?).flatMap (Expr.trace n) ++ [.performs n]
  | globals _ | nonlocals _ => []

/-- The instructions whose computations stand in a statement where they need not happen exactly once.
Nothing is known of the places of raw code. -/
def deferred : Statement → List Nat
  | pass | breakLoop | continueLoop | globals _ | nonlocals _ => []
  | expression e | bind _ e | ret e | raise e | report e => e.deferred
  | assign target e | augment target _ e | setAttribute target _ e | setElement target _ e =>
    target.deferred ++ e.deferred
  | raw pieces => (pieces.filterMap Piece.argument?).flatMap Expr.computations

end Statement

namespace Header

/-- What happens in the header of the instruction at position `n`. -/
def trace (n : Nat) : Header → List Event
  | ifTrue e | ifFalse e | matching e | caseEqual _ e => e.trace n ++ [.opens n]
  | whileLoop _ l r => l.trace n ++ r.trace n ++ [.opens n]
  | forLoop _ range => Expr.traceList n range ++ [.opens n]
  | classBody _ base => (base.toList.flatMap (Expr.trace n)) ++ [.opens n]
  | function _ _ | method _ _ | otherwise | tryBlock | exceptBlock _ | finallyBlock | caseAny =>
    [.opens n]

/-- The instructions whose computations stand in a header where they need not happen exactly once: the
condition of a loop is evaluated again for each round, and that of a case only if no case before it
applies. -/
def deferred : Header → List Nat
  | ifTrue e | ifFalse e | matching e => e.deferred
  | caseEqual _ e => e.computations
  | whileLoop _ l r => l.computations ++ r.computations
  | forLoop _ range => Expr.deferredList range
  | classBody _ base => base.toList.flatMap Expr.deferred
  | function _ _ | method _ _ | otherwise | tryBlock | exceptBlock _ | finallyBlock | caseAny => []

end Header

/-- The instructions whose computations stand in a line where they need not happen exactly once. -/
def Line.deferred (l : Line) : List Nat :=
  match l.content with
  | .statement s _ => s.deferred
  | .header h _ => h.deferred
  | .comment _ | .filler => []

/-- What is known after some lines of a source. -/
structure Reading where
  /-- The positions of the headers around the last line, and of its own, innermost first. -/
  path : List Nat := []
  /-- What happens in the lines, with the positions of the headers around it. -/
  events : List (List Nat × Event) := []

/-- Reads a line. Its depth tells which headers are around it; comments have no meaning. -/
def Reading.line (r : Reading) (l : Line) : Reading :=
  let path := r.path.drop (r.path.length - l.depth)
  match l.content with
  | .statement s n => { path, events := r.events ++ (s.trace n).map (Prod.mk path) }
  | .header h n => { path := n :: path, events := r.events ++ (h.trace n).map (Prod.mk path) }
  | .comment _ => r
  | .filler => { r with path }

namespace Layout

def reading (l : Layout) : Reading := l.lines.toList.foldl Reading.line {}

/-- What happens in the lines, with the positions of the headers around it. -/
def trace (l : Layout) : List (List Nat × Event) := l.reading.events

/-- The positions of the headers around the next line, innermost first. -/
def path (l : Layout) : List Nat := l.reading.path.drop (l.reading.path.length - l.depth)

def deferred (l : Layout) : List Nat := l.lines.toList.flatMap Line.deferred

/-- Every open block has its header. -/
def IsSound (l : Layout) : Prop := l.depth ≤ l.reading.path.length

theorem isSound_empty : IsSound {} := Nat.le_refl 0

theorem reading_push (l : Layout) (content : Content) :
    (l.push content).reading = l.reading.line ⟨l.depth, content⟩ := by
  simp [reading, push]

theorem deferred_push (l : Layout) (content : Content) :
    (l.push content).deferred = l.deferred ++ (⟨l.depth, content⟩ : Line).deferred := by
  simp [deferred, push]

theorem reading_fill (l : Layout) : l.fill.reading = l.reading := by
  unfold fill
  split <;> rfl

theorem deferred_fill (l : Layout) : l.fill.deferred = l.deferred := by
  unfold fill
  split <;> rfl

theorem depth_fill (l : Layout) : l.fill.depth = l.depth := by
  unfold fill depth
  split
  · rfl
  · rename_i b fs h
    simp [h]

/-- Trimming a path twice to the same depth trims it once. -/
theorem trim_trim {α : Type} (xs : List α) (n : Nat) :
    (xs.drop (xs.length - n)).drop ((xs.drop (xs.length - n)).length - n) =
      xs.drop (xs.length - n) := by
  have h : (xs.drop (xs.length - n)).length - n = 0 := by
    rw [List.length_drop]
    omega
  rw [h, List.drop_zero]

/-- What a step of rendering changes in the layout: it adds events, and changes the open blocks. -/
structure Extends (l l' : Layout) (events : List (List Nat × Event)) (path : List Nat)
    (deferred : List Nat) : Prop where
  trace : l'.trace = l.trace ++ events
  path : l'.path = path
  deferred : l'.deferred = l.deferred ++ deferred
  sound : l'.IsSound

theorem extends_statement {l : Layout} (hl : l.IsSound) (s : Statement) (n : Nat) :
    l.Extends (l.statement s n) ((s.trace n).map (Prod.mk l.path)) l.path s.deferred := by
  have hr : (l.statement s n).reading = l.reading.line ⟨l.depth, .statement s n⟩ := by
    rw [statement, reading_fill, reading_push]
  have hd : (l.statement s n).depth = l.depth := by
    rw [statement, depth_fill]
    rfl
  refine ⟨?_, ?_, ?_, ?_⟩
  · rw [trace, hr]
    rfl
  · rw [path, hr, hd]
    exact trim_trim l.reading.path l.depth
  · rw [statement, deferred_fill, deferred_push]
    rfl
  · unfold IsSound at hl ⊢
    rw [hr, hd]
    simp only [Reading.line, List.length_drop]
    omega

theorem extends_enter {l : Layout} (hl : l.IsSound) (h : Header) (n : Nat) :
    l.Extends (l.enter h n) ((h.trace n).map (Prod.mk l.path)) (n :: l.path) h.deferred := by
  have hr : (l.enter h n).reading = l.reading.line ⟨l.depth, .header h n⟩ := by
    have : (l.enter h n).reading = (l.push (.header h n)).fill.reading := rfl
    rw [this, reading_fill, reading_push]
  have hd : (l.enter h n).depth = l.depth + 1 := by
    rw [← l.depth_fill]
    unfold enter fill push depth
    split <;> simp_all
  have hlen : l.path.length = l.depth := by
    unfold IsSound at hl
    rw [path, List.length_drop]
    omega
  refine ⟨?_, ?_, ?_, ?_⟩
  · rw [trace, hr]
    rfl
  · have hp : (l.enter h n).reading.path = n :: l.path := by
      rw [hr]
      rfl
    rw [path, hp, hd, List.length_cons, hlen, Nat.sub_self, List.drop_zero]
  · have : (l.enter h n).deferred = (l.push (.header h n)).fill.deferred := rfl
    rw [this, deferred_fill, deferred_push]
    rfl
  · unfold IsSound at hl ⊢
    rw [hr, hd]
    simp only [Reading.line, List.length_cons, List.length_drop]
    omega

theorem extends_exit {l : Layout} (hl : l.IsSound) :
    l.Extends l.exit [] l.path.tail [] := by
  unfold IsSound at hl
  cases hf : l.filled with
  | nil =>
    have hpath : l.path = [] := by
      apply List.eq_nil_of_length_eq_zero
      rw [path, List.length_drop, depth, hf, List.length_nil]
      omega
    have he : l.exit = l := by
      rw [exit, hf]
    rw [he]
    refine ⟨(List.append_nil _).symm, ?_, (List.append_nil _).symm, hl⟩
    rw [hpath]
    rfl
  | cons b fs =>
    have hd : l.depth = fs.length + 1 := by
      rw [depth, hf]
      rfl
    rw [hd] at hl
    cases b with
    | true =>
      have he : l.exit = { l with filled := fs } := by
        rw [exit, hf]
      rw [he]
      refine ⟨(List.append_nil _).symm, ?_, (List.append_nil _).symm, ?_⟩
      · rw [path, path, hd, List.tail_drop]
        change l.reading.path.drop (l.reading.path.length - fs.length) = _
        congr 1
        omega
      · change fs.length ≤ l.reading.path.length
        omega
    | false =>
      have he : l.exit = { l.push .filler with filled := fs } := by
        rw [exit, hf]
      have hr : l.exit.reading = l.reading.line ⟨l.depth, .filler⟩ := by
        rw [he, ← reading_push]
        rfl
      have hd' : l.exit.depth = fs.length := by
        rw [he]
        rfl
      refine ⟨?_, ?_, ?_, ?_⟩
      · rw [trace, hr, List.append_nil]
        rfl
      · rw [path, path, hr, hd', hd, List.tail_drop]
        simp only [Reading.line, List.drop_drop, List.length_drop]
        congr 1
        omega
      · have : l.exit.deferred = (l.push .filler).deferred := by
          rw [he]
          rfl
        rw [this, deferred_push]
        rfl
      · unfold IsSound
        rw [hr, hd']
        simp only [Reading.line, hd, List.length_drop]
        omega

theorem extends_refl {l : Layout} (hl : l.IsSound) : l.Extends l [] l.path [] :=
  ⟨(List.append_nil _).symm, rfl, (List.append_nil _).symm, hl⟩

theorem Extends.trans {l l' l'' : Layout} {events events' : List (List Nat × Event)}
    {path path' : List Nat} {deferred deferred' : List Nat}
    (h : l.Extends l' events path deferred) (h' : l'.Extends l'' events' path' deferred') :
    l.Extends l'' (events ++ events') path' (deferred ++ deferred') := by
  refine ⟨?_, h'.path, ?_, h'.sound⟩
  · rw [h'.trace, h.trace, List.append_assoc]
  · rw [h'.deferred, h.deferred, List.append_assoc]

theorem extends_comment {l : Layout} (hl : l.IsSound) (text : String) :
    l.Extends (l.comment text) [] l.path [] := by
  unfold comment
  generalize Text.lines text.toList = lines
  induction lines generalizing l with
  | nil => exact extends_refl hl
  | cons cs css ih =>
    have hr : (l.push (.comment (String.ofList cs))).reading = l.reading := reading_push ..
    have h : l.Extends (l.push (.comment (String.ofList cs))) [] l.path [] := by
      refine ⟨?_, ?_, ?_, ?_⟩
      · rw [trace, hr, List.append_nil]
        rfl
      · rw [path, hr]
        rfl
      · rw [deferred_push]
        rfl
      · unfold IsSound
        rw [hr]
        exact hl
    have h' := h.trans (ih h.sound)
    rw [h.path] at h'
    exact h'

end Layout

end ScriptFuzz.Python
