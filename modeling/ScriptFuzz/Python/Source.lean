import ScriptFuzz.Program.Basic
import ScriptFuzz.Python.Line
import ScriptFuzz.Python.Scope

/-!
# Programs as source

`Program.source` renders a program, instruction by instruction. A variable whose defining expression
may stand where the variable is used is not bound to a name:

* a variable that is assigned again always has its name;
* an expression without effects stands at every use;
* an expression with effects stands at its only use.

Expressions with effects wait for their use in a queue, in program order. Where writing one would
move its effect past another that waits, the earlier ones are bound to their names first. Every
statement and every end of a block empties the queue, so no effect crosses either.
-/

namespace ScriptFuzz.Python

set_option autoImplicit false

/-- What may be written in the place of an input. -/
inductive Slot where
  | inline
  /-- A plain name, for targets of assignments and callees. -/
  | name
  /-- An expression without effects, because the place is evaluated conditionally or repeatedly. -/
  | settled
deriving DecidableEq

/-- The state of rendering a program. -/
structure Lifting where
  layout : Layout := {}
  /-- What stands for each variable, the latest entry first. -/
  bindings : List (Variable × Expr) := []
  /-- The variables whose expressions wait for their use, in program order. -/
  pending : List Variable := []
  /-- For each open switch, innermost first, whether it has a case. -/
  switches : List Bool := []
  /-- The declarations of outer variables that are still to be written. -/
  declarations : List (Nat × OuterAssignments)

/-- What stays fixed while a program is rendered: its code and the roles of its variables. -/
structure Subject where
  code : Code
  roles : List (Variable × Role)

namespace Subject

def ofCode (code : Code) : Subject := { code, roles := code.roles }

def nameOf (s : Subject) (v : Variable) : Name := .variable ((s.roles.lookup v).getD .value) v

end Subject

abbrev Render (α : Type) := StateM Lifting α

namespace Render

/-- Writes a statement without emptying the queue. -/
def write (origin : Nat) (st : Statement) : Render Unit :=
  modify fun l => { l with layout := l.layout.statement st origin }

def setBinding (v : Variable) (e : Expr) : Render Unit :=
  modify fun l => { l with bindings := (v, e) :: l.bindings }

/-- Makes a variable stand for its own name. -/
def bindName (s : Subject) (v : Variable) : Render Name := do
  setBinding v (.name (s.nameOf v))
  return s.nameOf v

/-- Binds the expression of a variable that waited in the queue to the variable's name. -/
def materialize (s : Subject) (origin : Nat) (v : Variable) : Render Unit := do
  match (← get).bindings.lookup v with
  | some e =>
    write origin (.bind (s.nameOf v) e)
    setBinding v (.name (s.nameOf v))
  | none => return ()

def drain (s : Subject) (origin : Nat) : Render Unit := do
  let waiting := (← get).pending
  modify fun l => { l with pending := [] }
  waiting.forM (materialize s origin)

def emit (s : Subject) (origin : Nat) (st : Statement) : Render Unit := do
  drain s origin
  write origin st

def enter (s : Subject) (origin : Nat) (h : Header) : Render Unit := do
  drain s origin
  modify fun l => { l with layout := l.layout.enter h origin }

def exit (s : Subject) (origin : Nat) : Render Unit := do
  drain s origin
  modify fun l => { l with layout := l.layout.exit }

/-- Binds an expression to the name of a variable right away. -/
def assign (s : Subject) (origin : Nat) (v : Variable) (e : Expr) : Render Unit := do
  emit s origin (.bind (s.nameOf v) e)
  setBinding v (.name (s.nameOf v))

/-- Takes note of the expression that computes a variable, or writes it. -/
def declare (s : Subject) (origin : Nat) (v : Variable) (e : Expr) : Render Unit := do
  let usage := s.code.usage v
  if usage.isSingleAssignment then
    if e.isEffectful then
      if usage.uses = 1 then
        setBinding v e
        modify fun l => { l with pending := l.pending ++ [v] }
      else if usage.uses = 0 then emit s origin (.expression e)
      else assign s origin v e
    else if 0 < usage.uses then setBinding v e
    else assign s origin v e
  else assign s origin v e

/-- The length of the longest common start of two lists. -/
def commonLength : List Variable → List Variable → Nat
  | a :: as, b :: bs => if a = b then commonLength as bs + 1 else 0
  | _, _ => 0

/-- How many of the last waiting variables may be written in the places of the inputs: those that
are the last inline inputs too, in the same order. -/
def inlinable (inputs : List (Variable × Slot)) (pending : List Variable) : Nat :=
  let candidates := (inputs.filter fun (v, slot) => slot = .inline && pending.contains v).map (·.1)
  commonLength candidates.reverse pending.reverse

/-- How many of the first waiting variables are bound to their names before the inputs are
written. -/
def settledCount (inputs : List (Variable × Slot)) (pending : List Variable) : Nat :=
  match inlinable inputs pending with
  | 0 => (inputs.map fun (v, _) => if v ∈ pending then pending.idxOf v + 1 else 0).foldl max 0
  | n => pending.length - n

/-- Takes from the queue what is written in the places of the inputs, after binding what must not be
overtaken. -/
def settle (s : Subject) (origin : Nat) (inputs : List (Variable × Slot)) : Render Unit := do
  let pending := (← get).pending
  let count := settledCount inputs pending
  (pending.take count).forM (materialize s origin)
  let rest := pending.drop count
  let taken := inlinable inputs pending
  modify fun l => { l with pending := rest.take (rest.length - taken) }

/-- The expression that stands for an input. Where only a name will do, any other expression is
bound to a temporary name first. -/
def operand (s : Subject) (origin : Nat) : Variable × Slot → Render Expr
  | (v, slot) => do
    let l ← get
    let e := (l.bindings.lookup v).getD (.name (s.nameOf v))
    if slot = .name && !e.isName then
      let temporary : Name := .temporary l.layout.lines.size
      write origin (.bind temporary e)
      return .name temporary
    else return e

/-- The expressions that stand for inputs, which are listed in the order of evaluation. -/
def operands (s : Subject) (origin : Nat) (inputs : List (Variable × Slot)) :
    Render (List Expr) := do
  settle s origin inputs
  inputs.mapM (operand s origin)

/-- The expressions that stand for inputs with the same slot. -/
def operandsAs (s : Subject) (origin : Nat) (slot : Slot) (inputs : List Variable) :
    Render (List Expr) :=
  operands s origin (inputs.map fun v => (v, slot))

/-- The expression that stands for the only input. -/
def operandAs (s : Subject) (i : Instruction) (slot : Slot) : Render Expr := do
  return (← operandsAs s i.index slot [i.input 0]).headD .none

/-- The expressions that stand for two inputs. -/
def pair (s : Subject) (i : Instruction) (first second : Slot) : Render (Expr × Expr) := do
  let es ← operands s i.index [(i.input 0, first), (i.input 1, second)]
  return (es.headD .none, (es[1]?).getD .none)

/-- The slots of a call: a name for the callee and any expressions for the arguments. -/
def callSlots : List Variable → List (Variable × Slot)
  | [] => []
  | callee :: arguments => (callee, .name) :: arguments.map fun v => (v, .inline)

/-- Writes the declarations of outer variables at the start of a body. -/
def declareOuter (s : Subject) (i : Instruction) : Render Unit := do
  match (← get).declarations.lookup i.index with
  | none => return ()
  | some outer =>
    modify fun l => { l with declarations := l.declarations.filter fun (n, _) => n ≠ i.index }
    let names (numbers : List Nat) : List Name := numbers.map fun n => s.nameOf ⟨n⟩
    if !outer.globals.isEmpty then write i.index (.globals (names outer.globals))
    if !outer.nonlocals.isEmpty then write i.index (.nonlocals (names outer.nonlocals))

/-- Notes that the innermost open switch has a case. -/
def markCase : Render Unit :=
  modify fun l => { l with switches := match l.switches with | [] => [] | _ :: fs => true :: fs }

/-- Forgets the innermost open switch; tells whether it has a case, if a switch is open. -/
def leaveSwitch : Render (Option Bool) := do
  let l ← get
  set { l with switches := l.switches.tail }
  return l.switches.head?

def cutPlaceholders : List Char → List (List Char)
  | [] => [[]]
  | '%' :: '@' :: cs => [] :: cutPlaceholders cs
  | c :: cs =>
    match cutPlaceholders cs with
    | [] => [[c]]
    | p :: ps => (c :: p) :: ps

/-- Raw code with the arguments in the places of its placeholders. Placeholders beyond the arguments
stay, and arguments beyond the placeholders are dropped. -/
def fillPlaceholders : List (List Char) → List Expr → List Piece
  | [], _ => []
  | [last], _ => [.text (String.ofList last)]
  | part :: parts, [] => .text (String.ofList part) :: .text "%@" :: fillPlaceholders parts []
  | part :: parts, e :: es => .text (String.ofList part) :: .argument e :: fillPlaceholders parts es

/-- Declares the only output of an instruction as what the instruction computes. -/
def compute (s : Subject) (i : Instruction) (e : Expr) : Render Unit :=
  match i.output? with
  | some v => declare s i.index v (.computed i.index e)
  | none => return ()

/-- Declares the only output of an instruction as an expression without effects. -/
def load (s : Subject) (i : Instruction) (e : Expr) : Render Unit :=
  match i.output? with
  | some v => declare s i.index v e
  | none => return ()

/-- Makes the variables of a body stand for their names. -/
def bindNames (s : Subject) (vs : List Variable) : Render (List Name) := vs.mapM (bindName s)

def instruction (s : Subject) (i : Instruction) : Render Unit := do
  let n := i.index
  match i.op with
  | .nop => emit s n .pass
  | .loadInteger v | .loadBigInt v => load s i (.int v)
  | .loadFloat v => load s i (.float v)
  | .loadString v => load s i (.string v)
  | .loadRegExp v => load s i (.string v)
  | .loadBoolean v => load s i (.bool v)
  | .loadUndefined | .loadNull => load s i .none
  | .loadBuiltin path => load s i (.builtin path)
  | .createArray _ => compute s i (.list (← operandsAs s n .inline i.inputs))
  | .getProperty name => compute s i (.attribute (← operandAs s i .inline) name)
  | .setProperty name =>
    let (object, e) ← pair s i .name .inline
    emit s n (.setAttribute object name e)
  | .getElement index => compute s i (.subscript (← operandAs s i .inline) index)
  | .setElement index =>
    let (object, e) ← pair s i .name .inline
    emit s n (.setElement object index e)
  | .beginPlainFunction _ =>
    let parameters ← bindNames s i.innerOutputs
    let names ← bindNames s i.outputs
    enter s n (.function (names.headD (s.nameOf default)) parameters)
    declareOuter s i
  | .ret => emit s n (.ret (← operandAs s i .inline))
  | .callFunction _ =>
    let es ← operands s n (callSlots i.inputs)
    compute s i (.call (es.headD .none) es.tail)
  | .construct _ =>
    let es ← operands s n (callSlots i.inputs)
    if let some v := i.output? then
      assign s n v (.computed n (.call (es.headD .none) es.tail))
  | .callMethod name _ =>
    let es ← operandsAs s n .inline i.inputs
    compute s i (.call (.attribute (es.headD .none) name) es.tail)
  | .unaryOperation op => compute s i (.unary op (← operandAs s i .inline))
  | .binaryOperation op =>
    let (l, r) ← pair s i .inline (if op.isLogical then .settled else .inline)
    compute s i (.binary op l r)
  | .ternaryOperation =>
    let es ← operands s n
      [(i.input 0, .inline), (i.input 1, .settled), (i.input 2, .settled)]
    compute s i (.conditional (es.headD .none) ((es[1]?).getD .none) ((es[2]?).getD .none))
  | .compare op =>
    let (l, r) ← pair s i .inline .inline
    compute s i (.compare op l r)
  | .reassign =>
    let (target, e) ← pair s i .name .inline
    emit s n (.assign target e)
  | .update op =>
    if op.isLogical then
      let (target, e) ← pair s i .name .settled
      emit s n (.assign target (.binary op target e))
    else
      let (target, e) ← pair s i .name .inline
      emit s n (.augment target op e)
  | .dup => compute s i (← operandAs s i .inline)
  | .eval code _ =>
    let es ← operandsAs s n .settled i.inputs
    emit s n (.raw (fillPlaceholders (cutPlaceholders code.toList) es))
  | .beginIf inverted =>
    let condition ← operandAs s i .inline
    enter s n (if inverted then .ifFalse condition else .ifTrue condition)
  | .beginElse =>
    exit s n
    enter s n .otherwise
  | .beginWhileLoop op =>
    let (l, r) ← pair s i .settled .settled
    enter s n (.whileLoop op l r)
  | .beginForLoop =>
    let range ← operandsAs s n .inline i.inputs
    let counters ← bindNames s i.innerOutputs
    enter s n (.forLoop (counters.headD (s.nameOf default)) range)
  | .loopBreak => emit s n .breakLoop
  | .loopContinue => emit s n .continueLoop
  | .beginTry => enter s n .tryBlock
  | .beginCatch =>
    exit s n
    let errors ← bindNames s i.innerOutputs
    enter s n (.exceptBlock (errors.headD (s.nameOf default)))
  | .beginFinally =>
    exit s n
    enter s n .finallyBlock
  | .throwException => emit s n (.raise (← operandAs s i .inline))
  | .beginSwitch =>
    let subject ← operandAs s i .inline
    modify fun l => { l with switches := false :: l.switches }
    enter s n (.matching subject)
  | .beginSwitchCase =>
    let value ← operandAs s i .inline
    markCase
    enter s n (.caseEqual (.capture n) value)
  | .beginSwitchDefaultCase =>
    markCase
    enter s n .caseAny
  | .endSwitch =>
    -- A match without a case is no statement.
    if (← leaveSwitch) = some false then
      enter s n .caseAny
      exit s n
    exit s n
  | .beginClassDefinition _ =>
    let bases ← operandsAs s n .inline i.inputs
    let names ← bindNames s i.outputs
    enter s n (.classBody (names.headD (s.nameOf default)) bases.head?)
  | .beginClassMethod name _ =>
    let parameters ← bindNames s i.innerOutputs
    let name := if isIdentifier name then name else "m" ++ toString n
    enter s n (.method name parameters)
    declareOuter s i
  | .endPlainFunction | .endIf | .endWhileLoop | .endForLoop | .endTryCatchFinally
  | .endSwitchCase | .endClassMethod | .endClassDefinition => exit s n
  | .print => emit s n (.report (← operandAs s i .inline))

/-- Writes the lines of a comment. -/
def comment (text : String) : Render Unit :=
  modify fun l => { l with layout := l.layout.comment text }

/-- Renders a program: its comments, if they are wanted, and its instructions. -/
def program (s : Subject) (annotations : Annotations) (comments : Comments) : Render Unit := do
  let note (text : Option String) : Render Unit :=
    match annotations.comments, text with
    | true, some text => comment text
    | _, _ => return ()
  note comments.header
  s.code.forM fun i => do
    note (comments.get? i.index)
    instruction s i
  drain s ((s.code.getLast?.map (·.index)).getD 0)
  note comments.footer

end Render

end Python

open Python

/-- The lines of a program's source. -/
def Program.layout (p : Program) (annotations : Annotations) : Layout :=
  let start : Lifting := { declarations := p.code.outerAssignments }
  ((Render.program (.ofCode p.code) annotations p.comments).run start).2.layout

/-- How programs are rendered. -/
structure Rendering where
  annotations : Annotations := {}
  /-- Source before every program. -/
  opening : String := ""
  /-- Source after every program. -/
  closing : String := ""

namespace Rendering

/-- A section that ends in a line break unless it is empty. -/
def terminated (s : String) : String :=
  if s.isEmpty || s.endsWith "\n" then s else s ++ "\n"

def source (r : Rendering) (p : Program) : String :=
  terminated r.opening ++ (p.layout r.annotations).text r.annotations ++ terminated r.closing

end Rendering

def Program.source (p : Program) : String := ({} : Rendering).source p

end ScriptFuzz
