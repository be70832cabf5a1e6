import ScriptFuzz.Python.Expression
import ScriptFuzz.Text.Lines

/-!
# Source lines

The source is a list of lines: statements, headers of blocks, comments, and a `pass` in a block that
would hold no statement. A line knows its nesting depth and, if it renders an instruction, the
position that was being rendered when it was written. `Layout` grows the list and keeps track of the
open blocks.
-/

namespace ScriptFuzz.Python

set_option autoImplicit false

/-- A piece of raw code. -/
inductive Piece where
  | text (s : String)
  | argument (e : Expr)

/-- A statement of one line. -/
inductive Statement where
  | pass
  | expression (e : Expr)
  /-- Gives a name its value. -/
  | bind (target : Name) (e : Expr)
  /-- Gives a variable a new value. -/
  | assign (target : Expr) (e : Expr)
  | augment (target : Expr) (op : BinaryOperator) (e : Expr)
  | setAttribute (object : Expr) (name : String) (e : Expr)
  | setElement (object : Expr) (index : Int64) (e : Expr)
  | ret (e : Expr)
  | raise (e : Expr)
  | breakLoop
  | continueLoop
  | raw (pieces : List Piece)
  /-- Hands a value to the hook to be shown. -/
  | report (e : Expr)
  | globals (names : List Name)
  | nonlocals (names : List Name)

/-- The first line of a block. -/
inductive Header where
  | function (name : Name) (parameters : List Name)
  | method (name : String) (parameters : List Name)
  | ifTrue (condition : Expr)
  | ifFalse (condition : Expr)
  | otherwise
  | whileLoop (comparator : Comparator) (left right : Expr)
  | forLoop (counter : Name) (range : List Expr)
  | tryBlock
  | exceptBlock (error : Name)
  | finallyBlock
  | matching (subject : Expr)
  | caseEqual (capture : Name) (value : Expr)
  | caseAny
  | classBody (name : Name) (base : Option Expr)

/-- Names with commas between them. -/
def nameList (names : List Name) : String := ", ".intercalate (names.map Name.text)

/-- The object through which the source talks to the fuzzer. -/
def hookName : String := "Mirror"

namespace Statement

def text : Statement → String
  | pass => "pass"
  | expression e => e.text
  | bind target e => target.text ++ " = " ++ e.text
  | assign target e => target.text ++ " = " ++ e.text
  | augment target op e => target.text ++ " " ++ op.token ++ "= " ++ e.text
  | setAttribute object name e =>
    if isIdentifier name then object.text ++ "." ++ name ++ " = " ++ e.text
    else "setattr(" ++ object.text ++ ", " ++ quote name ++ ", " ++ e.text ++ ")"
  | setElement object i e => object.text ++ "[" ++ toString i.toInt ++ "] = " ++ e.text
  | ret e => "return " ++ e.text
  | raise e => "raise " ++ e.text
  | breakLoop => "break"
  | continueLoop => "continue"
  | raw pieces =>
    String.join (pieces.map fun
      | .text s => s
      | .argument e => e.operandText .primary)
  | report e => hookName ++ ".print(" ++ e.text ++ ")"
  | globals names => "global " ++ nameList names
  | nonlocals names => "nonlocal " ++ nameList names

end Statement

namespace Header

def text : Header → String
  | function name ps => "def " ++ name.text ++ "(" ++ nameList ps ++ "):"
  | method name ps => "def " ++ name ++ "(" ++ nameList ps ++ "):"
  | ifTrue c => "if " ++ c.text ++ ":"
  | ifFalse c => "if not " ++ c.operandText .not ++ ":"
  | otherwise => "else:"
  | whileLoop op l r =>
    "while " ++ l.operandTextAbove .comparison ++ " " ++ op.token ++ " " ++
      r.operandTextAbove .comparison ++ ":"
  | forLoop counter range => "for " ++ counter.text ++ " in range(" ++ Expr.textList range ++ "):"
  | tryBlock => "try:"
  | exceptBlock error => "except BaseException as " ++ error.text ++ ":"
  | finallyBlock => "finally:"
  | matching subject => "match " ++ subject.operandTextAbove .ternary ++ ":"
  | caseEqual capture value =>
    "case " ++ capture.text ++ " if " ++ capture.text ++ " == " ++
      value.operandTextAbove .comparison ++ ":"
  | caseAny => "case _:"
  | classBody name base =>
    match base with
    | some e => "class " ++ name.text ++ "(" ++ e.text ++ "):"
    | none => "class " ++ name.text ++ ":"

end Header

/-- What a line holds. -/
inductive Content where
  /-- A statement, with the position of the instruction that is rendered. -/
  | statement (s : Statement) (origin : Nat)
  /-- A header, with the position of the instruction that is rendered. -/
  | header (h : Header) (origin : Nat)
  | comment (text : String)
  /-- The `pass` of a block without statements. -/
  | filler

/-- A line of the source. -/
structure Line where
  depth : Nat
  content : Content

/-- What may be added to the lines of a program. -/
structure Annotations where
  /-- Whether the program's comments are written. -/
  comments : Bool := false
  /-- Whether each line tells the position of its instruction. -/
  positions : Bool := false

namespace Line

/-- The position at the end of an annotated line. -/
def suffix (annotations : Annotations) (origin : Nat) : String :=
  if annotations.positions then "  # " ++ toString origin else ""

def body (annotations : Annotations) : Content → String
  | .statement s origin => s.text ++ suffix annotations origin
  | .header h origin => h.text ++ suffix annotations origin
  | .comment text => "# " ++ text
  | .filler => "pass"

/-- The line with its indentation of four blanks a level, and its ending. -/
def text (annotations : Annotations) (l : Line) : String :=
  "".pushn ' ' (4 * l.depth) ++ body annotations l.content ++ "\n"

end Line

/-- The lines written so far and the blocks that are open. -/
structure Layout where
  lines : Array Line := #[]
  /-- For each open block, innermost first, whether it holds a statement. -/
  filled : List Bool := []

namespace Layout

def depth (l : Layout) : Nat := l.filled.length

/-- Adds a line that does not count as a statement. -/
def push (l : Layout) (content : Content) : Layout :=
  { l with lines := l.lines.push ⟨l.depth, content⟩ }

/-- Marks the innermost block as holding a statement. -/
def fill (l : Layout) : Layout :=
  match l.filled with
  | [] => l
  | _ :: fs => { l with filled := true :: fs }

def comment (l : Layout) (text : String) : Layout :=
  (Text.lines text.toList).foldl (fun l cs => l.push (.comment (String.ofList cs))) l

def statement (l : Layout) (s : Statement) (origin : Nat) : Layout :=
  (l.push (.statement s origin)).fill

def enter (l : Layout) (h : Header) (origin : Nat) : Layout :=
  let l := (l.push (.header h origin)).fill
  { l with filled := false :: l.filled }

/-- Ends the innermost block. -/
def exit (l : Layout) : Layout :=
  match l.filled with
  | [] => l
  | true :: fs => { l with filled := fs }
  | false :: fs => { l.push .filler with filled := fs }

def text (l : Layout) (annotations : Annotations) : String :=
  String.join (l.lines.toList.map (Line.text annotations))

end Layout

end ScriptFuzz.Python
