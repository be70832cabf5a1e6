import ScriptFuzz.Program.Instruction
import ScriptFuzz.Python.Quoted

/-!
# Expressions of the target language

Expressions are trees. `Expr.text` writes a tree with parentheses only where an operand binds more
loosely than its position demands. A tree remembers which instruction computes which part of it;
the mark leaves no trace in the text.
-/

namespace ScriptFuzz.Python

set_option autoImplicit false

open ScriptFuzz.Number

/-- How strongly an expression holds together, weakest first. -/
inductive Precedence where
  | ternary
  | or
  | and
  | not
  | comparison
  | bitOr
  | bitXor
  | bitAnd
  | shift
  | additive
  | multiplicative
  | unary
  | power
  | primary
  | atom
deriving DecidableEq, Repr

namespace Precedence

def rank : Precedence → Nat
  | ternary => 1
  | or => 2
  | and => 3
  | not => 4
  | comparison => 5
  | bitOr => 6
  | bitXor => 7
  | bitAnd => 8
  | shift => 9
  | additive => 10
  | multiplicative => 11
  | unary => 12
  | power => 13
  | primary => 14
  | atom => 15

def ofUnary : UnaryOperator → Precedence
  | .logicalNot => not
  | _ => unary

def ofBinary : BinaryOperator → Precedence
  | .logicalOr => or
  | .logicalAnd => and
  | .bitOr => bitOr
  | .xor => bitXor
  | .bitAnd => bitAnd
  | .lShift | .rShift => shift
  | .add | .sub => additive
  | .mul | .div | .floorDiv | .mod => multiplicative
  | .pow => power

end Precedence

/-- What kind of declaration a variable has; the first letter of its name tells. -/
inductive Role where
  | value
  | function
  | classObject
  | receiver
  | parameter
  | exception
  | counter
deriving DecidableEq, Repr

def Role.letter : Role → String
  | value => "v"
  | function => "f"
  | classObject => "C"
  | receiver => "s"
  | parameter => "a"
  | exception => "e"
  | counter => "i"

/-- A name that the source introduces. -/
inductive Name where
  | variable (role : Role) (v : Variable)
  /-- A name for a value that must stand in a variable, named after the line that binds it. -/
  | temporary (line : Nat)
  /-- The name that a case binds the subject of its match to. -/
  | capture (index : Nat)
deriving DecidableEq

def Name.text : Name → String
  | .variable role v => role.letter ++ toString v.number
  | temporary line => "t" ++ toString line
  | capture index => "c" ++ toString index

/-- An expression. -/
inductive Expr where
  | name (n : Name)
  /-- A builtin, by its dotted path. -/
  | builtin (path : String)
  | int (value : Int64)
  | float (value : Binary64)
  | string (value : String)
  | bool (value : Bool)
  | none
  | list (items : List Expr)
  | attribute (object : Expr) (name : String)
  | subscript (object : Expr) (index : Int64)
  | call (callee : Expr) (arguments : List Expr)
  | unary (op : UnaryOperator) (operand : Expr)
  | binary (op : BinaryOperator) (left right : Expr)
  | compare (op : Comparator) (left right : Expr)
  | conditional (condition whenTrue whenFalse : Expr)
  /-- What the instruction at a position computes. -/
  | computed (origin : Nat) (e : Expr)

/-- The text of a float literal and how strongly it holds together. -/
def floatText (x : Binary64) : String :=
  if x.isNaN then "float('nan')"
  else if x.isInfinite then (if x.isNegative then "-float('inf')" else "float('inf')")
  else Layout.source.text x

namespace Expr

instance : Inhabited Expr := ⟨.none⟩

/-- How strongly the text of an expression holds together. -/
def precedence : Expr → Precedence
  | name _ | builtin _ | string _ | bool _ | none | list _ => .atom
  | int v => if v < 0 then .unary else .atom
  | float x =>
    if x.isNaN then .primary
    else if x.isInfinite then (if x.isNegative then .unary else .primary)
    else if x.isNegative then .unary
    else .atom
  | .attribute _ _ | subscript _ _ | call _ _ => .primary
  | unary op _ => .ofUnary op
  | binary op _ _ => .ofBinary op
  | compare _ _ _ => .comparison
  | conditional _ _ _ => .ternary
  | computed _ e => e.precedence

/-- Whether the text is a plain name or the path of a builtin. -/
def isName : Expr → Bool
  | name _ | builtin _ => true
  | computed _ e => e.isName
  | _ => false

/-- Whether the text is a numeral, which must not stand directly before a point. -/
def isNumeral : Expr → Bool
  | int _ => true
  | float x => x.isFinite
  | computed _ e => e.isNumeral
  | _ => false

/-- Whether the expression has an effect, and must be evaluated once and in program order. -/
def isEffectful : Expr → Bool
  | computed _ _ => true
  | _ => false

/-- A text in parentheses unless `holds`. -/
def parenthesize (holds : Bool) (text : String) : String :=
  if holds then text else "(" ++ text ++ ")"

/-- Whether an operand may stand where at least the strength `p` is needed. -/
def bindsAtLeast (e : Expr) (p : Precedence) : Bool := p.rank ≤ e.precedence.rank

/-- Whether an operand may stand where more than the strength `p` is needed. -/
def bindsAbove (e : Expr) (p : Precedence) : Bool := p.rank < e.precedence.rank

/-- Whether the expression may stand before a point, a subscript or a list of arguments. -/
def bindsAsSubject (e : Expr) : Bool := !e.isNumeral && e.bindsAtLeast .primary

/-- Whether the left operand of `op` needs no parentheses. -/
def bindsLeft (e : Expr) (op : BinaryOperator) : Bool :=
  if op = .pow then e.bindsAbove .power else e.bindsAtLeast (.ofBinary op)

/-- Whether the right operand of `op` needs no parentheses. -/
def bindsRight (e : Expr) (op : BinaryOperator) : Bool :=
  if op = .pow then e.bindsAtLeast .unary else e.bindsAbove (.ofBinary op)

mutual

def text : Expr → String
  | name n => n.text
  | builtin path => path
  | int v => toString v.toInt
  | float x => floatText x
  | string s => quote s
  | bool b => if b then "True" else "False"
  | none => "None"
  | list items => "[" ++ textList items ++ "]"
  | .attribute object n =>
    if isIdentifier n then parenthesize object.bindsAsSubject object.text ++ "." ++ n
    else "getattr(" ++ object.text ++ ", " ++ quote n ++ ")"
  | subscript object i =>
    parenthesize object.bindsAsSubject object.text ++ "[" ++ toString i.toInt ++ "]"
  | call callee arguments =>
    parenthesize callee.bindsAsSubject callee.text ++ "(" ++ textList arguments ++ ")"
  | unary op e => op.token ++ parenthesize (e.bindsAtLeast (.ofUnary op)) e.text
  | binary op l r =>
    parenthesize (l.bindsLeft op) l.text ++ " " ++ op.token ++ " " ++
      parenthesize (r.bindsRight op) r.text
  | compare op l r =>
    parenthesize (l.bindsAbove .comparison) l.text ++ " " ++ op.token ++ " " ++
      parenthesize (r.bindsAbove .comparison) r.text
  | conditional c t f =>
    parenthesize (t.bindsAbove .ternary) t.text ++ " if " ++
      parenthesize (c.bindsAbove .ternary) c.text ++ " else " ++
      parenthesize (f.bindsAtLeast .ternary) f.text
  | computed _ e => e.text

/-- Expressions with commas between them. -/
def textList : List Expr → String
  | [] => ""
  | [e] => e.text
  | e :: es => e.text ++ ", " ++ textList es

end

/-- The text where at least the strength `p` is needed. -/
def operandText (e : Expr) (p : Precedence) : String := parenthesize (e.bindsAtLeast p) e.text

/-- The text where more than the strength `p` is needed. -/
def operandTextAbove (e : Expr) (p : Precedence) : String := parenthesize (e.bindsAbove p) e.text

end Expr

end ScriptFuzz.Python
