/-!
# Operators

The unary, binary and comparison operators of the target language, with their tokens.
-/

namespace ScriptFuzz

set_option autoImplicit false

inductive UnaryOperator where
  | plus
  | minus
  | bitwiseNot
  | logicalNot
deriving DecidableEq, Repr

namespace UnaryOperator

/-- Every operator, in declaration order. -/
def all : List UnaryOperator := [plus, minus, bitwiseNot, logicalNot]

def name : UnaryOperator → String
  | plus => "Plus"
  | minus => "Minus"
  | bitwiseNot => "BitwiseNot"
  | logicalNot => "LogicalNot"

/-- The token as it stands before its operand. -/
def token : UnaryOperator → String
  | plus => "+"
  | minus => "-"
  | bitwiseNot => "~"
  | logicalNot => "not "

/-- The token without the blank that separates a word from its operand. -/
def symbol : UnaryOperator → String
  | logicalNot => "not"
  | op => op.token

end UnaryOperator

inductive BinaryOperator where
  | add
  | sub
  | mul
  | div
  | floorDiv
  | mod
  | pow
  | bitAnd
  | bitOr
  | xor
  | lShift
  | rShift
  | logicalAnd
  | logicalOr
deriving DecidableEq, Repr

namespace BinaryOperator

/-- Every operator, in declaration order. -/
def all : List BinaryOperator :=
  [add, sub, mul, div, floorDiv, mod, pow, bitAnd, bitOr, xor, lShift, rShift, logicalAnd,
    logicalOr]

def name : BinaryOperator → String
  | add => "Add"
  | sub => "Sub"
  | mul => "Mul"
  | div => "Div"
  | floorDiv => "FloorDiv"
  | mod => "Mod"
  | pow => "Pow"
  | bitAnd => "BitAnd"
  | bitOr => "BitOr"
  | xor => "Xor"
  | lShift => "LShift"
  | rShift => "RShift"
  | logicalAnd => "LogicalAnd"
  | logicalOr => "LogicalOr"

def token : BinaryOperator → String
  | add => "+"
  | sub => "-"
  | mul => "*"
  | div => "/"
  | floorDiv => "//"
  | mod => "%"
  | pow => "**"
  | bitAnd => "&"
  | bitOr => "|"
  | xor => "^"
  | lShift => "<<"
  | rShift => ">>"
  | logicalAnd => "and"
  | logicalOr => "or"

/-- The logical operators evaluate their right operand conditionally and have no augmented
assignment. -/
def isLogical : BinaryOperator → Bool
  | logicalAnd | logicalOr => true
  | _ => false

end BinaryOperator

inductive Comparator where
  | equal
  | notEqual
  | lessThan
  | lessThanOrEqual
  | greaterThan
  | greaterThanOrEqual
  | is
  | isNot
deriving DecidableEq, Repr

namespace Comparator

/-- Every comparator, in declaration order. -/
def all : List Comparator :=
  [equal, notEqual, lessThan, lessThanOrEqual, greaterThan, greaterThanOrEqual, is, isNot]

def name : Comparator → String
  | equal => "Equal"
  | notEqual => "NotEqual"
  | lessThan => "LessThan"
  | lessThanOrEqual => "LessThanOrEqual"
  | greaterThan => "GreaterThan"
  | greaterThanOrEqual => "GreaterThanOrEqual"
  | is => "Is"
  | isNot => "IsNot"

def token : Comparator → String
  | equal => "=="
  | notEqual => "!="
  | lessThan => "<"
  | lessThanOrEqual => "<="
  | greaterThan => ">"
  | greaterThanOrEqual => ">="
  | is => "is"
  | isNot => "is not"

end Comparator

end ScriptFuzz
