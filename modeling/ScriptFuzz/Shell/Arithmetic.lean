/-!
# Arithmetic of shell scripts

Expressions over whole numbers of 64 bits with variables, and their values. Evaluation has effects:
an expression may assign to variables, and of two operands that a truth value connects the second is
evaluated only if the first leaves the value open.
-/

namespace ScriptFuzz.Shell.Arithmetic

set_option autoImplicit false

/-- Why an expression has no value. -/
inductive Problem where
  | noOperand
  | noEnd
  | noParenthesis
  | noColon
  | zeroDivisor
  | notNumber (value : List Char)
deriving DecidableEq

def Problem.text : Problem → String
  | noOperand => "expecting primary"
  | noEnd => "expecting EOF"
  | noParenthesis => "expecting ')'"
  | noColon => "expecting ':'"
  | zeroDivisor => "division by zero"
  | notNumber value => "Illegal number: " ++ String.ofList value

inductive Lexeme where
  | number (n : Int)
  | name (cs : List Char)
  | operator (text : String)
deriving DecidableEq

inductive Expression where
  | number (n : Int)
  | named (name : List Char)
  | unary (operator : String) (operand : Expression)
  | binary (operator : String) (left right : Expression)
  | conditional (condition yes no : Expression)
  /-- Assigns the value, combined with the old one if there is an operator. -/
  | assign (name : List Char) (operator : Option String) (value : Expression)

/-- The number of 64 bits that is congruent to `n`. -/
def wrap (n : Int) : Int := n.bmod 0x10000000000000000

/-- The value of a digit in the bases up to sixteen. -/
def digit (c : Char) : Nat :=
  if c.isDigit then c.toNat - 48
  else if 'a' ≤ c ∧ c ≤ 'f' then c.toNat - 87
  else if 'A' ≤ c ∧ c ≤ 'F' then c.toNat - 55
  else 99

def digits? (base : Nat) (cs : List Char) : Option Nat :=
  if cs = [] ∨ cs.any (fun c => base ≤ digit c) then none
  else some (cs.foldl (fun n c => n * base + digit c) 0)

/-- A number without a sign; a leading zero announces base eight or sixteen. -/
def number? (cs : List Char) : Option Nat :=
  match cs with
  | '0' :: 'x' :: ds | '0' :: 'X' :: ds => digits? 16 ds
  | '0' :: d :: ds => digits? 8 (d :: ds)
  | ds => digits? 10 ds

/-- The number that a variable holds; nothing counts as zero. -/
def valueOf (cs : List Char) : Except Problem Int :=
  let cs' := cs.filter (· ≠ ' ')
  let read : Option Int :=
    match cs' with
    | [] => some 0
    | '-' :: ds => (number? ds).map fun n => -(n : Int)
    | '+' :: ds => (number? ds).map Int.ofNat
    | ds => (number? ds).map Int.ofNat
  match read with
  | some n => .ok n
  | none => .error (.notNumber cs)

/-- The operators, longer ones first. -/
def operators : List String :=
  ["<<=", ">>=", "<<", ">>", "<=", ">=", "==", "!=", "&&", "||", "*=", "/=", "%=", "+=", "-=", "&=",
    "^=", "|=", "*", "/", "%", "+", "-", "<", ">", "&", "^", "|", "=", "!", "~", "?", ":", "(", ")"]

def lexemes : Nat → List Char → Except Problem (List Lexeme)
  | 0, _ | _, [] => .ok []
  | fuel + 1, c :: cs =>
    if c = ' ' ∨ c = '\t' ∨ c = '\n' then lexemes fuel cs
    else if c.isDigit then do
      let word := (c :: cs).takeWhile fun c => c.isAlphanum
      let rest ← lexemes fuel ((c :: cs).drop word.length)
      match number? word with
      | some n => return .number n :: rest
      | none => .error .noEnd
    else if c.isAlpha ∨ c = '_' then do
      let word := (c :: cs).takeWhile fun c => c.isAlphanum || c = '_'
      return .name word :: (← lexemes fuel ((c :: cs).drop word.length))
    else
      match operators.find? fun o => o.toList.isPrefixOf (c :: cs) with
      | some o => return .operator o :: (← lexemes fuel ((c :: cs).drop o.length))
      | none => .error .noOperand

/-- The operators that take two operands, from those that bind loosest. -/
def levels : List (List String) :=
  [["||"], ["&&"], ["|"], ["^"], ["&"], ["==", "!="], ["<", "<=", ">", ">="], ["<<", ">>"],
    ["+", "-"], ["*", "/", "%"]]

/-- The operator that an assignment combines the old and the new value with. -/
def assignment? (o : String) : Option (Option String) :=
  if o = "=" then some none
  else
    (["<<", ">>", "*", "/", "%", "+", "-", "&", "^", "|"].find? fun b => o = b ++ "=").map some

mutual

def expression : Nat → List Lexeme → Except Problem (Expression × List Lexeme)
  | 0, _ => .error .noOperand
  | fuel + 1, ls =>
    match ls with
    | .name n :: .operator o :: rest =>
      match assignment? o with
      | some combined => do
        let (e, rest) ← expression fuel rest
        return (.assign n combined e, rest)
      | none => conditional fuel ls
    | _ => conditional fuel ls

def conditional : Nat → List Lexeme → Except Problem (Expression × List Lexeme)
  | 0, _ => .error .noOperand
  | fuel + 1, ls => do
    let (c, rest) ← level fuel levels ls
    match rest with
    | .operator "?" :: rest =>
      let (yes, rest) ← expression fuel rest
      match rest with
      | .operator ":" :: rest =>
        let (no, rest) ← conditional fuel rest
        return (.conditional c yes no, rest)
      | _ => .error .noColon
    | _ => return (c, rest)

def level : Nat → List (List String) → List Lexeme → Except Problem (Expression × List Lexeme)
  | 0, _, _ => .error .noOperand
  | fuel + 1, [], ls => operand fuel ls
  | fuel + 1, os :: tighter, ls => do
    let (e, rest) ← level fuel tighter ls
    further fuel os tighter e rest

/-- The operands of a level after those that have been read. -/
def further : Nat → List String → List (List String) → Expression → List Lexeme →
    Except Problem (Expression × List Lexeme)
  | 0, _, _, e, ls => .ok (e, ls)
  | fuel + 1, os, tighter, e, ls =>
    match ls with
    | .operator o :: rest =>
      if os.contains o then do
        let (r, rest) ← level fuel tighter rest
        further fuel os tighter (.binary o e r) rest
      else .ok (e, ls)
    | _ => .ok (e, ls)

def operand : Nat → List Lexeme → Except Problem (Expression × List Lexeme)
  | 0, _ => .error .noOperand
  | fuel + 1, ls =>
    match ls with
    | .number n :: rest => .ok (.number n, rest)
    | .name n :: rest => .ok (.named n, rest)
    | .operator "(" :: rest => do
      let (e, rest) ← expression fuel rest
      match rest with
      | .operator ")" :: rest => return (e, rest)
      | _ => .error .noParenthesis
    | .operator o :: rest =>
      if ["+", "-", "!", "~"].contains o then do
        let (e, rest) ← operand fuel rest
        return (.unary o e, rest)
      else .error .noOperand
    | [] => .error .noOperand

end

/-- The expression that a text denotes; a text of blanks denotes zero. -/
def read (cs : List Char) : Except Problem Expression := do
  let ls ← lexemes (cs.length + 1) cs
  if ls.isEmpty then return .number 0
  match ← expression (16 * ls.length + 16) ls with
  | (e, []) => return e
  | _ => .error .noEnd

/-- The number for a truth value. -/
def truth (b : Bool) : Int := if b then 1 else 0

/-- The value of an operator on two numbers. -/
def apply (o : String) (a b : Int) : Except Problem Int :=
  match o with
  | "*" => .ok (wrap (a * b))
  | "/" => if b = 0 then .error .zeroDivisor else .ok (wrap (a.tdiv b))
  | "%" => if b = 0 then .error .zeroDivisor else .ok (a.tmod b)
  | "+" => .ok (wrap (a + b))
  | "-" => .ok (wrap (a - b))
  | "<<" => .ok (wrap (a * ((1 <<< (b % 64).toNat : Nat) : Int)))
  | ">>" => .ok (a / ((1 <<< (b % 64).toNat : Nat) : Int))
  | "<" => .ok (truth (a < b))
  | "<=" => .ok (truth (a ≤ b))
  | ">" => .ok (truth (b < a))
  | ">=" => .ok (truth (b ≤ a))
  | "==" => .ok (truth (a = b))
  | "!=" => .ok (truth (a ≠ b))
  | "&" => .ok (BitVec.ofInt 64 a &&& BitVec.ofInt 64 b).toInt
  | "^" => .ok (BitVec.ofInt 64 a ^^^ BitVec.ofInt 64 b).toInt
  | _ => .ok (BitVec.ofInt 64 a ||| BitVec.ofInt 64 b).toInt

/-- What an evaluation assigned, the latest first. -/
abbrev Evaluation := StateT (List (List Char × Int)) (Except Problem)

/-- The value of a variable that holds a text unless a number was assigned to it. -/
def variableValue (lookup : List Char → List Char) (n : List Char) : Evaluation Int := do
  match (← get).lookup n with
  | some v => return v
  | none => return wrap (← valueOf (lookup n))

/-- The value of an expression, given the texts that variables hold. -/
def Expression.value (lookup : List Char → List Char) : Expression → Evaluation Int
  | number n => return wrap n
  | named n => variableValue lookup n
  | unary o e => do
    let v ← e.value lookup
    return match o with
      | "-" => wrap (-v)
      | "!" => truth (v = 0)
      | "~" => -v - 1
      | _ => v
  | binary o l r => do
    let a ← l.value lookup
    if o = "&&" ∧ a = 0 then return 0
    if o = "||" ∧ a ≠ 0 then return 1
    let b ← r.value lookup
    if o = "&&" ∨ o = "||" then return truth (b ≠ 0)
    apply o a b
  | conditional c yes no => do
    if (← c.value lookup) ≠ 0 then yes.value lookup else no.value lookup
  | assign n o e => do
    let v ← e.value lookup
    let v ←
      match o with
      | none => pure v
      | some o => do
        let old ← variableValue lookup n
        apply o old v
    modify ((n, v) :: ·)
    return v

end ScriptFuzz.Shell.Arithmetic
