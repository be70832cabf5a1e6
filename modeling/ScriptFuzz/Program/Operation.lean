import ScriptFuzz.Number.Notation
import ScriptFuzz.Program.Context
import ScriptFuzz.Program.Operator

/-!
# Operations

The closed catalog of operations. An operation carries only its own parameters; how many variables
it takes and declares, and where it may stand, follow from it by `Operation.shape`.
-/

namespace ScriptFuzz

set_option autoImplicit false

open ScriptFuzz.Number

/-- An operation with its parameters. -/
inductive Operation where
  | nop
  | loadInteger (value : Int64)
  | loadBigInt (value : Int64)
  | loadFloat (value : Binary64)
  | loadString (value : String)
  | loadBoolean (value : Bool)
  | loadUndefined
  | loadNull
  | loadRegExp (pattern : String)
  | createArray (size : Nat)
  | loadBuiltin (name : String)
  | getProperty (name : String)
  | setProperty (name : String)
  | getElement (index : Int64)
  | setElement (index : Int64)
  | beginPlainFunction (parameters : Nat)
  | endPlainFunction
  /-- Leaves the enclosing function or method with a value. -/
  | ret
  | callFunction (arguments : Nat)
  | construct (arguments : Nat)
  | callMethod (name : String) (arguments : Nat)
  | unaryOperation (op : UnaryOperator)
  | binaryOperation (op : BinaryOperator)
  | ternaryOperation
  | compare (op : Comparator)
  | reassign
  | update (op : BinaryOperator)
  | dup
  /-- Raw code whose placeholders `%@` stand for the inputs. -/
  | eval (code : String) (arguments : Nat)
  | beginIf (inverted : Bool)
  | beginElse
  | endIf
  | beginWhileLoop (comparator : Comparator)
  | endWhileLoop
  /-- The inputs are start, end and step; the inner output is the counter. -/
  | beginForLoop
  | endForLoop
  | loopBreak
  | loopContinue
  | beginTry
  | beginCatch
  | beginFinally
  | endTryCatchFinally
  | throwException
  | beginSwitch
  | beginSwitchCase
  | beginSwitchDefaultCase
  | endSwitchCase
  | endSwitch
  | beginClassDefinition (hasSuperclass : Bool)
  /-- The inner outputs are the receiver and the parameters. -/
  | beginClassMethod (name : String) (parameters : Nat)
  | endClassMethod
  | endClassDefinition
  /-- Reports a value to the fuzzer; never part of a stored program. -/
  | print
deriving DecidableEq, Inhabited

/-- A property of an operation. -/
inductive Attribute where
  /-- No observable effect: the operation may be repeated or moved. -/
  | pure
  /-- There are parameters that a mutation may change. -/
  | mutable
  | blockStart
  | blockEnd
  /-- Unconditional transfer of control. -/
  | jump
  | call
  | loop
  /-- The last inputs form a group of any length. -/
  | variadic
  /-- Used by the fuzzer itself. -/
  | internal
deriving DecidableEq, Repr

/-- Every attribute, in declaration order. -/
def Attribute.all : List Attribute :=
  [pure, mutable, blockStart, blockEnd, jump, call, loop, variadic, internal]

def Attribute.name : Attribute → String
  | pure => "PURE"
  | mutable => "MUTABLE"
  | blockStart => "BLOCK_START"
  | blockEnd => "BLOCK_END"
  | jump => "JUMP"
  | call => "CALL"
  | loop => "LOOP"
  | variadic => "VARIADIC"
  | internal => "INTERNAL"

/-- How an operation stands in a program. -/
structure Shape where
  inputs : Nat := 0
  outputs : Nat := 0
  /-- Variables that belong to the body that the operation opens. -/
  innerOutputs : Nat := 0
  /-- The first input of the group of any length. -/
  variadicFrom : Option Nat := none
  attributes : List Attribute := []
  /-- The context in which the operation may stand. -/
  requires : Context := .top
  /-- What the operation opens for its body. -/
  opens : Context := .empty
  mode : ContextMode := .propagate
deriving DecidableEq

namespace Shape

/-- The number of variables of an instruction of this shape. -/
def size (s : Shape) : Nat := s.inputs + s.outputs + s.innerOutputs

def has (s : Shape) (a : Attribute) : Bool := s.attributes.contains a

end Shape

namespace Operation

/-- The shape of an end of a block; it may stand in every context unless one is given. -/
private def blockEnd (requires : Context := .empty) : Shape :=
  { attributes := [.blockEnd], requires }

/-- The shape of an instruction that ends one block of a group and starts the next. -/
private def blockMiddle (inner : Nat := 0) : Shape :=
  { innerOutputs := inner, attributes := [.blockEnd, .blockStart], requires := .empty }

/-- The shape of a value that is loaded without an effect. -/
private def value (attributes : List Attribute) : Shape := { outputs := 1, attributes }

def shape : Operation → Shape
  | nop => {}
  | loadInteger _ | loadBigInt _ | loadFloat _ | loadString _ | loadBoolean _ | loadRegExp _ =>
    value [.pure, .mutable]
  | loadUndefined | loadNull => value [.pure]
  | createArray n =>
    { inputs := n, outputs := 1, variadicFrom := some 0, attributes := [.variadic] }
  | loadBuiltin _ => value [.mutable]
  | getProperty _ | getElement _ => { inputs := 1, outputs := 1, attributes := [.mutable] }
  | setProperty _ | setElement _ => { inputs := 2, attributes := [.mutable] }
  | beginPlainFunction n =>
    { outputs := 1, innerOutputs := n, attributes := [.blockStart]
      opens := .ofList [.script, .subroutine], mode := .isolate }
  | endPlainFunction => blockEnd
  | ret =>
    { inputs := 1, attributes := [.jump], requires := .ofList [.script, .subroutine] }
  | callFunction n | construct n =>
    { inputs := n + 1, outputs := 1, variadicFrom := some 1, attributes := [.variadic, .call] }
  | callMethod _ n =>
    { inputs := n + 1, outputs := 1, variadicFrom := some 1
      attributes := [.mutable, .variadic, .call] }
  | unaryOperation _ => { inputs := 1, outputs := 1, attributes := [.mutable] }
  | binaryOperation _ | compare _ => { inputs := 2, outputs := 1, attributes := [.mutable] }
  | ternaryOperation => { inputs := 3, outputs := 1 }
  | reassign => { inputs := 2 }
  | update _ => { inputs := 2, attributes := [.mutable] }
  | dup => { inputs := 1, outputs := 1 }
  | eval _ n => { inputs := n }
  | beginIf _ => { inputs := 1, attributes := [.blockStart, .mutable] }
  | beginElse => blockMiddle
  | endIf => blockEnd
  | beginWhileLoop _ =>
    { inputs := 2, attributes := [.blockStart, .loop, .mutable], opens := .ofList [.loop] }
  | endWhileLoop | endForLoop => { attributes := [.blockEnd, .loop], requires := .empty }
  | beginForLoop =>
    { inputs := 3, innerOutputs := 1, attributes := [.blockStart, .loop], opens := .ofList [.loop] }
  | loopBreak | loopContinue => { attributes := [.jump], requires := .ofList [.script, .loop] }
  | beginTry => { attributes := [.blockStart] }
  | beginCatch => blockMiddle 1
  | beginFinally => blockMiddle
  | endTryCatchFinally => blockEnd
  | throwException => { inputs := 1, attributes := [.jump] }
  | beginSwitch =>
    { inputs := 1, attributes := [.blockStart], opens := .ofList [.switchBlock], mode := .isolate }
  | beginSwitchCase =>
    { inputs := 1, attributes := [.blockStart], requires := .ofList [.switchBlock]
      opens := .ofList [.switchCase], mode := .resume }
  | beginSwitchDefaultCase =>
    { attributes := [.blockStart], requires := .ofList [.switchBlock]
      opens := .ofList [.switchCase], mode := .resume }
  | endSwitchCase => blockEnd
  | endSwitch => blockEnd (.ofList [.switchBlock])
  | beginClassDefinition hasSuperclass =>
    { inputs := if hasSuperclass then 1 else 0, outputs := 1, attributes := [.blockStart]
      opens := .ofList [.classDefinition], mode := .isolate }
  | beginClassMethod _ n =>
    { innerOutputs := n + 1, attributes := [.blockStart, .mutable]
      requires := .ofList [.classDefinition]
      opens := .ofList [.script, .subroutine, .method], mode := .isolate }
  | endClassMethod => blockEnd
  | endClassDefinition => blockEnd (.ofList [.classDefinition])
  | print => { inputs := 1, attributes := [.internal] }

/-- The bound below which counts of variables lie. -/
def countLimit : Nat := 0x10000000000000000

/-- Whether the arity of the operation and the number of its variables are counts at all. -/
def isCountable (op : Operation) : Bool := op.shape.size < countLimit

def name : Operation → String
  | nop => "Nop"
  | loadInteger _ => "LoadInteger"
  | loadBigInt _ => "LoadBigInt"
  | loadFloat _ => "LoadFloat"
  | loadString _ => "LoadString"
  | loadBoolean _ => "LoadBoolean"
  | loadUndefined => "LoadUndefined"
  | loadNull => "LoadNull"
  | loadRegExp _ => "LoadRegExp"
  | createArray _ => "CreateArray"
  | loadBuiltin _ => "LoadBuiltin"
  | getProperty _ => "GetProperty"
  | setProperty _ => "SetProperty"
  | getElement _ => "GetElement"
  | setElement _ => "SetElement"
  | beginPlainFunction _ => "BeginPlainFunction"
  | endPlainFunction => "EndPlainFunction"
  | ret => "Return"
  | callFunction _ => "CallFunction"
  | construct _ => "Construct"
  | callMethod _ _ => "CallMethod"
  | unaryOperation _ => "UnaryOperation"
  | binaryOperation _ => "BinaryOperation"
  | ternaryOperation => "TernaryOperation"
  | compare _ => "Compare"
  | reassign => "Reassign"
  | update _ => "Update"
  | dup => "Dup"
  | eval _ _ => "Eval"
  | beginIf _ => "BeginIf"
  | beginElse => "BeginElse"
  | endIf => "EndIf"
  | beginWhileLoop _ => "BeginWhileLoop"
  | endWhileLoop => "EndWhileLoop"
  | beginForLoop => "BeginForLoop"
  | endForLoop => "EndForLoop"
  | loopBreak => "LoopBreak"
  | loopContinue => "LoopContinue"
  | beginTry => "BeginTry"
  | beginCatch => "BeginCatch"
  | beginFinally => "BeginFinally"
  | endTryCatchFinally => "EndTryCatchFinally"
  | throwException => "ThrowException"
  | beginSwitch => "BeginSwitch"
  | beginSwitchCase => "BeginSwitchCase"
  | beginSwitchDefaultCase => "BeginSwitchDefaultCase"
  | endSwitchCase => "EndSwitchCase"
  | endSwitch => "EndSwitch"
  | beginClassDefinition _ => "BeginClassDefinition"
  | beginClassMethod _ _ => "BeginClassMethod"
  | endClassMethod => "EndClassMethod"
  | endClassDefinition => "EndClassDefinition"
  | print => "Print"

def parameter? : Operation → Option String
  | loadInteger v | loadBigInt v => some (toString v.toInt)
  | loadFloat v => some (Layout.plain.text v)
  | loadString v => some v
  | loadBoolean v => some (if v then "true" else "false")
  | loadRegExp p => some p
  | loadBuiltin n | getProperty n | setProperty n | callMethod n _ | beginClassMethod n _ => some n
  | getElement i | setElement i => some (toString i.toInt)
  | unaryOperation op => some op.symbol
  | binaryOperation op | update op => some op.token
  | compare c | beginWhileLoop c => some c.token
  | eval code _ => some code
  | _ => none

/-- The operation with its parameter, for people to read. -/
def text (op : Operation) : String :=
  match op, op.parameter? with
  | beginIf true, _ => op.name ++ " (inverted)"
  | _, some p => op.name ++ " '" ++ p ++ "'"
  | _, none => op.name

/-- Whether this end of a block may close a block that `opener` opened. -/
def closes : Operation → Operation → Bool
  | endPlainFunction, beginPlainFunction _ => true
  | beginElse, beginIf _ => true
  | endIf, beginIf _ => true
  | endIf, beginElse => true
  | endWhileLoop, beginWhileLoop _ => true
  | endForLoop, beginForLoop => true
  | beginCatch, beginTry => true
  | beginFinally, beginTry => true
  | beginFinally, beginCatch => true
  | endTryCatchFinally, beginCatch => true
  | endTryCatchFinally, beginFinally => true
  | endSwitchCase, beginSwitchCase => true
  | endSwitchCase, beginSwitchDefaultCase => true
  | endSwitch, beginSwitch => true
  | endClassMethod, beginClassMethod _ _ => true
  | endClassDefinition, beginClassDefinition _ => true
  | _, _ => false

def isTryStart : Operation → Bool
  | beginTry => true
  | _ => false

/-- Whether the operation changes the value of its first input. -/
def assigns : Operation → Bool
  | reassign | update _ => true
  | _ => false

end Operation

end ScriptFuzz
