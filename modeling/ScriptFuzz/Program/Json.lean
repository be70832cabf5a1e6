import ScriptFuzz.Json.Fields
import ScriptFuzz.Json.Reader
import ScriptFuzz.Json.Writer
import ScriptFuzz.Program.Load

/-!
# Programs as JSON

`Program.toJson` writes every part of a program, and `Program.ofJson` reads a text and refuses it
unless it describes a program with well-formed code. Constants that are not finite are written as
the texts `nan`, `inf` and `-inf`.
-/

namespace ScriptFuzz

set_option autoImplicit false

open ScriptFuzz.Number Json

def UnaryOperator.toJson (op : UnaryOperator) : Json := .ofText op.name

def BinaryOperator.toJson (op : BinaryOperator) : Json := .ofText op.name

def Comparator.toJson (op : Comparator) : Json := .ofText op.name

/-- The member of `all` with the name that a value writes. -/
def namedMember? {α : Type} (all : List α) (name : α → String) (j : Json) : Option α :=
  match Json.variant? j with
  | some (k, none) | some (k, some .null) => all.find? fun x => name x == k
  | _ => none

def UnaryOperator.ofJson? : Json → Option UnaryOperator :=
  namedMember? UnaryOperator.all UnaryOperator.name

def BinaryOperator.ofJson? : Json → Option BinaryOperator :=
  namedMember? BinaryOperator.all BinaryOperator.name

def Comparator.ofJson? : Json → Option Comparator :=
  namedMember? Comparator.all Comparator.name

/-- A constant as a number, or as a text if it is not finite. -/
def constantToJson (x : Binary64) : Json :=
  if x.isFinite then .ofBinary64 x
  else if x.isNaN then .ofText "nan"
  else if x.isNegative then .ofText "-inf"
  else .ofText "inf"

def constantOfJson? (j : Json) : Option Binary64 :=
  match j with
  | .number lexeme => Json.float? lexeme
  | _ =>
    match j.text? with
    | some "nan" => some .nan
    | some "inf" => some .infinity
    | some "-inf" => some .negInfinity
    | _ => none

/-- A signed number of 64 bits. -/
def int64OfJson? (j : Json) : Option Int64 :=
  (j.int? (-0x8000000000000000) 0x7fffffffffffffff).map Int64.ofInt

def countOfJson? (j : Json) : Option Nat := j.nat? Operation.countLimit

namespace Operation

/-- The parameters of the operation by name; `none` for an operation without parameters. -/
def fields : Operation → Option (List (String × Json))
  | loadInteger v | loadBigInt v => some [("value", .ofInt v.toInt)]
  | loadFloat v => some [("value", constantToJson v)]
  | loadString v => some [("value", .ofText v)]
  | loadBoolean v => some [("value", .bool v)]
  | loadRegExp p => some [("pattern", .ofText p)]
  | createArray n => some [("num_initial_values", .ofNat n)]
  | loadBuiltin n | getProperty n | setProperty n => some [("name", .ofText n)]
  | getElement i | setElement i => some [("index", .ofInt i.toInt)]
  | beginPlainFunction n => some [("num_parameters", .ofNat n)]
  | callFunction n | construct n => some [("num_arguments", .ofNat n)]
  | callMethod m n => some [("name", .ofText m), ("num_arguments", .ofNat n)]
  | unaryOperation op => some [("op", op.toJson)]
  | binaryOperation op | update op => some [("op", op.toJson)]
  | compare op => some [("op", op.toJson)]
  | eval code n => some [("code", .ofText code), ("num_arguments", .ofNat n)]
  | beginIf inverted => some [("inverted", .bool inverted)]
  | beginWhileLoop c => some [("comparator", c.toJson)]
  | beginClassDefinition b => some [("has_superclass", .bool b)]
  | beginClassMethod m n => some [("name", .ofText m), ("num_parameters", .ofNat n)]
  | _ => none

/-- The name of the operation, or an object from its name to its parameters. -/
def toJson (op : Operation) : Json :=
  match op.fields with
  | none => .ofText op.name
  | some fs => .ofFields [(op.name, .ofFields fs)]

/-- The operations without parameters. -/
def plain : List Operation :=
  [nop, loadUndefined, loadNull, endPlainFunction, ret, ternaryOperation, reassign, dup, beginElse,
    endIf, endWhileLoop, beginForLoop, endForLoop, loopBreak, loopContinue, beginTry, beginCatch,
    beginFinally, endTryCatchFinally, throwException, beginSwitch, beginSwitchCase,
    beginSwitchDefaultCase, endSwitchCase, endSwitch, endClassMethod, endClassDefinition, print]

private def one {α : Type} (make : α → Operation) (name : String) (decode : Json → Option α)
    (j : Json) : Option Operation := do
  let fs ← j.record? [name]
  return make (← decode (← field? fs name))

private def two {α β : Type} (make : α → β → Operation) (first : String)
    (decodeFirst : Json → Option α) (second : String) (decodeSecond : Json → Option β) (j : Json) :
    Option Operation := do
  let fs ← j.record? [first, second]
  return make (← decodeFirst (← field? fs first)) (← decodeSecond (← field? fs second))

def ofFields? (name : String) : Json → Option Operation :=
  match name with
  | "LoadInteger" => one loadInteger "value" int64OfJson?
  | "LoadBigInt" => one loadBigInt "value" int64OfJson?
  | "LoadFloat" => one loadFloat "value" constantOfJson?
  | "LoadString" => one loadString "value" Json.text?
  | "LoadBoolean" => one loadBoolean "value" Json.bool?
  | "LoadRegExp" => one loadRegExp "pattern" Json.text?
  | "CreateArray" => one createArray "num_initial_values" countOfJson?
  | "LoadBuiltin" => one loadBuiltin "name" Json.text?
  | "GetProperty" => one getProperty "name" Json.text?
  | "SetProperty" => one setProperty "name" Json.text?
  | "GetElement" => one getElement "index" int64OfJson?
  | "SetElement" => one setElement "index" int64OfJson?
  | "BeginPlainFunction" => one beginPlainFunction "num_parameters" countOfJson?
  | "CallFunction" => one callFunction "num_arguments" countOfJson?
  | "Construct" => one construct "num_arguments" countOfJson?
  | "CallMethod" => two callMethod "name" Json.text? "num_arguments" countOfJson?
  | "UnaryOperation" => one unaryOperation "op" UnaryOperator.ofJson?
  | "BinaryOperation" => one binaryOperation "op" BinaryOperator.ofJson?
  | "Compare" => one compare "op" Comparator.ofJson?
  | "Update" => one update "op" BinaryOperator.ofJson?
  | "Eval" => two eval "code" Json.text? "num_arguments" countOfJson?
  | "BeginIf" => one beginIf "inverted" Json.bool?
  | "BeginWhileLoop" => one beginWhileLoop "comparator" Comparator.ofJson?
  | "BeginClassDefinition" => one beginClassDefinition "has_superclass" Json.bool?
  | "BeginClassMethod" => two beginClassMethod "name" Json.text? "num_parameters" countOfJson?
  | _ => fun _ => none

/-- The operation that a value writes. -/
def ofJson? (j : Json) : Option Operation :=
  match j.variant? with
  | none => none
  | some (name, content) =>
    match plain.find? fun op => op.name == name, content with
    | some op, none | some op, some .null => some op
    | some _, _ => none
    | none, some fields => ofFields? name fields
    | none, none => none

end Operation

namespace Variable

def toJson (v : Variable) : Json := .ofNat v.number

def ofJson? (j : Json) : Option Variable := (j.nat? limit).map Variable.mk

end Variable

namespace Instruction

def toJson (i : Instruction) : Json :=
  .ofFields
    [("op", i.op.toJson), ("inouts", .array (i.inouts.map Variable.toJson)),
      ("index", .ofNat i.index)]

def partsOfJson? (j : Json) : Option (Operation × List Variable × Nat) := do
  let fs ← j.record? ["op", "inouts", "index"]
  return (← Operation.ofJson? (← field? fs "op"),
    ← Json.list? Variable.ofJson? (← field? fs "inouts"), ← countOfJson? (← field? fs "index"))

def ofJson (j : Json) : Except LoadError Instruction :=
  match partsOfJson? j with
  | some (op, inouts, index) => Instruction.load op inouts index
  | none => .error .malformed

end Instruction

/-- A value that is there, or malformed data. -/
def LoadError.require {α : Type} : Option α → Except LoadError α
  | some a => .ok a
  | none => .error .malformed

namespace Code

def toJson (c : Code) : Json := .ofFields [("instructions", .array (c.map Instruction.toJson))]

/-- The instructions of an array, in order; the first fault wins. -/
def instructionsOfJson : Json → Except LoadError Code
  | .array items => items.mapM Instruction.ofJson
  | _ => .error .malformed

/-- The code that a value writes. -/
def ofJson (j : Json) : Except LoadError Code := do
  let code ← (j.entries ["instructions"]).foldlM
    (fun code (name, value) =>
      if name = "instructions" then some <$> instructionsOfJson value
      else if value.isWhole then .ok code else .error .malformed)
    none
  LoadError.require code

end Code

namespace Comments

def toJson (c : Comments) : Json :=
  .ofFields
    [("header", .ofText? c.header), ("footer", .ofText? c.footer),
      ("instructions",
        .object (c.instructions.map fun (n, text) => ((toString n).toList, .ofText text)))]

/-- A position that is written as the key of an object, without escapes. -/
def positionOfKey? (key : List Char) : Option Nat :=
  match Json.readNumber key with
  | some (lexeme, []) => (Json.natural? lexeme).filter (· < Operation.countLimit)
  | _ => none

/-- The texts by position; of several texts at one position the last one counts. -/
def textsOfJson? : Json → Option (List (Nat × String))
  | .object members => do
    let pairs ← members.mapM fun (key, value) => do
      return (← positionOfKey? key, ← value.text?)
    return Ordered.ofPairs pairs
  | _ => none

def ofJson? (j : Json) : Option Comments := do
  let fs ← j.record? ["header", "footer", "instructions"]
  return {
    header := ← optional? fs "header" Json.text?
    footer := ← optional? fs "footer" Json.text?
    instructions := ← textsOfJson? (← field? fs "instructions") }

end Comments

namespace Uuid

def toJson (u : Uuid) : Json := .ofText u.text

def ofJson? (j : Json) : Option Uuid := j.text?.bind Uuid.ofText?

end Uuid

namespace Program

def toJson (p : Program) : Json :=
  .ofFields
    [("id", p.id.toJson), ("parent", (p.parent.map Uuid.toJson).getD .null),
      ("code", p.code.toJson), ("comments", p.comments.toJson),
      ("contributors", .array (p.contributors.map .ofText))]

/-- The fields of a program that have been read so far. -/
structure Draft where
  id : Option Uuid := none
  parent : Option Uuid := none
  code : Option Code := none
  comments : Option Comments := none
  contributors : Option (List String) := none

def Draft.read (d : Draft) : String × Json → Except LoadError Draft
  | ("id", j) => do return { d with id := ← LoadError.require (Uuid.ofJson? j) }
  | ("parent", .null) => .ok d
  | ("parent", j) => do return { d with parent := ← LoadError.require (Uuid.ofJson? j) }
  | ("code", j) => do return { d with code := ← Code.ofJson j }
  | ("comments", j) => do return { d with comments := ← LoadError.require (Comments.ofJson? j) }
  | ("contributors", j) => do
    let names ← LoadError.require (Json.list? Json.text? j)
    return { d with contributors := Ordered.ofList names }
  | (_, j) => if j.isWhole then .ok d else .error .malformed

/-- The program that a value writes; its code is not checked. -/
def ofJsonValue (j : Json) : Except LoadError Program := do
  let d ← (j.entries ["id", "parent", "code", "comments", "contributors"]).foldlM Draft.read {}
  return {
    id := ← LoadError.require d.id
    parent := d.parent
    code := ← LoadError.require d.code
    comments := ← LoadError.require d.comments
    contributors := ← LoadError.require d.contributors }

/-- The program that a text writes, if its code is well formed. -/
def ofJson (source : String) : Except LoadError Program := do
  let (j, complete) := Json.readFirst source.toList
  let p ← ofJsonValue j
  if complete then p.validated else throw .malformed

end Program

end ScriptFuzz
