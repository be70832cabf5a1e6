import ScriptFuzz.Wire.Codec

/-!
# Programs as bytes

`Program.toBytes` writes a program in the wire format and `Program.ofBytes` reads it back. Floating
point constants keep every bit. Bytes that follow the program are ignored.
-/

namespace ScriptFuzz

set_option autoImplicit false

open Wire

/-- The position of an element in a list, or the length of the list. -/
private def position {α : Type} [DecidableEq α] (all : List α) (a : α) : Nat := all.idxOf a

def UnaryOperator.toBytes (op : UnaryOperator) : List UInt8 := variant (position all op)

def BinaryOperator.toBytes (op : BinaryOperator) : List UInt8 := variant (position all op)

def Comparator.toBytes (op : Comparator) : List UInt8 := variant (position all op)

namespace Operation

def number : Operation → Nat
  | nop => 0
  | loadInteger _ => 1
  | loadBigInt _ => 2
  | loadFloat _ => 3
  | loadString _ => 4
  | loadBoolean _ => 5
  | loadUndefined => 6
  | loadNull => 7
  | loadRegExp _ => 8
  | createArray _ => 9
  | loadBuiltin _ => 10
  | getProperty _ => 11
  | setProperty _ => 12
  | getElement _ => 13
  | setElement _ => 14
  | beginPlainFunction _ => 15
  | endPlainFunction => 16
  | ret => 17
  | callFunction _ => 18
  | construct _ => 19
  | callMethod _ _ => 20
  | unaryOperation _ => 21
  | binaryOperation _ => 22
  | ternaryOperation => 23
  | compare _ => 24
  | reassign => 25
  | update _ => 26
  | dup => 27
  | eval _ _ => 28
  | beginIf _ => 29
  | beginElse => 30
  | endIf => 31
  | beginWhileLoop _ => 32
  | endWhileLoop => 33
  | beginForLoop => 34
  | endForLoop => 35
  | loopBreak => 36
  | loopContinue => 37
  | beginTry => 38
  | beginCatch => 39
  | beginFinally => 40
  | endTryCatchFinally => 41
  | throwException => 42
  | beginSwitch => 43
  | beginSwitchCase => 44
  | beginSwitchDefaultCase => 45
  | endSwitchCase => 46
  | endSwitch => 47
  | beginClassDefinition _ => 48
  | beginClassMethod _ _ => 49
  | endClassMethod => 50
  | endClassDefinition => 51
  | print => 52

def parameterBytes : Operation → List UInt8
  | loadInteger v | loadBigInt v | getElement v | setElement v => word 8 v.toUInt64.toNat
  | loadFloat v => word 8 v.bits.toNat
  | loadString s | loadRegExp s | loadBuiltin s | getProperty s | setProperty s => Wire.text s
  | loadBoolean b | beginIf b | beginClassDefinition b => bool b
  | createArray n | beginPlainFunction n | callFunction n | construct n => count n
  | callMethod s n | eval s n | beginClassMethod s n => Wire.text s ++ count n
  | unaryOperation op => op.toBytes
  | binaryOperation op | update op => op.toBytes
  | compare c | beginWhileLoop c => c.toBytes
  | _ => []

def toBytes (op : Operation) : List UInt8 := variant op.number ++ op.parameterBytes

/-- A signed number of 64 bits. -/
def int64 : Reader Int64 := do return (UInt64.ofNat (← Reader.word 8)).toInt64

/-- The operation with a number, its parameters to be read. -/
def ofNumber : Nat → Reader Operation
  | 0 => pure nop
  | 1 => loadInteger <$> int64
  | 2 => loadBigInt <$> int64
  | 3 => do return loadFloat ⟨UInt64.ofNat (← Reader.word 8)⟩
  | 4 => loadString <$> Reader.text
  | 5 => loadBoolean <$> Reader.bool
  | 6 => pure loadUndefined
  | 7 => pure loadNull
  | 8 => loadRegExp <$> Reader.text
  | 9 => createArray <$> Reader.count
  | 10 => loadBuiltin <$> Reader.text
  | 11 => getProperty <$> Reader.text
  | 12 => setProperty <$> Reader.text
  | 13 => getElement <$> int64
  | 14 => setElement <$> int64
  | 15 => beginPlainFunction <$> Reader.count
  | 16 => pure endPlainFunction
  | 17 => pure ret
  | 18 => callFunction <$> Reader.count
  | 19 => construct <$> Reader.count
  | 20 => return callMethod (← Reader.text) (← Reader.count)
  | 21 => unaryOperation <$> Reader.member UnaryOperator.all
  | 22 => binaryOperation <$> Reader.member BinaryOperator.all
  | 23 => pure ternaryOperation
  | 24 => compare <$> Reader.member Comparator.all
  | 25 => pure reassign
  | 26 => update <$> Reader.member BinaryOperator.all
  | 27 => pure dup
  | 28 => return eval (← Reader.text) (← Reader.count)
  | 29 => beginIf <$> Reader.bool
  | 30 => pure beginElse
  | 31 => pure endIf
  | 32 => beginWhileLoop <$> Reader.member Comparator.all
  | 33 => pure endWhileLoop
  | 34 => pure beginForLoop
  | 35 => pure endForLoop
  | 36 => pure loopBreak
  | 37 => pure loopContinue
  | 38 => pure beginTry
  | 39 => pure beginCatch
  | 40 => pure beginFinally
  | 41 => pure endTryCatchFinally
  | 42 => pure throwException
  | 43 => pure beginSwitch
  | 44 => pure beginSwitchCase
  | 45 => pure beginSwitchDefaultCase
  | 46 => pure endSwitchCase
  | 47 => pure endSwitch
  | 48 => beginClassDefinition <$> Reader.bool
  | 49 => return beginClassMethod (← Reader.text) (← Reader.count)
  | 50 => pure endClassMethod
  | 51 => pure endClassDefinition
  | 52 => pure print
  | _ => Reader.refuse

def reader : Reader Operation := do ofNumber (← Reader.variant)

end Operation

namespace Variable

def toBytes (v : Variable) : List UInt8 := word 4 v.number

def reader : Reader Variable := Variable.mk <$> Reader.word 4

end Variable

namespace Instruction

def toBytes (i : Instruction) : List UInt8 :=
  i.op.toBytes ++ list Variable.toBytes i.inouts ++ count i.index

def reader : Reader Instruction := do
  let op ← Operation.reader
  let inouts ← Reader.list Variable.reader
  let index ← Reader.count
  match Instruction.load op inouts index with
  | .ok i => return i
  | .error e => throw e

end Instruction

namespace Comments

def toBytes (c : Comments) : List UInt8 :=
  option text c.header ++ option text c.footer ++
    list (fun (n, s) => count n ++ text s) c.instructions

def reader : Reader Comments := do
  let header ← Reader.option Reader.text
  let footer ← Reader.option Reader.text
  let pairs ← Reader.list do return (← Reader.count, ← Reader.text)
  return { header, footer, instructions := Ordered.ofPairs pairs }

end Comments

namespace Uuid

def toWire (u : Uuid) : List UInt8 := count 16 ++ u.bytes

def reader : Reader Uuid := do
  match Uuid.ofBytes? (← Reader.bytes (← Reader.count)) with
  | some u => return u
  | none => Reader.refuse

end Uuid

namespace Program

def toBytes (p : Program) : List UInt8 :=
  p.id.toWire ++ option Uuid.toWire p.parent ++ list Instruction.toBytes p.code ++
    p.comments.toBytes ++ list text p.contributors

def reader : Reader Program := do
  let id ← Uuid.reader
  let parent ← Reader.option Uuid.reader
  let code ← Reader.list Instruction.reader
  let comments ← Comments.reader
  let names ← Reader.list Reader.text
  return { id, parent, code, comments, contributors := Ordered.ofList names }

/-- The program that a byte string starts with, if its code is well formed. -/
def ofBytes (bytes : List UInt8) : Except LoadError Program := do
  let (p, _) ← reader.run bytes
  p.validated

end Program

end ScriptFuzz
