import ScriptFuzz.Fuzzing
import ScriptFuzz.Hook

/-!
# Altering parameters

A mutation that changes the parameters of a few instructions: constants, operators, names. The shape
of every instruction stays as it is, and with it the program stays well formed. What serves the
observation of values is left alone.
-/

namespace ScriptFuzz.Alteration

set_option autoImplicit false

open ScriptFuzz.Number
open Environment (drawInt drawFloat drawFloatBetween drawRegexp)

def name : String := "OperationMutator"

/-- An integer close to another, its negation, or any. -/
def integer (n : Int64) : Draw Int64 := do
  match ← Draw.below .single 3 with
  | 0 => drawInt
  | 1 => return n + Int64.ofInt (← Draw.between .double (-16) 16)
  | _ => return -n

/-- A multiple of a number, or any. -/
def float (x : Binary64) : Draw Binary64 := do
  if ← Draw.chance 0.5 then drawFloat
  else return .ofFloat (x.toFloat * (← drawFloatBetween (-4.0) 4.0))

/-- A text with a character less or more, a beginning of it, or any. -/
def string (e : Environment) (s : String) : Draw String := do
  let cs := s.toList
  if cs.isEmpty then e.drawString
  else if ← Draw.chance 0.5 then e.drawString
  else
    let n ← Draw.below .double cs.length
    match ← Draw.below .single 3 with
    | 0 => return String.ofList (cs.eraseIdx n)
    | 1 => return String.ofList (cs.insertIdx n (Char.ofNat (0x20 + (← Draw.belowSmall 95))))
    | _ => return String.ofList (cs.take n)

/-- A small index, or one close to another. -/
def index (n : Int64) : Draw Int64 := do
  if ← Draw.chance 0.5 then return Int64.ofInt (← Draw.between .double (-2) 8)
  else return n + Int64.ofInt (← Draw.between .double (-2) 2)

/-- Another element of a list, if there is one. -/
def otherThan {α : Type} [DecidableEq α] (choices : List α) (current : α) : Draw α := do
  return (← Draw.choose (choices.filter (· ≠ current))).getD current

/-- An operation of the same shape with other parameters. -/
def operation (e : Environment) : Operation → Draw Operation
  | .loadInteger n => return .loadInteger (← integer n)
  | .loadBigInt n => return .loadBigInt (← integer n)
  | .loadFloat x => return .loadFloat (← float x)
  | .loadString s => return .loadString (← string e s)
  | .loadBoolean b => return .loadBoolean (!b)
  | .loadRegExp _ => return .loadRegExp (← drawRegexp)
  | .loadBuiltin name => return .loadBuiltin ((← e.drawBuiltin).getD name)
  | .getProperty _ => return .getProperty (← e.drawProperty)
  | .setProperty _ => return .setProperty (← e.drawProperty)
  | .getElement n => return .getElement (← index n)
  | .setElement n => return .setElement (← index n)
  | .callMethod _ n => return .callMethod (← e.drawMethod) n
  | .unaryOperation op => return .unaryOperation (← otherThan UnaryOperator.all op)
  | .binaryOperation op => return .binaryOperation (← otherThan BinaryOperator.all op)
  | .update op => return .update (← otherThan BinaryOperator.all op)
  | .compare op => return .compare (← otherThan Comparator.all op)
  | .beginWhileLoop op => return .beginWhileLoop (← otherThan Comparator.all op)
  | .beginIf inverted => return .beginIf (!inverted)
  | .beginClassMethod _ n => return .beginClassMethod (← e.drawMethod) n
  | op => return op

/-- Whether an instruction may be altered. -/
def isTarget (i : Instruction) : Bool := i.isMutable && !Hook.isLoad i && !Hook.isRecordCall i

/-- The largest number of positions that fit in memory. -/
def capacity : Nat := 0x1000000000000000

/-- Copies instructions and alters those at the chosen positions. -/
def alterAt (e : Environment) (chosen : List Nat) : Code → Assembly Unit
  | [] => return ()
  | i :: is => do
    if i.index ∈ chosen then
      let _ ← Build.adoptAs i (← operation e i.op)
    else
      let _ ← Build.adopt i
    alterAt e chosen is

/-- A copy of a program with a few instructions altered, if any may be. -/
def mutate (s : MutationSettings) (e : Environment) (id : Uuid) (p : Program) :
    ExceptT Fault (StateM Random) (Option Program) := do
  let targets := (p.code.filter isTarget).map (·.index)
  if targets.isEmpty then return none
  let count := 1 + (← Draw.below .double (max s.maxAlterations 1))
  if capacity ≤ count then throw .oversized
  let chosen ← Draw.sample count targets
  let start : Builder := { Builder.derivedFrom p with contributors := p.contributors }
  let (_, b) ← (alterAt e chosen p.code).run (start.addContributor name)
  return some (← liftExcept (b.finalize id))

end ScriptFuzz.Alteration
