import ScriptFuzz.Fuzzing

/-!
# Generators

A generator adds one harmless instruction. Before a seed is mutated it gets a preamble: the work of
one generator and one or two builtins.
-/

namespace ScriptFuzz

set_option autoImplicit false

/-- The kinds of values that are generated. -/
inductive Generator where
  | integer
  | float
  | string
  | boolean
  | builtin
deriving DecidableEq, Repr

namespace Generator

def all : List Generator := [integer, float, string, boolean, builtin]

def name : Generator → String
  | integer => "IntegerGenerator"
  | float => "FloatGenerator"
  | string => "StringGenerator"
  | boolean => "BooleanGenerator"
  | builtin => "BuiltinGenerator"

open Build Environment

/-- Loads a value. Where no builtin is known, an integer takes its place. -/
def emit (e : Environment) : Generator → Assembly Variable
  | integer => do loadInt (← drawInt)
  | float => do loadFloat (← drawFloat)
  | string => do loadString (← e.drawString)
  | boolean => do loadBool (← Draw.bool)
  | builtin => do
    match ← e.drawBuiltin with
    | some name => loadBuiltin name
    | none => loadInt (← drawInt)

/-- Loads several builtins. -/
def emitBuiltins (e : Environment) : Nat → Assembly Unit
  | 0 => return ()
  | n + 1 => do
    let _ ← builtin.emit e
    emitBuiltins e n

/-- A program with the work of one generator. -/
def single (e : Environment) (id : Uuid) (g : Generator) :
    ExceptT Fault (StateM Random) Program := do
  let (_, b) ← (g.emit e).run {}
  liftExcept (b.finalize id)

end Generator

/-- The program behind a random preamble. -/
def Program.warmUp (e : Environment) (id : Uuid) (p : Program) :
    ExceptT Fault (StateM Random) Program := do
  let start : Builder := { Builder.derivedFrom p with contributors := p.contributors }
  let (_, b) ← (do
    if let some g ← Draw.choose Generator.all then
      let _ ← g.emit e
    Generator.emitBuiltins e (1 + (← Draw.below .single 2))
    Build.appendProgram p : Assembly Unit).run start
  liftExcept (b.finalize id)

end ScriptFuzz
