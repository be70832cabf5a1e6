import ScriptFuzz.Program.Instruction

/-!
# Faults

A fault is a contract that the caller of an operation broke, or arithmetic that left its range. It
is no condition that a fuzzing run is meant to handle: functions with correct callers never return
one.
-/

namespace ScriptFuzz

set_option autoImplicit false

inductive Fault where
  /-- A sum is no count. -/
  | uncountable
  /-- More variables are asked for than memory can hold. -/
  | oversized
  /-- No number is left for a variable. -/
  | exhausted
  | arity (op : Operation)
  | mismatch (op : Operation) (got : Nat)
  | noSingleOutput (op : Operation)
  | invisible (op : Operation) (input : Variable)
  | context (op : Operation) (current : Context)
  | unopened (op : Operation)
  | cannotClose (op opener : Operation)
  | notAdopted (v : Variable)
  | cannotReplace (op replaced : Operation)
  | openBlocks (count : Nat)
  | illFormed
  /-- A position outside of a list. -/
  | outside (length position : Nat)
  /-- A chance that is no probability. -/
  | probability
deriving DecidableEq

namespace Fault

def text : Fault → String
  | uncountable | exhausted => "attempt to add with overflow"
  | oversized => "capacity overflow"
  | arity op => op.name ++ " takes " ++ toString op.shape.inputs ++ " inputs"
  | mismatch op got => ArityError.mismatchText op got
  | noSingleOutput op => op.name ++ " has no single output"
  | invisible op v => op.name ++ " uses invisible " ++ v.text
  | context op current =>
    op.name ++ " requires " ++ op.shape.requires.text ++ " but the context is " ++ current.text
  | unopened op => op.name ++ " without an open block"
  | cannotClose op opener => op.name ++ " cannot close " ++ opener.name
  | notAdopted v => v.text ++ " has not been adopted"
  | cannotReplace op replaced => op.name ++ " cannot replace " ++ replaced.name
  | openBlocks n => "finalize called with " ++ toString n ++ " open blocks"
  | illFormed => "assertion failed: self.code.check().is_ok()"
  | outside length position =>
    "index out of bounds: the len is " ++ toString length ++ " but the index is " ++
      toString position
  | probability => "called `Result::unwrap()` on an `Err` value: InvalidProbability"

end Fault

end ScriptFuzz
