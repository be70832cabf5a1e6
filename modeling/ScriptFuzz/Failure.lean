/-!
# Failures

Conditions of the world outside of the library that end an operation: files that cannot be read,
data that cannot be decoded, a target that does not answer.
-/

namespace ScriptFuzz

set_option autoImplicit false

/-- What kind of thing failed. -/
inductive FailureKind where
  | io
  | serialization
  | validation
  | execution
  | bootstrap
  | corpus
  | invalidState
  | other
deriving DecidableEq, Repr

namespace FailureKind

def all : List FailureKind :=
  [io, serialization, validation, execution, bootstrap, corpus, invalidState, other]

def name : FailureKind → String
  | io => "Io"
  | serialization => "Serialization"
  | validation => "Validation"
  | execution => "Execution"
  | bootstrap => "Bootstrap"
  | corpus => "Corpus"
  | invalidState => "InvalidState"
  | other => "Other"

def ofName? (name : String) : Option FailureKind := all.find? fun k => k.name == name

/-- The words that introduce the detail. -/
def heading : FailureKind → String
  | io => "IO error"
  | serialization => "Serialization error"
  | validation => "Validation error"
  | execution => "Execution error"
  | bootstrap => "Environment bootstrap failed"
  | corpus => "Corpus error"
  | invalidState => "Invalid state"
  | other => "Other error"

end FailureKind

/-- A failure with the detail that a reader needs to find its cause. -/
structure Failure where
  kind : FailureKind
  detail : String
deriving DecidableEq, Repr

def Failure.text (f : Failure) : String := f.kind.heading ++ ": " ++ f.detail

end ScriptFuzz
