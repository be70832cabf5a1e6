import ScriptFuzz.Json.Numeral
import ScriptFuzz.Settings.Basic

/-!
# Options

What the arguments of the program say. Every option may be given once; nothing but options may be
given.
-/

namespace ScriptFuzz.CommandLine

set_option autoImplicit false

/-- The options of a run. -/
structure Options where
  interpreter : Option String := none
  /-- The directory of the programs to start from. -/
  corpus : Option String := none
  output : String := "refuzz-out"
  workers : Nat := 1
  /-- The iterations of each worker; without a number they do not end. -/
  iterations : Option Nat := none
  seed : Option Nat := none
  config : Option String := none
  timeoutMilliseconds : Option Nat := none
  jsonLogs : Bool := false
deriving DecidableEq, Repr

/-- An option that takes a value. -/
inductive Parameter where
  | interpreter
  | corpus
  | output
  | workers
  | iterations
  | seed
  | config
  | timeout
deriving DecidableEq, Repr

namespace Parameter

def all : List Parameter :=
  [interpreter, corpus, output, workers, iterations, seed, config, timeout]

def name : Parameter → String
  | interpreter => "interpreter"
  | corpus => "corpus"
  | output => "output"
  | workers => "workers"
  | iterations => "iterations"
  | seed => "seed"
  | config => "config"
  | timeout => "timeout-ms"

end Parameter

def jsonLogsName : String := "json-logs"

/-- A path that is given as a value. -/
def path? (s : String) : Option String := if s = "" then none else some s

/-- A number that is given as a value. -/
def count? (s : String) : Option Nat :=
  (Json.unsigned? s.toList).filter (· < 0x10000000000000000)

/-- The options with a value for a parameter, if it can have the value. -/
def Options.set? (o : Options) (p : Parameter) (value : String) : Option Options :=
  match p with
  | .interpreter => (path? value).map fun s => { o with interpreter := some s }
  | .corpus => (path? value).map fun s => { o with corpus := some s }
  | .output => (path? value).map fun s => { o with output := s }
  | .workers => (count? value).map fun n => { o with workers := n }
  | .iterations => (count? value).map fun n => { o with iterations := some n }
  | .seed => (count? value).map fun n => { o with seed := some n }
  | .config => (path? value).map fun s => { o with config := some s }
  | .timeout => (count? value).map fun n => { o with timeoutMilliseconds := some n }

/-- The form of an argument. -/
inductive Argument where
  | separator
  /-- An option with a name, and with the value that is attached to it. -/
  | long (name : String) (value : Option String)
  | short (first : Char)
  | value (text : String)

def Argument.ofText (s : String) : Argument :=
  match s.toList with
  | ['-', '-'] => .separator
  | '-' :: '-' :: cs =>
    let attached :=
      match cs.dropWhile (· ≠ '=') with
      | [] => none
      | _ :: text => some (String.ofList text)
    .long (String.ofList (cs.takeWhile (· ≠ '='))) attached
  | '-' :: c :: _ => .short c
  | _ => .value s

/-- What arguments ask for. -/
inductive Request where
  | run (options : Options)
  /-- A text about the program: help or the version. -/
  | about
  /-- The arguments are no request. -/
  | malformed
deriving DecidableEq, Repr

/-- Whether an option of one letter asks for a text about the program. -/
def isAboutLetter (c : Char) : Bool := c = 'h' || c = 'V'

/-- Reads arguments: `given` are the names of the options that have occurred, and `pending` is the
parameter that still needs its value. The first error or question about the program decides. -/
def Request.read (o : Options) (given : List String) (pending : Option Parameter) :
    List String → Request
  | [] => if pending.isSome then .malformed else .run o
  | a :: rest =>
    match pending, Argument.ofText a with
    | some p, .value text =>
      match o.set? p text with
      | some o => read o given none rest
      | none => .malformed
    | some _, _ | none, .value _ => .malformed
    | none, .separator => if rest.isEmpty then .run o else .malformed
    | none, .short c => if isAboutLetter c then .about else .malformed
    | none, .long name value =>
      if name ∈ given then .malformed
      else
        match Parameter.all.find? fun p => p.name == name, value with
        | some p, some text =>
          match o.set? p text with
          | some o => read o (name :: given) none rest
          | none => .malformed
        | some p, none => read o (name :: given) (some p) rest
        | none, some _ => .malformed
        | none, none =>
          if name = "help" ∨ name = "version" then .about
          else if name = jsonLogsName then
            read { o with jsonLogs := true } (name :: given) none rest
          else .malformed

/-- What the arguments ask for. The variable of the environment that names an interpreter counts
where no argument does. -/
def Request.ofArguments (arguments : List String) (interpreter : Option String) : Request :=
  match Request.read {} [] none arguments, interpreter with
  | .run o, some text =>
    if o.interpreter.isSome then .run o
    else
      match o.set? .interpreter text with
      | some o => .run o
      | none => .malformed
  | request, _ => request

/-- The settings with what the options say in place of what they said. -/
def Options.apply (o : Options) (s : Settings) : Settings :=
  { s with
    seed := o.seed.getD s.seed
    timeoutMilliseconds := o.timeoutMilliseconds.getD s.timeoutMilliseconds
    target := { s.target with interpreter := o.interpreter.getD s.target.interpreter }
    telemetry := { s.telemetry with jsonLogs := s.telemetry.jsonLogs || o.jsonLogs } }

end ScriptFuzz.CommandLine
