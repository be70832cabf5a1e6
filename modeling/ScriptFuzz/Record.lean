import ScriptFuzz.Json.Fields
import ScriptFuzz.Json.Reader
import ScriptFuzz.Json.Writer
import ScriptFuzz.Text.Blank
import ScriptFuzz.Text.Lines

/-!
# Records of observed values

While a program runs, the hook writes one record a line to the side channel: which instruction
produced a value, what kind of value it is, and what can be done with it. A line that is no record
is skipped; it neither hides nor changes the lines around it.
-/

namespace ScriptFuzz

set_option autoImplicit false

/-- The coarse shape of a value. -/
inductive ValueKind where
  | primitive
  | object
  | function
  | classObject
deriving DecidableEq, Repr

namespace ValueKind

def all : List ValueKind := [primitive, object, function, classObject]

def name : ValueKind → String
  | primitive => "primitive"
  | object => "object"
  | function => "function"
  | classObject => "class"

def ofJson? (j : Json) : Option ValueKind :=
  match j.variant? with
  | some (k, none) | some (k, some .null) => all.find? fun x => x.name == k
  | _ => none

end ValueKind

/-- What is known about the value of one instruction. -/
structure Record where
  /-- The position of the instruction in the program that is observed. -/
  index : Nat
  kind : ValueKind
  typeName : String
  /-- The number of required parameters, if the value is callable and it is known. -/
  arity : Option Nat := none
  fields : List String := []
  /-- The methods, each with its arity as a text. -/
  methods : List (String × String) := []
deriving DecidableEq

namespace Record

/-- The bound below which positions and arities lie. -/
def countLimit : Nat := 0x10000000000000000

/-- The parts of the record by name, in the order in which they are written. -/
def entries (r : Record) : List (String × Json) :=
  [("index", .ofNat r.index), ("kind", .ofText r.kind.name), ("type", .ofText r.typeName),
    ("arity", .ofNat? r.arity), ("fields", .array (r.fields.map .ofText)),
    ("methods", .array (r.methods.map fun (n, a) => .array [.ofText n, .ofText a]))]

def toJson (r : Record) : Json := .ofFields r.entries

def pairOfJson? : Json → Option (String × String)
  | .array [a, b] => do return (← a.text?, ← b.text?)
  | _ => none

def ofJson? (j : Json) : Option Record := do
  let fs ← j.record? ["index", "kind", "type", "arity", "fields", "methods"]
  return {
    index := ← (← Json.field? fs "index").nat? countLimit
    kind := ← ValueKind.ofJson? (← Json.field? fs "kind")
    typeName := ← (← Json.field? fs "type").text?
    arity := ← Json.optional? fs "arity" (Json.nat? countLimit)
    fields := ← Json.list? Json.text? (← Json.field? fs "fields")
    methods := ← Json.list? pairOfJson? (← Json.field? fs "methods") }

/-- The record on a line. NUL characters at the start and white space around the rest do not
count. -/
def ofLine? (line : List Char) : Option Record :=
  match Text.trim (line.dropWhile (· = '\x00')) with
  | [] => none
  | cs => (Json.read? (String.ofList cs)).bind ofJson?

/-- The records of a side channel, in order. -/
def ofStream (fuzzout : String) : List Record := (Text.lines fuzzout.toList).filterMap ofLine?

/-- Whether the record tells anything that can be acted on. -/
def isUsable (r : Record) : Bool :=
  match r.kind with
  | .function | .classObject => true
  | .primitive | .object => !r.fields.isEmpty || !r.methods.isEmpty

/-- The number that the arity text of a method stands for, if it is known. -/
def methodArity? (arity : String) : Option Nat :=
  (Json.unsigned? (Text.trim arity.toList)).filter (· < countLimit)

end Record

end ScriptFuzz
