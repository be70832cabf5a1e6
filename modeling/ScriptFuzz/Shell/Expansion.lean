import ScriptFuzz.Shell.Arithmetic
import ScriptFuzz.Shell.Pattern
import ScriptFuzz.Shell.State

/-!
# Expansion of words

What the words of a command become before it runs: parameters are replaced by their values, commands
by their output, expressions by numbers; unquoted results are split into fields, and fields that are
patterns are replaced by the paths that match them.
-/

namespace ScriptFuzz.Shell.Expansion

set_option autoImplicit false

open Effect

/-- A part of an expanded word. -/
inductive Chunk where
  | fixed (v : Value) (quoted : Bool)
  /-- A result that is split into fields. -/
  | open (v : Value)
  /-- The place where one argument of the script ends and the next one begins. -/
  | boundary

/-- How to expand words inside of words, and how to get the output of commands. -/
structure Means where
  expand : Word → Effect (List Chunk)
  output : List Command → Effect Value

/-- The value of a parameter, if it is set. -/
def parameter? (name : Value) : Effect (Option Value) := do
  let f ← frame
  match name with
  | ['#'] => return some (.ofNat f.arguments.length)
  | ['?'] => return some (.ofNat f.status)
  | ['$'] => return some (.ofNat f.process)
  | ['-'] => return some []
  | ['!'] => return f.bindings.lookup "!"
  | ['@'] | ['*'] =>
    return if f.arguments.isEmpty then none else some ([' '].intercalate f.arguments)
  | _ =>
    match Value.nat? name with
    | some 0 => return some f.name
    | some n => return f.arguments[n - 1]?
    | none => return f.bindings.lookup (String.ofList name)

/-- The value of a variable, nothing if it is unset. -/
def lookup (f : Frame) (name : Value) : Value := (f.bindings.lookup (String.ofList name)).getD []

/-- The characters of an expanded word that is not split. -/
def marks (cs : List Chunk) : List Mark :=
  cs.flatMap fun c =>
    match c with
    | .fixed v quoted => v.map (·, quoted)
    | .open v => v.map (·, false)
    | .boundary => [(' ', true)]

/-- The text of an expanded word that is not split. -/
def joined (cs : List Chunk) : Value := (marks cs).map (·.1)

/-- The text of a word that is not split. -/
def text (m : Means) (w : Word) : Effect Value := return joined (← m.expand w)

def result (quoted : Bool) (v : Value) : List Chunk := [if quoted then .fixed v true else .open v]

def used (m : Means) (name : Value) (u : Use) (quoted : Bool) : Effect (List Chunk) := do
  let value ← parameter? name
  let shown : List Chunk ←
    if name = ['@'] ∨ (name = ['*'] ∧ !quoted) then do
      let vs := (← frame).arguments
      pure ((vs.map (result quoted)).intersperse [.boundary]).flatten
    else pure (result quoted (value.getD []))
  let isMissing (missing : Missing) : Bool :=
    match missing, value with
    | _, none => true
    | .empty, some v => v = []
    | .unset, some _ => false
  match u with
  | .value =>
    if (← frame).strict.2 ∧ value.isNone ∧ name ≠ ['@'] ∧ name ≠ ['*'] then
      abort (String.ofList name ++ ": parameter not set")
    return shown
  | .length => return result quoted (.ofNat (value.getD []).length)
  | .orElse missing w => if isMissing missing then m.expand w else return shown
  | .orAssign missing w =>
    if isMissing missing then
      let v ← text m w
      assign (String.ofList name) v
      return result quoted v
    else return shown
  | .orFail missing w =>
    if isMissing missing then
      let v ← text m w
      let usual := if missing = .empty then "parameter not set or null" else "parameter not set"
      abort (String.ofList name ++ ": " ++ if v = [] then usual else v.toText)
    else return shown
  | .instead missing w => if isMissing missing then return result quoted [] else m.expand w
  | .trimmed t pattern =>
    let p := marks (← m.expand pattern)
    return result quoted (Pattern.trim t.fromEnd t.longest p (value.getD []))
  | .bad => abort "Bad substitution"

/-- The number that an expression denotes. -/
def evaluated (expression : Value) : Effect Value := do
  let f ← frame
  let value := do ((← Arithmetic.read expression).value (lookup f)).run []
  match value with
  | .ok (n, assigned) =>
    for (name, n) in assigned.reverse do
      assign (String.ofList name) (toString n).toList
    return (toString n).toList
  | .error (.notNumber v) => abort (Arithmetic.Problem.notNumber v).text
  | .error p =>
    abort ("arithmetic expression: " ++ p.text ++ ": \"" ++ Value.toText expression ++ "\"")

/-- What one piece of a word becomes. -/
def piece (m : Means) : Piece → Effect (List Chunk)
  | .text cs quoted => return [.fixed cs quoted]
  | .parameter name u quoted => used m name u quoted
  | .output commands quoted => return result quoted (← m.output commands)
  | .arithmetic e quoted => do return result quoted (← evaluated (← text m e))

def word (m : Means) (w : Word) : Effect (List Chunk) := return (← w.mapM (piece m)).flatten

/-! ## Fields -/

/-- Fields that are complete, and the one that is being put together. -/
structure Fields where
  complete : List (List Mark) := []
  current : Option (List Mark) := none

namespace Fields

def add (f : Fields) (ms : List Mark) : Fields :=
  { f with current := some (f.current.getD [] ++ ms) }

/-- Ends the current field, if there is one. -/
def finish (f : Fields) : Fields := { complete := f.complete ++ f.current.toList }

end Fields

/-- The characters at which results are split. -/
def separators (f : Frame) : Value := (f.bindings.lookup "IFS").getD [' ', '\t', '\n']

/-- Splits a result. A blank separator ends a field, any other one also begins one. -/
def split (separators : Value) (f : Fields) (v : Value) : Fields :=
  v.foldl
    (fun f c =>
      if separators.contains c then
        if c = ' ' ∨ c = '\t' ∨ c = '\n' then f.finish else (f.add []).finish
      else f.add [(c, false)])
    f

/-- The fields of an expanded word. -/
def fields (separators : Value) (cs : List Chunk) : List (List Mark) :=
  (cs.foldl
    (fun f c =>
      match c with
      | .fixed v quoted => f.add (v.map (·, quoted))
      | .open v => split separators f v
      | .boundary => f.finish)
    ({} : Fields)).finish.complete

/-- The parts of a path pattern between slashes. -/
def pathParts : List Mark → List (List Mark)
  | [] => [[]]
  | (c, q) :: ms =>
    if c = '/' then [] :: pathParts ms
    else
      match pathParts ms with
      | [] => [[(c, q)]]
      | p :: ps => ((c, q) :: p) :: ps

/-- The paths that match a pattern, from what has been matched before. -/
def matching (files : Files) (directory : Path) : Value → List (List Mark) → List Value
  | before, [] => [before]
  | before, [p] =>
    if Pattern.isPattern p then candidates files directory before p
    else
      let path := before ++ p.map (·.1)
      if (files.find directory (Value.toText path)).isOk then [path] else []
  | before, p :: ps =>
    let found :=
      if Pattern.isPattern p then
        (candidates files directory before p).filter fun v =>
          (files.findDirectory directory v.toText).isOk
      else [before ++ p.map (·.1)]
    found.flatMap fun v => matching files directory (v ++ ['/']) ps
where
  /-- The paths in a directory whose last part matches a pattern. -/
  candidates (files : Files) (directory : Path) (before : Value) (p : List Mark) : List Value :=
    let hidden := (p.head?.map (·.1)) = some '.'
    let names :=
      match files.findDirectory directory (if before = [] then "." else before.toText) with
      | .ok q => (if hidden then [".", ".."] else []) ++ files.names q
      | .error _ => []
    (names.filter fun n =>
      (hidden || !n.startsWith ".") && Pattern.accepts (Pattern.atoms p) (Value.ofText n)).map
        fun n => before ++ Value.ofText n

/-- The paths that a field stands for; a field that no path matches stands for itself. -/
def paths (files : Files) (directory : Path) (field : List Mark) : List Value :=
  let plain := field.map (·.1)
  if Pattern.isPattern field then
    match matching files directory [] (pathParts field) with
    | [] => [plain]
    | vs => vs
  else [plain]

def arguments (m : Means) (ws : List Word) : Effect (List Value) := do
  let out ← ws.mapM fun w => do
    let cs ← m.expand w
    let s ← getThe State
    return (fields (separators s.frame) cs).flatMap (paths s.files s.frame.directory)
  return out.flatten

end ScriptFuzz.Shell.Expansion
