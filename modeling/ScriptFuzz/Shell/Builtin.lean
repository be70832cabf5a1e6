import ScriptFuzz.Shell.Run

/-!
# Commands of the shell itself

Commands that change the shell or that it does not start a program for. A builtin sets the status;
after a mistake in a special one the script ends.
-/

namespace ScriptFuzz.Shell.Builtin

set_option autoImplicit false

open Effect Evaluator

/-- The builtins after whose mistakes the script ends. -/
def special : List String :=
  [":", ".", "break", "continue", "eval", "exec", "exit", "export", "readonly", "return", "set",
    "shift", "times", "trap", "unset"]

def printf (vs : List Value) : Effect Unit := do
  match if vs.head? = some ['-', '-'] then vs.drop 1 else vs with
  | [] =>
    complain "printf: usage: printf format [arg ...]"
    setStatus 2
  | format :: rest =>
    let (out, complaints, status) := Print.printed format rest
    put out
    complaints.forM fun c => complain ("printf: " ++ c)
    setStatus status

def echo (vs : List Value) : Effect Unit := do
  if ← write 1 (Print.echoed vs) then setStatus 0
  else
    complain "echo: echo: I/O error"
    setStatus 1

/-- Asks a condition; the command may want a bracket behind it. -/
def test (bracketed : Bool) (vs : List Value) : Effect Unit := do
  let name := if bracketed then "[" else "test"
  let wrong (why : String) : Effect Unit := do
    complain (name ++ ": " ++ why)
    setStatus 2
  if bracketed && vs.getLast? ≠ some [']'] then wrong "missing ]"
  else
    let s ← getThe State
    match Condition.holds s.files s.frame.directory (if bracketed then vs.dropLast else vs) with
    | .ok b => setStatus (if b then 0 else 1)
    | .error why => wrong why

def cd (vs : List Value) : Effect Unit := do
  let f ← frame
  let target :=
    match vs.filter fun v => v ≠ ['-', 'P'] ∧ v ≠ ['-', 'L'] ∧ v ≠ ['-', '-'] with
    | [] => (f.bindings.lookup "HOME").getD []
    | ['-'] :: _ => (f.bindings.lookup "OLDPWD").getD []
    | v :: _ => v
  let p := Path.resolve f.directory target.toText
  if ((← getThe State).files.findDirectory [] p.text).isOk then
    modifyFrame fun f => { f with directory := p }
    assign "OLDPWD" (.ofText f.directory.text)
    assign "PWD" (.ofText p.text)
    if vs = [['-']] then putLine (.ofText p.text)
    setStatus 0
  else
    complain ("cd: can't cd to " ++ target.toText)
    setStatus 2

def kill (e : Evaluator) (vs : List Value) : Effect Unit := do
  let wrong (why : String) : Effect Unit := do
    complain ("kill: " ++ why)
    setStatus 2
  let usage : Effect Unit :=
    wrong "Usage: kill [-s sigspec | -signum | -sigspec] [pid | job]... or\nkill -l [exitstatus]"
  let send (n : Nat) (targets : List Value) : Effect Unit := do
    if targets.isEmpty then usage
    else
      setStatus 0
      targets.forM fun t => do
        if t = .ofNat (← frame).process ∨ t = ['0'] then e.signal n
        else
          match Value.count? t with
          | some _ => do
            complain "kill: No such process\n"
            setStatus 1
          | none => wrong ("Illegal number: " ++ t.toText)
  match vs with
  | [] => usage
  | ['-', 'l'] :: rest =>
    setStatus 0
    match rest with
    | [] => signalNames.forM fun n => putLine n.toList
    | n :: _ =>
      let number := (Value.nat? n).getD 0 % 128
      putLine ((signalNames[number - 1]?).getD "").toList
  | ['-', 's'] :: name :: targets =>
    match signal? name with
    | some n => send n targets
    | none => wrong ("invalid signal number or name: " ++ name.toText)
  | ['-', '-'] :: targets => send 15 targets
  | ('-' :: name) :: targets =>
    match signal? name with
    | some n => send n targets
    | none => wrong ("Illegal option -" ++ String.ofList (name.take 1))
  | targets => send 15 targets

/-- Sets variables as arguments tell, and does something with each of their names. -/
def declare (vs : List Value) (x : String → Effect Unit) : Effect Unit := do
  vs.forM fun v => do
    let name := String.ofList (v.takeWhile (· ≠ '='))
    if !Reader.isName name.toList then abort (name ++ ": bad variable name")
    if v.contains '=' then assign name (v.drop (name.length + 1))
    x name
  setStatus 0

def localNames (vs : List Value) : Effect Unit := do
  match (← frame).saved with
  | none => abort "local: not in a function"
  | some _ =>
    vs.forM fun v => do
      let name := String.ofList (v.takeWhile (· ≠ '='))
      let old ← valueOf? name
      modifyFrame fun f => { f with saved := f.saved.map ((name, old) :: ·) }
      if v.contains '=' then assign name (v.drop (name.length + 1))
    setStatus 0

def unset (vs : List Value) : Effect Unit := do
  let functions := vs.head? = some ['-', 'f']
  (vs.filter fun v => v.head? ≠ some '-').forM fun v => do
    let name := String.ofList v
    if functions then
      modifyFrame fun f => { f with functions := f.functions.filter (·.1 ≠ name) }
    else
      if (← frame).fixed.contains name then abort ("unset: " ++ name ++ ": is read only")
      modifyFrame fun f =>
        { f with
          bindings := f.bindings.filter (·.1 ≠ name)
          exported := f.exported.filter (· ≠ name) }
  setStatus 0

/-- Changes the switches of the shell, or its arguments. -/
def set (vs : List Value) : Effect Unit := do
  setStatus 0
  change vs
where
  /-- Goes through the arguments. -/
  change : List Value → Effect Unit
    | [] => return
    | v :: rest => do
      match v with
      | ['-', '-'] => modifyFrame fun f => { f with arguments := rest }
      | '-' :: cs =>
        modifyFrame fun f =>
          { f with strict := (f.strict.1 || cs.contains 'e', f.strict.2 || cs.contains 'u') }
        change (if cs = ['o'] then rest.drop 1 else rest)
      | '+' :: cs =>
        modifyFrame fun f =>
          { f with strict := (f.strict.1 && !cs.contains 'e', f.strict.2 && !cs.contains 'u') }
        change rest
      | _ => modifyFrame fun f => { f with arguments := v :: rest }
  termination_by vs => vs.length
  decreasing_by
    · split
      · simp only [List.length_drop, List.length_cons]
        omega
      · exact Nat.lt_succ_self _
    · exact Nat.lt_succ_self _

/-- The number that an argument gives, or another one if there is no argument. -/
def counted (name : String) (otherwise : Nat) : List Value → Effect Nat
  | [] => return otherwise
  | v :: _ =>
    match Value.count? v with
    | some n => return n
    | none => abort (name ++ ": Illegal number: " ++ v.toText)

def shift (vs : List Value) : Effect Unit := do
  let n ← counted "shift" 1 vs
  let f ← frame
  if f.arguments.length < n then abort "shift: can't shift that many"
  modifyFrame fun f => { f with arguments := f.arguments.drop n, status := 0 }

/-- The status that an argument asks for, or that of the last command. -/
def requested (name : String) (vs : List Value) : Effect Nat := do
  counted name (← frame).status vs

def leave (name : String) (stop : Nat → Stop) (vs : List Value) : Effect Unit := do
  let n ← counted name 1 vs
  if n = 0 then abort (name ++ ": Illegal number: " ++ (vs.headD []).toText)
  setStatus 0
  let loops := (← frame).loops
  if 0 < loops then throw (stop (min n loops))

def trap (vs : List Value) : Effect Unit := do
  match vs with
  | [] => setStatus 0
  | action :: names =>
    let clears := action = ['-'] ∨ (names.isEmpty ∧ (signal? action).isSome)
    let names := if names.isEmpty then [action] else names
    setStatus 0
    names.forM fun name => do
      match signal? name with
      | none =>
        complain ("trap: " ++ name.toText ++ ": bad trap")
        setStatus 1
      | some n =>
        modifyFrame fun f =>
          let others := f.traps.filter (·.1 ≠ n)
          { f with traps := if clears then others else (n, action) :: others }

/-- Gives the fields of a line to variables; what is left goes to the last one. -/
def distribute (separators : Value) : List Value → Value → Effect Unit
  | [], _ => return
  | [name], v => do
    let v := v.dropWhile separators.contains
    assign (String.ofList name) (v.reverse.dropWhile separators.contains).reverse
  | name :: names, v => do
    let v := v.dropWhile fun c => separators.contains c && (c = ' ' || c = '\t' || c = '\n')
    let field := v.takeWhile fun c => !separators.contains c
    assign (String.ofList name) field
    distribute separators names (v.drop (field.length + 1))

/-- A line with the backslashes in it taken away. -/
def withoutBackslashes : Value → Value
  | '\\' :: c :: v => c :: withoutBackslashes v
  | c :: v => c :: withoutBackslashes v
  | [] => []

def read (vs : List Value) : Effect Unit := do
  let raw := vs.head? = some ['-', 'r']
  let names := vs.filter fun v => v.head? ≠ some '-'
  if names.isEmpty then
    complain "read: arg count"
    setStatus 2
  else
    let line ← takeUntil 0 (· = '\n')
    let body := Line.body line
    distribute (Expansion.separators (← frame)) names
      (if raw then body else withoutBackslashes body)
    setStatus (if line.getLast? = some '\n' then 0 else 1)

def names : List String :=
  special ++
    ["[", "test", "echo", "printf", "true", "false", "cd", "pwd", "kill", "read", "local", "wait",
      "umask", "ulimit", "command", "type", "hash", "jobs", "alias"]

/-- What a command name stands for. -/
inductive Meaning where
  | keyword
  | function
  | special
  | builtin
  | file (path : Value)

/-- The meaning of a command name, if it has one. A name with a slash stands for all that is there. -/
def meaning? (name : Value) : Effect (Option Meaning) := do
  let s ← getThe State
  let n := String.ofList name
  if Reader.reserved.contains n then return some .keyword
  if (s.frame.functions.lookup n).isSome then return some .function
  if special.contains n then return some .special
  if names.contains n then return some .builtin
  let isThere := (← find name).isOk
  let path? :=
    if name.contains '/' then if isThere then some name else none
    else Utility.location? s.files s.frame.directory (s.frame.bindings.lookup "PATH") name
  return path?.map .file

/-- Tells what command names stand for, at length or in short. -/
def describe (atLength : Bool) (vs : List Value) : Effect Unit := do
  setStatus 0
  vs.forM fun v => do
    let told (what : String) : Effect Unit :=
      putLine (if atLength then v ++ " is ".toList ++ what.toList else v)
    match ← meaning? v with
    | some .keyword => told "a shell keyword"
    | some .function => told "a shell function"
    | some .special => told "a special shell builtin"
    | some .builtin => told "a shell builtin"
    | some (.file p) => if atLength then putLine (v ++ " is ".toList ++ p) else putLine p
    | none =>
      if atLength then putLine (v ++ ": not found".toList)
      setStatus 127

def exec (e : Evaluator) (vs : List Value) : Effect Unit := do
  match vs with
  | [] => setStatus 0
  | name :: vs =>
    match ← e.program 8 name vs with
    | none => throw .exited
    | some why =>
      complain ("exec: " ++ name.toText ++ ": " ++ why.text)
      Effect.exit why.status

/-- Runs the script in a file. -/
def source (e : Evaluator) (vs : List Value) : Effect Unit := do
  let name :: _ := vs | setStatus 0
  match ← Utility.read name with
  | .error .isDirectory => setStatus 0
  | .ok v =>
    setStatus 0
    tryCatch (e.script v) fun stop =>
      match stop with
      | .returned => return
      | stop => throw stop
  | .error why =>
    abort (".: cannot open " ++ name.toText ++ ": " ++ reason "No such file" why)

def run? (e : Evaluator) (name : String) : Option (List Value → Effect Unit) :=
  match name with
  | ":" | "true" | "times" | "hash" | "wait" | "jobs" | "alias" => some fun _ => setStatus 0
  | "false" => some fun _ => setStatus 1
  | "echo" => some echo
  | "printf" => some printf
  | "test" => some (test false)
  | "[" => some (test true)
  | "cd" => some cd
  | "pwd" => some fun _ => do
    putLine (.ofText (← frame).directory.text)
    setStatus 0
  | "kill" => some (kill e)
  | "export" => some fun vs => declare (vs.filter (· ≠ ['-', 'p'])) publish
  | "readonly" => some fun vs =>
    declare vs fun name => modifyFrame fun f => { f with fixed := name :: f.fixed }
  | "local" => some localNames
  | "unset" => some unset
  | "set" => some set
  | "shift" => some shift
  | "exit" => some fun vs => do Effect.exit (← requested "exit" vs)
  | "return" => some fun vs => do
    setStatus (← requested "return" vs)
    throw .returned
  | "break" => some (leave "break" .broke)
  | "continue" => some (leave "continue" .continued)
  | "trap" => some trap
  | "read" => some read
  | "eval" => some fun vs => do
    setStatus 0
    let v := [' '].intercalate vs
    e.lines "eval: " (v.length + 1) { rest := v }
  | "exec" => some (exec e)
  | "." => some (source e)
  | "umask" => some fun vs => do
    if vs.isEmpty then putLine "0022".toList
    setStatus 0
  | "ulimit" => some fun vs => do
    if vs = [['-', 'c']] then putLine ['0']
    setStatus 0
  | "type" => some (describe true)
  | _ => none

end ScriptFuzz.Shell.Builtin
