import ScriptFuzz.Shell.Expansion
import ScriptFuzz.Shell.Reader
import ScriptFuzz.Shell.Utility

/-!
# Running scripts

What commands do. Each part of the evaluator is given the means to run the commands inside of it,
and `Evaluator.level` closes the circle to any depth; a script that goes deeper, or round its loops for
longer, is one that does not end in time.
-/

namespace ScriptFuzz.Shell

set_option autoImplicit false

/-! ## What `test` asks about texts, numbers and files -/

namespace Condition

/-- A question about files or texts that one operand answers. -/
def unary? (files : Files) (directory : Path) (operator : String) : Option (Value → Bool) :=
  let node (holds : Node → Bool) : Option (Value → Bool) :=
    some fun v =>
      match files.find directory v.toText with
      | .ok (_, n) => holds n
      | .error _ => false
  match operator with
  | "-n" => some fun v => v ≠ []
  | "-z" => some fun v => v = []
  | "-e" | "-r" | "-w" | "-O" | "-G" => node fun _ => true
  | "-f" => node fun n =>
    match n with
    | .file _ | .program => true
    | _ => false
  | "-d" => node (· = .directory)
  | "-x" => node fun n => n = .directory || n = .program
  | "-s" => node fun n =>
    match n with
    | .file n => files.content n ≠ []
    | .directory | .program => true
    | .device _ => false
  | "-c" => node fun n =>
    match n with
    | .device _ => true
    | _ => false
  | "-h" | "-L" | "-p" | "-S" | "-b" | "-g" | "-u" | "-k" | "-t" => some fun _ => false
  | _ => none

/-- The number that an operand denotes. -/
def number (v : Value) : Except String Int :=
  match Value.integer? v with
  | some n => .ok n
  | none => .error ("Illegal number: " ++ v.toText)

/-- A comparison of two operands. -/
def binary? (operator : String) : Option (Value → Value → Except String Bool) :=
  let compare (holds : Int → Int → Bool) : Option (Value → Value → Except String Bool) :=
    some fun v w => do return holds (← number v) (← number w)
  match operator with
  | "=" | "==" => some fun v w => .ok (v = w)
  | "!=" => some fun v w => .ok (v ≠ w)
  | "<" => some fun v w => .ok (v < w)
  | ">" => some fun v w => .ok (w < v)
  | "-eq" => compare fun a b => a = b
  | "-ne" => compare fun a b => a ≠ b
  | "-lt" => compare fun a b => a < b
  | "-le" => compare fun a b => a ≤ b
  | "-gt" => compare fun a b => b < a
  | "-ge" => compare fun a b => b ≤ a
  | "-nt" | "-ot" | "-ef" => some fun _ _ => .ok false
  | _ => none

mutual

/-- A condition at the front of arguments, whose parts the operator `-o` connects. -/
def disjunction (unary : String → Option (Value → Bool)) :
    Nat → List Value → Except String (Bool × List Value)
  | 0, _ => .error "argument expected"
  | fuel + 1, vs => do
    let (b, rest) ← conjunction unary fuel vs
    match rest with
    | ['-', 'o'] :: rest =>
      let (c, rest) ← disjunction unary fuel rest
      return (b || c, rest)
    | _ => return (b, rest)

/-- A condition whose parts the operator `-a` connects. -/
def conjunction (unary : String → Option (Value → Bool)) :
    Nat → List Value → Except String (Bool × List Value)
  | 0, _ => .error "argument expected"
  | fuel + 1, vs => do
    let (b, rest) ← primary unary fuel vs
    match rest with
    | ['-', 'a'] :: rest =>
      let (c, rest) ← conjunction unary fuel rest
      return (b && c, rest)
    | _ => return (b, rest)

def primary (unary : String → Option (Value → Bool)) :
    Nat → List Value → Except String (Bool × List Value)
  | 0, _ => .error "argument expected"
  | fuel + 1, vs =>
    let comparison? :=
      match vs with
      | a :: o :: b :: rest => (binary? o.toText).map fun holds => (holds a b, rest)
      | _ => none
    match comparison?, vs with
    | some (b, rest), _ => do return (← b, rest)
    | none, ['!'] :: v :: rest => do
      let (b, rest) ← primary unary fuel (v :: rest)
      return (!b, rest)
    | none, ['('] :: v :: rest => do
      let (b, rest) ← disjunction unary fuel (v :: rest)
      match rest with
      | [')'] :: rest => return (b, rest)
      | _ => .error "closing paren expected"
    | none, o :: v :: rest =>
      match unary o.toText with
      | some holds => .ok (holds v, rest)
      | none => .ok (o ≠ [], v :: rest)
    | none, [v] => .ok (v ≠ [], [])
    | none, [] => .error "argument expected"

end

/-- Whether the condition that arguments state holds. -/
def holds (files : Files) (directory : Path) (vs : List Value) : Except String Bool := do
  if vs.isEmpty then return false
  match ← disjunction (unary? files directory) (4 * vs.length + 4) vs with
  | (b, []) => return b
  | (_, _ :: rest) =>
    let place := vs.length - rest.length - 2
    .error ((vs[place]?.getD []).toText ++ ": unexpected operator")

end Condition

/-! ## Commands -/

open Effect

/-- The means to run what is inside of a command. -/
structure Evaluator where
  run : Command → Effect Unit
  expand : Word → Effect (List Expansion.Chunk)

namespace Evaluator

def setStatus (n : Nat) : Effect Unit := modifyFrame fun f => { f with status := n }

def all (e : Evaluator) (cs : List Command) : Effect Unit := cs.forM e.run

/-- What commands write, without the ends of lines at its end. -/
def output (e : Evaluator) (cs : List Command) : Effect Value := do
  let number := (← getThe State).files.contents.size
  let status ← inSubshell do
    let _ ← openValue 1 []
    setStatus 0
    e.all cs
  setStatus status
  let v := Value.ofBytes ((← getThe State).files.content number)
  return Value.withoutFinalLines (v.filter (· ≠ '\x00'))

def means (e : Evaluator) : Expansion.Means := { expand := e.expand, output := e.output }

def text (e : Evaluator) (w : Word) : Effect Value := Expansion.text e.means w

/-- Restores the descriptors after an action, however it ends. -/
def keepingDescriptors {α : Type} (x : Effect α) : Effect α := do
  let descriptors := (← frame).descriptors
  let restore := modifyFrame fun f => { f with descriptors }
  let a ← tryCatch x fun stop => do
    restore
    throw stop
  restore
  return a

/-- Runs commands of which a failure is no reason to end the script. -/
def asCondition (x : Effect Unit) : Effect Bool := do
  let tested := (← frame).tested
  modifyFrame fun f => { f with tested := true }
  let restore := modifyFrame fun f => { f with tested }
  tryCatch x fun stop => do
    restore
    throw stop
  restore
  return (← frame).status = 0

/-- Ends the script after a failure if it is to end with one. -/
def checkFailure : Effect Unit := do
  let f ← frame
  if f.strict.1 && f.status ≠ 0 && !f.tested then exit f.status

/-! ## Redirections -/

/-- Why a file was not opened; `lost` are the words for a way that leads nowhere. -/
def reason (lost : String) (why : FileError) : String :=
  if why = .missing ∨ why = .notDirectory then lost else why.text

/-- Carries out a redirection; gives the reason if that is not possible. -/
def redirect (e : Evaluator) : Redirection → Effect (Option String)
  | .mk descriptor opening target => do
    let v ← e.text target
    let opened (access : Access) (verb lost : String) : Effect (Option String) := do
      match ← openNamed access v with
      | .ok place =>
        bind descriptor place
        return none
      | .error why => return some ("cannot " ++ verb ++ " " ++ v.toText ++ ": " ++ reason lost why)
    match opening with
    | .read =>
      if let .ok (_, .directory) ← find v then
        openAt descriptor { file := none, isDirectory := true }
        return none
      opened .read "open" "No such file"
    | .write => opened .write "create" "Directory nonexistent"
    | .append => opened .append "create" "Directory nonexistent"
    | .duplicate =>
      if v = ['-'] then
        close descriptor
        return none
      match if v.length = 1 then Value.nat? v else none with
      | some n =>
        if ← duplicate descriptor n then return none
        return some (v.toText ++ ": Bad file descriptor")
      | none => abort "Syntax error: Bad fd number"
    | .here =>
      let _ ← openValue descriptor v
      return none

/-- Carries out redirections up to the first that is not possible; tells whether there is none. -/
def redirectAll (e : Evaluator) : List Redirection → Effect Bool
  | [] => return true
  | r :: rs => do
    match ← redirect e r with
    | none => redirectAll e rs
    | some why =>
      complain why
      return false

/-! ## Loops -/

/-- Runs the body of a loop once; tells whether the loop goes on. -/
def round (x : Effect Unit) : Effect Bool :=
  tryCatch (x *> pure true) fun stop =>
    match stop with
    | .broke 1 => return false
    | .broke (n + 1) => throw (.broke n)
    | .continued 1 => return true
    | .continued (n + 1) => throw (.continued n)
    | stop => throw stop

/-- Repeats an action as long as it tells to go on. -/
def repeated : Nat → Effect Bool → Effect Unit
  | 0, _ => throw .timedOut
  | n + 1, x => do
    spend commandTime
    if ← x then repeated n x

/-- The number of rounds that no loop has the time for. -/
def endless : Nat := 1000000000

/-- Runs an action as the body of one more loop. -/
def inLoop (x : Effect Unit) : Effect Unit := do
  let loops := (← frame).loops
  modifyFrame fun f => { f with loops := loops + 1 }
  x
  modifyFrame fun f => { f with loops }

/-! ## Scripts inside of scripts -/

/-- Runs the lines of a source; messages about the lines come from `speaker`. -/
def lines (e : Evaluator) (speaker : String) : Nat → Source → Effect Unit
  | 0, _ => return
  | n + 1, s => do
    match Reader.line?.run s with
    | .ok (none, _) => return
    | .ok (some cs, rest) =>
      e.all cs
      lines e speaker n rest
    | .error err =>
      modifyFrame fun f => { f with line := err.line }
      abort (speaker ++ "Syntax error: " ++ err.mistake.text)

/-- Runs a text as a script. -/
def script (e : Evaluator) (v : Value) : Effect Unit := lines e "" (v.length + 1) { rest := v }

/-- Sends a signal to the script itself. -/
def signal (e : Evaluator) (n : Nat) : Effect Unit := do
  let traps := (← frame).traps
  match if n = 9 ∨ n = 19 then none else traps.lookup n with
  | some [] => return
  | some action =>
    let status := (← frame).status
    e.script action
    setStatus status
  | none =>
    if isHalting n then throw .timedOut
    if !isHarmless n then throw (.killed n)

/-- What is written about a program that a signal ended. -/
def epitaphs : List (Nat × String) :=
  [(1, "Hangup"), (3, "Quit"), (4, "Illegal instruction"), (5, "Trace/breakpoint trap"),
    (6, "Aborted"), (7, "Bus error"), (8, "Floating point exception"), (9, "Killed"),
    (10, "User defined signal 1"), (11, "Segmentation fault"), (12, "User defined signal 2"),
    (14, "Alarm clock"), (15, "Terminated")]

/-- Runs what is done at the end of a shell. -/
def farewell (e : Evaluator) : Effect Unit := do
  let f ← frame
  match f.traps.lookup 0 with
  | none => return
  | some action =>
    modifyFrame fun f => { f with traps := f.traps.filter (·.1 ≠ 0) }
    e.script action
    setStatus f.status

/-- Runs an action as a whole shell, which ends where the action ends or gives up; signals and the
limit of time end it from outside. -/
def whole (e : Evaluator) (x : Effect Unit) : Effect Unit := do
  let guarded (x : Effect Unit) : Effect Unit :=
    tryCatch x fun stop =>
      match stop with
      | .killed n => throw (.killed n)
      | .timedOut => throw .timedOut
      | _ => return
  guarded x
  guarded e.farewell

/-- Runs a shell with arguments in the place of the current one. -/
def shell (e : Evaluator) (name : Value) (vs : List Value) : Effect Unit := do
  let flags (v : Value) : Bool :=
    match v with
    | '-' :: c :: cs => (c :: cs).all fun c => "ceux".contains c
    | _ => false
  let switches := vs.takeWhile flags
  let operands := vs.drop switches.length
  let has (c : Char) : Bool := switches.any (·.contains c)
  modifyFrame fun f =>
    { f with
      bindings := f.bindings.filter fun (n, _) => f.exported.contains n
      fixed := [], functions := [], line := 1, status := 0, tested := false, loops := 0
      saved := none, strict := (has 'e', has 'u'), traps := f.traps.filter (·.2.isEmpty) }
  let start (name : Value) (vs : List Value) (source : Value) : Effect Unit := do
    modifyFrame fun f => { f with name, arguments := vs }
    e.whole (e.script source)
  match has 'c', operands with
  | true, source :: rest => start (rest.headD name) (rest.drop 1) source
  | true, [] =>
    modifyFrame fun f => { f with name, line := 0 }
    complain "-c requires an argument"
    setStatus 2
  | false, [] => start name [] (← input)
  | false, file :: rest =>
    match ← Utility.read file with
    | .ok source => start file rest source
    | .error .isDirectory => start file rest []
    | .error why =>
      modifyFrame fun f => { f with name, line := 0 }
      complain ("cannot open " ++ file.toText ++ ": " ++ reason "No such file" why)
      setStatus 2

/-! ## Programs -/

/-- The number of bytes that one argument of a program must not have. -/
def longestArgument : Nat := 0x20000

/-- Why a program does not run. -/
inductive Refusal where
  | notFound
  | denied
  | overloaded
  | unreachable (why : FileError)
deriving DecidableEq

namespace Refusal

def text : Refusal → String
  | notFound => "not found"
  | denied => "Permission denied"
  | overloaded => "Argument list too long"
  | unreachable why => why.text

/-- The status of a command that does not run. -/
def status : Refusal → Nat
  | notFound | unreachable _ => 127
  | denied | overloaded => 126

end Refusal

/-- Runs a program in the place of the shell; tells why there is none. -/
def program (e : Evaluator) : Nat → Value → List Value → Effect (Option Refusal)
  | 0, _, _ => return some .overloaded
  | depth + 1, name, vs => do
    let s ← getThe State
    let searchPath := s.frame.bindings.lookup "PATH"
    let isLong (v : Value) : Bool := longestArgument ≤ v.length
    if vs.any isLong then return some .overloaded
    match Utility.program s.files s.frame.directory searchPath name with
    | .utility run =>
      setStatus (← run vs)
      return none
    | .shell =>
      e.shell name vs
      return none
    | .env =>
      let isSetting (v : Value) : Bool := v.contains '='
      let settings := vs.takeWhile isSetting
      for v in settings do
        let name := String.ofList (v.takeWhile (· ≠ '='))
        assign name (v.drop (name.length + 1))
        publish name
      match vs.drop settings.length with
      | [] =>
        setStatus 0
        return none
      | name :: vs =>
        match ← program e depth name vs with
        | none => return none
        | some why =>
          Effect.report "env" (Utility.quoted name ++ ": " ++
            if why = .notFound then FileError.missing.text else why.text)
          setStatus why.status
          return none
    | .notFound => return some .notFound
    | .notExecutable => return some .denied
    | .unreachable why => return some (.unreachable why)

/-- Runs a program beside the shell, which looks for it before it starts anything. -/
def spawned (e : Evaluator) (name : Value) (vs : List Value) : Effect Unit := do
  let outer ← frame
  let problem ← do
    modifyFrame fun f => { f with process := f.process + 1 }
    tryCatch (program e 8 name vs) fun stop =>
      match stop with
      | .killed n => do
        setStatus (128 + n)
        modifyFrame fun f => { f with descriptors := outer.descriptors }
        if let some text := epitaphs.lookup n then
          let _ ← write 2 (text ++ "\n").toList
        return none
      | stop => throw stop
  let status := (← frame).status % statuses
  modifyFrame fun _ => { outer with status }
  if let some why := problem then
    complain (name.toText ++ ": " ++ why.text)
    setStatus (if why = .denied ∧ !name.contains '/' then Refusal.notFound.status else why.status)

end Evaluator

end ScriptFuzz.Shell
