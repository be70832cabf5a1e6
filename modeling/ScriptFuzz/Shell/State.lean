import ScriptFuzz.Shell.Syntax

/-!
# The state of a script

What a running script has at hand: the files, which all commands share, open descriptors with a
position in a file, and what belongs to one shell, of which a subshell has a copy. Time passes only
where a script pauses, but for a little that every command takes; at its limit the run ends.
-/

namespace ScriptFuzz.Shell

set_option autoImplicit false

/-- An open file: its number, or nothing for one at which nothing is kept, and the position. -/
structure Opened where
  file : Option Nat
  /-- Whether it is a directory, from which nothing can be read. -/
  isDirectory : Bool := false
  offset : Nat := 0
  /-- Whether all that is written goes to the end. -/
  appends : Bool := false
  /-- Whether it is one of the files without paths that commands pass each other. -/
  passed : Bool := false

/-- What belongs to one shell. -/
structure Frame where
  directory : Path
  /-- The open files by descriptor. -/
  descriptors : List (Nat × Nat) := []
  bindings : List (String × Value) := []
  /-- The variables that commands see. -/
  exported : List String := []
  fixed : List String := []
  functions : List (String × Command) := []
  name : Value := []
  arguments : List Value := []
  /-- How the last command ended. -/
  status : Nat := 0
  line : Nat := 1
  /-- What is done on a signal, or on signal zero at the end. -/
  traps : List (Nat × Value) := []
  /-- Whether the script ends with a command that fails, and whether unset parameters are
  mistakes. -/
  strict : Bool × Bool := (false, false)
  /-- Whether the next failure is only a condition. -/
  tested : Bool := false
  /-- The number by which signals reach the shell; its subshells have the same. -/
  process : Nat := 4242
  /-- The number of loops around the command. -/
  loops : Nat := 0
  /-- The values to go back to at the end of a function; nothing outside of functions. -/
  saved : Option (List (String × Option Value)) := none

structure State where
  files : Files
  opened : Array Opened := #[]
  /-- The time that has passed, and the time at which the run ends. -/
  nanoseconds : Nat := 0
  limit : Nat
  frame : Frame

/-- Why commands that come next are not carried out. -/
inductive Stop where
  | exited
  | returned
  /-- So many loops end. -/
  | broke (levels : Nat)
  /-- The next round of the loop so many levels out begins. -/
  | continued (levels : Nat)
  | killed (signal : Nat)
  | timedOut

/-- A part of a script. -/
abbrev Effect := ExceptT Stop (StateM State)

namespace Effect

def frame : Effect Frame := return (← getThe State).frame

def modifyFrame (f : Frame → Frame) : Effect Unit :=
  modifyThe State fun s => { s with frame := f s.frame }

/-- Lets time pass. -/
def spend (nanoseconds : Nat) : Effect Unit := do
  let s ← getThe State
  let now := s.nanoseconds + nanoseconds
  set { s with nanoseconds := min now s.limit }
  if s.limit ≤ now then throw .timedOut

def commandTime : Nat := 2000

/-! ## Files -/

def find (name : Value) : Effect (Except FileError (Path × Node)) := do
  let s ← getThe State
  return s.files.find s.frame.directory name.toText

/-- Changes the files, as seen from a directory. -/
def change {α : Type} (x : Path → Files.Change α) : Effect (Except FileError α) := do
  let s ← getThe State
  let (a, files) := (x s.frame.directory).run.run s.files
  set { s with files }
  return a

/-- Keeps an open file; gives its place among all. -/
def keepOpen (o : Opened) : Effect Nat := do
  let s ← getThe State
  set { s with opened := s.opened.push o }
  return s.opened.size

/-- Makes a descriptor stand for an open file. -/
def bind (descriptor place : Nat) : Effect Unit :=
  modifyFrame fun f =>
    { f with descriptors := (descriptor, place) :: f.descriptors.filter (·.1 ≠ descriptor) }

def openAt (descriptor : Nat) (o : Opened) : Effect Unit := do bind descriptor (← keepOpen o)

/-- Makes a descriptor stand for the same open file as another one; tells whether there is one. -/
def duplicate (descriptor source : Nat) : Effect Bool := do
  match (← frame).descriptors.lookup source with
  | none => return false
  | some place =>
    bind descriptor place
    return true

def close (descriptor : Nat) : Effect Unit :=
  modifyFrame fun f => { f with descriptors := f.descriptors.filter (·.1 ≠ descriptor) }

/-- What a file is opened for. -/
inductive Access where
  | read
  | write
  | append
deriving DecidableEq

/-- The descriptor that a device stands for. -/
def stream? : String → Option Nat
  | "stdin" => some 0
  | "stdout" => some 1
  | "stderr" => some 2
  | _ => none

/-- Opens what a descriptor stands for once more, from its start. What commands pass each other has
no start to go back to. -/
def openStream (access : Access) (descriptor : Nat) : Effect (Except FileError Nat) := do
  let s ← getThe State
  match (s.frame.descriptors.lookup descriptor).bind fun n => (s.opened[n]?).map (n, ·) with
  | none => return .error .missing
  | some (place, o) =>
    if o.passed then return .ok place
    if let (.write, some n) := (access, o.file) then
      set { s with files := s.files.setContent n [] }
    return .ok (← keepOpen { file := o.file, appends := access = .append })

/-- Opens the file that a name leads to; gives its place among all open files. -/
def openNamed (access : Access) (name : Value) : Effect (Except FileError Nat) := do
  match access, ← find name with
  | _, .ok (_, .device device) =>
    match stream? device with
    | some descriptor => openStream access descriptor
    | none => return .ok (← keepOpen { file := none })
  | .read, .ok (_, .file n) => return .ok (← keepOpen { file := some n })
  | .read, .ok (_, .program) => return .ok (← keepOpen { file := none })
  | .read, .ok (_, .directory) => return .error .isDirectory
  | .read, .error e => return .error e
  | _, _ =>
    match ← change fun directory => Files.create directory name.toText with
    | .error e => return .error e
    | .ok n =>
      if let (.write, some n) := (access, n) then
        modifyThe State fun s => { s with files := s.files.setContent n [] }
      return .ok (← keepOpen { file := n, appends := access = .append })

def writeOpen (place : Nat) (v : Value) : Effect Unit := do
  let s ← getThe State
  if let some o := s.opened[place]? then
    if let some number := o.file then
      let old := s.files.content number
      let start := if o.appends then old.length else o.offset
      let files := s.files.setContent number (Files.overwrite old start v.toBytes)
      let o := { o with offset := start + v.length }
      set { s with files, opened := s.opened.setIfInBounds place o }

/-- Takes what is left of an open file, up to the first character of which `last` holds. -/
def takeOpen (place : Nat) (last : Char → Bool) : Effect Value := do
  let s ← getThe State
  match (s.opened[place]?).bind fun o => o.file.map (o, ·) with
  | none => return []
  | some (o, number) =>
    let left := Value.ofBytes ((s.files.content number).drop o.offset)
    let taken := left.takeWhile fun c => !last c
    let taken := taken ++ (left.drop taken.length).take 1
    let o := { o with offset := o.offset + taken.length }
    set { s with opened := s.opened.setIfInBounds place o }
    return taken

/-- Writes at a descriptor; tells whether it is open. -/
def write (descriptor : Nat) (v : Value) : Effect Bool := do
  match (← frame).descriptors.lookup descriptor with
  | none => return false
  | some place =>
    writeOpen place v
    return true

def put (v : Value) : Effect Unit := do
  let _ ← write 1 v

/-- Writes a line to the output. -/
def putLine (v : Value) : Effect Unit := put (v ++ ['\n'])

/-- Takes what is left at a descriptor, up to the first character of which `last` holds. -/
def takeUntil (descriptor : Nat) (last : Char → Bool) : Effect Value := do
  match (← frame).descriptors.lookup descriptor with
  | none => return []
  | some place => takeOpen place last

def readsDirectory : Effect Bool := do
  let s ← getThe State
  return ((s.frame.descriptors.lookup 0).bind fun n => s.opened[n]?).any (·.isDirectory)

def input : Effect Value := takeUntil 0 fun _ => false

/-- A new file without a path that holds a value, opened at a descriptor. -/
def openValue (descriptor : Nat) (v : Value) : Effect Nat := do
  let s ← getThe State
  let (number, files) := s.files.keep v.toBytes
  set { s with files }
  openAt descriptor { file := some number, passed := true }
  return number

/-! ## Messages -/

/-- Writes a message about the script to the error output. -/
def complain (message : String) : Effect Unit := do
  let f ← frame
  let start := f.name ++ ": ".toList ++ Value.ofNat f.line ++ ": ".toList
  let _ ← write 2 (start ++ Value.ofText message ++ ['\n'])

/-- Writes a message of a utility to the error output. -/
def report (utility message : String) : Effect Unit := do
  let _ ← write 2 (Value.ofText (utility ++ ": " ++ message ++ "\n"))

/-- The number of statuses that a process can end with. -/
def statuses : Nat := 256

/-- Ends the shell with a status. -/
def exit {α : Type} (status : Nat) : Effect α := do
  modifyFrame fun f => { f with status }
  throw .exited

/-- Ends the shell with a message. -/
def abort {α : Type} (message : String) : Effect α := do
  complain message
  exit 2

/-! ## Variables -/

def valueOf? (name : String) : Effect (Option Value) := return (← frame).bindings.lookup name

def assign (name : String) (v : Value) : Effect Unit := do
  if (← frame).fixed.contains name then abort (name ++ ": is read only")
  modifyFrame fun f => { f with bindings := Ordered.put name v f.bindings }

/-- Makes a variable one that commands see. -/
def publish (name : String) : Effect Unit :=
  modifyFrame fun f => { f with exported := Ordered.insert name f.exported }

/-! ## Signals -/

/-- The names of the signals by number, from one. -/
def signalNames : List String :=
  ["HUP", "INT", "QUIT", "ILL", "TRAP", "ABRT", "BUS", "FPE", "KILL", "USR1", "SEGV", "USR2",
    "PIPE", "ALRM", "TERM", "16", "CHLD", "CONT", "STOP", "TSTP", "TTIN", "TTOU", "URG",
    "XCPU", "XFSZ", "VTALRM", "PROF", "WINCH", "IO", "PWR", "SYS"]

/-- The number of a signal by its number or its name; zero is no signal but may be asked for. -/
def signal? (v : Value) : Option Nat :=
  match v.nat? with
  | some n => if n ≤ 64 then some n else none
  | none =>
    let name := (String.ofList v).toUpper
    if name = "EXIT" then some 0
    else (signalNames.idxOf? name).map (· + 1)

/-- Whether a signal does nothing unless it is caught. -/
def isHarmless (signal : Nat) : Bool := [0, 17, 18, 23, 28].contains signal

/-- Whether a signal makes the script wait for ever unless it is caught. -/
def isHalting (signal : Nat) : Bool := [19, 20, 21, 22].contains signal

/-- Runs an action in a copy of the shell; its status is how the action ended. -/
def inSubshell (x : Effect Unit) : Effect Nat := do
  let outer ← frame
  modifyFrame fun f => { f with traps := f.traps.filter (·.2.isEmpty) }
  let ended : Option Stop ← tryCatch (x *> pure none) fun e => return some e
  let status := (← frame).status
  modifyFrame fun _ => outer
  match ended with
  | some .timedOut => throw .timedOut
  | some (.killed n) => throw (.killed n)
  | _ => return status % statuses

end Effect

end ScriptFuzz.Shell
