import ScriptFuzz.Executor
import ScriptFuzz.Failure
import ScriptFuzz.Hook
import ScriptFuzz.Hook.Source
import ScriptFuzz.Launch
import ScriptFuzz.Settings.Basic

/-!
# Workbenches

A workbench is a directory in which the target runs one program after the other. The directory holds
the hook module, the script of the latest program, and what the target wrote while it ran the
script. A directory that the settings name is kept; a temporary one goes away with the workbench.
-/

namespace ScriptFuzz

set_option autoImplicit false

/-- Where a run takes place. -/
structure Site where
  directory : Path := []
  /-- The variables that started programs inherit. -/
  environment : List (String × String) := []
  launcher : Launcher := fun _ _ => none
deriving Inhabited

/-- A directory for the runs of a target. -/
structure Workbench where
  site : Site
  target : TargetSettings
  /-- The source of the hook module. -/
  hook : String
  directory : String
  isTemporary : Bool

namespace Workbench

/-- The names of the script and of the files that the target fills. -/
def scriptName : String := "program.py"
def outputName : String := "stdout.txt"
def messagesName : String := "stderr.txt"
def sideChannelName : String := "fuzzout.txt"

def hookName : String := Hook.moduleName ++ ".py"

def sideChannelVariable : String := "fuzzout"

def fileText (w : Workbench) (name : String) : String := Path.join w.directory name

/-- Writes the hook module into the directory. -/
def installHook (w : Workbench) : Files.Change Unit :=
  Files.writeText w.site.directory (w.fileText hookName) w.hook

def orFail {α : Type} (detail : String) (x : Files.Change α) :
    ExceptT Failure (StateM Files) α := do
  match ← (x.run : StateM Files _) with
  | .ok a => return a
  | .error _ => throw { kind := .io, detail }

/-- Makes a workbench. The text `temporary` names its directory if the settings name none. -/
def setUp (site : Site) (target : TargetSettings) (temporary : String) :
    ExceptT Failure (StateM Files) Workbench := do
  let directory := target.workDirectory.getD temporary
  orFail ("cannot create " ++ directory) (Files.makeDirectories site.directory directory)
  let hook ←
    match target.hookScript with
    | none => pure Hook.source
    | some name =>
      match (← getThe Files).readText? site.directory name with
      | some text => pure text
      | none => throw { kind := .io, detail := "cannot read " ++ name }
  let w : Workbench :=
    { site, target, hook, directory, isTemporary := target.workDirectory.isNone }
  orFail ("cannot write " ++ w.fileText hookName) w.installHook
  return w

/-- The variables that the target sees; those of the settings come last. -/
def environment (w : Workbench) : List (String × String) :=
  Ordered.ofPairs
    (w.site.environment ++
      [("PYTHONPATH", w.directory), ("PYTHONDONTWRITEBYTECODE", "1"),
        (sideChannelVariable, w.fileText sideChannelName)] ++
      w.target.environment)

/-- How the target is started on the script in a directory, with files for what it writes. -/
def launch (w : Workbench) (directory : Path) (output messages : Option Nat) (milliseconds : Nat) :
    Launch :=
  { program := w.target.interpreter
    arguments := w.target.arguments ++ [w.fileText scriptName]
    directory
    environment := w.environment
    output
    messages
    milliseconds }

/-- What a file in the directory holds; nothing if it is missing. -/
def held (w : Workbench) (files : Files) (name : String) : String :=
  match files.read w.site.directory (w.fileText name) with
  | .ok b => String.ofList (Text.Utf8.decodeLossy b)
  | .error _ => ""

/-- The execution of a target that did not start. -/
def notStarted : Execution := { outcome := .failed (-1), stderr := "failed to run interpreter:" }

/-- An empty file in the directory. -/
def emptied (w : Workbench) (name : String) : Files.Change (Option Nat) := do
  let number? ← Files.create w.site.directory (w.fileText name)
  if let some n := number? then modifyThe Files (·.setContent n [])
  return number?

/-- Runs the target on a script, if the files for it can be written, the directory can be entered and
the target starts. -/
def run? (w : Workbench) (script : String) (milliseconds : Nat) : Files.Change Execution := do
  Files.writeText w.site.directory (w.fileText scriptName) script
  let output ← w.emptied outputName
  let messages ← w.emptied messagesName
  let _ ← w.emptied sideChannelName
  let files ← getThe Files
  let directory ← liftExcept (files.findDirectory w.site.directory w.directory)
  let some launched := w.site.launcher (w.launch directory output messages milliseconds) files
    | throw .missing
  let files := launched.files
  set files
  return {
    outcome := launched.outcome
    stdout := w.held files outputName
    stderr := w.held files messagesName
    fuzzout := w.held files sideChannelName
    nanoseconds := launched.nanoseconds }

/-- The execution of a program, for at most the given number of milliseconds. -/
def execute (w : Workbench) (p : Program) (milliseconds : Nat) : StateM Files Execution := do
  match ← (w.run? (Hook.script p) milliseconds).run with
  | .ok e => return e
  | .error _ => return notStarted

/-- Writes the hook module again, if that is possible. -/
def reset (w : Workbench) : StateM Files Unit := do
  let _ ← w.installHook.run

/-- Takes a temporary directory away. -/
def tearDown (w : Workbench) : StateM Files Unit := do
  if w.isTemporary then
    let _ ← ((Files.removeDirectory w.site.directory w.directory).run : StateM Files _)

def executor (w : Workbench) : Executor Files where
  execute p milliseconds := ExceptT.lift (w.execute p milliseconds)
  reset := w.reset

end Workbench

end ScriptFuzz
