import ScriptFuzz.Event
import ScriptFuzz.Program.Json
import ScriptFuzz.Workbench

/-!
# Reports

What a run leaves for its reader: every crash as a script that runs as it is and a JSON account of
it, and every interesting program as a file that a later run can start from.
-/

namespace ScriptFuzz

set_option autoImplicit false

/-- What could not be done, with the text of the path that it was about. -/
inductive ReportError where
  | create (path : String)
  | installHook
  | write (path : String)
deriving DecidableEq, Repr

def ReportError.text : ReportError → String
  | create path => "creating " ++ path
  | installHook => "installing hook next to crash reproducers"
  | write path => "writing " ++ path

/-- A directory of crashes and interesting programs. -/
structure Report where
  site : Site
  root : String

/-- An operation on a report. What was written before an error stays. -/
abbrev Reporting := ExceptT ReportError (StateM Files)

namespace Report

def crashes (r : Report) : String := Path.join r.root "crashes"

/-- The directory of interesting programs. -/
def corpus (r : Report) : String := Path.join r.root "corpus"

def orFail {α : Type} (error : ReportError) (x : Files.Change α) : Reporting α := do
  match ← (x.run : StateM Files _) with
  | .ok a => return a
  | .error _ => throw error

/-- Makes the directories. The hook module is put beside the crashes, so that their scripts find
it. -/
def setUp (site : Site) (root : String) : Reporting Report := do
  let r : Report := { site, root }
  for directory in [r.crashes, r.corpus] do
    orFail (.create directory) (Files.makeDirectories site.directory directory)
  orFail .installHook
    (Files.writeText site.directory (Path.join r.crashes Workbench.hookName) Hook.source)
  return r

def write (r : Report) (path text : String) : Reporting Unit :=
  orFail (.write path) (Files.writeText r.site.directory path text)

/-- The account of a crash; `found` is the time at which it was found. -/
def account (p : Program) (e : Execution) (found : String) : Json :=
  .ofFields
    [("found_at", .ofText found), ("source", .ofText (Hook.script p)), ("program", p.toJson),
      ("execution", e.toJson)]

/-- Writes the script and the account of a crash; gives the path of the script. -/
def crash (r : Report) (p : Program) (e : Execution) (found : String) : Reporting String := do
  let stem := Path.join r.crashes ("crash-" ++ p.id.text)
  r.write (stem ++ ".py") (Hook.script p)
  r.write (stem ++ ".json") (account p e found).pretty
  return stem ++ ".py"

/-- Writes an interesting program; gives the path of its file. -/
def interesting (r : Report) (p : Program) : Reporting String := do
  let path := Path.join r.corpus (p.id.text ++ ".json")
  r.write path p.toJson.pretty
  return path

/-- Writes what an event calls for, as far as that is possible. -/
def observe (r : Report) (found : String) : Event → StateM Files Unit
  | .crash p e => do let _ ← (r.crash p e found).run
  | .interesting p _ => do let _ ← (r.interesting p).run
  | .generated _ | .valid _ | .invalid _ | .timedOut _ | .reset _ => return

end Report

end ScriptFuzz
