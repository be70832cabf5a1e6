import ScriptFuzz.CommandLine.Invocation
import ScriptFuzz.Json.Reader

/-!
# Exchanges

The program does not touch the files of the machine it runs on. It is told about files in a line of
JSON, and answers with a line that holds the files as they are in the end.
-/

namespace ScriptFuzz.CommandLine

set_option autoImplicit false

/-- What the program is told. -/
structure Exchange where
  /-- The texts of the files by path. -/
  files : List (String × String) := []
  time : String := ""
deriving DecidableEq, Repr

namespace Exchange

def directory : Path := ["work"]

/-- What a line tells; an empty line tells nothing. -/
def read? (line : String) : Option Exchange := do
  if line.trimAscii.isEmpty then return {}
  let fields ← (← Json.read? line).record? ["files", "time"]
  return {
    files := (← Json.optional? fields "files" (Json.map? Json.text?)).getD []
    time := (← Json.optional? fields "time" Json.text?).getD "" }

def answer (e : Ending) (files : Files) : Json :=
  .ofFields
    [("corpus", .ofNat? e.corpus),
      ("statistics", .ofFields (e.statistics.map fun (name, t) => (name, .ofFields t.fields))),
      ("files", .ofFields ((files.textsBelow directory).map fun (p, s) => (p, .ofText s)))]

/-- The end of an invocation on the files of an exchange, and the answer. -/
def run (x : Exchange) (launcher : Launcher) (arguments : List String)
    (environment : List (String × String)) : Ending × Json :=
  let i : Invocation := { arguments, site := { directory, environment, launcher }, time := x.time }
  let (e, files) := i.run.run (Files.ofTexts directory x.files)
  (e, answer e files)

end Exchange

end ScriptFuzz.CommandLine
