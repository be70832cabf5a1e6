import ScriptFuzz.Execution
import ScriptFuzz.Files

/-!
# Launches

A launch starts a program on files. What it tells is how the program ended and how long it took; what the
program wrote is in the files. Which programs there are, and what they do, is up to a launcher.
-/

namespace ScriptFuzz

set_option autoImplicit false

/-- A program that is to be started. Its input is empty. -/
structure Launch where
  program : String
  arguments : List String
  directory : Path
  /-- The variables that the program sees, in ascending order. -/
  environment : List (String × String)
  /-- The files for the output and for messages; nothing for one that keeps nothing. -/
  output : Option Nat
  messages : Option Nat
  /-- The time after which the program is ended. -/
  milliseconds : Nat

/-- What became of a launch. -/
structure Launched where
  outcome : Outcome
  nanoseconds : Nat
  files : Files

/-- Starts programs; nothing comes of a program that there is not. -/
abbrev Launcher := Launch → Files → Option Launched

end ScriptFuzz
