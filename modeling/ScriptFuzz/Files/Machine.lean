import ScriptFuzz.Files.Path

/-!
# The files of the machine

The part of the tree that is there before any file is written, as far as scripts and settings have
to do with it. It stays as it is.
-/

namespace ScriptFuzz.Machine

set_option autoImplicit false

/-- The directories that are links to those of the same name in `usr`. -/
def linked : List String := ["bin", "lib", "sbin"]

/-- The path without links. -/
def physical : Path → Path
  | [] => []
  | name :: rest => if linked.contains name then "usr" :: name :: rest else name :: rest

def directories : List Path :=
  [["boot"], ["dev"], ["etc"], ["home"], ["media"], ["mnt"], ["opt"], ["proc"], ["root"], ["run"],
    ["srv"], ["sys"], ["tmp"], ["usr"], ["var"], ["usr", "bin"], ["usr", "games"],
    ["usr", "include"], ["usr", "lib"], ["usr", "local"], ["usr", "sbin"], ["usr", "share"],
    ["usr", "local", "bin"], ["usr", "local", "lib"], ["usr", "local", "sbin"], ["var", "lib"],
    ["var", "log"], ["var", "tmp"]]

/-- The files in `dev`. -/
def devices : List String := ["null", "zero", "full", "stdin", "stdout", "stderr"]

/-- The programs in `usr/bin`. -/
def programs : List String :=
  ["sh", "dash", "env", "cat", "ls", "mkdir", "rmdir", "rm", "touch", "cp", "mv", "chmod", "tee",
    "wc", "tr", "head", "tail", "grep", "sort", "uniq", "cut", "seq", "basename", "dirname",
    "sleep", "printenv", "true", "false", "echo", "printf"]

/-- What the machine has at a path without links. -/
def node? : Path → Option Node
  | ["usr", "bin", name] => if programs.contains name then some .program else none
  | ["dev", name] => if devices.contains name then some (.device name) else none
  | p => if p = [] || directories.contains p then some .directory else none

end ScriptFuzz.Machine
