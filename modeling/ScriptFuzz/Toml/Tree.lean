import ScriptFuzz.Settings.Value

/-!
# Tables under construction

A document defines tables piece by piece. How a table came about decides how it may grow: one that
a header named is closed to dotted keys from outside, one that dotted keys made is closed to
headers, and one that a deeper header implied may still get a header of its own. Nothing is
defined twice.
-/

namespace ScriptFuzz.Toml

set_option autoImplicit false

/-- How a table came about. -/
inductive Origin where
  | header
  /-- The header of a table inside of it implied it. -/
  | implied
  /-- A dotted key made it. -/
  | dotted
deriving DecidableEq

/-- What a key stands for while the document is read. -/
inductive Node where
  | value (s : Setting)
  | table (origin : Origin) (entries : List (String × Node))
  /-- The tables that share one header, each with its entries. -/
  | tables (items : List (List (String × Node)))

namespace Node

instance : Inhabited Node := ⟨table .header []⟩

mutual

/-- The value that a node stands for. -/
def toSetting : Node → Setting
  | value s => s
  | table _ entries => .table (entriesToSetting entries)
  | tables items => .list (itemsToSetting items)

def entriesToSetting : List (String × Node) → List (String × Setting)
  | [] => []
  | (k, n) :: es => (k, toSetting n) :: entriesToSetting es

def itemsToSetting : List (List (String × Node)) → List Setting
  | [] => []
  | es :: items => .table (entriesToSetting es) :: itemsToSetting items

end

end Node

/-- The entries of a table. -/
abbrev Entries := List (String × Node)

/-- The last of several tables and those before it. -/
def lastTable? (items : List Entries) : Option (List Entries × Entries) :=
  items.getLast?.map fun last => (items.dropLast, last)

/-- Changes the table at the end of a path. Tables on the way that do not exist come about as
`made`, and in the place of tables that share a header stands the last of them. The change gets the
origin of the table and its entries. -/
def change (made : Origin) (f : Origin → Entries → Option Entries) :
    List String → Origin → Entries → Option Entries
  | [], origin, es => f origin es
  | k :: ks, _, es =>
    match es.lookup k with
    | none => do
      return Ordered.put k (.table made (← change made f ks made [])) es
    | some (.value _) => none
    | some (.tables items) => do
      let (before, last) ← lastTable? items
      return Ordered.put k (.tables (before ++ [← change made f ks .header last])) es
    | some (.table origin inner) => do
      if made = .dotted ∧ origin = .header then none
      else return Ordered.put k (.table origin (← change made f ks origin inner)) es

/-- Gives a key that may be dotted its value. -/
def assign (key : List String) (s : Setting) (es : Entries) : Option Entries :=
  match key.reverse with
  | [] => none
  | name :: path =>
    let set (origin : Origin) (es : Entries) : Option Entries :=
      if (origin = .dotted) = path.isEmpty then none
      else if (es.lookup name).isSome then none
      else some (Ordered.put name (.value s) es)
    change .dotted set path.reverse .header es

/-- The table that the pairs of keys and values form. -/
def ofPairs? (pairs : List (List String × Setting)) (es : Entries) : Option Entries :=
  pairs.foldlM (fun es (key, s) => assign key s es) es

/-- A part of a document: a header, if there is one, and the pairs after it. -/
inductive Section where
  /-- The pairs before all headers. -/
  | root (pairs : List (List String × Setting))
  | table (path : List String) (pairs : List (List String × Setting))
  /-- A further one of the tables that share a header. -/
  | item (path : List String) (pairs : List (List String × Setting))

def addTable (name : String) (pairs : List (List String × Setting)) (es : Entries) :
    Option Entries := do
  let start ← match es.lookup name with
    | none => some []
    | some (.table .implied inner) => some inner
    | some _ => none
  return Ordered.put name (.table .header (← ofPairs? pairs start)) es

/-- Adds a table to those that share a header. -/
def addItem (name : String) (pairs : List (List String × Setting)) (es : Entries) :
    Option Entries := do
  let items ← match es.lookup name with
    | none => some []
    | some (.tables items) => some items
    | some _ => none
  return Ordered.put name (.tables (items ++ [← ofPairs? pairs []])) es

def addSection (es : Entries) : Section → Option Entries
  | .root pairs => ofPairs? pairs es
  | .table path pairs => within path (addTable · pairs)
  | .item path pairs => within path (addItem · pairs)
where
  /-- Adds something under the last name of a path to the table that the other names lead to. -/
  within (path : List String) (add : String → Entries → Option Entries) : Option Entries :=
    match path.reverse with
    | [] => none
    | name :: parents => change .implied (fun _ es => add name es) parents.reverse .header es

/-- The table that the sections of a document form. -/
def ofSections? (sections : List Section) : Option Setting := do
  let es ← sections.foldlM addSection []
  return (Node.table .header es).toSetting

end ScriptFuzz.Toml
