import ScriptFuzz.CommandLine.LogRule

/-!
# Log filters

A log filter says which messages are logged. Of the rules that a message fits, the one that asks for
the most decides. Rules about spans never apply to messages outside of all spans.
-/

namespace ScriptFuzz.CommandLine

set_option autoImplicit false

/-- A kind of message that is sent outside of all spans. -/
structure LogMessage where
  /-- The part of the program that sends it. -/
  part : String
  level : LogLevel
  fields : List String

/-- The rules that a message may fit. -/
structure LogFilter where
  rules : List LogRule
deriving DecidableEq, Repr

namespace LogFilter

/-- The filter that holds where none is asked for. -/
def standard : LogFilter :=
  ⟨[{ level := .info }, { part := some "refuzz_engine", level := .debug }]⟩

/-- The filter whose rules a text lists between commas; without a rule only errors are logged. -/
def ofText (s : String) : Except LogRuleError LogFilter := do
  let pieces := (Text.splitOn ',' s.toList).filter (!·.isEmpty)
  let rules ← pieces.mapM fun p => LogRule.ofText (String.ofList p)
  let kept := rules.filter LogRule.isStatic
  return ⟨if kept.isEmpty && !rules.any LogRule.isDynamic then [{ level := .error }] else kept⟩

def fits (m : LogMessage) (r : LogRule) : Bool :=
  r.part.all (fun p => p.isPrefixOf m.part) && r.fieldNames.all m.fields.contains

/-- Whether names of fields come no later than others when they are sorted. -/
def isUpTo : List String → List String → Bool
  | [], _ => true
  | _ :: _, [] => false
  | m :: ms, n :: ns => m < n || (m = n && isUpTo ms ns)

/-- Whether the first rule gives way to the second one, which was written later. -/
def yields (r s : LogRule) : Bool :=
  let (p, q) := (r.precision, s.precision)
  p.1 < q.1 || (p.1 = q.1 && (p.2 < q.2 || (p.2 = q.2 && isUpTo r.fieldNames s.fieldNames)))

def admits (f : LogFilter) (m : LogMessage) : Bool :=
  match f.rules.filter (fits m) with
  | [] => false
  | r :: rs => m.level.rank ≤ (rs.foldl (fun r s => if yields r s then s else r) r).level.rank

end LogFilter

end ScriptFuzz.CommandLine
