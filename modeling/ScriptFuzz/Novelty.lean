import ScriptFuzz.Execution
import ScriptFuzz.Record

/-!
# Interesting executions

An evaluator decides whether a run is worth keeping. `Novelty` keeps the pairs of kind and type that
any run so far has reported, and finds a run interesting if it reports a pair that none before did.
-/

namespace ScriptFuzz

set_option autoImplicit false

/-- The pairs of kind and type seen so far, the latest first. -/
structure Novelty where
  seen : List (ValueKind × String) := []
deriving DecidableEq, Inhabited

namespace Novelty

/-- The number of pairs seen so far. -/
def size (n : Novelty) : Nat := n.seen.length

/-- The pairs among `records` that have not been seen, each once and in order, and the pairs seen
afterwards. -/
def fresh (seen : List (ValueKind × String)) :
    List Record → List (ValueKind × String) × List (ValueKind × String)
  | [] => ([], seen)
  | r :: rs =>
    let pair := (r.kind, r.typeName)
    if pair ∈ seen then fresh seen rs
    else
      let (found, seen) := fresh (pair :: seen) rs
      (pair :: found, seen)

def describe (pairs : List (ValueKind × String)) : String :=
  "new types: " ++ ", ".intercalate (pairs.map fun (k, t) => k.name ++ " " ++ t)

/-- What is new in a run, if anything is. -/
def evaluate (n : Novelty) (e : Execution) : Option String × Novelty :=
  match fresh n.seen (Record.ofStream e.fuzzout) with
  | ([], seen) => (none, { seen })
  | (pairs, seen) => (some (describe pairs), { seen })

end Novelty

end ScriptFuzz
