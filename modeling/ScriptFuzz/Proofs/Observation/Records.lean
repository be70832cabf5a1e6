import ScriptFuzz.Observation
import ScriptFuzz.Proofs.Json.Fields
import ScriptFuzz.Proofs.Program.Observation
import ScriptFuzz.Proofs.Record
import ScriptFuzz.Simulation

/-!
# Reports on the side channel

The simulated hook writes each report on a line of its own, and the stream is read back as the
records that were reported, whatever names occur in them (`Record.ofStream_join`).
-/

namespace ScriptFuzz

set_option autoImplicit false

namespace Text

end Text

namespace Record

end Record

/-! ## Reports of the simulated hook -/

namespace Simulation.Portrait

/-- The record of a value like this at a position. -/
def record? (p : Portrait) (index : Nat) : Option Record := do
  let kind ← ValueKind.all.find? fun k => k.name == p.kind
  return {
    index, kind, typeName := p.typeName, arity := p.arity, fields := p.fields
    methods := p.methods }

theorem isWritable_toJson (p : Portrait) (index : Int) : (p.toJson index).IsWritable := by
  refine Json.isWritable_ofFields.mpr ?_
  have harity : (Json.ofNat? p.arity).IsWritable := by
    cases p.arity with
    | none => trivial
    | some n => exact Json.isWritable_ofNat n
  have hfields : (Json.array (p.fields.map .ofText)).IsWritable :=
    Json.isWritable_array_map fun f _ => Json.isWritable_ofText f
  have hmethod (m : String × String) : (Json.array [.ofText m.1, .ofText m.2]).IsWritable :=
    ⟨Json.isWritable_ofText _, Json.isWritable_ofText _, trivial⟩
  simp [harity, hfields, Json.isWritable_array_map fun m _ => hmethod m]

/-- The parts of the report by name, names ascending. -/
def parts (p : Portrait) (index : Int) : List (String × Json) :=
  [("arity", .ofNat? p.arity), ("fields", .array (p.fields.map .ofText)),
    ("index", .ofInt index), ("kind", .ofText p.kind),
    ("methods", .array (p.methods.map fun (n, a) => .array [.ofText n, .ofText a])),
    ("type", .ofText p.typeName)]

theorem record?_toJson (p : Portrait) (index : Int) :
    (p.toJson index).record? ["index", "kind", "type", "arity", "fields", "methods"] =
      some (p.parts index) := by
  have hentries : (p.toJson index).entries
      ["index", "kind", "type", "arity", "fields", "methods"] = p.parts index := by
    refine Json.memberEntries_map (fun _ _ => List.not_mem_nil) ?_ ?_
    · simp
    · change ["arity", "fields", "index", "kind", "methods", "type"].Nodup
      decide
  rw [Json.record?, hentries]
  refine if_pos (List.all_eq_true.mpr fun f hf => Json.isWhole_of_isWritable ?_)
  exact Json.isWritable_ofFields.mp (p.isWritable_toJson index) f hf

theorem ofJson?_toJson {p : Portrait} {index : Nat} (hindex : index < Record.countLimit)
    (harity : ∀ n, p.arity = some n → n < Record.countLimit) :
    Record.ofJson? (p.toJson index) = p.record? index := by
  have hindex' : (Json.ofInt index).nat? Record.countLimit = some index := Json.nat?_ofNat hindex
  have hkind : ValueKind.ofJson? (.ofText p.kind) =
      ValueKind.all.find? fun k => k.name == p.kind := by
    unfold ValueKind.ofJson?
    rw [Json.variant?_ofText]
  have harity' : Json.optional? (p.parts index) "arity" (Json.nat? Record.countLimit) =
      some p.arity := by
    rw [parts, Json.optional?, Json.field?_cons_self]
    cases hp : p.arity with
    | none => rfl
    | some n => exact congrArg (Option.map some) (Json.nat?_ofNat (harity n hp))
  have hfields : Json.list? Json.text? (.array (p.fields.map .ofText)) = some p.fields :=
    Json.list?_array_map fun f _ => Json.text?_ofText f
  have hmethods : Json.list? Record.pairOfJson?
      (.array (p.methods.map fun (n, a) => .array [.ofText n, .ofText a])) = some p.methods := by
    refine Json.list?_array_map fun m _ => ?_
    simp [Record.pairOfJson?]
  have hfield : Json.field? (p.parts index) "index" = some (.ofInt index) ∧
      Json.field? (p.parts index) "kind" = some (.ofText p.kind) ∧
      Json.field? (p.parts index) "type" = some (.ofText p.typeName) ∧
      Json.field? (p.parts index) "fields" = some (.array (p.fields.map .ofText)) ∧
      Json.field? (p.parts index) "methods" =
        some (.array (p.methods.map fun (n, a) => .array [.ofText n, .ofText a])) := by
    simp [parts, Json.field?_cons_of_ne]
  obtain ⟨hf₁, hf₂, hf₃, hf₄, hf₅⟩ := hfield
  unfold Record.ofJson?
  rw [p.record?_toJson index]
  simp only [Option.bind_eq_bind, Option.bind_some, hf₁, hf₂, hf₃, hf₄, hf₅, hindex', hkind,
    harity', hfields, hmethods, Json.text?_ofText]
  rfl

end Simulation.Portrait

/-- What the hook reports of the value of an instruction, if that is observed and the report can be
used. -/
def Instruction.described? (i : Instruction) : Option Record :=
  if i.isObservable then
    ((Simulation.portrait? i.op).bind (·.record? i.index)).filter Record.isUsable
  else none

/-- The line that reports the value of an instruction. -/
def Instruction.report? (i : Instruction) : Option String :=
  if i.isObservable then
    (Simulation.portrait? i.op).map fun p => (p.toJson i.index).compact
  else none

end ScriptFuzz
