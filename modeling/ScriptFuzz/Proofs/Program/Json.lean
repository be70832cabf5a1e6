import ScriptFuzz.Program.Json
import ScriptFuzz.Proofs.Code.Kinds
import ScriptFuzz.Proofs.Json.Fields
import ScriptFuzz.Proofs.Program.Storage
import ScriptFuzz.Proofs.Uuid

/-!
# Programs read back from JSON

Each part of a program is read back from the value that is written for it. Only the payload of a NaN
is not written; it does not decide whether code is well formed, so a program is read back from its
text if its code is well formed and the texts of its finite constants are read as the constants.
-/

namespace ScriptFuzz

set_option autoImplicit false

open Number Json

/-! ## Constants -/

namespace Number.Binary64

/-- The number with the payload of a NaN forgotten. -/
def withoutPayload (x : Binary64) : Binary64 := if x.isNaN then nan else x

/-- If the number is finite, its text is read as the number. -/
def IsReadable (x : Binary64) : Prop :=
  x.isFinite = true → Json.float? (Layout.json.text x).toList = some x

instance (x : Binary64) : Decidable x.IsReadable := inferInstanceAs (Decidable (_ → _))

variable {x : Binary64}

theorem isWritable_constantToJson (x : Binary64) : (constantToJson x).IsWritable := by
  unfold constantToJson
  split
  · rename_i hfinite
    rw [ofBinary64, if_pos hfinite]
    exact numeral_text hfinite
  · split
    · exact isWritable_ofText _
    · split <;> exact isWritable_ofText _

theorem constantOfJson?_ofText (s : String) : constantOfJson? (ofText s) =
    match some s with
    | some "nan" => some nan
    | some "inf" => some infinity
    | some "-inf" => some negInfinity
    | _ => none := by
  rw [← text?_ofText s]
  rfl

/-- A constant is read back without the payload of a NaN. -/
theorem constantOfJson?_constantToJson (h : x.IsReadable) :
    constantOfJson? (constantToJson x) = some x.withoutPayload := by
  unfold constantToJson withoutPayload
  by_cases hfinite : x.isFinite = true
  · rw [if_pos hfinite, ofBinary64, if_pos hfinite, (isFinite_iff.mp hfinite).1]
    exact h hfinite
  · rw [if_neg hfinite]
    by_cases hnan : x.isNaN = true
    · rw [if_pos hnan, if_pos hnan, constantOfJson?_ofText]
      rfl
    · have hinfinite : x.isInfinite = true := by
        simpa [isFinite_iff, Bool.not_eq_true _ ▸ hnan] using hfinite
      have heq := eq_of_isInfinite hinfinite
      rw [if_neg hnan, if_neg hnan]
      split
      · rename_i hnegative
        rw [if_pos hnegative] at heq
        rw [constantOfJson?_ofText, heq]
        rfl
      · rename_i hnegative
        rw [if_neg hnegative] at heq
        rw [constantOfJson?_ofText, heq]
        rfl

end Number.Binary64

theorem int64OfJson?_ofInt (v : Int64) : int64OfJson? (.ofInt v.toInt) = some v := by
  have hlow := v.le_toInt
  have hhigh := v.toInt_lt
  rw [int64OfJson?, int?_ofInt (by omega) (by omega), Option.map_some, Int64.ofInt_toInt]

theorem countOfJson?_ofNat {n : Nat} (h : n < Operation.countLimit) :
    countOfJson? (.ofNat n) = some n := nat?_ofNat h

theorem namedMember?_ofText {α : Type} {all : List α} {name : α → String} {x : α}
    (h : (all.find? fun y => name y == name x) = some x) :
    namedMember? all name (.ofText (name x)) = some x := by
  rw [namedMember?, variant?_ofText]
  exact h

theorem UnaryOperator.ofJson?_toJson (op : UnaryOperator) : ofJson? op.toJson = some op :=
  namedMember?_ofText (by cases op <;> rfl)

theorem BinaryOperator.ofJson?_toJson (op : BinaryOperator) : ofJson? op.toJson = some op :=
  namedMember?_ofText (by cases op <;> rfl)

theorem Comparator.ofJson?_toJson (op : Comparator) : ofJson? op.toJson = some op :=
  namedMember?_ofText (by cases op <;> rfl)

/-! ## Operations -/

namespace Operation

def withoutPayload : Operation → Operation
  | loadFloat x => loadFloat x.withoutPayload
  | op => op

theorem kind_withoutPayload (op : Operation) : op.withoutPayload.kind = op.kind := by
  cases op <;> rfl

theorem shape_withoutPayload (op : Operation) : op.withoutPayload.shape = op.shape :=
  shape_eq_of_kind op.kind_withoutPayload

/-- The constant of the operation, if it has one, is read back from its text. -/
def IsReadable (op : Operation) : Prop := ∀ x, op = loadFloat x → x.IsReadable

theorem isReadable_loadFloat {x : Binary64} : (loadFloat x).IsReadable ↔ x.IsReadable := by
  simp [IsReadable]

section Fields

variable {α β : Type} {j j' : Json} {name name' : String} {x : α} {y : β} {decode : Json → Option α}
  {decode' : Json → Option β}

/-- One parameter is read from the record that holds it. -/
theorem one_of_record (make : α → Operation) (hj : j.IsWritable) (h : decode j = some x) :
    (do
      let fs ← (ofFields [(name, j)]).record? [name]
      return make (← decode (← field? fs name))) = some (make x) := by
  have hrecord : (ofFields [(name, j)]).record? [name] = some [(name, j)] :=
    record?_ofFields rfl (List.nodup_singleton name) (by simpa [isWritable_ofFields] using hj)
  simp [hrecord, h]

/-- Two parameters are read from the record that holds them. -/
theorem two_of_record (make : α → β → Operation) (hne : name ≠ name') (hj : j.IsWritable)
    (hj' : j'.IsWritable) (h : decode j = some x) (h' : decode' j' = some y) :
    (do
      let fs ← (ofFields [(name, j), (name', j')]).record? [name, name']
      return make (← decode (← field? fs name)) (← decode' (← field? fs name'))) =
        some (make x y) := by
  have hrecord : (ofFields [(name, j), (name', j')]).record? [name, name'] =
      some [(name, j), (name', j')] :=
    record?_ofFields rfl (List.nodup_cons.mpr ⟨by simpa using hne, List.nodup_singleton name'⟩)
      (by simpa [isWritable_ofFields] using ⟨hj, hj'⟩)
  simp [hrecord, field?_cons_of_ne hne.symm, h, h']

end Fields

variable {op : Operation}

theorem ofJson?_ofText {name : String} (h : (plain.find? fun op => op.name == name) = some op) :
    ofJson? (.ofText name) = some op := by
  rw [ofJson?, variant?_ofText]
  simp only
  rw [h]

theorem ofJson?_ofFields {name : String} (h : (plain.find? fun op => op.name == name) = none)
    {fields : Json} (hfields : ofFields? name fields = some op) :
    ofJson? (.ofFields [(name, fields)]) = some op := by
  rw [ofJson?, variant?_ofFields]
  simp only
  rw [h]
  exact hfields

/-- An operation is read back from its name and its parameters. -/
theorem ofJson?_toJson (hcount : op.isCountable = true) (hread : op.IsReadable) :
    ofJson? op.toJson = some op.withoutPayload := by
  have hlt : ∀ n ∈ op.counts, n < countLimit := fun n hn => lt_of_mem_counts hcount hn
  cases op <;> simp only [counts, List.mem_singleton, forall_eq] at hlt
  case loadInteger v | loadBigInt v | getElement v | setElement v =>
    exact ofJson?_ofFields rfl (one_of_record _ (isWritable_ofInt _) (int64OfJson?_ofInt v))
  case loadFloat x =>
    exact ofJson?_ofFields rfl (one_of_record loadFloat x.isWritable_constantToJson
      (Binary64.constantOfJson?_constantToJson (hread x rfl)))
  case loadString | loadRegExp | loadBuiltin | getProperty | setProperty =>
    exact ofJson?_ofFields rfl (one_of_record _ (isWritable_ofText _) (text?_ofText _))
  case loadBoolean | beginIf | beginClassDefinition =>
    exact ofJson?_ofFields rfl (one_of_record _ trivial rfl)
  case createArray | beginPlainFunction | callFunction | construct =>
    exact ofJson?_ofFields rfl (one_of_record _ (isWritable_ofNat _) (countOfJson?_ofNat hlt))
  case callMethod | eval | beginClassMethod =>
    exact ofJson?_ofFields rfl (two_of_record _ (by decide) (isWritable_ofText _)
      (isWritable_ofNat _) (text?_ofText _) (countOfJson?_ofNat hlt))
  case unaryOperation o =>
    exact ofJson?_ofFields rfl (one_of_record _ (isWritable_ofText _) o.ofJson?_toJson)
  case binaryOperation o | update o =>
    exact ofJson?_ofFields rfl (one_of_record _ (isWritable_ofText _) o.ofJson?_toJson)
  case compare o | beginWhileLoop o =>
    exact ofJson?_ofFields rfl (one_of_record _ (isWritable_ofText _) o.ofJson?_toJson)
  all_goals exact ofJson?_ofText rfl

theorem isWritable_toJson (op : Operation) : op.toJson.IsWritable := by
  cases op <;>
    simp [toJson, fields, isWritable_ofFields, UnaryOperator.toJson, BinaryOperator.toJson,
      Comparator.toJson, Binary64.isWritable_constantToJson, IsWritable]

end Operation

/-! ## Instructions and code -/

theorem Variable.ofJson?_toJson {v : Variable} (h : v.number < limit) :
    ofJson? v.toJson = some v := by
  rw [ofJson?, toJson, nat?_ofNat h]
  rfl

namespace Instruction

def withoutPayload (i : Instruction) : Instruction where
  op := i.op.withoutPayload
  inouts := i.inouts
  index := i.index
  arity := i.arity.trans (congrArg Shape.size i.op.shape_withoutPayload).symm

theorem sameKind_withoutPayload (i : Instruction) : i.SameKind i.withoutPayload :=
  ⟨rfl, i.op.kind_withoutPayload.symm⟩

variable {i : Instruction}

theorem isWritable_toJson (i : Instruction) : i.toJson.IsWritable := by
  have hinouts : (array (i.inouts.map Variable.toJson)).IsWritable :=
    isWritable_array_map fun v _ => isWritable_ofNat v.number
  simp [toJson, isWritable_ofFields, i.op.isWritable_toJson, hinouts]

theorem ofJson_toJson (hcount : i.op.isCountable = true) (hread : i.op.IsReadable)
    (hvariables : ∀ v ∈ i.inouts, v.number < Variable.limit)
    (hindex : i.index < Operation.countLimit) : ofJson i.toJson = .ok i.withoutPayload := by
  have hrecord : i.toJson.record? ["op", "inouts", "index"] =
      some [("op", i.op.toJson), ("inouts", .array (i.inouts.map Variable.toJson)),
        ("index", .ofNat i.index)] :=
    record?_ofFields rfl (by decide) i.isWritable_toJson
  have hop : Operation.ofJson? i.op.toJson = some i.op.withoutPayload :=
    Operation.ofJson?_toJson hcount hread
  have hinouts : list? Variable.ofJson? (array (i.inouts.map Variable.toJson)) = some i.inouts :=
    list?_array_map fun v hv => Variable.ofJson?_toJson (hvariables v hv)
  have hparts : partsOfJson? i.toJson = some (i.op.withoutPayload, i.inouts, i.index) := by
    rw [partsOfJson?, hrecord]
    simp [field?_cons_of_ne, hop, hinouts, countOfJson?_ofNat hindex]
  have hcount' : i.withoutPayload.op.isCountable = true := by
    rw [Operation.isCountable, withoutPayload, Operation.shape_withoutPayload]
    exact hcount
  rw [ofJson, hparts]
  exact load_eq_ok hcount'

end Instruction

namespace Code

variable {c : Code}

theorem check_withoutPayload (h : c.check = .ok ()) :
    Code.check (c.map Instruction.withoutPayload) = .ok () :=
  check_of_sameKind (List.forall₂_map_right_iff.mpr
    (List.forall₂_same.mpr fun i _ => ⟨i.sameKind_withoutPayload, rfl⟩)) h

theorem isWritable_toJson (c : Code) : c.toJson.IsWritable := by
  have hinstructions : (array (c.map Instruction.toJson)).IsWritable :=
    isWritable_array_map fun i _ => i.isWritable_toJson
  simp [toJson, isWritable_ofFields, hinstructions]

theorem ofJson_toJson
    (h : ∀ i ∈ c, Instruction.ofJson i.toJson = .ok i.withoutPayload) :
    ofJson c.toJson = .ok (c.map Instruction.withoutPayload) := by
  have hread : (c.map Instruction.toJson).mapM Instruction.ofJson =
      .ok (c.map Instruction.withoutPayload) := by
    induction c with
    | nil => rfl
    | cons i is ih =>
      rw [List.map_cons, List.mapM_cons, h i List.mem_cons_self,
        ih fun j hj => h j (List.mem_cons_of_mem i hj)]
      rfl
  have hentries : c.toJson.entries ["instructions"] =
      [("instructions", .array (c.map Instruction.toJson))] :=
    entries_ofFields rfl (List.nodup_singleton _)
  rw [ofJson, hentries]
  simp only [List.foldlM_cons, List.foldlM_nil, if_true, instructionsOfJson, hread]
  rfl

end Code

/-! ## Comments and identifiers -/

namespace Comments

variable {c : Comments}

theorem positionOfKey?_toString {n : Nat} (h : n < Operation.countLimit) :
    positionOfKey? (toString n).toList = some n := by
  have hread : readNumber (toString n).toList = some ((toString n).toList, []) := by
    have hread : readNumber ((toString n).toList ++ []) = some ((toString n).toList, []) :=
      (numeral_toString_nat n).readNumber nofun
    rwa [List.append_nil] at hread
  rw [positionOfKey?, hread]
  simp only
  rw [toList_toString_nat, natural?_toDigits, Option.filter_some, if_pos (decide_eq_true h)]

/-- The member that is written for a text at a position. -/
def member (t : Nat × String) : List Char × Json := ((toString t.1).toList, .ofText t.2)

theorem textsOfJson?_object {texts : List (Nat × String)}
    (hpositions : ∀ t ∈ texts, t.1 < Operation.countLimit)
    (hordered : texts.Pairwise fun t u => t.1 < u.1) :
    textsOfJson? (.object (texts.map member)) = some texts := by
  have hread : (texts.map member).mapM
      (fun m => do return (← positionOfKey? m.1, ← m.2.text?)) = some texts := by
    clear hordered
    induction texts with
    | nil => rfl
    | cons t texts ih =>
      obtain ⟨hposition, hpositions⟩ := List.forall_mem_cons.mp hpositions
      rw [List.map_cons, List.mapM_cons, ih hpositions]
      simp only [member, positionOfKey?_toString hposition, text?_ofText]
      rfl
  change ((texts.map member).mapM _ >>= fun pairs => some (Ordered.ofPairs pairs)) = some texts
  rw [hread]
  exact congrArg some (Ordered.ofPairs_of_pairwise hordered)

theorem isWritable_toJson (c : Comments) : c.toJson.IsWritable := by
  have htexts : (object (c.instructions.map member)).IsWritable := by
    refine membersAreWritable_iff.mpr (List.forall_mem_map.mpr fun t _ => ?_)
    rw [member, toList_toString_nat]
    exact ⟨isBody_of_isDigit isDigit_of_mem_toDigits, isWritable_ofText t.2⟩
  refine isWritable_ofFields.mpr ?_
  simp only [List.forall_mem_cons]
  exact ⟨isWritable_ofText? c.header, isWritable_ofText? c.footer, htexts, List.forall_mem_nil _⟩

theorem ofJson?_toJson (hpositions : ∀ t ∈ c.instructions, t.1 < Operation.countLimit)
    (hordered : c.instructions.Pairwise fun t u => t.1 < u.1) : ofJson? c.toJson = some c := by
  have hrecord : c.toJson.record? ["header", "footer", "instructions"] =
      some [("header", ofText? c.header), ("footer", ofText? c.footer),
        ("instructions", object (c.instructions.map member))] :=
    record?_ofFields rfl (by decide) c.isWritable_toJson
  have htexts := textsOfJson?_object hpositions hordered
  rw [ofJson?, hrecord]
  simp [optional?_cons_of_ne, field?_cons_of_ne, htexts]

end Comments

namespace Uuid

theorem isWritable_toJson (u : Uuid) : u.toJson.IsWritable := isWritable_ofText u.text

theorem ofJson?_toJson (u : Uuid) : ofJson? u.toJson = some u := by
  rw [ofJson?, toJson, text?_ofText, Option.bind_some, u.ofText?_text]

end Uuid

namespace Program

/-- The program with the payloads of its NaN constants forgotten. -/
def withoutPayloads (p : Program) : Program :=
  { p with code := p.code.map Instruction.withoutPayload }

variable {p : Program}

theorem isWritable_toJson (p : Program) : p.toJson.IsWritable := by
  have hparent : ((p.parent.map Uuid.toJson).getD .null).IsWritable := by
    cases p.parent with
    | none => trivial
    | some u => exact u.isWritable_toJson
  have hcontributors : (array (p.contributors.map ofText)).IsWritable :=
    isWritable_array_map fun s _ => isWritable_ofText s
  refine isWritable_ofFields.mpr ?_
  simp only [List.forall_mem_cons]
  exact ⟨p.id.isWritable_toJson, hparent, p.code.isWritable_toJson, p.comments.isWritable_toJson,
    hcontributors, List.forall_mem_nil _⟩

namespace Draft

theorem read_id (d : Draft) (id : Uuid) :
    d.read ("id", id.toJson) = .ok { d with id := some id } := by
  rw [read, id.ofJson?_toJson]
  rfl

theorem read_parent (d : Draft) (parent : Option Uuid) :
    d.read ("parent", (parent.map Uuid.toJson).getD .null) =
      .ok { d with parent := parent.or d.parent } := by
  cases parent with
  | none => rfl
  | some id =>
    change (do return { d with parent := ← LoadError.require (Uuid.ofJson? id.toJson) }) = _
    rw [id.ofJson?_toJson]
    rfl

theorem read_code (d : Draft) {j : Json} {code : Code} (h : Code.ofJson j = .ok code) :
    d.read ("code", j) = .ok { d with code := some code } := by
  rw [read, h]
  rfl

theorem read_comments (d : Draft) {j : Json} {comments : Comments}
    (h : Comments.ofJson? j = some comments) :
    d.read ("comments", j) = .ok { d with comments := some comments } := by
  rw [read, h]
  rfl

theorem read_contributors (d : Draft) {names : List String} (h : names.Pairwise (· < ·)) :
    d.read ("contributors", .array (names.map .ofText)) =
      .ok { d with contributors := some names } := by
  rw [read, list?_array_map fun s _ => text?_ofText s]
  change Except.ok { d with contributors := some (Ordered.ofList names) } = _
  rw [Ordered.ofList_of_pairwise h]

end Draft

/-- The fields of a program are read one after the other. -/
theorem ofJsonValue_toJson {code : Code} (hcode : Code.ofJson p.code.toJson = .ok code)
    (hcomments : Comments.ofJson? p.comments.toJson = some p.comments)
    (hnames : p.contributors.Pairwise (· < ·)) : ofJsonValue p.toJson = .ok { p with code } := by
  have hentries : p.toJson.entries ["id", "parent", "code", "comments", "contributors"] =
      [("id", p.id.toJson), ("parent", (p.parent.map Uuid.toJson).getD .null),
        ("code", p.code.toJson), ("comments", p.comments.toJson),
        ("contributors", .array (p.contributors.map .ofText))] :=
    entries_ofFields rfl (by decide)
  rw [ofJsonValue, hentries]
  simp only [List.foldlM_cons, List.foldlM_nil, Draft.read_id, Draft.read_parent,
    Draft.read_code _ hcode, Draft.read_comments _ hcomments, Draft.read_contributors _ hnames]
  change Except.ok { p with code, parent := p.parent.or none } = _
  rw [Option.or_none]

/-- A checked program is read back from its text, the payloads of NaN constants apart, if the text
of every finite constant is read as the constant. -/
theorem ofJson_pretty_toJson (hcheck : p.code.check = .ok ()) (hp : p.IsStorable)
    (hread : ∀ i ∈ p.code, i.op.IsReadable) :
    ofJson p.toJson.pretty = .ok p.withoutPayloads := by
  have hcode : Code.ofJson p.code.toJson = .ok (p.code.map Instruction.withoutPayload) :=
    Code.ofJson_toJson fun i hi => Instruction.ofJson_toJson (hp.countable i hi) (hread i hi)
      (fun v hv => number_lt_of_check hcheck hi hv) (hp.index_lt hcheck hi)
  have hcomments : Comments.ofJson? p.comments.toJson = some p.comments :=
    Comments.ofJson?_toJson (fun t ht => (hp.comment t ht).1) hp.positions
  rw [ofJson, readFirst_pretty p.isWritable_toJson]
  simp only [ofJsonValue_toJson hcode hcomments hp.names]
  exact validated_eq_ok (Code.check_withoutPayload hcheck)

/-- Constants of every sort, a text with characters of every sort, and annotations. -/
def specialConstants : Program where
  id := .fresh 1
  parent := some (.fresh 0)
  code :=
    [{ op := .loadFloat ⟨0xfff0000000000042⟩, inouts := [⟨0⟩], index := 0, arity := by decide },
      { op := .loadFloat .negInfinity, inouts := [⟨1⟩], index := 1, arity := by decide },
      { op := .loadFloat ⟨0x3fb999999999999a⟩, inouts := [⟨2⟩], index := 2, arity := by decide },
      { op := .loadFloat ⟨0x8000000000000000⟩, inouts := [⟨3⟩], index := 3, arity := by decide },
      { op := .loadInteger (-0x8000000000000000), inouts := [⟨4⟩], index := 4, arity := by decide },
      { op := .loadString "\"π\"\\\n\x01", inouts := [⟨5⟩], index := 5, arity := by decide }]
  comments := { footer := some "\t\"\"", instructions := [(2, "a tenth"), (3, "\\zero")] }
  contributors := ["generator \"a\"", "mutator"]

theorem ofJson_pretty_specialConstants :
    specialConstants.code.check = .ok () ∧ specialConstants.IsStorable ∧
      (∀ i ∈ specialConstants.code, i.op.IsReadable) ∧
      ofJson specialConstants.toJson.pretty = .ok specialConstants.withoutPayloads := by
  have hcheck : specialConstants.code.check = .ok () := rfl
  have hstorable : specialConstants.IsStorable := {
    countable := by unfold Code.IsCountable; decide
    code := by decide
    texts := by decide
    header := nofun
    footer := by rintro _ ⟨⟩; decide
    comments := by decide
    comment := by decide
    positions := by decide
    contributors := by decide
    contributor := by decide
    names := by decide }
  have hread : ∀ i ∈ specialConstants.code, i.op.IsReadable := by
    simp only [specialConstants, List.forall_mem_cons, Operation.isReadable_loadFloat]
    refine ⟨by decide +kernel, by decide +kernel, by decide +kernel, by decide +kernel, ?_, ?_,
      List.forall_mem_nil _⟩
    · simp [Operation.IsReadable]
    · simp [Operation.IsReadable]
  exact ⟨hcheck, hstorable, hread, ofJson_pretty_toJson hcheck hstorable hread⟩

end Program

end ScriptFuzz
