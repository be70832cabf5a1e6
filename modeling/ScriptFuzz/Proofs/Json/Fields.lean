import ScriptFuzz.Json.Fields
import ScriptFuzz.Proofs.Json.Reading

/-!
# Records read back from JSON

What is written for texts, numbers, records and variants is writable, and it has the parts that it
was written from.
-/

namespace ScriptFuzz.Json

set_option autoImplicit false

@[simp] theorem isWritable_ofText (s : String) : (ofText s).IsWritable := isBody_encode s.toList

@[simp] theorem isWritable_ofNat (n : Nat) : (ofNat n).IsWritable := numeral_toString_nat n

@[simp] theorem isWritable_ofInt (n : Int) : (ofInt n).IsWritable := numeral_toString_int n

@[simp] theorem isWritable_ofText? (s : Option String) : (ofText? s).IsWritable := by
  cases s with
  | none => trivial
  | some s => exact isWritable_ofText s

theorem isWritable_array_map {α : Type} {toJson : α → Json} {xs : List α}
    (h : ∀ x ∈ xs, (toJson x).IsWritable) : (array (xs.map toJson)).IsWritable :=
  areWritable_iff.mpr (List.forall_mem_map.mpr h)

theorem isWritable_ofFields {fs : List (String × Json)} :
    (ofFields fs).IsWritable ↔ ∀ f ∈ fs, f.2.IsWritable := by
  refine membersAreWritable_iff.trans (List.forall_mem_map.trans ?_)
  exact forall₂_congr fun f _ => and_iff_right (isBody_encode f.1.toList)

@[simp] theorem text?_ofText (s : String) : (ofText s).text? = some s := by
  rw [ofText, text?, decode?_encode]
  exact congrArg some String.ofList_toList

@[simp] theorem variant?_ofText (s : String) : (ofText s).variant? = some (s, none) := by
  rw [ofText, variant?, decode?_encode, Option.map_some, String.ofList_toList]

@[simp] theorem variant?_ofFields (s : String) (j : Json) :
    (ofFields [(s, j)]).variant? = some (s, some j) := by
  change (decode? (encode s.toList)).map _ = _
  rw [decode?_encode, Option.map_some, String.ofList_toList]

theorem list?_array_map {α : Type} {decode : Json → Option α} {toJson : α → Json} {xs : List α}
    (h : ∀ x ∈ xs, decode (toJson x) = some x) : list? decode (array (xs.map toJson)) = some xs := by
  change (xs.map toJson).mapM decode = some xs
  induction xs with
  | nil => rfl
  | cons x xs ih =>
    rw [List.map_cons, List.mapM_cons, h x List.mem_cons_self,
      ih fun y hy => h y (List.mem_cons_of_mem x hy)]
    rfl

/-! ## Records -/

section Records

variable {fs : List (String × Json)} {names seen : List String}

theorem memberEntries_map (hseen : ∀ f ∈ fs, f.1 ∉ seen) (hnames : ∀ f ∈ fs, f.1 ∈ names)
    (hnodup : (fs.map Prod.fst).Nodup) :
    memberEntries names seen (fs.map fun (k, j) => (encode k.toList, j)) = fs := by
  induction fs generalizing seen with
  | nil => rfl
  | cons f fs ih =>
    obtain ⟨hnot, hnodup⟩ := List.nodup_cons.mp hnodup
    have hrest : memberEntries names (f.1 :: seen)
        (fs.map fun (k, j) => (encode k.toList, j)) = fs := ih
      (fun g hg => List.not_mem_cons_of_ne_of_not_mem
        (fun heq => hnot (List.mem_map.mpr ⟨g, hg, heq⟩)) (hseen g (List.mem_cons_of_mem f hg)))
      (fun g hg => hnames g (List.mem_cons_of_mem f hg)) hnodup
    rw [List.map_cons, memberEntries, decode?_encode]
    simp only
    rw [String.ofList_toList, if_neg (hseen f List.mem_cons_self),
      if_pos (hnames f List.mem_cons_self), hrest]

/-- A record has the fields that it was written from. -/
theorem entries_ofFields (hnames : fs.map Prod.fst = names) (hnodup : names.Nodup) :
    (ofFields fs).entries names = fs :=
  memberEntries_map (fun _ _ => List.not_mem_nil) (fun _ hf => hnames ▸ List.mem_map_of_mem hf)
    (hnames ▸ hnodup)

theorem record?_ofFields (hnames : fs.map Prod.fst = names) (hnodup : names.Nodup)
    (h : (ofFields fs).IsWritable) : (ofFields fs).record? names = some fs := by
  rw [record?, entries_ofFields hnames hnodup]
  exact if_pos (List.all_eq_true.mpr fun f hf =>
    isWhole_of_isWritable (isWritable_ofFields.mp h f hf))

variable {name name' : String} {j : Json} {es : List (String × Json)}

@[simp] theorem field?_cons_self : field? ((name, j) :: es) name = some j := List.lookup_cons_self

theorem field?_cons_of_ne (h : name ≠ name') : field? ((name', j) :: es) name = field? es name := by
  rw [field?, List.lookup_cons, beq_eq_false_iff_ne.mpr h]
  rfl

/-- A field that may be absent is read from what is written for it. -/
@[simp] theorem optional?_cons_self {s : Option String} :
    optional? ((name, ofText? s) :: es) name text? = some s := by
  rw [optional?, field?_cons_self]
  cases s with
  | none => rfl
  | some s => exact congrArg (Option.map some) (text?_ofText s)

theorem optional?_cons_of_ne {α : Type} {decode : Json → Option α} (h : name ≠ name') :
    optional? ((name', j) :: es) name decode = optional? es name decode := by
  rw [optional?, field?_cons_of_ne h, optional?]

end Records

end ScriptFuzz.Json
