import Mathlib.Data.List.Forall2
import Mathlib.Data.List.TakeWhile
import ScriptFuzz.Proofs.Json.Compact
import ScriptFuzz.Proofs.Json.Fields
import ScriptFuzz.Record

/-!
# Records read from the side channel

A stream is read line by line: what is on one line decides nothing about the others. A line that holds
a record as a JSON object is read as this record, whatever the order of the keys is and however the
characters are escaped (`Record.ofStream_joined`).
-/

namespace ScriptFuzz

set_option autoImplicit false

namespace Text

/-- Lines with an ending behind each but the last: a line feed, or a carriage return and a line
feed. -/
inductive Joined : List (List Char) → List Char → Prop where
  | none : Joined [] []
  | last {line : List Char} (h : '\n' ∉ line) : Joined [line] line
  | lineFeed {line cs : List Char} {lines : List (List Char)} (h : '\n' ∉ line) (hne : lines ≠ [])
      (hlines : Joined lines cs) : Joined (line :: lines) (line ++ '\n' :: cs)
  | bothFeeds {line cs : List Char} {lines : List (List Char)} (h : '\n' ∉ line) (hne : lines ≠ [])
      (hlines : Joined lines cs) : Joined (line :: lines) (line ++ '\r' :: '\n' :: cs)

/-- A line without a carriage return at its end. -/
def chomp (line : List Char) : List Char :=
  if line.getLast? = some '\r' then line.dropLast else line

theorem lines_of_not_mem {line : List Char} (h : '\n' ∉ line) :
    lines line = if line = [] then [] else [line] := by
  induction line with
  | nil => rfl
  | cons c cs ih =>
    rw [List.mem_cons, not_or] at h
    obtain ⟨hc, hcs⟩ := h
    rw [lines, ih hcs]
    · cases cs <;> rfl
    · exact Ne.symm hc
    · rintro rest - rfl
      exact hcs List.mem_cons_self

/-- A line ends at the first line feed, and the ending takes one carriage return along. -/
theorem lines_append_lineFeed {line : List Char} (h : '\n' ∉ line) (rest : List Char) :
    lines (line ++ '\n' :: rest) = chomp line :: lines rest := by
  induction line with
  | nil => rfl
  | cons c cs ih =>
    rw [List.mem_cons, not_or] at h
    obtain ⟨hc, hcs⟩ := h
    by_cases hreturn : cs = [] ∧ c = '\r'
    · obtain ⟨rfl, rfl⟩ := hreturn
      rfl
    · rw [List.cons_append, lines, ih hcs]
      · have hchomp : chomp (c :: cs) = c :: chomp cs := by
          unfold chomp
          cases cs with
          | nil =>
            have hne : c ≠ '\r' := fun heq => hreturn ⟨rfl, heq⟩
            simp [hne]
          | cons d ds =>
            rw [List.getLast?_cons_cons]
            split <;> rfl
        rw [hchomp]
      · exact Ne.symm hc
      · rintro rest' rfl hcons
        cases cs with
        | nil => exact hreturn ⟨rfl, rfl⟩
        | cons d ds =>
          obtain ⟨rfl, -⟩ := List.cons.inj hcons
          exact hcs List.mem_cons_self

theorem trim_append {back : List Char} (h : ∀ c ∈ back, isBlank c = true) (cs : List Char) :
    trim (cs ++ back) = trim cs := by
  unfold trim
  rw [List.dropWhile_append]
  split
  · rename_i hempty
    have hback : back.dropWhile isBlank = [] := List.dropWhile_eq_nil_iff.mpr h
    rw [hback, List.isEmpty_iff.mp hempty]
  · rw [List.reverse_append, List.dropWhile_append_of_pos]
    exact fun c hc => h c (List.mem_reverse.mp hc)

theorem trim_of_ends {c d : Char} {cs : List Char} (hc : isBlank c = false)
    (hd : isBlank d = false) : trim (c :: cs ++ [d]) = c :: cs ++ [d] := by
  have hfront : (c :: cs ++ [d]).dropWhile isBlank = c :: cs ++ [d] :=
    List.dropWhile_cons_of_neg (Bool.eq_false_iff.mp hc)
  have hback : (d :: (c :: cs).reverse).dropWhile isBlank = d :: (c :: cs).reverse :=
    List.dropWhile_cons_of_neg (Bool.eq_false_iff.mp hd)
  unfold trim
  rw [hfront, List.reverse_append, List.reverse_singleton, List.singleton_append, hback,
    List.reverse_cons, List.reverse_reverse]

theorem trim_append_left {front : List Char} (h : ∀ c ∈ front, isBlank c = true) (cs : List Char) :
    trim (front ++ cs) = trim cs := by
  unfold trim
  rw [List.dropWhile_append_of_pos h]

end Text

namespace Json

/-- A string that holds a text, with its characters as they stand or escaped. -/
def HoldsText (s : String) (j : Json) : Prop := ∃ body, WritesText s.toList body ∧ j = .string body

theorem HoldsText.read {s : String} {j : Json} (h : HoldsText s j) :
    j.IsWritable ∧ j.text? = some s ∧ j.variant? = some (s, none) := by
  obtain ⟨body, hbody, rfl⟩ := h
  have hname : String.ofList s.toList = s := String.ofList_toList
  refine ⟨hbody.isBody, ?_, ?_⟩
  · rw [text?, hbody.decode?, Option.map_some, hname]
  · rw [variant?, hbody.decode?, Option.map_some, hname]

theorem list?_of_forall₂ {α : Type} {decode : Json → Option α} {P : α → Json → Prop}
    (h : ∀ a j, P a j → decode j = some a) {as : List α} {js : List Json}
    (hall : List.Forall₂ P as js) : list? decode (.array js) = some as := by
  change js.mapM decode = some as
  induction hall with
  | nil => rfl
  | cons hj _ ih =>
    rw [List.mapM_cons, h _ _ hj, ih]
    rfl

theorem isWritable_of_forall₂ {α : Type} {P : α → Json → Prop} (h : ∀ a j, P a j → j.IsWritable)
    {as : List α} {js : List Json} (hall : List.Forall₂ P as js) : (array js).IsWritable := by
  refine areWritable_iff.mpr ?_
  induction hall with
  | nil => exact List.forall_mem_nil _
  | cons hj _ ih => exact List.forall_mem_cons.mpr ⟨h _ _ hj, ih⟩

/-- Members with the given names, in this order, and with values as `P` demands of each name. -/
def HasMembers (P : String → Json → Prop) (names : List String)
    (members : List (List Char × Json)) : Prop :=
  List.Forall₂ (fun name m => WritesText name.toList m.1 ∧ P name m.2) names members

section Members

variable {P : String → Json → Prop} {names known seen : List String}
  {members : List (List Char × Json)}

theorem HasMembers.memberEntries (h : HasMembers P names members) (hknown : names ⊆ known)
    (hseen : ∀ name ∈ names, name ∉ seen) (hnodup : names.Nodup) :
    memberEntries known seen members = names.zip (members.map Prod.snd) := by
  induction h generalizing seen with
  | nil => rfl
  | @cons name m names members hm _ ih =>
    obtain ⟨key, j⟩ := m
    obtain ⟨hnot, hnodup⟩ := List.nodup_cons.mp hnodup
    obtain ⟨hname, hknown⟩ := List.cons_subset.mp hknown
    obtain ⟨hfirst, hseen⟩ := List.forall_mem_cons.mp hseen
    have hseen' : ∀ other ∈ names, other ∉ name :: seen := fun other hother => by
      rw [List.mem_cons, not_or]
      exact ⟨fun heq => hnot (heq ▸ hother), hseen other hother⟩
    have hrest := ih hknown hseen' hnodup
    have hdecode : decode? key = some name.toList := hm.1.decode?
    rw [Json.memberEntries, hdecode]
    simp only [String.ofList_toList, if_neg hfirst, if_pos hname, hrest]
    rfl

theorem HasMembers.isWritable (h : HasMembers P names members)
    (hP : ∀ name j, P name j → j.IsWritable) : (object members).IsWritable := by
  refine membersAreWritable_iff.mpr ?_
  induction h with
  | nil => exact List.forall_mem_nil _
  | cons hm _ ih => exact List.forall_mem_cons.mpr ⟨⟨hm.1.isBody, hP _ _ hm.2⟩, ih⟩

theorem HasMembers.exists_lookup (h : HasMembers P names members) {name : String}
    (hname : name ∈ names) :
    ∃ j, (names.zip (members.map Prod.snd)).lookup name = some j ∧ P name j := by
  induction h with
  | nil => cases hname
  | @cons other m names members hm _ ih =>
    rw [List.map_cons, List.zip_cons_cons, List.lookup_cons]
    by_cases heq : name = other
    · subst heq
      exact ⟨m.2, by simp, hm.2⟩
    · have hbeq : (name == other) = false := beq_false_of_ne heq
      rw [hbeq]
      exact ih ((List.mem_cons.mp hname).resolve_left heq)

theorem HasMembers.record? (h : HasMembers P names members) (hP : ∀ name j, P name j → j.IsWritable)
    (hknown : names ⊆ known) (hnodup : names.Nodup) :
    (object members).record? known = some (names.zip (members.map Prod.snd)) := by
  have hentries : (object members).entries known = names.zip (members.map Prod.snd) :=
    h.memberEntries hknown (fun _ _ => List.not_mem_nil) hnodup
  have hwritable := membersAreWritable_iff.mp (h.isWritable hP)
  rw [Json.record?, hentries]
  refine if_pos (List.all_eq_true.mpr fun x hx => isWhole_of_isWritable ?_)
  obtain ⟨m, hm, heq⟩ := List.mem_map.mp (List.of_mem_zip hx).2
  exact heq ▸ (hwritable m hm).2

end Members

end Json

namespace Record

open Json Text

variable {r : Record} {line : List Char}

/-- The names of the parts of a record. -/
def partNames : List String := ["index", "kind", "type", "arity", "fields", "methods"]

/-- What is written for the part with the given name. -/
def WritesPart (r : Record) (name : String) (j : Json) : Prop :=
  match name with
  | "index" => j = .ofNat r.index
  | "kind" => HoldsText r.kind.name j
  | "type" => HoldsText r.typeName j
  | "arity" => j = .ofNat? r.arity
  | "fields" => ∃ js, List.Forall₂ HoldsText r.fields js ∧ j = .array js
  | "methods" => ∃ js, List.Forall₂ (fun m j => ∃ name arity,
      HoldsText m.1 name ∧ HoldsText m.2 arity ∧ j = .array [name, arity]) r.methods js ∧ j = .array js
  | _ => False

/-- An order for the parts, each once. An arity that is not known may be left out. -/
def IsOrder (r : Record) (names : List String) : Prop :=
  names.Perm partNames ∨ r.arity = none ∧ names.Perm (partNames.erase "arity")

/-- A compact JSON object for the record, with its parts in any order. -/
def Encodes (r : Record) (text : List Char) : Prop :=
  ∃ names members, r.IsOrder names ∧ HasMembers r.WritesPart names members ∧
    text = compactText (.object members)

/-- A line that holds the record: NUL characters and white space may come before its object, and white
space behind it. -/
def OnLine (r : Record) (line : List Char) : Prop :=
  ∃ k front text back, r.Encodes text ∧ (∀ c ∈ front, isBlank c = true) ∧
    (∀ c ∈ back, isBlank c = true) ∧ line = List.replicate k '\x00' ++ front ++ text ++ back

/-- Whether the numbers of the record fit sixty-four bits. -/
def IsSixtyFourBit (r : Record) : Prop :=
  r.index < 0x10000000000000000 ∧ ∀ n, r.arity = some n → n < 0x10000000000000000

theorem IsOrder.nodup {names : List String} (h : r.IsOrder names) : names.Nodup := by
  rcases h with h | ⟨-, h⟩
  · exact h.nodup_iff.mpr (by decide)
  · exact h.nodup_iff.mpr (by decide)

theorem IsOrder.subset {names : List String} (h : r.IsOrder names) : names ⊆ partNames := by
  rcases h with h | ⟨-, h⟩
  · exact h.subset
  · exact List.Subset.trans h.subset List.erase_subset

/-- Only the arity can be missing. -/
theorem IsOrder.mem {names : List String} (h : r.IsOrder names) {name : String}
    (hname : name ∈ partNames) (hne : name ≠ "arity") : name ∈ names := by
  rcases h with h | ⟨-, h⟩
  · exact h.mem_iff.mpr hname
  · exact h.mem_iff.mpr ((List.mem_erase_of_ne hne).mpr hname)

theorem IsOrder.arity {names : List String} (h : r.IsOrder names) :
    "arity" ∈ names ∨ r.arity = none ∧ "arity" ∉ names := by
  rcases h with h | ⟨hnone, h⟩
  · exact .inl (h.mem_iff.mpr (by decide))
  · exact .inr ⟨hnone, fun hmem => absurd (h.mem_iff.mp hmem) (by decide)⟩

theorem isWritable_of_writesPart (name : String) (j : Json) (h : r.WritesPart name j) :
    j.IsWritable := by
  unfold WritesPart at h
  split at h
  · exact h ▸ isWritable_ofNat _
  · exact h.read.1
  · exact h.read.1
  · subst h
    cases r.arity with
    | none => trivial
    | some n => exact isWritable_ofNat n
  · obtain ⟨js, hjs, rfl⟩ := h
    exact isWritable_of_forall₂ (fun _ _ hj => hj.read.1) hjs
  · obtain ⟨js, hjs, rfl⟩ := h
    refine isWritable_of_forall₂ ?_ hjs
    rintro m j ⟨name, arity, hname, harity, rfl⟩
    exact ⟨hname.read.1, harity.read.1, trivial⟩
  · cases h

theorem ofJson?_of_kind {kind : ValueKind} {j : Json} (h : HoldsText kind.name j) :
    ValueKind.ofJson? j = some kind := by
  unfold ValueKind.ofJson?
  rw [h.read.2.2]
  cases kind <;> rfl

theorem optional?_arity {names : List String} {members : List (List Char × Json)}
    (hr : r.IsSixtyFourBit) (hnames : r.IsOrder names) (h : HasMembers r.WritesPart names members) :
    optional? (names.zip (members.map Prod.snd)) "arity" (nat? countLimit) = some r.arity := by
  rcases hnames.arity with hmem | ⟨hnone, hmem⟩
  · obtain ⟨j, harity, rfl⟩ := h.exists_lookup hmem
    rw [optional?, field?, harity]
    cases hn : r.arity with
    | none => rfl
    | some n => exact congrArg (Option.map some) (nat?_ofNat (hr.2 n hn))
  · have harity : field? (names.zip (members.map Prod.snd)) "arity" = none := by
      refine List.lookup_eq_none_iff.mpr fun x hx => bne_iff_ne.mpr ?_
      rintro heq
      exact hmem (heq ▸ (List.of_mem_zip hx).1)
    rw [optional?, harity, hnone]

/-- Whatever the order of its keys, the object is read as the record. -/
theorem ofJson?_of_hasMembers (hr : r.IsSixtyFourBit) {names : List String}
    {members : List (List Char × Json)} (hnames : r.IsOrder names)
    (h : HasMembers r.WritesPart names members) : ofJson? (.object members) = some r := by
  have hfield (name : String) (hname : name ∈ partNames) (hne : name ≠ "arity") :
      ∃ j, field? (names.zip (members.map Prod.snd)) name = some j ∧ r.WritesPart name j :=
    h.exists_lookup (hnames.mem hname hne)
  have hrecord : (object members).record? partNames = some (names.zip (members.map Prod.snd)) :=
    h.record? isWritable_of_writesPart hnames.subset hnames.nodup
  obtain ⟨j₁, hindex, hindex'⟩ := hfield "index" (by decide) (by decide)
  obtain ⟨j₂, hkind, hkind'⟩ := hfield "kind" (by decide) (by decide)
  obtain ⟨j₃, htype, htype'⟩ := hfield "type" (by decide) (by decide)
  obtain ⟨j₄, hfields, js, hjs, rfl⟩ := hfield "fields" (by decide) (by decide)
  obtain ⟨j₅, hmethods, ms, hms, rfl⟩ := hfield "methods" (by decide) (by decide)
  have harity := optional?_arity hr hnames h
  have hcount : nat? countLimit j₁ = some r.index := hindex' ▸ nat?_ofNat hr.1
  have hkindOf : ValueKind.ofJson? j₂ = some r.kind := ofJson?_of_kind hkind'
  have htypeOf : j₃.text? = some r.typeName := (HoldsText.read htype').2.1
  have hfieldsOf : list? text? (.array js) = some r.fields :=
    list?_of_forall₂ (fun _ _ hj => hj.read.2.1) hjs
  have hmethodsOf : list? pairOfJson? (.array ms) = some r.methods := by
    refine list?_of_forall₂ ?_ hms
    rintro ⟨n, a⟩ j ⟨name, arity, hname, hpair, rfl⟩
    rw [pairOfJson?, hname.read.2.1, hpair.read.2.1]
    rfl
  change ((object members).record? partNames).bind _ = _
  simp only [hrecord, Option.bind_some, Option.bind_eq_bind, hindex, hkind, htype, hfields, hmethods,
    harity, hcount, hkindOf, htypeOf, hfieldsOf, hmethodsOf]
  rfl

/-- NUL characters and white space around an object do not count. -/
theorem ofLine?_object {members : List (List Char × Json)} (h : (object members).IsWritable) (k : Nat)
    {front back : List Char} (hfront : ∀ c ∈ front, isBlank c = true)
    (hback : ∀ c ∈ back, isBlank c = true) :
    ofLine? (List.replicate k '\x00' ++ front ++ compactText (.object members) ++ back) =
      ofJson? (.object members) := by
  have htext : compactText (.object members) = '\x7b' :: compactMembers members ++ ['\x7d'] := rfl
  have hdrop : (front ++ compactText (.object members) ++ back).dropWhile (· = '\x00') =
      front ++ compactText (.object members) ++ back := by
    rw [htext]
    cases front with
    | nil => exact List.dropWhile_cons_of_neg (by decide)
    | cons c cs =>
      refine List.dropWhile_cons_of_neg fun hnul => ?_
      have hblank := hfront c List.mem_cons_self
      rw [of_decide_eq_true hnul] at hblank
      exact absurd hblank (by decide)
  have htrim : trim (front ++ compactText (.object members) ++ back) =
      compactText (.object members) := by
    rw [trim_append hback, trim_append_left hfront, htext, trim_of_ends rfl rfl]
  have hread : read? (String.ofList (compactText (.object members))) = some (.object members) :=
    read?_compact h
  unfold ofLine?
  rw [List.append_assoc, List.append_assoc, List.dropWhile_append_of_pos (by simp),
    ← List.append_assoc, hdrop, htrim]
  rw [htext] at hread ⊢
  exact congrArg (Option.bind · ofJson?) hread

theorem ofLine?_of_onLine (hr : r.IsSixtyFourBit) (h : r.OnLine line) : ofLine? line = some r := by
  obtain ⟨k, front, text, back, ⟨names, members, hnames, hmembers, rfl⟩, hfront, hback, rfl⟩ := h
  rw [ofLine?_object (hmembers.isWritable isWritable_of_writesPart) k hfront hback]
  exact ofJson?_of_hasMembers hr hnames hmembers

theorem ofLine?_append_return (line : List Char) : ofLine? (line ++ ['\r']) = ofLine? line := by
  have hdrop : (line ++ ['\r']).dropWhile (· = '\x00') =
      line.dropWhile (· = '\x00') ++ ['\r'] := by
    rw [List.dropWhile_append]
    split
    · rename_i hempty
      rw [List.isEmpty_iff.mp hempty]
      rfl
    · rfl
  unfold ofLine?
  rw [hdrop, trim_append (List.forall_mem_singleton.mpr rfl)]

theorem ofLine?_chomp (line : List Char) : ofLine? (chomp line) = ofLine? line := by
  unfold chomp
  split
  · rename_i hlast
    obtain ⟨front, rfl⟩ := List.getLast?_eq_some_iff.mp hlast
    rw [List.dropLast_concat, ofLine?_append_return]
  · rfl

theorem filterMap_lines {texts : List (List Char)} {cs : List Char} (h : Joined texts cs) :
    (lines cs).filterMap ofLine? = texts.filterMap ofLine? := by
  induction h with
  | none => rfl
  | @last line h =>
    rw [lines_of_not_mem h]
    split
    · rename_i hnil
      rw [hnil]
      rfl
    · rfl
  | @lineFeed line cs texts h _ _ ih =>
    rw [lines_append_lineFeed h, List.filterMap_cons, List.filterMap_cons, ofLine?_chomp, ih]
  | @bothFeeds line cs texts h _ _ ih =>
    -- The carriage return belongs to the line, and it is one of the blanks that do not count.
    have hline : '\n' ∉ line ++ ['\r'] := by
      rw [List.mem_append, not_or]
      exact ⟨h, by decide⟩
    rw [List.append_cons, lines_append_lineFeed hline, List.filterMap_cons, List.filterMap_cons,
      ofLine?_chomp, ofLine?_append_return, ih]

/-- The records of a stream are those of its lines, in order. A record on a line is among them, and no
other line can hide, change or merge it. -/
theorem ofStream_joined {texts : List (List Char)} {stream : String}
    (h : Joined texts stream.toList) :
    ofStream stream = texts.filterMap ofLine? ∧
      ∀ (r : Record) (line : List Char), r.IsSixtyFourBit → r.OnLine line →
        ofLine? line = some r ∧ ∀ before after, texts = before ++ line :: after →
          ofStream stream = before.filterMap ofLine? ++ r :: after.filterMap ofLine? := by
  have hstream : ofStream stream = texts.filterMap ofLine? := filterMap_lines h
  refine ⟨hstream, fun r line hr hline => ?_⟩
  have hread : ofLine? line = some r := ofLine?_of_onLine hr hline
  refine ⟨hread, fun before after htexts => ?_⟩
  rw [hstream, htexts, List.filterMap_append, List.filterMap_cons_some hread]

/-- A record whose line has its keys in another order, a key and a name with escapes, and characters
around the object that do not count. -/
def emoji : Record :=
  { index := 3, kind := .classObject, typeName := "😀", arity := some 2
    methods := [("run", "0")] }

/-- The members of the object for `emoji`. -/
def emojiMembers : List (List Char × Json) :=
  [(encode "type".toList, .string "\\ud83d\\ude00".toList),
    ('\\' :: 'u' :: Text.Hex.digits 4 0x69 ++ encode "ndex".toList, .ofNat 3),
    (encode "methods".toList,
      .array [.array [.string (encode "run".toList), .string (encode "0".toList)]]),
    (encode "kind".toList, .string (encode "class".toList)), (encode "fields".toList, .array []),
    (encode "arity".toList, .ofNat 2)]

/-- The line of `emoji`. -/
def emojiLine : String :=
  "\x00\x00\t\x7b\"type\":\"\\ud83d\\ude00\",\"\\u0069ndex\":3,\"methods\":[[\"run\",\"0\"]]," ++
    "\"kind\":\"class\",\"fields\":[],\"arity\":2\x7d "

theorem hasMembers_emojiMembers :
    HasMembers emoji.WritesPart ["type", "index", "methods", "kind", "fields", "arity"]
      emojiMembers := by
  have hindex : WritesText "index".toList
      ('\\' :: 'u' :: Text.Hex.digits 4 0x69 ++ encode "ndex".toList) :=
    .cons (.number (hexUnit_digits (by decide))) (writesText_encode _)
  have htype : WritesText "😀".toList "\\ud83d\\ude00".toList :=
    .cons (.pair (hexUnit_digits (n := 0xd83d) (by decide)) (hexUnit_digits (n := 0xde00) (by decide))
      (by decide) (by decide) (by decide)) .nil
  have htext (s : String) : HoldsText s (.string (encode s.toList)) :=
    ⟨_, writesText_encode _, rfl⟩
  refine .cons ⟨writesText_encode _, _, htype, rfl⟩ <| .cons ⟨hindex, rfl⟩ <|
    .cons ⟨writesText_encode _, _, ?_, rfl⟩ <| .cons ⟨writesText_encode _, htext "class"⟩ <|
    .cons ⟨writesText_encode _, _, .nil, rfl⟩ <| .cons ⟨writesText_encode _, rfl⟩ .nil
  exact .cons ⟨_, _, htext "run", htext "0", rfl⟩ .nil

theorem emoji_onLine : emoji.OnLine emojiLine.toList :=
  ⟨2, ['\t'], compactText (.object emojiMembers), [' '],
    ⟨_, _, .inl (by decide), hasMembers_emojiMembers, rfl⟩, List.forall_mem_singleton.mpr rfl,
    List.forall_mem_singleton.mpr rfl, by decide +kernel⟩

/-- The record is read between a foreign line and a line that breaks off. -/
theorem ofStream_joined_emoji :
    Joined ["not json".toList, emojiLine.toList, "\x7b\"index\":1".toList]
        ("not json\r\n" ++ emojiLine ++ "\n\x7b\"index\":1").toList ∧
      emoji.IsSixtyFourBit ∧ emoji.OnLine emojiLine.toList ∧
      ofStream ("not json\r\n" ++ emojiLine ++ "\n\x7b\"index\":1") = [emoji] := by
  have hjoined : Joined ["not json".toList, emojiLine.toList, "\x7b\"index\":1".toList]
      ("not json\r\n" ++ emojiLine ++ "\n\x7b\"index\":1").toList := by
    rw [String.toList_append, String.toList_append]
    have hlast : Joined [emojiLine.toList, "\x7b\"index\":1".toList]
        (emojiLine.toList ++ '\n' :: "\x7b\"index\":1".toList) :=
      .lineFeed (by decide +kernel) (by decide) (.last (by decide))
    simpa using Joined.bothFeeds (by decide : '\n' ∉ "not json".toList) (by decide) hlast
  have hbits : emoji.IsSixtyFourBit := by
    refine ⟨by decide, ?_⟩
    rintro n ⟨⟩
    decide
  refine ⟨hjoined, hbits, emoji_onLine, ?_⟩
  rw [((ofStream_joined hjoined).2 emoji _ hbits emoji_onLine).2 ["not json".toList] _ rfl]
  decide +kernel

end Record

end ScriptFuzz
