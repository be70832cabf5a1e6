import ScriptFuzz.Environment
import ScriptFuzz.Proofs.Ordered

/-!
# Pools of names

The names of properties and methods and the interesting texts all come from the names that the paths of
the builtins consist of. `Environment.pools_ofBuiltins` says what is in each pool, and that a pool is a
set: neither the order nor the repetition of paths matters. One name gets lost on the way: that of the
custom property is never a method.
-/

namespace ScriptFuzz

set_option autoImplicit false

namespace Text

variable {sep : Char} {cs part : List Char}

/-- The first piece goes up to the first separator, each other one from a separator to the next. -/
theorem splitOn_eq_cons (sep : Char) (cs : List Char) :
    ∃ parts, splitOn sep cs = cs.takeWhile (· ≠ sep) :: parts ∧
      ∀ part, part ∈ parts ↔
        ∃ before rest, cs = before ++ sep :: rest ∧ part = rest.takeWhile (· ≠ sep) := by
  induction cs with
  | nil => exact ⟨[], rfl, by simp⟩
  | cons c cs ih =>
    obtain ⟨parts, hparts, hmem⟩ := ih
    by_cases hc : c = sep
    · subst hc
      refine ⟨cs.takeWhile (· ≠ c) :: parts, ?_, fun part => ?_⟩
      · rw [splitOn, if_pos rfl, hparts]
        simp
      · rw [List.mem_cons, hmem]
        constructor
        · rintro (rfl | ⟨before, rest, rfl, rfl⟩)
          · exact ⟨[], cs, rfl, rfl⟩
          · exact ⟨c :: before, rest, rfl, rfl⟩
        · rintro ⟨before, rest, hcs, rfl⟩
          cases before with
          | nil =>
            cases hcs
            exact .inl rfl
          | cons d before =>
            cases hcs
            exact .inr ⟨before, rest, rfl, rfl⟩
    · refine ⟨parts, ?_, fun part => ?_⟩
      · rw [splitOn, if_neg hc, hparts]
        simp [hc]
      · rw [hmem]
        constructor
        · rintro ⟨before, rest, rfl, rfl⟩
          exact ⟨c :: before, rest, rfl, rfl⟩
        · rintro ⟨before, rest, hcs, rfl⟩
          cases before with
          | nil =>
            cases hcs
            exact absurd rfl hc
          | cons d before =>
            cases hcs
            exact ⟨before, rest, rfl, rfl⟩

/-- A piece starts at the start of the text or behind a separator. -/
theorem mem_splitOn : part ∈ splitOn sep cs ↔ ∃ before rest, cs = before ++ rest ∧
    (∀ c ∈ before.getLast?, c = sep) ∧ part = rest.takeWhile (· ≠ sep) := by
  obtain ⟨parts, hparts, hmem⟩ := splitOn_eq_cons sep cs
  rw [hparts, List.mem_cons, hmem]
  constructor
  · rintro (rfl | ⟨before, rest, rfl, rfl⟩)
    · exact ⟨[], cs, rfl, nofun, rfl⟩
    · exact ⟨before ++ [sep], rest, by simp, by simp, rfl⟩
  · rintro ⟨before, rest, rfl, hlast, rfl⟩
    rcases List.eq_nil_or_concat before with rfl | ⟨before, c, rfl⟩
    · exact .inl rfl
    · obtain rfl : c = sep := hlast c (by simp)
      exact .inr ⟨before, rest, by simp, rfl⟩

end Text

namespace Environment

variable {name path : String} {paths : List String}

/-- A name of a path starts where the path starts or behind a separator, and goes on up to the next
separator or to the end. It is not empty. -/
def IsNameIn (name path : String) : Prop :=
  name ≠ "" ∧ ∃ before rest, path.toList = before ++ rest ∧
    (∀ c ∈ before.getLast?, c ∈ separators) ∧ name.toList = rest.takeWhile (· ∉ separators)

/-- Writing one separator for all of them keeps what is between them. -/
theorem takeWhile_map_mark (cs : List Char) :
    (cs.map fun c => if c ∈ separators then '.' else c).takeWhile (· ≠ '.') =
      cs.takeWhile (· ∉ separators) := by
  induction cs with
  | nil => rfl
  | cons c cs ih =>
    rw [List.map_cons]
    by_cases hc : c ∈ separators
    · rw [if_pos hc, List.takeWhile_cons_of_neg (by simp), List.takeWhile_cons_of_neg (by simp [hc])]
    · have hpoint : c ≠ '.' := by
        rintro rfl
        exact hc (by decide)
      rw [if_neg hc, List.takeWhile_cons_of_pos (by simp [hpoint]),
        List.takeWhile_cons_of_pos (by simp [hc]), ih]

theorem mem_namesOf : name ∈ namesOf path ↔ IsNameIn name path := by
  have hpoint : ∀ c : Char, (if c ∈ separators then '.' else c) = '.' ↔ c ∈ separators := by
    intro c
    split
    · simp [*]
    · rename_i hc
      refine iff_of_false ?_ hc
      rintro rfl
      exact hc (by decide)
  have hlist : ∀ cs : List Char, String.ofList cs = name ↔ cs = name.toList := fun cs =>
    ⟨fun h => h ▸ String.toList_ofList.symm, fun h => h ▸ String.ofList_toList⟩
  unfold namesOf IsNameIn
  simp only [List.mem_map, List.mem_filter, hlist, exists_eq_right, Text.mem_splitOn]
  rw [and_comm]
  refine and_congr ?_ ?_
  · simp [← String.toList_eq_nil_iff]
  · constructor
    · rintro ⟨before, rest, hsplit, hlast, hname⟩
      obtain ⟨before, rest, hpath, rfl, rfl⟩ := List.map_eq_append_iff.mp hsplit
      refine ⟨before, rest, hpath, ?_, hname.trans (takeWhile_map_mark rest)⟩
      intro c hc
      refine (hpoint c).mp (hlast _ ?_)
      rw [List.getLast?_map]
      exact Option.mem_map_of_mem _ hc
    · rintro ⟨before, rest, hpath, hlast, hname⟩
      refine ⟨_, _, by rw [hpath, List.map_append], ?_, hname.trans (takeWhile_map_mark rest).symm⟩
      intro d hd
      rw [List.getLast?_map] at hd
      obtain ⟨c, hc, rfl⟩ := Option.map_eq_some_iff.mp hd
      exact (hpoint c).mpr (hlast c hc)

theorem mem_components : name ∈ (ofBuiltins paths).components ↔ ∃ path ∈ paths, IsNameIn name path := by
  simp only [ofBuiltins, Ordered.mem_ofList, List.mem_flatMap, mem_namesOf]

/-- The pools of an environment whose builtins have the given paths. -/
structure Pools (paths : List String) (e : Environment) : Prop where
  mem_builtins : ∀ x, x ∈ e.builtins ↔ x ∈ paths
  mem_properties : ∀ x, x ∈ e.properties ↔ x = customProperty ∨ ∃ path ∈ paths, IsNameIn x path
  /-- The name of the custom property is taken out again, though a path may have it. -/
  mem_methods : ∀ x, x ∈ e.methods ↔
    x = customMethod ∨ x ≠ customProperty ∧ ∃ path ∈ paths, IsNameIn x path
  mem_strings : ∀ x, x ∈ e.strings ↔ x = "" ∨ ∃ path ∈ paths, IsNameIn x path
  builtins_ascending : e.builtins.Pairwise (· < ·)
  properties_ascending : e.properties.Pairwise (· < ·)
  methods_ascending : e.methods.Pairwise (· < ·)

theorem pools (paths : List String) : Pools paths (ofBuiltins paths) := by
  have hcomponents : (ofBuiltins paths).components.Pairwise (· < ·) := Ordered.pairwise_ofList _
  constructor
  · exact fun x => Ordered.mem_ofList
  · intro x
    rw [properties, Ordered.mem_insert, mem_components]
  · intro x
    simp only [methods, Ordered.mem_insert, List.mem_filter, mem_components, decide_not,
      Bool.not_eq_true', decide_eq_false_iff_not]
    exact or_congr_right and_comm
  · intro x
    rw [strings, List.mem_cons, mem_components]
  · exact Ordered.pairwise_ofList _
  · exact Ordered.pairwise_insert hcomponents _
  · exact Ordered.pairwise_insert (hcomponents.filter _) _

/-- The pools hold the names of all paths and nothing else but the custom names, ascending and without
repetition. Two lists of paths lead to the same environment exactly if they have the same elements. -/
theorem pools_ofBuiltins (paths : List String) :
    Pools paths (ofBuiltins paths) ∧
      ∀ others, ofBuiltins others = ofBuiltins paths ↔ ∀ x, x ∈ others ↔ x ∈ paths := by
  refine ⟨pools paths, fun others => ⟨fun h x => ?_, fun h => ?_⟩⟩
  · rw [← (pools others).mem_builtins, ← (pools paths).mem_builtins, h]
  · have hbuiltins : Ordered.ofList others = Ordered.ofList paths :=
      Ordered.eq_of_mem_iff (Ordered.pairwise_ofList _) (Ordered.pairwise_ofList _) fun x => by
        rw [Ordered.mem_ofList, Ordered.mem_ofList, h]
    simp only [ofBuiltins, hbuiltins]

/-- A builtin with the name of the custom property is not among the methods. -/
theorem methods_ofBuiltins_p :
    IsNameIn "p" "p" ∧ customMethod ≠ "p" ∧ "p" ∉ (ofBuiltins ["p"]).methods :=
  ⟨mem_namesOf.mp (by decide), by decide, by decide⟩

end Environment

end ScriptFuzz
