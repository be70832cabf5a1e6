import Mathlib.Data.Finset.Card
import Mathlib.Data.Finset.Dedup
import ScriptFuzz.Novelty

/-!
# Novelty

A run is interesting if it reports a pair of kind and type that no earlier run reported. What has
been seen is the set of all pairs reported so far (`Novelty.Knows`), whatever the order of the runs.
-/

namespace ScriptFuzz

set_option autoImplicit false

def Record.pair (r : Record) : ValueKind × String := (r.kind, r.typeName)

/-- The pairs that a run reports, in order. -/
def Execution.pairs (e : Execution) : List (ValueKind × String) :=
  (Record.ofStream e.fuzzout).map Record.pair

theorem Execution.mem_pairs (e : Execution) {p : ValueKind × String} :
    p ∈ e.pairs ↔
      ∃ line ∈ Text.lines e.fuzzout.toList, ∃ r, Record.ofLine? line = some r ∧ r.pair = p := by
  unfold pairs Record.ofStream
  rw [List.mem_map]
  constructor
  · rintro ⟨r, hr, hp⟩
    obtain ⟨line, hline, hline'⟩ := List.mem_filterMap.mp hr
    exact ⟨line, hline, r, hline', hp⟩
  · rintro ⟨line, hline, r, hline', hp⟩
    exact ⟨r, List.mem_filterMap.mpr ⟨line, hline, hline'⟩, hp⟩

namespace Novelty

/-- What is known after the given runs. -/
def after (es : List Execution) : Novelty := es.foldl (fun n e => (n.evaluate e).2) {}

/-- The pairs of `e` that no run before it reported, by their first appearance. -/
structure Finds (before : List Execution) (e : Execution) (found : List (ValueKind × String)) :
    Prop where
  mem : ∀ p, p ∈ found ↔ p ∈ e.pairs ∧ ∀ d ∈ before, p ∉ d.pairs
  ordered : found.Pairwise fun p q => e.pairs.idxOf p < e.pairs.idxOf q

/-- The pairs that the runs reported, each once. -/
structure Knows (n : Novelty) (es : List Execution) : Prop where
  nodup : n.seen.Nodup
  mem : ∀ p, p ∈ n.seen ↔ ∃ e ∈ es, p ∈ e.pairs

variable {seen found : List (ValueKind × String)} {p : ValueKind × String} {rs : List Record}
  {n : Novelty} {e : Execution} {es es' before : List Execution}

/-! ## One run -/

theorem seen_fresh (seen : List (ValueKind × String)) (rs : List Record) :
    (fresh seen rs).2 = (fresh seen rs).1.reverse ++ seen := by
  induction rs generalizing seen with
  | nil => rfl
  | cons r rs ih =>
    unfold fresh
    simp only
    split
    · exact ih seen
    · rw [ih]
      simp

theorem mem_fresh : p ∈ (fresh seen rs).1 ↔ p ∈ rs.map Record.pair ∧ p ∉ seen := by
  induction rs generalizing seen with
  | nil => simp [fresh]
  | cons r rs ih =>
    unfold fresh
    simp only
    rw [List.map_cons, List.mem_cons]
    split
    · rename_i hseen
      rw [ih]
      refine ⟨fun h => ⟨.inr h.1, h.2⟩, fun h => ⟨h.1.resolve_left ?_, h.2⟩⟩
      rintro rfl
      exact h.2 hseen
    · rename_i hnew
      rw [List.mem_cons, ih, List.mem_cons]
      by_cases hp : p = r.pair
      · subst hp
        exact ⟨fun _ => ⟨.inl rfl, hnew⟩, fun _ => .inl rfl⟩
      · simp only [Record.pair] at hp
        simp [hp, Record.pair]

theorem pairwise_fresh (seen : List (ValueKind × String)) (rs : List Record) :
    (fresh seen rs).1.Pairwise fun p q =>
      (rs.map Record.pair).idxOf p < (rs.map Record.pair).idxOf q := by
  induction rs generalizing seen with
  | nil => exact .nil
  | cons r rs ih =>
    -- What is found later is not the pair of the first record, so all positions move by one.
    have hlater {seen : List (ValueKind × String)} (hseen : r.pair ∈ seen) :
        (fresh seen rs).1.Pairwise fun p q =>
          ((r :: rs).map Record.pair).idxOf p < ((r :: rs).map Record.pair).idxOf q := by
      refine (ih seen).imp_of_mem fun {p q} hp hq hlt => ?_
      have hne {x : ValueKind × String} (hx : x ∈ (fresh seen rs).1) : r.pair ≠ x := by
        rintro rfl
        exact (mem_fresh.mp hx).2 hseen
      rw [List.map_cons, List.idxOf_cons_ne _ (hne hp), List.idxOf_cons_ne _ (hne hq)]
      exact Nat.succ_lt_succ hlt
    unfold fresh
    simp only
    split
    · rename_i hseen
      exact hlater hseen
    · refine List.pairwise_cons.mpr ⟨fun q hq => ?_, hlater List.mem_cons_self⟩
      have hne : r.pair ≠ q := by
        rintro rfl
        exact (mem_fresh.mp hq).2 List.mem_cons_self
      rw [List.map_cons, List.idxOf_cons_ne _ hne]
      simp [Record.pair]

theorem nodup_fresh (seen : List (ValueKind × String)) (rs : List Record) :
    (fresh seen rs).1.Nodup := by
  refine (pairwise_fresh seen rs).imp fun hlt heq => ?_
  rw [heq] at hlt
  exact Nat.lt_irrefl _ hlt

theorem evaluate_eq (n : Novelty) (e : Execution) :
    n.evaluate e =
      (if (fresh n.seen (Record.ofStream e.fuzzout)).1 = [] then none
        else some (describe (fresh n.seen (Record.ofStream e.fuzzout)).1),
       ⟨(fresh n.seen (Record.ofStream e.fuzzout)).2⟩) := by
  unfold evaluate
  cases fresh n.seen (Record.ofStream e.fuzzout) with
  | mk found seen => cases found <;> rfl

/-! ## All runs -/

theorem knows_start : Knows {} [] := ⟨.nil, by simp⟩

theorem Knows.evaluate (h : n.Knows es) (e : Execution) : (n.evaluate e).2.Knows (es ++ [e]) := by
  rw [evaluate_eq]
  simp only
  rw [seen_fresh]
  constructor
  · refine List.nodup_append'.mpr ⟨List.nodup_reverse.mpr (nodup_fresh _ _), h.nodup, ?_⟩
    intro p hp
    exact (mem_fresh.mp (List.mem_reverse.mp hp)).2
  · intro p
    rw [List.mem_append, List.mem_reverse, mem_fresh, h.mem]
    constructor
    · rintro (⟨hp, -⟩ | ⟨d, hd, hp⟩)
      · exact ⟨e, List.mem_append_right es (List.mem_singleton_self e), hp⟩
      · exact ⟨d, List.mem_append_left [e] hd, hp⟩
    · rintro ⟨d, hd, hp⟩
      rcases List.mem_append.mp hd with hd | hd
      · exact .inr ⟨d, hd, hp⟩
      · obtain rfl := List.mem_singleton.mp hd
        by_cases hknown : ∃ d ∈ es, p ∈ d.pairs
        · exact .inr hknown
        · exact .inl ⟨hp, hknown⟩

theorem after_concat (es : List Execution) (e : Execution) :
    after (es ++ [e]) = ((after es).evaluate e).2 := by
  unfold after
  rw [List.foldl_append]
  rfl

theorem knows_after (es : List Execution) : (after es).Knows es := by
  induction es using List.reverseRecOn with
  | nil => exact knows_start
  | append_singleton es e ih =>
    rw [after_concat]
    exact ih.evaluate e

theorem finds_fresh (before : List Execution) (e : Execution) :
    Finds before e (fresh (after before).seen (Record.ofStream e.fuzzout)).1 where
  mem p := by
    rw [mem_fresh, (knows_after before).mem, not_exists]
    simp only [not_and]
    rfl
  ordered := pairwise_fresh _ _

/-- A run is interesting if one of its pairs is new. -/
theorem isSome_evaluate (before : List Execution) (e : Execution) :
    ((after before).evaluate e).1.isSome ↔ ∃ p ∈ e.pairs, ∀ d ∈ before, p ∉ d.pairs := by
  have hmem := (finds_fresh before e).mem
  rw [evaluate_eq]
  cases hfound : (fresh (after before).seen (Record.ofStream e.fuzzout)).1 with
  | nil =>
    rw [hfound] at hmem
    simp only [if_true, Option.isSome_none, Bool.false_eq_true, false_iff]
    rintro ⟨p, hp⟩
    exact List.not_mem_nil ((hmem p).mpr hp)
  | cons p found =>
    rw [hfound] at hmem
    simp only [reduceCtorEq, if_false, Option.isSome_some, true_iff]
    exact ⟨p, (hmem p).mp List.mem_cons_self⟩

theorem size_after (es : List Execution) :
    (after es).size = (es.flatMap Execution.pairs).toFinset.card := by
  have h := knows_after es
  have hset : (after es).seen.toFinset = (es.flatMap Execution.pairs).toFinset := by
    ext p
    rw [List.mem_toFinset, h.mem, List.mem_toFinset, List.mem_flatMap]
  rw [← hset, List.toFinset_card_of_nodup h.nodup]
  rfl

/-- A run is interesting if a line of its side channel is a record of a new pair, and the new pairs
are what is told of it. How many pairs are known depends on the runs only, not on their order. -/
theorem evaluate_after (before : List Execution) (e : Execution) :
    (∃ found, Finds before e found ∧ ((after before).evaluate e).1 =
      if found = [] then none else some (describe found)) ∧
    (((after before).evaluate e).1.isSome ↔
      ∃ line ∈ Text.lines e.fuzzout.toList, ∃ r, Record.ofLine? line = some r ∧
        ∀ d ∈ before, r.pair ∉ d.pairs) ∧
    ∀ es : List Execution, (after es).size = (es.flatMap Execution.pairs).toFinset.card ∧
      ∀ es', es'.Perm es → (after es').size = (after es).size := by
  have hfinds := finds_fresh before e
  refine ⟨⟨_, hfinds, ?_⟩, ?_, fun es => ⟨size_after es, fun es' h => ?_⟩⟩
  · rw [evaluate_eq]
  · rw [isSome_evaluate]
    constructor
    · rintro ⟨p, hp, hnew⟩
      obtain ⟨line, hline, r, hr, rfl⟩ := e.mem_pairs.mp hp
      exact ⟨line, hline, r, hr, hnew⟩
    · rintro ⟨line, hline, r, hr, hnew⟩
      exact ⟨r.pair, e.mem_pairs.mpr ⟨line, hline, r, hr, rfl⟩, hnew⟩
  · rw [size_after, size_after, List.toFinset_eq_of_perm _ _ (h.flatMap_right _)]

/-- A run with a record and a line that is none. -/
def classRun : Execution where
  fuzzout :=
    "noise\n\x7b\"index\":0,\"kind\":\"class\",\"type\":\"a\",\"fields\":[],\"methods\":[]\x7d\n"

/-- A run with the same type name and another kind. -/
def objectRun : Execution where
  fuzzout := "\x7b\"index\":0,\"kind\":\"object\",\"type\":\"a\",\"fields\":[],\"methods\":[]\x7d"

theorem evaluate_after_objectRun :
    (∃ found, Finds [classRun] objectRun found ∧ describe found = "new types: object a") ∧
      (after [classRun, objectRun]).size = 2 ∧ (after [objectRun, classRun]).size = 2 := by
  have hclass : Record.ofStream classRun.fuzzout =
      [{ index := 0, kind := .classObject, typeName := "a" }] := by decide +kernel
  have hobject : Record.ofStream objectRun.fuzzout =
      [{ index := 0, kind := .object, typeName := "a" }] := by decide +kernel
  obtain ⟨⟨found, hfinds, hfound⟩, -, hsize⟩ := evaluate_after [classRun] objectRun
  obtain ⟨hcard, hperm⟩ := hsize [classRun, objectRun]
  have htwo : (after [classRun, objectRun]).size = 2 := by
    rw [hcard]
    simp only [List.flatMap_cons, List.flatMap_nil, Execution.pairs, hclass, hobject]
    rfl
  have htold : ((after [classRun]).evaluate objectRun).1 = some "new types: object a" := by
    simp only [after, List.foldl_cons, List.foldl_nil, evaluate_eq, hclass, hobject]
    rfl
  rw [htold] at hfound
  refine ⟨⟨found, hfinds, ?_⟩, htwo, (hperm _ (.swap _ _ [])).trans htwo⟩
  split at hfound
  · cases hfound
  · exact (Option.some.inj hfound).symm

end Novelty

end ScriptFuzz
