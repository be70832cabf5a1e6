import ScriptFuzz.Proofs.Code.Uses

/-!
# Scopes of checked code

A variable is in one scope only, in that of the block in which it is declared. The scopes around an open
block stay as they were where the block was started (`outsides_after`).
-/

namespace ScriptFuzz

set_option autoImplicit false

namespace Code

variable {p q : Progress} {n : Nat} {i : Instruction} {v : Variable} {c is pre : Code}

/-- What is an input somewhere is used. -/
theorem uses_pos (h : Numbered 0 c) (hi : i ∈ c) (hv : v ∈ i.inputs) : 0 < (c.usage v).uses := by
  obtain ⟨a, b, rfl⟩ := List.append_of_mem hi
  obtain ⟨before, j, after, rfl, hj⟩ := h.exists_declaration hv (Nat.zero_le _)
  rw [List.append_assoc, List.cons_append] at h ⊢
  rw [usage_of_declared h.of_append hj]
  exact List.count_pos_iff.mpr (List.mem_flatMap.mpr ⟨i, by simp, hv⟩)

namespace Progress

/-- No variable is in two scopes, or twice in one. -/
def Distinct (p : Progress) : Prop := p.scopes.flatten.Nodup

/-- What is visible has been declared by the code. -/
def SeesDeclared (c : Code) (p : Progress) : Prop :=
  ∀ v ∈ p.scopes.flatten, ∃ i ∈ c, v ∈ i.allOutputs

/-- A variable that is declared next is not visible yet. -/
theorem SeesNumbered.not_mem_scopes (h : p.SeesNumbered)
    (hi : i.allOutputs.map Variable.number = List.range' p.next i.allOutputs.length)
    (hv : v ∈ i.allOutputs) : v ∉ p.scopes.flatten := by
  intro hin
  obtain ⟨s, hs, hmem⟩ := List.mem_flatten.mp hin
  have hnew := List.mem_map_of_mem (f := Variable.number) hv
  rw [hi, List.mem_range'_1] at hnew
  have := h s hs v hmem
  omega

theorem nodup_of_numbered {vs : List Variable}
    (h : vs.map Variable.number = List.range' n vs.length) : vs.Nodup := by
  have hnumbers : (vs.map Variable.number).Nodup := by
    rw [h]
    exact List.nodup_range' 1 Nat.zero_lt_one
  refine (List.pairwise_map.mp hnumbers).imp ?_
  rintro v _ hne rfl
  exact hne rfl

theorem flatten_outerScopes_sublist : (p.outerScopes i).flatten.Sublist p.scopes.flatten := by
  unfold outerScopes
  split
  · cases p.scopes with
    | nil => exact List.Sublist.refl _
    | cons s scopes => exact List.sublist_append_right s scopes.flatten
  · exact List.Sublist.refl _

theorem Admits.not_mem_outerScopes (ha : p.Admits n i) (h : p.SeesNumbered) (hv : v ∈ i.allOutputs) :
    v ∉ (p.outerScopes i).flatten :=
  fun hin => h.not_mem_scopes ha.numbered hv (flatten_outerScopes_sublist.subset hin)

theorem Admits.mem_outerScopes (ha : p.Admits n i) (hv : v ∈ i.inputs) :
    v ∈ (p.outerScopes i).flatten := by
  have hplain : i.isBlockEnd = false := by
    rw [Bool.eq_false_iff]
    intro he
    rw [inputs_of_isBlockEnd he] at hv
    cases hv
  obtain ⟨scope, hscope, hmem⟩ := isVisible_iff.mp (ha.visible v hv)
  rw [outerScopes, hplain]
  exact List.mem_flatten_of_mem hscope hmem

/-- What is declared inside of a body is not visible around it. -/
theorem Admits.not_mem_around (ha : p.Admits n i) (hp : p.Balanced) (h : p.SeesNumbered)
    (hv : v ∈ i.innerOutputs) :
    v ∉ (((p.outerScopes i).headD [] ++ i.outputs) :: (p.outerScopes i).tail).flatten := by
  obtain ⟨s, scopes, ho⟩ := List.exists_cons_of_ne_nil (hp.outerScopes_ne_nil ha.closes)
  have hall := i.outputs_append_innerOutputs
  have hnodup := nodup_of_numbered ha.numbered
  rw [← hall, List.nodup_append] at hnodup
  have hfresh := ha.not_mem_outerScopes h (v := v) (hall ▸ List.mem_append_right _ hv)
  rw [ho, List.flatten_cons, List.mem_append, not_or] at hfresh
  rw [ho, List.headD_cons, List.tail_cons, List.flatten_cons, List.mem_append, List.mem_append,
    not_or, not_or]
  exact ⟨⟨hfresh.1, fun hin => hnodup.2.2 v hin v hv rfl⟩, hfresh.2⟩

/-- The scopes after an instruction are those before it, without the one that it ends, and what it
declares. -/
theorem flatten_scopes_after (hne : p.outerScopes i ≠ []) :
    (p.after i).scopes.flatten.Perm (i.allOutputs ++ (p.outerScopes i).flatten) := by
  obtain ⟨head, tail, ho⟩ := List.exists_cons_of_ne_nil hne
  have houtputs : (head ++ i.outputs ++ tail.flatten).Perm
      (i.outputs ++ (head ++ tail.flatten)) := by
    rw [← List.append_assoc]
    exact List.perm_append_comm.append_right _
  unfold Progress.after
  simp only [ho, List.headD_cons, List.tail_cons, ← i.outputs_append_innerOutputs]
  split
  · rw [List.flatten_cons, List.flatten_cons, List.flatten_cons]
    refine (houtputs.append_left _).trans ?_
    rw [← List.append_assoc]
    exact List.perm_append_comm.append_right _
  · rename_i hs
    rw [List.flatten_cons, List.flatten_cons, Instruction.innerOutputs_eq_nil (by simpa using hs),
      List.append_nil]
    exact houtputs

theorem Distinct.after_of_numbered (h : p.Distinct) (hs : p.SeesNumbered)
    (hi : i.allOutputs.map Variable.number = List.range' p.next i.allOutputs.length)
    (hne : p.outerScopes i ≠ []) : (p.after i).Distinct := by
  unfold Distinct
  rw [(flatten_scopes_after hne).nodup_iff, List.nodup_append]
  refine ⟨nodup_of_numbered hi, h.sublist flatten_outerScopes_sublist, ?_⟩
  rintro v hv _ hw rfl
  exact hs.not_mem_scopes hi hv (flatten_outerScopes_sublist.subset hw)

theorem Distinct.after (h : p.Distinct) (hp : p.Balanced) (hs : p.SeesNumbered)
    (ha : p.Admits n i) : (p.after i).Distinct :=
  h.after_of_numbered hs ha.numbered (hp.outerScopes_ne_nil ha.closes)

theorem SeesDeclared.after (h : p.SeesDeclared c) (hp : p.Balanced) (ha : p.Admits n i)
    (hi : i ∈ c) : (p.after i).SeesDeclared c := by
  intro v hv
  rw [(flatten_scopes_after (hp.outerScopes_ne_nil ha.closes)).mem_iff, List.mem_append] at hv
  rcases hv with hv | hv
  · exact ⟨i, hi, hv⟩
  · exact h v (flatten_outerScopes_sublist.subset hv)

/-- Open blocks with the variables that are visible around them. -/
def outsides : List Instruction → List (List Variable) → List (Instruction × List Variable)
  | i :: is, _ :: scopes => (i, scopes.flatten) :: outsides is scopes
  | _, _ => []

theorem outsides_cons (is : List Instruction) (s t : List Variable) (scopes : List (List Variable)) :
    outsides is (s :: scopes) = outsides is (t :: scopes) := by
  cases is <;> rfl

/-- What is visible around a block that an instruction starts. -/
def around (p : Progress) (i : Instruction) : List Variable := (p.after i).scopes.tail.flatten

theorem outsides_after (hp : p.Balanced) (ha : p.Admits n i) :
    outsides (p.after i).blocks (p.after i).scopes =
      (if i.isBlockStart then [(i, p.around i)] else []) ++
        (if i.isBlockEnd then (outsides p.blocks p.scopes).tail else outsides p.blocks p.scopes) := by
  have houter : outsides (p.outerBlocks i)
      (((p.outerScopes i).headD [] ++ i.outputs) :: (p.outerScopes i).tail) =
      if i.isBlockEnd then (outsides p.blocks p.scopes).tail else outsides p.blocks p.scopes := by
    obtain ⟨s, scopes, ho⟩ := List.exists_cons_of_ne_nil (hp.outerScopes_ne_nil ha.closes)
    rw [ho, List.headD_cons, List.tail_cons, outsides_cons _ _ s, ← ho]
    unfold outerScopes outerBlocks
    split
    · rename_i he
      obtain ⟨opener, rest, hb, -⟩ := ha.closes he
      have hlen := hp.scopes
      obtain ⟨t, ts, ht⟩ := List.exists_cons_of_length_pos (l := p.scopes) (by omega)
      rw [hb, ht]
      rfl
    · rfl
  rw [← houter]
  unfold around Progress.after
  cases i.isBlockStart <;> rfl

end Progress

end Code

end ScriptFuzz
