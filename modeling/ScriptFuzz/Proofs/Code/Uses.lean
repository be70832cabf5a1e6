import ScriptFuzz.Proofs.Code.Reading

/-!
# Uses of variables in checked code

In checked code every variable is declared once, before it is used. So `Code.usage` counts what
follows the declaration.
-/

namespace ScriptFuzz

set_option autoImplicit false

namespace Code

/-- How often a variable is an input. -/
def uses (c : Code) (v : Variable) : Nat := (c.flatMap Instruction.inputs).count v

/-- How often a variable is the target of an assignment. -/
def assignments (c : Code) (v : Variable) : Nat :=
  c.countP fun i => i.op.assigns && i.input 0 == v

/-- The code declares its variables from number `k` on, and uses only what is declared before. -/
def Numbered : Nat → Code → Prop
  | _, [] => True
  | k, i :: is =>
    (∀ v ∈ i.inputs, v.number < k) ∧
      i.allOutputs.map Variable.number = List.range' k i.allOutputs.length ∧
      Numbered (k + i.allOutputs.length) is

variable {c pre is : Code} {i : Instruction} {v : Variable} {k : Nat}

theorem uses_cons : uses (i :: is) v = i.inputs.count v + uses is v := by
  simp [uses]

theorem assignments_cons : assignments (i :: is) v =
    assignments is v + if i.op.assigns && i.input 0 == v then 1 else 0 :=
  List.countP_cons

theorem Numbered.le_of_mem (h : Numbered k c) {j : Instruction} (hj : j ∈ c)
    (hv : v ∈ j.allOutputs) : k ≤ v.number := by
  induction c generalizing k with
  | nil => cases hj
  | cons i is ih =>
    obtain ⟨_, hnum, hrest⟩ := h
    rcases List.mem_cons.mp hj with rfl | hj
    · have := List.mem_map_of_mem (f := Variable.number) hv
      rw [hnum, List.mem_range'_1] at this
      exact this.1
    · have := ih hrest hj
      omega

/-- The number of a variable that the first instruction declares. -/
theorem Numbered.number_of_mem (h : Numbered k (i :: is)) (hv : v ∈ i.allOutputs) :
    k ≤ v.number ∧ v.number < k + i.allOutputs.length := by
  have := List.mem_map_of_mem (f := Variable.number) hv
  rwa [h.2.1, List.mem_range'_1] at this

/-- The numbers of all variables lie below that of the next one. -/
theorem Numbered.lt_of_mem (h : Numbered k c) {j : Instruction} (hj : j ∈ c)
    (hv : v ∈ j.inouts) : v.number < k + c.numVariables := by
  induction c generalizing k with
  | nil => cases hj
  | cons i is ih =>
    change v.number < k + (i.allOutputs.length + Code.numVariables is)
    rcases List.mem_cons.mp hj with rfl | hj
    · rw [← j.inputs_append_allOutputs] at hv
      rcases List.mem_append.mp hv with hv | hv
      · have := h.1 v hv
        omega
      · have := (h.number_of_mem hv).2
        omega
    · have := ih h.2.2 hj
      omega

/-- An instruction does not use what it declares. -/
theorem Numbered.not_mem_inputs (h : Numbered k (i :: is)) (hv : v ∈ i.allOutputs) :
    v ∉ i.inputs := by
  intro hin
  have := h.1 v hin
  have := (h.number_of_mem hv).1
  omega

/-- No variable is declared again. -/
theorem Numbered.not_mem_allOutputs (h : Numbered k (i :: is)) (hv : v ∈ i.allOutputs)
    {j : Instruction} (hj : j ∈ is) : v ∉ j.allOutputs := by
  intro hv'
  have := h.2.2.le_of_mem hj hv'
  have := (h.number_of_mem hv).2
  omega

theorem Numbered.of_append (h : Numbered k (pre ++ c)) :
    Numbered (k + pre.numVariables) c := by
  induction pre generalizing k with
  | nil => exact h
  | cons i is ih =>
    have := ih h.2.2
    rwa [Nat.add_assoc] at this

/-- What an instruction uses is declared before. -/
theorem Numbered.exists_declaration (h : Numbered k (c ++ i :: is)) (hv : v ∈ i.inputs)
    (hk : k ≤ v.number) : ∃ before j after, c = before ++ j :: after ∧ v ∈ j.allOutputs := by
  induction c generalizing k with
  | nil =>
    have := h.1 v hv
    omega
  | cons j js ih =>
    by_cases hj : v ∈ j.allOutputs
    · exact ⟨[], j, js, rfl, hj⟩
    · have hnot : v.number ∉ List.range' k j.allOutputs.length := by
        rw [← h.2.1, List.mem_map]
        rintro ⟨w, hw, hnumber⟩
        refine hj ?_
        cases w
        cases v
        cases hnumber
        exact hw
      rw [List.mem_range'_1] at hnot
      obtain ⟨before, d, after, rfl, hd⟩ := ih h.2.2 (by omega)
      exact ⟨j :: before, d, after, rfl, hd⟩

theorem inputs_of_isBlockEnd (h : i.isBlockEnd = true) : i.inputs = [] := by
  refine Instruction.inputs_eq_nil ?_
  rw [Instruction.isBlockEnd_eq] at h
  cases hop : i.op <;> rw [hop] at h <;> first | rfl | cases h

/-- The target of an assignment is an input. -/
theorem input_zero_mem_inputs (h : i.op.assigns = true) : i.input 0 ∈ i.inputs := by
  have hlen : 0 < i.inputs.length := by
    rw [i.length_inputs, Instruction.shape]
    cases hop : i.op <;> rw [hop] at h <;> first | exact Nat.zero_lt_two | cases h
  rw [Instruction.input, List.getElem?_eq_getElem hlen]
  exact List.getElem_mem hlen

/-- What assigns to a variable neither starts nor ends a block. -/
theorem not_isBlock_of_assigns (h : i.op.assigns = true) :
    i.isBlockStart = false ∧ i.isBlockEnd = false := by
  rw [Instruction.isBlockStart_eq, Instruction.isBlockEnd_eq]
  cases hop : i.op <;> rw [hop] at h <;> first | exact ⟨rfl, rfl⟩ | cases h

/-- The counts of a variable grow by what follows, if that does not declare the variable. -/
theorem foldl_usage (u : Usage) (h : ∀ j ∈ is, v ∉ j.allOutputs) :
    is.foldl (Usage.step v) u =
      { uses := u.uses + is.uses v, assignments := u.assignments + is.assignments v } := by
  induction is generalizing u with
  | nil => rfl
  | cons j js ih =>
    have hj : Usage.step v u j =
        { uses := u.uses + j.inputs.count v
          assignments := u.assignments + if j.op.assigns && j.input 0 == v then 1 else 0 } := by
      rw [Usage.step, if_neg (h j List.mem_cons_self)]
      split <;> simp
    rw [List.foldl_cons, ih _ fun j' hj' => h j' (List.mem_cons_of_mem _ hj'), hj, uses_cons,
      assignments_cons]
    simp only [Usage.mk.injEq]
    omega

/-- The counts of a variable are those of what follows its declaration. -/
theorem usage_of_declared (h : Numbered k (i :: is)) (hv : v ∈ i.allOutputs) :
    (pre ++ i :: is).usage v =
      { uses := is.uses v, assignments := is.assignments v + 1 } := by
  have hin := h.not_mem_inputs hv
  have hassign : (i.op.assigns && i.input 0 == v) = false := by
    rw [Bool.eq_false_iff]
    intro h'
    rw [Bool.and_eq_true, beq_iff_eq] at h'
    exact hin (h'.2 ▸ input_zero_mem_inputs h'.1)
  rw [usage, List.foldl_append, List.foldl_cons, foldl_usage _ fun j => h.not_mem_allOutputs hv,
    Usage.step, if_pos hv, hassign, List.count_eq_zero_of_not_mem hin]
  simp [Nat.add_comm]

theorem isSingleAssignment_iff (h : Numbered k (i :: is)) (hv : v ∈ i.allOutputs) :
    ((pre ++ i :: is).usage v).isSingleAssignment = true ↔ is.assignments v = 0 := by
  rw [usage_of_declared h hv, Usage.isSingleAssignment]
  simp

/-- A variable that is the target of an assignment is assigned more than once. -/
theorem isSingleAssignment_of_assigns (h : Numbered 0 c) (hi : i ∈ c)
    (ha : i.op.assigns = true) : (c.usage (i.input 0)).isSingleAssignment = false := by
  obtain ⟨a, b, rfl⟩ := List.append_of_mem hi
  obtain ⟨before, j, after, rfl, hj⟩ :=
    h.exists_declaration (input_zero_mem_inputs ha) (Nat.zero_le _)
  rw [List.append_assoc, List.cons_append] at h ⊢
  rw [Bool.eq_false_iff]
  intro hsingle
  rw [isSingleAssignment_iff h.of_append hj] at hsingle
  have hpos : 0 < assignments (after ++ i :: b) (i.input 0) := by
    rw [assignments, List.countP_pos_iff]
    exact ⟨i, by simp, by simp [ha]⟩
  omega

end Code

namespace Code.Progress

/-- What is visible has been numbered. -/
def SeesNumbered (p : Progress) : Prop := ∀ s ∈ p.scopes, ∀ v ∈ s, v.number < p.next

theorem SeesNumbered.after_of_numbered {p : Progress} {i : Instruction} (h : p.SeesNumbered)
    (hi : i.allOutputs.map Variable.number = List.range' p.next i.allOutputs.length) :
    (p.after i).SeesNumbered := by
  have hall (v : Variable) (hv : v ∈ i.allOutputs) :
      v.number < p.next + i.allOutputs.length := by
    have := List.mem_map_of_mem (f := Variable.number) hv
    rw [hi, List.mem_range'_1] at this
    exact this.2
  have houter (s : List Variable) (hs : s ∈ p.outerScopes i) (v : Variable) (hv : v ∈ s) :
      v.number < p.next + i.allOutputs.length := by
    have hs' : s ∈ p.scopes := by
      rw [outerScopes] at hs
      split at hs
      · exact List.mem_of_mem_tail hs
      · exact hs
    have := h s hs' v hv
    omega
  have hscopes (s : List Variable)
      (hs : s ∈ ((p.outerScopes i).headD [] ++ i.outputs) :: (p.outerScopes i).tail)
      (v : Variable) (hv : v ∈ s) : v.number < p.next + i.allOutputs.length := by
    rcases List.mem_cons.mp hs with rfl | hs
    · rcases List.mem_append.mp hv with hv | hv
      · cases ho : p.outerScopes i with
        | nil => simp [ho] at hv
        | cons t ts =>
          rw [ho, List.headD_cons] at hv
          exact houter t (by simp [ho]) v hv
      · exact hall v (List.mem_of_mem_take hv)
    · exact houter s (List.mem_of_mem_tail hs) v hv
  intro s hs v hv
  change v.number < p.next + i.allOutputs.length
  unfold Progress.after at hs
  simp only at hs
  split at hs
  · rcases List.mem_cons.mp hs with rfl | hs
    · exact hall v (List.mem_of_mem_drop hv)
    · exact hscopes s hs v hv
  · exact hscopes s hs v hv

theorem SeesNumbered.after {p : Progress} {n : Nat} {i : Instruction} (h : p.SeesNumbered)
    (ha : p.Admits n i) : (p.after i).SeesNumbered := h.after_of_numbered ha.numbered

theorem numbered_of_run {p q : Progress} {n : Nat} {c : Code} (hp : p.Balanced)
    (hv : p.SeesNumbered) (h : p.run n c = .ok q) : c.Numbered p.next := by
  induction c generalizing p n with
  | nil => trivial
  | cons i is ih =>
    obtain ⟨ha, hrun⟩ := (run_cons_eq_ok_iff hp).mp h
    refine ⟨?_, ha.numbered, ih (hp.after ha) (hv.after ha) hrun⟩
    intro v hin
    obtain ⟨s, hs, hmem⟩ := isVisible_iff.mp (ha.visible v hin)
    exact hv s hs v hmem

theorem seesNumbered_start : SeesNumbered {} := by
  intro s hs v hv
  rcases List.mem_singleton.mp hs with rfl
  cases hv

end Code.Progress

end ScriptFuzz
