import ScriptFuzz.Proofs.Builder.Renaming

/-!
# Copies with further code between them

While code is copied instruction by instruction, further instructions may be added behind each copy
(`Builder.Interleaved`). They neither change what stands for a variable of the source nor who
contributed.
-/

namespace ScriptFuzz

set_option autoImplicit false

namespace Builder

/-- The instructions of `run` have been added. None of them is a copy. -/
structure Added (b : Builder) (run : Code) (b' : Builder) : Prop where
  code : b'.code = b.code ++ run
  adoption : b'.adoption = b.adoption
  contributors : b'.contributors = b.contributors
  parent : b'.parent = b.parent

variable {b b₁ b₂ b' : Builder} {run run' : Code} {i : Instruction} {is : Code} {op : Operation}
  {inputs : List Variable} {r : List Variable × Builder}

theorem Added.refl (b : Builder) : b.Added [] b := ⟨(List.append_nil _).symm, rfl, rfl, rfl⟩

theorem Added.trans (h : b.Added run b₁) (h' : b₁.Added run' b₂) : b.Added (run ++ run') b₂ where
  code := by rw [h'.code, h.code, List.append_assoc]
  adoption := h'.adoption.trans h.adoption
  contributors := h'.contributors.trans h.contributors
  parent := h'.parent.trans h.parent

theorem Added.renamed (h : b.Added run b') : b'.renamed = b.renamed := by
  funext v
  exact renamed_congr (by rw [h.adoption])

theorem added_emit (h : b.emit op inputs = .ok r) : ∃ j : Instruction, j.op = op ∧
    j.inputs = inputs ∧ j.allOutputs = r.1 ∧ b.Added [j] r.2 := by
  obtain ⟨hlength, hproduced, hcode, -, -, hadoption⟩ := emitted h
  have hcontinues := continues_emit h
  refine ⟨b.drafted op inputs hlength, rfl, inputs_drafted hlength, ?_, hcode, hadoption,
    hcontinues.contributors, hcontinues.parent⟩
  rw [allOutputs_drafted, hproduced]

/-- Copies of the instructions `is` have been added, and behind each copy a run that suits the
instruction, under the names that variables have in the end. -/
structure Interleaved (R : (Variable → Variable) → Instruction → Code → Prop) (b : Builder)
    (is : Code) (b' : Builder) : Prop where
  code : ∃ js runs, b'.code = b.code ++ js ∧ Code.Interleaves b'.renamed is runs js ∧
    List.Forall₂ (R b'.renamed) is runs
  others : ∀ v, v ∉ is.declared → b'.adoption.lookup v = b.adoption.lookup v
  contributors : b'.contributors = b.contributors
  parent : b'.parent = b.parent

variable {R : (Variable → Variable) → Instruction → Code → Prop}

theorem interleaved_nil (b : Builder) : b.Interleaved R [] b :=
  ⟨⟨[], [], (List.append_nil _).symm, .nil, .nil⟩, fun _ _ => rfl, rfl, rfl⟩

/-- One more copy in front, with the run behind it. -/
theorem Interleaved.cons (h : b₁.Interleaved R is b')
    (hR : ∀ (σ τ : Variable → Variable) (run : Code), (∀ v ∈ i.inouts, τ v = σ v) → R σ i run →
      R τ i run)
    (hnew : Code.DeclaresNew (i :: is)) (ha : b.adopt i = .ok r) (hadded : r.2.Added run b₁)
    (hrun : R b₁.renamed i run) : b.Interleaved R (i :: is) b' := by
  obtain ⟨hnodup, hinputs⟩ := hnew.own i List.mem_cons_self
  have hcopy := copied_adopt ha hnodup hinputs
  have hcontinues := continues_adoptAs ha
  -- What the instruction uses and declares keeps its name.
  have hkept : ∀ v ∈ i.inouts, b'.renamed v = b₁.renamed v := by
    intro v hv
    refine renamed_congr (h.others v ?_)
    intro hmem
    obtain ⟨k, hk, hvk⟩ := Code.mem_declared.mp hmem
    exact (List.pairwise_cons.mp hnew.later).1 k hk v hv hvk
  refine ⟨?_, ?_, ?_, ?_⟩
  · obtain ⟨copy, hcode, hrenamed⟩ := hcopy.code
    obtain _ | ⟨hij, hnil⟩ := hrenamed
    cases hnil
    rename_i j
    obtain ⟨js, runs, hcode', hinterleaves, hruns⟩ := h.code
    refine ⟨j :: (run ++ js), run :: runs, ?_, .cons (hij.congr ?_) hinterleaves,
      .cons (hR _ _ run hkept hrun) hruns⟩
    · rw [hcode', hadded.code, hcode]
      simp
    · intro v hv
      rw [hkept v hv, hadded.renamed]
  · rw [Code.declared_cons]
    intro v hv
    rw [List.mem_append, not_or] at hv
    rw [h.others v hv.2, hadded.adoption]
    refine hcopy.others v ?_
    rw [Code.declared_cons, List.mem_append, not_or]
    exact ⟨hv.1, List.not_mem_nil⟩
  · exact (h.contributors.trans hadded.contributors).trans hcontinues.contributors
  · exact (h.parent.trans hadded.parent).trans hcontinues.parent

end Builder

end ScriptFuzz
