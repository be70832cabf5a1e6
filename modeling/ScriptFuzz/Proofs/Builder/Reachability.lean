import ScriptFuzz.Proofs.Builder.Acceptance

/-!
# What a builder can come to be

`Builder.Reachable` holds of every builder that some sequence of operations makes from a new one. A
reachable builder may hold code that the check refuses, namely a case after a default case; its
stacks fit together all the same (`Builder.Reachable.exists_stands`).
-/

namespace ScriptFuzz

set_option autoImplicit false

open Code

namespace Builder

variable {b b' : Builder} {p : Progress} {op : Operation} {inputs produced : List Variable}

/-- Made from a new builder by the operations that change one. The constructions of single values and
of blocks are made of these. -/
inductive Reachable : Builder → Prop where
  | new : Reachable {}
  | derived (parent : Program) : Reachable (derivedFrom parent)
  | emit {b : Builder} {op : Operation} {inputs : List Variable} {r : List Variable × Builder} :
      Reachable b → b.emit op inputs = .ok r → Reachable r.2
  | beginAdoption {b : Builder} : Reachable b → Reachable b.beginAdoption
  | adoptAs {b : Builder} {i : Instruction} {op : Operation} {r : List Variable × Builder} :
      Reachable b → b.adoptAs i op = .ok r → Reachable r.2
  | annotate {b : Builder} (comments : Comments) (contributors : List String) :
      Reachable b → Reachable { b with comments, contributors }

theorem Reachable.emitAll {steps : List (Operation × List Variable)} (h : b.Reachable)
    (he : b.emitAll steps = .ok b') : b'.Reachable := by
  induction steps generalizing b with
  | nil =>
    cases he
    exact h
  | cons step steps ih =>
    obtain ⟨r, hr, hrest⟩ := emitAll_cons_eq_ok_iff.mp he
    exact ih (h.emit hr) hrest

theorem stands_start : Stands {} {} := reads_start.stands

theorem Stands.congr (h : b.Stands p) (hcode : b'.code = b.code)
    (hnext : b'.nextVariable = b.nextVariable) (hscopes : b'.scopes = b.scopes)
    (hcontexts : b'.contexts = b.contexts) (hblocks : b'.openBlocks = b.openBlocks) :
    b'.Stands p where
  next := hnext.trans h.next
  scopes := hscopes.trans h.scopes
  contexts := hcontexts.trans h.contexts
  blocks := hblocks.trans h.blocks
  balanced := h.balanced
  openers i hi := hcode ▸ h.openers i hi

/-- Adding an instruction at the end of the code keeps the stacks in step. -/
theorem Stands.extended (h : b.Stands p) {i : Instruction} (hindex : i.index = b.code.length)
    (hcloses : i.isBlockEnd = true → ∃ opener rest, p.blocks = opener :: rest ∧
      i.op.closes opener.op = true) : (b.extended p i).Stands (p.after i) where
  next := rfl
  scopes := rfl
  contexts := rfl
  blocks := rfl
  balanced := h.balanced.after_of_closes hcloses
  openers j hj := by
    have hopen : j ∈ p.outerBlocks i → (b.code ++ [i])[j.index]? = some j := by
      intro hj
      have hget : b.code[j.index]? = some j := by
        refine h.openers j ?_
        unfold Progress.outerBlocks at hj
        split at hj
        · exact List.mem_of_mem_tail hj
        · exact hj
      rwa [List.getElem?_append_left (List.getElem?_eq_some_iff.mp hget).1]
    change (b.code ++ [i])[j.index]? = some j
    simp only [Progress.after] at hj
    split at hj
    · rcases List.mem_cons.mp hj with rfl | hj
      · rw [hindex, List.getElem?_concat_length]
      · exact hopen hj
    · exact hopen hj

theorem Stands.emit (h : b.Stands p) {r : List Variable × Builder}
    (he : b.emit op inputs = .ok r) : ∃ q, r.2.Stands q := by
  obtain ⟨produced, b'⟩ := r
  obtain ⟨-, -, hfits, -, rfl⟩ := (emit_eq_ok_iff h).mp he
  exact ⟨_, h.extended rfl hfits.closes⟩

/-- A copy is an emission that is remembered. -/
theorem exists_emit_of_adoptAs {i : Instruction} {r : List Variable × Builder}
    (h : b.adoptAs i op = .ok r) : ∃ inputs b', i.inputs.mapM b.adopted = .ok inputs ∧
      b.emit op inputs = .ok (r.1, b') ∧
        r.2 = { b' with adoption := (i.allOutputs.zip r.1).reverse ++ b'.adoption } := by
  unfold adoptAs at h
  simp only [bind, Except.bind] at h
  split at h
  · cases h
  split at h
  · cases h
  split at h
  · cases h
  rename_i inputs hinputs
  split at h
  · cases h
  rename_i produced he
  cases h
  exact ⟨inputs, produced.2, hinputs, he, rfl⟩

/-- What emissions keep, and what depends on the code and the stacks alone, holds of every reachable
builder. -/
theorem Reachable.keeps {I : Builder → Prop} (hstart : I {})
    (hemit : ∀ {b : Builder} {op : Operation} {inputs : List Variable}
      {r : List Variable × Builder}, I b → b.emit op inputs = .ok r → I r.2)
    (hcongr : ∀ {b b' : Builder}, I b → b'.code = b.code → b'.nextVariable = b.nextVariable →
      b'.scopes = b.scopes → b'.contexts = b.contexts → b'.openBlocks = b.openBlocks →
      b'.definitions = b.definitions → I b')
    (h : b.Reachable) : I b := by
  induction h with
  | new => exact hstart
  | derived parent => exact hcongr hstart rfl rfl rfl rfl rfl rfl
  | emit _ he ih => exact hemit ih he
  | beginAdoption _ ih => exact hcongr ih rfl rfl rfl rfl rfl rfl
  | adoptAs _ ha ih =>
    obtain ⟨inputs, b', -, he, hr⟩ := exists_emit_of_adoptAs ha
    rw [hr]
    exact hcongr (hemit ih he) rfl rfl rfl rfl rfl rfl
  | annotate comments contributors _ ih => exact hcongr ih rfl rfl rfl rfl rfl rfl

/-- The stacks of a reachable builder are those of a reading. -/
theorem Reachable.exists_stands (h : b.Reachable) : ∃ p, b.Stands p := by
  refine h.keeps (I := fun b => ∃ p, b.Stands p) ⟨{}, stands_start⟩ ?_ ?_
  · rintro b op inputs r ⟨p, hp⟩ he
    exact hp.emit he
  · rintro b b' ⟨p, hp⟩ hcode hnext hscopes hcontexts hblocks -
    exact ⟨p, hp.congr hcode hnext hscopes hcontexts hblocks⟩

end Builder

end ScriptFuzz
