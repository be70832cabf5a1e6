import ScriptFuzz.Proofs.Builder.Adoption
import ScriptFuzz.Proofs.Builder.Origins
import ScriptFuzz.Proofs.Builder.Room
import ScriptFuzz.Proofs.Code.Embedding

/-!
# Copies with renamed variables

While code is copied into a builder the variables of the copies are looked up, and a variable that has
been declared keeps its name. So all copies are renamed in the same way (`Builder.renamed_adoptAll`).
-/

namespace ScriptFuzz

set_option autoImplicit false

namespace Code

/-- What an instruction declares occurs neither before nor in its inputs. -/
structure DeclaresNew (c : Code) : Prop where
  own : ∀ i ∈ c, i.allOutputs.Nodup ∧ ∀ v ∈ i.inputs, v ∉ i.allOutputs
  later : c.Pairwise fun i j => ∀ v ∈ i.inouts, v ∉ j.allOutputs

variable {c d : Code} {k : Nat}

theorem Numbered.declaresNew (h : Numbered k c) : c.DeclaresNew := by
  induction c generalizing k with
  | nil => exact ⟨nofun, .nil⟩
  | cons i is ih =>
    have hrest := ih h.2.2
    refine ⟨List.forall_mem_cons.mpr ⟨⟨?_, ?_⟩, hrest.own⟩, List.pairwise_cons.mpr ⟨?_, hrest.later⟩⟩
    · refine List.Nodup.of_map Variable.number ?_
      rw [h.2.1]
      exact List.nodup_range'
    · exact fun v hin hv => h.not_mem_inputs hv hin
    · intro j hj v hv hout
      have hle := h.2.2.le_of_mem hj hout
      rcases Instruction.mem_inouts.mp hv with hv | hv
      · have := h.1 v hv
        omega
      · have := (h.number_of_mem hv).2
        omega

theorem declaresNew_of_check (h : c.check = .ok ()) : c.DeclaresNew :=
  (numbered_of_check h).declaresNew

theorem DeclaresNew.sublist (h : d.DeclaresNew) (hc : c.Sublist d) : c.DeclaresNew :=
  ⟨fun i hi => h.own i (hc.subset hi), h.later.sublist hc⟩

end Code

namespace Builder

variable {b b' : Builder} {i : Instruction} {is : Code} {r : List Variable × Builder}

theorem lookup_of_adopted {v w : Variable} (h : b.adopted v = .ok w) :
    b.adoption.lookup v = some w := by
  unfold adopted at h
  cases hlookup : b.adoption.lookup v with
  | none =>
    rw [hlookup] at h
    cases h
  | some u =>
    rw [hlookup] at h
    cases h
    rfl

theorem forall₂_of_mapM_adopted {vs ws : List Variable} (h : vs.mapM b.adopted = .ok ws) :
    List.Forall₂ (fun v w => b.adoption.lookup v = some w) vs ws := by
  induction vs generalizing ws with
  | nil =>
    cases h
    exact .nil
  | cons v vs ih =>
    rw [List.mapM_cons] at h
    cases hv : b.adopted v with
    | error f =>
      rw [hv] at h
      cases h
    | ok w =>
      cases hvs : vs.mapM b.adopted with
      | error f =>
        rw [hv, hvs] at h
        cases h
      | ok us =>
        rw [hv, hvs] at h
        cases h
        exact .cons (lookup_of_adopted hv) (ih hvs)

/-- What stands for a variable of the source. -/
def renamed (b : Builder) (v : Variable) : Variable := (b.adoption.lookup v).getD v

theorem renamed_congr {v : Variable} (h : b'.adoption.lookup v = b.adoption.lookup v) :
    b'.renamed v = b.renamed v := by
  rw [renamed, renamed, h]

theorem forall₂_lookup_zip {vs ws : List Variable} (old : List (Variable × Variable))
    (hlength : vs.length = ws.length) (hnodup : vs.Nodup) :
    List.Forall₂ (fun v w => ((vs.zip ws).reverse ++ old).lookup v = some w) vs ws := by
  induction vs generalizing ws old with
  | nil =>
    cases ws with
    | nil => exact .nil
    | cons w ws => cases hlength
  | cons v vs ih =>
    obtain ⟨w, ws, rfl⟩ := List.exists_cons_of_length_eq_add_one hlength.symm
    obtain ⟨hv, hvs⟩ := List.nodup_cons.mp hnodup
    rw [List.zip_cons_cons, List.reverse_cons, List.append_assoc, List.singleton_append]
    refine .cons ?_ (ih _ (Nat.succ.inj hlength) hvs)
    rw [lookup_zip_of_not_mem hv, List.lookup_cons_self]

/-- The builder has been extended by copies of the instructions `is`, renamed in the same way. -/
structure Copied (b : Builder) (is : Code) (b' : Builder) : Prop where
  code : ∃ js : Code, b'.code = b.code ++ js ∧ List.Forall₂ (Instruction.Renamed b'.renamed) is js
  /-- What is used has been adopted before, or is declared by the instructions themselves. -/
  known : ∀ i ∈ is, ∀ v ∈ i.inputs, (b.adoption.lookup v).isSome = true ∨ v ∈ is.declared
  others : ∀ v, v ∉ is.declared → b'.adoption.lookup v = b.adoption.lookup v

theorem copied_nil (b : Builder) : b.Copied [] b :=
  ⟨⟨[], (List.append_nil _).symm, .nil⟩, nofun, fun _ _ => rfl⟩

theorem Copied.append {is' : Code} {b'' : Builder} (h : b.Copied is b') (h' : b'.Copied is' b'')
    (hnew : ∀ i ∈ is, ∀ v ∈ i.inouts, v ∉ is'.declared) : b.Copied (is ++ is') b'' := by
  refine ⟨?_, ?_, ?_⟩
  · obtain ⟨js, hcode, hjs⟩ := h.code
    obtain ⟨ks, hcode', hks⟩ := h'.code
    refine ⟨js ++ ks, by rw [hcode', hcode, List.append_assoc], List.rel_append ?_ hks⟩
    have hkept := (List.forall₂_and_left _ _).mpr ⟨hnew, hjs⟩
    exact hkept.imp fun i j hij => hij.2.congr fun v hv => renamed_congr (h'.others v (hij.1 v hv))
  · rw [Code.declared_append]
    intro i hi v hv
    rw [List.mem_append]
    rcases List.mem_append.mp hi with hi | hi
    · exact (h.known i hi v hv).imp_right .inl
    · by_cases hmem : v ∈ is.declared
      · exact .inr (.inl hmem)
      · have := h'.known i hi v hv
        rw [h.others v hmem] at this
        exact this.imp_right .inr
  · rw [Code.declared_append]
    intro v hv
    rw [List.mem_append, not_or] at hv
    rw [h'.others v hv.2, h.others v hv.1]

theorem copied_adopt (h : b.adopt i = .ok r) (hnodup : i.allOutputs.Nodup)
    (hinputs : ∀ v ∈ i.inputs, v ∉ i.allOutputs) : b.Copied [i] r.2 := by
  have hdeclared : Code.declared [i] = i.allOutputs := List.append_nil _
  obtain ⟨inputs, c, hadopted, he, hr⟩ := exists_emit_of_adoptAs h
  have hlookup := forall₂_of_mapM_adopted hadopted
  obtain ⟨hlength, hproduced, hcode, -, -, hadoption⟩ := emitted he
  have hlookup' (v : Variable) (hv : v ∉ i.allOutputs) :
      r.2.adoption.lookup v = b.adoption.lookup v := by
    rw [hr]
    change (_ ++ c.adoption).lookup v = _
    rw [lookup_zip_of_not_mem hv, show c.adoption = b.adoption from hadoption]
  have hsizes : i.allOutputs.length = r.1.length := by
    rw [show r.1 = _ from hproduced, length_variablesFrom, declares_eq]
  refine ⟨⟨[b.drafted i.op inputs hlength], ?_, .cons ⟨rfl, ?_⟩ .nil⟩, ?_, ?_⟩
  · rw [hr]
    exact hcode
  · have hin : i.inputs.map r.2.renamed = inputs := by
      rw [← List.forall₂_eq_eq_eq, List.forall₂_map_left_iff]
      have hapart := (List.forall₂_and_left _ _).mpr ⟨hinputs, hlookup⟩
      refine hapart.imp fun v w hvw => ?_
      rw [renamed, hlookup' v hvw.1, hvw.2]
      rfl
    have hout : i.allOutputs.map r.2.renamed = r.1 := by
      rw [← List.forall₂_eq_eq_eq, List.forall₂_map_left_iff]
      refine (forall₂_lookup_zip c.adoption hsizes hnodup).imp fun v w hvw => ?_
      rw [renamed, hr]
      change (List.lookup v (_ ++ c.adoption)).getD v = w
      rw [hvw]
      rfl
    rw [← i.inputs_append_allOutputs, List.map_append, hin, hout, show r.1 = _ from hproduced]
    rfl
  · intro j hj v hv
    rw [List.mem_singleton.mp hj] at hv
    obtain ⟨w, -, hw⟩ := exists_of_forall₂ hlookup hv
    exact .inl (by rw [hw]; rfl)
  · rw [hdeclared]
    exact hlookup'

theorem copied_adoptAll (h : b.adoptAll is = .ok b') (hnew : is.DeclaresNew) : b.Copied is b' := by
  induction is generalizing b with
  | nil =>
    cases h
    exact copied_nil _
  | cons i is ih =>
    rw [adoptAll_cons] at h
    cases ha : b.adopt i with
    | error f =>
      rw [ha] at h
      cases h
    | ok r =>
      rw [ha] at h
      obtain ⟨hnodup, hinputs⟩ := hnew.own i List.mem_cons_self
      have hcopy := copied_adopt ha hnodup hinputs
      refine hcopy.append (ih h (hnew.sublist (List.sublist_cons_self i is))) ?_
      intro j hj v hv hmem
      rw [List.mem_singleton.mp hj] at hv
      obtain ⟨k, hk, hvk⟩ := Code.mem_declared.mp hmem
      exact (List.pairwise_cons.mp hnew.later).1 k hk v hv hvk

/-- What is copied into a builder that has adopted nothing uses what it declares itself. -/
theorem Copied.occurring (h : b.Copied is b') (hb : b.adoption = []) :
    is.occurring = {v | v ∈ is.declared} := by
  refine Set.Subset.antisymm ?_ ?_
  · rintro v ⟨i, hi, hv⟩
    rcases Instruction.mem_inouts.mp hv with hv | hv
    · refine (h.known i hi v hv).resolve_left ?_
      rw [hb]
      exact Bool.false_ne_true
    · exact Code.mem_declared.mpr ⟨i, hi, hv⟩
  · exact Code.declared_subset_occurring is

end Builder

end ScriptFuzz
