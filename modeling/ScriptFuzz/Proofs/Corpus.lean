import ScriptFuzz.Corpus
import ScriptFuzz.Proofs.Builder.Reading
import ScriptFuzz.Proofs.Code.Kinds

/-!
# What joins the corpus

Instructions that serve the fuzzer itself declare nothing and open nothing, so the check reads the
code without them as it reads the whole code, but for the positions of the open blocks
(`Progress.run_retain`). What joins the corpus is sound, not empty, and free of such instructions
(`Corpus.Pristine.add`).
-/

namespace ScriptFuzz

set_option autoImplicit false

/-- Only what prints serves the fuzzer itself. -/
theorem Instruction.op_of_isInternal {i : Instruction} (h : i.isInternal = true) :
    i.op = .print := by
  unfold isInternal has shape at h
  cases hop : i.op <;> rw [hop] at h <;> first | rfl | cases h

namespace Code.Progress

variable {p q final : Progress} {n k : Nat} {i : Instruction}

/-- An instruction that serves the fuzzer itself changes nothing. -/
theorem after_of_isInternal (hp : p.Balanced) (hi : i.isInternal = true) : p.after i = p := by
  have hop : i.op = .print := Instruction.op_of_isInternal hi
  have hstart : i.isBlockStart = false := by rw [Instruction.isBlockStart_eq, hop]
  have hend : i.isBlockEnd = false := by rw [Instruction.isBlockEnd_eq, hop]
  have houtputs : i.outputs = [] := Instruction.outputs_eq_nil (by rw [hop]; rfl)
  have hall : i.allOutputs = [] := by
    rw [← i.outputs_append_innerOutputs, houtputs, Instruction.innerOutputs_eq_nil hstart]
    rfl
  have hlength := hp.scopes
  obtain ⟨s, ss, hscopes⟩ := List.exists_cons_of_ne_nil (List.ne_nil_of_length_eq_add_one hlength)
  simp only [Progress.after, outerScopes, outerContexts, outerBlocks, defaultsAfter, hstart, hend,
    hop, houtputs, hall, hscopes, Bool.false_eq_true, if_false, List.length_nil, Nat.add_zero,
    List.headD_cons, List.tail_cons, List.append_nil]
  rw [← hscopes]

/-- The code is read on without its instructions that serve the fuzzer itself. -/
theorem run_retain {keep : Instruction → Bool} {is : Code}
    (hkeep : ∀ i ∈ is, keep i = false → i.isInternal = true) (hp : p.Balanced) (hq : q.Balanced)
    (h : p.Resembles q) (hrun : p.run n is = .ok final) :
    ∃ final', q.run k ((is.filter keep).mapIdx fun m i => i.placed (k + m)) = .ok final' ∧
      final.Resembles final' := by
  induction is generalizing p q n k with
  | nil =>
    cases hrun
    exact ⟨q, rfl, h⟩
  | cons i is ih =>
    obtain ⟨ha, hrun⟩ := (run_cons_eq_ok_iff hp).mp hrun
    have hrest := fun j hj => hkeep j (List.mem_cons_of_mem i hj)
    cases hi : keep i with
    | false =>
      -- Nothing is known after it that was not known before; only the positions fall back.
      rw [List.filter_cons_of_neg (by simp [hi])]
      rw [after_of_isInternal hp (hkeep i List.mem_cons_self hi)] at hrun
      exact ih hrest hp hq h hrun
    | true =>
      have ha' : q.Admits k (i.placed k) := h.admits (.placed i k) ha
      obtain ⟨final', hrun', hfinal⟩ :=
        ih (k := k + 1) hrest (hp.after ha) (hq.after ha') (h.after (.placed i k)) hrun
      refine ⟨final', ?_, hfinal⟩
      rw [List.filter_cons_of_pos hi, List.mapIdx_cons, run_cons_eq_ok_iff hq]
      refine ⟨ha', ?_⟩
      simpa only [Nat.add_zero, Nat.add_assoc, Nat.add_comm 1] using hrun'

end Code.Progress

open Code

variable {p : Program}

theorem mem_retain {c : Code} {keep : Instruction → Bool} {i : Instruction}
    (h : i ∈ c.retain keep) : ∃ j ∈ c, keep j = true ∧ i.op = j.op := by
  obtain ⟨n, hn, rfl⟩ := List.mem_mapIdx.mp h
  obtain ⟨hmem, hkeep⟩ := List.mem_filter.mp (List.getElem_mem hn)
  exact ⟨_, hmem, hkeep, rfl⟩

/-- The check reads a program without its instructions that serve the fuzzer itself as it reads the
whole program. -/
theorem Program.check_stripInternal (h : p.code.check = .ok ()) :
    p.stripInternal.code.check = .ok () := by
  obtain ⟨final, hrun, hblocks⟩ := check_eq_ok_iff_run.mp h
  have hkeep : ∀ i ∈ p.code, (fun i : Instruction => !i.isInternal) i = false →
      i.isInternal = true := fun i _ hi => by simpa using hi
  obtain ⟨final', hrun', hfinal⟩ := Progress.run_retain (k := 0) hkeep Progress.balanced_start
    Progress.balanced_start (Progress.resembles_refl {}) hrun
  have hblocks' : final'.blocks = [] := List.forall₂_nil_left_iff.mp (hblocks ▸ hfinal.blocks)
  refine check_eq_ok_iff_run.mpr ⟨final', ?_, hblocks'⟩
  simpa only [stripInternal, retain, renumber, Nat.zero_add] using hrun'

theorem Program.isSound_stripInternal (h : p.code.IsSound) : p.stripInternal.code.IsSound := by
  refine ⟨check_stripInternal h.check, fun i hi => ?_⟩
  obtain ⟨j, hj, -, hop⟩ := mem_retain hi
  rw [hop]
  exact h.countable j hj

theorem Program.isInternal_of_mem_stripInternal {i : Instruction} (h : i ∈ p.stripInternal.code) :
    i.isInternal = false := by
  obtain ⟨j, -, hkeep, hop⟩ := mem_retain h
  rw [Instruction.isInternal, Instruction.has, Instruction.shape, hop]
  change j.isInternal = false
  simpa using hkeep

namespace Corpus

/-- What a stored program is like: sound, not empty, and nothing in it serves the fuzzer itself. -/
structure Stores (p : Program) : Prop where
  sound : p.code.IsSound
  nonempty : p.code ≠ []
  plain : ∀ i ∈ p.code, i.isInternal = false

/-- All stored programs are as they should be. -/
def Pristine (c : Corpus) : Prop := ∀ p ∈ c.programs, Stores p

theorem pristine_empty : Pristine {} := nofun

theorem Pristine.add {c : Corpus} (h : c.Pristine) (hp : p.code.IsSound) : (c.add p).Pristine := by
  unfold Corpus.add
  simp only
  split
  · exact h
  · rename_i hempty
    intro q hq
    rcases List.mem_append.mp hq with hq | hq
    · exact h q hq
    · rw [List.mem_singleton.mp hq]
      refine ⟨Program.isSound_stripInternal hp, fun hnil => hempty ?_, fun i hi =>
        Program.isInternal_of_mem_stripInternal hi⟩
      rw [Program.isEmpty, hnil]
      rfl

theorem pristine_foldl {seeds : List Program} (h : ∀ p ∈ seeds, p.code.IsSound) {c : Corpus}
    (hc : c.Pristine) : (seeds.foldl Corpus.add c).Pristine := by
  induction seeds generalizing c with
  | nil => exact hc
  | cons p ps ih =>
    exact ih (fun q hq => h q (List.mem_cons_of_mem p hq)) (hc.add (h p List.mem_cons_self))

end Corpus

end ScriptFuzz
