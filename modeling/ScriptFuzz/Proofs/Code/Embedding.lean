import Mathlib.Data.List.Forall2
import Mathlib.Data.List.Nodup
import Mathlib.Data.Set.Function
import ScriptFuzz.Proofs.Code.Nesting
import ScriptFuzz.Proofs.Code.Uses

/-!
# Code inside of other code

Code may hold copies of the instructions of other code, with the variables renamed, and further
instructions behind each copy (`Code.Interleaves`). Where all of it declares its variables once, the
renaming is injective, and no copy uses what is declared between the copies.
-/

namespace ScriptFuzz

set_option autoImplicit false

/-- A copy of an instruction with its variables renamed. -/
structure Instruction.Renamed (σ : Variable → Variable) (i j : Instruction) : Prop where
  op : j.op = i.op
  inouts : j.inouts = i.inouts.map σ

namespace Instruction

variable {σ τ : Variable → Variable} {i j : Instruction}

theorem renamed_id (i : Instruction) : i.Renamed id i := ⟨rfl, (List.map_id _).symm⟩

theorem Renamed.allOutputs (h : i.Renamed σ j) : j.allOutputs = i.allOutputs.map σ := by
  unfold Instruction.allOutputs shape
  rw [h.op, h.inouts, List.map_drop]

theorem Renamed.congr (h : i.Renamed σ j) (hσ : ∀ v ∈ i.inouts, τ v = σ v) : i.Renamed τ j := by
  refine ⟨h.op, ?_⟩
  rw [h.inouts]
  exact (List.map_congr_left hσ).symm

theorem mem_inouts {v : Variable} : v ∈ i.inouts ↔ v ∈ i.inputs ∨ v ∈ i.allOutputs := by
  rw [← i.inputs_append_allOutputs, List.mem_append]

end Instruction

namespace Code

variable {σ : Variable → Variable} {c d is : Code} {i j : Instruction} {v : Variable} {k : Nat}

/-- The variables that occur in code. -/
def occurring (c : Code) : Set Variable := {v | ∃ i ∈ c, v ∈ i.inouts}

theorem mem_declared : v ∈ c.declared ↔ ∃ i ∈ c, v ∈ i.allOutputs := List.mem_flatMap

theorem numbered_of_check (h : c.check = .ok ()) : c.Numbered 0 := by
  obtain ⟨q, hrun, -⟩ := check_eq_ok_iff_run.mp h
  exact Progress.numbered_of_run Progress.balanced_start Progress.seesNumbered_start hrun

theorem nodup_declared_of_check (h : c.check = .ok ()) : c.declared.Nodup :=
  List.Nodup.of_map Variable.number ((dense_of_check h).numbers ▸ List.nodup_range')

theorem declared_subset_occurring (c : Code) : {v | v ∈ c.declared} ⊆ c.occurring := by
  intro v hv
  obtain ⟨i, hi, hv⟩ := mem_declared.mp hv
  exact ⟨i, hi, Instruction.mem_inouts.mpr (.inr hv)⟩

theorem occurring_eq_of_check (h : c.check = .ok ()) : c.occurring = {v | v ∈ c.declared} := by
  refine Set.Subset.antisymm ?_ ?_
  · rintro v ⟨i, hi, hv⟩
    rcases Instruction.mem_inouts.mp hv with hv | hv
    · obtain ⟨a, b, rfl⟩ := List.append_of_mem hi
      obtain ⟨before, j, after, rfl, hj⟩ :=
        (numbered_of_check h).exists_declaration hv (Nat.zero_le _)
      exact mem_declared.mpr ⟨j, by simp, hj⟩
    · exact mem_declared.mpr ⟨i, hi, hv⟩
  · exact declared_subset_occurring c

theorem declared_of_renamed (h : List.Forall₂ (Instruction.Renamed σ) c d) :
    Code.declared d = c.declared.map σ := by
  induction h with
  | nil => rfl
  | cons hi _ ih =>
    rw [declared, List.flatMap_cons, hi.allOutputs]
    change _ ++ Code.declared _ = _
    rw [ih]
    exact List.map_append.symm

/-- What is declared once in a copy has been told apart by the renaming. -/
theorem injOn_declared (h : List.Forall₂ (Instruction.Renamed σ) c d)
    (hd : (Code.declared d).Nodup) : Set.InjOn σ {v | v ∈ c.declared} := by
  rw [declared_of_renamed h] at hd
  exact fun v hv w hw => List.inj_on_of_nodup_map hd hv hw

/-- `d` holds the instructions of `c` in order, renamed by `σ`, with the code of `runs` behind them. -/
inductive Interleaves (σ : Variable → Variable) : Code → List Code → Code → Prop where
  | nil : Interleaves σ [] [] []
  | cons {i j : Instruction} {is js run : Code} {runs : List Code} (hi : i.Renamed σ j)
    (hrest : Interleaves σ is runs js) : Interleaves σ (i :: is) (run :: runs) (j :: (run ++ js))

variable {runs : List Code}

theorem Interleaves.exists_copies (h : Interleaves σ c runs d) :
    ∃ copies : Code, List.Forall₂ (Instruction.Renamed σ) c copies ∧
      d.Perm (copies ++ runs.flatten) := by
  induction h with
  | nil => exact ⟨[], .nil, .nil⟩
  | @cons i j is js run runs hi _ ih =>
    obtain ⟨copies, hcopies, hperm⟩ := ih
    refine ⟨j :: copies, .cons hi hcopies, .cons j ?_⟩
    change (run ++ js).Perm (copies ++ (run ++ runs.flatten))
    refine (hperm.append_left run).trans ?_
    rw [← List.append_assoc, ← List.append_assoc]
    exact List.perm_append_comm.append_right _

/-- What stands behind a copy is part of the whole. -/
theorem Interleaves.subset (h : Interleaves σ c runs d) {run : Code} (hrun : run ∈ runs) :
    run ⊆ d := by
  intro x hx
  obtain ⟨copies, -, hperm⟩ := h.exists_copies
  exact hperm.mem_iff.mpr (List.mem_append_right _ (List.mem_flatten.mpr ⟨run, hrun, hx⟩))

theorem Interleaves.renamed_mem_declared (h : Interleaves σ c runs d) (hv : v ∈ c.declared) :
    σ v ∈ Code.declared d := by
  induction h with
  | nil => cases hv
  | @cons i j is js run runs hi _ ih =>
    rw [declared_cons, List.mem_append] at hv
    rw [declared_cons, declared_append, List.mem_append, List.mem_append]
    rcases hv with hv | hv
    · refine .inl ?_
      rw [hi.allOutputs]
      exact List.mem_map_of_mem hv
    · exact .inr (.inr (ih hv))

/-- Copies inside of checked code are told apart, and use nothing that is declared between them. -/
theorem Interleaves.injOn (h : Interleaves σ c runs d) (hc : c.check = .ok ())
    (hd : (Code.declared d).Nodup) : Set.InjOn σ c.occurring ∧
      ∀ v ∈ c.occurring, ∀ k ∈ runs.flatten, σ v ∉ k.allOutputs := by
  obtain ⟨copies, hcopies, hperm⟩ := h.exists_copies
  have hnodup : (Code.declared copies ++ Code.declared runs.flatten).Nodup := by
    rw [declared, declared, ← List.flatMap_append, (hperm.flatMap_right _).nodup_iff.symm]
    exact hd
  obtain ⟨hfirst, -, hapart⟩ := List.nodup_append.mp hnodup
  rw [occurring_eq_of_check hc]
  refine ⟨injOn_declared hcopies hfirst, ?_⟩
  intro v hv k hk hmem
  refine hapart (σ v) ?_ (σ v) (mem_declared.mpr ⟨k, hk, hmem⟩) rfl
  rw [declared_of_renamed hcopies]
  exact List.mem_map_of_mem hv

end Code

end ScriptFuzz
