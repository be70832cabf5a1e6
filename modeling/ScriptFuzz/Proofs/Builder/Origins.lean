import ScriptFuzz.Proofs.Builder.Reachability
import ScriptFuzz.Proofs.Code.Uses

/-!
# Where values come from

In code that declares every variable once, the instruction that declares a variable is the one that
a builder looks up (`Builder.Traced.definition`). Every instruction that is added keeps it so
(`Builder.Traced.emit`), whether the check accepts the code or not.
-/

namespace ScriptFuzz

set_option autoImplicit false

namespace Code

/-- The instruction that declares a variable. -/
def declarer? (c : Code) (v : Variable) : Option Instruction :=
  c.find? fun i => i.allOutputs.contains v

/-- No variable is declared again. -/
def DeclaresOnce (c : Code) : Prop := c.Pairwise fun i j => ∀ v ∈ i.allOutputs, v ∉ j.allOutputs

variable {c d : Code} {i : Instruction} {v : Variable}

theorem declarer?_append (h : c.declarer? v = some i) : Code.declarer? (c ++ d) v = some i := by
  unfold declarer? at h ⊢
  rw [List.find?_append, h]
  rfl

theorem declarer?_append_of_left_none (h : c.declarer? v = none) :
    Code.declarer? (c ++ d) v = d.declarer? v := by
  unfold declarer? at h ⊢
  rw [List.find?_append, h, Option.none_or]

theorem declarer?_append_of_none (h : d.declarer? v = none) :
    Code.declarer? (c ++ d) v = c.declarer? v := by
  unfold declarer? at h ⊢
  rw [List.find?_append, h, Option.or_none]

theorem of_declarer? (h : c.declarer? v = some i) : i ∈ c ∧ v ∈ i.allOutputs := by
  obtain ⟨hv, before, after, rfl, -⟩ := List.find?_eq_some_iff_append.mp h
  exact ⟨by simp, List.contains_iff_mem.mp hv⟩

theorem declarer?_cons (i : Instruction) (c : Code) (v : Variable) :
    Code.declarer? (i :: c) v = if v ∈ i.allOutputs then some i else c.declarer? v := by
  unfold declarer?
  rw [List.find?_cons]
  split <;> simp_all

theorem declarer?_of_mem (h : DeclaresOnce c) (hi : i ∈ c) (hv : v ∈ i.allOutputs) :
    c.declarer? v = some i := by
  induction c with
  | nil => cases hi
  | cons j js ih =>
    obtain ⟨hj, hjs⟩ := List.pairwise_cons.mp h
    rw [declarer?_cons]
    rcases List.mem_cons.mp hi with rfl | hi
    · exact if_pos hv
    · rw [if_neg fun hmem => hj i hi v hmem hv]
      exact ih hjs hi

end Code

namespace Builder

open Code

variable {b b' : Builder} {op : Operation} {inputs produced : List Variable}
  {r : List Variable × Builder} {v : Variable}

theorem eq_left_of_close (h : b.close op = .ok b') : b' = b.left op := by
  unfold close at h
  unfold left
  cases hend : op.shape.has .blockEnd with
  | false =>
    simp only [hend, Bool.not_false, if_true] at h
    cases h
    rfl
  | true =>
    simp only [hend, Bool.not_true, Bool.false_eq_true, if_false] at h
    split at h
    · cases h
    · rename_i opener rest hopen
      split at h
      · cases h
      · split at h
        · cases h
          rw [if_pos rfl, hopen]
          rfl
        · cases h

theorem length_of_fault (h : b.fault? op inputs = none) : inputs.length = op.shape.inputs := by
  unfold fault? at h
  simp only at h
  split at h
  · cases h
  split at h
  · cases h
  · rename_i hlength
    exact Decidable.of_not_not hlength

/-- What an emission adds, whatever the stacks are. -/
theorem emitted (h : b.emit op inputs = .ok r) : ∃ hlength : inputs.length = op.shape.inputs,
    r.1 = variablesFrom b.nextVariable (declares op) ∧
      r.2.code = b.code ++ [b.drafted op inputs hlength] ∧
      r.2.nextVariable = b.nextVariable + declares op ∧
      r.2.definitions = b.definitions ++ List.replicate (declares op) b.code.length ∧
      r.2.adoption = b.adoption := by
  obtain ⟨hfault, closed, hclose, hroom⟩ := stages_of_emit h
  obtain rfl := eq_left_of_close hclose
  have hlength := length_of_fault hfault
  rw [emit_of_stages hfault hclose hroom hlength] at h
  cases h
  have hleft : (b.left op).definitions = b.definitions ∧ (b.left op).adoption = b.adoption := by
    unfold left
    split <;> exact ⟨rfl, rfl⟩
  have henter (c : Builder) : (c.enter op).definitions = c.definitions ∧
      (c.enter op).adoption = c.adoption := by
    unfold enter
    split <;> exact ⟨rfl, rfl⟩
  refine ⟨hlength, rfl, rfl, ?_, ?_, ?_⟩
  · change (((b.left op).allocate op.shape.outputs).enter op).nextVariable + _ = _
    rw [nextVariable_enter]
    change (b.left op).nextVariable + _ + _ = _
    rw [nextVariable_left, declares, Nat.add_assoc]
  · change (((b.left op).allocate op.shape.outputs).enter op).definitions ++
      List.replicate _ (((b.left op).allocate op.shape.outputs).enter op).code.length = _
    rw [(henter _).1, code_enter]
    change (b.left op).definitions ++ List.replicate _ (b.left op).code.length ++
      List.replicate _ (b.left op).code.length = _
    rw [hleft.1, code_left, List.append_assoc, List.replicate_append_replicate, declares]
  · exact (henter _).2.trans hleft.2

/-- The builder looks up the instruction that declares a variable, variables are declared once, and
instructions stand at their positions. -/
structure Traced (b : Builder) : Prop where
  definitions : b.definitions.length = b.nextVariable
  declared : ∀ n ∈ b.definitions, n < b.code.length
  definition : ∀ v, b.definition? v = b.code.declarer? v
  once : DeclaresOnce b.code
  index : ∀ (n : Nat) (i : Instruction), b.code[n]? = some i → i.index = n

theorem Traced.congr (h : b.Traced) (hcode : b'.code = b.code)
    (hnext : b'.nextVariable = b.nextVariable) (hdefinitions : b'.definitions = b.definitions) :
    b'.Traced where
  definitions := by rw [hdefinitions, hnext, h.definitions]
  declared := by
    rw [hdefinitions, hcode]
    exact h.declared
  definition v := by
    unfold definition?
    rw [hdefinitions, hcode]
    exact h.definition v
  once := hcode ▸ h.once
  index := hcode ▸ h.index

theorem traced_start : Traced {} where
  definitions := rfl
  declared := nofun
  definition _ := rfl
  once := .nil
  index := nofun

theorem Traced.number_lt (h : b.Traced) {i : Instruction} (hi : b.code.declarer? v = some i) :
    v.number < b.nextVariable := by
  rw [← h.definition] at hi
  obtain ⟨n, hn, -⟩ := Option.bind_eq_some_iff.mp hi
  rw [← h.definitions]
  exact (List.getElem?_eq_some_iff.mp hn).1

theorem mem_variablesFrom {first count : Nat} :
    v ∈ variablesFrom first count ↔ first ≤ v.number ∧ v.number < first + count := by
  rw [← List.mem_range'_1, ← map_number_variablesFrom]
  constructor
  · exact List.mem_map_of_mem
  · intro h
    obtain ⟨w, hw, hnumber⟩ := List.mem_map.mp h
    obtain rfl : w = v := congrArg Variable.mk hnumber
    exact hw

/-- An instruction that is added declares new variables. -/
theorem Traced.emit (h : b.Traced) (he : b.emit op inputs = .ok r) : r.2.Traced := by
  obtain ⟨hlength, -, hcode, hnext, hdefinitions, -⟩ := emitted he
  have hdeclares (v : Variable) : v ∈ (b.drafted op inputs hlength).allOutputs ↔
      b.nextVariable ≤ v.number ∧ v.number < b.nextVariable + declares op := by
    rw [allOutputs_drafted, mem_variablesFrom]
  refine ⟨?_, ?_, ?_, ?_, ?_⟩
  · rw [hdefinitions, hnext, List.length_append, List.length_replicate, h.definitions]
  · rw [hdefinitions, hcode]
    intro n hn
    rw [List.length_append, List.length_singleton]
    rcases List.mem_append.mp hn with hn | hn
    · exact Nat.lt_succ_of_lt (h.declared n hn)
    · rw [List.eq_of_mem_replicate hn]
      exact Nat.lt_succ_self _
  · intro v
    have hold := h.definition v
    unfold definition? at hold ⊢
    rw [hdefinitions, hcode]
    rcases Nat.lt_or_ge v.number b.nextVariable with hv | hv
    · have hget : v.number < b.definitions.length := by
        rw [h.definitions]
        exact hv
      have hnot : Code.declarer? [b.drafted op inputs hlength] v = none := by
        rw [declarer?_cons, if_neg fun hmem => Nat.not_le_of_lt hv ((hdeclares v).mp hmem).1]
        rfl
      rw [declarer?_append_of_none hnot, ← hold, List.getElem?_append_left hget,
        List.getElem?_eq_getElem hget, Option.bind_some, Option.bind_some,
        List.getElem?_append_left (h.declared _ (List.getElem_mem hget))]
    · have hnone : b.code.declarer? v = none := by
        cases hdeclarer : b.code.declarer? v with
        | none => rfl
        | some i => exact absurd (h.number_lt hdeclarer) (Nat.not_lt_of_le hv)
      have hget : b.definitions.length ≤ v.number := by
        rw [h.definitions]
        exact hv
      rw [declarer?_append_of_left_none hnone, declarer?_cons, List.getElem?_append_right hget,
        List.getElem?_replicate, h.definitions]
      by_cases hmem : v ∈ (b.drafted op inputs hlength).allOutputs
      · have hlt : v.number - b.nextVariable < declares op := by
          have := (hdeclares v).mp hmem
          omega
        rw [if_pos hmem, if_pos hlt, Option.bind_some, List.getElem?_concat_length]
      · have hlt : ¬v.number - b.nextVariable < declares op := by
          intro hlt
          apply hmem
          rw [hdeclares]
          omega
        rw [if_neg hmem, if_neg hlt]
        rfl
  · rw [hcode]
    refine List.pairwise_append.mpr ⟨h.once, List.pairwise_singleton _ _, ?_⟩
    intro i hi j hj v hv hmem
    cases List.mem_singleton.mp hj
    have hlt := h.number_lt (declarer?_of_mem h.once hi hv)
    exact Nat.not_le_of_lt hlt ((hdeclares v).mp hmem).1
  · rw [hcode]
    intro n i hi
    rcases Nat.lt_or_ge n b.code.length with hn | hn
    · rw [List.getElem?_append_left hn] at hi
      exact h.index n i hi
    · rw [List.getElem?_append_right hn] at hi
      obtain ⟨hlt, rfl⟩ := List.getElem?_eq_some_iff.mp hi
      simp only [List.length_singleton, Nat.lt_one_iff] at hlt
      simp only [hlt, List.getElem_cons_zero]
      change b.code.length = n
      omega

/-- What is added, and what declares the variables that it gives. -/
theorem Traced.emitted (h : b.Traced) (he : b.emit op inputs = .ok (produced, b')) :
    ∃ j : Instruction, j.op = op ∧ j.inputs = inputs ∧ j.index = b.code.length ∧
      b'.code = b.code ++ [j] ∧ ∀ v ∈ produced, b'.code.declarer? v = some j := by
  have htraced : b'.Traced := h.emit he
  obtain ⟨hlength, hproduced, hcode, -⟩ := Builder.emitted he
  refine ⟨_, rfl, inputs_drafted hlength, rfl, hcode, ?_⟩
  intro v hv
  apply declarer?_of_mem htraced.once
  · have hcode' : b'.code = _ := hcode
    rw [hcode']
    exact List.mem_append_right _ List.mem_cons_self
  · rw [allOutputs_drafted]
    rw [← hproduced]
    exact hv

end Builder

end ScriptFuzz
