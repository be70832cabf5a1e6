import Mathlib.Data.List.Perm.Subperm
import ScriptFuzz.Proofs.Builder.Replay
import ScriptFuzz.Proofs.Mutation.Alteration
import ScriptFuzz.Proofs.Ordered

/-!
# Only parameters are altered

A program is altered by copying it instruction by instruction, some with another operation of the same
kind. As variables are numbered in the order of their declarations, every copy has the variables of its
original (`Builder.Mimics`), so that the altered program is the given one but for the parameters at the
chosen positions (`Alteration.alters_mutate`). What serves the observation of values is neither chosen
nor made by a choice.
-/

namespace ScriptFuzz

set_option autoImplicit false

open Code Builder

/-- The instruction with another operation of the same kind. -/
def Instruction.substituted (i : Instruction) (op : Operation) (h : op.kind = i.op.kind) :
    Instruction where
  op := op
  inouts := i.inouts
  index := i.index
  arity := i.arity.trans (congrArg Shape.size (Operation.shape_eq_of_kind h).symm)

namespace Builder

variable {b : Builder} {p q final : Progress} {done : Code} {i : Instruction} {op : Operation}

/-- The builder holds, instruction by instruction, what is of the kind of the code `done`, and knows
every variable under its own name. -/
structure Mimics (done : Code) (p : Progress) (b : Builder) (q : Progress) : Prop where
  source : ({} : Progress).run 0 done = .ok p
  target : b.Reads q
  resembles : p.Resembles q
  length : b.code.length = done.length
  adopted : ∀ v : Variable, v.number < p.next → b.adopted v = .ok v

theorem mimics_start (h : b.Reads {}) (hcode : b.code = []) : Mimics [] {} b {} where
  source := rfl
  target := h
  resembles := Progress.resembles_refl {}
  length := by rw [hcode]
  adopted _ hv := absurd hv (Nat.not_lt_zero _)

theorem eq_variablesFrom {vs : List Variable} {n : Nat}
    (h : vs.map Variable.number = List.range' n vs.length) : variablesFrom n vs.length = vs := by
  have hshifted := map_shifted_eq_variablesFrom (k := 0) h
  exact hshifted.symm.trans (List.map_id vs)

namespace Mimics

variable (h : Mimics done p b q) (ha : p.Admits done.length i) (hkind : op.kind = i.op.kind)
include h ha

/-- A copy has the variables and the position of its original. -/
theorem drafted_eq (hl : i.inputs.length = op.shape.inputs) :
    b.drafted op i.inputs hl = i.substituted op hkind := by
  have hdeclares : declares op = i.allOutputs.length := by
    rw [declares, Operation.shape_eq_of_kind hkind]
    exact declares_eq i
  have hnext : b.nextVariable = p.next := h.target.next.trans h.resembles.next.symm
  have hinouts : i.inputs ++ variablesFrom b.nextVariable (declares op) = i.inouts := by
    rw [hdeclares, hnext, eq_variablesFrom ha.numbered, i.inputs_append_allOutputs]
  unfold drafted Instruction.substituted
  simp only [hinouts, h.length, ha.index]

/-- What a copy declares is known under its own name, and so is what was known. -/
theorem adopted_after {b' : Builder}
    (hadoption : b'.adoption = (i.allOutputs.zip i.allOutputs).reverse ++ b.adoption)
    {v : Variable} (hv : v.number < (p.after i).next) : b'.adopted v = .ok v := by
  have hself : i.allOutputs.map (Variable.shifted 0) = i.allOutputs := List.map_id _
  by_cases hmem : v ∈ i.allOutputs
  · have hlookup : ((i.allOutputs.zip (i.allOutputs.map (Variable.shifted 0))).reverse ++
        b.adoption).lookup v = some (v.shifted 0) := lookup_zip_shifted hmem
    rw [hself] at hlookup
    rw [Builder.adopted, hadoption, hlookup]
    rfl
  · rw [Builder.adopted, hadoption, lookup_zip_of_not_mem hmem]
    refine h.adopted v (Nat.lt_of_not_le fun hle => hmem ?_)
    exact mem_of_number ha.numbered hle hv

/-- The next instruction is copied with another operation of its kind. -/
theorem adoptAs (hcount : i.op.isCountable = true) (hroom : b.HasRoom i.op) :
    ∃ b', b.adoptAs i op = .ok (i.allOutputs, b') ∧
      b'.code = b.code ++ [i.substituted op hkind] ∧
      b'.nextVariable = b.nextVariable + i.allOutputs.length ∧
      Mimics (done ++ [i]) (p.after i) b' (q.after (i.substituted op hkind)) := by
  obtain ⟨hbalanced, hsees⟩ := Progress.run_induction (fun _ _ _ _ ha hs => hs.after ha)
    Progress.balanced_start h.source Progress.seesNumbered_start
  have hshape : op.shape = i.shape := Operation.shape_eq_of_kind hkind
  have hsame : i.SameKind (i.substituted op hkind) := ⟨rfl, hkind.symm⟩
  have hadmits := h.resembles.admits hsame ha
  have hinputs : i.inputs.mapM b.adopted = .ok i.inputs := by
    have hknown : ∀ v ∈ i.inputs, b.adopted v = .ok (id v) := by
      intro v hv
      obtain ⟨vs, hvs, hmem⟩ := Progress.isVisible_iff.mp (ha.visible v hv)
      exact h.adopted v (hsees vs hvs v hmem)
    rw [mapM_adopted_eq hknown, List.map_id]
  have hfits : Fits q op i.inputs := by
    refine ⟨?_, ?_, hadmits.context, hadmits.closes⟩
    · rw [hsame.inputs]
      exact (i.substituted op hkind).length_inputs
    · rw [hsame.inputs]
      exact hadmits.visible
  have hsize : op.shape.size < Operation.countLimit := by
    rw [hshape]
    exact of_decide_eq_true hcount
  have hroom' : b.HasRoom op := by
    obtain ⟨hmemory, hnumbers⟩ := hroom
    rw [declares, ← Operation.shape_eq_of_kind hkind] at hmemory hnumbers
    exact ⟨hmemory, hnumbers⟩
  have hproduced : variablesFrom b.nextVariable (declares op) = i.allOutputs := by
    rw [← allOutputs_drafted hfits.length, drafted_eq h ha hkind, ← hsame.allOutputs]
  have hemit := emit_eq_ok h.target.stands (by rw [Shape.size] at hsize; omega) hroom' hfits
  rw [drafted_eq h ha hkind, hproduced] at hemit
  refine ⟨{ b.extended q (i.substituted op hkind) with
    adoption := (i.allOutputs.zip i.allOutputs).reverse ++ b.adoption }, ?_, rfl, ?_, ?_⟩
  · have hcount' : op.isCountable = true := decide_eq_true hsize
    rw [Carries.adoptAs_eq hcount' (congrArg Shape.size hshape) hinputs, hemit]
    rfl
  · change q.next + (i.substituted op hkind).allOutputs.length = _
    rw [← hsame.allOutputs, h.target.next]
  · have hadmits' : q.Admits b.code.length (i.substituted op hkind) := by
      have hindex : b.code.length = (i.substituted op hkind).index := h.length.trans ha.index.symm
      rw [hindex]
      exact hadmits
    have hreads := h.target.extended hadmits'
    refine ⟨Progress.run_append_admitted h.source hbalanced ha, ⟨⟨?_, ?_, ?_, ?_⟩, ?_⟩,
      h.resembles.after hsame, ?_, fun v hv => adopted_after h ha rfl hv⟩
    · exact hreads.next
    · exact hreads.scopes
    · exact hreads.contexts
    · exact hreads.blocks
    · exact hreads.run
    · change (b.code ++ [_]).length = _
      rw [List.length_append, List.length_append, h.length]
      rfl

end Mimics

end Builder

/-! ## Altered copies -/

namespace Alteration

variable {e : Environment} {chosen : List Nat} {i j : Instruction}

/-- The copy of an instruction: its operation is altered exactly if its position is chosen. -/
structure Copied (e : Environment) (chosen : List Nat) (i j : Instruction) : Prop where
  same : i.SameKind j
  index : j.index = i.index
  altered : i.index ∈ chosen → ∃ r, j.op = ((operation e i.op).run r).1
  kept : i.index ∉ chosen → j.op = i.op

section

variable {b : Builder} {p q final : Progress} {done : Code}

theorem outcome_adoptAs {op : Operation} {b' : Builder} {produced : List Variable}
    (h : b.adoptAs i op = .ok (produced, b')) (r : Random) :
    (Build.adoptAs i op : Assembly (List Variable)).outcome b r = (.ok (produced, b'), r) := by
  change ((Build.orRaise (b.adoptAs i op) : Assembly (List Variable × Builder)) >>= fun s =>
    (do
      set s.2
      return s.1 : Assembly (List Variable))).outcome b r = _
  rw [h]
  rfl

/-- A program is copied to its end, whatever is drawn. -/
theorem exists_outcome_alterAt (e : Environment) (chosen : List Nat) (is : Code)
    (h : Mimics done p b q) (hrun : p.run done.length is = .ok final)
    (hcount : Code.IsCountable is)
    (hroom : b.nextVariable + Code.numVariables is < Variable.limit) (r : Random) :
    ∃ b' q' js r', (alterAt e chosen is).outcome b r = (.ok ((), b'), r') ∧
      Mimics (done ++ is) final b' q' ∧ b'.code = b.code ++ js ∧
      List.Forall₂ (Copied e chosen) is js := by
  induction is generalizing done p b q r with
  | nil =>
    cases hrun
    rw [List.append_nil]
    exact ⟨b, q, [], r, rfl, h, (List.append_nil _).symm, .nil⟩
  | cons i is ih =>
    have hbalanced := Progress.balanced_of_run h.source
    obtain ⟨ha, hrun⟩ := (Progress.run_cons_eq_ok_iff hbalanced).mp hrun
    change b.nextVariable + (i.allOutputs.length + Code.numVariables is) < Variable.limit at hroom
    have hroomFor : b.HasRoom i.op := .of_lt (by omega)
    -- Whichever operation the copy has, the rest is copied behind it.
    have hcons (op : Operation) (hkind : op.kind = i.op.kind)
        (hcopied : Copied e chosen i (i.substituted op hkind)) (r : Random) :
        ∃ b' q' js r', (do
            let _ ← Build.adoptAs i op
            alterAt e chosen is : Assembly Unit).outcome b r = (.ok ((), b'), r') ∧
          Mimics (done ++ i :: is) final b' q' ∧ b'.code = b.code ++ js ∧
          List.Forall₂ (Copied e chosen) (i :: is) js := by
      obtain ⟨b₁, hadopt, hcode, hnext, h₁⟩ :=
        h.adoptAs ha hkind (hcount i List.mem_cons_self) hroomFor
      have hlength : (done ++ [i]).length = done.length + 1 := List.length_append
      obtain ⟨b', q', js, r', hrest, h', hcode', hcopies⟩ := ih h₁ (hlength ▸ hrun)
        (fun j hj => hcount j (List.mem_cons_of_mem i hj)) (by rw [hnext]; omega) r
      refine ⟨b', q', _ :: js, r', ?_, ?_, ?_, .cons hcopied hcopies⟩
      · rw [Assembly.outcome_bind, outcome_adoptAs hadopt]
        exact hrest
      · rwa [List.append_assoc] at h'
      · rw [hcode', hcode, List.append_assoc]
        rfl
    unfold alterAt
    split
    · rename_i hchosen
      have hkind := kind_operation e i.op r
      exact hcons _ hkind ⟨⟨rfl, hkind.symm⟩, rfl, fun _ => ⟨r, rfl⟩, fun hnot => absurd hchosen hnot⟩ _
    · rename_i hchosen
      exact hcons i.op rfl ⟨⟨rfl, rfl⟩, rfl, fun hmem => absurd hmem hchosen, fun _ => rfl⟩ r

end

/-! ## What serves observation -/

theorem operation_ne_loadBuiltin {name : String} (hname : name ∉ e.builtins) {op : Operation}
    (hop : op ≠ .loadBuiltin name) (r : Random) :
    ((operation e op).run r).1 ≠ .loadBuiltin name := by
  intro heq
  have hkind := kind_operation e op r
  rw [heq] at hkind
  cases op with
  | loadBuiltin old =>
    change Operation.loadBuiltin ((e.drawBuiltin.run r).1.getD old) = _ at heq
    cases hdraw : (e.drawBuiltin.run r).1 with
    | none =>
      rw [hdraw] at heq
      exact hop heq
    | some drawn =>
      rw [hdraw] at heq
      cases heq
      exact hname (Draw.mem_of_choose hdraw)
  | _ => cases hkind

theorem operation_ne_callMethod {name : String} (hname : name ∉ e.components)
    (hcustom : name ≠ Environment.customMethod) (hproperty : name ≠ Environment.customProperty)
    {op : Operation} {n : Nat} (hop : op ≠ .callMethod name n) (r : Random) :
    ((operation e op).run r).1 ≠ .callMethod name n := by
  intro heq
  have hkind := kind_operation e op r
  rw [heq] at hkind
  cases op with
  | callMethod old k =>
    change Operation.callMethod ((e.drawMethod.run r).1) k = _ at heq
    obtain ⟨hdrawn, -⟩ := Operation.callMethod.inj heq
    rcases Environment.names_drawName e.methods Environment.customMethod r with h | h | h
    · exact hcustom (hdrawn.symm.trans h)
    · exact hproperty (hdrawn.symm.trans h)
    · have hmem : name ∈ e.methods := hdrawn ▸ h
      rcases Ordered.mem_insert.mp hmem with h | h
      · exact hcustom h
      · exact hname (List.mem_of_mem_filter h)
  | _ => cases hkind

/-- Whether the instruction serves the observation of values. -/
def observes (i : Instruction) : Bool := Hook.isLoad i || Hook.isRecordCall i

theorem observes_iff : observes i = true ↔ i.op = .loadBuiltin Hook.builtinName ∨
    ∃ n, i.op = .callMethod Hook.recordMethod n := by
  unfold observes Hook.isLoad Hook.isRecordCall
  rw [Bool.or_eq_true, decide_eq_true_eq]
  refine or_congr_right ?_
  split
  · rename_i name n hop
    rw [decide_eq_true_eq, hop]
    exact ⟨fun h => ⟨n, by rw [h]⟩, fun ⟨_, h⟩ => (Operation.callMethod.inj h).1⟩
  · rename_i hop
    exact iff_of_false Bool.false_ne_true fun ⟨n, h⟩ => hop _ n h

theorem isTarget_eq (i : Instruction) : isTarget i = (i.isMutable && !observes i) := by
  rw [isTarget, observes, Bool.not_or, Bool.and_assoc]

namespace Copied

theorem eq_of_op (h : Copied e chosen i j) (hop : j.op = i.op) : j = i := by
  have hinouts := h.same.inouts
  have hindex := h.index
  cases i
  cases j
  cases hop
  cases hinouts
  cases hindex
  rfl

variable (h : Copied e chosen i j) (hchosen : i.index ∈ chosen → isTarget i = true)
include h hchosen

theorem isMutable_of_ne (hop : i.op ≠ j.op) : i.index ∈ chosen ∧ i.isMutable = true := by
  have hmem : i.index ∈ chosen := Decidable.byContradiction fun hnot => hop (h.kept hnot).symm
  have htarget := hchosen hmem
  rw [isTarget_eq, Bool.and_eq_true] at htarget
  exact ⟨hmem, htarget.1⟩

/-- What serves observation is copied as it is, and no other copy serves it. -/
theorem observes_eq (hhook : Hook.builtinName ∉ e.builtins) (hrecord : Hook.recordMethod ∉ e.components) :
    observes j = observes i ∧ (observes i = true → j = i) := by
  by_cases hmem : i.index ∈ chosen
  · have htarget := hchosen hmem
    rw [isTarget_eq, Bool.and_eq_true, Bool.not_eq_true'] at htarget
    obtain ⟨-, hi⟩ := htarget
    have hj : observes j = false := by
      rw [← Bool.not_eq_true, observes_iff] at hi ⊢
      obtain ⟨r, hop⟩ := h.altered hmem
      rw [hop]
      rintro (heq | ⟨n, heq⟩)
      · exact operation_ne_loadBuiltin hhook (fun hop => hi (.inl hop)) r heq
      · exact operation_ne_callMethod hrecord (by decide) (by decide)
          (fun hop => hi (.inr ⟨n, hop⟩)) r heq
    rw [hi, hj]
    exact ⟨rfl, nofun⟩
  · obtain rfl := h.eq_of_op (h.kept hmem)
    exact ⟨rfl, fun _ => rfl⟩

end Copied

/-- One code is the other but for the parameters of at most `n` instructions that may be altered and do
not serve observation. -/
structure Alters (n : Nat) (c d : Code) : Prop where
  same : List.Forall₂ (fun i j => i.SameKind j ∧ i.shape = j.shape ∧ i.index = j.index) c d
  few : (c.zip d).countP (fun ij => ij.1.op ≠ ij.2.op) ≤ n
  isMutable : ∀ ij ∈ c.zip d, ij.1.op ≠ ij.2.op → ij.1.isMutable = true
  observes : d.filter observes = c.filter observes

section

variable {c d : Code}

theorem map_fst_zip_sublist (hcd : c.length = d.length) (f : Instruction × Instruction → Bool) :
    (((c.zip d).filter f).map fun ij => ij.1.index).Sublist (c.map Instruction.index) := by
  have hzip : (c.zip d).map (fun ij => ij.1.index) = c.map Instruction.index := by
    rw [← List.map_fst_zip (Nat.le_of_eq hcd), List.map_map, List.map_fst_zip (Nat.le_of_eq hcd)]
    rfl
  rw [← hzip]
  exact List.filter_sublist.map _

/-- Copies alter no more than was chosen, if only what may be altered was chosen. -/
theorem alters_of_copied (hcheck : c.check = .ok ()) (hcd : List.Forall₂ (Copied e chosen) c d)
    (hchosen : ∀ i ∈ c, i.index ∈ chosen → isTarget i = true)
    (hhook : Hook.builtinName ∉ e.builtins) (hrecord : Hook.recordMethod ∉ e.components) :
    Alters chosen.length c d := by
  have hzip (i j : Instruction) (hij : (i, j) ∈ c.zip d) :
      Copied e chosen i j ∧ (i.index ∈ chosen → isTarget i = true) :=
    ⟨List.forall₂_zip hcd hij, hchosen i (List.of_mem_zip hij).1⟩
  refine ⟨?_, ?_, ?_, ?_⟩
  · exact hcd.imp fun i j hij => ⟨hij.same, hij.same.shape, hij.index.symm⟩
  · -- The positions at which the codes differ are distinct and have all been chosen.
    have hnodup : (c.map Instruction.index).Nodup := by
      rw [(dense_of_check hcheck).indices]
      exact List.nodup_range'
    have hdistinct := hnodup.sublist
      (map_fst_zip_sublist hcd.length_eq fun ij => decide (ij.1.op ≠ ij.2.op))
    rw [List.countP_eq_length_filter, ← List.length_map fun ij => ij.1.index]
    apply (List.subperm_of_subset hdistinct _).length_le
    intro n hn
    obtain ⟨⟨i, j⟩, hij, rfl⟩ := List.mem_map.mp hn
    obtain ⟨hij, hop⟩ := List.mem_filter.mp hij
    obtain ⟨hcopied, htarget⟩ := hzip i j hij
    exact (hcopied.isMutable_of_ne htarget (of_decide_eq_true hop)).1
  · rintro ⟨i, j⟩ hij hop
    obtain ⟨hcopied, htarget⟩ := hzip i j hij
    exact (hcopied.isMutable_of_ne htarget hop).2
  · clear hzip hcheck
    induction hcd with
    | nil => rfl
    | @cons i j is js hij _ ih =>
      obtain ⟨hsame, hself⟩ := hij.observes_eq (hchosen i List.mem_cons_self) hhook hrecord
      have ih := ih fun k hk => hchosen k (List.mem_cons_of_mem i hk)
      rw [List.filter_cons, List.filter_cons, hsame, ih]
      split
      · rename_i hi
        rw [hself hi]
      · rfl

theorem check_of_alters {n : Nat} (h : Alters n c d) (hcheck : c.check = .ok ()) :
    d.check = .ok () :=
  check_of_sameKind (h.same.imp fun _ _ hij => ⟨hij.1, hij.2.2.symm⟩) hcheck

theorem Alters.mono {m n : Nat} (h : Alters m c d) (hmn : m ≤ n) : Alters n c d :=
  { h with few := Nat.le_trans h.few hmn }

end

/-- The numbers of positions that the mutation draws lie between one and the limit that is set. -/
def drawnCount (s : MutationSettings) (r : Random) : Nat :=
  1 + ((Draw.below .double (max s.maxAlterations 1)).run r).1

theorem drawnCount_le (s : MutationSettings) (r : Random) :
    drawnCount s r ≤ max s.maxAlterations 1 := by
  have hpos : 0 < max s.maxAlterations 1 := by omega
  have hlt := Draw.below_lt (w := .double) hpos r
  unfold drawnCount
  omega

variable {p : Program} {s : MutationSettings} {id : Uuid} {r : Random}

theorem targets_isEmpty_iff : ((p.code.filter isTarget).map (·.index)).isEmpty = true ↔
    ∀ i ∈ p.code, i.isMutable = true → observes i = true := by
  rw [List.isEmpty_iff, List.map_eq_nil_iff, List.filter_eq_nil_iff]
  refine forall₂_congr fun i _ => ?_
  rw [isTarget_eq]
  cases i.isMutable <;> cases observes i <;> decide

theorem run_mutate_of_no_target
    (h : ∀ i ∈ p.code, i.isMutable = true → observes i = true) :
    ((mutate s e id p).run.run r).1 = .ok none := by
  unfold mutate
  simp only
  rw [if_pos (targets_isEmpty_iff.mpr h)]
  rfl

theorem run_draw {α : Type} (d : Draw α) (r : Random) :
    (liftM d : ExceptT Fault (StateM Random) α).run.run r = (.ok (d.run r).1, (d.run r).2) := rfl

/-- The mutation behind the draw of the number of positions. -/
def alterFew (e : Environment) (id : Uuid) (p : Program) (count : Nat) :
    ExceptT Fault (StateM Random) (Option Program) := do
  if capacity ≤ count then throw .oversized
  let chosen ← Draw.sample count ((p.code.filter isTarget).map (·.index))
  let start : Builder := { Builder.derivedFrom p with contributors := p.contributors }
  let (_, b) ← (alterAt e chosen p.code).run (start.addContributor name)
  return some (← liftExcept (b.finalize id))

theorem run_mutate_of_target (h : ¬∀ i ∈ p.code, i.isMutable = true → observes i = true) :
    ((mutate s e id p).run.run r).1 = ((alterFew e id p (drawnCount s r)).run.run
      ((Draw.below .double (max s.maxAlterations 1)).run r).2).1 := by
  unfold mutate
  simp only
  rw [if_neg (mt targets_isEmpty_iff.mp h), run_bind_of_run]
  rfl

theorem run_alterFew_of_oversized {count : Nat} (h : capacity ≤ count) :
    ((alterFew e id p count).run.run r).1 = .error .oversized := by
  unfold alterFew
  rw [if_pos h]
  rfl

/-- The positions that are chosen. -/
def chosenAt (p : Program) (count : Nat) (r : Random) : List Nat :=
  ((Draw.sample count ((p.code.filter isTarget).map (·.index))).run r).1

/-- A checked program is copied and finished, with nothing altered but what is chosen. -/
theorem exists_run_alterFew {count : Nat} (h : count < capacity) (hcheck : p.code.check = .ok ())
    (hcount : p.code.IsCountable) (id : Uuid) :
    ∃ q, ((alterFew e id p count).run.run r).1 = .ok (some q) ∧
      List.Forall₂ (Copied e (chosenAt p count r)) p.code q.code := by
  obtain ⟨final, hrun, hblocks⟩ := check_eq_ok_iff_run.mp hcheck
  have hholds := holds_derivedFrom p p.contributors name
  have hstart : Mimics [] {} _ {} := mimics_start hholds.toReads rfl
  have hroom : 0 + Code.numVariables p.code < Variable.limit := by
    rw [Nat.zero_add]
    exact numVariables_lt_of_check hcheck
  obtain ⟨b, q', js, r', houtcome, hb, hcode, hcopied⟩ := exists_outcome_alterAt e
    (chosenAt p count r) p.code hstart hrun hcount hroom
    ((Draw.sample count ((p.code.filter isTarget).map (·.index))).run r).2
  have hopen : q'.blocks = [] := by
    have hsame := hb.resembles.blocks
    rw [hblocks] at hsame
    exact List.forall₂_nil_left_iff.mp hsame
  obtain ⟨q, hq, hqcode⟩ := hb.target.exists_finalize hopen id
  refine ⟨q, ?_, ?_⟩
  · unfold alterFew
    rw [if_neg (Nat.not_le_of_lt h)]
    simp only
    rw [run_bind_of_run, run_draw]
    simp only
    unfold chosenAt Assembly.outcome at houtcome
    rw [run_bind_of_run, houtcome]
    simp only
    rw [hq]
    rfl
  · rw [hqcode, hcode]
    exact hcopied

theorem length_chosenAt_le (p : Program) (count : Nat) (r : Random) :
    (chosenAt p count r).length ≤ count := Draw.length_sample_le _ _ _

theorem isTarget_of_mem_chosenAt {count : Nat} (hcheck : p.code.check = .ok ()) (hi : i ∈ p.code)
    (h : i.index ∈ chosenAt p count r) : isTarget i = true := by
  obtain ⟨k, hk, hindex⟩ := List.mem_map.mp (Draw.mem_of_sample h)
  obtain ⟨hk, htarget⟩ := List.mem_filter.mp hk
  have hget := getElem?_index hcheck hk
  rw [hindex, getElem?_index hcheck hi] at hget
  cases hget
  exact htarget

/-- Where no name of the environment serves observation, nothing is given exactly if nothing may be
altered, or what may be serves observation. Else the program is copied with parameters altered at no
more positions than the limit allows, unless the number that is drawn is beyond all memory. -/
theorem alters_mutate (hcheck : p.code.check = .ok ()) (hcount : p.code.IsCountable)
    (paths : List String) (hhook : Hook.builtinName ∉ paths)
    (hrecord : ∀ path ∈ paths, Hook.recordMethod ∉ Environment.namesOf path)
    (s : MutationSettings) (id : Uuid) (r : Random) :
    (((mutate s (.ofBuiltins paths) id p).run.run r).1 = .ok none ↔
      ∀ i ∈ p.code, i.isMutable = true → observes i = true) ∧
    ((∃ i ∈ p.code, i.isMutable = true ∧ observes i = false) →
      drawnCount s r ≤ max s.maxAlterations 1 ∧
      (capacity ≤ drawnCount s r ∧
          ((mutate s (.ofBuiltins paths) id p).run.run r).1 = .error .oversized ∨
        drawnCount s r < capacity ∧ ∃ q,
          ((mutate s (.ofBuiltins paths) id p).run.run r).1 = .ok (some q) ∧
            q.code.check = .ok () ∧ Alters (max s.maxAlterations 1) p.code q.code)) := by
  have hbuiltins : Hook.builtinName ∉ (Environment.ofBuiltins paths).builtins :=
    mt Ordered.mem_ofList.mp hhook
  have hcomponents : Hook.recordMethod ∉ (Environment.ofBuiltins paths).components := by
    intro hmem
    obtain ⟨path, hpath, hname⟩ := List.mem_flatMap.mp (Ordered.mem_ofList.mp hmem)
    exact hrecord path (Ordered.mem_ofList.mp hpath) hname
  by_cases hnone : ∀ i ∈ p.code, i.isMutable = true → observes i = true
  · refine ⟨iff_of_true (run_mutate_of_no_target hnone) hnone, ?_⟩
    rintro ⟨i, hi, hmutable, hobserves⟩
    rw [hnone i hi hmutable] at hobserves
    cases hobserves
  · rw [run_mutate_of_target hnone]
    have hle := drawnCount_le s r
    rcases Nat.lt_or_ge (drawnCount s r) capacity with hlt | hge
    · obtain ⟨q, hq, hcopied⟩ := exists_run_alterFew (e := .ofBuiltins paths)
        (r := ((Draw.below .double (max s.maxAlterations 1)).run r).2) hlt hcheck hcount id
      have halters := alters_of_copied hcheck hcopied
        (fun i hi => isTarget_of_mem_chosenAt hcheck hi) hbuiltins hcomponents
      rw [hq]
      refine ⟨iff_of_false nofun hnone, fun _ => ⟨hle, .inr ⟨hlt, q, rfl, ?_, ?_⟩⟩⟩
      · exact check_of_alters halters hcheck
      · exact halters.mono (Nat.le_trans (length_chosenAt_le _ _ _) hle)
    · rw [run_alterFew_of_oversized hge]
      exact ⟨iff_of_false nofun hnone, fun _ => ⟨hle, .inl ⟨hge, rfl⟩⟩⟩

/-- A truth value that is reported. -/
def reportedFlag : Program where
  id := .fresh 0
  code :=
    [{ op := .loadBoolean true, inouts := [⟨0⟩], index := 0, arity := by decide },
      { op := .loadBuiltin Hook.builtinName, inouts := [⟨1⟩], index := 1, arity := by decide },
      { op := .loadInteger 0, inouts := [⟨2⟩], index := 2, arity := by decide },
      { op := .callMethod Hook.recordMethod 2, inouts := [⟨1⟩, ⟨0⟩, ⟨2⟩, ⟨3⟩], index := 3
        arity := by decide }]

theorem alters_mutate_reportedFlag : reportedFlag.code.check = .ok () ∧ ∃ q,
    ((mutate {} (.ofBuiltins ["len"]) (.fresh 1) reportedFlag).run.run
      { word := fun n => if n < 2 then 0 else 0x80000000 }).1 = .ok (some q) ∧
    q.code.check = .ok () ∧ Alters 3 reportedFlag.code q.code := by
  have hcheck : reportedFlag.code.check = .ok () := rfl
  have hcount : ∀ i ∈ reportedFlag.code, i.op.isCountable = true := by decide
  obtain ⟨-, htarget⟩ := alters_mutate hcheck hcount ["len"] (by decide) (by decide) {}
    (.fresh 1) { word := fun n => if n < 2 then 0 else 0x80000000 }
  obtain ⟨-, ⟨hge, -⟩ | ⟨-, hq⟩⟩ := htarget ⟨_, List.mem_cons_self, rfl, rfl⟩
  · exact absurd hge (by decide +kernel)
  · exact ⟨hcheck, hq⟩

/-- The limit is no bound on the number that is drawn beyond the number of positions. -/
theorem mutate_eq_oversized_reportedFlag : reportedFlag.code.check = .ok () ∧
    ((mutate { maxAlterations := 9223372036854775807 } (.ofBuiltins ["len"]) (.fresh 1)
      reportedFlag).run.run { word := fun _ => 0xffffffff }).1 = .error .oversized := by
  exact ⟨rfl, by decide +kernel⟩

end Alteration

end ScriptFuzz
