import ScriptFuzz.Proofs.Builder.Adoption
import ScriptFuzz.Proofs.Builder.Room
import ScriptFuzz.Proofs.Code.Nesting

/-!
# Replaying a program into a builder

A checked program can be appended wherever statements may stand. `Shifts` relates what the check
knows about the program alone to what is known about the larger program that the builder holds: the
variables and positions are moved up, and the stacks stand on those that the builder had before. One
step keeps the relation (`Shifts.after`, `Builder.Replays.adopt`), so a whole program can be copied
(`Builder.appendProgram_replays`).
-/

namespace ScriptFuzz

set_option autoImplicit false

open Code

/-- The variable with its number moved up. -/
def Variable.shifted (k : Nat) (v : Variable) : Variable := ⟨v.number + k⟩

namespace Instruction

/-- The instruction with the numbers of its variables and its position moved up. -/
def shifted (k n : Nat) (i : Instruction) : Instruction where
  op := i.op
  inouts := i.inouts.map (Variable.shifted k)
  index := i.index + n
  arity := (List.length_map _).trans i.arity

variable {i : Instruction} {k n : Nat}

theorem shifted_zero (i : Instruction) : i.shifted 0 0 = i := by
  obtain ⟨op, inouts, index, arity⟩ := i
  have hmap : inouts.map (Variable.shifted 0) = inouts := List.map_id inouts
  simp only [shifted, hmap, Nat.add_zero]

@[simp] theorem allOutputs_shifted :
    (i.shifted k n).allOutputs = i.allOutputs.map (Variable.shifted k) :=
  List.map_drop.symm

@[simp] theorem outputs_shifted : (i.shifted k n).outputs = i.outputs.map (Variable.shifted k) := by
  simp only [outputs, allOutputs_shifted, List.map_take]
  rfl

@[simp] theorem innerOutputs_shifted :
    (i.shifted k n).innerOutputs = i.innerOutputs.map (Variable.shifted k) := by
  simp only [innerOutputs, allOutputs_shifted, List.map_drop]
  rfl

end Instruction

/-! ## Stacks on stacks -/

section Stacks

variable {α β : Type} {R : α → β → Prop} {xs : List α} {ys : List β}

/-- What stands on a stack is left before the stack is. -/
theorem exists_outer (rest : List β) (h : List.Forall₂ R xs ys) (ends : Bool)
    (hends : ends = true → 2 ≤ xs.length) : ∃ zs,
      (if ends then (ys ++ rest).tail else ys ++ rest) = zs ++ rest ∧
      List.Forall₂ R (if ends then xs.tail else xs) zs ∧ zs.getLast? = ys.getLast? := by
  cases ends with
  | false => exact ⟨ys, rfl, h, rfl⟩
  | true =>
    have hlength := hends rfl
    obtain _ | ⟨-, _ | ⟨hx, hxs⟩⟩ := h
    · simp at hlength
    · simp at hlength
    · exact ⟨_, rfl, .cons hx hxs, List.getLast?_cons_cons.symm⟩

end Stacks

/-- Where no less is active around a block, no less is active in its body. -/
theorem ContextMode.body_contains {mode : ContextMode} {cs ds rest : List Context}
    (h : List.Forall₂ (fun c d => d.contains c = true) cs ds) (hne : cs ≠ [])
    (hresume : mode = .resume → 2 ≤ cs.length) (opened : Context) :
    (mode.body (ds ++ rest) opened).contains (mode.body cs opened) = true := by
  cases mode with
  | isolate => exact Context.contains_refl opened
  | propagate =>
    obtain _ | ⟨hc, -⟩ := h
    · exact absurd rfl hne
    · exact Context.contains_union hc (Context.contains_refl opened)
  | resume =>
    have hlength := hresume rfl
    obtain _ | ⟨-, _ | ⟨hc, -⟩⟩ := h
    · simp at hlength
    · simp at hlength
    · exact Context.contains_union hc (Context.contains_refl opened)

/-- What is known of a program that stands on top of `base`, by what is known of it alone: `q` is
`p` with variables and positions moved up. -/
structure Shifts (base : Progress) (n : Nat) (p q : Progress) : Prop where
  next : q.next = p.next + base.next
  scopes : ∃ ws, q.scopes = ws ++ base.scopes.tail ∧
    List.Forall₂ (fun us ws => us.map (Variable.shifted base.next) ⊆ ws) p.scopes ws ∧
      base.scopes.headD [] ⊆ ws.getLastD []
  contexts : ∃ ds, q.contexts = ds ++ base.contexts.tail ∧
    List.Forall₂ (fun c d => d.contains c = true) p.contexts ds ∧
      ds.getLast? = base.contexts.head?
  blocks : q.blocks = p.blocks.map (Instruction.shifted base.next n) ++ base.blocks

namespace Shifts

variable {base p q : Progress} {m n : Nat} {i : Instruction}

theorem start (hbase : base.Balanced) (hscript : base.context.contains .top = true) :
    Shifts base n {} base where
  next := (Nat.zero_add _).symm
  scopes := by
    obtain ⟨s, ss, hs⟩ := List.exists_cons_of_length_eq_add_one hbase.scopes
    exact ⟨[s], by rw [hs]; rfl, .cons (List.nil_subset s) .nil, by rw [hs]; exact fun _ h => h⟩
  contexts := by
    obtain ⟨c, cs, hc⟩ := List.exists_cons_of_length_eq_add_one hbase.contexts
    rw [Progress.context, hc] at hscript
    exact ⟨[c], by rw [hc]; rfl, .cons hscript .nil, by rw [hc]; rfl⟩
  blocks := rfl

theorem isVisible_shifted (h : Shifts base n p q) {v : Variable} (hv : p.isVisible v = true) :
    q.isVisible (v.shifted base.next) = true := by
  obtain ⟨us, hus, hmem⟩ := Progress.isVisible_iff.mp hv
  obtain ⟨ws, hq, hscopes, -⟩ := h.scopes
  obtain ⟨w, hw, hsub⟩ := Builder.exists_of_forall₂ hscopes hus
  refine Progress.isVisible_iff.mpr ⟨w, ?_, hsub (List.mem_map_of_mem hmem)⟩
  rw [hq]
  exact List.mem_append_left _ hw

theorem isVisible_of_base (h : Shifts base n p q) {v : Variable} (hv : base.isVisible v = true) :
    q.isVisible v = true := by
  obtain ⟨ws, hq, -, hlast⟩ := h.scopes
  exact Builder.isVisible_of_getLastD hq hlast hv

/-- What the check admits in the program alone fits in the larger one. -/
theorem fits (h : Shifts base n p q) (ha : p.Admits m i) :
    Builder.Fits q i.op (i.inputs.map (Variable.shifted base.next)) where
  length := (List.length_map _).trans i.length_inputs
  visible w hw := by
    obtain ⟨v, hv, rfl⟩ := List.mem_map.mp hw
    exact h.isVisible_shifted (ha.visible v hv)
  context := by
    refine Context.contains_trans ?_ ha.context
    obtain ⟨ds, hq, hcontexts, -⟩ := h.contexts
    rw [Progress.context, Progress.context, hq]
    generalize p.contexts = cs at hcontexts ⊢
    cases hcontexts with
    | nil => exact Context.contains_iff.mpr fun x hx => by cases x <;> cases hx
    | cons hc _ => exact hc
  closes hend := by
    obtain ⟨opener, rest, hp, hcloses⟩ := ha.closes hend
    exact ⟨opener.shifted base.next n, _, by rw [h.blocks, hp]; rfl, hcloses⟩

theorem two_le_length (hp : p.Balanced) (hcloses : i.isBlockEnd = true → ∃ opener rest,
    p.blocks = opener :: rest ∧ i.op.closes opener.op = true) (hend : i.isBlockEnd = true) :
    2 ≤ p.scopes.length ∧ 2 ≤ p.contexts.length := by
  obtain ⟨opener, rest, hb, -⟩ := hcloses hend
  rw [hp.scopes, hp.contexts, hb, List.length_cons]
  omega

theorem outerScopes (h : Shifts base n p q) (hp : p.Balanced) (ha : p.Admits m i) :
    ∃ u us v vs, p.outerScopes i = u :: us ∧
      q.outerScopes (i.shifted base.next n) = v :: vs ++ base.scopes.tail ∧
      u.map (Variable.shifted base.next) ⊆ v ∧
      List.Forall₂ (fun us ws => us.map (Variable.shifted base.next) ⊆ ws) us vs ∧
      base.scopes.headD [] ⊆ (v :: vs).getLastD [] := by
  obtain ⟨ws, hq, hscopes, hlast⟩ := h.scopes
  obtain ⟨vs, hvs, houter, hlast'⟩ := exists_outer base.scopes.tail hscopes i.isBlockEnd
    fun he => (two_le_length hp ha.closes he).1
  rw [← hq] at hvs
  rw [List.getLastD_eq_getLast?, ← hlast', ← List.getLastD_eq_getLast?] at hlast
  change List.Forall₂ _ (p.outerScopes i) vs at houter
  obtain ⟨u, us, hu⟩ := List.exists_cons_of_ne_nil (hp.outerScopes_ne_nil ha.closes)
  rw [hu] at houter
  obtain _ | ⟨hsub, hrest⟩ := houter
  exact ⟨u, us, _, _, hu, hvs, hsub, hrest, hlast⟩

theorem outerContexts (h : Shifts base n p q) (hp : p.Balanced) (ha : p.Admits m i) :
    ∃ ds, q.outerContexts (i.shifted base.next n) = ds ++ base.contexts.tail ∧
      List.Forall₂ (fun c d => d.contains c = true) (p.outerContexts i) ds ∧
      ds.getLast? = base.contexts.head? := by
  obtain ⟨ds, hq, hcontexts, hlast⟩ := h.contexts
  obtain ⟨es, hes, houter, hlast'⟩ := exists_outer base.contexts.tail hcontexts i.isBlockEnd
    fun he => (two_le_length hp ha.closes he).2
  rw [← hq] at hes
  exact ⟨es, hes, houter, hlast'.trans hlast⟩

/-- A case finds the context from outside of its switch. -/
theorem two_le_of_resume (hp : p.Balanced) (hstacked : p.Stacked) (ha : p.Admits m i)
    (hmode : i.shape.mode = .resume) : 2 ≤ (p.outerContexts i).length := by
  have hop : i.op = .beginSwitchCase ∨ i.op = .beginSwitchDefaultCase := by
    rw [Instruction.shape, Operation.mode_eq] at hmode
    cases hop : i.op <;> rw [hop] at hmode <;>
      first | exact .inl rfl | exact .inr rfl | cases hmode
  have hend : i.isBlockEnd = false := by
    rw [Instruction.isBlockEnd_eq]
    rcases hop with hop | hop <;> rw [hop]
  obtain ⟨s, rest, hb, -⟩ := hstacked.exists_switch ha.context hop
  rw [Progress.outerContexts, hend, if_neg Bool.false_ne_true, hp.contexts, hb, List.length_cons]
  omega

theorem scopes_after (h : Shifts base n p q) (hp : p.Balanced) (ha : p.Admits m i) :
    ∃ ws, (q.after (i.shifted base.next n)).scopes = ws ++ base.scopes.tail ∧
      List.Forall₂ (fun us ws => us.map (Variable.shifted base.next) ⊆ ws) (p.after i).scopes ws ∧
      base.scopes.headD [] ⊆ ws.getLastD [] := by
  have hstart : (i.shifted base.next n).isBlockStart = i.isBlockStart := rfl
  obtain ⟨u, us, v, vs, hu, hv, hsub, hrest, hlast⟩ := h.outerScopes hp ha
  simp only [Progress.after, hstart, hu, hv, Instruction.outputs_shifted,
    Instruction.innerOutputs_shifted, List.cons_append, List.headD_cons, List.tail_cons]
  have hbody : List.Forall₂ (fun us ws => us.map (Variable.shifted base.next) ⊆ ws)
      ((u ++ i.outputs) :: us) ((v ++ i.outputs.map (Variable.shifted base.next)) :: vs) := by
    refine .cons ?_ hrest
    rw [List.map_append]
    exact List.append_subset.mpr ⟨List.Subset.trans hsub (List.subset_append_left _ _),
      List.subset_append_right _ _⟩
  have hlast := List.Subset.trans hlast (Builder.getLastD_subset
    (List.subset_append_left v (i.outputs.map (Variable.shifted base.next))) vs)
  split
  · exact ⟨_ :: _ :: vs, rfl, .cons (List.Subset.refl _) hbody, hlast⟩
  · exact ⟨_ :: vs, rfl, hbody, hlast⟩

theorem contexts_after (h : Shifts base n p q) (hp : p.Balanced) (hstacked : p.Stacked)
    (ha : p.Admits m i) :
    ∃ ds, (q.after (i.shifted base.next n)).contexts = ds ++ base.contexts.tail ∧
      List.Forall₂ (fun c d => d.contains c = true) (p.after i).contexts ds ∧
      ds.getLast? = base.contexts.head? := by
  have hstart : (i.shifted base.next n).isBlockStart = i.isBlockStart := rfl
  obtain ⟨ds, hds, hcontexts, hlast⟩ := h.outerContexts hp ha
  have hne : p.outerContexts i ≠ [] := by
    unfold Progress.outerContexts
    split
    · rename_i he
      have htwo := (two_le_length hp ha.closes he).2
      exact List.ne_nil_of_length_pos (by rw [List.length_tail]; omega)
    · exact List.ne_nil_of_length_eq_add_one hp.contexts
  simp only [Progress.after, hstart, hds]
  split
  · refine ⟨_ :: ds, rfl, .cons ?_ hcontexts, ?_⟩
    · exact ContextMode.body_contains hcontexts hne (two_le_of_resume hp hstacked ha) _
    · generalize p.outerContexts i = cs at hcontexts hne
      cases hcontexts with
      | nil => exact absurd rfl hne
      | cons _ _ => rw [List.getLast?_cons_cons, hlast]
  · exact ⟨ds, rfl, hcontexts, hlast⟩

/-- A step of the program alone is a step of the larger one. -/
theorem after (h : Shifts base n p q) (hp : p.Balanced) (hstacked : p.Stacked)
    (ha : p.Admits m i) : Shifts base n (p.after i) (q.after (i.shifted base.next n)) where
  next := by
    change q.next + (i.shifted base.next n).allOutputs.length = _ + i.allOutputs.length + base.next
    rw [Instruction.allOutputs_shifted, List.length_map, h.next]
    omega
  scopes := h.scopes_after hp ha
  contexts := h.contexts_after hp hstacked ha
  blocks := by
    have hstart : (i.shifted base.next n).isBlockStart = i.isBlockStart := rfl
    have hend : (i.shifted base.next n).isBlockEnd = i.isBlockEnd := rfl
    have houter : q.outerBlocks (i.shifted base.next n) =
        (p.outerBlocks i).map (Instruction.shifted base.next n) ++ base.blocks := by
      unfold Progress.outerBlocks
      rw [hend, h.blocks]
      split
      · rename_i he
        obtain ⟨opener, rest, hb, -⟩ := ha.closes he
        rw [hb]
        rfl
      · rfl
    simp only [Progress.after, hstart, houter]
    split <;> rfl

/-- At the end of the program the stacks are as they were, but for what the program declares. -/
theorem stacks_eq (h : Shifts base n p q) (hp : p.Balanced) (hbase : base.Balanced)
    (hblocks : p.blocks = []) : q.blocks = base.blocks ∧ q.contexts = base.contexts := by
  refine ⟨by rw [h.blocks, hblocks]; rfl, ?_⟩
  obtain ⟨ds, hq, hcontexts, hlast⟩ := h.contexts
  have hlength := hcontexts.length_eq
  rw [hp.contexts, hblocks] at hlength
  obtain ⟨d, rfl⟩ := List.length_eq_one_iff.mp hlength.symm
  obtain ⟨c, cs, hc⟩ := List.exists_cons_of_length_eq_add_one hbase.contexts
  rw [hc] at hlast hq ⊢
  cases hlast
  exact hq

end Shifts

/-! ## Copies of a program -/

namespace Builder

variable {base b b' : Builder} {s p q : Progress} {done is : Code} {i : Instruction} {k n : Nat}

theorem map_shifted_eq_variablesFrom {vs : List Variable}
    (h : vs.map Variable.number = List.range' n vs.length) :
    vs.map (Variable.shifted k) = variablesFrom (n + k) vs.length := by
  have hshift : vs.map (Variable.shifted k) =
      ((vs.map Variable.number).map fun m => k + m).map Variable.mk := by
    simp only [List.map_map]
    exact List.map_congr_left fun v _ => congrArg Variable.mk (Nat.add_comm _ _)
  rw [hshift, h, List.map_add_range', Nat.add_comm k, variablesFrom]

/-- What the builder makes of an instruction whose inputs are renamed. -/
theorem drafted_eq_shifted (ha : p.Admits n i) (hnext : b.nextVariable = p.next + k) {m : Nat}
    (hcode : b.code.length = n + m)
    (hl : (i.inputs.map (Variable.shifted k)).length = i.op.shape.inputs) :
    b.drafted i.op (i.inputs.map (Variable.shifted k)) hl = i.shifted k m := by
  have hinouts : i.inputs.map (Variable.shifted k) ++ variablesFrom b.nextVariable (declares i.op) =
      i.inouts.map (Variable.shifted k) := by
    rw [declares_eq, hnext, ← map_shifted_eq_variablesFrom ha.numbered, ← List.map_append,
      i.inputs_append_allOutputs]
  unfold drafted Instruction.shifted
  simp only [hinouts, hcode, ha.index]

theorem mapM_adopted_eq {f : Variable → Variable} {vs : List Variable}
    (h : ∀ v ∈ vs, b.adopted v = .ok (f v)) : vs.mapM b.adopted = .ok (vs.map f) := by
  induction vs with
  | nil => rfl
  | cons v vs ih =>
    rw [List.mapM_cons, h v List.mem_cons_self, ih fun u hu => h u (List.mem_cons_of_mem v hu)]
    rfl

theorem lookup_map_self {f : Variable → Variable} {vs : List Variable} {v : Variable}
    (hv : v ∈ vs) : (vs.map fun u => (u, f u)).lookup v = some (f v) := by
  induction vs with
  | nil => cases hv
  | cons u us ih =>
    rw [List.map_cons, List.lookup_cons]
    by_cases hu : v = u
    · rw [hu, beq_self_eq_true]
    · rw [beq_eq_false_iff_ne.mpr hu]
      exact ih ((List.mem_cons.mp hv).resolve_left hu)

theorem lookup_zip_shifted {vs : List Variable} {old : List (Variable × Variable)} {v : Variable}
    (hv : v ∈ vs) : ((vs.zip (vs.map (Variable.shifted k))).reverse ++ old).lookup v =
      some (v.shifted k) := by
  rw [← List.map_prod_left_eq_zip, ← List.map_reverse, List.lookup_append,
    lookup_map_self (List.mem_reverse.mpr hv)]
  rfl

theorem mem_of_number {vs : List Variable} {v : Variable}
    (h : vs.map Variable.number = List.range' n vs.length) (hle : n ≤ v.number)
    (hlt : v.number < n + vs.length) : v ∈ vs := by
  have hmem : v.number ∈ vs.map Variable.number := by
    rw [h]
    exact List.mem_range'_1.mpr ⟨hle, hlt⟩
  obtain ⟨w, hw, hnumber⟩ := List.mem_map.mp hmem
  cases v
  cases hnumber
  exact hw

/-- The builder holds a copy of the code `done` behind what it held as `base`. The check knows `p`
after `done`; the stacks were `s` and are `q`. -/
structure Replays (base : Builder) (s : Progress) (done : Code) (p : Progress) (b : Builder)
    (q : Progress) : Prop where
  source : ({} : Progress).run 0 done = .ok p
  target : b.Stands q
  shifts : Shifts s base.code.length p q
  code : b.code = base.code ++ done.map (Instruction.shifted s.next base.code.length)
  adopted : ∀ v : Variable, v.number < p.next → b.adopted v = .ok (v.shifted s.next)

namespace Replays

theorem start (h : b.Stands s) (hscript : b.context.contains .top = true) :
    Replays b s [] {} b.beginAdoption s where
  source := rfl
  target := h.congr rfl rfl rfl rfl rfl
  shifts := Shifts.start h.balanced (by rwa [← h.context])
  code := (List.append_nil _).symm
  adopted _ hv := absurd hv (Nat.not_lt_zero _)

/-- What a copy declares is known under its new name, and so is what was known. -/
theorem adopted_after (h : Replays base s done p b q) (ha : p.Admits done.length i)
    (hadoption : b'.adoption =
      (i.allOutputs.zip (i.allOutputs.map (Variable.shifted s.next))).reverse ++ b.adoption)
    {v : Variable} (hv : v.number < (p.after i).next) :
    b'.adopted v = .ok (v.shifted s.next) := by
  by_cases hmem : v ∈ i.allOutputs
  · rw [Builder.adopted, hadoption, lookup_zip_shifted hmem]
  · rw [Builder.adopted, hadoption, lookup_zip_of_not_mem hmem]
    refine h.adopted v (Nat.lt_of_not_le fun hle => hmem ?_)
    exact mem_of_number ha.numbered hle hv

/-- The next instruction is copied, with the variables and the position moved up. -/
theorem adopt (h : Replays base s done p b q) (ha : p.Admits done.length i)
    (hcount : i.op.isCountable = true) (hroom : b.HasRoom i.op) :
    ∃ r, b.adopt i = .ok r ∧ r.2.nextVariable = b.nextVariable + i.allOutputs.length ∧
      Replays base s (done ++ [i]) (p.after i) r.2
        (q.after (i.shifted s.next base.code.length)) := by
  obtain ⟨hbalanced, hsees⟩ := Progress.run_induction (fun _ _ _ _ ha hs => hs.after ha)
    Progress.balanced_start h.source Progress.seesNumbered_start
  have hinputs : i.inputs.mapM b.adopted = .ok (i.inputs.map (Variable.shifted s.next)) := by
    refine mapM_adopted_eq fun v hv => h.adopted v ?_
    obtain ⟨vs, hvs, hmem⟩ := Progress.isVisible_iff.mp (ha.visible v hv)
    exact hsees vs hvs v hmem
  have hlength : b.code.length = done.length + base.code.length := by
    rw [h.code, List.length_append, List.length_map, Nat.add_comm]
  have hfits := h.shifts.fits ha
  have hdrafted := drafted_eq_shifted ha (h.target.next.trans h.shifts.next) hlength hfits.length
  have hsize : i.op.shape.inputs < Operation.countLimit := by
    have : i.op.shape.size < Operation.countLimit := by simpa [Operation.isCountable] using hcount
    rw [Shape.size] at this
    omega
  have hproduced : variablesFrom b.nextVariable (declares i.op) =
      i.allOutputs.map (Variable.shifted s.next) := by
    rw [declares_eq, h.target.next, h.shifts.next, map_shifted_eq_variablesFrom ha.numbered]
  have hemit := emit_eq_ok h.target hsize hroom hfits
  rw [hdrafted, hproduced] at hemit
  refine ⟨(i.allOutputs.map (Variable.shifted s.next),
    { b.extended q (i.shifted s.next base.code.length) with
      adoption := (i.allOutputs.zip (i.allOutputs.map (Variable.shifted s.next))).reverse ++
        b.adoption }), ?_, ?_, ?_⟩
  · rw [Builder.adopt, Carries.adoptAs_eq hcount rfl hinputs, hemit]
    rfl
  · change q.next + (i.shifted s.next base.code.length).allOutputs.length = _
    rw [Instruction.allOutputs_shifted, List.length_map, h.target.next]
  · have hindex : (i.shifted s.next base.code.length).index = b.code.length := by
      rw [hlength, ← ha.index]
      rfl
    have hstacked := Progress.stacked_of_run h.source
    refine ⟨Progress.run_append_admitted h.source hbalanced ha,
      (h.target.extended hindex hfits.closes).congr rfl rfl rfl rfl rfl,
      h.shifts.after hbalanced hstacked ha, ?_, fun v hv => h.adopted_after ha rfl hv⟩
    · change b.code ++ [i.shifted s.next base.code.length] = _
      rw [h.code, List.map_append, List.append_assoc]
      rfl

theorem adoptAll {final : Progress} (h : Replays base s done p b q)
    (hrun : p.run done.length is = .ok final) (hcount : is.IsCountable)
    (hroom : b.nextVariable + Code.numVariables is < Variable.limit) :
    ∃ b' q', b.adoptAll is = .ok b' ∧ Replays base s (done ++ is) final b' q' := by
  induction is generalizing done p b q with
  | nil =>
    cases hrun
    rw [List.append_nil]
    exact ⟨b, q, rfl, h⟩
  | cons i is ih =>
    have hbalanced := Progress.balanced_of_run h.source
    obtain ⟨ha, hrun⟩ := (Progress.run_cons_eq_ok_iff hbalanced).mp hrun
    change b.nextVariable + (i.allOutputs.length + Code.numVariables is) < Variable.limit at hroom
    obtain ⟨⟨produced, b₁⟩, hadopt, hnext, h₁⟩ :=
      h.adopt ha (hcount i List.mem_cons_self) (.of_lt (by omega))
    have hlength : (done ++ [i]).length = done.length + 1 := List.length_append
    obtain ⟨b', q', hall, h'⟩ := ih h₁ (hlength ▸ hrun)
      (fun j hj => hcount j (List.mem_cons_of_mem i hj)) (by rw [hnext]; omega)
    refine ⟨b', q', ?_, by rwa [List.append_assoc] at h'⟩
    rw [Builder.adoptAll, hadopt]
    exact hall

end Replays

theorem exists_appendProgram (hreachable : b.Reachable) (hscript : b.context.has .script = true)
    {program : Program} (hcheck : program.code.check = .ok ()) (hcount : program.code.IsCountable)
    (hroom : b.nextVariable + program.code.numVariables < Variable.limit) :
    ∃ b', b.appendProgram program = .ok b' ∧
      b'.code = b.code ++ program.code.map (Instruction.shifted b.nextVariable b.code.length) ∧
      b'.openBlocks = b.openBlocks ∧ b'.contexts = b.contexts ∧
      ∀ v, b.isVisible v = true → b'.isVisible v = true := by
  obtain ⟨s, hs⟩ := hreachable.exists_stands
  obtain ⟨final, hrun, hblocks⟩ := check_eq_ok_iff_run.mp hcheck
  obtain ⟨b', q, hall, h⟩ :=
    (Replays.start hs (contains_top_iff.mpr hscript)).adoptAll hrun hcount hroom
  rw [List.nil_append] at h
  have hbalanced := Progress.balanced_of_run hrun
  obtain ⟨hopen, hcontexts⟩ := h.shifts.stacks_eq hbalanced hs.balanced hblocks
  refine ⟨b', hall, ?_, ?_, ?_, fun v hv => ?_⟩
  · rw [h.code, hs.next]
  · rw [h.target.blocks, hs.blocks, hopen]
  · rw [h.target.contexts, hs.contexts, hcontexts]
  · rw [h.target.isVisible]
    rw [hs.isVisible] at hv
    exact h.shifts.isVisible_of_base hv

/-- A checked program can be appended wherever statements may stand and numbers are left for its
variables: its instructions are added in order, with variables and positions moved up, and nothing
else changes. Appended to a new builder, it is finished as the same code. -/
theorem appendProgram_replays {program : Program} (hcheck : program.code.check = .ok ())
    (hcount : program.code.IsCountable) :
    (∀ b : Builder, b.Reachable → b.context.has .script = true →
      b.nextVariable + program.code.numVariables < Variable.limit →
      ∃ b', b.appendProgram program = .ok b' ∧
        b'.code = b.code ++ program.code.map (Instruction.shifted b.nextVariable b.code.length) ∧
        b'.openBlocks = b.openBlocks ∧ b'.contexts = b.contexts ∧
        ∀ v, b.isVisible v = true → b'.isVisible v = true) ∧
    ∀ id, ∃ b' r, ({} : Builder).appendProgram program = .ok b' ∧ b'.finalize id = .ok r ∧
      r.code = program.code := by
  refine ⟨fun b hb hscript hroom => exists_appendProgram hb hscript hcheck hcount hroom,
    fun id => ?_⟩
  obtain ⟨b', happend, hcode, hopen, -⟩ :=
    exists_appendProgram Reachable.new (by decide) hcheck hcount
      ((Nat.zero_add _).symm ▸ numVariables_lt_of_check hcheck)
  have hcode : b'.code = program.code := by
    rw [hcode]
    exact (List.map_congr_left fun i _ => i.shifted_zero).trans (List.map_id _)
  refine ⟨b', { id, parent := b'.parent, code := b'.code, comments := b'.comments
                contributors := b'.contributors }, happend, ?_, hcode⟩
  have hopen : b'.openBlocks = [] := hopen
  rw [finalize, hopen, isWellFormed, hcode, hcheck]
  rfl

/-- A loop that is still open. -/
def openLoop : List (Operation × List Variable) :=
  [(.loadInteger 1, []), (.beginWhileLoop .lessThan, [⟨0⟩, ⟨0⟩])]

/-- A function in a case of a switch. -/
def switchingProgram : Program where
  id := .fresh 0
  code :=
    [{ op := .loadInteger 5, inouts := [⟨0⟩], index := 0, arity := by decide },
      { op := .beginSwitch, inouts := [⟨0⟩], index := 1, arity := by decide },
      { op := .beginSwitchCase, inouts := [⟨0⟩], index := 2, arity := by decide },
      { op := .beginPlainFunction 1, inouts := [⟨1⟩, ⟨2⟩], index := 3, arity := by decide },
      { op := .ret, inouts := [⟨2⟩], index := 4, arity := by decide },
      { op := .endPlainFunction, inouts := [], index := 5, arity := by decide },
      { op := .endSwitchCase, inouts := [], index := 6, arity := by decide },
      { op := .endSwitch, inouts := [], index := 7, arity := by decide }]

theorem appendProgram_replays_openLoop :
    switchingProgram.code.check = .ok () ∧ switchingProgram.code.IsCountable ∧
    ∃ b, ({} : Builder).emitAll openLoop = .ok b ∧ b.Reachable ∧ b.context.has .script = true ∧
      b.nextVariable + switchingProgram.code.numVariables < Variable.limit ∧
      ∃ b', b.appendProgram switchingProgram = .ok b' ∧ b'.openBlocks = [1] ∧
        b'.contexts = b.contexts ∧ b'.isVisible ⟨0⟩ = true ∧
        b'.code.map Instruction.inouts =
          [[⟨0⟩], [⟨0⟩, ⟨0⟩], [⟨1⟩], [⟨1⟩], [⟨1⟩], [⟨2⟩, ⟨3⟩], [⟨3⟩], [], [], []] := by
  have hcheck : switchingProgram.code.check = .ok () := rfl
  have hcount : ∀ i ∈ switchingProgram.code, i.op.isCountable = true := by decide
  have hemit : ({} : Builder).emitAll openLoop = .ok _ := rfl
  refine ⟨hcheck, hcount, _, hemit, Reachable.new.emitAll hemit, rfl, by decide, ?_⟩
  obtain ⟨b', happend, hcode, hopen, hcontexts, hvisible⟩ :=
    (appendProgram_replays hcheck hcount).1 _ (Reachable.new.emitAll hemit) rfl (by decide)
  exact ⟨b', happend, hopen, hcontexts, hvisible ⟨0⟩ rfl, by rw [hcode]; rfl⟩

end Builder

end ScriptFuzz
