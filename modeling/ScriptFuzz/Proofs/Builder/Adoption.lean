import Mathlib.Data.List.Forall2
import ScriptFuzz.Proofs.Builder.Acceptance
import ScriptFuzz.Proofs.Code.Kinds
import ScriptFuzz.Proofs.Code.Uses

/-!
# Copying checked code into a builder

`Builder.Carries` relates what the check knows about a source after a part of it to a builder that
holds a copy of that part, possibly with other instructions between, with parameters altered, and
with whole blocks left out. One lemma says what each kind of step does: `Carries.adoptAs` copies the
next instruction, `Carries.extend` adds instructions that are not of the source, and `Carries.skip`
leaves the next instruction out.
-/

namespace ScriptFuzz

set_option autoImplicit false

open Code

namespace Context

variable {a b c d : Context}

theorem contains_refl (a : Context) : a.contains a = true := contains_iff.mpr fun _ h => h

theorem contains_trans (h : a.contains b = true) (h' : b.contains c = true) :
    a.contains c = true :=
  contains_iff.mpr fun x hx => contains_iff.mp h x (contains_iff.mp h' x hx)

theorem contains_union (h : a.contains b = true) (h' : c.contains d = true) :
    (a.union c).contains (b.union d) = true := by
  rw [contains_iff] at *
  intro x hx
  simp only [union, has_ofPredicate, Bool.or_eq_true] at hx ⊢
  exact hx.imp (h x) (h' x)

end Context

namespace Code

/-- Inside of a copy of blocks no less is active than inside of the blocks. -/
theorem SameBlocks.contains {base : List Instruction} (hbase : (contextIn base).script = true) :
    ∀ {is js : List Instruction}, SameBlocks is js → Settled is →
      (contextIn (js ++ base)).contains (contextIn is) = true
  | [], _, .nil, _ => contains_top_iff.mpr hbase
  | i :: is, j :: js, .cons hkind hrest, hsettled => by
    have hshape : j.op.shape = i.op.shape := (Operation.shape_eq_of_kind hkind).symm
    have hi : contextIn (i :: is) = i.op.shape.mode.body (contextsIn is) i.op.shape.opens := rfl
    have hj : contextIn (j :: js ++ base) =
        i.op.shape.mode.body (contextsIn (js ++ base)) i.op.shape.opens := by
      rw [← hshape]
      rfl
    have ih := SameBlocks.contains hbase hrest hsettled.2.2
    rw [hi, hj]
    cases hmode : i.op.shape.mode with
    | isolate => exact Context.contains_refl _
    | propagate => exact Context.contains_union ih (Context.contains_refl _)
    | resume =>
      have hsurroundings : i.op.surroundings = .ofList [.switchBlock] := by
        rw [Operation.mode_eq] at hmode
        cases hop : i.op <;> rw [hop] at hmode <;> first | rfl | cases hmode
      have hswitch := hsettled.2.1
      rw [hsurroundings, contains_switchBlock_iff, hsettled.2.2.classified.switchBlock] at hswitch
      obtain ⟨s, is, rfl, -⟩ := exists_of_inSwitch hswitch
      obtain _ | ⟨-, hrest⟩ := hrest
      rename_i t js
      have ih := SameBlocks.contains hbase hrest hsettled.2.2.2.2
      rw [List.cons_append, contextsIn, contextsIn, contextsIn_eq is, contextsIn_eq (js ++ base)]
      exact Context.contains_union ih (Context.contains_refl _)

end Code

/-! ## Renaming -/

namespace Builder

variable {b b' : Builder} {lost : Variable → Prop} {vs ws : List Variable}

/-- Every variable of a scope that is not lost has a name in the copy of the scope. -/
def Renames (b : Builder) (lost : Variable → Prop) (vs ws : List Variable) : Prop :=
  ∀ v ∈ vs, lost v ∨ ∃ w ∈ ws, b.adoption.lookup v = some w

theorem Renames.append_right (h : b.Renames lost vs ws) (us : List Variable) :
    b.Renames lost vs (ws ++ us) := fun v hv =>
  (h v hv).imp_right fun ⟨w, hw, hlookup⟩ => ⟨w, List.mem_append_left us hw, hlookup⟩

theorem Renames.append_left (h : b.Renames lost vs ws) (us : List Variable) :
    b.Renames lost vs (us ++ ws) := fun v hv =>
  (h v hv).imp_right fun ⟨w, hw, hlookup⟩ => ⟨w, List.mem_append_right us hw, hlookup⟩

theorem Renames.congr (h : b.Renames lost vs ws) (heq : b'.adoption = b.adoption) :
    b'.Renames lost vs ws := by
  intro v hv
  rw [heq]
  exact h v hv

theorem renames_append_iff {vs vs' ws : List Variable} :
    b.Renames lost (vs ++ vs') ws ↔ b.Renames lost vs ws ∧ b.Renames lost vs' ws := by
  simp only [Renames, List.mem_append, or_imp, forall_and]

theorem exists_lookup_zip {old : List (Variable × Variable)} {v : Variable}
    (hlength : vs.length = ws.length) (hv : v ∈ vs) :
    ∃ w ∈ ws, ((vs.zip ws).reverse ++ old).lookup v = some w := by
  rw [List.lookup_append]
  cases hlookup : (vs.zip ws).reverse.lookup v with
  | none =>
    rw [List.lookup_eq_none_iff] at hlookup
    have hfst : (vs.zip ws).map Prod.fst = vs := List.map_fst_zip (Nat.le_of_eq hlength)
    rw [← hfst] at hv
    obtain ⟨pair, hpair, rfl⟩ := List.mem_map.mp hv
    simpa using hlookup pair (List.mem_reverse.mpr hpair)
  | some w =>
    obtain ⟨l₁, l₂, heq, -⟩ := List.lookup_eq_some_iff.mp hlookup
    have hmem : (v, w) ∈ vs.zip ws := by
      rw [← List.mem_reverse, heq]
      simp
    exact ⟨w, (List.of_mem_zip hmem).2, rfl⟩

theorem lookup_zip_of_not_mem {old : List (Variable × Variable)} {v : Variable} (hv : v ∉ vs) :
    ((vs.zip ws).reverse ++ old).lookup v = old.lookup v := by
  have hnone : (vs.zip ws).reverse.lookup v = none := by
    rw [List.lookup_eq_none_iff]
    intro pair hpair
    have hmem := (List.of_mem_zip (List.mem_reverse.mp hpair)).1
    simp only [bne_iff_ne, ne_eq]
    rintro rfl
    exact hv hmem
  rw [List.lookup_append, hnone, Option.none_or]

theorem renames_zip {i : Instruction} {vs ws : List Variable} {old : List (Variable × Variable)}
    (hold : b.adoption = (i.allOutputs.zip (vs ++ ws)).reverse ++ old)
    (hvs : i.outputs.length = vs.length) (hws : i.innerOutputs.length = ws.length)
    (hnodup : i.allOutputs.Nodup) :
    b.Renames lost i.outputs vs ∧ b.Renames lost i.innerOutputs ws := by
  rw [← i.outputs_append_innerOutputs] at hold hnodup
  rw [List.zip_append hvs, List.reverse_append, List.append_assoc] at hold
  constructor <;> intro v hv <;> refine .inr ?_ <;> rw [hold]
  · rw [lookup_zip_of_not_mem fun hin => (List.nodup_append.mp hnodup).2.2 v hv v hin rfl]
    exact exists_lookup_zip hvs hv
  · exact exists_lookup_zip hws hv

theorem Renames.adopted {i : Instruction} {produced us ws : List Variable}
    (h : b.Renames lost us ws)
    (hadoption : b'.adoption = (i.allOutputs.zip produced).reverse ++ b.adoption)
    (hfresh : ∀ v ∈ us, v ∉ i.allOutputs) : b'.Renames lost us ws := by
  intro v hv
  rw [hadoption, lookup_zip_of_not_mem (hfresh v hv)]
  exact h v hv

theorem mapM_adopted {vs : List Variable} {seen : Variable → Prop}
    (h : ∀ v ∈ vs, ∃ w, seen w ∧ b.adoption.lookup v = some w) :
    ∃ ws, vs.mapM b.adopted = .ok ws ∧ ws.length = vs.length ∧ ∀ w ∈ ws, seen w := by
  induction vs with
  | nil => exact ⟨[], rfl, rfl, nofun⟩
  | cons v vs ih =>
    obtain ⟨w, hw, hlookup⟩ := h v List.mem_cons_self
    obtain ⟨ws, hws, hlength, hseen⟩ := ih fun u hu => h u (List.mem_cons_of_mem v hu)
    have hv : b.adopted v = .ok w := by rw [adopted, hlookup]
    refine ⟨w :: ws, ?_, by simp [hlength], ?_⟩
    · rw [List.mapM_cons, hv, hws]
      rfl
    · intro u hu
      rcases List.mem_cons.mp hu with rfl | hu
      · exact hw
      · exact hseen u hu

theorem exists_of_forall₂ {α β : Type} {R : α → β → Prop} {as : List α} {bs : List β}
    (h : List.Forall₂ R as bs) {a : α} (ha : a ∈ as) : ∃ b ∈ bs, R a b := by
  induction h with
  | nil => cases ha
  | cons hr _ ih =>
    rcases List.mem_cons.mp ha with rfl | ha
    · exact ⟨_, List.mem_cons_self, hr⟩
    · obtain ⟨b, hb, hr⟩ := ih ha
      exact ⟨b, List.mem_cons_of_mem _ hb, hr⟩

theorem getLastD_subset {w w' : List Variable} (h : w ⊆ w') (ws : List (List Variable)) :
    (w :: ws).getLastD [] ⊆ (w' :: ws).getLastD [] := by
  cases ws with
  | nil => exact h
  | cons _ _ => exact fun _ hv => hv

/-- Scopes that stand on others, the lowest of them holding what the innermost of those holds, leave
visible what was visible. -/
theorem isVisible_of_getLastD {base q : Progress} {ws : List (List Variable)}
    (hq : q.scopes = ws ++ base.scopes.tail) (hlast : base.scopes.headD [] ⊆ ws.getLastD [])
    {v : Variable} (hv : base.isVisible v = true) : q.isVisible v = true := by
  obtain ⟨s, hs, hv⟩ := Progress.isVisible_iff.mp hv
  rw [Progress.isVisible_iff, hq]
  cases hbase : base.scopes with
  | nil =>
    rw [hbase] at hs
    cases hs
  | cons t ts =>
    rw [hbase] at hs hlast
    rcases List.mem_cons.mp hs with rfl | hs
    · have hlast := hlast hv
      cases hws : ws.getLast? with
      | none =>
        rw [List.getLastD_eq_getLast?, hws] at hlast
        cases hlast
      | some w =>
        rw [List.getLastD_eq_getLast?, hws] at hlast
        exact ⟨w, List.mem_append_left _ (List.mem_of_getLast? hws), hlast⟩
    · exact ⟨s, List.mem_append_right _ hs, hv⟩

/-! ## Copies -/

/-- Nothing has changed but that the innermost scope may have grown. -/
structure Widens (q q' : Progress) : Prop where
  blocks : q'.blocks = q.blocks
  defaults : q'.defaults = q.defaults
  scopes : ∃ s vs ss, q.scopes = s :: ss ∧ q'.scopes = (s ++ vs) :: ss

theorem Widens.trans {q₁ q₂ q₃ : Progress} (h : Widens q₁ q₂) (h' : Widens q₂ q₃) :
    Widens q₁ q₃ := by
  refine ⟨h'.blocks.trans h.blocks, h'.defaults.trans h.defaults, ?_⟩
  obtain ⟨s, vs, ss, hq₁, hq₂⟩ := h.scopes
  obtain ⟨s', vs', ss', hq₂', hq₃⟩ := h'.scopes
  rw [hq₂] at hq₂'
  cases hq₂'
  exact ⟨s, vs ++ vs', ss, hq₁, by rw [hq₃, List.append_assoc]⟩

theorem Reads.widens_refl {q : Progress} (h : b.Reads q) : Widens q q := by
  refine ⟨rfl, rfl, ?_⟩
  have hlength := h.balanced.scopes
  cases hs : q.scopes with
  | nil => simp [hs] at hlength
  | cons s ss => exact ⟨s, [], ss, rfl, by rw [List.append_nil]⟩

theorem Widens.isVisible {q q' : Progress} (h : Widens q q') {v : Variable}
    (hv : q.isVisible v = true) : q'.isVisible v = true := by
  obtain ⟨s, vs, ss, hq, hq'⟩ := h.scopes
  rw [Progress.isVisible_iff, hq] at hv
  rw [Progress.isVisible_iff, hq']
  obtain ⟨t, ht, hmem⟩ := hv
  rcases List.mem_cons.mp ht with rfl | ht
  · exact ⟨_, List.mem_cons_self, List.mem_append_left vs hmem⟩
  · exact ⟨t, List.mem_cons_of_mem _ ht, hmem⟩

def switches (is : List Instruction) : Nat := is.countP fun i => i.op = .beginSwitch

theorem switches_cons_of_ne {i : Instruction} {is : List Instruction} (h : i.op ≠ .beginSwitch) :
    switches (i :: is) = switches is := by
  simp [switches, h]

theorem switches_cons_of_eq {i : Instruction} {is : List Instruction} (h : i.op = .beginSwitch) :
    switches (i :: is) = switches is + 1 := by
  simp [switches, h]

/-- The builder holds a copy of the code `done` of a source, on top of what it held in the state
`base`. The check knows `p` after `done`, and `q` after what the builder holds. The `skipped`
innermost blocks of the source are left out. -/
structure Carries (lost : Variable → Prop) (base : Progress) (skipped : Nat) (done : Code)
    (p : Progress) (b : Builder) (q : Progress) : Prop where
  source : ({} : Progress).run 0 done = .ok p
  target : b.Holds q
  blocks : ∃ js, q.blocks = js ++ base.blocks ∧ SameBlocks (p.blocks.drop skipped) js
  scopes : ∃ ws, q.scopes = ws ++ base.scopes.tail ∧
    List.Forall₂ (b.Renames lost) (p.scopes.drop skipped) ws ∧
      base.scopes.headD [] ⊆ ws.getLastD []
  flags : ∃ gs, q.defaults = gs ++ base.defaults ∧
    List.Forall₂ (fun f g => g = true → f = true)
      (p.defaults.drop (switches (p.blocks.take skipped))) gs

namespace Carries

variable {base p q : Progress} {skipped : Nat} {done : Code} {i : Instruction} {op : Operation}

theorem start (h : b.Holds base) : Carries lost base 0 [] {} b base where
  source := rfl
  target := h
  blocks := ⟨[], rfl, .nil⟩
  scopes := by
    have hlength := h.balanced.scopes
    cases hs : base.scopes with
    | nil => simp [hs] at hlength
    | cons s ss => exact ⟨[s], rfl, .cons nofun .nil, fun _ hv => hv⟩
  flags := ⟨[], rfl, .nil⟩

theorem stacked (h : Carries lost base skipped done p b q) : p.Stacked :=
  Progress.stacked_of_run h.source

theorem balanced (h : Carries lost base skipped done p b q) : p.Balanced :=
  Progress.balanced_of_run h.source

theorem seesNumbered (h : Carries lost base skipped done p b q) : p.SeesNumbered :=
  (Progress.run_induction (fun _ _ _ _ ha hs => hs.after ha) Progress.balanced_start h.source
    Progress.seesNumbered_start).2

theorem not_mem_allOutputs (h : Carries lost base skipped done p b q)
    (ha : p.Admits done.length i) {vs : List Variable} (hvs : vs ∈ p.scopes) {v : Variable}
    (hv : v ∈ vs) : v ∉ i.allOutputs := by
  intro hmem
  have hnumber := List.mem_map_of_mem (f := Variable.number) hmem
  rw [ha.numbered, List.mem_range'_1] at hnumber
  have := h.seesNumbered vs hvs v hv
  omega

theorem exists_adopted (h : Carries lost base 0 done p b q) {v : Variable}
    (hv : p.isVisible v = true) (hlost : ¬lost v) :
    ∃ w, q.isVisible w = true ∧ b.adoption.lookup v = some w := by
  obtain ⟨vs, hvs, hmem⟩ := Progress.isVisible_iff.mp hv
  obtain ⟨ws, hq, hscopes, -⟩ := h.scopes
  obtain ⟨us, hus, hrename⟩ := exists_of_forall₂ hscopes hvs
  obtain ⟨w, hw, hlookup⟩ := (hrename v hmem).resolve_left hlost
  refine ⟨w, Progress.isVisible_iff.mpr ⟨us, ?_, hw⟩, hlookup⟩
  rw [hq]
  exact List.mem_append_left _ hus

theorem isVisible_of_base (h : Carries lost base skipped done p b q) {v : Variable}
    (hv : base.isVisible v = true) : q.isVisible v = true := by
  obtain ⟨ws, hq, -, hlast⟩ := h.scopes
  exact isVisible_of_getLastD hq hlast hv

theorem adopted (h : Carries lost base 0 done p b q) {v : Variable}
    (hv : p.isVisible v = true) (hlost : ¬lost v) :
    ∃ w, q.isVisible w = true ∧ b.adopted v = .ok w := by
  obtain ⟨w, hw, hlookup⟩ := h.exists_adopted hv hlost
  exact ⟨w, hw, by rw [Builder.adopted, hlookup]⟩

theorem context (h : Carries lost base 0 done p b q)
    (hbase : (contextIn base.blocks).script = true) :
    q.context.contains p.context = true := by
  obtain ⟨js, hq, hsame⟩ := h.blocks
  rw [h.stacked.context, (Progress.stacked_of_run h.target.run).context, hq]
  exact hsame.contains hbase h.stacked.settled

/-- What the check admits in the source fits where the copy stands. -/
theorem fits (h : Carries lost base 0 done p b q) (hbase : (contextIn base.blocks).script = true)
    (ha : p.Admits done.length i) (hkind : op.kind = i.op.kind)
    (hlost : ∀ v ∈ i.inputs, ¬lost v) :
    ∃ inputs, i.inputs.mapM b.adopted = .ok inputs ∧ Fits q op inputs := by
  have hshape : op.shape = i.shape := Operation.shape_eq_of_kind hkind
  obtain ⟨inputs, hinputs, hlength, hvisible⟩ := mapM_adopted fun v hv =>
    h.exists_adopted (ha.visible v hv) (hlost v hv)
  refine ⟨inputs, hinputs, ?_, hvisible, ?_, fun hend => ?_⟩
  · rw [hlength, i.length_inputs, hshape]
  · rw [hshape]
    exact Context.contains_trans (h.context hbase) ha.context
  · rw [hshape] at hend
    obtain ⟨opener, rest, hp, hcloses⟩ := ha.closes hend
    obtain ⟨js, hq, hsame⟩ := h.blocks
    rw [List.drop_zero, hp] at hsame
    obtain _ | ⟨hopener, hrest⟩ := hsame
    exact ⟨_, _, hq, (Operation.closes_eq_of_kind hkind hopener.symm).trans hcloses⟩

theorem source_after (h : Carries lost base skipped done p b q) (ha : p.Admits done.length i) :
    ({} : Progress).run 0 (done ++ [i]) = .ok (p.after i) :=
  Progress.run_append_admitted h.source h.balanced ha

theorem outerBlocks (h : Carries lost base 0 done p b q) (ha : p.Admits done.length i)
    {j : Instruction} (hend : j.isBlockEnd = i.isBlockEnd) :
    ∃ js, q.outerBlocks j = js ++ base.blocks ∧ SameBlocks (p.outerBlocks i) js := by
  obtain ⟨js, hq, hsame⟩ := h.blocks
  rw [List.drop_zero] at hsame
  unfold Progress.outerBlocks
  rw [hend]
  split
  · rename_i he
    obtain ⟨opener, rest, hp, -⟩ := ha.closes he
    rw [hp] at hsame ⊢
    obtain _ | ⟨-, hrest⟩ := hsame
    exact ⟨_, by rw [hq]; rfl, hrest⟩
  · exact ⟨js, hq, hsame⟩

theorem outerScopes (h : Carries lost base 0 done p b q) (ha : p.Admits done.length i)
    {j : Instruction} (hend : j.isBlockEnd = i.isBlockEnd) :
    ∃ v vs w ws, p.outerScopes i = v :: vs ∧ q.outerScopes j = w :: ws ++ base.scopes.tail ∧
      b.Renames lost v w ∧ List.Forall₂ (b.Renames lost) vs ws ∧
      base.scopes.headD [] ⊆ (w :: ws).getLastD [] := by
  obtain ⟨ws, hq, hrenames, hlast⟩ := h.scopes
  rw [List.drop_zero] at hrenames
  have hlength := h.balanced.scopes
  unfold Progress.outerScopes
  rw [hend, hq]
  generalize p.scopes = scopes at hrenames hlength ⊢
  split
  · rename_i he
    obtain ⟨opener, rest, hp, -⟩ := ha.closes he
    rw [hp, List.length_cons] at hlength
    obtain _ | ⟨-, _ | ⟨hv, hvs⟩⟩ := hrenames
    · simp at hlength
    · simp at hlength
    · exact ⟨_, _, _, _, rfl, rfl, hv, hvs, hlast⟩
  · obtain _ | ⟨hv, hvs⟩ := hrenames
    · simp at hlength
    · exact ⟨_, _, _, _, rfl, rfl, hv, hvs, hlast⟩

theorem exists_flag (h : Carries lost base skipped done p b q) {s : Instruction}
    {rest : List Instruction} (hp : p.blocks = s :: rest) (hs : s.op = .beginSwitch) :
    ∃ f fs, p.defaults = f :: fs := by
  have hflagged := Progress.flagged_of_run h.source
  rw [hp, Flagged, if_pos hs] at hflagged
  obtain ⟨f, fs, hf, -⟩ := hflagged
  exact ⟨f, fs, hf⟩

theorem flags_after (h : Carries lost base 0 done p b q) (ha : p.Admits done.length i)
    {j : Instruction} (hkind : j.op.kind = i.op.kind) :
    ∃ gs, q.defaultsAfter j = gs ++ base.defaults ∧
      List.Forall₂ (fun f g => g = true → f = true) (p.defaultsAfter i) gs := by
  obtain ⟨gs, hq, hflags⟩ := h.flags
  simp only [List.take_zero, switches, List.countP_nil, List.drop_zero] at hflags
  have hop (op : Operation)
      (hmem : op ∈ [.beginSwitch, .beginSwitchCase, .beginSwitchDefaultCase, .endSwitch]) :
      j.op = op ↔ i.op = op := Operation.eq_iff_of_kind hkind hmem
  by_cases hdefault : i.op = .beginSwitchDefaultCase
  · obtain ⟨fs, hfs⟩ := List.head?_eq_some_iff.mp (ha.undefaulted (.inr hdefault))
    rw [Progress.defaultsAfter, Progress.defaultsAfter, (hop _ (by simp)).mpr hdefault, hdefault,
      hfs, hq]
    rw [hfs] at hflags
    obtain _ | @⟨_, g, _, gs, -, hrest⟩ := hflags
    exact ⟨true :: gs, rfl, .cons (fun _ => rfl) hrest⟩
  by_cases hend : i.op = .endSwitch
  · obtain ⟨s, rest, hp, hcloses⟩ := ha.closes (by rw [Instruction.isBlockEnd_eq, hend])
    rw [hend] at hcloses
    obtain ⟨f, fs, hfs⟩ := h.exists_flag hp (Progress.op_eq_beginSwitch_of_closes hcloses)
    rw [Progress.defaultsAfter, Progress.defaultsAfter, (hop _ (by simp)).mpr hend, hend, hfs, hq]
    rw [hfs] at hflags
    obtain _ | @⟨_, g, _, gs, -, hrest⟩ := hflags
    exact ⟨gs, rfl, hrest⟩
  by_cases hswitch : i.op = .beginSwitch
  · rw [Progress.defaultsAfter, Progress.defaultsAfter, (hop _ (by simp)).mpr hswitch, hswitch, hq]
    exact ⟨false :: gs, rfl, .cons id hflags⟩
  · rw [Progress.defaultsAfter_eq_self hdefault hend hswitch]
    rw [← hop _ (by simp)] at hdefault hend hswitch
    rw [Progress.defaultsAfter_eq_self hdefault hend hswitch]
    exact ⟨gs, hq, hflags⟩

theorem after (h : Carries lost base 0 done p b q) (ha : p.Admits done.length i) {j : Instruction}
    (hkind : j.op.kind = i.op.kind) (htarget : b'.Holds (q.after j))
    (hadoption : b'.adoption = (i.allOutputs.zip j.allOutputs).reverse ++ b.adoption) :
    Carries lost base 0 (done ++ [i]) (p.after i) b' (q.after j) := by
  have hshape : j.shape = i.shape := Operation.shape_eq_of_kind hkind
  have hstart : j.isBlockStart = i.isBlockStart := congrArg (·.has .blockStart) hshape
  have hend : j.isBlockEnd = i.isBlockEnd := congrArg (·.has .blockEnd) hshape
  refine ⟨h.source_after ha, htarget, ?_, ?_, ?_⟩
  · obtain ⟨js, hq, hsame⟩ := h.outerBlocks ha hend
    simp only [Progress.after, hstart, List.drop_zero]
    split
    · exact ⟨j :: js, by rw [hq]; rfl, .cons hkind.symm hsame⟩
    · exact ⟨js, hq, hsame⟩
  · obtain ⟨v, vs, w, ws, hp, hq, hv, hvs, hlast⟩ := h.outerScopes ha hend
    have hnodup : i.allOutputs.Nodup :=
      List.Pairwise.of_map Variable.number (fun _ _ hne heq => hne (congrArg _ heq))
        (ha.numbered ▸ List.nodup_range')
    have hlengths : i.outputs.length = j.outputs.length ∧
        i.innerOutputs.length = j.innerOutputs.length := by
      rw [i.length_outputs, j.length_outputs, i.length_innerOutputs, j.length_innerOutputs, hshape]
      exact ⟨rfl, rfl⟩
    rw [← j.outputs_append_innerOutputs] at hadoption
    obtain ⟨houtputs, hinner⟩ :
        b'.Renames lost i.outputs j.outputs ∧ b'.Renames lost i.innerOutputs j.innerOutputs :=
      renames_zip hadoption hlengths.1 hlengths.2 hnodup
    -- What the source saw before keeps its names, since the instruction declares other variables.
    have hold {us xs : List Variable} (hus : us ∈ p.outerScopes i)
        (hrename : b.Renames lost us xs) : b'.Renames lost us xs := by
      refine hrename.adopted hadoption fun u hu => h.not_mem_allOutputs ha ?_ hu
      unfold Progress.outerScopes at hus
      split at hus
      · exact List.mem_of_mem_tail hus
      · exact hus
    have hbody : List.Forall₂ (b'.Renames lost) ((v ++ i.outputs) :: vs)
        ((w ++ j.outputs) :: ws) := by
      refine .cons (renames_append_iff.mpr ⟨?_, houtputs.append_left w⟩) ?_
      · exact (hold (by rw [hp]; exact List.mem_cons_self) hv).append_right _
      · refine ((List.forall₂_and_left _ _).mpr ⟨fun us hus => ?_, hvs⟩).imp fun us xs hus =>
          hold hus.1 hus.2
        rw [hp]
        exact List.mem_cons_of_mem v hus
    have hlast' :=
      List.Subset.trans hlast (getLastD_subset (List.subset_append_left w j.outputs) ws)
    simp only [Progress.after, hstart, List.drop_zero, hp, hq]
    split
    · exact ⟨j.innerOutputs :: (w ++ j.outputs) :: ws, rfl, .cons hinner hbody, hlast'⟩
    · exact ⟨(w ++ j.outputs) :: ws, rfl, hbody, hlast'⟩
  · obtain ⟨gs, hq, hflags⟩ := h.flags_after ha hkind
    exact ⟨gs, hq, hflags⟩

theorem adoptAs_eq {inputs : List Variable} (hcount : op.isCountable = true)
    (hsize : op.shape.size = i.shape.size) (hinputs : i.inputs.mapM b.adopted = .ok inputs) :
    b.adoptAs i op = (b.emit op inputs).map fun r =>
      (r.1, { r.2 with adoption := (i.allOutputs.zip r.1).reverse ++ r.2.adoption }) := by
  unfold Builder.adoptAs
  simp only [hcount, hsize, hinputs, bind, Except.bind, Bool.not_true, Bool.false_eq_true, if_false,
    ne_eq, not_true_eq_false]
  cases b.emit op inputs <;> rfl

/-- The next instruction of the source is copied with an operation of its kind, unless memory or
numbers run out. -/
theorem adoptAs (h : Carries lost base 0 done p b q)
    (hbase : (contextIn base.blocks).script = true) (ha : p.Admits done.length i)
    (hkind : op.kind = i.op.kind) (hcount : i.op.isCountable = true)
    (hlost : ∀ v ∈ i.inputs, ¬lost v) :
    Fault.Allows (b.adoptAs i op) fun r => ∃ j : Instruction, j.op = op ∧
      r.2.code = b.code ++ [j] ∧ Carries lost base 0 (done ++ [i]) (p.after i) r.2 (q.after j) := by
  have hshape : op.shape = i.shape := Operation.shape_eq_of_kind hkind
  have hcount' : op.isCountable = true := by
    rw [Operation.isCountable, hshape]
    exact hcount
  obtain ⟨inputs, hinputs, hfits⟩ := h.fits hbase ha hkind hlost
  -- A case of the source has a flag that is not set, and so has its copy.
  have hcase : op = .beginSwitchCase ∨ op = .beginSwitchDefaultCase →
      q.defaults.head? = some false := by
    intro hop
    have hi : i.op = .beginSwitchCase ∨ i.op = .beginSwitchDefaultCase :=
      hop.imp (Operation.eq_iff_of_kind hkind (by simp)).mp
        (Operation.eq_iff_of_kind hkind (by simp)).mp
    obtain ⟨fs, hfs⟩ := List.head?_eq_some_iff.mp (ha.undefaulted hi)
    obtain ⟨gs, hq, hflags⟩ := h.flags
    simp only [List.take_zero, switches, List.countP_nil, List.drop_zero, hfs] at hflags
    obtain _ | @⟨_, g, _, gs, hg, -⟩ := hflags
    cases g with
    | false => rw [hq]; rfl
    | true => exact absurd (hg rfl) Bool.false_ne_true
  have hemit := h.target.emit hcount' hfits hcase
  rw [adoptAs_eq hcount' (congrArg Shape.size hshape) hinputs]
  cases he : b.emit op inputs with
  | error f =>
    rw [he] at hemit
    exact hemit
  | ok r =>
    rw [he] at hemit
    obtain ⟨j, rfl, hproduced, hcode, hholds, hadoption⟩ := hemit
    refine ⟨j, rfl, hcode, h.after ha hkind (hholds.congr rfl rfl rfl rfl rfl) ?_⟩
    simp only [hproduced, hadoption]

/-- Instructions that are not of the source may stand between copies. -/
theorem extend {q' : Progress} (h : Carries lost base 0 done p b q) (htarget : b'.Holds q')
    (hwidens : Widens q q') (hadoption : b'.adoption = b.adoption) :
    Carries lost base 0 done p b' q' := by
  obtain ⟨js, hblocks, hsame⟩ := h.blocks
  obtain ⟨ws, hscopes, hrenames, hlast⟩ := h.scopes
  obtain ⟨gs, hflags, hflag⟩ := h.flags
  refine ⟨h.source, htarget, ⟨js, hwidens.blocks.trans hblocks, hsame⟩, ?_,
    ⟨gs, hwidens.defaults.trans hflags, hflag⟩⟩
  have hlength := h.balanced.scopes
  obtain ⟨s, vs, ss, hq, hq'⟩ := hwidens.scopes
  rw [List.drop_zero] at hrenames ⊢
  generalize p.scopes = scopes at hrenames hlength ⊢
  obtain _ | @⟨u, w, us, ws, hu, hus⟩ := hrenames
  · simp at hlength
  · rw [hq, List.cons_append, List.cons.injEq] at hscopes
    obtain ⟨rfl, rfl⟩ := hscopes
    exact ⟨(s ++ vs) :: ws, hq', .cons ((hu.congr hadoption).append_right vs)
      (hus.imp fun _ _ h => h.congr hadoption),
      List.Subset.trans hlast (getLastD_subset (List.subset_append_left s vs) ws)⟩

def skippedAfter (skipped : Nat) (i : Instruction) : Nat :=
  let outer := if i.isBlockEnd then skipped - 1 else skipped
  if i.isBlockStart then outer + 1 else outer

theorem drop_outer {α : Type} {xs : List α} (hend : i.isBlockEnd = true → 0 < skipped) :
    (if i.isBlockEnd then xs.tail else xs).drop (if i.isBlockEnd then skipped - 1 else skipped) =
      xs.drop skipped := by
  split
  · rename_i he
    rw [List.drop_tail, Nat.sub_add_cancel (hend he)]
  · rfl

theorem drop_blocks_after (hend : i.isBlockEnd = true → 0 < skipped) :
    (p.after i).blocks.drop (skippedAfter skipped i) = p.blocks.drop skipped := by
  rw [← drop_outer hend]
  simp only [Progress.after, skippedAfter, Progress.outerBlocks]
  split <;> rfl

theorem forall₂_scopes_after (h : Carries lost base skipped done p b q)
    (ha : p.Admits done.length i) (hend : i.isBlockEnd = true → 0 < skipped)
    (hlost : ∀ v ∈ i.outputs, lost v) {ws : List (List Variable)}
    (hws : List.Forall₂ (b.Renames lost) (p.scopes.drop skipped) ws) :
    List.Forall₂ (b.Renames lost) ((p.after i).scopes.drop (skippedAfter skipped i)) ws := by
  obtain ⟨v, vs, houter⟩ :=
    List.exists_cons_of_ne_nil (h.balanced.outerScopes_ne_nil (i := i) ha.closes)
  have hdrop : (v :: vs).drop (if i.isBlockEnd then skipped - 1 else skipped) =
      p.scopes.drop skipped := by
    rw [← houter, Progress.outerScopes]
    exact drop_outer hend
  have hbody : List.Forall₂ (b.Renames lost)
      (((v ++ i.outputs) :: vs).drop (if i.isBlockEnd then skipped - 1 else skipped)) ws := by
    rw [← hdrop] at hws
    cases hk : (if i.isBlockEnd then skipped - 1 else skipped) with
    | zero =>
      rw [hk] at hws
      obtain _ | ⟨hv, hvs⟩ := hws
      exact .cons (renames_append_iff.mpr ⟨hv, fun u hu => .inl (hlost u hu)⟩) hvs
    | succ k =>
      rw [hk] at hws
      exact hws
  simp only [Progress.after, skippedAfter, houter]
  split <;> exact hbody

theorem switches_take_after (ha : p.Admits done.length i)
    (hend : i.isBlockEnd = true → 0 < skipped) (hop : i.op ≠ .endSwitch)
    (hswitch : i.op ≠ .beginSwitch) :
    switches ((p.after i).blocks.take (skippedAfter skipped i)) =
      switches (p.blocks.take skipped) := by
  have houter : switches ((p.outerBlocks i).take (if i.isBlockEnd then skipped - 1 else skipped)) =
      switches (p.blocks.take skipped) := by
    unfold Progress.outerBlocks
    split
    · rename_i he
      obtain ⟨opener, rest, hp, hcloses⟩ := ha.closes he
      obtain ⟨k, rfl⟩ := Nat.exists_eq_add_of_lt (hend he)
      rw [hp, List.tail_cons, Nat.add_sub_cancel, List.take_succ_cons,
        switches_cons_of_ne (Progress.op_ne_beginSwitch_of_closes hcloses hop)]
    · rfl
  simp only [Progress.after, skippedAfter]
  split
  · rw [List.take_succ_cons, switches_cons_of_ne hswitch, houter]
  · exact houter

/-- The flags that are not left out stay the same, but for that of a switch that is kept and whose
default case is left out. -/
theorem forall₂_flags_after (h : Carries lost base skipped done p b q)
    (ha : p.Admits done.length i) (hend : i.isBlockEnd = true → 0 < skipped) {gs : List Bool}
    (hgs : List.Forall₂ (fun f g => g = true → f = true)
      (p.defaults.drop (switches (p.blocks.take skipped))) gs) :
    List.Forall₂ (fun f g => g = true → f = true)
      ((p.after i).defaults.drop (switches ((p.after i).blocks.take (skippedAfter skipped i))))
      gs := by
  change List.Forall₂ _ ((p.defaultsAfter i).drop _) gs
  -- Ends and starts of switches that are left out take and bring flags of their own.
  by_cases hop : i.op = .endSwitch
  · have he : i.isBlockEnd = true := by rw [Instruction.isBlockEnd_eq, hop]
    have hs : i.isBlockStart = false := by rw [Instruction.isBlockStart_eq, hop]
    obtain ⟨s, rest, hp, hcloses⟩ := ha.closes he
    rw [hop] at hcloses
    have hswitch := Progress.op_eq_beginSwitch_of_closes hcloses
    obtain ⟨k, rfl⟩ := Nat.exists_eq_add_of_lt (hend he)
    rw [hp, List.take_succ_cons, switches_cons_of_eq hswitch] at hgs
    simp only [Progress.after, Progress.outerBlocks, skippedAfter, Progress.defaultsAfter, hop, hs,
      he, hp, Bool.false_eq_true, if_true, if_false, List.tail_cons, Nat.add_sub_cancel,
      List.drop_tail]
    exact hgs
  by_cases hswitch : i.op = .beginSwitch
  · have he : i.isBlockEnd = false := by rw [Instruction.isBlockEnd_eq, hswitch]
    have hs : i.isBlockStart = true := by rw [Instruction.isBlockStart_eq, hswitch]
    simp only [Progress.after, Progress.outerBlocks, skippedAfter, Progress.defaultsAfter, hswitch,
      hs, he, Bool.false_eq_true, if_true, if_false, List.take_succ_cons,
      switches_cons_of_eq hswitch, List.drop_succ_cons]
    exact hgs
  rw [switches_take_after ha hend hop hswitch]
  -- A default case sets the flag of the innermost switch; if that switch is kept, its copy has no
  -- flag set for the case that is left out.
  by_cases hdefault : i.op = .beginSwitchDefaultCase
  · obtain ⟨s, rest, hp, hs⟩ := h.stacked.exists_switch ha.context (.inr hdefault)
    obtain ⟨f, fs, hfs⟩ := h.exists_flag hp hs
    rw [Progress.defaultsAfter, hdefault, hfs]
    rw [hfs] at hgs
    generalize switches (p.blocks.take skipped) = n at hgs ⊢
    cases n with
    | zero =>
      obtain _ | ⟨-, hrest⟩ := hgs
      exact .cons (fun _ => rfl) hrest
    | succ n => exact hgs
  · rw [Progress.defaultsAfter_eq_self hdefault hop hswitch]
    exact hgs

/-- The next instruction of the source is left out, with what it declares. -/
theorem skip (h : Carries lost base skipped done p b q) (ha : p.Admits done.length i)
    (hend : i.isBlockEnd = true → 0 < skipped) (hlost : ∀ v ∈ i.outputs, lost v) :
    Carries lost base (skippedAfter skipped i) (done ++ [i]) (p.after i) b q := by
  obtain ⟨js, hblocks, hsame⟩ := h.blocks
  obtain ⟨ws, hscopes, hrenames, hlast⟩ := h.scopes
  obtain ⟨gs, hflags, hflag⟩ := h.flags
  exact ⟨h.source_after ha, h.target, ⟨js, hblocks, by rwa [drop_blocks_after hend]⟩,
    ⟨ws, hscopes, h.forall₂_scopes_after ha hend hlost hrenames, hlast⟩,
    ⟨gs, hflags, h.forall₂_flags_after ha hend hflag⟩⟩

end Carries

theorem Reads.exists_finalize {q : Progress} (h : b.Reads q) (hq : q.blocks = []) (id : Uuid) :
    ∃ r, b.finalize id = .ok r ∧ r.code = b.code := by
  have hopen : b.openBlocks = [] := by rw [h.blocks, hq]; rfl
  have hcheck : b.code.check = .ok () := check_eq_ok_iff_run.mpr ⟨q, h.run, hq⟩
  refine ⟨{ id, parent := b.parent, code := b.code, comments := b.comments
            contributors := b.contributors }, ?_, rfl⟩
  rw [finalize, hopen, isWellFormed, hcheck]
  rfl

theorem Holds.exists_finalize {q : Progress} (h : b.Holds q) (hq : q.blocks = []) (id : Uuid) :
    ∃ r, b.finalize id = .ok r ∧ r.code = b.code ∧ r.code.IsSound := by
  obtain ⟨r, hr, hcode⟩ := h.toReads.exists_finalize hq id
  refine ⟨r, hr, hcode, ?_, ?_⟩
  · rw [hcode]
    exact check_eq_ok_iff_run.mpr ⟨q, h.run, hq⟩
  · rw [hcode]
    exact h.countable

theorem Carries.blocks_eq {base p q : Progress} {skipped : Nat} {done : Code}
    (h : Carries lost base skipped done p b q) (hp : p.blocks = []) : q.blocks = base.blocks := by
  obtain ⟨js, hq, hsame⟩ := h.blocks
  rw [hp, List.drop_nil] at hsame
  cases hsame
  exact hq

end Builder

end ScriptFuzz
