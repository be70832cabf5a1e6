import ScriptFuzz.Builder.Construct
import ScriptFuzz.Fuzzing
import ScriptFuzz.Proofs.Builder.Adoption
import ScriptFuzz.Proofs.Random.Range

/-!
# Building code in a monad

`Building` is what the actions of `Build` need to be reasoned about in any of the monads in which
they run: `Ends x b Q E` says that `x`, run from the builder `b`, ends in a result and a builder that
satisfy `Q`, or in a fault that satisfies `E`. `Yields` is the case of faults for want of memory or of
numbers. `Adds` is the form that this takes in a body, with rules for values, calls and guarded bodies
(`adds_tryCatch`), and `yields_walk` is the rule for what copies a source and adds to the copy on its
way.
-/

namespace ScriptFuzz

set_option autoImplicit false

open Code

/-- A monad in which code is built. -/
class Building (m : Type → Type) [Monad m] [MonadStateOf Builder m] [MonadExceptOf Fault m] where
  /-- Run from a builder, the action ends in a result and a builder that satisfy one condition, or in
  a fault that satisfies another. -/
  Ends {α : Type} (x : m α) (b : Builder) (Q : α → Builder → Prop) (E : Fault → Prop) : Prop
  ends_mono {α : Type} {x : m α} {b : Builder} {Q Q' : α → Builder → Prop} {E E' : Fault → Prop}
    (h : Ends x b Q E) (hQ : ∀ a b', Q a b' → Q' a b') (hE : ∀ f, E f → E' f) : Ends x b Q' E'
  ends_and {α : Type} {x : m α} {b : Builder} {Q Q' : α → Builder → Prop} {E E' : Fault → Prop}
    (h : Ends x b Q E) (h' : Ends x b Q' E') :
    Ends x b (fun a b' => Q a b' ∧ Q' a b') fun f => E f ∧ E' f
  ends_pure {α : Type} {a : α} {b : Builder} {Q : α → Builder → Prop} {E : Fault → Prop}
    (h : Q a b) : Ends (Pure.pure a) b Q E
  ends_bind {α β : Type} {x : m α} {f : α → m β} {b : Builder} {Q : β → Builder → Prop}
    {E : Fault → Prop} (h : Ends x b (fun a b' => Ends (f a) b' Q E) E) : Ends (x >>= f) b Q E
  ends_get {b : Builder} {Q : Builder → Builder → Prop} {E : Fault → Prop} (h : Q b b) :
    Ends (getThe Builder) b Q E
  ends_set {b b' : Builder} {Q : PUnit → Builder → Prop} {E : Fault → Prop} (h : Q ⟨⟩ b') :
    Ends (MonadStateOf.set b') b Q E
  ends_modify {b : Builder} {f : Builder → Builder} {Q : PUnit → Builder → Prop}
    {E : Fault → Prop} (h : Q ⟨⟩ (f b)) : Ends (modifyThe Builder f) b Q E
  ends_throw {α : Type} {f : Fault} {b : Builder} {Q : α → Builder → Prop} {E : Fault → Prop}
    (h : E f) : Ends (throw f) b Q E

def Assembly.outcome {α : Type} (x : Assembly α) (b : Builder) (r : Random) :
    Except Fault (α × Builder) × Random := (x.run b).run.run r

theorem Assembly.outcome_bind {α β : Type} (x : Assembly α) (f : α → Assembly β) (b : Builder)
    (r : Random) : (x >>= f).outcome b r =
      match x.outcome b r with
      | (.ok (a, b'), r') => (f a).outcome b' r'
      | (.error e, r') => (.error e, r') := by
  unfold outcome ExceptT.run StateT.run
  simp only [bind, StateT.bind, ExceptT.bind, ExceptT.mk, ExceptT.bindCont]
  cases x b r with
  | mk result next => cases result <;> rfl

instance : Building (StateT Builder (Except Fault)) where
  Ends x b Q E := Fault.Ends (x.run b) (fun r => Q r.1 r.2) E
  ends_mono h hQ hE := h.mono (fun r => hQ r.1 r.2) hE
  ends_and h h' := h.and h'
  ends_pure h := h
  ends_bind {α β x f b Q E} h := by
    rw [StateT.run_bind]
    cases hx : x.run b with
    | ok r => rw [hx] at h; exact h
    | error f => rw [hx] at h; exact h
  ends_get h := h
  ends_set h := h
  ends_modify h := h
  ends_throw h := h

instance : Building Assembly where
  Ends x b Q E := ∀ r, Fault.Ends (x.outcome b r).1 (fun s => Q s.1 s.2) E
  ends_mono h hQ hE r := (h r).mono (fun s => hQ s.1 s.2) hE
  ends_and h h' r := (h r).and (h' r)
  ends_pure h _ := h
  ends_bind {α β x f b Q E} h r := by
    have h := h r
    rw [Assembly.outcome_bind]
    cases hx : x.outcome b r with
    | mk result next =>
      rw [hx] at h
      cases result with
      | ok s => exact h next
      | error e => exact h
  ends_get h _ := h
  ends_set h _ := h
  ends_modify h _ := h
  ends_throw h _ := h

/-- Beside a state of its own. -/
instance {σ : Type} {m : Type → Type} [Monad m] [MonadStateOf Builder m] [MonadExceptOf Fault m]
    [Building m] : Building (StateT σ m) where
  Ends x b Q E := ∀ s, Building.Ends (x.run s) b (fun r b' => Q r.1 b') E
  ends_mono h hQ hE s := Building.ends_mono (h s) (fun r => hQ r.1) hE
  ends_and h h' s := Building.ends_and (h s) (h' s)
  ends_pure h _ := Building.ends_pure h
  ends_bind h s := by
    rw [StateT.run_bind]
    exact Building.ends_bind (Building.ends_mono (h s) (fun r b' h' => h' r.2) fun _ => id)
  ends_get h _ := Building.ends_bind (Building.ends_get (Building.ends_pure h))
  ends_set h _ := Building.ends_bind (Building.ends_set (Building.ends_pure h))
  ends_modify h _ := Building.ends_bind (Building.ends_modify (Building.ends_pure h))
  ends_throw h _ := Building.ends_bind (Building.ends_throw h)

namespace Building

variable {m : Type → Type} [Monad m] [MonadStateOf Builder m] [MonadExceptOf Fault m] [Building m]
  {α β : Type} {x : m α} {b b' : Builder} {Q Q' : α → Builder → Prop}

/-- Run from a builder, the action gives a result and a builder that satisfy a condition, unless
memory or numbers run out. -/
def Yields (x : m α) (b : Builder) (Q : α → Builder → Prop) : Prop :=
  Ends x b Q fun f => f.isShortage = true

theorem mono (h : Yields x b Q) (hQ : ∀ a b', Q a b' → Q' a b') : Yields x b Q' :=
  ends_mono h hQ fun _ => id

theorem pure {a : α} (h : Q a b) : Yields (Pure.pure a : m α) b Q := ends_pure h

theorem bind {f : α → m β} {Q : β → Builder → Prop}
    (h : Yields x b fun a b' => Yields (f a) b' Q) : Yields (x >>= f) b Q := ends_bind h

theorem get {Q : Builder → Builder → Prop} (h : Q b b) : Yields (getThe Builder : m Builder) b Q :=
  ends_get h

theorem modify {f : Builder → Builder} {Q : PUnit → Builder → Prop} (h : Q ⟨⟩ (f b)) :
    Yields (modifyThe Builder f : m PUnit) b Q := ends_modify h

theorem shortage {f : Fault} (h : f.isShortage = true) : Yields (throw f : m α) b Q := ends_throw h

end Building

namespace Builder

variable {b b' : Builder} {q q' : Progress} {op : Operation} {inputs : List Variable}

/-! ## Runs of single actions -/

theorem run_emit (op : Operation) (inputs : List Variable) :
    (Build.emit op inputs : StateT Builder (Except Fault) _).run b = b.emit op inputs := by
  change ((Build.orRaise (b.emit op inputs) : StateT Builder (Except Fault) _).run b >>=
    fun r => _) = _
  cases b.emit op inputs <;> rfl

theorem run_emitOne {v : Variable} {vs : List Variable}
    (he : b.emit op inputs = .ok (v :: vs, b')) :
    (Build.emitOne op inputs : StateT Builder (Except Fault) _).run b = .ok (v, b') := by
  unfold Build.emitOne
  rw [StateT.run_bind, run_emit, he]
  rfl

theorem run_adoptAs (i : Instruction) (op : Operation) :
    (Build.adoptAs i op : StateT Builder (Except Fault) _).run b = b.adoptAs i op := by
  change ((Build.orRaise (b.adoptAs i op) : StateT Builder (Except Fault) _).run b >>=
    fun r => _) = _
  cases b.adoptAs i op <;> rfl

/-! ## Bodies -/

structure InBody (b : Builder) (q : Progress) : Prop where
  holds : b.Holds q
  script : (contextIn q.blocks).script = true

structure Grown (b : Builder) (q : Progress) (b' : Builder) (q' : Progress) : Prop where
  holds : b'.Holds q'
  widens : Widens q q'
  adoption : b'.adoption = b.adoption

theorem Holds.grown_refl (h : b.Holds q) : b.Grown q b q := ⟨h, h.toReads.widens_refl, rfl⟩

theorem Grown.trans {b₁ b₂ b₃ : Builder} {q₁ q₂ q₃ : Progress} (h : b₁.Grown q₁ b₂ q₂)
    (h' : b₂.Grown q₂ b₃ q₃) : b₁.Grown q₁ b₃ q₃ :=
  ⟨h'.holds, h.widens.trans h'.widens, h'.adoption.trans h.adoption⟩

theorem Grown.inBody (h : b.Grown q b' q') (hbody : b.InBody q) : b'.InBody q' :=
  ⟨h.holds, by rw [h.widens.blocks]; exact hbody.script⟩

/-- An ordinary statement: it may stand in every body. -/
structure IsPlain (op : Operation) : Prop where
  start : op.shape.has .blockStart = false
  isEnd : op.shape.has .blockEnd = false
  requires : op.shape.requires = .top

theorem InBody.context (h : b.InBody q) : q.context.contains .top = true := by
  rw [contains_top_iff, (Progress.stacked_of_run h.holds.run).context]
  exact h.script

theorem IsPlain.widens {j : Instruction} (hplain : IsPlain j.op) (h : b.Reads q) :
    Widens q (q.after j) ∧ ∀ v ∈ j.allOutputs, (q.after j).isVisible v = true := by
  have hstart : j.isBlockStart = false := hplain.start
  have hend : j.isBlockEnd = false := hplain.isEnd
  have houtputs : j.outputs = j.allOutputs := by
    rw [← Instruction.outputs_append_innerOutputs, Instruction.innerOutputs_eq_nil hstart,
      List.append_nil]
  have hdefaults : q.defaultsAfter j = q.defaults := by
    refine Progress.defaultsAfter_eq_self (fun hop => ?_) (fun hop => ?_) fun hop => ?_
    · rw [Instruction.isBlockStart_eq, hop] at hstart
      cases hstart
    · rw [Instruction.isBlockEnd_eq, hop] at hend
      cases hend
    · rw [Instruction.isBlockStart_eq, hop] at hstart
      cases hstart
  obtain ⟨s, vs, ss, hscopes, -⟩ := h.widens_refl.scopes
  have hafter : (q.after j).scopes = (s ++ j.allOutputs) :: ss := by
    simp only [Progress.after, Progress.outerScopes, hstart, hend, Bool.false_eq_true, if_false,
      hscopes, houtputs, List.headD_cons, List.tail_cons]
  refine ⟨⟨?_, hdefaults, s, _, ss, hscopes, hafter⟩, fun v hv => ?_⟩
  · simp only [Progress.after, Progress.outerBlocks, hstart, hend, Bool.false_eq_true, if_false]
  · rw [Progress.isVisible_iff, hafter]
    exact ⟨_, List.mem_cons_self, List.mem_append_right s hv⟩

theorem InBody.emit (h : b.InBody q) (hplain : IsPlain op) (hcount : op.isCountable = true)
    (hlength : inputs.length = op.shape.inputs)
    (hvisible : ∀ v ∈ inputs, q.isVisible v = true) :
    Fault.Allows (b.emit op inputs) fun r => ∃ q', b.Grown q r.2 q' ∧
      r.1.length = declares op ∧ ∀ v ∈ r.1, q'.isVisible v = true := by
  have hfits : Fits q op inputs := ⟨hlength, hvisible, by rw [hplain.requires]; exact h.context,
    fun he => by rw [hplain.isEnd] at he; cases he⟩
  have hcase : op = .beginSwitchCase ∨ op = .beginSwitchDefaultCase →
      q.defaults.head? = some false := by
    rintro (rfl | rfl) <;> cases hplain.start
  refine (h.holds.emit hcount hfits hcase).mono ?_
  rintro ⟨produced, b'⟩ ⟨j, rfl, rfl, -, hholds, hadoption⟩
  obtain ⟨hwidens, hvisible⟩ := hplain.widens h.holds.toReads
  refine ⟨_, ⟨hholds, hwidens, hadoption⟩, ?_, hvisible⟩
  rw [← j.outputs_append_innerOutputs, List.length_append, j.length_outputs,
    j.length_innerOutputs]
  rfl

theorem holds_derivedFrom (p : Program) (contributors : List String) (name : String) :
    (({ derivedFrom p with contributors } : Builder).addContributor name).Holds {} :=
  holds_start.congr rfl rfl rfl rfl rfl

theorem mem_visibleVariables {v : Variable} : v ∈ b.visibleVariables ↔ b.isVisible v = true := by
  unfold visibleVariables isVisible
  simp only [List.mem_flatten, List.mem_reverse, List.any_eq_true, List.contains_iff_mem]

theorem isVisible_of_mem {v : Variable} (h : v ∈ b.visibleVariables) : b.isVisible v = true :=
  mem_visibleVariables.mp h

/-- An operation that gives one value is an ordinary statement, or starts a function or a class. -/
theorem isPlain_or_of_outputs (h : op.shape.outputs = 1) :
    IsPlain op ∨ (∃ n, op = .beginPlainFunction n) ∨ op.isClassHead = true := by
  cases op <;> first
    | exact .inl ⟨rfl, rfl, rfl⟩
    | exact .inr (.inl ⟨_, rfl⟩)
    | exact .inr (.inr rfl)
    | cases h

/-! ## Guarded bodies -/

/-- The builder stands in the body of a block that starts where another stands. -/
structure Enters (b : Builder) (q : Progress) (opener : Operation) (b' : Builder) (q' : Progress) :
    Prop where
  inBody : b'.InBody q'
  blocks : ∃ i, i.op = opener ∧ q'.blocks = i :: q.blocks
  defaults : q'.defaults = q.defaults
  scopes : ∃ vs, q'.scopes = vs :: q.scopes
  adoption : b'.adoption = b.adoption

theorem Enters.isVisible {opener : Operation} (h : b.Enters q opener b' q') {v : Variable}
    (hv : q.isVisible v = true) : q'.isVisible v = true := by
  obtain ⟨vs, hscopes⟩ := h.scopes
  obtain ⟨s, hs, hv⟩ := Progress.isVisible_iff.mp hv
  exact Progress.isVisible_iff.mpr ⟨s, by rw [hscopes]; exact List.mem_cons_of_mem _ hs, hv⟩

theorem Enters.grown {opener : Operation} {b'' : Builder} {q'' : Progress}
    (h : b.Enters q opener b' q') (hgrown : b'.Grown q' b'' q'') : b.Enters q opener b'' q'' := by
  refine ⟨hgrown.inBody h.inBody, ?_, hgrown.widens.defaults.trans h.defaults, ?_,
    hgrown.adoption.trans h.adoption⟩
  · rw [hgrown.widens.blocks]
    exact h.blocks
  · obtain ⟨vs, hscopes⟩ := h.scopes
    obtain ⟨s, us, ss, hq', hq''⟩ := hgrown.widens.scopes
    rw [hscopes, List.cons.injEq] at hq'
    exact ⟨s ++ us, by rw [hq'', hq'.2]⟩

theorem InBody.enters {p : Progress} {j : Instruction} (h : b.InBody q)
    (hholds : b'.Holds (p.after j)) (hadoption : b'.adoption = b.adoption)
    (hop : j.op = .beginTry ∨ j.op = .beginCatch) (hblocks : p.outerBlocks j = q.blocks)
    (hscopes : p.outerScopes j = q.scopes) (hdefaults : p.defaults = q.defaults) :
    b.Enters q j.op b' (p.after j) := by
  have hstart : j.isBlockStart = true := by
    rw [Instruction.isBlockStart_eq]
    rcases hop with hop | hop <;> rw [hop]
  have houtputs : j.outputs = [] :=
    Instruction.outputs_eq_nil (by rcases hop with hop | hop <;> rw [hop] <;> rfl)
  have hblocks : (p.after j).blocks = j :: q.blocks := by
    simp only [Progress.after, hstart, if_true, hblocks]
  obtain ⟨s, vs, ss, hq, -⟩ := h.holds.toReads.widens_refl.scopes
  refine ⟨⟨hholds, ?_⟩, ⟨j, rfl, hblocks⟩, ?_, ⟨j.innerOutputs, ?_⟩, hadoption⟩
  · have hclassified := (Progress.stacked_of_run hholds.run).settled.classified
    rw [hblocks] at hclassified ⊢
    rw [hclassified.script]
    rcases hop with hop | hop <;> simp [inSwitch, inClass, hop, Operation.isClassHead]
  · rw [← hdefaults]
    exact Progress.defaultsAfter_eq_self (by rcases hop with hop | hop <;> simp [hop])
      (by rcases hop with hop | hop <;> simp [hop]) (by rcases hop with hop | hop <;> simp [hop])
  · simp only [Progress.after, hstart, if_true, hscopes, hq, houtputs, List.headD_cons,
      List.tail_cons, List.append_nil]

theorem InBody.emit_beginTry (h : b.InBody q) :
    Fault.Allows (b.emit .beginTry []) fun r => ∃ q', b.Enters q .beginTry r.2 q' := by
  have hfits : Fits q .beginTry [] := ⟨rfl, nofun, h.context, nofun⟩
  refine (h.holds.emit rfl hfits (by simp)).mono ?_
  rintro ⟨produced, b'⟩ ⟨j, hop, rfl, -, hholds, hadoption⟩
  have hend : j.isBlockEnd = false := by rw [Instruction.isBlockEnd_eq, hop]
  refine ⟨q.after j, hop ▸ h.enters hholds hadoption (.inl hop) ?_ ?_ rfl⟩
  · simp only [Progress.outerBlocks, hend, Bool.false_eq_true, if_false]
  · simp only [Progress.outerScopes, hend, Bool.false_eq_true, if_false]

theorem contains_empty (c : Context) : c.contains .empty = true := by
  simp [Context.contains_eq, Context.empty]

theorem InBody.emit_beginCatch (h : b.InBody q) (htry : b.Enters q .beginTry b' q') :
    Fault.Allows (b'.emit .beginCatch []) fun r => ∃ v q'', r.1 = [v] ∧
      b.Enters q .beginCatch r.2 q'' := by
  obtain ⟨i, hi, hblocks⟩ := htry.blocks
  obtain ⟨vs, hscopes⟩ := htry.scopes
  have hfits : Fits q' .beginCatch [] :=
    ⟨rfl, nofun, contains_empty _, fun _ => ⟨i, q.blocks, hblocks, by rw [hi]; rfl⟩⟩
  refine (htry.inBody.holds.emit rfl hfits (by simp)).mono ?_
  rintro ⟨produced, b''⟩ ⟨j, hop, rfl, -, hholds, hadoption⟩
  have hend : j.isBlockEnd = true := by rw [Instruction.isBlockEnd_eq, hop]
  have hlength : j.allOutputs.length = 1 := by
    rw [← j.outputs_append_innerOutputs, List.length_append, j.length_outputs,
      j.length_innerOutputs, Instruction.shape, hop]
    rfl
  obtain ⟨v, hv⟩ := List.length_eq_one_iff.mp hlength
  refine ⟨v, q'.after j, hv, hop ▸ h.enters hholds (hadoption.trans htry.adoption) (.inr hop)
    ?_ ?_ htry.defaults⟩
  · simp only [Progress.outerBlocks, hend, if_true, hblocks, List.tail_cons]
  · simp only [Progress.outerScopes, hend, if_true, hscopes, List.tail_cons]

theorem InBody.emit_endTryCatchFinally (h : b.InBody q) (hcatch : b.Enters q .beginCatch b' q') :
    Fault.Allows (b'.emit .endTryCatchFinally []) fun r => ∃ q'', b.Grown q r.2 q'' := by
  obtain ⟨i, hi, hblocks⟩ := hcatch.blocks
  obtain ⟨vs, hscopes⟩ := hcatch.scopes
  have hfits : Fits q' .endTryCatchFinally [] :=
    ⟨rfl, nofun, contains_empty _, fun _ => ⟨i, q.blocks, hblocks, by rw [hi]; rfl⟩⟩
  refine (hcatch.inBody.holds.emit rfl hfits (by simp)).mono ?_
  rintro ⟨produced, b''⟩ ⟨j, hop, rfl, -, hholds, hadoption⟩
  have hend : j.isBlockEnd = true := by rw [Instruction.isBlockEnd_eq, hop]
  have hstart : j.isBlockStart = false := by rw [Instruction.isBlockStart_eq, hop]
  have houtputs : j.outputs = [] := Instruction.outputs_eq_nil (by rw [hop]; rfl)
  obtain ⟨s, -, ss, hq, -⟩ := h.holds.toReads.widens_refl.scopes
  refine ⟨q'.after j, hholds, ⟨?_, ?_, s, [], ss, hq, ?_⟩, hadoption.trans hcatch.adoption⟩
  · simp only [Progress.after, Progress.outerBlocks, hstart, hend, Bool.false_eq_true, if_false,
      if_true, hblocks, List.tail_cons]
  · rw [← hcatch.defaults]
    exact Progress.defaultsAfter_eq_self (by simp [hop]) (by simp [hop]) (by simp [hop])
  · simp only [Progress.after, Progress.outerScopes, hstart, hend, Bool.false_eq_true, if_false,
      if_true, hscopes, hq, houtputs, List.headD_cons, List.tail_cons]

/-! ## Copies -/

/-- A value that is no class can be used right after the instruction that gives it. -/
theorem script_after {p : Progress} {n : Nat} {i : Instruction} (h : p.Stacked)
    (ha : p.Admits n i) (hone : i.shape.outputs = 1) (hclass : i.op.isClassHead = false) :
    (contextIn (p.after i).blocks).script = true := by
  rcases isPlain_or_of_outputs hone with hplain | ⟨n, hop⟩ | hhead
  · have hstart : i.isBlockStart = false := hplain.start
    have hend : i.isBlockEnd = false := hplain.isEnd
    have hcontext := ha.context
    rw [Instruction.shape, hplain.requires, contains_top_iff, h.context] at hcontext
    simpa only [Progress.after, Progress.outerBlocks, hstart, hend, Bool.false_eq_true, if_false]
      using hcontext
  · have hstart : i.isBlockStart = true := by rw [Instruction.isBlockStart_eq, hop]
    have hclassified := (h.after ha.context ha.closes).settled.classified.script
    have hblocks : (p.after i).blocks = i :: p.outerBlocks i := by
      simp only [Progress.after, hstart, if_true]
    rw [hclassified, hblocks]
    simp [inSwitch, inClass, hop, Operation.isClassHead]
  · rw [hhead] at hclass
    cases hclass

theorem isVisible_after {p : Progress} {i : Instruction} {v : Variable} (hv : v ∈ i.outputs) :
    (p.after i).isVisible v = true := by
  rw [Progress.isVisible_iff]
  refine ⟨(p.outerScopes i).headD [] ++ i.outputs, ?_, List.mem_append_right _ hv⟩
  simp only [Progress.after]
  split
  · exact List.mem_cons_of_mem _ List.mem_cons_self
  · exact List.mem_cons_self

/-- A copy of the code `done` without anything left out. -/
abbrev Copies (base : Progress) (done : Code) (p : Progress) (b : Builder) (q : Progress) : Prop :=
  Carries (fun _ => False) base 0 done p b q

theorem exists_output? {i : Instruction} (h : i.shape.outputs = 1) :
    ∃ v, i.output? = some v := by
  have hlength := i.length_outputs
  rw [h, List.length_eq_one_iff] at hlength
  obtain ⟨v, hv⟩ := hlength
  exact ⟨v, by rw [Instruction.output?, hv]⟩

theorem mem_outputs_of_output? {i : Instruction} {v : Variable} (h : i.output? = some v) :
    v ∈ i.outputs := by
  unfold Instruction.output? at h
  split at h
  · rename_i w hw
    cases h
    rw [hw]
    exact List.mem_singleton_self _
  · cases h

theorem Carries.inBody {lost : Variable → Prop} {base p : Progress} {done : Code}
    (h : Carries lost base 0 done p b q) (hbase : (contextIn base.blocks).script = true)
    (hscript : (contextIn p.blocks).script = true) : b.InBody q := by
  refine ⟨h.target, ?_⟩
  have htop : p.context.contains .top = true := by
    rw [contains_top_iff, h.stacked.context]
    exact hscript
  have hcontext := Context.contains_trans (h.context hbase) htop
  rwa [contains_top_iff, (Progress.stacked_of_run h.target.run).context] at hcontext

theorem allows_adoptAll {base p final : Progress} {done : Code} (is : Code)
    (hbase : (contextIn base.blocks).script = true) (h : Copies base done p b q)
    (hrun : p.run done.length is = .ok final) (hcount : Code.IsCountable is) :
    Fault.Allows (b.adoptAll is) fun b' => ∃ q', Copies base (done ++ is) final b' q' := by
  induction is generalizing done p b q with
  | nil =>
    cases hrun
    exact ⟨q, by rwa [List.append_nil]⟩
  | cons i is ih =>
    obtain ⟨ha, hrun⟩ := (Progress.run_cons_eq_ok_iff h.balanced).mp hrun
    have hadopt := h.adoptAs hbase ha rfl (hcount i List.mem_cons_self) fun _ _ h => h
    refine hadopt.bind ?_
    rintro ⟨produced, b₁⟩ ⟨j, -, -, h₁⟩
    have := ih h₁ (by rwa [List.length_append]) fun k hk => hcount k (List.mem_cons_of_mem i hk)
    rwa [List.append_assoc] at this

end Builder

/-! ## Actions -/

namespace Building

open Builder

variable {m : Type → Type} [Monad m] [MonadStateOf Builder m] [MonadExceptOf Fault m] [Building m]
  {b : Builder} {q : Progress}

section

variable {E : Fault → Prop}

theorem ends_orRaise {α : Type} {x : Except Fault α} {Q : α → Builder → Prop}
    (h : Fault.Ends x (fun a => Q a b) E) : Ends (Build.orRaise x : m α) b Q E := by
  cases x with
  | ok a => exact ends_pure h
  | error f => exact ends_throw h

theorem ends_emit {op : Operation} {inputs : List Variable} {Q : List Variable → Builder → Prop}
    (h : Fault.Ends (b.emit op inputs) (fun r => Q r.1 r.2) E) :
    Ends (Build.emit op inputs : m (List Variable)) b Q E := by
  unfold Build.emit
  refine ends_bind (ends_get ?_)
  refine ends_bind (ends_orRaise ?_)
  exact h.mono (fun r hr => ends_bind (ends_set (ends_pure hr))) fun _ => id

theorem ends_adoptAs {i : Instruction} {op : Operation} {Q : List Variable → Builder → Prop}
    (h : Fault.Ends (b.adoptAs i op) (fun r => Q r.1 r.2) E) :
    Ends (Build.adoptAs i op : m (List Variable)) b Q E := by
  refine ends_bind (ends_get ?_)
  refine ends_bind (ends_orRaise ?_)
  exact h.mono (fun r hr => ends_bind (ends_set (ends_pure hr))) fun _ => id

theorem ends_adopted {v : Variable} {Q : Variable → Builder → Prop}
    (h : Fault.Ends (b.adopted v) (fun w => Q w b) E) :
    Ends (Build.adopted v : m Variable) b Q E := ends_bind (ends_get (ends_orRaise h))

theorem ends_appendProgram {p : Program} {Q : Unit → Builder → Prop}
    (h : Fault.Ends (b.appendProgram p) (Q ()) E) :
    Ends (Build.appendProgram p : m Unit) b Q E := by
  refine ends_bind (ends_get (ends_bind (ends_orRaise ?_)))
  exact h.mono (fun b' hb' => ends_set hb') fun _ => id

end

theorem yields_emit {op : Operation} {inputs : List Variable}
    {Q : List Variable → Builder → Prop}
    (h : Fault.Allows (b.emit op inputs) fun r => Q r.1 r.2) :
    Yields (Build.emit op inputs : m (List Variable)) b Q := ends_emit h

/-- The action adds to a body and leaves everything open as it was, unless memory or numbers run
out. -/
def Adds {α : Type} (x : m α) (b : Builder) (q : Progress) (Q : α → Progress → Prop) : Prop :=
  Yields x b fun a b' => ∃ q', b.Grown q b' q' ∧ Q a q'

section

variable {α β : Type} {x : m α} {f : α → m β} {Q Q' : α → Progress → Prop}
  {R : β → Progress → Prop}

theorem Adds.mono (h : Adds x b q Q) (hQ : ∀ a q', Q a q' → Q' a q') : Adds x b q Q' :=
  Building.mono h fun a _ ⟨q', hgrown, ha⟩ => ⟨q', hgrown, hQ a q' ha⟩

theorem adds_pure (h : b.InBody q) {a : α} (ha : Q a q) : Adds (Pure.pure a : m α) b q Q :=
  Building.pure ⟨q, h.holds.grown_refl, ha⟩

/-- One action after the other: what was visible stays visible. -/
theorem adds_bind (h : b.InBody q) (hx : Adds x b q Q)
    (hf : ∀ a b' q', b'.InBody q' → (∀ v, q.isVisible v = true → q'.isVisible v = true) → Q a q' →
      Adds (f a) b' q' R) : Adds (x >>= f) b q R := by
  refine Building.bind (Building.mono hx ?_)
  rintro a b' ⟨q', hgrown, ha⟩
  refine Building.mono (hf a b' q' (hgrown.inBody h) (fun v => hgrown.widens.isVisible) ha) ?_
  rintro c b'' ⟨q'', hgrown', hc⟩
  exact ⟨q'', hgrown.trans hgrown', hc⟩

end

section

variable {op : Operation} {inputs : List Variable} (h : b.InBody q) (hplain : IsPlain op)
  (hcount : op.isCountable = true) (hlength : inputs.length = op.shape.inputs)
  (hvisible : ∀ v ∈ inputs, q.isVisible v = true)

include h hplain hcount hlength hvisible

theorem adds_emit : Adds (Build.emit op inputs : m (List Variable)) b q fun vs q' =>
    vs.length = declares op ∧ ∀ v ∈ vs, q'.isVisible v = true :=
  yields_emit (h.emit hplain hcount hlength hvisible)

theorem adds_emit_ : Adds (Build.emit_ op inputs : m Unit) b q fun _ _ => True :=
  adds_bind h (adds_emit h hplain hcount hlength hvisible) fun _ _ _ h' _ _ =>
    adds_pure h' trivial

theorem adds_emitOne (hone : declares op = 1) :
    Adds (Build.emitOne op inputs : m Variable) b q fun v q' => q'.isVisible v = true := by
  refine adds_bind h (adds_emit h hplain hcount hlength hvisible) ?_
  rintro (_ | ⟨v, vs⟩) b' q' h' - ⟨hvs, hv⟩
  · rw [hone] at hvs
    cases hvs
  · exact adds_pure h' (hv v List.mem_cons_self)

end

theorem adds_load (h : b.InBody q) {op : Operation} (hplain : IsPlain op)
    (hshape : op.shape.inputs = 0 ∧ op.shape.outputs = 1 ∧ op.shape.innerOutputs = 0) :
    Adds (Build.emitOne op [] : m Variable) b q fun v q' => q'.isVisible v = true := by
  have hcount : op.isCountable = true := by
    rw [Operation.isCountable, Shape.size, hshape.1, hshape.2.1, hshape.2.2]
    rfl
  refine adds_emitOne h hplain hcount hshape.1.symm (List.forall_mem_nil _) ?_
  rw [declares, hshape.2.1, hshape.2.2]

/-- A call, or something else that is done with one value and several others. -/
theorem adds_apply (h : b.InBody q) {op : Operation} (hplain : IsPlain op) {subject : Variable}
    {arguments : List Variable} (hshape : op.shape.inputs = arguments.length + 1 ∧
      op.shape.outputs = 1 ∧ op.shape.innerOutputs = 0)
    (hcapacity : arguments.length < Builder.capacity) (hsubject : q.isVisible subject = true)
    (harguments : ∀ v ∈ arguments, q.isVisible v = true) :
    Adds (Build.emitOne op (subject :: arguments) : m Variable) b q fun v q' =>
      q'.isVisible v = true := by
  have hcount : op.isCountable = true := by
    have hlimit : Builder.capacity + 2 ≤ Operation.countLimit := by decide
    rw [Operation.isCountable, Shape.size, hshape.1, hshape.2.1, hshape.2.2, decide_eq_true_eq]
    omega
  refine adds_emitOne h hplain hcount hshape.1.symm
    (List.forall_mem_cons.mpr ⟨hsubject, harguments⟩) ?_
  rw [declares, hshape.2.1, hshape.2.2]

theorem adds_reuseBuiltin (h : b.InBody q) (name : String) :
    Adds (Build.reuseBuiltin name : m Variable) b q fun v q' => q'.isVisible v = true := by
  refine Building.bind (Building.get ?_)
  cases hv : Build.loadedBuiltin? b name with
  | some v =>
    refine adds_pure h ?_
    rw [← h.holds.isVisible]
    exact isVisible_of_mem (List.mem_of_find?_eq_some hv)
  | none => exact adds_load h ⟨rfl, rfl, rfl⟩ ⟨rfl, rfl, rfl⟩

theorem adds_tryCatch (h : b.InBody q) {body : m Unit}
    (hbody : ∀ b' q', b'.InBody q' → (∀ v, q.isVisible v = true → q'.isVisible v = true) →
      Adds body b' q' fun _ _ => True) :
    Adds (Build.tryCatch body fun _ => Pure.pure ()) b q fun _ _ => True := by
  unfold Adds Build.tryCatch Build.emit_ Build.emitOne
  refine Building.bind (Building.bind (yields_emit (h.emit_beginTry.mono ?_)))
  rintro ⟨produced, b₁⟩ ⟨q₁, h₁⟩
  have hbody₁ := hbody b₁ q₁ h₁.inBody fun v => h₁.isVisible
  refine Building.pure (Building.bind (Building.mono hbody₁ ?_))
  rintro - b₂ ⟨q₂, hgrown, -⟩
  have h₂ := h₁.grown hgrown
  refine Building.bind (Building.bind (yields_emit ((h.emit_beginCatch h₂).mono ?_)))
  rintro ⟨produced, b₃⟩ ⟨v, q₃, hproduced, h₃⟩
  rw [hproduced]
  refine Building.pure (Building.bind (Building.pure ?_))
  refine Building.bind (yields_emit ((h.emit_endTryCatchFinally h₃).mono ?_))
  rintro ⟨produced, b₄⟩ ⟨q₄, h₄⟩
  exact Building.pure ⟨q₄, h₄, trivial⟩

/-! ## Copies -/

theorem yields_adoptAs {i : Instruction} {op : Operation} {Q : List Variable → Builder → Prop}
    (h : Fault.Allows (b.adoptAs i op) fun r => Q r.1 r.2) :
    Yields (Build.adoptAs i op : m (List Variable)) b Q := ends_adoptAs h

theorem yields_adopted {v w : Variable} {Q : Variable → Builder → Prop} (h : b.adopted v = .ok w)
    (hw : Q w b) : Yields (Build.adopted v : m Variable) b Q := by
  refine ends_adopted ?_
  rw [h]
  exact hw

theorem yields_appendProgram (h : b.InBody q) {p : Program} (hsound : p.code.IsSound) :
    Yields (Build.appendProgram p : m Unit) b fun _ b' =>
      ∃ q', b'.Holds q' ∧ q'.blocks = q.blocks := by
  obtain ⟨final, hrun, hblocks⟩ := check_eq_ok_iff_run.mp hsound.check
  have hstart : Copies q [] {} b.beginAdoption q :=
    Carries.start (h.holds.congr rfl rfl rfl rfl rfl)
  refine ends_appendProgram (Fault.Allows.mono (Q := fun b' => ∃ q', Copies q p.code final b' q')
    (allows_adoptAll p.code h.script hstart hrun hsound.countable) ?_)
  rintro b' ⟨q', h'⟩
  exact ⟨q', h'.target, h'.blocks_eq hblocks⟩

section

variable {base p : Progress} {done : Code} {i : Instruction}
  (hbase : (contextIn base.blocks).script = true) (ha : p.Admits done.length i)

include hbase ha

theorem yields_adopt (h : Copies base done p b q) (hcount : i.op.isCountable = true)
    {Q : List Variable → Builder → Prop}
    (hQ : ∀ produced b' q', Copies base (done ++ [i]) (p.after i) b' q' → Q produced b') :
    Yields (Build.adopt i : m (List Variable)) b Q := by
  refine yields_adoptAs ((h.adoptAs hbase ha rfl hcount fun _ _ h => h).mono ?_)
  rintro ⟨produced, b'⟩ ⟨j, -, -, h'⟩
  exact hQ produced b' _ h'

/-- The value that an instruction gives can be used right after its copy. -/
theorem yields_adopted_output (hp : p.Stacked) (h : Copies base (done ++ [i]) (p.after i) b q)
    {v : Variable} (hv : i.output? = some v) (hone : i.shape.outputs = 1)
    (hclass : i.op.isClassHead = false) {Q : Variable → Builder → Prop}
    (hQ : ∀ w, b.InBody q → q.isVisible w = true → Q w b) :
    Yields (Build.adopted v : m Variable) b Q := by
  obtain ⟨w, hw, hadopted⟩ := h.adopted (isVisible_after (mem_outputs_of_output? hv)) fun h => h
  exact yields_adopted hadopted (hQ w (h.inBody hbase (script_after hp ha hone hclass)) hw)

end

/-- What is added between copied instructions does not disturb the copy. -/
theorem yields_added {α : Type} {x : m α} {base p : Progress} {done : Code}
    (h : Copies base done p b q) (hbody : b.InBody q) {P : α → Progress → Prop}
    (hx : Adds x b q P) {Q : α → Builder → Prop}
    (hQ : ∀ a b' q', Copies base done p b' q' → b'.InBody q' →
      (∀ v, q.isVisible v = true → q'.isVisible v = true) → P a q' → Q a b') :
    Yields x b Q := by
  refine Building.mono hx ?_
  rintro a b' ⟨q', hgrown, ha⟩
  exact hQ a b' q' (h.extend hgrown.holds hgrown.widens hgrown.adoption) (hgrown.inBody hbody)
    (fun v => hgrown.widens.isVisible) ha

/-- A walk through checked code copies all of it if it copies the next instruction and goes on from
there, whatever it does besides. -/
theorem yields_walk {base final : Progress} {walk : Code → m Unit} {P : Instruction → Prop}
    (hnil : walk [] = Pure.pure ())
    (hcons : ∀ {i : Instruction} {is done : Code} {p q : Progress} {b : Builder}
      {Q : Builder → Prop}, P i → i.op.isCountable = true → p.Admits done.length i →
      Copies base done p b q →
      (∀ {b' q'}, Copies base (done ++ [i]) (p.after i) b' q' → Yields (walk is) b' fun _ => Q) →
      Yields (walk (i :: is)) b fun _ => Q)
    {done : Code} {p : Progress} (is : Code) (h : Copies base done p b q)
    (hrun : p.run done.length is = .ok final) (hcount : Code.IsCountable is)
    (hP : ∀ i ∈ is, P i) :
    Yields (walk is) b fun _ b' => ∃ q', Copies base (done ++ is) final b' q' := by
  induction is generalizing done p b q with
  | nil =>
    cases hrun
    rw [hnil]
    exact Building.pure ⟨q, by rwa [List.append_nil]⟩
  | cons i is ih =>
    -- The walk through the rest starts with a longer part of the source copied.
    obtain ⟨ha, hrun⟩ := (Progress.run_cons_eq_ok_iff h.balanced).mp hrun
    have hcount' : Code.IsCountable is := fun k hk => hcount k (List.mem_cons_of_mem i hk)
    have hP' := fun k hk => hP k (List.mem_cons_of_mem i hk)
    refine hcons (hP i List.mem_cons_self) (hcount i List.mem_cons_self) ha h fun h' => ?_
    have hrest := ih h' (by rwa [List.length_append]) hcount' hP'
    rwa [List.append_assoc] at hrest

end Building

/-! ## Random choices -/

namespace Building

open Builder

variable {σ α : Type} {b : Builder} {q : Progress} {d : Draw α}

section

variable {E : Fault → Prop}

theorem ends_draw {Q : α → Builder → Prop} (h : ∀ r, Q (d.run r).1 b) :
    Ends (liftM d : Assembly α) b Q E := fun r => h r

theorem ends_draw_beside {Q : α → Builder → Prop} (h : ∀ r, Q (d.run r).1 b) :
    Ends (liftM d : StateT σ Assembly α) b Q E := by
  intro s
  have hdraw : Ends (liftM d : Assembly α) b
      (fun a b' => Ends (Pure.pure (a, s) : Assembly (α × σ)) b' (fun r b' => Q r.1 b') E) E :=
    ends_draw fun r => ends_pure (h r)
  exact ends_bind hdraw

theorem ends_getState {Q : σ → Builder → Prop} (h : ∀ s, Q s b) :
    Ends (getThe σ : StateT σ Assembly σ) b Q E := fun s => ends_pure (h s)

theorem ends_setState {s : σ} {Q : PUnit → Builder → Prop} (h : Q ⟨⟩ b) :
    Ends (MonadStateOf.set s : StateT σ Assembly PUnit) b Q E := fun _ => ends_pure h

theorem ends_randomVariable {Q : Option Variable → Builder → Prop}
    (h : ∀ v, (∀ w, v = some w → w ∈ b.visibleVariables) → Q v b) :
    Ends (Build.randomVariable : StateT σ Assembly (Option Variable)) b Q E := by
  refine ends_bind (ends_get ?_)
  intro s r
  exact h _ fun w hw => Draw.mem_of_choose hw

end

theorem adds_draw (h : b.InBody q) :
    Adds (liftM d : StateT σ Assembly α) b q fun _ _ => True :=
  ends_draw_beside fun _ => ⟨q, h.holds.grown_refl, trivial⟩

theorem adds_draw_bind {β : Type} {f : α → StateT σ Assembly β} {R : β → Progress → Prop}
    (hf : ∀ r, Adds (f (d.run r).1) b q R) :
    Adds ((liftM d : StateT σ Assembly α) >>= f) b q R :=
  Building.bind (ends_draw_beside hf)

theorem adds_randomVariable (h : b.InBody q) :
    Adds (Build.randomVariable : StateT σ Assembly (Option Variable)) b q fun v q' =>
      ∀ w, v = some w → q'.isVisible w = true := by
  refine ends_randomVariable fun v hv => ⟨q, h.holds.grown_refl, fun w hw => ?_⟩
  rw [← h.holds.isVisible]
  exact isVisible_of_mem (hv w hw)

end Building

end ScriptFuzz
