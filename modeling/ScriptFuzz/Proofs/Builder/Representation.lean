import ScriptFuzz.Proofs.Builder.Builtins
import ScriptFuzz.Proofs.Code.OpenBlocks
import ScriptFuzz.Proofs.Code.Scopes

/-!
# The state of a builder

A builder keeps stacks, counts and tables beside its code. `Builder.InStep` says what each of them is,
told by the code alone, and `Builder.inStep_of_calls` that they are so after any sequence of operations
and constructions (`Build.Calls`) that gives a result, also in the middle of a construction: a
construction starts its block by an operation, and its body is a sequence of its own.
-/

namespace ScriptFuzz

set_option autoImplicit false

open Code

namespace Builder

variable {b b' : Builder} {p : Progress} {op : Operation} {inputs : List Variable}
  {r : List Variable × Builder}

/-- What is kept beside the code says what the code says. -/
structure InStep (b : Builder) : Prop where
  scopes : b.scopes.length = b.openBlocks.length + 1
  contexts : b.contexts.length = b.openBlocks.length + 1
  ascending : b.openBlocks.reverse.Pairwise (· < ·)
  openBlocks : ∀ n, n ∈ b.openBlocks ↔ b.code.IsOpen n
  counted : b.nextVariable = b.code.numVariables
  distinct : b.visibleVariables.Nodup
  visible : ∀ v, v ∈ b.visibleVariables ↔ b.code.Shows v
  /-- Each variable has the position at which it is declared, and at which alone it is. -/
  defined : ∀ v : Variable, v.number < b.nextVariable → ∃ n, b.definitions[v.number]? = some n ∧
    ∀ k, (∃ i, b.code[k]? = some i ∧ v ∈ i.allOutputs) ↔ k = n
  /-- What is looked up is there. -/
  inRange : ∀ n ∈ b.definitions, n < b.code.length
  adopted : ∀ e ∈ b.adoption, e.2.number < b.nextVariable

/-- The builder stands where a reading of its code stands. -/
structure Charted (b : Builder) (p : Progress) : Prop extends Stands b p, Traced b where
  surveys : b.code.Surveys p
  numbered : p.SeesNumbered
  distinct : p.Distinct
  counted : b.nextVariable = b.code.numVariables
  adopted : ∀ e ∈ b.adoption, e.2.number < b.nextVariable

theorem charted_start : Charted {} {} where
  toStands := stands_start
  toTraced := traced_start
  surveys := surveys_start
  numbered := Progress.seesNumbered_start
  distinct := List.nodup_nil
  counted := rfl
  adopted := nofun

theorem numVariables_concat (c : Code) (i : Instruction) :
    Code.numVariables (c ++ [i]) = c.numVariables + i.allOutputs.length := by
  induction c with
  | nil => exact Nat.add_comm _ _
  | cons j js ih =>
    change j.allOutputs.length + Code.numVariables (js ++ [i]) = _ + Code.numVariables js + _
    rw [ih, Nat.add_assoc]

theorem Charted.emit (h : b.Charted p) (he : b.emit op inputs = .ok r) :
    ∃ q, r.2.Charted q ∧ r.2.adoption = b.adoption := by
  have htraced := h.toTraced.emit he
  obtain ⟨produced, b'⟩ := r
  obtain ⟨-, -, hfits, -, rfl⟩ := (emit_eq_ok_iff h.toStands).mp he
  have hnumbered := h.number_drafted hfits.length
  have hcloses := hfits.closes
  have hnext : b.nextVariable ≤
      (b.extended p (b.drafted op inputs hfits.length)).nextVariable := by
    rw [h.next]
    exact Nat.le_add_right _ _
  refine ⟨_, ⟨h.toStands.extended rfl hcloses, htraced, h.surveys.step hcloses rfl,
    h.numbered.after_of_numbered hnumbered,
    h.distinct.after_of_numbered h.numbered hnumbered (h.balanced.outerScopes_ne_nil hcloses),
    ?_, ?_⟩, rfl⟩
  · change p.next + _ = Code.numVariables (b.code ++ [_])
    rw [numVariables_concat, ← h.counted, h.next]
  · intro e hmem
    exact Nat.lt_of_lt_of_le (h.adopted e hmem) hnext

/-- Nothing but the code and the numbers of the copies matters. -/
theorem Charted.congr (h : b.Charted p) (hcode : b'.code = b.code)
    (hnext : b'.nextVariable = b.nextVariable) (hscopes : b'.scopes = b.scopes)
    (hcontexts : b'.contexts = b.contexts) (hblocks : b'.openBlocks = b.openBlocks)
    (hdefinitions : b'.definitions = b.definitions)
    (hadopted : ∀ e ∈ b'.adoption, e.2.number < b.nextVariable) : b'.Charted p where
  toStands := h.toStands.congr hcode hnext hscopes hcontexts hblocks
  toTraced := h.toTraced.congr hcode hnext hdefinitions
  surveys := hcode ▸ h.surveys
  numbered := h.numbered
  distinct := h.distinct
  counted := by rw [hnext, hcode, h.counted]
  adopted := hnext ▸ hadopted

/-- The variables that a copy declares are new ones. -/
theorem Charted.adoptAs {i : Instruction} (h : b.Charted p) (ha : b.adoptAs i op = .ok r) :
    ∃ q, r.2.Charted q := by
  obtain ⟨inputs, b', -, he, hr⟩ := exists_emit_of_adoptAs ha
  obtain ⟨-, hproduced, -, hnext, -⟩ := emitted he
  obtain ⟨q, hq, -⟩ := h.emit he
  refine ⟨q, ?_⟩
  rw [hr]
  refine hq.congr rfl rfl rfl rfl rfl rfl fun e hmem => ?_
  rcases List.mem_append.mp hmem with hmem | hmem
  · have hnew : e.2 ∈ r.1 := (List.of_mem_zip (List.mem_reverse.mp hmem)).2
    rw [hproduced, mem_variablesFrom] at hnew
    change e.2.number < b'.nextVariable
    simp only at hnext
    omega
  · exact hq.adopted e hmem

theorem Reachable.exists_charted (h : b.Reachable) : ∃ p, b.Charted p := by
  induction h with
  | new => exact ⟨{}, charted_start⟩
  | derived parent => exact ⟨{}, charted_start.congr rfl rfl rfl rfl rfl rfl nofun⟩
  | emit _ he ih =>
    obtain ⟨p, hp⟩ := ih
    obtain ⟨q, hq, -⟩ := hp.emit he
    exact ⟨q, hq⟩
  | beginAdoption _ ih =>
    obtain ⟨p, hp⟩ := ih
    exact ⟨p, hp.congr rfl rfl rfl rfl rfl rfl nofun⟩
  | adoptAs _ ha ih =>
    obtain ⟨p, hp⟩ := ih
    exact hp.adoptAs ha
  | annotate comments contributors _ ih =>
    obtain ⟨p, hp⟩ := ih
    exact ⟨p, hp.congr rfl rfl rfl rfl rfl rfl hp.adopted⟩

theorem Charted.visibleVariables_perm (h : b.Charted p) :
    b.visibleVariables.Perm p.scopes.flatten := by
  rw [← h.scopes]
  exact b.scopes.reverse_perm.flatten

/-- In code that declares every variable once, one position is that of the declaration. -/
theorem Charted.exists_definition (h : b.Charted p) {v : Variable} (hv : v.number < b.nextVariable) :
    ∃ n, b.definitions[v.number]? = some n ∧
      ∀ k, (∃ i, b.code[k]? = some i ∧ v ∈ i.allOutputs) ↔ k = n := by
  have hlength : v.number < b.definitions.length := by
    rw [h.definitions]
    exact hv
  have hentry : b.definitions[v.number]? = some b.definitions[v.number] :=
    List.getElem?_eq_getElem hlength
  have hlt := h.declared _ (List.getElem_mem hlength)
  have hdeclarer := h.definition v
  rw [definition?, hentry, Option.bind_some, List.getElem?_eq_getElem hlt] at hdeclarer
  refine ⟨_, hentry, fun k => ⟨?_, ?_⟩⟩
  · rintro ⟨i, hi, hmem⟩
    have hsame := hdeclarer.trans (declarer?_of_mem h.once (List.mem_of_getElem? hi) hmem)
    rw [← h.index k i hi]
    exact h.index _ i ((List.getElem?_eq_getElem hlt).trans hsame)
  · rintro rfl
    exact ⟨_, List.getElem?_eq_getElem hlt, (of_declarer? hdeclarer.symm).2⟩

theorem Charted.inStep (h : b.Charted p) : b.InStep where
  scopes := by rw [h.scopes, h.blocks, List.length_map, h.balanced.scopes]
  contexts := by rw [h.contexts, h.blocks, List.length_map, h.balanced.contexts]
  ascending := by
    rw [h.blocks, List.pairwise_reverse]
    exact h.surveys.ascending
  openBlocks := by
    rw [h.blocks]
    exact h.surveys.opened
  counted := h.counted
  distinct := h.visibleVariables_perm.nodup_iff.mpr h.distinct
  visible v := h.visibleVariables_perm.mem_iff.trans h.surveys.mem_flatten_scopes_iff
  defined _ := h.exists_definition
  inRange := h.declared
  adopted := h.adopted

/-- Copying a whole program is copying its instructions. -/
theorem Reachable.appendProgram {program : Program} (h : b.Reachable)
    (ha : b.appendProgram program = .ok b') : b'.Reachable := by
  have hall (is : Code) : ∀ {b : Builder}, b.Reachable → b.adoptAll is = .ok b' → b'.Reachable := by
    induction is with
    | nil =>
      intro b h ha
      cases ha
      exact h
    | cons i is ih =>
      intro b h ha
      unfold adoptAll at ha
      cases hadopt : b.adopt i with
      | error f =>
        rw [hadopt] at ha
        cases ha
      | ok r =>
        rw [hadopt] at ha
        exact ih (h.adoptAs hadopt) ha
  exact hall program.code h.beginAdoption ha

end Builder

namespace Build

/-- What a caller can do with a builder: look at it, operations, and constructions, one after the other.
Values, calls, operators and statements are constructions by one emission. -/
inductive Calls : {α : Type} → StateT Builder (Except Fault) α → Prop where
  | pure {α : Type} (a : α) : Calls (Pure.pure a)
  | bind {α β : Type} {x : StateT Builder (Except Fault) α}
      {f : α → StateT Builder (Except Fault) β} :
      Calls x → (∀ a, Calls (f a)) → Calls (x >>= f)
  | look : Calls (getThe Builder)
  | annotate (comments : Comments) (contributors : List String) :
      Calls (modifyThe Builder fun b => { b with comments, contributors })
  | emit (op : Operation) (inputs : List Variable) : Calls (emit op inputs)
  | beginAdoption : Calls beginAdoption
  | adopted (v : Variable) : Calls (adopted v)
  | adopt (i : Instruction) : Calls (adopt i)
  | adoptAs (i : Instruction) (op : Operation) : Calls (adoptAs i op)
  | appendProgram (p : Program) : Calls (appendProgram p)
  | emit_ (op : Operation) (inputs : List Variable) : Calls (emit_ op inputs)
  | emitOne (op : Operation) (inputs : List Variable) : Calls (emitOne op inputs)
  | reuseBuiltin (name : String) : Calls (reuseBuiltin name)
  | plainFunction (parameters : Nat) {body : List Variable → StateT Builder (Except Fault) Unit} :
      (∀ vs, Calls (body vs)) → Calls (plainFunction parameters body)
  | ifThen (condition : Variable) {body : StateT Builder (Except Fault) Unit} :
      Calls body → Calls (ifThen condition body)
  | ifElse (condition : Variable) {whenTrue whenFalse : StateT Builder (Except Fault) Unit} :
      Calls whenTrue → Calls whenFalse → Calls (ifElse condition whenTrue whenFalse)
  | whileLoop (left : Variable) (op : Comparator) (right : Variable)
      {body : StateT Builder (Except Fault) Unit} :
      Calls body → Calls (whileLoop left op right body)
  | forLoop (first last step : Variable) {body : Variable → StateT Builder (Except Fault) Unit} :
      (∀ v, Calls (body v)) → Calls (forLoop first last step body)
  | tryCatch {body : StateT Builder (Except Fault) Unit}
      {handler : Variable → StateT Builder (Except Fault) Unit} :
      Calls body → (∀ v, Calls (handler v)) → Calls (tryCatch body handler)
  | tryFinally {body last : StateT Builder (Except Fault) Unit} :
      Calls body → Calls last → Calls (tryFinally body last)
  | switch (subject : Variable) {cases : List (Variable × StateT Builder (Except Fault) Unit)}
      {otherwise : Option (StateT Builder (Except Fault) Unit)} :
      (∀ c ∈ cases, Calls c.2) → (∀ body ∈ otherwise, Calls body) →
      Calls (switch subject cases otherwise)
  | classDefinition (superclass : Option Variable) {body : StateT Builder (Except Fault) Unit} :
      Calls body → Calls (classDefinition superclass body)
  | classMethod (name : String) (parameters : Nat)
      {body : Variable → List Variable → StateT Builder (Except Fault) Unit} :
      (∀ v vs, Calls (body v vs)) → Calls (classMethod name parameters body)

section

variable {I : Builder → Prop} {α β : Type} {x : StateT Builder (Except Fault) α}
  {f : α → StateT Builder (Except Fault) β}

/-- An action whose result says nothing, before another one. -/
theorem preserves_bind (hx : Preserves I x fun _ => True)
    (hf : ∀ a, Preserves I (f a) fun _ => True) : Preserves I (x >>= f) fun _ => True :=
  hx.bind fun a _ => hf a

theorem preserves_forM {as : List α} {f : α → StateT Builder (Except Fault) Unit}
    (hf : ∀ a ∈ as, Preserves I (f a) fun _ => True) : Preserves I (as.forM f) fun _ => True := by
  induction as with
  | nil => exact preserves_pure trivial
  | cons a as ih =>
    exact preserves_bind (hf a List.mem_cons_self) fun _ =>
      ih fun c hc => hf c (List.mem_cons_of_mem a hc)

theorem preserves_modify {g : Builder → Builder} (hg : ∀ b, I b → I (g b)) :
    Preserves I (modifyThe Builder g : StateT Builder (Except Fault) PUnit) fun _ => True :=
  fun b hb => Constructing.modify ⟨hg b hb, trivial⟩

end

/-- The caller can make nothing that the operations of a builder do not make. -/
theorem Calls.preserves {α : Type} {x : StateT Builder (Except Fault) α} (h : Calls x) :
    Preserves Builder.Reachable x fun _ => True := by
  have hkept (op : Operation) : KeptBy Builder.Reachable op := fun _ _ _ hb he => hb.emit he
  have hemit (op : Operation) (inputs : List Variable) :
      Preserves Builder.Reachable (Build.emit_ op inputs : StateT Builder (Except Fault) Unit)
        fun _ => True := preserves_emit_ (hkept op) inputs
  have hadoptAs (i : Instruction) (op : Operation) : Preserves Builder.Reachable
      (Build.adoptAs i op : StateT Builder (Except Fault) (List Variable)) fun _ => True :=
    fun b hb => Constructing.gives_adoptAs fun produced b' ha => ⟨hb.adoptAs ha, trivial⟩
  induction h with
  | pure a => exact preserves_pure trivial
  | bind _ _ ihx ihf => exact preserves_bind ihx ihf
  | look => exact preserves_get
  | annotate comments contributors =>
    exact preserves_modify fun b hb => hb.annotate comments contributors
  | emit op inputs => exact preserves_emit (hkept op) inputs
  | beginAdoption => exact preserves_modify fun b hb => hb.beginAdoption
  | adopted v => exact preserves_adopted v
  | adopt i => exact hadoptAs i i.op
  | adoptAs i op => exact hadoptAs i op
  | appendProgram p =>
    exact fun b hb => Constructing.gives_appendProgram fun b' ha => ⟨hb.appendProgram ha, trivial⟩
  | emit_ op inputs => exact hemit op inputs
  | emitOne op inputs => exact preserves_emitOne (hkept op) inputs
  | reuseBuiltin name => exact preserves_reuseBuiltin (hkept (.loadBuiltin name))
  | plainFunction parameters _ ih =>
    refine preserves_bind (preserves_emit (hkept _) _) fun vs => ?_
    cases vs with
    | nil => exact preserves_throw _
    | cons v vs =>
      exact preserves_bind (ih vs) fun _ => preserves_bind (hemit _ _) fun _ =>
        preserves_pure trivial
  | ifThen condition _ ih =>
    exact preserves_bind (hemit _ _) fun _ => preserves_bind ih fun _ => hemit _ _
  | ifElse condition _ _ ihTrue ihFalse =>
    exact preserves_bind (hemit _ _) fun _ => preserves_bind ihTrue fun _ =>
      preserves_bind (hemit _ _) fun _ => preserves_bind ihFalse fun _ => hemit _ _
  | whileLoop left op right _ ih =>
    exact preserves_bind (hemit _ _) fun _ => preserves_bind ih fun _ => hemit _ _
  | forLoop first last step _ ih =>
    exact preserves_bind (preserves_emitOne (hkept _) _) fun v =>
      preserves_bind (ih v) fun _ => hemit _ _
  | tryCatch _ _ ih ihHandler =>
    exact preserves_bind (hemit _ _) fun _ => preserves_bind ih fun _ =>
      preserves_bind (preserves_emitOne (hkept _) _) fun v =>
        preserves_bind (ihHandler v) fun _ => hemit _ _
  | tryFinally _ _ ih ihLast =>
    exact preserves_bind (hemit _ _) fun _ => preserves_bind ih fun _ =>
      preserves_bind (hemit _ _) fun _ => preserves_bind ihLast fun _ => hemit _ _
  | @switch subject cases otherwise _ _ ihCases ihOtherwise =>
    refine preserves_bind (hemit _ _) fun _ => preserves_bind (preserves_forM fun c hc => ?_)
      fun _ => ?_
    · exact preserves_bind (hemit _ _) fun _ => preserves_bind (ihCases c hc) fun _ => hemit _ _
    · cases otherwise with
      | none => exact hemit _ _
      | some body =>
        refine preserves_bind (hemit _ _) fun _ => preserves_bind (ihOtherwise body rfl) fun _ => ?_
        exact preserves_bind (hemit _ _) fun _ => hemit _ _
  | classDefinition superclass _ ih =>
    exact preserves_bind (preserves_emitOne (hkept _) _) fun v => preserves_bind ih fun _ =>
      preserves_bind (hemit _ _) fun _ => preserves_pure trivial
  | classMethod name parameters _ ih =>
    refine preserves_bind (preserves_emit (hkept _) _) fun vs => ?_
    cases vs with
    | nil => exact preserves_throw _
    | cons v vs => exact preserves_bind (ih v vs) fun _ => hemit _ _

end Build

namespace Builder

/-- Whatever the caller does, a builder that is there afterwards is in step with its code. -/
theorem inStep_of_calls {α : Type} {x : StateT Builder (Except Fault) α} (h : Build.Calls x)
    {start b : Builder} {a : α} (hstart : start = {} ∨ ∃ parent, start = derivedFrom parent)
    (hrun : x.run start = .ok (a, b)) : b.InStep := by
  have hreachable : start.Reachable := by
    rcases hstart with rfl | ⟨parent, rfl⟩
    · exact .new
    · exact .derived parent
  obtain ⟨hb, -⟩ := Constructing.gives_iff.mp (h.preserves start hreachable) _ hrun
  obtain ⟨p, hp⟩ := hb.exists_charted
  exact hp.inStep

/-- A function, and a choice whose second body is not ended, with a copied instruction in it. -/
def choosing : StateT Builder (Except Fault) Variable := do
  let condition ← Build.loadBool true
  let function ← Build.plainFunction 1 fun vs => vs.forM Build.ret
  Build.emit_ (.beginIf false) [condition]
  let result ← Build.callFunction function [condition]
  Build.emit_ .beginElse []
  Build.beginAdoption
  let _ ← Build.adopt ⟨.loadInteger 7, [⟨0⟩], 0, by decide⟩
  return result

theorem inStep_choosing : ∃ b, choosing.run {} = .ok (⟨3⟩, b) ∧ b.InStep ∧ b.openBlocks = [6] ∧
    b.visibleVariables = [⟨0⟩, ⟨1⟩, ⟨4⟩] ∧ b.adoption = [(⟨0⟩, ⟨4⟩)] := by
  have hcalls : Build.Calls choosing := by
    refine .bind (.emitOne _ _) fun condition => .bind (.plainFunction 1 fun vs => ?_) fun function =>
      .bind (.emit_ _ _) fun _ => .bind (.emitOne _ _) fun result => .bind (.emit_ _ _) fun _ =>
        .bind .beginAdoption fun _ => .bind (.adopt _) fun _ => .pure _
    induction vs with
    | nil => exact .pure _
    | cons v vs ih => exact .bind (.emit_ _ _) fun _ => ih
  have hrun : choosing.run {} = .ok (⟨3⟩, _) := rfl
  exact ⟨_, hrun, inStep_of_calls hcalls (.inl rfl) hrun, rfl, rfl, rfl⟩

end Builder

end ScriptFuzz
