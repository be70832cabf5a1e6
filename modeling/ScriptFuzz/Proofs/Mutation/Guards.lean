import ScriptFuzz.Proofs.Builder.Builtins
import ScriptFuzz.Proofs.Fuzzing.Contributors

/-!
# Guards report the calls that they guard

In a synthesized program every call of the hook reports the value of the call before it, at the
position of that call (`Code.Guarded`). The position is a number that the guard loads, so it is right
in the synthesized program and stays the same in copies of it.
-/

namespace ScriptFuzz

set_option autoImplicit false

open Code Builder Constructing

/-- The instruction reports the value of another one, at the position of that one. -/
def Instruction.Reports (c : Code) (i j : Instruction) : Prop :=
  ∃ hook value index loadsHook loadsIndex, i.inputs = [hook, value, index] ∧
    (c.declarer? hook = some loadsHook ∧ loadsHook.op = .loadBuiltin Hook.builtinName) ∧
    (c.declarer? value = some j ∧ j.isObservable = true) ∧
    c.declarer? index = some loadsIndex ∧ loadsIndex.op = .loadInteger (Int64.ofNat j.index)

/-- Every call of the hook reports the value of an instruction. -/
def Code.Guarded (c : Code) : Prop :=
  ∀ i ∈ c, Hook.isRecordCall i = true → ∃ j, i.Reports c j

theorem Instruction.Reports.append {c : Code} {i j : Instruction} (h : i.Reports c j) (d : Code) :
    i.Reports (c ++ d) j := by
  obtain ⟨hook, value, index, l, l', hinputs, ⟨hhook, hl⟩, ⟨hvalue, hj⟩, hindex, hl'⟩ := h
  exact ⟨hook, value, index, l, l', hinputs, ⟨declarer?_append hhook, hl⟩,
    ⟨declarer?_append hvalue, hj⟩, declarer?_append hindex, hl'⟩

theorem Code.Guarded.concat {c : Code} {i : Instruction} (h : c.Guarded)
    (hi : Hook.isRecordCall i = true → ∃ j, i.Reports c j) : Code.Guarded (c ++ [i]) := by
  intro k hk hcall
  rcases List.mem_append.mp hk with hk | hk
  · obtain ⟨j, hj⟩ := h k hk hcall
    exact ⟨j, hj.append [i]⟩
  · cases List.mem_singleton.mp hk
    obtain ⟨j, hj⟩ := hi hcall
    exact ⟨j, hj.append [i]⟩

namespace Builder

variable {b b' : Builder} {op : Operation} {inputs produced : List Variable}

/-- The code under construction can be traced and counted, and every call of the hook in it reports a
value. -/
structure IsGuarded (b : Builder) : Prop extends Traced b where
  guarded : b.code.Guarded
  countable : b.code.IsCountable

theorem IsGuarded.congr (h : b.IsGuarded) (hcode : b'.code = b.code)
    (hnext : b'.nextVariable = b.nextVariable) (hdefinitions : b'.definitions = b.definitions) :
    b'.IsGuarded where
  toTraced := h.toTraced.congr hcode hnext hdefinitions
  guarded := hcode ▸ h.guarded
  countable := hcode ▸ h.countable

theorem isGuarded_start : IsGuarded {} where
  toTraced := traced_start
  guarded := nofun
  countable := nofun

theorem IsGuarded.emit (h : b.IsGuarded) (hcount : op.isCountable = true)
    (hreports : ∀ j : Instruction, j.op = op → j.inputs = inputs → Hook.isRecordCall j = true →
      ∃ k, j.Reports b.code k)
    (he : b.emit op inputs = .ok (produced, b')) : b'.IsGuarded := by
  obtain ⟨j, hop, hinputs, -, hcode, -⟩ := h.emitted he
  refine ⟨h.toTraced.emit he, ?_, ?_⟩
  · rw [hcode]
    exact h.guarded.concat (hreports j hop hinputs)
  · rw [hcode]
    intro i hi
    rcases List.mem_append.mp hi with hi | hi
    · exact h.countable i hi
    · cases List.mem_singleton.mp hi
      rw [hop]
      exact hcount

end Builder

section

variable {m : Type → Type} [Monad m] [MonadStateOf Builder m] [MonadExceptOf Fault m]
  [Building m] {b : Builder} {op : Operation} {i : Instruction}

/-- The operation is not a call of the hook. -/
def Operation.IsSilent (op : Operation) : Prop :=
  ∀ j : Instruction, j.op = op → Hook.isRecordCall j = false

theorem keptBy_isGuarded (hcount : op.isCountable = true) (hsilent : op.IsSilent) :
    KeptBy IsGuarded op := by
  intro b inputs r hb he
  refine hb.emit hcount ?_ he
  intro j hop _ hcall
  rw [hsilent j hop] at hcall
  cases hcall

theorem isSilent_of_not_method (h : op.isMethodCall = false) : op.IsSilent := by
  rintro j rfl
  unfold Hook.isRecordCall
  cases hop : j.op with
  | callMethod name n =>
    rw [hop] at h
    cases h
  | _ => rfl

theorem keptBy_of_not_method (hcount : op.isCountable = true) (hmethod : op.isMethodCall = false) :
    KeptBy IsGuarded op := keptBy_isGuarded hcount (isSilent_of_not_method hmethod)

theorem preserves_adopt (hsilent : i.op.IsSilent) :
    Preserves IsGuarded (Build.adopt i : m (List Variable)) fun _ => True := by
  intro b hb
  apply gives_adoptAs
  intro produced b' h
  have hcount : i.op.isCountable = true := by
    unfold adoptAs at h
    cases hcount : i.op.isCountable with
    | true => rfl
    | false =>
      rw [hcount] at h
      cases h
  obtain ⟨inputs, b'', -, he, hr⟩ := exists_emit_of_adoptAs h
  have hemit := keptBy_isGuarded hcount hsilent b inputs _ hb he
  rw [show b' = _ from hr]
  exact ⟨hemit.congr rfl rfl rfl, trivial⟩

/-- The builtin is declared by an instruction that is there already or that is added. -/
theorem gives_reuseBuiltin (hb : b.IsGuarded) (name : String) :
    Gives (Build.reuseBuiltin name : m Variable) b fun v b' => b'.IsGuarded ∧
      ∃ js l, b'.code = b.code ++ js ∧ b'.code.declarer? v = some l ∧
        l.op = .loadBuiltin name := by
  apply Constructing.mono (gives_reuseBuiltin_of_traced hb.toTraced name)
  rintro v b' ⟨-, ⟨l, hl, hop⟩, rfl | ⟨vs, he⟩⟩
  · exact ⟨hb, [], l, (List.append_nil _).symm, hl, hop⟩
  · obtain ⟨j, -, -, -, hcode, -⟩ := hb.emitted he
    exact ⟨keptBy_isGuarded rfl (isSilent_of_not_method rfl) b _ _ hb he, [j], l, hcode, hl, hop⟩

end

namespace FollowUp

/-- The guard of a call reports the value of the call, at the position that the call has. -/
theorem preserves_guarded {op : Operation} (inputs : List Variable) (hcount : op.isCountable = true)
    (hsilent : op.IsSilent) (hobservable : ∀ j : Instruction, j.op = op → j.isObservable = true) :
    Preserves IsGuarded (guarded (Build.emitOne op inputs)) fun _ => True := by
  apply preserves_tryCatch _ (keptBy_of_not_method rfl rfl) (keptBy_of_not_method rfl rfl)
    (keptBy_of_not_method rfl rfl)
  intro b hb
  apply Constructing.bind
  apply Constructing.get
  apply Constructing.bind
  apply gives_emitOne
  intro index _ b₁ he₁
  have hb₁ : b₁.IsGuarded := keptBy_of_not_method rfl rfl b _ _ hb he₁
  obtain ⟨l, hl, -, -, hcode₁, hindex⟩ := hb.emitted he₁
  apply Constructing.bind
  apply gives_emitOne
  intro result _ b₂ he₂
  have hb₂ : b₂.IsGuarded := keptBy_isGuarded hcount hsilent b₁ _ _ hb₁ he₂
  obtain ⟨j, hj, -, hposition, hcode₂, hresult⟩ := hb₁.emitted he₂
  apply Constructing.bind
  apply Constructing.mono (gives_reuseBuiltin hb₂ _)
  rintro hook b₃ ⟨hb₃, js, h, hcode₃, hhook, hop⟩
  apply Constructing.bind
  apply gives_emitOne
  intro _ _ b₄ he₄
  apply Constructing.pure
  refine ⟨hb₃.emit rfl ?_ he₄, trivial⟩
  intro k _ hinputs _
  have hvalue : b₃.code.declarer? result = some j := by
    rw [hcode₃]
    exact declarer?_append (hresult result List.mem_cons_self)
  have hloaded : b₃.code.declarer? index = some l := by
    rw [hcode₃, hcode₂, List.append_assoc]
    exact declarer?_append (hindex index List.mem_cons_self)
  have hnumber : j.index = b.nextIndex + 1 := by
    rw [hposition, hcode₁, List.length_append]
    rfl
  refine ⟨j, hook, result, index, h, l, hinputs, ⟨hhook, hop⟩, ⟨hvalue, hobservable j hj⟩, hloaded, ?_⟩
  rw [hl, hnumber]

namespace IsCall

variable {names : String → Prop} {n : Nat} {op : Operation}

theorem isCountable (h : IsCall names n op) (hn : n < Builder.capacity) : op.isCountable = true := by
  have hlimit : n + 1 + 1 + 0 < Operation.countLimit := by
    have : Builder.capacity + 2 < Operation.countLimit := by decide
    omega
  cases h <;> exact decide_eq_true hlimit

theorem isObservable (h : IsCall names n op) : ∀ j : Instruction, j.op = op → j.isObservable = true := by
  rintro ⟨_, _, _, _⟩ rfl
  cases h <;> rfl

theorem isSilent (h : IsCall (· ≠ Hook.recordMethod) n op) : op.IsSilent := by
  rintro ⟨_, _, _, _⟩ rfl
  cases h with
  | method hname => exact decide_eq_false hname
  | _ => rfl

end IsCall

theorem lasting_isGuarded : Lasting IsGuarded (IsCall (· ≠ Hook.recordMethod)) where
  emit _ _ hcount hacts := keptBy_of_not_method hcount (Operation.isMethodCall_eq_false hacts)
  write _ _ _ := preserves_tryCatch (preserves_emit_ (keptBy_of_not_method rfl rfl) _)
    (keptBy_of_not_method rfl rfl) (keptBy_of_not_method rfl rfl) (keptBy_of_not_method rfl rfl)
  guarded _ _ _ hcall hlength :=
    preserves_guarded _ (hcall.isCountable hlength) hcall.isSilent hcall.isObservable

/-- A program that is synthesized from one without calls of the hook is sound, and its calls of the
hook are guards. -/
theorem returns_guarded (s : MutationSettings) (e : Environment) (id : Uuid) (f : Frequencies)
    {o : Observed} (hplain : ∀ i ∈ o.program.code, Hook.isRecordCall i = false)
    (hnames : ∀ n r, o.record? n = some r → ∀ m ∈ r.methods, m.1 ≠ Hook.recordMethod) :
    Returns (synthesize s e id f o) fun r => r.1.code.IsSound ∧ r.1.code.Guarded := by
  refine (returns_true _).bind fun selected _ => ?_
  have hcopy : Preserves IsGuarded (copyAll s e o selected o.program.code) fun _ => True :=
    preserves_copyAll s e lasting_isGuarded
      (fun n r hr _ _ hop => isCall_of_invokes hop (hnames n r hr)) selected
      fun i hi => preserves_adopt ?_
  · have hstart : IsGuarded (Builder.addContributor
        { Builder.derivedFrom o.program with contributors := o.program.contributors } name) :=
      isGuarded_start.congr rfl rfl rfl
    refine Finishes.bind (finishes_assembly (hcopy _ hstart f)) ?_
    rintro ⟨⟨_, f'⟩, b⟩ ⟨hb, -⟩
    refine Finishes.bind (P := fun q => q.code.IsSound ∧ q.code.Guarded) (returns_liftExcept ?_) ?_
    · intro q hq
      rw [code_finalize hq]
      exact ⟨⟨check_of_finalize hq, hb.countable⟩, hb.guarded⟩
    · intro q hq
      exact finishes_pure hq
  · rintro j hj
    have hi := hplain i hi
    unfold Hook.isRecordCall at hi ⊢
    rwa [hj]

end FollowUp

end ScriptFuzz
