import ScriptFuzz.Observation
import ScriptFuzz.Proofs.Builder.Construction
import ScriptFuzz.Proofs.Ordered

/-!
# Instrumented copies and their records

The instrumented copy of a sound program is sound (`Program.allows_instrument`) and holds the
operations of the program in order (`Program.sublist_instrument`). What an observation holds comes
from the side channel of the execution (`Program.reflectOn_eq_some`).
-/

namespace ScriptFuzz

set_option autoImplicit false

open Code Builder Building

namespace Program

variable {p : Program} {e : Execution} {o : Observed}

/-- An observation is about the observed program, and its records were left by the execution. -/
theorem reflectOn_eq_some (h : p.reflectOn e = some o) : o.program = p ∧
    ∀ n r, o.record? n = some r → r ∈ Record.ofStream e.fuzzout ∧ r.index = n ∧
      p.admits r = true := by
  unfold reflectOn at h
  split at h
  · cases h
  split at h
  · cases h
  · cases h
    refine ⟨rfl, fun n r hr => ?_⟩
    obtain ⟨before, after, heq, -⟩ := List.lookup_eq_some_iff.mp hr
    have hmem : (n, r) ∈ before ++ (n, r) :: after := by simp
    rw [← heq] at hmem
    obtain ⟨r', hr', hpair⟩ := List.mem_map.mp (Ordered.mem_ofPairs hmem)
    cases hpair
    exact ⟨(List.mem_filter.mp hr').1, rfl, (List.mem_filter.mp hr').2⟩

/-! ## Instrumented copies -/

theorem isObservable_congr {i j : Instruction} (h : i.op = j.op) :
    i.isObservable = j.isObservable := by
  simp only [Instruction.isObservable, Instruction.isSimple, Instruction.isBlock,
    Instruction.isJump, Instruction.isInternal, Instruction.isBlockStart, Instruction.isBlockEnd,
    Instruction.has, Instruction.hasOneOutput, Instruction.shape, h]

/-- What is worth observing is an ordinary statement that gives one value. -/
theorem observable_eq {i : Instruction} (h : i.isObservable = true) :
    i.shape.outputs = 1 ∧ i.op.isClassHead = false := by
  simp only [Instruction.isObservable, Instruction.isSimple, Instruction.isBlock,
    Instruction.hasOneOutput, Bool.and_eq_true, Bool.not_eq_true', Bool.or_eq_false_iff,
    beq_iff_eq] at h
  refine ⟨h.2, ?_⟩
  have hstart := h.1.1.1.1
  rw [Instruction.isBlockStart_eq] at hstart
  cases hop : i.op <;> rw [hop] at hstart <;> first | rfl | cases hstart

/-- Reports stand between the copied instructions. -/
theorem yields_reportAll {base p final : Progress} {done : Code} {b : Builder} {q : Progress}
    {hook : Variable} (is : Code) (hhook : base.isVisible hook = true)
    (hbase : (contextIn base.blocks).script = true) (h : Copies base done p b q)
    (hrun : p.run done.length is = .ok final) (hcount : Code.IsCountable is) :
    Yields (reportAll hook is) b fun _ b' => ∃ q', Copies base (done ++ is) final b' q' := by
  refine yields_walk (P := fun _ => True) rfl ?_ is h hrun hcount fun _ _ => trivial
  intro i is done p q b Q _ hcount ha h hrest
  refine Building.bind (yields_adopt hbase ha h hcount ?_)
  intro _ b₁ q₁ h₁
  split
  · rename_i hobservable
    obtain ⟨hone, hclass⟩ := observable_eq hobservable
    obtain ⟨v, hv⟩ := exists_output? hone
    rw [hv]
    refine Building.bind (yields_adopted_output hbase ha h.stacked h₁ hv hone hclass ?_)
    intro w hbody hw
    refine Building.bind (yields_added h₁ hbody
      (adds_load hbody ⟨rfl, rfl, rfl⟩ ⟨rfl, rfl, rfl⟩) ?_)
    intro index b₂ q₂ h₂ hbody₂ hkeep hindex
    refine Building.bind (yields_added h₂ hbody₂ (adds_apply hbody₂ ⟨rfl, rfl, rfl⟩
      ⟨rfl, rfl, rfl⟩ (by simp [Builder.capacity]) (h₂.isVisible_of_base hhook) ?_)
      fun _ _ _ h₃ _ _ _ => hrest h₃)
    simpa using ⟨hkeep w hw, hindex⟩
  · exact hrest h₁

/-- The instrumented copy of a sound program is sound. -/
theorem allows_instrument (hsound : p.code.IsSound) (id : Uuid) :
    Fault.Allows (p.instrument id) fun q => q.code.IsSound := by
  obtain ⟨final, hrun, hblocks⟩ := check_eq_ok_iff_run.mp hsound.check
  have hbody : (derivedFrom p).InBody {} := ⟨holds_start.congr rfl rfl rfl rfl rfl, rfl⟩
  have hbuild : Yields (do
      let hook ← Build.reuseBuiltin Hook.builtinName
      Build.beginAdoption
      reportAll hook p.code : StateT Builder (Except Fault) Unit) (derivedFrom p) fun _ b =>
        ∃ q, b.Holds q ∧ q.blocks = [] := by
    refine Building.bind (Building.mono (adds_reuseBuiltin hbody Hook.builtinName) ?_)
    rintro hook b ⟨base, hgrown, hhook⟩
    refine Building.bind (Building.modify ?_)
    have hstart : Copies base [] {} b.beginAdoption base :=
      Carries.start (hgrown.holds.congr rfl rfl rfl rfl rfl)
    have hscript := (hgrown.inBody hbody).script
    refine Building.mono (yields_reportAll p.code hhook hscript hstart hrun hsound.countable) ?_
    rintro - b' ⟨q, h⟩
    exact ⟨q, h.target, (h.blocks_eq hblocks).trans hgrown.widens.blocks⟩
  unfold instrument
  refine Fault.Allows.bind hbuild ?_
  rintro ⟨_, b⟩ ⟨q, hholds, hq⟩
  obtain ⟨r, hr, -, hr'⟩ := hholds.exists_finalize hq id
  change Fault.Allows (b.finalize id) _
  rw [hr]
  exact hr'

/-! ## What instrumented copies hold -/

/-- What the action adds to the code holds the given operations, in order. -/
def Writes {α : Type} (x : StateT Builder (Except Fault) α) (ops : List Operation) : Prop :=
  ∀ b r, x.run b = .ok r → ∃ js : Code, r.2.code = b.code ++ js ∧
    ops.Sublist (js.map Instruction.op)

section

variable {α β : Type} {x : StateT Builder (Except Fault) α}
  {f : α → StateT Builder (Except Fault) β} {ops ops' : List Operation} {op : Operation}
  {b : Builder} {i : Instruction}

theorem writes_pure (a : α) : Writes (pure a) [] := fun b r hr => by
  cases hr
  exact ⟨[], (List.append_nil _).symm, .slnil⟩

theorem writes_throw (e : Fault) : Writes (throw e : StateT Builder (Except Fault) α) ops :=
  fun _ _ hr => by cases hr

theorem Writes.bind (hx : Writes x ops) (hf : ∀ a, Writes (f a) ops') :
    Writes (x >>= f) (ops ++ ops') := by
  intro b r hr
  rw [StateT.run_bind] at hr
  cases hxb : x.run b with
  | error e =>
    rw [hxb] at hr
    cases hr
  | ok s =>
    rw [hxb] at hr
    obtain ⟨is, his, hops⟩ := hx b s hxb
    obtain ⟨js, hjs, hops'⟩ := hf s.1 s.2 r hr
    refine ⟨is ++ js, ?_, ?_⟩
    · rw [hjs, his, List.append_assoc]
    · rw [List.map_append]
      exact hops.append hops'

theorem Writes.mono (h : Writes x ops) (hops : ops'.Sublist ops) : Writes x ops' := fun b r hr =>
  have ⟨js, hcode, hsub⟩ := h b r hr
  ⟨js, hcode, hops.trans hsub⟩

theorem writes_emit (op : Operation) (inputs : List Variable) :
    Writes (Build.emit op inputs) [op] := by
  intro b r hr
  rw [run_emit] at hr
  obtain ⟨j, rfl, hcode⟩ := code_emit hr
  exact ⟨[j], hcode, .refl _⟩

theorem writes_emitOne (op : Operation) (inputs : List Variable) :
    Writes (Build.emitOne op inputs) [op] := by
  refine (writes_emit op inputs).bind fun vs => (?_ : Writes _ [])
  cases vs with
  | nil => exact writes_throw _
  | cons v vs => exact writes_pure v

theorem writes_adopt (i : Instruction) : Writes (Build.adopt i) [i.op] := by
  intro b r hr
  rw [Build.adopt, run_adoptAs] at hr
  cases hcount : i.op.isCountable with
  | false =>
    simp only [adoptAs, hcount] at hr
    cases hr
  | true =>
    cases hinputs : i.inputs.mapM b.adopted with
    | error e =>
      simp [adoptAs, hcount, Instruction.shape, hinputs, Bind.bind, Except.bind] at hr
    | ok inputs =>
      rw [Carries.adoptAs_eq hcount rfl hinputs] at hr
      cases hemit : b.emit i.op inputs with
      | error e =>
        rw [hemit] at hr
        cases hr
      | ok s =>
        rw [hemit] at hr
        cases hr
        obtain ⟨j, hop, hcode⟩ := code_emit hemit
        exact ⟨[j], hcode, by rw [List.map_singleton, hop]⟩

theorem writes_adopted (v : Variable) : Writes (Build.adopted v) [] := by
  intro b r hr
  change (Build.orRaise (b.adopted v) : StateT Builder (Except Fault) Variable).run b = _ at hr
  cases hv : b.adopted v with
  | error e =>
    rw [hv] at hr
    cases hr
  | ok w =>
    rw [hv] at hr
    exact writes_pure w b r hr

/-- All instructions are copied, in order. -/
theorem writes_reportAll (hook : Variable) (is : Code) :
    Writes (reportAll hook is) (is.map Instruction.op) := by
  induction is with
  | nil => exact writes_pure ()
  | cons i is ih =>
    refine (writes_adopt i).bind fun _ => ?_
    split
    · split
      · exact writes_throw _
      · rename_i v _
        have hreport := (writes_adopted v).bind fun value =>
          (writes_emitOne (.loadInteger (Int64.ofNat i.index)) []).bind fun index =>
            (writes_emitOne (.callMethod Hook.recordMethod 2) [hook, value, index]).bind fun _ => ih
        refine hreport.mono ?_
        simp
    · exact ih

theorem writes_reuseBuiltin (name : String) : Writes (Build.reuseBuiltin name) [] := by
  intro b r hr
  cases hv : Build.loadedBuiltin? b name with
  | some v =>
    refine writes_pure v b r ?_
    simpa [Build.reuseBuiltin, hv] using hr
  | none =>
    refine (writes_emitOne (.loadBuiltin name) []).mono (List.nil_sublist _) b r ?_
    simpa [Build.reuseBuiltin, Build.loadBuiltin, hv] using hr

theorem writes_beginAdoption : Writes Build.beginAdoption [] := fun b r hr => by
  cases hr
  exact ⟨[], (List.append_nil _).symm, .slnil⟩

end

/-- The instrumented copy holds the operations of the program, in order. -/
theorem sublist_instrument {id : Uuid} {q : Program} (h : p.instrument id = .ok q) :
    (p.code.map Instruction.op).Sublist (q.code.map Instruction.op) := by
  unfold instrument at h
  have hwrites : Writes (do
      let hook ← Build.reuseBuiltin Hook.builtinName
      Build.beginAdoption
      reportAll hook p.code : StateT Builder (Except Fault) Unit) (p.code.map Instruction.op) :=
    (writes_reuseBuiltin _).bind fun hook =>
      writes_beginAdoption.bind fun _ => writes_reportAll hook p.code
  cases hr : (do
      let hook ← Build.reuseBuiltin Hook.builtinName
      Build.beginAdoption
      reportAll hook p.code : StateT Builder (Except Fault) Unit).run (derivedFrom p) with
  | error e =>
    rw [hr] at h
    cases h
  | ok r =>
    rw [hr] at h
    obtain ⟨js, hcode, hsub⟩ := hwrites _ r hr
    rw [code_finalize h, hcode]
    exact hsub

end Program

end ScriptFuzz
