import ScriptFuzz.Proofs.Builder.Interleaving
import ScriptFuzz.Proofs.Builder.Numbers
import ScriptFuzz.Proofs.Program.Observation

/-!
# Instrumentation embeds the program

An instrumented program is a load of the hook and the instructions of the program, renamed, with a report
behind each instruction that gives one value (`Program.interleaves_instrument`). Nothing else is added, and
what is added is used by no copy. Beside the numbers of the copies the hook takes one and each report two
(`Program.need`), and instrumentation fails exactly where there are not so many. A program that passes the
check can be too long for it.
-/

namespace ScriptFuzz

set_option autoImplicit false

/-- What is added behind the copy of an instruction: a call of the hook on its value and on its position,
if its value can be observed. -/
inductive Instruction.ReportRun (hook : Variable) (σ : Variable → Variable) (i : Instruction) :
    Code → Prop where
  | silent (h : i.isObservable = false) : ReportRun hook σ i []
  | report {number call : Instruction} {v w : Variable} (h : i.isObservable = true)
    (hv : i.output? = some v) (hnumber : number.op = .loadInteger (Int64.ofNat i.index))
    (hw : number.output? = some w) (hcall : call.op = .callMethod Hook.recordMethod 2)
    (hinputs : call.inputs = [hook, σ v, w]) : ReportRun hook σ i [number, call]

namespace Program

open Builder Constructing

variable {p q : Program} {hook : Variable} {b : Builder} {i : Instruction} {is run : Code}
  {σ τ : Variable → Variable}

theorem reportRun_congr (h : i.ReportRun hook σ run) (hσ : ∀ v ∈ i.inouts, τ v = σ v) :
    i.ReportRun hook τ run := by
  cases h with
  | silent h => exact .silent h
  | report h hv hnumber hw hcall hinputs =>
    rename_i v w
    have hmem : v ∈ i.allOutputs := List.mem_of_mem_take (mem_outputs_of_output? hv)
    refine .report h hv hnumber hw hcall ?_
    rw [hinputs, hσ v (Instruction.mem_inouts.mpr (.inr hmem))]

theorem output?_of_single {v : Variable} {vs : List Variable} (hone : i.shape.outputs = 1)
    (h : i.allOutputs = v :: vs) : i.output? = some v := by
  unfold Instruction.output? Instruction.outputs
  rw [hone, h]
  rfl

/-- The copies keep their order, and each report stands behind its copy. -/
theorem gives_interleaved_reportAll (hnew : is.DeclaresNew) :
    Gives (reportAll hook is) b fun _ b' =>
      b.Interleaved (fun σ i => i.ReportRun hook σ) is b' := by
  -- The renaming is that of the last builder; it agrees with the earlier ones on what they hold.
  induction is generalizing b with
  | nil => exact Constructing.pure (interleaved_nil b)
  | cons i is ih =>
    have ih {b : Builder} := @ih b (hnew.sublist (List.sublist_cons_self i is))
    unfold reportAll
    apply Constructing.bind
    apply gives_adoptAs
    intro produced b₁ ha
    split
    · rename_i hobservable
      split
      · exact Constructing.bind (Constructing.throw _)
      · rename_i v hv
        apply Constructing.bind
        apply gives_adopted
        intro w hw
        apply Constructing.bind
        apply gives_emitOne
        intro index _ b₂ he₂
        apply Constructing.bind
        apply gives_emitOne
        intro _ _ b₃ he₃
        obtain ⟨number, hnumber, -, hindex, hadded⟩ := added_emit he₂
        obtain ⟨call, hcall, hinputs, -, hadded'⟩ := added_emit he₃
        have hboth := hadded.trans hadded'
        refine Constructing.mono ih fun _ b' h =>
          h.cons (fun _ _ _ hσ h => reportRun_congr h hσ) hnew ha hboth ?_
        refine .report hobservable hv hnumber (output?_of_single ?_ hindex) hcall ?_
        · rw [Instruction.shape, hnumber]
          rfl
        · rw [hinputs, hboth.renamed, renamed, lookup_of_adopted hw]
          rfl
    · rename_i hsilent
      refine Constructing.mono ih fun _ b' h =>
        h.cons (fun _ _ _ hσ h => reportRun_congr h hσ) hnew ha (.refl b₁) (.silent ?_)
      simpa using hsilent

/-! ## Instrumented copies -/

/-- The steps of instrumentation before the end. -/
abbrev reporting (p : Program) : StateT Builder (Except Fault) Unit := do
  let hook ← Build.reuseBuiltin Hook.builtinName
  Build.beginAdoption
  reportAll hook p.code

/-- As many numbers as the instrumented copy takes: those of the program, one for the hook, and two for
each report. -/
def need (p : Program) : Nat := 1 + (p.code.numVariables + 2 * p.code.countP Instruction.isObservable)

theorem instrument_eq (p : Program) (id : Uuid) :
    p.instrument id = p.reporting.run (derivedFrom p) >>= fun r => r.2.finalize id := rfl

theorem code_instrument (hcheck : p.code.check = .ok ()) {id : Uuid} (h : p.instrument id = .ok q) :
    ∃ hook load js σ runs, q.code = load :: js ∧ load.op = .loadBuiltin Hook.builtinName ∧
      load.output? = some hook ∧ Code.Interleaves σ p.code runs js ∧
      List.Forall₂ (fun i run => i.ReportRun hook σ run) p.code runs := by
  have hbuild : Gives p.reporting (derivedFrom p) fun _ b' =>
      ∃ (hook : Variable) (load : Instruction) (b : Builder), b.code = [load] ∧
        load.op = .loadBuiltin Hook.builtinName ∧ load.output? = some hook ∧
        b.Interleaved (fun σ i => i.ReportRun hook σ) p.code b' := by
    have hloaded : Build.loadedBuiltin? (derivedFrom p) Hook.builtinName = none := rfl
    unfold reporting Build.reuseBuiltin
    apply Constructing.bind
    apply Constructing.bind
    apply Constructing.get
    rw [hloaded]
    apply gives_emitOne
    intro hook _ b he
    obtain ⟨load, hload, -, hhook, hadded⟩ := added_emit he
    apply Constructing.bind
    apply Constructing.modify
    refine Constructing.mono (gives_interleaved_reportAll (Code.declaresNew_of_check hcheck)) ?_
    intro _ b' hb'
    refine ⟨hook, load, b.beginAdoption, hadded.code, hload, output?_of_single ?_ hhook, hb'⟩
    rw [Instruction.shape, hload]
    rfl
  rw [instrument_eq] at h
  cases hr : p.reporting.run (derivedFrom p) with
  | error e =>
    rw [hr] at h
    cases h
  | ok r =>
    rw [hr] at h
    obtain ⟨hook, load, b, hb, hload, hhook, hinterleaved⟩ := gives_iff.mp hbuild r hr
    obtain ⟨js, runs, hcode, hinterleaves, hruns⟩ := hinterleaved.code
    refine ⟨hook, load, js, _, runs, ?_, hload, hhook, hinterleaves, hruns⟩
    rw [code_finalize h, hcode, hb]
    rfl

/-! ## Room -/

/-- What is reported has been declared. -/
theorem countP_isObservable_le (c : Code) : c.countP Instruction.isObservable ≤ c.numVariables := by
  induction c with
  | nil => exact Nat.le_refl _
  | cons i is ih =>
    rw [Code.numVariables_cons, List.countP_cons]
    split
    · rename_i hobservable
      have hone : i.shape.outputs = 1 := (observable_eq hobservable).1
      have hdeclares : i.allOutputs.length = i.shape.outputs + i.shape.innerOutputs :=
        (declares_eq i).symm
      omega
    · omega

/-- A report takes two numbers beside those of the copies. -/
theorem needs_reportAll (hook : Variable) (is : Code) :
    Needs (Code.numVariables is + 2 * is.countP Instruction.isObservable) (reportAll hook is) := by
  induction is with
  | nil => exact spends_pure trivial
  | cons i is ih =>
    rw [Code.numVariables_cons, Nat.add_assoc]
    refine (needs_adopt i).bind fun _ _ => ?_
    cases hobservable : i.isObservable with
    | false =>
      rw [List.countP_cons_of_neg (by rw [hobservable]; exact Bool.false_ne_true)]
      exact ih
    | true =>
      rw [List.countP_cons_of_pos hobservable]
      simp only [if_true]
      split
      · exact spends_throw rfl
      · rename_i v _
        have hreport := (needs_adopted v).bind fun value _ =>
          (spends_emitOne [] (keptBy_true (.loadInteger (Int64.ofNat i.index)))).bind fun index _ =>
            (spends_emitOne [hook, value, index]
              (keptBy_true (.callMethod Hook.recordMethod 2))).bind fun _ _ => ih
        refine hreport.mono ?_
        change 0 + (1 + (1 + _)) ≤ _
        omega

theorem needs_reporting (p : Program) : Needs p.need p.reporting := by
  refine (spends_reuseBuiltin (keptBy_true _)).bind fun hook _ => ?_
  exact needs_beginAdoption.bind_free fun _ _ => needs_reportAll hook p.code

/-- Where instrumentation of a sound program fails, there are no numbers left. -/
theorem limit_le_of_instrument (hsound : p.code.IsSound) {id : Uuid} {f : Fault}
    (h : p.instrument id = .error f) : f = .exhausted ∧ Variable.limit ≤ p.need := by
  have hallows := allows_instrument hsound id
  rw [h] at hallows
  have hshort : f.isShortage = true := hallows
  have hfails : (derivedFrom p).Fails p.need f := by
    have hneeds := needs_reporting p (derivedFrom p) trivial
    rw [instrument_eq] at h
    change Fault.Ends (p.reporting.run (derivedFrom p)) _ _ at hneeds
    cases hr : p.reporting.run (derivedFrom p) with
    | error e =>
      rw [hr] at h hneeds
      cases h
      exact hneeds
    | ok r =>
      rw [hr] at h
      exact fails_of_not_shortage (isShortage_eq_false_of_finalize h) _
  have hlimit := hfails.numbers hshort
  change Variable.limit ≤ 0 + p.need at hlimit
  rw [Nat.zero_add] at hlimit
  refine ⟨hfails.eq_exhausted ?_ hshort, hlimit⟩
  -- At most one report stands behind each declaration, and these are numbered.
  have hbounded := Code.numVariables_lt_of_check hsound.check
  have hreports := countP_isObservable_le p.code
  have hcapacity : 3 * Variable.limit < capacity := by decide
  unfold need
  omega

/-- The instrumented copy takes exactly the numbers that it needs. -/
theorem numVariables_of_interleaves {js : Code} {runs : List Code} (h : Code.Interleaves σ is runs js)
    (hruns : List.Forall₂ (fun i run => i.ReportRun hook σ run) is runs) :
    js.numVariables = Code.numVariables is + 2 * is.countP Instruction.isObservable := by
  induction h with
  | nil => rfl
  | @cons i j is js run runs hi _ ih =>
    obtain ⟨hrun, hruns⟩ := List.forall₂_cons.mp hruns
    have hcopy : j.allOutputs.length = i.allOutputs.length := by
      rw [hi.allOutputs, List.length_map]
    rw [Code.numVariables_cons, Code.numVariables_append, Code.numVariables_cons, hcopy, ih hruns]
    cases hrun with
    | silent hsilent =>
      rw [List.countP_cons_of_neg (by rw [hsilent]; exact Bool.false_ne_true)]
      change _ + (0 + _) = _
      omega
    | @report number call v w hobservable hv hnumber hw hcall hinputs =>
      have htwo : Code.numVariables [number, call] = 2 := by
        rw [Code.numVariables_cons, Code.numVariables_cons, ← declares_eq, ← declares_eq, hnumber, hcall]
        rfl
      rw [List.countP_cons_of_pos hobservable, htwo]
      omega

theorem need_lt_of_instrument (hsound : p.code.IsSound) {id : Uuid} (h : p.instrument id = .ok q) :
    p.need < Variable.limit := by
  obtain ⟨hook, load, js, σ, runs, hcode, hload, -, hinterleaves, hruns⟩ :=
    code_instrument hsound.check h
  have hallows := allows_instrument hsound id
  rw [h] at hallows
  have hq : q.code.IsSound := hallows
  have hbounded := Code.numVariables_lt_of_check hq.check
  rw [hcode, Code.numVariables_cons, ← declares_eq, hload,
    numVariables_of_interleaves hinterleaves hruns] at hbounded
  exact hbounded

/-- Where there are not enough numbers, instrumentation fails for want of them. -/
theorem instrument_eq_exhausted (hsound : p.code.IsSound) (h : Variable.limit ≤ p.need) (id : Uuid) :
    p.instrument id = .error .exhausted := by
  cases hq : p.instrument id with
  | ok q => exact absurd (need_lt_of_instrument hsound hq) (Nat.not_lt_of_le h)
  | error f => rw [(limit_le_of_instrument hsound hq).1]

theorem exists_instrument (hsound : p.code.IsSound) (h : p.need < Variable.limit) (id : Uuid) :
    ∃ q, p.instrument id = .ok q ∧ q.code.IsSound := by
  have hallows := allows_instrument hsound id
  cases hq : p.instrument id with
  | ok q =>
    rw [hq] at hallows
    exact ⟨q, rfl, hallows⟩
  | error f => exact absurd (limit_le_of_instrument hsound hq).2 (Nat.not_le_of_lt h)

/-- An instrumented program is the program with reports between its instructions: it loads the hook, and
goes on with the instructions of the program, renamed in one way that tells variables apart. Behind each
that gives one value the value is reported, with the position that the instruction has in the program.
Nothing else is added, and what is added is used by no copy. Where there are not so many numbers, there is
no instrumented program. -/
theorem interleaves_instrument (hcheck : p.code.check = .ok ()) (hcount : p.code.IsCountable)
    (id : Uuid) :
    (p.need < Variable.limit →
      ∃ q hook load js σ runs, p.instrument id = .ok q ∧ q.code.check = .ok () ∧
        q.code = load :: js ∧ load.op = .loadBuiltin Hook.builtinName ∧ load.output? = some hook ∧
        Set.InjOn σ p.code.occurring ∧ Code.Interleaves σ p.code runs js ∧
        List.Forall₂ (fun i run => i.ReportRun hook σ run) p.code runs ∧
        ∀ v ∈ p.code.occurring, σ v ≠ hook ∧ ∀ k ∈ runs.flatten, σ v ∉ k.allOutputs) ∧
      (Variable.limit ≤ p.need → p.instrument id = .error .exhausted) := by
  refine ⟨fun hneed => ?_, fun hneed => instrument_eq_exhausted ⟨hcheck, hcount⟩ hneed id⟩
  obtain ⟨q, hq, hsound⟩ := exists_instrument ⟨hcheck, hcount⟩ hneed id
  obtain ⟨hook, load, js, σ, runs, hcode, hload, hhook, hinterleaves, hruns⟩ :=
    code_instrument hcheck hq
  have hnodup := Code.nodup_declared_of_check hsound.check
  rw [hcode, Code.declared_cons] at hnodup
  obtain ⟨-, hjs, hapart⟩ := List.nodup_append.mp hnodup
  obtain ⟨hσ, hother⟩ := hinterleaves.injOn hcheck hjs
  refine ⟨q, hook, load, js, σ, runs, hq, hsound.check, hcode, hload, hhook, hσ, hinterleaves,
    hruns, fun v hv => ⟨?_, hother v hv⟩⟩
  rintro rfl
  rw [Code.occurring_eq_of_check hcheck] at hv
  have hloaded := List.mem_of_mem_take (mem_outputs_of_output? hhook)
  exact hapart _ hloaded _ (hinterleaves.renamed_mem_declared hv) rfl

/-- A value, and another one inside of a block. -/
def valueInBranch : Program where
  id := .fresh 0
  code :=
    [{ op := .loadInteger 6, inouts := [⟨0⟩], index := 0, arity := by decide },
      { op := .beginIf false, inouts := [⟨0⟩], index := 1, arity := by decide },
      { op := .loadString "a", inouts := [⟨1⟩], index := 2, arity := by decide },
      { op := .endIf, inouts := [], index := 3, arity := by decide }]

theorem interleaves_instrument_valueInBranch :
    valueInBranch.code.check = .ok () ∧ valueInBranch.code.IsCountable ∧
    ∃ q hook load js σ runs, valueInBranch.instrument (.fresh 1) = .ok q ∧
      q.code.check = .ok () ∧ q.code = load :: js ∧ load.output? = some hook ∧
      Code.Interleaves σ valueInBranch.code runs js ∧
      List.Forall₂ (fun i run => i.ReportRun hook σ run) valueInBranch.code runs := by
  have hcheck : valueInBranch.code.check = .ok () := rfl
  have hcount : ∀ i ∈ valueInBranch.code, i.op.isCountable = true := by decide
  obtain ⟨q, hook, load, js, σ, runs, hq, hsound, hcode, -, hhook, -, hinterleaves, hruns, -⟩ :=
    (interleaves_instrument hcheck hcount (.fresh 1)).1 (by decide)
  exact ⟨hcheck, hcount, q, hook, load, js, σ, runs, hq, hsound, hcode, hhook, hinterleaves, hruns⟩

/-! ## Programs that are too long -/

/-- So many values, each of them null. -/
def nulls (n : Nat) : Program where
  id := .fresh 0
  code := (List.range n).map fun k =>
    { op := .loadNull, inouts := [⟨k⟩], index := k, arity := rfl }

theorem declared_nulls (n : Nat) : (nulls n).code.declared = (List.range n).map Variable.mk := by
  unfold nulls Code.declared
  rw [List.flatMap_map, List.map_eq_flatMap]
  rfl

theorem isCountable_nulls (n : Nat) : (nulls n).code.IsCountable := by
  intro i hi
  obtain ⟨k, -, rfl⟩ := List.mem_map.mp hi
  rfl

theorem wellNested_of_loadNull {f l : Bool} {vs : List Variable} (h : ∀ i ∈ is, i.op = .loadNull) :
    WellNested (.body f l) vs is := by
  induction is generalizing vs with
  | nil => exact .done
  | cons i is ih =>
    obtain ⟨hi, his⟩ := List.forall_mem_cons.mp h
    refine .instruction ?_ ?_ (by rw [hi]; exact nofun) (by rw [hi]; exact nofun) (ih his)
    · simp only [Instruction.isBlock, Instruction.isBlockStart, Instruction.isBlockEnd,
        Instruction.has, Instruction.shape, hi]
      rfl
    · have hinputs : i.inputs = [] := by
        simp only [Instruction.inputs, Instruction.shape, hi]
        rfl
      rw [hinputs]
      exact List.nil_subset _

theorem check_nulls {n : Nat} (h : n < Variable.limit) : (nulls n).code.check = .ok () := by
  have hlength : (nulls n).code.length = n := by simp [nulls]
  have hdeclared : (nulls n).code.declared.length = n := by simp [declared_nulls]
  have hdense : (nulls n).code.Dense 0 0 := by
    refine ⟨?_, ?_, ?_⟩
    · rw [hlength, ← List.range_eq_range', nulls, List.map_map]
      exact List.map_id _
    · rw [hdeclared, ← List.range_eq_range', declared_nulls, List.map_map]
      exact List.map_id _
    · rwa [hdeclared, Nat.zero_add]
  refine Code.check_of_wellNested (wellNested_of_loadNull fun i hi => ?_) hdense
  obtain ⟨k, -, rfl⟩ := List.mem_map.mp hi
  rfl

theorem need_nulls (n : Nat) : (nulls n).need = 1 + (n + 2 * n) := by
  have hreports : (nulls n).code.countP Instruction.isObservable = n := by
    have hall : ∀ i ∈ (nulls n).code, i.isObservable = true := by
      intro i hi
      obtain ⟨k, -, rfl⟩ := List.mem_map.mp hi
      rfl
    rw [List.countP_eq_length.mpr hall]
    simp [nulls]
  rw [need, hreports, ← Code.length_declared, declared_nulls, List.length_map, List.length_range]

/-- The values of a program that passes the check may be too many to be reported. -/
theorem instrument_nulls : (nulls 1431655765).code.check = .ok () ∧
    (nulls 1431655765).instrument (.fresh 1) = .error .exhausted := by
  have hcheck : (nulls 1431655765).code.check = .ok () := check_nulls (by decide)
  refine ⟨hcheck, instrument_eq_exhausted ⟨hcheck, isCountable_nulls _⟩ ?_ _⟩
  rw [need_nulls]
  decide

end Program

end ScriptFuzz
