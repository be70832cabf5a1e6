import ScriptFuzz.Proofs.Mutation.Extension
import ScriptFuzz.Proofs.Mutation.Guards

/-!
# Added calls report themselves

What follows up a value is a row of harmless statements and of guarded regions, and a region holds a
write or a call with its report (`Code.Row`). A call is reported at the position that it has in the
mutant: the position is a number that the region loads before the call is there, and nothing that is
added later stands before it. So every call that is added to a program is guarded and reports its own
value at its own position (`FollowUp.reports_synthesize`).
-/

namespace ScriptFuzz

set_option autoImplicit false

open Code Builder Constructing

/-- Whether the operation calls a value or one of its methods, and not to report a value. -/
def Operation.calls : Operation → Bool
  | callFunction _ | construct _ => true
  | callMethod name _ => name ≠ Hook.recordMethod
  | _ => false

/-- Whether the operation writes to a field. -/
def Operation.writes : Operation → Bool
  | setProperty _ => true
  | _ => false

theorem Operation.not_calls_of_acts {op : Operation} (h : op.acts = false) :
    op.calls = false ∧ op.writes = false := by
  cases op <;> first | exact ⟨rfl, rfl⟩ | cases h

theorem Operation.not_calls_of_writes {op : Operation} (h : op.writes = true) : op.calls = false := by
  cases op <;> first | rfl | cases h

theorem Record.Invokes.not_writes {r : Record} {n : Nat} {op : Operation} (h : r.Invokes n op) :
    op.writes = false := by
  cases h <;> rfl

namespace Code

/-- The code holds a guarded region with this body and an empty handler. -/
def Shields (c body : Code) : Prop :=
  ∃ before head middle last after, c = before ++ head :: (body ++ middle :: last :: after) ∧
    head.op = .beginTry ∧ middle.op = .beginCatch ∧ last.op = .endTryCatchFinally

/-- A body is a call between the load of its position and its report, with a load of the hook where
it is needed. The report names the value of the call and the position. -/
structure Reporting (c : Code) (r : Record) (x : Instruction) (body : Code) : Prop where
  parts : ∃ load more report hook value index, body = load :: x :: (more ++ [report]) ∧
    load.op = .loadInteger (Int64.ofNat x.index) ∧
    (more = [] ∨ ∃ l, more = [l] ∧ l.op = .loadBuiltin Hook.builtinName) ∧
    report.op = .callMethod Hook.recordMethod 2 ∧ report.inputs = [hook, value, index] ∧
    x.outputs = [value] ∧ load.outputs = [index] ∧
    ∃ l, c.declarer? hook = some l ∧ l.op = .loadBuiltin Hook.builtinName
  invited : ∃ n, r.Invokes n x.op

theorem Reporting.append {c : Code} {r : Record} {x : Instruction} {body : Code}
    (h : Reporting c r x body) (d : Code) : Reporting (c ++ d) r x body := by
  obtain ⟨⟨load, more, report, hook, value, index, hbody, hload, hmore, hreport, hinputs, hvalue,
    hindex, l, hl, hop⟩, hinvited⟩ := h
  exact ⟨⟨load, more, report, hook, value, index, hbody, hload, hmore, hreport, hinputs, hvalue,
    hindex, l, declarer?_append hl, hop⟩, hinvited⟩

/-- The body of a guarded region: a write, or a call that reports itself. -/
inductive Guarding (c : Code) (r : Record) : Code → Prop
  | write {x : Instruction} (hx : x.op.writes = true) : Guarding c r [x]
  | call {x : Instruction} {body : Code} (h : Reporting c r x body) : Guarding c r body

/-- A row of statements that neither call nor write, and of guarded regions. -/
inductive Row (c : Code) (r : Record) : Code → Prop
  | nil : Row c r []
  | statement {i : Instruction} {rest : Code} (hi : i.op.acts = false) (h : Row c r rest) :
    Row c r (i :: rest)
  | guarded {head middle last : Instruction} {body rest : Code} (hhead : head.op = .beginTry)
    (hmiddle : middle.op = .beginCatch) (hlast : last.op = .endTryCatchFinally)
    (hbody : Guarding c r body) (h : Row c r rest) :
    Row c r (head :: (body ++ middle :: last :: rest))

variable {c d run run' body : Code} {r : Record} {x : Instruction}

theorem Guarding.append (h : Guarding c r body) (d : Code) : Guarding (c ++ d) r body := by
  cases h with
  | write hx => exact .write hx
  | call h => exact .call (h.append d)

theorem Row.mono (h : Row c r run) (d : Code) : Row (c ++ d) r run := by
  induction h with
  | nil => exact .nil
  | statement hi _ ih => exact .statement hi ih
  | guarded hhead hmiddle hlast hbody _ ih =>
    exact .guarded hhead hmiddle hlast (hbody.append d) ih

theorem Row.append (h : Row c r run) (h' : Row c r run') : Row c r (run ++ run') := by
  induction h with
  | nil => exact h'
  | statement hi _ ih => exact .statement hi ih
  | guarded hhead hmiddle hlast hbody _ ih =>
    have hrow := Row.guarded hhead hmiddle hlast hbody ih
    rwa [List.cons_append, List.append_assoc]

theorem Shields.append_left (h : Shields c body) (d : Code) : Shields (d ++ c) body := by
  obtain ⟨before, head, middle, last, after, rfl, hops⟩ := h
  exact ⟨d ++ before, head, middle, last, after, (List.append_assoc _ _ _).symm, hops⟩

/-- The instruction is guarded if it is a call or a write; a call reports itself. -/
structure Guards (c : Code) (r : Record) (run : Code) (x : Instruction) : Prop where
  call : x.op.calls = true → ∃ body, Shields run body ∧ Reporting c r x body
  write : x.op.writes = true → Shields run [x]

theorem Guards.append_left (h : Guards c r run x) (d : Code) : Guards c r (d ++ run) x where
  call hx := (h.call hx).imp fun _ hbody => ⟨hbody.1.append_left d, hbody.2⟩
  write hx := (h.write hx).append_left d

theorem guards_of_not_acts (h : x.op.calls = false ∧ x.op.writes = false) : Guards c r run x := by
  refine ⟨fun hx => ?_, fun hx => ?_⟩
  · rw [h.1] at hx
    cases hx
  · rw [h.2] at hx
    cases hx

/-- In the body of a region, only the call or the write itself needs the guard. -/
theorem Guarding.guards (h : Guarding c r body) (hshields : Shields run body) (hx : x ∈ body) :
    Guards c r run x := by
  cases h with
  | write hy =>
    obtain rfl := List.mem_singleton.mp hx
    refine ⟨fun hcalls => ?_, fun _ => hshields⟩
    rw [Operation.not_calls_of_writes hy] at hcalls
    cases hcalls
  | @call y _ h =>
    obtain ⟨load, more, report, _, _, _, rfl, hload, hmore, hreport, -⟩ := h.parts
    rcases List.mem_cons.mp hx with rfl | hx
    · apply guards_of_not_acts
      rw [hload]
      exact ⟨rfl, rfl⟩
    rcases List.mem_cons.mp hx with rfl | hx
    · refine ⟨fun _ => ⟨_, hshields, h⟩, fun hwrites => ?_⟩
      obtain ⟨n, hinvokes⟩ := h.invited
      rw [hinvokes.not_writes] at hwrites
      cases hwrites
    apply guards_of_not_acts
    rcases List.mem_append.mp hx with hx | hx
    · obtain rfl | ⟨l, rfl, hl⟩ := hmore
      · cases hx
      · obtain rfl := List.mem_singleton.mp hx
        rw [hl]
        exact ⟨rfl, rfl⟩
    · obtain rfl := List.mem_singleton.mp hx
      rw [hreport]
      exact ⟨by decide, rfl⟩

theorem Row.guards (h : Row c r run) (hx : x ∈ run) : Guards c r run x := by
  induction h with
  | nil => cases hx
  | @statement i rest hi _ ih =>
    rcases List.mem_cons.mp hx with rfl | hx
    · exact guards_of_not_acts (Operation.not_calls_of_acts hi)
    · exact (ih hx).append_left [i]
  | @guarded head middle last body rest hhead hmiddle hlast hbody _ ih =>
    have hshields : Shields (head :: (body ++ middle :: last :: rest)) body :=
      ⟨[], head, middle, last, rest, rfl, hhead, hmiddle, hlast⟩
    rcases List.mem_cons.mp hx with rfl | hx
    · apply guards_of_not_acts
      rw [hhead]
      exact ⟨rfl, rfl⟩
    rcases List.mem_append.mp hx with hx | hx
    · exact hbody.guards hshields hx
    rcases List.mem_cons.mp hx with rfl | hx
    · apply guards_of_not_acts
      rw [hmiddle]
      exact ⟨rfl, rfl⟩
    rcases List.mem_cons.mp hx with rfl | hx
    · apply guards_of_not_acts
      rw [hlast]
      exact ⟨rfl, rfl⟩
    · have hrest := (ih hx).append_left (head :: (body ++ [middle, last]))
      simpa only [List.cons_append, List.append_assoc, List.nil_append] using hrest

end Code

/-! ## Regions that are added -/

namespace Builder

variable {b b₀ b' : Builder} {op : Operation} {r : Record}

/-- A row has been added, and the builder can look up declarations. -/
structure Rows (r : Record) (b₀ b : Builder) : Prop extends Traced b where
  row : ∃ run, b₀.Added run b ∧ Code.Row b.code r run

theorem rows_refl (h : b.Traced) : Rows r b b := ⟨h, [], .refl b, .nil⟩

theorem keptBy_traced (op : Operation) : KeptBy Traced op := fun _ _ _ hb he => hb.emit he

theorem keptBy_rows (hacts : op.acts = false) : KeptBy (Rows r b₀) op := by
  rintro b inputs s ⟨hb, run, hadded, hrow⟩ he
  obtain ⟨j, hop, -, -, hj⟩ := added_emit he
  refine ⟨hb.emit he, run ++ [j], hadded.trans hj, ?_⟩
  rw [hj.code]
  rw [← hop] at hacts
  exact (hrow.mono [j]).append (.statement hacts .nil)

section

variable {m : Type → Type} [Monad m] [MonadStateOf Builder m] [MonadExceptOf Fault m]
  [Building m]

/-- A region whose body guards something extends the row. -/
theorem preserves_tryCatch_rows {body : m Unit}
    (hbody : ∀ b : Builder, b.Traced → Gives body b fun _ b' => b'.Traced ∧
      ∃ inner, b.Added inner b' ∧ Code.Guarding b'.code r inner) :
    Preserves (Rows r b₀) (Build.tryCatch body fun _ => Pure.pure ()) fun _ => True := by
  rintro b ⟨hb, run, hadded, hrow⟩
  have hregion := gives_tryCatch_added (m := m) (P := fun c => Code.Guarding c r)
    (keptBy_traced .beginTry) (keptBy_traced .beginCatch) (keptBy_traced .endTryCatchFinally)
    (fun c d run h => h.append d) hb hbody
  apply Constructing.mono hregion
  rintro _ b' ⟨hb', head, inner, middle, last, hhead, hmiddle, hlast, hadded', hinner⟩
  refine ⟨⟨hb', _, hadded.trans hadded', ?_⟩, trivial⟩
  have hrow' := hrow.mono (head :: (inner ++ [middle, last]))
  rw [← hadded'.code] at hrow'
  exact hrow'.append (.guarded hhead hmiddle hlast hinner .nil)

end

end Builder

namespace FollowUp

variable {s : MutationSettings} {e : Environment} {o : Observed} {selected : List Nat} {is : Code}
  {b b₀ : Builder} {r : Record}

/-- The value that an instruction gives is its only output. -/
theorem outputs_of_emit {vs : List Variable} {v : Variable} {j : Instruction}
    (hj : j.allOutputs = v :: vs) (hop : j.op.shape.outputs = 1) : j.outputs = [v] := by
  unfold Instruction.outputs Instruction.shape
  rw [hj, hop]
  rfl

/-- The body of the guard of a call reports the call. -/
theorem gives_guarded_body {op : Operation} (inputs : List Variable)
    (hinvited : ∃ n, r.Invokes n op) (hone : op.shape.outputs = 1) (hb : b.Traced) :
    Gives (do
      let position := (← getThe Builder).nextIndex + 1
      let index ← Build.loadInt (Int64.ofNat position)
      let result ← Build.emitOne op inputs
      let hook ← Build.reuseBuiltin Hook.builtinName
      let _ ← Build.callMethod Hook.recordMethod hook [result, index]
      return () : Synthesis Unit) b fun _ b' => b'.Traced ∧
        ∃ inner, b.Added inner b' ∧ Code.Guarding b'.code r inner := by
  apply Constructing.bind
  apply Constructing.get
  apply Constructing.bind
  apply gives_emitOne
  intro index _ b₁ he₁
  apply Constructing.bind
  apply gives_emitOne
  intro result _ b₂ he₂
  have hb₂ : b₂.Traced := (hb.emit he₁).emit he₂
  apply Constructing.bind
  apply Constructing.mono (gives_reuseBuiltin_of_traced hb₂ _)
  rintro hook b₃ ⟨hb₃, ⟨l, hl, hop⟩, hreused⟩
  apply Constructing.bind
  apply gives_emitOne
  intro _ _ b₄ he₄
  apply Constructing.pure
  obtain ⟨load, hload, -, hindex, hadded₁⟩ := added_emit he₁
  obtain ⟨x, hx, -, hresult, hadded₂⟩ := added_emit he₂
  obtain ⟨report, hreport, hinputs, -, hadded₄⟩ := added_emit he₄
  -- The call stands where the load says that it will stand.
  have hposition : x.index = b.code.length + 1 := by
    have hlength : b₁.code.length = b.code.length + 1 := by
      rw [hadded₁.code, List.length_append, List.length_singleton]
    rw [← hlength]
    apply hb₂.index
    rw [hadded₂.code, List.getElem?_concat_length]
  -- The hook may be there already.
  obtain ⟨more, hmore, hadded₃⟩ : ∃ more, (more = [] ∨ ∃ l, more = [l] ∧
      l.op = .loadBuiltin Hook.builtinName) ∧ b₂.Added more b₃ := by
    rcases hreused with rfl | ⟨_, he₃⟩
    · exact ⟨[], .inl rfl, .refl _⟩
    · obtain ⟨l', hl', -, -, hadded⟩ := added_emit he₃
      exact ⟨[l'], .inr ⟨l', rfl, hl'⟩, hadded⟩
  refine ⟨hb₃.emit he₄, load :: x :: (more ++ [report]),
    hadded₁.trans (hadded₂.trans (hadded₃.trans hadded₄)), .call (x := x) ⟨?_, ?_⟩⟩
  · refine ⟨load, more, report, hook, result, index, rfl, ?_, hmore, hreport, hinputs, ?_, ?_, l,
      ?_, hop⟩
    · rw [hload, hposition]
      rfl
    · exact outputs_of_emit hresult (hx ▸ hone)
    · exact outputs_of_emit hindex (by rw [hload]; rfl)
    · rw [hadded₄.code]
      exact declarer?_append hl
  · rw [hx]
    exact hinvited

theorem outputs_of_invokes {n : Nat} {op : Operation} (h : r.Invokes n op) :
    op.shape.outputs = 1 := by
  cases h <;> rfl

/-- Following up a value adds a row of statements and guarded regions. -/
theorem lasting_rows (r : Record) (b₀ : Builder) :
    Lasting (Rows r b₀) fun n op => r.Invokes n op where
  emit _ _ _ hacts := keptBy_rows hacts
  write field object value := by
    apply preserves_tryCatch_rows
    intro b hb
    apply gives_emit_
    intro _ b' he
    obtain ⟨j, hop, -, -, hadded⟩ := added_emit he
    refine ⟨hb.emit he, [j], hadded, .write ?_⟩
    rw [hop]
    rfl
  guarded op subject arguments hinvokes _ :=
    preserves_tryCatch_rows fun _ hb =>
      gives_guarded_body _ ⟨_, hinvokes⟩ (outputs_of_invokes hinvokes) hb

/-- What is added behind a copy: nothing, or a row for the record of the instruction. -/
def FollowsRow (o : Observed) (c : Code) (i : Instruction) (run : Code) : Prop :=
  run = [] ∨ ∃ r, o.record? i.index = some r ∧ Code.Row c r run

theorem gives_rows_copyAll (hnew : is.DeclaresNew) (hb : b.Traced) :
    Gives (copyAll s e o selected is) b fun _ b' => b'.Traced ∧
      b.Interleaved (fun _ => FollowsRow o b'.code) is b' := by
  induction is generalizing b with
  | nil => exact Constructing.pure ⟨hb, interleaved_nil b⟩
  | cons i is ih =>
    have ih {b : Builder} := @ih b (hnew.sublist (List.sublist_cons_self i is))
    unfold copyAll
    apply Constructing.bind
    apply gives_adoptAs
    intro produced b₁ ha
    have hb₁ : b₁.Traced := by
      obtain ⟨_, b'', -, he, hr⟩ := exists_emit_of_adoptAs ha
      rw [show b₁ = _ from hr]
      exact (hb.emit he).congr rfl rfl rfl
    have hsilent : Gives (copyAll s e o selected is) b₁ fun _ b' => b'.Traced ∧
        b.Interleaved (fun _ => FollowsRow o b'.code) (i :: is) b' :=
      Constructing.mono (ih hb₁) fun _ _ h =>
        ⟨h.1, h.2.cons (fun _ _ _ _ h => h) hnew ha (.refl b₁) (.inl rfl)⟩
    split
    · split
      · split
        · rename_i r hr
          apply Constructing.bind
          apply gives_adopted
          intro w _
          apply Constructing.bind
          apply Constructing.mono (preserves_followUp s e (lasting_rows r b₁) (fun _ _ h => h) w b₁
            (rows_refl hb₁))
          rintro _ b₂ ⟨⟨hb₂, run, hadded, hrow⟩, -⟩
          apply Constructing.mono (ih hb₂)
          rintro _ b' ⟨hb', h⟩
          refine ⟨hb', h.cons (fun _ _ _ _ h => h) hnew ha hadded (.inr ⟨r, hr, ?_⟩)⟩
          obtain ⟨js, _, hcode, -⟩ := h.code
          rw [hcode]
          exact hrow.mono js
        · exact hsilent
      · exact hsilent
    · exact hsilent

/-! ## Mutants -/

/-- Every call and every write that is added behind a copy is guarded. Calls report themselves. -/
def ReportsCalls (o : Observed) (d : Code) (i : Instruction) (run : Code) : Prop :=
  ∀ x ∈ run, d[x.index]? = some x ∧ ∃ r, o.record? i.index = some r ∧ Code.Guards d r run x

theorem reportsCalls_of_followsRow {c run : Code} {i : Instruction} (h : FollowsRow o c i run)
    (hc : c.check = .ok ()) (hrun : run ⊆ c) : ReportsCalls o c i run := by
  intro x hx
  refine ⟨Code.getElem?_index hc (hrun hx), ?_⟩
  obtain rfl | ⟨r, hr, hrow⟩ := h
  · cases hx
  · exact ⟨r, hr, hrow.guards hx⟩

/-- Every call that a mutant holds beside the instructions of its origin is guarded by a region of its
own. The region loads the position that the call has in the mutant, and reports the value of the call
together with the position. The call fits the record of the value that is followed up. A write is
guarded, too. -/
theorem reports_synthesize (hcheck : o.program.code.check = .ok ()) {id : Uuid} {f f' : Frequencies}
    {random : Random} {q : Program}
    (h : ((synthesize s e id f o).run.run random).1 = .ok (q, f')) :
    q.code.check = .ok () ∧ ∃ σ runs, Set.InjOn σ o.program.code.occurring ∧
      Code.Interleaves σ o.program.code runs q.code ∧
      List.Forall₂ (ReportsCalls o q.code) o.program.code runs := by
  have hreturns : Returns (synthesizeFrom s e id f o ((selectPositions s o).run random).1) fun r =>
      r.1.code.check = .ok () ∧ ∃ σ runs, Code.Interleaves σ o.program.code runs r.1.code ∧
        List.Forall₂ (FollowsRow o r.1.code) o.program.code runs := by
    have hstart : (beginning o).Traced := traced_start.congr rfl rfl rfl
    have hcopy : Gives (copyAll s e o ((selectPositions s o).run random).1 o.program.code)
        (beginning o) fun _ b => b.Traced ∧
          (beginning o).Interleaved (fun _ => FollowsRow o b.code) o.program.code b :=
      gives_rows_copyAll (Code.declaresNew_of_check hcheck) hstart
    refine Finishes.bind (finishes_assembly (hcopy f)) ?_
    rintro ⟨⟨_, f'⟩, b⟩ ⟨-, hb⟩
    refine Finishes.bind (P := fun q => q.code.check = .ok () ∧ q.code = b.code)
      (returns_liftExcept fun q hq => ?_) ?_
    · rw [code_finalize hq]
      exact ⟨check_of_finalize hq, rfl⟩
    rintro q ⟨hchecked, hcode⟩
    apply finishes_pure
    obtain ⟨js, runs, hjs, hinterleaves, hruns⟩ := hb.code
    refine ⟨hchecked, b.renamed, runs, ?_, ?_⟩
    · rw [hcode, show b.code = js from hjs]
      exact hinterleaves
    · rw [hcode]
      exact hruns
  rw [run_synthesize] at h
  obtain ⟨hchecked, σ, runs, hinterleaves, hruns⟩ := hreturns.result h
  refine ⟨hchecked, σ, runs,
    (hinterleaves.injOn hcheck (Code.nodup_declared_of_check hchecked)).1, hinterleaves, ?_⟩
  have hparts := (List.forall₂_and_left _ _).mpr ⟨fun _ => hinterleaves.subset, hruns.flip⟩
  exact hparts.flip.imp fun _ _ h => reportsCalls_of_followsRow h.2 hchecked h.1

/-- A callable value is called, and the call reports itself. -/
theorem reports_synthesize_callable :
    ∃ q f' σ runs, calls = .ok (q, f') ∧ q.code.any (·.op.calls) = true ∧
      Code.Interleaves σ oneValue.code runs q.code ∧
      List.Forall₂ (ReportsCalls { program := oneValue, records := [(0, callableRecord)] } q.code)
        oneValue.code runs := by
  have hcalls : (match calls with
      | .ok (q, _) => q.code.any (·.op.calls)
      | .error _ => false) = true := by decide +kernel
  cases hresult : calls with
  | error fault =>
    rw [hresult] at hcalls
    cases hcalls
  | ok result =>
    obtain ⟨q, f'⟩ := result
    rw [hresult] at hcalls
    obtain ⟨-, σ, runs, -, hinterleaves, hruns⟩ :=
      reports_synthesize (o := { program := oneValue, records := [(0, callableRecord)] }) rfl hresult
    exact ⟨q, f', σ, runs, rfl, hcalls, hinterleaves, hruns⟩

end FollowUp

end ScriptFuzz
