import ScriptFuzz.Proofs.Builder.Interleaving
import ScriptFuzz.Proofs.Fuzzing.Contributors
import ScriptFuzz.Proofs.Mutation.Synthesis

/-!
# Mutants that follow up values extend their origin

What is added to follow up a value is a row of statements and guarded regions, at the level of nesting of
the value (`FollowUp.lasting_grows`). So a mutant holds the instructions of its origin, renamed, with such
rows behind the values that were selected (`FollowUp.interleaves_synthesize`).
-/

namespace ScriptFuzz

set_option autoImplicit false

/-- A row of statements and of guarded regions with such rows in them. -/
inductive Code.Level : Code → Prop where
  | nil : Level []
  | statement {i : Instruction} {c : Code} (hi : i.isBlock = false) (hc : Level c) : Level (i :: c)
  | guarded {head middle last : Instruction} {body c : Code} (hhead : head.op = .beginTry)
    (hmiddle : middle.op = .beginCatch) (hlast : last.op = .endTryCatchFinally)
    (hbody : Level body) (hc : Level c) : Level (head :: (body ++ middle :: last :: c))

theorem Code.Level.append {c d : Code} (hc : c.Level) (hd : d.Level) : Code.Level (c ++ d) := by
  induction hc with
  | nil => exact hd
  | statement hi _ ih => exact .statement hi ih
  | @guarded head middle last body c hhead hmiddle hlast hbody _ _ ih =>
    have hrow := Level.guarded hhead hmiddle hlast hbody ih
    rwa [List.cons_append, List.append_assoc]

namespace Builder

open Constructing

/-- A row of statements and guarded regions has been added. -/
def Grows (b b' : Builder) : Prop := ∃ run, Code.Level run ∧ b.Added run b'

variable {b b₀ b' : Builder} {op : Operation}

theorem grows_refl (b : Builder) : b.Grows b := ⟨[], .nil, .refl b⟩

theorem keptBy_grows (hplain : IsPlain op) : KeptBy b₀.Grows op := by
  rintro b inputs r ⟨run, hlevel, hadded⟩ he
  obtain ⟨j, hop, -, -, hj⟩ := added_emit he
  have hblock : j.isBlock = false := by
    rw [← hop] at hplain
    exact Bool.or_eq_false_iff.mpr ⟨hplain.start, hplain.isEnd⟩
  exact ⟨run ++ [j], hlevel.append (.statement hblock .nil), hadded.trans hj⟩

section

variable {m : Type → Type} [Monad m] [MonadStateOf Builder m] [MonadExceptOf Fault m]
  [Building m]

theorem gives_tryCatch_added {body : m Unit} {I : Builder → Prop} {P : Code → Code → Prop}
    (htry : KeptBy I .beginTry) (hcatch : KeptBy I .beginCatch)
    (hend : KeptBy I .endTryCatchFinally)
    (hP : ∀ c d run, P c run → P (c ++ d) run) (hb : I b)
    (hbody : ∀ b : Builder, I b →
      Gives body b fun _ b' => I b' ∧ ∃ inner, b.Added inner b' ∧ P b'.code inner) :
    Gives (Build.tryCatch body fun _ => Pure.pure ()) b fun _ b' => I b' ∧
      ∃ head inner middle last, head.op = .beginTry ∧ middle.op = .beginCatch ∧
        last.op = .endTryCatchFinally ∧ b.Added (head :: (inner ++ [middle, last])) b' ∧
        P b'.code inner := by
  apply Constructing.bind
  apply gives_emit_
  intro _ b₁ he₁
  apply Constructing.bind
  apply Constructing.mono (hbody b₁ (htry b [] _ hb he₁))
  rintro _ b₂ ⟨hb₂, inner, hadded₂, hinner⟩
  apply Constructing.bind
  apply gives_emitOne
  intro _ _ b₃ he₃
  apply Constructing.bind
  apply Constructing.pure
  apply gives_emit_
  intro _ b₄ he₄
  have hb₃ : I b₃ := hcatch b₂ [] _ hb₂ he₃
  obtain ⟨head, hhead, -, -, hadded₁⟩ := added_emit he₁
  obtain ⟨middle, hmiddle, -, -, hadded₃⟩ := added_emit he₃
  obtain ⟨last, hlast, -, -, hadded₄⟩ := added_emit he₄
  refine ⟨hend b₃ [] _ hb₃ he₄, head, inner, middle, last, hhead, hmiddle, hlast, ?_, ?_⟩
  · exact hadded₁.trans (hadded₂.trans (hadded₃.trans hadded₄))
  · have hcode : b₄.code = b₂.code ++ ([middle] ++ [last]) := (hadded₃.trans hadded₄).code
    rw [hcode]
    exact hP _ _ _ hinner

/-- A guarded region may be added where its body adds a row. -/
theorem preserves_tryCatch_grows {body : m Unit}
    (hbody : ∀ b : Builder, Preserves b.Grows body fun _ => True) :
    Preserves b₀.Grows (Build.tryCatch body fun _ => Pure.pure ()) fun _ => True := by
  rintro b ⟨run, hlevel, hadded⟩
  have hregion : Gives (Build.tryCatch body fun _ => Pure.pure ()) b fun _ b' => True ∧
      ∃ head inner middle last, head.op = .beginTry ∧ middle.op = .beginCatch ∧
        last.op = .endTryCatchFinally ∧ b.Added (head :: (inner ++ [middle, last])) b' ∧
        Code.Level inner := by
    apply gives_tryCatch_added (I := fun _ => True) (P := fun _ => Code.Level)
      (fun _ _ _ _ _ => trivial) (fun _ _ _ _ _ => trivial) (fun _ _ _ _ _ => trivial)
      (fun _ _ _ h => h) trivial
    intro b₁ _
    apply Constructing.mono (hbody b₁ b₁ (grows_refl b₁))
    rintro _ b₂ ⟨⟨inner, hinner, hadded₂⟩, -⟩
    exact ⟨trivial, inner, hadded₂, hinner⟩
  apply Constructing.mono hregion
  rintro _ b' ⟨-, head, inner, middle, last, hhead, hmiddle, hlast, hadded', hinner⟩
  exact ⟨⟨_, hlevel.append (.guarded hhead hmiddle hlast hinner .nil), hadded.trans hadded'⟩, trivial⟩

end

end Builder

namespace FollowUp

open Builder Constructing

variable {s : MutationSettings} {e : Environment} {o : Observed} {selected : List Nat} {is : Code}
  {b b₀ : Builder}

theorem IsCall.isPlain {names : String → Prop} {n : Nat} {op : Operation} (h : IsCall names n op) :
    IsPlain op := by
  cases h <;> exact ⟨rfl, rfl, rfl⟩

/-- Following up a value adds a row of statements and guarded regions. -/
theorem lasting_grows (b₀ : Builder) : Lasting b₀.Grows (IsCall fun _ => True) where
  emit _ hplain _ _ := keptBy_grows hplain
  write _ _ _ := preserves_tryCatch_grows fun _ =>
    preserves_emit_ (keptBy_grows ⟨rfl, rfl, rfl⟩) _
  guarded op subject arguments hcall _ := by
    apply preserves_tryCatch_grows
    intro b
    apply preserves_get.bind
    intro _ _
    apply (preserves_emitOne (keptBy_grows ⟨rfl, rfl, rfl⟩) _).bind
    intro index _
    apply (preserves_emitOne (keptBy_grows hcall.isPlain) _).bind
    intro result _
    apply (preserves_reuseBuiltin (keptBy_grows ⟨rfl, rfl, rfl⟩)).bind
    intro hook _
    apply (preserves_emitOne (keptBy_grows ⟨rfl, rfl, rfl⟩) _).bind
    intro _ _
    exact preserves_pure trivial

/-- What is added behind a copy: a row, and nothing unless the instruction is selected and recorded. -/
structure FollowsUp (o : Observed) (selected : List Nat) (i : Instruction) (run : Code) : Prop where
  level : run.Level
  selected : run ≠ [] → i.index ∈ selected ∧ (o.record? i.index).isSome = true

theorem followsUp_nil (i : Instruction) : FollowsUp o selected i [] :=
  ⟨.nil, fun h => absurd rfl h⟩

theorem gives_interleaved_copyAll (hnew : is.DeclaresNew) :
    Gives (copyAll s e o selected is) b fun _ b' =>
      b.Interleaved (fun _ => FollowsUp o selected) is b' := by
  induction is generalizing b with
  | nil => exact Constructing.pure (interleaved_nil b)
  | cons i is ih =>
    have ih {b : Builder} := @ih b (hnew.sublist (List.sublist_cons_self i is))
    unfold copyAll
    apply Constructing.bind
    apply gives_adoptAs
    intro produced b₁ ha
    have hsilent : Gives (copyAll s e o selected is) b₁ fun _ b' =>
        b.Interleaved (fun _ => FollowsUp o selected) (i :: is) b' :=
      Constructing.mono ih fun _ _ h =>
        h.cons (fun _ _ _ _ h => h) hnew ha (.refl b₁) (followsUp_nil i)
    split
    · rename_i hselected
      split
      · split
        · rename_i r hr
          apply Constructing.bind
          apply gives_adopted
          intro w _
          apply Constructing.bind
          apply Constructing.mono
            (preserves_followUp s e (lasting_grows b₁)
              (fun _ _ hop => isCall_of_invokes hop fun _ _ => trivial) w b₁ (grows_refl b₁))
          rintro _ b₂ ⟨⟨run, hlevel, hadded⟩, -⟩
          refine Constructing.mono ih fun _ _ h =>
            h.cons (fun _ _ _ _ h => h) hnew ha hadded ⟨hlevel, fun _ => ⟨hselected, ?_⟩⟩
          rw [hr]
          rfl
        · exact hsilent
      · exact hsilent
    · exact hsilent

/-! ## Mutants -/

/-- The builder that the mutant is built in. -/
abbrev beginning (o : Observed) : Builder :=
  Builder.addContributor { derivedFrom o.program with contributors := o.program.contributors } name

/-- The steps of the synthesis once positions have been selected. -/
abbrev synthesizeFrom (s : MutationSettings) (e : Environment) (id : Uuid) (f : Frequencies)
    (o : Observed) (selected : List Nat) :
    ExceptT Fault (StateM Random) (Program × Frequencies) := do
  let ((_, f), b) ← ((copyAll s e o selected o.program.code).run f).run (beginning o)
  return (← liftExcept (b.finalize id), f)

theorem run_synthesize (id : Uuid) (f : Frequencies) (random : Random) :
    (synthesize s e id f o).run.run random =
      (synthesizeFrom s e id f o ((selectPositions s o).run random).1).run.run
        ((selectPositions s o).run random).2 := rfl

theorem returns_synthesizeFrom (hcheck : o.program.code.check = .ok ()) (id : Uuid)
    (f : Frequencies) : Returns (synthesizeFrom s e id f o selected) fun r =>
      r.1.parent = some o.program.id ∧
      r.1.contributors = Ordered.insert name o.program.contributors ∧
      ∃ σ runs, Code.Interleaves σ o.program.code runs r.1.code ∧
        List.Forall₂ (FollowsUp o selected) o.program.code runs := by
  have hcopy : Gives (copyAll s e o selected o.program.code) (beginning o) fun _ b =>
      (beginning o).Interleaved (fun _ => FollowsUp o selected) o.program.code b :=
    gives_interleaved_copyAll (Code.declaresNew_of_check hcheck)
  refine Finishes.bind (finishes_assembly (hcopy f)) ?_
  rintro ⟨⟨_, f'⟩, b⟩ hb
  refine Finishes.bind (P := fun q => q.parent = b.parent ∧ q.contributors = b.contributors ∧
    q.code = b.code) (returns_liftExcept fun q hq => ?_) ?_
  · rw [eq_of_finalize hq]
    exact ⟨rfl, rfl, rfl⟩
  · rintro q ⟨hparent, hcontributors, hcode⟩
    apply finishes_pure
    obtain ⟨js, runs, hjs, hinterleaves, hruns⟩ := hb.code
    refine ⟨hparent.trans hb.parent, hcontributors.trans hb.contributors, b.renamed, runs, ?_, hruns⟩
    rw [hcode, show b.code = js from hjs]
    exact hinterleaves

/-- A mutant of an observed program holds the instructions of the program in order, renamed in one way
that tells variables apart. Everything else stands behind an instruction that was selected and recorded,
as a row of statements and guarded regions. The mutant is checked, its parent is the program, and the
mutator is listed beside the contributors of the program. It is completed unless following up every
recorded value may take more numbers for variables than there are. -/
theorem interleaves_synthesize (hcheck : o.program.code.check = .ok ())
    (hcount : o.program.code.IsCountable)
    (hrecords : ∀ i ∈ o.program.code, ∀ r, o.record? i.index = some r →
      i.isObservable = true ∧ r.IsBounded)
    (hs : s.reuseProbability.isNaN = false) (id : Uuid) (f : Frequencies) (random : Random) :
    (∃ q f' σ runs, ((synthesize s e id f o).run.run random).1 = .ok (q, f') ∧
      q.code.check = .ok () ∧ q.parent = some o.program.id ∧
      q.contributors = Ordered.insert name o.program.contributors ∧
      Set.InjOn σ o.program.code.occurring ∧ Code.Interleaves σ o.program.code runs q.code ∧
      List.Forall₂ (FollowsUp o ((selectPositions s o).run random).1) o.program.code runs) ∨
    ∃ fault, ((synthesize s e id f o).run.run random).1 = .error fault ∧
      fault.isShortage = true ∧ Variable.limit ≤ o.need := by
  have hfinishes := finishes_synthesize (e := e) hs ⟨hcheck, hcount⟩ (fun i hi r hr => ?_) id f
  · rcases Fault.ends_iff_exists.mp (hfinishes random) with ⟨⟨q, f'⟩, hq, hsound⟩ | hfault
    · have hfrom := hq
      rw [run_synthesize] at hfrom
      obtain ⟨hparent, hcontributors, σ, runs, hinterleaves, hruns⟩ :=
        (returns_synthesizeFrom hcheck id f).result hfrom
      obtain ⟨hσ, -⟩ := hinterleaves.injOn hcheck (Code.nodup_declared_of_check hsound.check)
      exact .inl ⟨q, f', σ, runs, hq, hsound.check, hparent, hcontributors, hσ, hinterleaves, hruns⟩
    · exact .inr hfault
  · obtain ⟨hobservable, hbounded⟩ := hrecords i hi r hr
    obtain ⟨hone, hclass⟩ := Program.observable_eq hobservable
    exact ⟨hone, hclass, hbounded⟩

/-- A record of the one value of a program describes an ordinary instruction. -/
theorem isObservable_of_oneValue {r : Record} (hr : r.IsBounded) :
    ∀ i ∈ oneValue.code, ∀ r', Observed.record? ⟨oneValue, [(0, r)]⟩ i.index = some r' →
      i.isObservable = true ∧ r'.IsBounded := by
  intro i hi r' hr'
  cases List.mem_singleton.mp hi
  cases hr'
  exact ⟨rfl, hr⟩

/-- A callable value is followed up by a call of it. -/
theorem interleaves_synthesize_callable :
    ∃ q f' σ runs, calls = .ok (q, f') ∧ q.code.check = .ok () ∧
      q.parent = some oneValue.id ∧ q.contributors = [name] ∧
      Set.InjOn σ oneValue.code.occurring ∧ Code.Interleaves σ oneValue.code runs q.code := by
  let o : Observed := { program := oneValue, records := [(0, callableRecord)] }
  have hcheck : o.program.code.check = .ok () := rfl
  have hcount : ∀ i ∈ o.program.code, i.op.isCountable = true := by decide
  have hbounded : callableRecord.IsBounded := by
    refine ⟨?_, nofun⟩
    rintro n hn
    cases hn
    decide
  rcases interleaves_synthesize (s := {}) (e := .ofBuiltins []) hcheck hcount
    (isObservable_of_oneValue hbounded) (by decide +kernel) default [] { word := fun _ => 0 } with
    ⟨q, f', σ, runs, hq, hsound, hparent, hcontributors, hσ, hinterleaves, -⟩ | ⟨_, -, -, hlimit⟩
  · exact ⟨q, f', σ, runs, hq, hsound, hparent, hcontributors, hσ, hinterleaves⟩
  · exact absurd hlimit (by decide)

/-- A value that is said to take more arguments than fit in memory. -/
def greedyRecord : Record := { callableRecord with arity := some (2 ^ 62) }

/-- The arguments of a call are collected before anything is known of their number. -/
theorem synthesize_greedyRecord : oneValue.code.check = .ok () ∧ greedyRecord.IsBounded ∧
    (∀ i ∈ oneValue.code, ∀ r, Observed.record? ⟨oneValue, [(0, greedyRecord)]⟩ i.index = some r →
      i.isObservable = true ∧ r.IsBounded) ∧
    ((synthesize {} (.ofBuiltins []) default [] ⟨oneValue, [(0, greedyRecord)]⟩).run.run
      { word := fun _ => 0 }).1 = .error .oversized := by
  have hbounded : greedyRecord.IsBounded := by
    refine ⟨?_, nofun⟩
    rintro n hn
    cases hn
    decide
  exact ⟨rfl, hbounded, isObservable_of_oneValue hbounded, by decide +kernel⟩

end FollowUp

end ScriptFuzz
