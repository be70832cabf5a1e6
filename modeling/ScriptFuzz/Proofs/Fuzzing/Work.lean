import ScriptFuzz.Mutation.Mutator
import ScriptFuzz.Proofs.Mutation.Alteration
import ScriptFuzz.Proofs.Mutation.Synthesis
import ScriptFuzz.Proofs.Program.Instrumentation
import ScriptFuzz.Proofs.Program.Pruning

/-!
# Steps of a worker

`Works J S L y Q` says what a step adds to a transcript of executions: from a state to which the
transcript `L` belongs, the step goes to a state to which a longer one belongs, with a result that
satisfies `Q`, or with a shortage of which the longer transcript satisfies `S`. Transcripts only grow,
so what is known of executed programs stays known.

With a faithful executor every step of a worker that is given sound programs executes sound programs
only and gives sound programs. Where it falls short, the transcript tells of what (`FallsShort`).
-/

namespace ScriptFuzz

set_option autoImplicit false

variable {σ : Type}

/-! ## Executors -/

/-- The records that are about instructions of the observed program are about ordinary instructions
with one output, and the stated arities leave room. -/
def Execution.Describes (e : Execution) (p : Program) : Prop :=
  ∀ r ∈ Record.ofStream e.fuzzout, ∀ i, p.code[r.index]? = some i →
    i.isObservable = true ∧ r.IsBounded

/-- The execution describes what it is an observation of. -/
def Execution.IsFaithful (e : Execution) (executed : Program) : Prop :=
  ∀ (p : Program) (id : Uuid), p.code.IsSound → p.instrument id = .ok executed → e.Describes p

/-- What an executor was asked to run and what came of it, the latest last. -/
abbrev Transcript := List (Program × Except Fault Execution)

namespace Executor

def answer (x : Executor σ) (p : Program) (milliseconds : Nat) (s : σ) :
    Except Fault Execution × σ :=
  (x.execute p milliseconds).run.run s

/-- The executor answers whenever it is to run a sound program, and its answers are faithful. -/
def IsFaithful (x : Executor σ) : Prop :=
  ∀ (p : Program) (milliseconds : Nat) (s : σ), p.code.IsSound →
    ∃ e, (x.answer p milliseconds s).1 = .ok e ∧ e.IsFaithful p

/-- The executor with a transcript of what it was asked to run. -/
def recording (x : Executor σ) : Executor (σ × Transcript) where
  execute p milliseconds := ExceptT.mk fun s =>
    let (r, next) := x.answer p milliseconds s.1
    (r, next, s.2 ++ [(p, r)])
  reset := fun s => ((), (x.reset.run s.1).2, s.2)

theorem answer_recording (x : Executor σ) (p : Program) (milliseconds : Nat) (s : σ × Transcript) :
    x.recording.answer p milliseconds s =
      ((x.answer p milliseconds s.1).1, (x.answer p milliseconds s.1).2,
        s.2 ++ [(p, (x.answer p milliseconds s.1).1)]) := rfl

end Executor

namespace Fuzzing

theorem run_execute (f : Fuzzer σ) (p : Program) :
    (execute p).run.run f =
      ((f.executor.answer p f.settings.timeoutMilliseconds f.target).1,
        { f with
          target := (f.executor.answer p f.settings.timeoutMilliseconds f.target).2 }) := by
  unfold Executor.answer
  have hget : (getThe (Fuzzer σ) : Fuzzing σ (Fuzzer σ)).run.run f = (.ok f, f) := rfl
  rw [execute, run_bind_of_run, hget]
  simp only
  cases (f.executor.execute p f.settings.timeoutMilliseconds).run.run f.target with
  | mk r target => cases r <;> rfl

end Fuzzing

/-! ## Transcripts -/

namespace Transcript

variable {L L' : Transcript} {p q : Program} {o : Observed}

/-- A sound program that takes no more numbers to instrument than one that was executed. -/
structure Fits (L : Transcript) (p : Program) : Prop where
  sound : p.code.IsSound
  covered : ∃ e ∈ L, p.need ≤ e.1.need

theorem Fits.mono (h : L.Fits p) (hL : L <+: L') : L'.Fits p :=
  have ⟨e, he, hneed⟩ := h.covered
  ⟨h.sound, e, hL.subset he, hneed⟩

theorem Fits.le (h : L.Fits p) (hq : q.code.IsSound) (hneed : q.need ≤ p.need) : L.Fits q :=
  have ⟨e, he, hle⟩ := h.covered
  ⟨hq, e, he, Nat.le_trans hneed hle⟩

theorem fits_of_mem {r : Except Fault Execution} (hp : p.code.IsSound) (h : (p, r) ∈ L) : L.Fits p :=
  ⟨hp, _, h, Nat.le_refl _⟩

/-- The observation was made of the program by an execution of its instrumented copy. -/
def Shows (L : Transcript) (p : Program) (o : Observed) : Prop :=
  ∃ q id e, (q, .ok e) ∈ L ∧ p.instrument id = .ok q ∧ p.reflectOn e = some o

theorem Shows.mono (h : L.Shows p o) (hL : L <+: L') : L'.Shows p o :=
  have ⟨q, id, e, hmem, hrest⟩ := h
  ⟨q, id, e, hL.subset hmem, hrest⟩

end Transcript

/-- What a worker runs short of: memory, if it may be asked for more alterations than fit in it, or
numbers for variables. -/
inductive FallsShort (s : MutationSettings) (L : Transcript) : Prop
  | alterations (h : Alteration.capacity ≤ s.maxAlterations)
  /-- A copy of an executed program with reports, or behind a preamble, may take more numbers than
  there are. -/
  | numbers {p : Program} {r : Except Fault Execution} (hp : (p, r) ∈ L)
    (h : Variable.limit ≤ p.need + 2)
  /-- Following up the observed values of a program may take more numbers than there are. -/
  | followUp {p : Program} {o : Observed} (ho : L.Shows p o) (h : Variable.limit ≤ o.need)

theorem Transcript.Fits.fallsShort {s : MutationSettings} {L : Transcript} {p : Program}
    (h : L.Fits p) (hlimit : Variable.limit ≤ p.need + 2) : FallsShort s L := by
  obtain ⟨⟨q, r⟩, hq, hle⟩ := h.covered
  exact .numbers hq (Nat.le_trans hlimit (Nat.add_le_add_right hle 2))

/-! ## Steps -/

section

variable {τ α β : Type} {J : Transcript → τ → Prop} {S : Transcript → Prop} {L : Transcript}
  {y : ExceptT Fault (StateM τ) α} {f : α → ExceptT Fault (StateM τ) β}
  {P Q : α → Transcript → Prop} {R : β → Transcript → Prop}

/-- A transcript of which a condition holds belongs to the state, and begins with the given one. -/
def Grown (J : Transcript → τ → Prop) (L : Transcript) (s : τ) (P : Transcript → Prop) : Prop :=
  ∃ L', L <+: L' ∧ J L' s ∧ P L'

/-- The step goes from a state to which the transcript belongs to one to which a longer one belongs. It
ends in a result that satisfies one condition, or in a shortage that satisfies another. -/
def Works (J : Transcript → τ → Prop) (S : Transcript → Prop) (L : Transcript)
    (y : ExceptT Fault (StateM τ) α) (Q : α → Transcript → Prop) : Prop :=
  ∀ s, J L s → Fares y s (fun a s' => Grown J L s' (Q a)) fun e s' =>
    Grown J L s' fun L' => e.isShortage = true ∧ S L'

theorem works_pure {a : α} (h : Q a L) : Works J S L (pure a) Q := fun _ hs =>
  fares_pure ⟨L, List.prefix_rfl, hs, h⟩

theorem Works.mono (h : Works J S L y P) (hQ : ∀ a L', L <+: L' → P a L' → Q a L') :
    Works J S L y Q := by
  intro s hs
  refine (h s hs).mono ?_ fun _ _ he => he
  rintro a s' ⟨L', hL, hs', ha⟩
  exact ⟨L', hL, hs', hQ a L' hL ha⟩

theorem Works.bind (hy : Works J S L y P)
    (hf : ∀ a L', L <+: L' → P a L' → Works J S L' (f a) R) : Works J S L (y >>= f) R := by
  intro s hs
  refine fares_bind ((hy s hs).mono ?_ fun _ _ he => he)
  rintro a s' ⟨L', hL, hs', ha⟩
  refine (hf a L' hL ha s' hs').mono ?_ ?_
  · rintro b s'' ⟨L'', hL', hrest⟩
    exact ⟨L'', hL.trans hL', hrest⟩
  · rintro e s'' ⟨L'', hL', hrest⟩
    exact ⟨L'', hL.trans hL', hrest⟩

theorem works_get : Works J S L (getThe τ) fun s L' => J L' s := fun _ hs =>
  fares_get ⟨L, List.prefix_rfl, hs, hs⟩

theorem works_modify {g : τ → τ} (h : ∀ s, J L s → J L (g s)) :
    Works J S L (modifyThe τ g) fun _ _ => True := fun s hs =>
  fares_modify ⟨L, List.prefix_rfl, h s hs, trivial⟩

theorem works_orRaise {outcome : Except Fault α}
    (h : Fault.Ends outcome (Q · L) fun e => e.isShortage = true ∧ S L) :
    Works J S L (Build.orRaise outcome) Q := fun _ hs =>
  fares_orRaise (h.mono (fun _ ha => ⟨L, List.prefix_rfl, hs, ha⟩)
    fun _ he => ⟨L, List.prefix_rfl, hs, he⟩)

end

/-- The transcript belongs to a worker whose executor keeps it, and holds sound programs. -/
structure Fuzzer.Tells (x : Executor σ) (L : Transcript) (f : Fuzzer (σ × Transcript)) : Prop where
  executor : f.executor = x.recording
  transcript : f.target.2 = L
  sound : ∀ e ∈ L, e.1.code.IsSound

def Fuzzer.recorded (f : Fuzzer σ) : Fuzzer (σ × Transcript) :=
  { f with executor := f.executor.recording, target := (f.target, []) }

variable {x : Executor σ} {S : Transcript → Prop} {s : MutationSettings} {L : Transcript}
  {p : Program}

namespace Fuzzing

theorem works_draw {α : Type} {d : ExceptT Fault (StateM Random) α} {Q : α → Prop}
    (h : Finishes d Q fun e => e.isShortage = true ∧ S L) :
    Works (Fuzzer.Tells x) S L (draw d) fun a _ => Q a := fun f hf =>
  have hf (random : Random) : Fuzzer.Tells x L { f with random } := ⟨hf.1, hf.2, hf.3⟩
  fares_draw ((h f.random).mono (fun _ random ha => ⟨L, List.prefix_rfl, hf random, ha⟩)
    fun _ random he => ⟨L, List.prefix_rfl, hf random, he⟩)

theorem works_freshId : Works (Fuzzer.Tells x) S L freshId fun _ _ => True := fun _ hf =>
  fares_freshId ⟨L, List.prefix_rfl, ⟨hf.executor, hf.transcript, hf.sound⟩, trivial⟩

/-- The rule for what is done to a program: it must be sound. -/
theorem works_execute (hx : x.IsFaithful) (hp : p.code.IsSound) :
    Works (Fuzzer.Tells x) S L (execute p) fun e L' => (p, .ok e) ∈ L' ∧ e.IsFaithful p := by
  intro f hf
  obtain ⟨e, he, hfaithful⟩ := hx p f.settings.timeoutMilliseconds f.target.1 hp
  unfold Fares
  rw [run_execute, hf.executor, Executor.answer_recording, he, hf.transcript]
  refine ⟨L ++ [(p, .ok e)], List.prefix_append _ _, ⟨rfl, rfl, ?_⟩, ?_, hfaithful⟩
  · intro e' he'
    rcases List.mem_append.mp he' with he' | he'
    · exact hf.sound e' he'
    · rw [List.mem_singleton.mp he']
      exact hp
  · exact List.mem_append_right _ List.mem_cons_self

theorem works_reset : Works (Fuzzer.Tells x) S L reset fun _ _ => True := by
  refine works_modify fun f hf => ⟨hf.executor, ?_, hf.sound⟩
  rw [hf.executor]
  exact hf.transcript

end Fuzzing

namespace Program

theorem countP_isObservable_congr {c d : Code} (h : c.map Instruction.op = d.map Instruction.op) :
    c.countP Instruction.isObservable = d.countP Instruction.isObservable := by
  induction c generalizing d with
  | nil =>
    rw [List.map_eq_nil_iff.mp h.symm]
  | cons i is ih =>
    obtain ⟨j, js, rfl, hj, hjs⟩ := List.map_eq_cons_iff.mp h.symm
    rw [List.countP_cons, List.countP_cons, ih hjs.symm, isObservable_congr hj]

/-- Pruned programs take no more numbers. -/
theorem need_le_of_filter {q : Program} {keep : Instruction → Bool}
    (h : q.code.map Instruction.op = (p.code.filter keep).map Instruction.op) : q.need ≤ p.need := by
  have hvariables : q.code.numVariables ≤ p.code.numVariables := by
    rw [← Builder.sum_declares, h, Builder.sum_declares]
    exact numVariables_filter_le p.code keep
  have hreports : q.code.countP Instruction.isObservable ≤ p.code.countP Instruction.isObservable := by
    rw [countP_isObservable_congr h]
    exact List.filter_sublist.countP_le
  unfold need
  omega

def Reflects (p : Program) (o : Observed) : Prop :=
  o.program = p ∧ ∀ i ∈ p.code, ∀ r, o.record? i.index = some r →
    i.isObservable = true ∧ r.IsBounded

theorem works_observe (hx : x.IsFaithful) (hp : L.Fits p) :
    Works (Fuzzer.Tells x) (FallsShort s) L p.observe fun r L' =>
      ∀ o, r = some o → p.Reflects o ∧ L'.Shows p o := by
  refine Fuzzing.works_freshId.bind fun id L hL _ => ?_
  have hp := hp.mono hL
  cases hinstrument : p.instrument id with
  | error f =>
    obtain ⟨rfl, hlimit⟩ := limit_le_of_instrument hp.sound hinstrument
    have hshort : FallsShort s L := hp.fallsShort (Nat.le_trans hlimit (Nat.le_add_right _ 2))
    exact Works.bind (P := fun _ _ => False) (works_orRaise ⟨rfl, hshort⟩) nofun
  | ok q =>
    have hq := allows_instrument hp.sound id
    rw [hinstrument] at hq
    refine Works.bind (P := fun r _ => r = q) (works_pure rfl) ?_
    rintro _ L' hL' rfl
    refine (Fuzzing.works_execute hx hq).bind fun e L'' hL'' he => works_pure ?_
    rintro o ho
    refine ⟨?_, _, id, e, he.1, hinstrument, ho⟩
    obtain ⟨rfl, hrecords⟩ := reflectOn_eq_some ho
    refine ⟨rfl, fun i hi r hr => ?_⟩
    obtain ⟨hmem, hindex, -⟩ := hrecords i.index r hr
    refine he.2 o.program id hp.sound hinstrument r hmem i ?_
    rw [hindex]
    exact Code.getElem?_index hp.sound.check hi

theorem works_pruneObserved (hx : x.IsFaithful) (hp : L.Fits p) :
    Works (Fuzzer.Tells x) (FallsShort s) L p.pruneObserved fun q L' => L'.Fits q := by
  refine (works_observe hx hp).bind fun o L₁ h₁ _ => ?_
  refine Fuzzing.works_freshId.bind fun id L₂ h₂ _ => works_orRaise ?_
  obtain ⟨q, hq, hsound, hops⟩ := exists_sound_prune hp.sound id o
  rw [hq]
  exact (hp.mono (h₁.trans h₂)).le hsound (need_le_of_filter hops)

end Program

/-! ## Mutators -/

namespace Mutator

/-- One of the mutators that a worker starts with, after any number of choices. -/
def IsStandard (s : MutationSettings) : Mutator → Prop
  | followUp t _ => t = s
  | alter t => t = s
  | append _ | decline => False

theorem isStandard_of_mem {m : Mutator} (hm : m ∈ standard s) : m.IsStandard s := by
  simp only [standard, List.mem_cons, List.not_mem_nil, or_false] at hm
  rcases hm with rfl | rfl <;> rfl

theorem works_followUp (hx : x.IsFaithful) (hs : s.reuseProbability.isNaN = false)
    (f : Frequencies) (hp : L.Fits p) :
    Works (Fuzzer.Tells x) (FallsShort s) L (FollowUp.mutate s f p) fun r _ =>
      ∀ q, r = some q → q.1.code.IsSound := by
  refine (Program.works_observe hx hp).bind fun o L₁ h₁ ho => ?_
  cases o with
  | none => exact works_pure nofun
  | some o =>
    obtain ⟨⟨rfl, hrecords⟩, hshows⟩ := ho o rfl
    refine Fuzzing.works_freshId.bind fun id L₂ h₂ _ => works_get.bind fun worker L₃ h₃ _ => ?_
    have hfinishes := FollowUp.finishes_synthesize (e := worker.environment) hs hp.sound ?_ id f
    · refine Works.bind (Fuzzing.works_draw (hfinishes.mono (fun _ h => h) ?_)) ?_
      · rintro e ⟨hshort, hlimit⟩
        exact ⟨hshort, .followUp (hshows.mono (h₂.trans h₃)) hlimit⟩
      · intro r L₄ h₄ hr
        apply works_pure
        rintro q ⟨⟩
        exact hr
    · intro i hi r hr
      obtain ⟨hobservable, hbounded⟩ := hrecords i hi r hr
      obtain ⟨hone, hclass⟩ := Program.observable_eq hobservable
      exact ⟨hone, hclass, hbounded⟩

/-- From a sound program a mutator derives a sound one, if any. -/
theorem works_mutate (hx : x.IsFaithful) (hs : s.reuseProbability.isNaN = false) {m : Mutator}
    (hm : m.IsStandard s) (hp : L.Fits p) :
    Works (Fuzzer.Tells x) (FallsShort s) L (m.mutate p) fun r _ =>
      (∀ q, r.1 = some q → q.code.IsSound) ∧ r.2.IsStandard s := by
  cases m with
  | followUp t f =>
    cases hm
    refine (works_followUp hx hs f hp).bind fun r L₁ h₁ hr => ?_
    cases r with
    | none => exact works_pure ⟨nofun, rfl⟩
    | some r =>
      refine works_pure ⟨?_, rfl⟩
      rintro q ⟨⟩
      exact hr r rfl
  | alter t =>
    cases hm
    refine Fuzzing.works_freshId.bind fun id L₁ h₁ _ => works_get.bind fun f L₂ h₂ _ => ?_
    have hfinishes := Alteration.finishes_mutate hp.sound s f.environment id
    refine Works.bind (Fuzzing.works_draw (hfinishes.mono (fun _ h => h) ?_)) ?_
    · rintro e ⟨hshort, hcapacity⟩
      exact ⟨hshort, .alterations hcapacity⟩
    · exact fun r L₃ h₃ hr => works_pure ⟨hr, rfl⟩
  | append extra => cases hm
  | decline => cases hm

end Mutator

end ScriptFuzz
