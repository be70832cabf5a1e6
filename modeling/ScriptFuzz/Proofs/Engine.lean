import ScriptFuzz.Engine
import ScriptFuzz.Proofs.Corpus
import ScriptFuzz.Proofs.Fuzzing.Work

/-!
# Whole runs

`Engine.WellFormed` is the invariant of a loop: what it reported is sound, and what it stored is as
stored programs should be. `Engine.Steps` says of a step of the loop that it keeps this invariant
together with the worker's, and what it adds to the transcript; one lemma says so of each step, and
`Engine.steps_iterations` of any number of iterations.
-/

namespace ScriptFuzz

set_option autoImplicit false

namespace Engine

variable {σ α β : Type}

/-- The invariant of a loop. -/
structure WellFormed (s : MutationSettings) (e : Engine) : Prop where
  mutators : ∀ m ∈ e.mutators, m.IsStandard s
  stored : e.corpus.Pristine
  reported : ∀ event ∈ e.events, ∀ p, event.program? = some p → p.code.IsSound

/-- A step of the loop on the states of the loop and of its worker side by side. -/
def joined (x : Looping σ α) : ExceptT Fault (StateM (Engine × Fuzzer σ)) α :=
  ExceptT.mk fun s =>
    let r := (x.run.run s.1).run s.2
    (r.1.1, r.1.2, r.2)

theorem joined_bind (x : Looping σ α) (f : α → Looping σ β) :
    joined (x >>= f) = joined x >>= fun a => joined (f a) := by
  funext s
  simp only [joined, Bind.bind, ExceptT.bind, ExceptT.mk, ExceptT.bindCont, ExceptT.run, StateT.run,
    StateT.bind]
  generalize x s.1 s.2 = r
  obtain ⟨⟨result, engine⟩, fuzzer⟩ := r
  cases result <;> rfl

variable (x : Executor σ) (s : MutationSettings) (L : Transcript)

/-- A loop that is well formed, with a worker that keeps the transcript. -/
structure Runs (L : Transcript) (t : Engine × Fuzzer (σ × Transcript)) : Prop where
  loop : t.1.WellFormed s
  worker : t.2.Tells x L

/-- The step keeps the invariants of the loop and of its worker, and ends with a result that
satisfies the condition or with a shortage that the transcript explains. -/
def Steps (y : Looping (σ × Transcript) α) (Q : α → Transcript → Prop) : Prop :=
  Works (Runs x s) (FallsShort s) L (joined y) Q

variable {x s L} {y : Looping (σ × Transcript) α} {f : α → Looping (σ × Transcript) β}
  {P Q : α → Transcript → Prop} {R : β → Transcript → Prop}

theorem steps_pure {a : α} (h : Q a L) : Steps x s L (pure a) Q := works_pure h

theorem Steps.bind (hy : Steps x s L y P)
    (hf : ∀ a L', L <+: L' → P a L' → Steps x s L' (f a) R) : Steps x s L (y >>= f) R := by
  unfold Steps
  rw [joined_bind]
  exact Works.bind hy hf

theorem steps_get : Steps x s L (getThe Engine) fun e _ => e.WellFormed s := fun _ ht =>
  ⟨L, List.prefix_rfl, ht, ht.loop⟩

theorem steps_modify {g : Engine → Engine} (h : ∀ e, e.WellFormed s → (g e).WellFormed s) :
    Steps x s L (modifyThe Engine g) fun _ _ => True := fun t ht =>
  ⟨L, List.prefix_rfl, ⟨h t.1 ht.loop, ht.worker⟩, trivial⟩

/-- What a step does to the states of the loop and of its worker. -/
theorem Steps.run (h : Steps x s L y Q) {e : Engine} {f : Fuzzer (σ × Transcript)}
    (ht : Runs x s L (e, f)) :
    Fault.Ends ((y.run.run e).run f).1.1
      (fun a => ∃ L', L <+: L' ∧
        Runs x s L' (((y.run.run e).run f).1.2, ((y.run.run e).run f).2) ∧ Q a L')
      fun fault => ∃ L', L <+: L' ∧
        Runs x s L' (((y.run.run e).run f).1.2, ((y.run.run e).run f).2) ∧
          fault.isShortage = true ∧ FallsShort s L' :=
  h (e, f) ht

theorem steps_work {y : Fuzzing (σ × Transcript) α}
    (h : Works (Fuzzer.Tells x) (FallsShort s) L y Q) : Steps x s L (work y) Q := by
  intro t ht
  refine Fault.Ends.mono (h t.2 ht.worker) ?_ ?_
  · rintro a ⟨L', hL, hf, ha⟩
    exact ⟨L', hL, ⟨ht.loop, hf⟩, ha⟩
  · rintro e ⟨L', hL, hf, he⟩
    exact ⟨L', hL, ⟨ht.loop, hf⟩, he⟩

/-! ## Steps -/

variable {p executed : Program}

theorem steps_settings : Steps x s L settings fun _ _ => True :=
  steps_work (works_get.bind fun _ _ _ _ => works_pure trivial)

theorem steps_report {event : Event} (h : ∀ p, event.program? = some p → p.code.IsSound) :
    Steps x s L (report event) fun _ _ => True := by
  refine steps_modify fun e he => ⟨he.mutators, he.stored, fun event' hevent => ?_⟩
  rcases List.mem_append.mp hevent with hevent | hevent
  · exact he.reported event' hevent
  · rw [List.mem_singleton.mp hevent]
    exact h

theorem steps_report_about {event : Event} (hevent : event.program? = some p)
    (hp : p.code.IsSound) : Steps x s L (report event) fun _ _ => True :=
  steps_report fun q hq => by
    rw [hevent] at hq
    cases hq
    exact hp

theorem steps_count (p : Program) (k : SampleKind) : Steps x s L (count p k) fun _ _ => True :=
  steps_modify fun _ he => ⟨he.mutators, he.stored, he.reported⟩

theorem steps_note (name : String) (a : Attempt) : Steps x s L (note name a) fun _ _ => True :=
  steps_modify fun _ he => ⟨he.mutators, he.stored, he.reported⟩

section

variable (hx : x.IsFaithful)

include hx

/-- A seed fits the transcript once it has been executed. -/
theorem steps_healthCheck (hp : p.code.IsSound) :
    Steps x s L (healthCheck p) fun _ L' => L'.Fits p := by
  have hfailures (L : Transcript) (n : Nat) :
      Steps x s L (modifyThe Engine fun s => { s with failures := n }) fun _ _ => True :=
    steps_modify fun _ he => ⟨he.mutators, he.stored, he.reported⟩
  refine (steps_work (Fuzzing.works_execute hx hp)).bind fun e L₁ _ he => ?_
  have hfits : Transcript.Fits L₁ p := Transcript.fits_of_mem hp he.1
  split
  · exact (hfailures _ 0).bind fun _ _ hL _ => steps_pure (hfits.mono hL)
  refine steps_get.bind fun loop L₂ h₂ _ => steps_settings.bind fun settings L₃ h₃ _ => ?_
  have hfits : Transcript.Fits L₃ p := hfits.mono (h₂.trans h₃)
  split
  · exact (hfailures _ _).bind fun _ _ hL _ => steps_pure (hfits.mono hL)
  · refine (steps_work Fuzzing.works_reset).bind fun _ L₄ h₄ _ => ?_
    refine (steps_report fun q hq => by cases hq).bind fun _ L₅ h₅ _ => ?_
    exact (hfailures _ 0).bind fun _ _ hL _ => steps_pure (hfits.mono (h₄.trans (h₅.trans hL)))

theorem steps_prepare (hp : L.Fits p) : Steps x s L (prepare p) fun q L' => L'.Fits q := by
  refine steps_settings.bind fun settings L₁ h₁ _ => ?_
  have hp := hp.mono h₁
  split
  · exact steps_pure hp
  refine (steps_work Fuzzing.works_freshId).bind fun id L₂ h₂ _ => ?_
  refine (steps_work (works_get.bind fun f _ _ _ => works_pure (Q := fun _ _ => True) trivial)).bind
    fun environment L₃ h₃ _ => ?_
  have hp := hp.mono (h₂.trans h₃)
  have hwarmUp := p.finishes_warmUp hp.sound environment id
  refine Steps.bind (steps_work (Fuzzing.works_draw (hwarmUp.mono (fun _ h => h) ?_))) ?_
  · rintro e ⟨hshort, hlimit⟩
    refine ⟨hshort, hp.fallsShort (Nat.le_trans hlimit ?_)⟩
    unfold Program.need
    omega
  intro warmed L₄ h₄ hwarmed
  refine (steps_work (Fuzzing.works_execute hx hwarmed)).bind fun e L₅ h₅ he => ?_
  split
  · exact steps_pure (Transcript.fits_of_mem hwarmed he.1)
  · exact steps_pure (hp.mono (h₄.trans h₅))

end

theorem steps_classify {k : SampleKind} {event : Event} {q : Program} {r : Option Program}
    {Q : Option Program → Transcript → Prop} (hevent : event.program? = some q)
    (hq : q.code.IsSound) (hr : ∀ L, Q r L) :
    Steps x s L (do count p k; report event; return r) Q :=
  (steps_count p k).bind fun _ _ _ _ => (steps_report_about hevent hq).bind fun _ _ _ _ =>
    steps_pure (hr _)

theorem code_remarked (p : Program) (remarks : Bool) (line : String) :
    (if remarks then annotated p line else p).code = p.code := by
  cases remarks <;> rfl

theorem steps_store (hp : p.code.IsSound) (aspects : String) :
    Steps x s L (do
      count p .interesting
      modifyThe Engine fun s => { s with corpus := s.corpus.add p }
      report (.interesting p aspects)
      return some p) fun r _ => r = some p := by
  refine (steps_count p _).bind fun _ _ _ _ => ?_
  refine Steps.bind (steps_modify fun e he => ?_) fun _ _ _ _ => ?_
  · exact ⟨he.mutators, he.stored.add hp, he.reported⟩
  exact (steps_report_about rfl hp).bind fun _ _ _ _ => steps_pure rfl

/-- What was executed and what is left of it are sound, so all that is reported and stored is. What is
gone on from has the code of what is left. -/
theorem steps_process (hp : p.code.IsSound) (hexecuted : executed.code.IsSound) (e : Execution) :
    Steps x s L (process p executed e) fun r _ => ∀ q, r = some q → q.code = p.code := by
  have hsame (L : Transcript) : ∀ q, some p = some q → q.code = p.code := by
    rintro q ⟨⟩
    rfl
  have hremarked (remarks : Bool) (line : String) :
      (if remarks then annotated p line else p).code.IsSound := by
    rw [code_remarked]
    exact hp
  unfold process
  split
  · exact steps_classify rfl hexecuted fun _ => nofun
  · refine steps_get.bind fun s _ _ _ => ?_
    -- Whatever the evaluator finds, the program is reported, and stored if it is interesting.
    obtain ⟨aspects, evaluator⟩ := s.evaluator.evaluate e
    refine Steps.bind (steps_modify fun e he => ?_) fun _ _ _ _ => ?_
    · exact ⟨he.mutators, he.stored, he.reported⟩
    split
    · refine steps_settings.bind fun settings _ _ _ => ?_
      refine Works.mono (steps_store (hremarked _ _) _) ?_
      rintro r L' - rfl q ⟨⟩
      exact code_remarked p _ _
    · exact steps_classify rfl hp hsame
  · exact steps_settings.bind fun settings _ _ _ =>
      steps_classify rfl (hremarked _ _) fun _ => nofun
  · exact steps_classify rfl hp fun _ => nofun

/-! ## Rounds and iterations -/

theorem WellFormed.mutators_set {e : Engine} (he : e.WellFormed s) {m : Mutator}
    (hm : m.IsStandard s) (n : Nat) : WellFormed s { e with mutators := e.mutators.set n m } where
  mutators m' hm' := by
    rcases List.mem_or_eq_of_mem_set hm' with hm' | rfl
    · exact he.mutators m' hm'
    · exact hm
  stored := he.stored
  reported := he.reported

section

variable (hx : x.IsFaithful) (hs : s.reuseProbability.isNaN = false)

include hx hs

theorem steps_round (hp : L.Fits p) : Steps x s L (round p) fun q L' => L'.Fits q := by
  refine steps_get.bind fun e L₁ h₁ he => ?_
  have hchoice : Finishes
      (liftM (Draw.below .double e.mutators.length) : ExceptT Fault (StateM Random) Nat)
      (fun _ => True) fun f => f.isShortage = true ∧ FallsShort s L₁ := finishes_draw fun _ => trivial
  refine (steps_work (Fuzzing.works_draw hchoice)).bind fun choice L₂ h₂ _ => ?_
  have hp := hp.mono (h₁.trans h₂)
  split
  · exact steps_pure hp
  rename_i m hm
  have hm := he.mutators m (List.mem_of_getElem? hm)
  refine (steps_work (Mutator.works_mutate hx hs hm hp)).bind ?_
  rintro ⟨mutated, m⟩ L₃ h₃ ⟨hmutated, hm⟩
  refine (steps_modify fun e he => he.mutators_set hm choice).bind fun _ L₄ h₄ _ => ?_
  have hp := hp.mono (h₃.trans h₄)
  cases mutated with
  | none => exact (steps_note m.name _).bind fun _ _ hL _ => steps_pure (hp.mono hL)
  | some mutated =>
    have hmutated := hmutated mutated rfl
    refine (steps_note m.name _).bind fun _ L₅ h₅ _ => ?_
    refine (steps_work (Fuzzing.works_execute hx hmutated)).bind fun e L₆ h₆ he => ?_
    have hfits : Transcript.Fits L₆ mutated := Transcript.fits_of_mem hmutated he.1
    refine (steps_work (Program.works_pruneObserved hx hfits)).bind fun pruned L₇ h₇ hpruned => ?_
    refine (steps_report_about rfl hpruned.sound).bind fun _ L₈ h₈ _ => ?_
    refine (steps_process hpruned.sound hmutated e).bind fun q L₉ h₉ hq => steps_pure ?_
    cases q with
    | none => exact hp.mono (h₅.trans (h₆.trans (h₇.trans (h₈.trans h₉))))
    | some q =>
      have hcode : q.code = pruned.code := hq q rfl
      have hneed : q.need = pruned.need := by
        unfold Program.need
        rw [hcode]
      exact (hpruned.mono (h₈.trans h₉)).le (hcode ▸ hpruned.sound) (Nat.le_of_eq hneed)

theorem steps_rounds (hp : L.Fits p) (n : Nat) :
    Steps x s L (rounds p n) fun q L' => L'.Fits q := by
  induction n generalizing p L with
  | zero => exact steps_pure hp
  | succ n ih => exact (steps_round hx hs hp).bind fun q L' _ hq => ih hq

theorem steps_fuzzOne :
    Steps x s L fuzzOne fun q _ => ∀ r, q = some r → r.code.IsSound := by
  have hsome {p : Program} (hp : p.code.IsSound) : ∀ r, some p = some r → r.code.IsSound := by
    rintro r ⟨⟩
    exact hp
  refine steps_get.bind fun e L₁ h₁ he => ?_
  have hchoice : Finishes
      (liftM e.corpus.choose : ExceptT Fault (StateM Random) (Option Program))
      (fun q => ∀ r, q = some r → r ∈ e.corpus.programs)
      fun f => f.isShortage = true ∧ FallsShort s L₁ :=
    finishes_draw fun _ r hr => Draw.mem_of_choose hr
  refine (steps_work (Fuzzing.works_draw hchoice)).bind fun q L₂ h₂ hq => ?_
  cases q with
  | none => exact steps_pure nofun
  | some seed =>
    have hseed := (he.stored seed (hq seed rfl)).sound
    refine (steps_healthCheck hx hseed).bind fun _ L₃ h₃ hfits => ?_
    refine (steps_prepare hx hfits).bind fun parent L₄ h₄ hparent => ?_
    refine steps_get.bind fun e L₅ h₅ _ => ?_
    split
    · exact steps_pure (hsome hparent.sound)
    · refine steps_settings.bind fun settings L₆ h₆ _ => ?_
      exact (steps_rounds hx hs (hparent.mono (h₅.trans h₆)) settings.rounds).bind
        fun q _ _ hq => steps_pure (hsome hq.sound)

end

/-- Several iterations in a row, with what each of them gives. -/
def iterations : Nat → Looping σ (List (Option Program))
  | 0 => return []
  | n + 1 => do
    let p ← fuzzOne
    return p :: (← iterations n)

theorem steps_iterations (hx : x.IsFaithful) (hs : s.reuseProbability.isNaN = false) (n : Nat) :
    Steps x s L (iterations n) fun qs _ => ∀ p, some p ∈ qs → p.code.IsSound := by
  induction n generalizing L with
  | zero => exact steps_pure nofun
  | succ n ih =>
    refine (steps_fuzzOne hx hs).bind fun q _ _ hq => ih.bind fun qs _ _ hqs => steps_pure ?_
    intro p hp
    rcases List.mem_cons.mp hp with hp | hp
    · exact hq p hp.symm
    · exact hqs p hp

/-- The loop of a worker with the given settings, for programs to start from. -/
def start (s : Settings) (seeds : List Program) (evaluator : Evaluator) : Engine :=
  { mutators := Mutator.standard s.mutation, corpus := seeds.foldl Corpus.add {}, evaluator }

theorem wellFormed_start (s : Settings) {seeds : List Program} (evaluator : Evaluator)
    (hseeds : ∀ p ∈ seeds, p.code.IsSound) :
    (start s seeds evaluator).WellFormed s.mutation where
  mutators _ hm := Mutator.isStandard_of_mem hm
  stored := Corpus.pristine_foldl hseeds Corpus.pristine_empty
  reported := nofun

/-- A number of iterations: what they give, the loop afterwards, and what was executed. -/
structure Run where
  result : Except Fault (List (Option Program))
  loop : Engine
  transcript : Transcript

def run (worker : Fuzzer σ) (seeds : List Program) (evaluator : Evaluator) (n : Nat) : Run :=
  let r := ((iterations n).run.run (start worker.settings seeds evaluator)).run worker.recorded
  { result := r.1.1, loop := r.1.2, transcript := r.2.target.2 }

/-- All code of a run passes the check, and no step ended in a fault but for a shortage, where memory or
numbers cannot be enough for the settings, for the programs that were executed, or for what was observed
of them. -/
structure Run.Checked (s : MutationSettings) (r : Run) : Prop where
  result : (∃ ps, r.result = .ok ps ∧ ∀ p, some p ∈ ps → p.code.check = .ok ()) ∨
    ∃ f, r.result = .error f ∧ f.isShortage = true ∧ FallsShort s r.transcript
  executed : ∀ e ∈ r.transcript, e.1.code.check = .ok ()
  reported : ∀ e ∈ r.loop.events, ∀ p, e.program? = some p → p.code.check = .ok ()
  stored : ∀ p ∈ r.loop.corpus.programs, p.code.check = .ok () ∧ p.code ≠ [] ∧
    ∀ i ∈ p.code, i.isInternal = false

theorem Runs.checked {result : Except Fault (List (Option Program))} {loop : Engine}
    {fuzzer : Fuzzer (σ × Transcript)} (h : Runs x s L (loop, fuzzer))
    (hresult : (∃ ps, result = .ok ps ∧ ∀ p, some p ∈ ps → p.code.check = .ok ()) ∨
      ∃ f, result = .error f ∧ f.isShortage = true ∧ FallsShort s L) :
    Run.Checked s ⟨result, loop, fuzzer.target.2⟩ := by
  obtain rfl := h.worker.transcript
  refine ⟨hresult, ?_, ?_, ?_⟩
  · intro e he
    exact (h.worker.sound e he).check
  · intro e he p hp
    exact (h.loop.reported e he p hp).check
  · intro p hp
    have hstores := h.loop.stored p hp
    exact ⟨hstores.sound.check, hstores.nonempty, hstores.plain⟩

/-- Whole runs stay inside of what the check accepts, whatever the settings, the random stream, the
model of the target and the answers of a faithful executor. -/
theorem checked_run (worker : Fuzzer σ) (hexecutor : worker.executor.IsFaithful)
    (hreuse : worker.settings.mutation.reuseProbability.isNaN = false) (seeds : List Program)
    (hcheck : ∀ p ∈ seeds, p.code.check = .ok ()) (hcount : ∀ p ∈ seeds, p.code.IsCountable)
    (evaluator : Evaluator) (n : Nat) :
    (run worker seeds evaluator n).Checked worker.settings.mutation := by
  have hseeds : ∀ p ∈ seeds, p.code.IsSound := fun p hp => ⟨hcheck p hp, hcount p hp⟩
  have hstart : Runs worker.executor worker.settings.mutation []
      (start worker.settings seeds evaluator, worker.recorded) :=
    ⟨wellFormed_start worker.settings evaluator hseeds, rfl, rfl, fun _ he => by cases he⟩
  have hends := (steps_iterations hexecutor hreuse n).run hstart
  unfold run
  generalize ((iterations n).run.run (start worker.settings seeds evaluator)).run worker.recorded = r
    at hends ⊢
  obtain ⟨⟨result, loop⟩, fuzzer⟩ := r
  cases result with
  | ok ps =>
    obtain ⟨L, -, hruns, hsound⟩ := hends
    exact hruns.checked (.inl ⟨ps, rfl, fun p hp => (hsound p hp).check⟩)
  | error f =>
    obtain ⟨L, -, hruns, hshort⟩ := hends
    exact hruns.checked (.inr ⟨f, rfl, hshort⟩)

/-- A target that, run on a program that only produces values, reports the first of them as
callable. -/
def callableFirst : Executor Unit where
  execute p _ := return {
    fuzzout :=
      if p.code.all Instruction.isObservable then FollowUp.callableReport.fuzzout else "" }
  reset := return ()

/-- Where the instrumented copy only produces values, so does the observed program. -/
theorem isFaithful_callableFirst : callableFirst.IsFaithful := by
  intro executed milliseconds s _
  refine ⟨_, rfl, fun p id _ hinstrument r hr i hi => ?_⟩
  cases hall : executed.code.all Instruction.isObservable with
  | false =>
    simp only [hall, Bool.false_eq_true, if_false] at hr
    cases hr
  | true =>
    simp only [hall, if_true, FollowUp.ofStream_callableReport, List.mem_singleton] at hr
    subst hr
    -- The first instruction of the program has a copy, and every copy produces a value.
    have hop := (Program.sublist_instrument hinstrument).subset
      (List.mem_map_of_mem (List.mem_of_getElem? hi))
    obtain ⟨j, hj, hop⟩ := List.mem_map.mp hop
    have hobservable := List.all_eq_true.mp hall j hj
    refine ⟨?_, ?_, nofun⟩
    · rwa [← Program.isObservable_congr hop]
    · rintro n hn
      cases hn
      decide

def callableWorker : Fuzzer Unit where
  settings := { rounds := 1 }
  random := { word := fun _ => 0 }
  executor := callableFirst
  target := ()

/-- A run in which memory and numbers are enough: the seed is executed, the seed behind a preamble and its
instrumented copy, and a mutant with its instrumented copy. -/
theorem checked_run_callable :
    (run callableWorker [FollowUp.oneValue] (.novelty {}) 1).Checked {} ∧
      (run callableWorker [FollowUp.oneValue] (.novelty {}) 1).result.isOk = true ∧
      (run callableWorker [FollowUp.oneValue] (.novelty {}) 1).transcript.length = 5 := by
  have hcheck : FollowUp.oneValue.code.check = .ok () := rfl
  have hcount : FollowUp.oneValue.code.IsCountable := by
    intro i hi
    cases List.mem_singleton.mp hi
    rfl
  refine ⟨?_, by decide +kernel⟩
  exact checked_run callableWorker isFaithful_callableFirst (by decide +kernel) [FollowUp.oneValue]
    (List.forall_mem_singleton.mpr hcheck) (List.forall_mem_singleton.mpr hcount) (.novelty {}) 1

end Engine

end ScriptFuzz
