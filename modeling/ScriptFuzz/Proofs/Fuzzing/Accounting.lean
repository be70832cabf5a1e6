import ScriptFuzz.Proofs.Fuzzing.Books
import ScriptFuzz.Proofs.Fuzzing.Strategy
import ScriptFuzz.Proofs.Program.Pruning

/-!
# Accounting for a run

Every step of a loop is a sequence of entries into its books (`Posts`), so they are balanced after any
number of iterations. What they tell is what happened in the rounds of the run, one after the other
(`Strategy.Follows`).
-/

namespace ScriptFuzz

set_option autoImplicit false

/-- Every execution has an outcome. -/
def Executor.Answers {σ : Type} (x : Executor σ) : Prop :=
  ∀ p milliseconds s, ∃ e, (x.answer p milliseconds s).1 = .ok e

section

variable {σ : Type} {f : Fuzzer σ} {p : Program}

theorem Fuzzing.fares_execute {E : Fault → Fuzzer σ → Prop} (hf : f.executor.Answers)
    (p : Program) : Fares (execute p) f (fun _ f' => f'.executor.Answers) E := by
  obtain ⟨e, he⟩ := hf p f.settings.timeoutMilliseconds f.target
  unfold Fares
  rw [run_execute, he]
  exact hf

/-- Whatever is observed of a sound program, pruning it fails only where its instrumented copy takes
more numbers than there are. -/
theorem Program.fares_pruneObserved (hf : f.executor.Answers) (hp : p.code.IsSound) :
    Fares p.pruneObserved f (fun _ _ => True) fun e _ =>
      e = .exhausted ∧ Variable.limit ≤ p.need := by
  refine fares_bind ((?_ : Fares p.observe f (fun _ _ => True) _).mono (fun o f' _ => ?_)
    fun _ _ h => h)
  · refine fares_bind (Fuzzing.fares_freshId (fares_bind (fares_orRaise ?_)))
    cases hinstrument : p.instrument (.fresh f.serial) with
    | error e => exact limit_le_of_instrument hp hinstrument
    | ok q =>
      have hexecute : Fares (do return p.reflectOn (← Fuzzing.execute q))
          { f with serial := f.serial + 1 } (fun _ _ => True)
          fun e _ => e = .exhausted ∧ Variable.limit ≤ p.need :=
        fares_bind ((Fuzzing.fares_execute (by exact hf) q).mono
          (fun _ _ _ => fares_pure (Q := fun _ _ => True) trivial) fun _ _ h => h)
      exact hexecute
  · refine fares_bind (Fuzzing.fares_freshId (fares_orRaise ?_))
    obtain ⟨q, hq, -⟩ := exists_sound_prune hp (.fresh f'.serial) o
    rw [hq]
    trivial

end

namespace Engine

/-! ## Steps of a loop -/

variable {σ α β : Type}

/-- A step of the loop on the states of the loop and of its worker: its outcome, and the states
afterwards. -/
def outcome (y : Looping σ α) (s : Engine × Fuzzer σ) : Except Fault α × Engine × Fuzzer σ :=
  (joined y).run.run s

theorem outcome_bind (y : Looping σ α) (f : α → Looping σ β) (s : Engine × Fuzzer σ) :
    outcome (y >>= f) s = match outcome y s with
      | (.ok a, s') => outcome (f a) s'
      | (.error e, s') => (.error e, s') := by
  unfold outcome
  rw [joined_bind, run_bind_of_run]
  cases (joined y).run.run s with
  | mk result next => cases result <;> rfl

theorem outcome_work {α : Type} (x : Fuzzing σ α) (s : Engine × Fuzzer σ) :
    outcome (work x) s = ((x.run.run s.2).1, s.1, (x.run.run s.2).2) := rfl

theorem outcome_get (s : Engine × Fuzzer σ) :
    outcome (getThe Engine : Looping σ Engine) s = (.ok s.1, s) := rfl

theorem outcome_settings (s : Engine × Fuzzer σ) :
    outcome (settings : Looping σ Settings) s = (.ok s.2.settings, s) := rfl

/-- Steps that do `R` to books satisfying `J` may be taken one after the other. -/
class Passes (J : Books → Prop) (R : Books → Books → Prop) : Prop where
  refl : ∀ b, R b b
  trans : ∀ {b c d}, R b c → R c d → R b d
  keeps : ∀ {b c}, J b → R b c → J c

/-- Whatever becomes of the step, it does to books of one kind what the relation says, and its result
satisfies the condition if there is one. -/
def Moves (J : Books → Prop) (R : Books → Books → Prop) (y : Looping σ α) (Q : α → Prop) : Prop :=
  ∀ s : Engine × Fuzzer σ, J s.1.books →
    R s.1.books (outcome y s).2.1.books ∧ ∀ a, (outcome y s).1 = .ok a → Q a

section

variable {J : Books → Prop} {R : Books → Books → Prop} [Passes J R] {y : Looping σ α}
  {f : α → Looping σ β} {P Q : α → Prop} {Q' : β → Prop}

theorem moves_pure {a : α} (h : Q a) : Moves J R (pure a : Looping σ α) Q := by
  intro s hs
  refine ⟨Passes.refl J _, ?_⟩
  rintro b ⟨⟩
  exact h

theorem Moves.bind (hy : Moves J R y P) (hf : ∀ a, P a → Moves J R (f a) Q') :
    Moves J R (y >>= f) Q' := by
  intro s hs
  obtain ⟨hmoves, hresult⟩ := hy s hs
  rw [outcome_bind]
  cases hys : outcome y s with
  | mk result next =>
    rw [hys] at hmoves hresult
    cases result with
    | ok a =>
      obtain ⟨hmoves', hresult'⟩ := hf a (hresult a rfl) next (Passes.keeps hs hmoves)
      exact ⟨Passes.trans J hmoves hmoves', hresult'⟩
    | error e => exact ⟨hmoves, nofun⟩

theorem moves_get : Moves J R (getThe Engine : Looping σ Engine) fun s => J s.books := by
  intro s hs
  refine ⟨Passes.refl J _, ?_⟩
  rintro s' ⟨⟩
  exact hs

theorem moves_work {x : Fuzzing σ α} (h : Returns x Q) : Moves J R (work x) Q :=
  fun _ _ => ⟨Passes.refl J _, fun _ ha => h.result ha⟩

omit [Passes J R] in
theorem moves_modify {g : Engine → Engine} (h : ∀ s : Engine, R s.books (g s).books) :
    Moves J R (modifyThe Engine g : Looping σ PUnit) fun _ => True :=
  fun s _ => ⟨h s.1, fun _ _ => trivial⟩

theorem moves_settings : Moves J R (settings : Looping σ Settings) fun _ => True :=
  moves_work (returns_true _)

/-- A health check writes of nothing but a reset. -/
theorem moves_healthCheck
    (hreset : ∀ (b : Books) (n : Nat), R b { b with events := b.events ++ [.reset n] })
    (p : Program) : Moves J R (healthCheck p : Looping σ Bool) fun _ => True := by
  have hfailures (n : Nat) :
      Moves J R (modifyThe Engine fun s => { s with failures := n } : Looping σ PUnit)
        fun _ => True := moves_modify fun _ => Passes.refl J _
  refine (moves_work (returns_true _)).bind fun e _ => ?_
  split
  · exact (hfailures 0).bind fun _ _ => moves_pure trivial
  refine moves_get.bind fun _ _ => moves_settings.bind fun settings _ => ?_
  split
  · exact (hfailures _).bind fun _ _ => moves_pure trivial
  · refine (moves_work (returns_true _)).bind fun _ _ => ?_
    refine (moves_modify fun _ => hreset _ _).bind fun _ _ => ?_
    exact (hfailures 0).bind fun _ _ => moves_pure trivial

theorem moves_prepare (p : Program) :
    Moves J R (prepare p : Looping σ Program) fun q => q.contributors = p.contributors := by
  refine moves_settings.bind fun settings _ => ?_
  split
  · exact moves_pure rfl
  refine (moves_work (returns_true _)).bind fun id _ => ?_
  refine (moves_work (returns_true _)).bind fun environment _ => ?_
  refine (moves_work (Fuzzing.finishes_draw (p.returns_warmUp id environment))).bind
    fun warmed hwarmed => ?_
  refine (moves_work (returns_true _)).bind fun e _ => ?_
  split
  · exact moves_pure hwarmed
  · exact moves_pure rfl

end

/-- The step makes entries into the books. -/
abbrev Posts : Looping σ α → (α → Prop) → Prop := Moves Books.Credited Books.Entries

/-- The step writes nothing into the books. -/
abbrev OffBooks : Looping σ α → (α → Prop) → Prop := Moves (fun _ => True) Eq

instance : Passes Books.Credited Books.Entries where
  refl _ := .refl
  trans := Relation.ReflTransGen.trans
  keeps := Books.Credited.entries

instance : Passes (fun _ => True) Eq where
  refl _ := rfl
  trans := Eq.trans
  keeps _ _ := trivial

instance : Passes (fun _ => True) Books.Still where
  refl _ := ⟨rfl, rfl⟩
  trans h h' := ⟨h'.1.trans h.1, h'.2.trans h.2⟩
  keeps _ _ := trivial

theorem posts_note (name : String) (a : Attempt) : Posts (note name a : Looping σ Unit) fun _ => True := by
  apply moves_modify
  intro s
  have hentry : Books.Entry s.books _ := .attempt name a
  cases a <;> exact .single hentry

end Engine

namespace Strategy

open Engine

variable {σ : Type} {S : Strategy σ} {p parent executed : Program}

/-- What a strategy leaves to the loop. -/
structure IsFair (S : Strategy σ) : Prop where
  derive : ∀ parent s, (outcome (S.derive parent) s).2.1.books = s.1.books
  judge : ∀ e s f, ((S.judge e).run s f).1.2.books = s.books
  credits : ∀ parent s name q, parent.Credits →
    (outcome (S.derive parent) s).1 = .ok (some (name, some q)) → q.Credits

theorem IsFair.posts_derive (hS : S.IsFair) (hp : parent.Credits) :
    Posts (S.derive parent) fun r => ∀ name q, r = some (name, some q) → q.Credits := by
  intro s hs
  refine ⟨?_, ?_⟩
  · rw [hS.derive]
  · rintro r hr name q rfl
    exact hS.credits parent s name q hp hr

/-- The books have one classification more, of a program that lists whom `p` lists. -/
def Classified (p : Program) (b b' : Books) : Prop :=
  ∃ q event kind, Event.kind? event = some kind ∧ event.program? = some q ∧
    q.contributors = p.contributors ∧
    b' = { b with
      events := b.events ++ [event]
      statistics := b.statistics.record p.contributors kind
      corpus := if kind = .interesting then b.corpus.add q else b.corpus }

theorem contributors_remarked (p : Program) (remarks : Bool) (line : String) :
    (if remarks then annotated p line else p).contributors = p.contributors := by
  cases remarks <;> rfl

theorem outcome_classify (counted : Program) (event : Event) (r : Option Program)
    (s : Engine × Fuzzer σ) {q : Program} {kind : SampleKind} (hkind : event.kind? = some kind)
    (hevent : event.program? = some q) (hlisted : q.contributors = p.contributors)
    (hcounted : counted.contributors = p.contributors) (hnot : kind ≠ .interesting) :
    ∃ s', outcome (do count counted kind; report event; return r) s = (.ok r, s') ∧
      Classified p s.1.books s'.1.books := by
  refine ⟨_, rfl, q, event, kind, hkind, hevent, hlisted, ?_⟩
  rw [if_neg hnot, ← hcounted]
  rfl

/-- Whatever becomes of an execution, it is classified once, and nothing in between can fail. -/
theorem IsFair.classified (hS : S.IsFair) (hlisted : executed.contributors = p.contributors)
    (e : Execution) (s : Engine × Fuzzer σ) :
    ∃ r s', outcome (S.process p executed e) s = (.ok r, s') ∧
      (∀ q, r = some q → q.contributors = p.contributors) ∧
      Classified p s.1.books s'.1.books := by
  unfold process
  cases houtcome : e.outcome with
  | crashed signal =>
    obtain ⟨s', hs', hclassified⟩ := outcome_classify (p := p) p
      (.crash (annotated executed _) e) none s rfl rfl hlisted rfl nofun
    exact ⟨none, s', hs', nofun, hclassified⟩
  | succeeded =>
    have hjudge := hS.judge e s.1 s.2
    have hjudged : outcome (ExceptT.lift (S.judge e)) s =
        (.ok ((S.judge e).run s.1 s.2).1.1, ((S.judge e).run s.1 s.2).1.2,
          ((S.judge e).run s.1 s.2).2) := rfl
    generalize (S.judge e).run s.1 s.2 = judged at hjudge hjudged
    obtain ⟨⟨aspects, engine⟩, fuzzer⟩ := judged
    simp only [outcome_bind, hjudged]
    rw [← hjudge]
    cases aspects with
    | none =>
      obtain ⟨s', hs', hclassified⟩ := outcome_classify (p := p) p (.valid p) (some p)
        (engine, fuzzer) rfl rfl rfl rfl nofun
      refine ⟨some p, s', hs', ?_, hclassified⟩
      rintro q ⟨⟩
      rfl
    | some aspects =>
      have hremarked := contributors_remarked p fuzzer.settings.inspects
        ("Program may be interesting due to " ++ aspects)
      refine ⟨_, _, rfl, ?_, _, .interesting _ aspects, .interesting, rfl, rfl, hremarked, ?_⟩
      · rintro q ⟨⟩
        exact hremarked
      · rw [← hremarked]
        rfl
  | failed _ =>
    have hremarked := contributors_remarked p s.2.settings.diagnoses ("Stdout:\n" ++ e.stdout)
    obtain ⟨s', hs', hclassified⟩ := outcome_classify (p := p) _ (.invalid _) none s rfl rfl
      hremarked hremarked nofun
    exact ⟨none, s', hs', nofun, hclassified⟩
  | timedOut =>
    obtain ⟨s', hs', hclassified⟩ := outcome_classify (p := p) p (.timedOut p) none s rfl rfl
      rfl rfl nofun
    exact ⟨none, s', hs', nofun, hclassified⟩

/-- A generated program is classified at once. -/
theorem IsFair.sampled (hS : S.IsFair) (parent : Program)
    (hlisted : executed.contributors = p.contributors) (e : Execution) (s : Engine × Fuzzer σ) :
    ∃ r s', outcome (do
        report (.generated p)
        return (← S.process p executed e).getD parent) s = (.ok r, s') ∧
      (r = parent ∨ r.contributors = p.contributors) ∧
      Classified p { s.1.books with events := s.1.events ++ [.generated p] } s'.1.books := by
  obtain ⟨r, s', hs', hr, hclassified⟩ := hS.classified hlisted e
    ({ s.1 with events := s.1.events ++ [.generated p] }, s.2)
  have hreport : outcome (report (.generated p)) s =
      (.ok (), { s.1 with events := s.1.events ++ [.generated p] }, s.2) := rfl
  refine ⟨r.getD parent, s', ?_, ?_, hclassified⟩
  · rw [outcome_bind, hreport]
    simp only
    rw [outcome_bind, hs']
    rfl
  · cases r with
    | none => exact .inl rfl
    | some q => exact .inr (hr q rfl)

theorem Classified.entry {b b' : Books} (hp : p.Credits)
    (h : Classified p { b with events := b.events ++ [.generated p] } b') : Books.Entry b b' := by
  obtain ⟨q, event, kind, hkind, hevent, hlisted, rfl⟩ := h
  have hentry : Books.Entry b _ := .sample hkind hevent hlisted hp
  simpa only [List.append_assoc, List.singleton_append] using hentry

theorem IsFair.posts_sample (hS : S.IsFair) (hparent : parent.Credits)
    (hexecuted : executed.Credits) : Posts (S.sample parent executed) Program.Credits := by
  refine (moves_work (returns_true _)).bind fun e _ => ?_
  refine (moves_work executed.returns_pruneObserved).bind fun pruned hpruned => ?_
  have hp : pruned.Credits := by
    rw [Program.Credits, hpruned]
    exact hexecuted
  intro s hs
  obtain ⟨r, s', hs', hr, hclassified⟩ := hS.sampled parent hpruned.symm e s
  rw [hs']
  refine ⟨.single (hclassified.entry hp), ?_⟩
  rintro q ⟨⟩
  rcases hr with rfl | hr
  · exact hparent
  · rw [Program.Credits, hr]
    exact hp

theorem IsFair.posts_round (hS : S.IsFair) (hp : parent.Credits) :
    Posts (S.round parent) Program.Credits := by
  refine (hS.posts_derive hp).bind fun r hr => ?_
  rcases r with - | ⟨name, - | mutated⟩
  · exact moves_pure hp
  · exact (posts_note name _).bind fun _ _ => moves_pure hp
  · exact (posts_note name _).bind fun _ _ => hS.posts_sample hp (hr name mutated rfl)

theorem IsFair.posts_rounds (hS : S.IsFair) (hp : parent.Credits) (n : Nat) :
    Posts (S.rounds parent n) Program.Credits := by
  induction n generalizing parent with
  | zero => exact moves_pure hp
  | succ n ih => exact (hS.posts_round hp).bind fun q hq => ih hq

/-- What an iteration does before its rounds: what to go on from, and how often. -/
def opening (S : Strategy σ) : Looping σ (Option (Program × Nat)) := do
  let corpus := (← getThe Engine).corpus
  match ← work (Fuzzing.draw (liftM corpus.choose)) with
  | none => return none
  | some seed =>
    let _ ← healthCheck seed
    let parent ← prepare seed
    if S.isIdle (← getThe Engine) then return some (parent, 0)
    return some (parent, (← settings).rounds)

theorem fuzzOne_eq (S : Strategy σ) : S.fuzzOne = (do
    match ← S.opening with
    | none => return none
    | some (parent, n) => return some (← S.rounds parent n)) := by
  unfold fuzzOne opening
  simp only [bind_assoc]
  refine bind_congr fun e => bind_congr fun seed => ?_
  cases seed with
  | none => rfl
  | some seed =>
    simp only [bind_assoc]
    refine bind_congr fun _ => bind_congr fun parent => bind_congr fun e => ?_
    split
    · rfl
    · simp only [bind_assoc, pure_bind]

/-- Before the rounds nothing but resets is written, and they go on from a stored program. -/
theorem moves_opening {J : Books → Prop} {R : Books → Books → Prop} [Passes J R]
    (hreset : ∀ (b : Books) (n : Nat), R b { b with events := b.events ++ [.reset n] })
    (S : Strategy σ) : Moves J R S.opening fun r => ∀ parent n, r = some (parent, n) →
      ∃ b seed, J b ∧ seed ∈ b.corpus.programs ∧ parent.contributors = seed.contributors := by
  refine moves_get.bind fun e he => ?_
  have hchoice : Returns (liftM e.corpus.choose : ExceptT Fault (StateM Random) (Option Program))
      fun q => ∀ r, q = some r → r ∈ e.corpus.programs :=
    finishes_draw fun _ r hr => Draw.mem_of_choose hr
  refine (moves_work (Fuzzing.finishes_draw hchoice)).bind fun q hq => ?_
  cases q with
  | none => exact moves_pure nofun
  | some seed =>
    have hseed := hq seed rfl
    have hopens {parent : Program} (hparent : parent.contributors = seed.contributors) (n : Nat) :
        ∀ p k, some (parent, n) = some (p, k) →
          ∃ b seed, J b ∧ seed ∈ b.corpus.programs ∧ p.contributors = seed.contributors := by
      rintro p k ⟨⟩
      exact ⟨e.books, seed, he, hseed, hparent⟩
    refine (moves_healthCheck hreset seed).bind fun _ _ => (moves_prepare seed).bind
      fun parent hparent => moves_get.bind fun e _ => ?_
    split
    · exact moves_pure (hopens hparent 0)
    · exact moves_settings.bind fun settings _ => moves_pure (hopens hparent settings.rounds)

theorem IsFair.posts_fuzzOne (hS : S.IsFair) : Posts S.fuzzOne fun _ => True := by
  rw [fuzzOne_eq]
  refine (S.moves_opening fun _ n => .single (.reset n)).bind fun r hr => ?_
  rcases r with - | ⟨parent, n⟩
  · exact moves_pure trivial
  · obtain ⟨b, seed, hb, hseed, hlisted⟩ := hr parent n rfl
    have hparent : parent.Credits := by
      rw [Program.Credits, hlisted]
      exact hb seed hseed
    exact (hS.posts_rounds hparent n).bind fun _ _ => moves_pure trivial

theorem IsFair.posts_iterations (hS : S.IsFair) (n : Nat) :
    Posts (S.iterations n) fun _ => True := by
  induction n with
  | zero => exact moves_pure trivial
  | succ n ih => exact hS.posts_fuzzOne.bind fun _ _ => ih.bind fun _ _ => moves_pure trivial

/-- The books are balanced at every time, also after a fault. -/
theorem IsFair.balanced (hS : S.IsFair) {s : Engine} (hstatistics : s.statistics = {})
    (hevents : s.events = []) (hattempts : s.attempts = [])
    (hcorpus : ∀ p ∈ s.corpus.programs, p.Credits) (f : Fuzzer σ) (n : Nat) :
    (outcome (S.iterations n) (s, f)).2.1.books.Balanced s.corpus.size := by
  have hstart : s.books.Balanced s.corpus.size := by
    unfold Engine.books
    rw [hstatistics, hevents, hattempts]
    exact Books.balanced_start
  exact hstart.entries (hS.posts_iterations n (s, f) hcorpus).1

/-! ## Rounds -/

/-- How the attempt of a round ended. -/
def attempted (parent : Program) :
    Except Fault (Option (String × Option Program)) → List (String × Attempt)
  | .ok (some (name, none)) => [(name, .failed)]
  | .ok (some (name, some q)) => [(name, .added ((q.size : Int) - parent.size))]
  | .ok none | .error _ => []

/-- A round notes its attempt, and reports a generated program and its classification if and only if
there is a program. A sound program is reported unless its instrumented copy takes more numbers than
there are. -/
structure Reports (S : Strategy σ) (parent : Program) (s : Engine × Fuzzer σ) : Prop where
  attempts : (outcome (S.round parent) s).2.1.attempts =
    s.1.attempts ++ attempted parent (outcome (S.derive parent) s).1
  derived : ∀ name q, (outcome (S.derive parent) s).1 = .ok (some (name, some q)) →
    Fault.Ends (outcome (S.round parent) s).1
      (fun _ => ∃ p event,
        (outcome (S.round parent) s).2.1.events = s.1.events ++ [.generated p, event] ∧
        event.kind?.isSome)
      fun _ => (outcome (S.round parent) s).2.1.events = s.1.events
  completed : ∀ name q, (outcome (S.derive parent) s).1 = .ok (some (name, some q)) →
    q.code.IsSound → (outcome (S.derive parent) s).2.2.executor.Answers →
    Fault.Ends (outcome (S.round parent) s).1 (fun _ => True)
      fun f => f = .exhausted ∧ Variable.limit ≤ q.need
  declined : (∀ name q, (outcome (S.derive parent) s).1 ≠ .ok (some (name, some q))) →
    (outcome (S.round parent) s).2.1.events = s.1.events

/-- Until a program is pruned nothing is written, and then nothing can fail. -/
theorem IsFair.sample_reports (hS : S.IsFair) (parent q : Program) (s : Engine × Fuzzer σ) :
    (outcome (S.sample parent q) s).2.1.attempts = s.1.attempts ∧
      Fault.Ends (outcome (S.sample parent q) s).1
        (fun _ => ∃ p event,
          (outcome (S.sample parent q) s).2.1.events = s.1.events ++ [.generated p, event] ∧
          event.kind?.isSome)
        (fun _ => (outcome (S.sample parent q) s).2.1.events = s.1.events) ∧
      (q.code.IsSound → s.2.executor.Answers →
        Fault.Ends (outcome (S.sample parent q) s).1 (fun _ => True)
          fun f => f = .exhausted ∧ Variable.limit ≤ q.need) := by
  unfold sample
  rw [outcome_bind, outcome_work]
  have hexecute (hf : s.2.executor.Answers) :=
    Fuzzing.fares_execute (E := fun f _ => f = .exhausted ∧ Variable.limit ≤ q.need) hf q
  unfold Fares at hexecute
  cases hrun : (Fuzzing.execute q).run.run s.2 with
  | mk r f =>
    rw [hrun] at hexecute
    cases r with
    | error e => exact ⟨rfl, rfl, fun _ hanswers => hexecute hanswers⟩
    | ok e =>
      simp only
      rw [outcome_bind, outcome_work]
      have hprune (hf : f.executor.Answers) (hq : q.code.IsSound) := Program.fares_pruneObserved hf hq
      unfold Fares at hprune
      cases hpruned : q.pruneObserved.run.run f with
      | mk r f' =>
        rw [hpruned] at hprune
        cases r with
        | error e' => exact ⟨rfl, rfl, fun hq hanswers => hprune (hexecute hanswers) hq⟩
        | ok p =>
          have hlisted := q.returns_pruneObserved.result (s := f) (a := p) (by rw [hpruned])
          obtain ⟨r, s', hs', -, _, event, kind, hkind, -, -, hbooks⟩ :=
            hS.sampled parent hlisted.symm e (s.1, f')
          simp only [hs']
          refine ⟨congrArg Books.attempts hbooks, ⟨p, event, ?_, ?_⟩, fun _ _ => trivial⟩
          · exact (congrArg Books.events hbooks).trans (List.append_assoc _ _ _)
          · rw [hkind]
            rfl

theorem IsFair.reports (hS : S.IsFair) (parent : Program) (s : Engine × Fuzzer σ) :
    S.Reports parent s := by
  have hbooks := hS.derive parent s
  have hround : outcome (S.round parent) s = match outcome (S.derive parent) s with
      | (.ok none, s') => (.ok parent, s')
      | (.ok (some (name, none)), s') => outcome (do note name .failed; return parent) s'
      | (.ok (some (name, some q)), s') =>
        outcome (do
          note name (.added ((q.size : Int) - parent.size))
          S.sample parent q) s'
      | (.error e, s') => (.error e, s') := by
    unfold round
    rw [outcome_bind]
    cases outcome (S.derive parent) s with
    | mk r s' => rcases r with - | - | ⟨name, - | q⟩ <;> rfl
  cases hd : outcome (S.derive parent) s with
  | mk r s' =>
    rw [hd] at hround hbooks
    have hattempts : s'.1.attempts = s.1.attempts := congrArg Books.attempts hbooks
    have hevents : s'.1.events = s.1.events := congrArg Books.events hbooks
    -- Without a program the round ends there.
    have hnone (hsame : (outcome (S.round parent) s).2.1.events = s'.1.events)
        (hattempt : (outcome (S.round parent) s).2.1.attempts =
          s'.1.attempts ++ attempted parent r)
        (hr : ∀ name q, r ≠ .ok (some (name, some q))) : S.Reports parent s := by
      refine ⟨?_, ?_, ?_, fun _ => hsame.trans hevents⟩
      · rw [hattempt, hattempts, hd]
      · rw [hd]
        exact fun name q h => absurd h (hr name q)
      · rw [hd]
        exact fun name q h => absurd h (hr name q)
    rcases r with e | - | ⟨name, - | q⟩
    · exact hnone (by rw [hround]) (by rw [hround]; exact (List.append_nil _).symm) nofun
    · exact hnone (by rw [hround]) (by rw [hround]; exact (List.append_nil _).symm) nofun
    · exact hnone (by rw [hround]; rfl) (by rw [hround]; rfl) nofun
    · let noted : Engine := { s'.1 with
        attempts := s'.1.attempts ++ [(name, .added ((q.size : Int) - parent.size))]
        statistics := s'.1.statistics.addedInstructions name ((q.size : Int) - parent.size) }
      have hnoted : outcome (S.round parent) s = outcome (S.sample parent q) (noted, s'.2) :=
        hround
      obtain ⟨hkept, hderived, hcompleted⟩ := hS.sample_reports parent q (noted, s'.2)
      rw [hevents] at hderived
      refine ⟨?_, ?_, ?_, ?_⟩
      · rw [hd, hnoted, hkept]
        exact congrArg (· ++ [(name, Attempt.added _)]) hattempts
      · rw [hd, hnoted]
        rintro name' q' ⟨⟩
        exact hderived
      · rw [hd, hnoted]
        rintro name' q' ⟨⟩
        exact hcompleted
      · intro hnone
        exact absurd (by rw [hd]) (hnone name q)

/-! ## The rounds of a run -/

/-- A round of a run: what it goes on from, and the states in which it starts. -/
structure Round (σ : Type) where
  parent : Program
  start : Engine × Fuzzer σ

/-- The attempt that a round makes. -/
def attempts (S : Strategy σ) (r : Round σ) : List (String × Attempt) :=
  attempted r.parent (outcome (S.derive r.parent) r.start).1

/-- The round derives a program and gets to its end. -/
def delivers (S : Strategy σ) (r : Round σ) : Bool :=
  match (outcome (S.derive r.parent) r.start).1, (outcome (S.round r.parent) r.start).1 with
  | .ok (some (_, some _)), .ok _ => true
  | _, _ => false

/-- The rounds that rounds in a row consist of, up to one that fails. -/
def roundsTrail (S : Strategy σ) (parent : Program) : Nat → Engine × Fuzzer σ → List (Round σ)
  | 0, _ => []
  | n + 1, s => ⟨parent, s⟩ :: match outcome (S.round parent) s with
    | (.ok q, s') => S.roundsTrail q n s'
    | (.error _, _) => []

/-- The rounds of an iteration. -/
def iterationTrail (S : Strategy σ) (s : Engine × Fuzzer σ) : List (Round σ) :=
  match outcome S.opening s with
  | (.ok (some (parent, n)), s') => S.roundsTrail parent n s'
  | _ => []

/-- The rounds of a run, in turn. -/
def trail (S : Strategy σ) : Nat → Engine × Fuzzer σ → List (Round σ)
  | 0, _ => []
  | n + 1, s => S.iterationTrail s ++ match outcome S.fuzzOne s with
    | (.ok _, s') => S.trail n s'
    | (.error _, _) => []

/-- Between two states, the books tell of the attempts of these rounds in turn and of as many generated
programs as they deliver. -/
structure Follows (S : Strategy σ) (s : Engine × Fuzzer σ) (rs : List (Round σ))
    (s' : Engine × Fuzzer σ) : Prop where
  attempts : s'.1.attempts = s.1.attempts ++ rs.flatMap S.attempts
  generated : s'.1.events.countP Event.isGenerated =
    s.1.events.countP Event.isGenerated + rs.countP S.delivers

variable {s s' s'' : Engine × Fuzzer σ} {rs rs' : List (Round σ)}

theorem Follows.trans (h : S.Follows s rs s') (h' : S.Follows s' rs' s'') :
    S.Follows s (rs ++ rs') s'' where
  attempts := by rw [h'.attempts, h.attempts, List.flatMap_append, List.append_assoc]
  generated := by rw [h'.generated, h.generated, List.countP_append, Nat.add_assoc]

theorem Follows.of_still (h : s.1.books.Still s'.1.books) : S.Follows s [] s' where
  attempts := h.1.trans (List.append_nil _).symm
  generated := h.2

theorem IsFair.follows_round (hS : S.IsFair) (parent : Program) (s : Engine × Fuzzer σ) :
    S.Follows s [⟨parent, s⟩] (outcome (S.round parent) s).2 := by
  have hreports := hS.reports parent s
  refine ⟨hreports.attempts.trans (congrArg _ (List.append_nil _).symm), ?_⟩
  rw [List.countP_singleton]
  unfold delivers
  simp only
  have hnone (h : ∀ name q, (outcome (S.derive parent) s).1 ≠ .ok (some (name, some q))) :=
    congrArg (List.countP Event.isGenerated) (hreports.declined h)
  rcases hd : (outcome (S.derive parent) s).1 with e | - | ⟨name, - | q⟩
  · exact hnone (by rw [hd]; exact nofun)
  · exact hnone (by rw [hd]; exact nofun)
  · exact hnone (by rw [hd]; exact nofun)
  · have hderived := hreports.derived name q hd
    cases hr : (outcome (S.round parent) s).1 with
    | ok q' =>
      rw [hr] at hderived
      obtain ⟨p, event, hevents, hkind⟩ := hderived
      have hevent : event.isGenerated = false := by
        cases event with
        | generated p => cases hkind
        | _ => rfl
      rw [hevents, List.countP_append, List.countP_cons, List.countP_singleton, hevent]
      rfl
    | error f =>
      rw [hr] at hderived
      exact congrArg (List.countP Event.isGenerated) hderived

theorem IsFair.follows_rounds (hS : S.IsFair) (parent : Program) (n : Nat)
    (s : Engine × Fuzzer σ) :
    S.Follows s (S.roundsTrail parent n s) (outcome (S.rounds parent n) s).2 := by
  induction n generalizing parent s with
  | zero => exact .of_still ⟨rfl, rfl⟩
  | succ n ih =>
    have hround := hS.follows_round parent s
    unfold rounds roundsTrail
    rw [outcome_bind]
    cases houtcome : outcome (S.round parent) s with
    | mk r s' =>
      rw [houtcome] at hround
      cases r with
      | ok q => exact hround.trans (ih q s')
      | error e => exact hround

theorem IsFair.follows_fuzzOne (hS : S.IsFair) (s : Engine × Fuzzer σ) :
    S.Follows s (S.iterationTrail s) (outcome S.fuzzOne s).2 := by
  have hreset (b : Books) (n : Nat) : b.Still { b with events := b.events ++ [.reset n] } :=
    ⟨rfl, List.countP_append⟩
  have hopening := (S.moves_opening (J := fun _ => True) hreset s trivial).1
  rw [fuzzOne_eq, outcome_bind]
  unfold iterationTrail
  cases houtcome : outcome S.opening s with
  | mk r s' =>
    rw [houtcome] at hopening
    have hstart : S.Follows s [] s' := .of_still hopening
    rcases r with e | - | ⟨parent, n⟩
    · exact hstart
    · exact hstart
    · have hrounds := hstart.trans (hS.follows_rounds parent n s')
      simp only
      rw [outcome_bind]
      cases houtcome : outcome (S.rounds parent n) s' with
      | mk r s'' =>
        rw [houtcome] at hrounds
        cases r <;> exact hrounds

/-- The books of a run tell of its rounds. -/
theorem IsFair.follows_iterations (hS : S.IsFair) (n : Nat) (s : Engine × Fuzzer σ) :
    S.Follows s (S.trail n s) (outcome (S.iterations n) s).2 := by
  induction n generalizing s with
  | zero => exact .of_still ⟨rfl, rfl⟩
  | succ n ih =>
    have hone := hS.follows_fuzzOne s
    unfold iterations trail
    rw [outcome_bind]
    cases houtcome : outcome S.fuzzOne s with
    | mk r s' =>
      rw [houtcome] at hone
      cases r with
      | ok p =>
        have hboth := hone.trans (ih s')
        simp only
        rw [outcome_bind]
        cases hrest : outcome (S.iterations n) s' with
        | mk r s'' =>
          rw [hrest] at hboth
          cases r <;> exact hboth
      | error e =>
        rw [← List.append_nil (S.iterationTrail s)] at hone
        exact hone

/-! ## The engine's own decisions -/

theorem isFair_own : (own : Strategy σ).IsFair := by
  have hderive (parent : Program) :
      OffBooks ((own : Strategy σ).derive parent) fun r =>
        parent.Credits → ∀ name q, r = some (name, some q) → q.Credits := by
    refine moves_get.bind fun s _ => (moves_work (returns_true _)).bind fun choice _ => ?_
    cases s.mutators[choice]? with
    | none => exact moves_pure nofun
    | some m =>
      have hmutate : Returns (m.mutate parent : Fuzzing σ (Option Program × Mutator)) fun r =>
          parent.Credits → ∀ q, r.1 = some q → q.Credits := by
        by_cases hp : parent.Credits
        · exact (m.returns_mutate hp).mono (fun r hr _ => hr) fun _ h => h
        · exact (returns_true _).mono (fun r _ h => absurd h hp) fun _ h => h
      refine (moves_work hmutate).bind fun r hr => ?_
      refine Moves.bind (P := fun _ => True) (fun _ _ => ⟨rfl, fun _ _ => trivial⟩) fun _ _ => ?_
      apply moves_pure
      intro hp name q hq
      simp only [Option.some.injEq, Prod.mk.injEq] at hq
      exact hr hp q hq.2
  exact ⟨fun parent s => (hderive parent s trivial).1.symm, fun _ _ _ => rfl,
    fun parent s name q hp hq => (hderive parent s trivial).2 _ hq hp name q rfl⟩

/-- Whatever the mutators, the evaluator, the executor and the random stream are, the books are
balanced after any number of iterations and tell of the rounds that were made, and no round reports more
or less than became of it. -/
theorem accounts_iterations (hS : S.IsFair) {s : Engine} (hstatistics : s.statistics = {})
    (hevents : s.events = []) (hattempts : s.attempts = [])
    (hcorpus : ∀ p ∈ s.corpus.programs, p.Credits) (f : Fuzzer σ) (n : Nat) :
    (outcome (S.iterations n) (s, f)).2.1.books.Balanced s.corpus.size ∧
      S.Follows (s, f) (S.trail n (s, f)) (outcome (S.iterations n) (s, f)).2 ∧
      ∀ parent t, S.Reports parent t :=
  ⟨hS.balanced hstatistics hevents hattempts hcorpus f n, hS.follows_iterations n (s, f), hS.reports⟩

def callableStart : Engine × Fuzzer Unit :=
  (start {} [FollowUp.oneValue] (.novelty {}), callableWorker)

theorem accounts_iterations_own_callable :
    (outcome ((own : Strategy Unit).iterations 1) callableStart).2.1.books.Balanced 1 ∧
      (own : Strategy Unit).Follows callableStart (own.trail 1 callableStart)
        (outcome (own.iterations 1) callableStart).2 ∧
      (∀ parent t, (own : Strategy Unit).Reports parent t) ∧
      (own.trail 1 callableStart).map own.delivers = [true] := by
  have hcorpus : (start {} [FollowUp.oneValue] (.novelty {})).corpus.programs =
      [FollowUp.oneValue.stripInternal] := rfl
  have hcredits : ∀ p ∈ (start {} [FollowUp.oneValue] (.novelty {})).corpus.programs,
      p.Credits := by
    rw [hcorpus]
    intro p hp
    rw [List.mem_singleton.mp hp]
    exact .nil
  have hsize : (start {} [FollowUp.oneValue] (.novelty {})).corpus.size = 1 := rfl
  have haccounts := accounts_iterations (s := start {} [FollowUp.oneValue] (.novelty {})) isFair_own
    rfl rfl rfl hcredits callableWorker 1
  rw [hsize] at haccounts
  unfold callableStart
  exact ⟨haccounts.1, haccounts.2.1, haccounts.2.2, by decide +kernel⟩

end Strategy

/-- The books of the engine's own loop are balanced. -/
theorem Engine.balanced_iterations {σ : Type} {s : Engine} (hstatistics : s.statistics = {})
    (hevents : s.events = []) (hattempts : s.attempts = [])
    (hcorpus : ∀ p ∈ s.corpus.programs, p.Credits) (f : Fuzzer σ) (n : Nat) :
    (outcome (iterations n) (s, f)).2.1.books.Balanced s.corpus.size := by
  rw [← Strategy.iterations_own]
  exact Strategy.isFair_own.balanced hstatistics hevents hattempts hcorpus f n

end ScriptFuzz
