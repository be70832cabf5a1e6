import ScriptFuzz.Generator
import ScriptFuzz.Mutation.Mutator
import ScriptFuzz.Proofs.Builder.Outcome
import ScriptFuzz.Proofs.Builder.Room
import ScriptFuzz.Proofs.Fuzzing.Steps
import ScriptFuzz.Proofs.Mutation.Growth
import ScriptFuzz.Proofs.Ordered
import ScriptFuzz.Pruning

/-!
# Who contributed

No action that builds code touches the list of contributors (`Builder.CreditedTo`). A derived program
therefore lists the contributors of its origin and the mutator, and lists them as a set: names
ascending.
-/

namespace ScriptFuzz

set_option autoImplicit false

open Constructing

/-- The contributors form a set. -/
def Program.Credits (p : Program) : Prop := p.contributors.Pairwise (· < ·)

theorem Program.Credits.nodup {p : Program} (h : p.Credits) : p.contributors.Nodup := by
  apply List.Pairwise.imp _ h
  intro a b hlt heq
  subst heq
  exact String.lt_irrefl a hlt

/-- The contributors of the code under construction are these. -/
def Builder.CreditedTo (names : List String) (b : Builder) : Prop := b.contributors = names

open Builder (CreditedTo)

variable {names : List String}

theorem keptBy_creditedTo (op : Operation) : KeptBy (CreditedTo names) op := by
  intro b inputs r hb h
  exact (Builder.continues_emit h).contributors.trans hb

section

variable {m : Type → Type} [Monad m] [MonadStateOf Builder m] [MonadExceptOf Fault m]
  [Building m]

theorem credits_adoptAs (i : Instruction) (op : Operation) :
    Preserves (CreditedTo names) (Build.adoptAs i op : m (List Variable)) fun _ => True := by
  intro b hb
  apply gives_adoptAs
  intro produced b' h
  obtain ⟨inputs, b'', -, he, hr⟩ := Builder.exists_emit_of_adoptAs h
  have hemit := (Builder.continues_emit he).contributors
  rw [show b' = _ from hr]
  exact ⟨hemit.trans hb, trivial⟩

theorem credits_appendProgram (p : Program) :
    Preserves (CreditedTo names) (Build.appendProgram p : m Unit) fun _ => True := by
  intro b hb
  apply gives_appendProgram
  intro b' h
  exact ⟨(Builder.continues_adoptAll h).contributors.trans hb, trivial⟩

end

theorem FollowUp.lasting_creditedTo : Lasting (CreditedTo names) fun _ _ => True where
  emit op _ _ _ := keptBy_creditedTo op
  write _ _ _ := preserves_tryCatch (preserves_emit_ (keptBy_creditedTo _) _) (keptBy_creditedTo _)
    (keptBy_creditedTo _) (keptBy_creditedTo _)
  guarded op subject arguments _ _ := by
    apply preserves_tryCatch _ (keptBy_creditedTo _) (keptBy_creditedTo _) (keptBy_creditedTo _)
    apply preserves_get.bind
    intro b _
    apply (preserves_emitOne (keptBy_creditedTo _) _).bind
    intro index _
    apply (preserves_emitOne (keptBy_creditedTo op) _).bind
    intro result _
    apply (preserves_reuseBuiltin (keptBy_creditedTo _)).bind
    intro hook _
    exact (preserves_emitOne (keptBy_creditedTo _) _).bind fun _ _ => preserves_pure trivial

/-! ## Alterations and preambles -/

theorem Alteration.credits_alterAt (e : Environment) (chosen : List Nat) (is : Code) :
    Preserves (CreditedTo names) (alterAt e chosen is) fun _ => True := by
  induction is with
  | nil => exact preserves_pure trivial
  | cons i is ih =>
    unfold alterAt
    split
    · apply (preserves_draw _).bind
      intro op _
      exact (credits_adoptAs i op).bind fun _ _ => ih
    · exact (credits_adoptAs i i.op).bind fun _ _ => ih

theorem Generator.credits_emit (e : Environment) (g : Generator) :
    Preserves (CreditedTo names) (g.emit e) fun _ => True := by
  cases g with
  | builtin =>
    apply (preserves_draw _).bind
    intro name _
    cases name with
    | some name => exact preserves_emitOne (keptBy_creditedTo _) _
    | none =>
      exact (preserves_draw _).bind fun _ _ => preserves_emitOne (keptBy_creditedTo _) _
  | _ => exact (preserves_draw _).bind fun _ _ => preserves_emitOne (keptBy_creditedTo _) _

theorem Generator.credits_emitBuiltins (e : Environment) (n : Nat) :
    Preserves (CreditedTo names) (emitBuiltins e n) fun _ => True := by
  induction n with
  | zero => exact preserves_pure trivial
  | succ n ih => exact (credits_emit e builtin).bind fun _ _ => ih

/-! ## Derived programs -/

/-- What is built from a builder satisfies an invariant that the builder satisfies and the action
preserves. -/
theorem returns_built {α : Type} {x : Assembly α} {I : Builder → Prop} {Q : α → Prop}
    (hx : Preserves I x Q) {b : Builder} (hb : I b) :
    Returns (x.run b) fun r => I r.2 ∧ Q r.1 := finishes_assembly (hx b hb)

theorem Builder.contributors_finalize {b : Builder} {id : Uuid} {q : Program}
    (h : b.finalize id = .ok q) : q.contributors = b.contributors :=
  congrArg Program.contributors (eq_of_finalize h)

variable {p : Program} (id : Uuid)

theorem Program.returns_warmUp (p : Program) (e : Environment) :
    Returns (p.warmUp e id) fun q => q.contributors = p.contributors := by
  have hrest : Preserves (CreditedTo p.contributors) (do
      Generator.emitBuiltins e (1 + (← Draw.below .single 2))
      Build.appendProgram p : Assembly Unit) fun _ => True := by
    apply (preserves_draw _).bind
    intro n _
    exact (Generator.credits_emitBuiltins e _).bind fun _ _ => credits_appendProgram p
  refine Finishes.bind (returns_built (I := CreditedTo p.contributors) (Q := fun _ => True) ?_ rfl) ?_
  · apply (preserves_draw _).bind
    intro g _
    split
    · exact (Generator.credits_emit e _).bind fun _ _ => hrest
    · exact hrest
  · rintro ⟨_, b⟩ ⟨hb, -⟩
    apply returns_liftExcept
    intro q hq
    exact (Builder.contributors_finalize hq).trans hb

theorem Program.credits_finalize {b : Builder} {q : Program} {name : String} (hp : p.Credits)
    (hb : b.contributors = Ordered.insert name p.contributors) (h : b.finalize id = .ok q) :
    q.Credits := by
  unfold Credits
  rw [Builder.contributors_finalize h, hb]
  exact Ordered.pairwise_insert hp name

theorem Alteration.returns_mutate (s : MutationSettings) (e : Environment) (hp : p.Credits) :
    Returns (mutate s e id p) fun r => ∀ q, r = some q → q.Credits := by
  unfold mutate
  simp only
  split
  · exact finishes_pure nofun
  refine (returns_true _).bind fun count _ => ?_
  split
  · exact finishes_throw trivial
  refine (returns_true _).bind fun chosen _ => ?_
  refine (returns_built (credits_alterAt e chosen p.code) rfl).bind ?_
  rintro ⟨_, b⟩ ⟨hb, -⟩
  refine (returns_liftExcept fun q hq => Program.credits_finalize id hp hb hq).bind ?_
  intro r hr
  apply finishes_pure
  rintro q ⟨⟩
  exact hr

theorem FollowUp.returns_synthesize (s : MutationSettings) (e : Environment) (f : Frequencies)
    {o : Observed} (ho : o.program.Credits) :
    Returns (synthesize s e id f o) fun r => r.1.Credits := by
  refine (returns_true _).bind fun selected _ => ?_
  have hcopy : Preserves (CreditedTo (Ordered.insert name o.program.contributors))
      (copyAll s e o selected o.program.code) fun _ => True :=
    preserves_copyAll s e lasting_creditedTo (fun _ _ _ _ _ _ => trivial) selected
      fun i _ => credits_adoptAs i i.op
  have hstart : CreditedTo (Ordered.insert name o.program.contributors)
      (Builder.addContributor
        { Builder.derivedFrom o.program with contributors := o.program.contributors } name) := rfl
  refine Finishes.bind (finishes_assembly (hcopy _ hstart f)) ?_
  rintro ⟨⟨_, f'⟩, b⟩ ⟨hb, -⟩
  refine (returns_liftExcept fun q hq => Program.credits_finalize id ho hb hq).bind ?_
  intro r hr
  exact finishes_pure hr

theorem Mutator.credits_appended {extra q : Program} {name : String} (hp : p.Credits)
    (h : appended id name p extra = .ok q) : q.Credits := by
  unfold appended at h
  simp only [Bind.bind, Except.bind] at h
  split at h
  · cases h
  · rename_i b hb
    split at h
    · cases h
    · rename_i b' hb'
      have hcopied : b'.contributors = Ordered.insert name p.contributors :=
        (Builder.continues_adoptAll hb').contributors.trans
          (Builder.continues_adoptAll hb).contributors
      exact Program.credits_finalize id hp hcopied h

/-- Observing a program does not change it. -/
theorem Program.returns_observe {σ : Type} (p : Program) :
    Returns (p.observe : Fuzzing σ (Option Observed)) fun r => ∀ o, r = some o → o.program = p := by
  refine (returns_true _).bind fun id _ => (returns_true _).bind fun q _ => ?_
  refine (returns_true _).bind fun e _ => finishes_pure ?_
  intro o ho
  exact (reflectOn_eq_some ho).1

/-- Pruning leaves the contributors alone. -/
theorem Program.returns_pruneObserved {σ : Type} (p : Program) :
    Returns (p.pruneObserved : Fuzzing σ Program) fun q => q.contributors = p.contributors := by
  refine (returns_true _).bind fun o _ => (returns_true _).bind fun id _ => returns_orRaise ?_
  intro q hq
  unfold prune at hq
  split at hq
  · cases hq
    rfl
  · unfold without at hq
    simp only [Bind.bind, Except.bind] at hq
    split at hq
    · cases hq
    · rename_i b hb
      split at hq
      · cases hq
      · rename_i r hr
        cases hq
        exact (Builder.contributors_finalize hr).trans (Builder.continues_adoptAll hb).contributors

/-- A mutator lists itself beside the contributors of the origin. -/
theorem Mutator.returns_mutate {σ : Type} (m : Mutator) (hp : p.Credits) :
    Returns (m.mutate p : Fuzzing σ (Option Program × Mutator)) fun r =>
      ∀ q, r.1 = some q → q.Credits := by
  cases m with
  | followUp s f =>
    refine Finishes.bind (P := fun r => ∀ q, r = some q → q.1.Credits) ?_ ?_
    · refine p.returns_observe.bind ?_
      intro o ho
      cases o with
      | none => exact finishes_pure nofun
      | some o =>
        refine (returns_true _).bind fun id _ => (returns_true _).bind fun w _ => ?_
        have hprogram : o.program.Credits := by
          rw [ho o rfl]
          exact hp
        refine (Fuzzing.finishes_draw (FollowUp.returns_synthesize id s _ f hprogram)).bind ?_
        intro r hr
        apply finishes_pure
        rintro q ⟨⟩
        exact hr
    · intro r hr
      cases r with
      | none => exact finishes_pure nofun
      | some r =>
        apply finishes_pure
        rintro q ⟨⟩
        exact hr r rfl
  | alter s =>
    refine (returns_true _).bind fun id _ => (returns_true _).bind fun w _ => ?_
    refine (Fuzzing.finishes_draw (Alteration.returns_mutate id s _ hp)).bind ?_
    intro r hr
    exact finishes_pure hr
  | append extra =>
    refine (returns_true _).bind fun id _ => ?_
    refine (returns_orRaise fun q hq => credits_appended id hp hq).bind ?_
    intro r hr
    apply finishes_pure
    rintro q ⟨⟩
    exact hr
  | decline => exact finishes_pure nofun

end ScriptFuzz
