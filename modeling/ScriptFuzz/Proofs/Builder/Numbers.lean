import ScriptFuzz.Proofs.Builder.Outcome
import ScriptFuzz.Proofs.Builder.Room

/-!
# How many numbers building takes

`Spends I n x Q` adds a budget to `Preserves I x Q`: the action takes at most `n` numbers for
variables, and runs short of memory or of numbers only where there is no room for so many. Budgets add
up along a sequence of actions (`Spends.bind`), and every action of a builder declares a known number
of variables, so the budget of a whole construction is read off its parts.
-/

namespace ScriptFuzz

set_option autoImplicit false

open Building Builder

section

variable {m : Type → Type} [Monad m] [MonadStateOf Builder m] [MonadExceptOf Fault m] [Building m]
  {α β : Type} {I : Builder → Prop} {Q : α → Prop} {R : β → Prop} {x : m α} {n k : Nat}

/-- The action preserves the invariant and takes at most `n` numbers for variables. It runs short only
where there is no room for so many. -/
def Spends (I : Builder → Prop) (n : Nat) (x : m α) (Q : α → Prop) : Prop :=
  ∀ b, I b → Ends x b (fun a b' => (I b' ∧ Q a) ∧ b'.nextVariable ≤ b.nextVariable + n) (b.Fails n)

/-- What the action takes, whatever is known of the builder. -/
abbrev Needs (n : Nat) (x : m α) : Prop := Spends (fun _ => True) n x fun _ => True

theorem Spends.preserves (h : Spends I n x Q) : Preserves I x Q := fun b hb =>
  ends_mono (h b hb) (fun _ _ hr => hr.1) fun _ _ => trivial

theorem Preserves.spends (h : Preserves I x Q) (hneeds : Needs n x) : Spends I n x Q := by
  intro b hb
  refine ends_mono (ends_and (h b hb) (hneeds b trivial)) ?_ fun _ hf => hf.2
  rintro a b' ⟨hkept, -, hnext⟩
  exact ⟨hkept, hnext⟩

theorem Spends.mono (h : Spends I n x Q) (hle : n ≤ k) : Spends I k x Q := by
  intro b hb
  refine ends_mono (h b hb) ?_ fun f hf => hf.mono hle
  rintro a b' ⟨hkept, hnext⟩
  exact ⟨hkept, Nat.le_trans hnext (Nat.add_le_add_left hle _)⟩

theorem spends_pure {a : α} (h : Q a) : Spends I 0 (Pure.pure a : m α) Q := fun _ hb =>
  ends_pure ⟨⟨hb, h⟩, Nat.le_refl _⟩

theorem spends_throw {f : Fault} (h : f.isShortage = false) : Spends I n (throw f : m α) Q :=
  fun _ _ => ends_throw (fails_of_not_shortage h n)

/-- More than fits in memory was asked for. -/
theorem spends_oversized (h : capacity ≤ n) : Spends I n (throw .oversized : m α) Q := fun b _ =>
  have hlimit : Variable.limit ≤ capacity := by decide
  ends_throw ⟨fun _ => Nat.le_trans hlimit (Nat.le_add_left_of_le h), fun _ => h⟩

/-- One action after the other takes what both take. -/
theorem Spends.bind {f : α → m β} (hx : Spends I n x Q) (hf : ∀ a, Q a → Spends I k (f a) R) :
    Spends I (n + k) (x >>= f) R := by
  intro b hb
  refine ends_bind (ends_mono (hx b hb) ?_ fun f hf => hf.mono (Nat.le_add_right n k))
  rintro a b' ⟨⟨hb', ha⟩, hnext⟩
  refine ends_mono (hf a ha b' hb') ?_ fun f hf => hf.after hnext
  rintro c b'' ⟨hkept, hnext'⟩
  exact ⟨hkept, by omega⟩

/-- An action that takes no number. -/
theorem Spends.bind_free {f : α → m β} (hx : Spends I 0 x Q) (hf : ∀ a, Q a → Spends I n (f a) R) :
    Spends I n (x >>= f) R := (hx.bind hf).mono (Nat.le_of_eq (Nat.zero_add n))

theorem Spends.post {Q' : α → Prop} (h : Spends I n x Q) (hQ : ∀ a, Q a → Q' a) :
    Spends I n x Q' := fun b hb =>
  ends_mono (h b hb) (fun a _ hr => ⟨⟨hr.1.1, hQ a hr.1.2⟩, hr.2⟩) fun _ => id

/-- What is built from the first number on falls short only where there are no more numbers than the
action takes. -/
theorem Building.Yields.within {b : Builder} {Q : α → Builder → Prop} (h : Yields x b Q)
    (hneeds : Needs n x) (hb : b.nextVariable = 0) :
    Ends x b Q fun f => f.isShortage = true ∧ Variable.limit ≤ n := by
  refine ends_mono (ends_and h (hneeds b trivial)) (fun _ _ hr => hr.1) ?_
  rintro f ⟨hshort, hfails⟩
  have hlimit := hfails.numbers hshort
  rw [hb, Nat.zero_add] at hlimit
  exact ⟨hshort, hlimit⟩

theorem spends_get : Spends I 0 (getThe Builder : m Builder) fun _ => True := fun _ hb =>
  ends_get ⟨⟨hb, trivial⟩, Nat.le_refl _⟩

theorem needs_beginAdoption : Needs 0 (Build.beginAdoption : m Unit) := fun _ _ =>
  ends_modify ⟨⟨trivial, trivial⟩, Nat.le_refl _⟩

/-! ## Emissions -/

section

variable (op : Operation) (inputs : List Variable)

theorem needs_emit : Needs (declares op) (Build.emit op inputs : m (List Variable)) := by
  intro b _
  apply ends_emit
  cases he : b.emit op inputs with
  | ok r =>
    refine ⟨⟨trivial, trivial⟩, ?_⟩
    rw [(continues_emit he).next, List.map_singleton, List.sum_singleton]
  | error f => exact fails_of_emit he

variable {op} (h : KeptBy I op)
include h

theorem spends_emit : Spends I (declares op) (Build.emit op inputs : m (List Variable)) fun _ => True :=
  (preserves_emit h inputs).spends (needs_emit op inputs)

theorem spends_emit_ : Spends I (declares op) (Build.emit_ op inputs : m Unit) fun _ => True :=
  (spends_emit inputs h).bind fun _ _ => spends_pure trivial

theorem spends_emitOne : Spends I (declares op) (Build.emitOne op inputs : m Variable) fun _ => True := by
  refine (spends_emit inputs h).bind fun vs _ => (?_ : Spends I 0 _ _)
  cases vs with
  | nil => exact spends_throw rfl
  | cons v vs => exact spends_pure trivial

end

theorem keptBy_true (op : Operation) : KeptBy (fun _ => True) op := fun _ _ _ _ _ => trivial

theorem spends_reuseBuiltin {name : String} (h : KeptBy I (.loadBuiltin name)) :
    Spends I 1 (Build.reuseBuiltin name : m Variable) fun _ => True := by
  refine (spends_get.bind fun b _ => (?_ : Spends I 1 _ _)).mono (Nat.le_refl _)
  split
  · exact (spends_pure trivial).mono (Nat.zero_le 1)
  · exact spends_emitOne [] h

/-- A guarded region takes a number for the exception beside what its body takes. -/
theorem needs_tryCatch {body : m Unit} (hbody : Needs n body) :
    Needs (n + 1) (Build.tryCatch body fun _ => Pure.pure ()) := by
  have hregion := (spends_emit_ (m := m) [] (keptBy_true .beginTry)).bind fun _ _ =>
    hbody.bind fun _ _ => (spends_emitOne [] (keptBy_true .beginCatch)).bind fun _ _ =>
      (spends_pure (a := ()) (Q := fun _ => True) trivial).bind fun _ _ =>
        spends_emit_ [] (keptBy_true .endTryCatchFinally)
  refine hregion.mono ?_
  change 0 + (n + (1 + (0 + 0))) ≤ _
  omega

/-! ## Copies -/

theorem needs_adoptAs (i : Instruction) (op : Operation) :
    Needs (declares op) (Build.adoptAs i op : m (List Variable)) := by
  intro b _
  apply ends_adoptAs
  cases ha : b.adoptAs i op with
  | ok r =>
    refine ⟨⟨trivial, trivial⟩, ?_⟩
    rw [(continues_adoptAs ha).next, List.map_singleton, List.sum_singleton]
  | error f => exact fails_of_adoptAs ha

theorem needs_adopt (i : Instruction) :
    Needs i.allOutputs.length (Build.adopt i : m (List Variable)) :=
  (needs_adoptAs i i.op).mono (Nat.le_of_eq (declares_eq i))

theorem needs_adopted (v : Variable) : Needs 0 (Build.adopted v : m Variable) := by
  intro b _
  apply ends_adopted
  cases ha : b.adopted v with
  | ok w => exact ⟨⟨trivial, trivial⟩, Nat.le_refl _⟩
  | error f => exact fails_of_not_shortage (isShortage_eq_false_of_adopted ha) 0

theorem needs_appendProgram (p : Program) :
    Needs p.code.numVariables (Build.appendProgram p : m Unit) := by
  intro b _
  apply ends_appendProgram
  cases ha : b.appendProgram p with
  | ok b' =>
    refine ⟨⟨trivial, trivial⟩, ?_⟩
    rw [(continues_adoptAll ha).next, sum_declares]
    exact Nat.le_refl _
  | error f =>
    have hfails : b.beginAdoption.Fails p.code.numVariables f := fails_of_adoptAll ha
    exact ⟨hfails.numbers, hfails.memory⟩

end

/-! ## Random choices -/

section

variable {σ α : Type} {I : Builder → Prop} {Q : α → Prop} {d : Draw α}

theorem spends_draw (h : ∀ r, Q (d.run r).1) : Spends I 0 (liftM d : Assembly α) Q := fun _ hb =>
  ends_draw fun r => ⟨⟨hb, h r⟩, Nat.le_refl _⟩

theorem spends_draw_beside (h : ∀ r, Q (d.run r).1) :
    Spends I 0 (liftM d : StateT σ Assembly α) Q := fun _ hb =>
  ends_draw_beside fun r => ⟨⟨hb, h r⟩, Nat.le_refl _⟩

theorem spends_draw_bind {β : Type} {f : α → StateT σ Assembly β} {R : β → Prop} {n : Nat}
    (hf : ∀ a, Spends I n (f a) R) : Spends I n ((liftM d : StateT σ Assembly α) >>= f) R :=
  (spends_draw_beside (Q := fun _ => True) fun _ => trivial).bind_free fun a _ => hf a

theorem spends_getState : Spends I 0 (getThe σ : StateT σ Assembly σ) fun _ => True := fun _ hb =>
  ends_getState fun _ => ⟨⟨hb, trivial⟩, Nat.le_refl _⟩

theorem spends_setState (s : σ) :
    Spends I 0 (MonadStateOf.set s : StateT σ Assembly PUnit) fun _ => True := fun _ hb =>
  ends_setState ⟨⟨hb, trivial⟩, Nat.le_refl _⟩

theorem spends_randomVariable :
    Spends I 0 (Build.randomVariable : StateT σ Assembly (Option Variable)) fun _ => True :=
  fun _ hb => ends_randomVariable fun _ _ => ⟨⟨hb, trivial⟩, Nat.le_refl _⟩

end

end ScriptFuzz
