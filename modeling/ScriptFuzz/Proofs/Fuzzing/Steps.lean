import ScriptFuzz.Proofs.Builder.Construction

/-!
# How steps end

`Fares x s Q E` says of a step with a state how it ends when it is run from `s`, with a rule for each
way in which steps are put together. `Finishes x Q E` is the case in which neither the state before nor
the one afterwards matters, and `Returns x Q` the one that says nothing about faults.
-/

namespace ScriptFuzz

set_option autoImplicit false

section

variable {σ α β : Type}

/-- Run from a state, the step ends in a result and a state that satisfy one condition, or in a fault
and a state that satisfy another. -/
def Fares (x : ExceptT Fault (StateM σ) α) (s : σ) (Q : α → σ → Prop) (E : Fault → σ → Prop) : Prop :=
  Fault.Ends (x.run.run s).1 (fun a => Q a (x.run.run s).2) fun f => E f (x.run.run s).2

variable {x : ExceptT Fault (StateM σ) α} {f : α → ExceptT Fault (StateM σ) β} {s : σ}
  {Q Q' : α → σ → Prop} {R : β → σ → Prop} {E E' : Fault → σ → Prop}

theorem run_bind_of_run (x : ExceptT Fault (StateM σ) α) (f : α → ExceptT Fault (StateM σ) β)
    (s : σ) : (x >>= f).run.run s = match x.run.run s with
      | (.ok a, s') => (f a).run.run s'
      | (.error e, s') => (.error e, s') := by
  unfold ExceptT.run StateT.run
  simp only [Bind.bind, StateT.bind, ExceptT.bind, ExceptT.mk, ExceptT.bindCont]
  cases x s with
  | mk result next => cases result <;> rfl

theorem Fares.mono (h : Fares x s Q E) (hQ : ∀ a s', Q a s' → Q' a s')
    (hE : ∀ f s', E f s' → E' f s') : Fares x s Q' E' :=
  Fault.Ends.mono h (fun a => hQ a _) fun f => hE f _

theorem fares_pure {a : α} (h : Q a s) : Fares (pure a) s Q E := h

theorem fares_bind (h : Fares x s (fun a s' => Fares (f a) s' R E) E) : Fares (x >>= f) s R E := by
  unfold Fares at h ⊢
  rw [run_bind_of_run]
  cases hxs : x.run.run s with
  | mk result next =>
    rw [hxs] at h
    cases result with
    | ok a => exact h
    | error e => exact h

theorem fares_get {Q : σ → σ → Prop} (h : Q s s) : Fares (getThe σ) s Q E := h

theorem fares_set {s' : σ} {Q : PUnit → σ → Prop} (h : Q ⟨⟩ s') :
    Fares (MonadStateOf.set s') s Q E := h

theorem fares_modify {g : σ → σ} {Q : PUnit → σ → Prop} (h : Q ⟨⟩ (g s)) :
    Fares (modifyThe σ g) s Q E := h

theorem fares_throw {e : Fault} (h : E e s) : Fares (throw e) s Q E := h

theorem fares_orRaise {outcome : Except Fault α}
    (h : Fault.Ends outcome (fun a => Q a s) fun f => E f s) :
    Fares (Build.orRaise outcome) s Q E := by
  cases outcome with
  | ok a => exact fares_pure h
  | error e => exact fares_throw h

end

/-! ## Steps that finish from any state -/

section

variable {σ α β : Type}

/-- From every state, the step ends in a result that satisfies one condition, or in a fault that
satisfies another. -/
def Finishes (x : ExceptT Fault (StateM σ) α) (Q : α → Prop) (E : Fault → Prop) : Prop :=
  ∀ s, Fares x s (fun a _ => Q a) fun f _ => E f

/-- Where the step gives a result, it satisfies the condition. -/
abbrev Returns (x : ExceptT Fault (StateM σ) α) (Q : α → Prop) : Prop := Finishes x Q fun _ => True

variable {x : ExceptT Fault (StateM σ) α} {f : α → ExceptT Fault (StateM σ) β} {P Q Q' : α → Prop}
  {R : β → Prop} {E E' : Fault → Prop}

theorem Finishes.mono (h : Finishes x Q E) (hQ : ∀ a, Q a → Q' a) (hE : ∀ f, E f → E' f) :
    Finishes x Q' E' := fun s => (h s).mono (fun a _ => hQ a) fun f _ => hE f

theorem finishes_pure {a : α} (h : Q a) : Finishes (pure a : ExceptT Fault (StateM σ) α) Q E :=
  fun _ => fares_pure h

theorem Finishes.bind (hx : Finishes x P E) (hf : ∀ a, P a → Finishes (f a) R E) :
    Finishes (x >>= f) R E := fun s =>
  fares_bind ((hx s).mono (fun a s' ha => hf a ha s') fun _ _ => id)

theorem finishes_throw {e : Fault} (h : E e) :
    Finishes (throw e : ExceptT Fault (StateM σ) α) Q E := fun _ => fares_throw h

theorem finishes_orRaise {outcome : Except Fault α} (h : Fault.Ends outcome Q E) :
    Finishes (Build.orRaise outcome : ExceptT Fault (StateM σ) α) Q E := fun _ => fares_orRaise h

theorem finishes_liftExcept {outcome : Except Fault α} (h : Fault.Ends outcome Q E) :
    Finishes (liftExcept outcome : ExceptT Fault (StateM σ) α) Q E := by
  cases outcome with
  | ok a => exact finishes_pure h
  | error e => exact finishes_throw h

/-- A builder that holds code without open blocks is finished without a fault. -/
theorem finishes_finalize {b : Builder} {q : Code.Progress} (h : b.Holds q) (hq : q.blocks = [])
    (id : Uuid) : Finishes (liftExcept (b.finalize id) : ExceptT Fault (StateM σ) Program)
      (fun p => p.code.IsSound) E := by
  obtain ⟨p, hp, -, hsound⟩ := h.exists_finalize hq id
  apply finishes_liftExcept
  rw [hp]
  exact hsound

theorem Returns.result {s : σ} {a : α} (h : Returns x Q) (ha : (x.run.run s).1 = .ok a) : Q a :=
  Fault.ends_iff_forall.mp (h s) a ha

theorem returns_orRaise {outcome : Except Fault α} (h : ∀ a, outcome = .ok a → Q a) :
    Returns (Build.orRaise outcome : ExceptT Fault (StateM σ) α) Q :=
  finishes_orRaise (Fault.ends_iff_forall.mpr h)

theorem returns_liftExcept {outcome : Except Fault α} (h : ∀ a, outcome = .ok a → Q a) :
    Returns (liftExcept outcome : ExceptT Fault (StateM σ) α) Q :=
  finishes_liftExcept (Fault.ends_iff_forall.mpr h)

theorem returns_true (x : ExceptT Fault (StateM σ) α) : Returns x fun _ => True := fun _ =>
  Fault.ends_iff_forall.mpr fun _ _ => trivial

end

/-! ## Random choices -/

section

variable {α : Type} {E : Fault → Prop}

theorem finishes_draw {d : Draw α} {Q : α → Prop} (h : ∀ r, Q (d.run r).1) :
    Finishes (liftM d : ExceptT Fault (StateM Random) α) Q E := h

/-- Code that is built with random choices. -/
theorem finishes_assembly {x : Assembly α} {b : Builder} {Q : α → Builder → Prop}
    (h : Building.Ends x b Q E) : Finishes (x.run b) (fun r => Q r.1 r.2) E := h

end

/-! ## Steps of a worker -/

namespace Fuzzing

variable {σ α : Type} {f : Fuzzer σ} {E : Fault → Fuzzer σ → Prop}

theorem fares_freshId {Q : Uuid → Fuzzer σ → Prop}
    (h : Q (.fresh f.serial) { f with serial := f.serial + 1 }) : Fares freshId f Q E := h

theorem fares_draw {d : ExceptT Fault (StateM Random) α} {Q : α → Fuzzer σ → Prop}
    (h : Fares d f.random (fun a random => Q a { f with random })
      fun e random => E e { f with random }) : Fares (draw d) f Q E := by
  unfold draw
  refine fares_bind (fares_get ?_)
  unfold Fares at h
  cases hd : d.run.run f.random with
  | mk r random =>
    rw [hd] at h
    exact fares_bind (fares_set (fares_orRaise h))

/-- Using the random source of a worker. -/
theorem finishes_draw {d : ExceptT Fault (StateM Random) α} {Q : α → Prop} {E : Fault → Prop}
    (h : Finishes d Q E) : Finishes (draw d : Fuzzing σ α) Q E := fun f => fares_draw (h f.random)

end Fuzzing

end ScriptFuzz
