import ScriptFuzz.Proofs.Builder.Construction

/-!
# What building gives, if it gives anything

`Constructing.Gives x b Q` says of an action that builds code that its result and the builder
afterwards satisfy `Q` whenever there is a result. In contrast to `Building.Yields` it says nothing
about faults, so that nothing has to be known about the code that is built. `Preserves I x Q` is the
form that this takes for an invariant of builders.
-/

namespace ScriptFuzz

set_option autoImplicit false

namespace Constructing

open Building

section

variable {m : Type → Type} [Monad m] [MonadStateOf Builder m] [MonadExceptOf Fault m] [Building m]
  {α β : Type} {x : m α} {b b' : Builder} {Q Q' : α → Builder → Prop}

/-- Where the action, run from a builder, gives a result, it and the builder satisfy a condition. -/
def Gives (x : m α) (b : Builder) (Q : α → Builder → Prop) : Prop :=
  Ends x b Q fun _ => True

theorem mono (h : Gives x b Q) (hQ : ∀ a b', Q a b' → Q' a b') : Gives x b Q' :=
  ends_mono h hQ fun _ => id

theorem pure {a : α} (h : Q a b) : Gives (Pure.pure a : m α) b Q := ends_pure h

theorem bind {f : α → m β} {Q : β → Builder → Prop}
    (h : Gives x b fun a b' => Gives (f a) b' Q) : Gives (x >>= f) b Q := ends_bind h

theorem get {Q : Builder → Builder → Prop} (h : Q b b) : Gives (getThe Builder : m Builder) b Q :=
  ends_get h

theorem modify {f : Builder → Builder} {Q : PUnit → Builder → Prop} (h : Q ⟨⟩ (f b)) :
    Gives (modifyThe Builder f : m PUnit) b Q := ends_modify h

theorem throw (f : Fault) : Gives (throw f : m α) b Q := ends_throw trivial

theorem gives_emit {op : Operation} {inputs : List Variable}
    {Q : List Variable → Builder → Prop}
    (h : ∀ produced b', b.emit op inputs = .ok (produced, b') → Q produced b') :
    Gives (Build.emit op inputs : m (List Variable)) b Q :=
  ends_emit (Fault.ends_iff_forall.mpr fun r hr => h r.1 r.2 hr)

theorem gives_emit_ {op : Operation} {inputs : List Variable} {Q : Unit → Builder → Prop}
    (h : ∀ produced b', b.emit op inputs = .ok (produced, b') → Q () b') :
    Gives (Build.emit_ op inputs : m Unit) b Q := by
  apply Constructing.bind
  apply gives_emit
  intro produced b' he
  exact Constructing.pure (h produced b' he)

theorem gives_emitOne {op : Operation} {inputs : List Variable} {Q : Variable → Builder → Prop}
    (h : ∀ v vs b', b.emit op inputs = .ok (v :: vs, b') → Q v b') :
    Gives (Build.emitOne op inputs : m Variable) b Q := by
  apply Constructing.bind
  apply gives_emit
  intro produced b' he
  cases produced with
  | nil => exact Constructing.throw _
  | cons v vs => exact Constructing.pure (h v vs b' he)

theorem gives_adoptAs {i : Instruction} {op : Operation} {Q : List Variable → Builder → Prop}
    (h : ∀ produced b', b.adoptAs i op = .ok (produced, b') → Q produced b') :
    Gives (Build.adoptAs i op : m (List Variable)) b Q :=
  ends_adoptAs (Fault.ends_iff_forall.mpr fun r hr => h r.1 r.2 hr)

theorem gives_adopted {v : Variable} {Q : Variable → Builder → Prop}
    (h : ∀ w, b.adopted v = .ok w → Q w b) : Gives (Build.adopted v : m Variable) b Q :=
  ends_adopted (Fault.ends_iff_forall.mpr h)

theorem gives_appendProgram {p : Program} {Q : Unit → Builder → Prop}
    (h : ∀ b', b.appendProgram p = .ok b' → Q () b') :
    Gives (Build.appendProgram p : m Unit) b Q := ends_appendProgram (Fault.ends_iff_forall.mpr h)

end

/-! ## Runs -/

section

variable {α : Type} {b : Builder} {Q : α → Builder → Prop}

theorem gives_iff {x : StateT Builder (Except Fault) α} :
    Gives x b Q ↔ ∀ r, x.run b = .ok r → Q r.1 r.2 := Fault.ends_iff_forall

end

end Constructing

/-! ## Invariants -/

section

variable {m : Type → Type} [Monad m] [MonadStateOf Builder m] [MonadExceptOf Fault m]
  [Building m] {α β : Type} {I : Builder → Prop} {Q : α → Prop} {R : β → Prop}

open Constructing

/-- Where the action gives a result, the result satisfies a condition, and the builder satisfies the
invariant if it did before. -/
def Preserves (I : Builder → Prop) (x : m α) (Q : α → Prop) : Prop :=
  ∀ b, I b → Gives x b fun a b' => I b' ∧ Q a

/-- An invariant holds of a builder after an emission of the operation if it did before. -/
def KeptBy (I : Builder → Prop) (op : Operation) : Prop :=
  ∀ b inputs r, I b → b.emit op inputs = .ok r → I r.2

theorem preserves_pure {a : α} (h : Q a) : Preserves I (Pure.pure a : m α) Q :=
  fun _ hb => Constructing.pure ⟨hb, h⟩

theorem preserves_throw (f : Fault) : Preserves I (throw f : m α) Q := fun _ _ => Constructing.throw f

theorem Preserves.bind {x : m α} {f : α → m β} (hx : Preserves I x Q)
    (hf : ∀ a, Q a → Preserves I (f a) R) : Preserves I (x >>= f) R := by
  intro b hb
  apply Constructing.bind
  apply Constructing.mono (hx b hb)
  rintro a b' ⟨hb', ha⟩
  exact hf a ha b' hb'

theorem preserves_get : Preserves I (getThe Builder : m Builder) fun _ => True :=
  fun _ hb => Constructing.get ⟨hb, trivial⟩

section

variable {op : Operation} (h : KeptBy I op) (inputs : List Variable)
include h

theorem preserves_emit :
    Preserves I (Build.emit op inputs : m (List Variable)) fun _ => True := by
  intro b hb
  apply gives_emit
  intro produced b' he
  exact ⟨h b inputs _ hb he, trivial⟩

theorem preserves_emit_ : Preserves I (Build.emit_ op inputs : m Unit) fun _ => True :=
  (preserves_emit h inputs).bind fun _ _ => preserves_pure trivial

theorem preserves_emitOne : Preserves I (Build.emitOne op inputs : m Variable) fun _ => True := by
  apply (preserves_emit h inputs).bind
  intro produced _
  cases produced with
  | nil => exact preserves_throw _
  | cons v vs => exact preserves_pure trivial

end

theorem preserves_reuseBuiltin {name : String} (h : KeptBy I (.loadBuiltin name)) :
    Preserves I (Build.reuseBuiltin name : m Variable) fun _ => True := by
  apply preserves_get.bind
  intro b _
  split
  · exact preserves_pure trivial
  · exact preserves_emitOne h _

theorem preserves_tryCatch {body : m Unit} (hbody : Preserves I body fun _ => True)
    (htry : KeptBy I .beginTry) (hcatch : KeptBy I .beginCatch)
    (hend : KeptBy I .endTryCatchFinally) :
    Preserves I (Build.tryCatch body fun _ => Pure.pure ()) fun _ => True := by
  apply (preserves_emit_ htry []).bind
  intro _ _
  apply hbody.bind
  intro _ _
  apply (preserves_emitOne hcatch []).bind
  intro _ _
  apply (preserves_pure (Q := fun _ => True) trivial).bind
  intro _ _
  exact preserves_emit_ hend []

theorem preserves_adopted (v : Variable) :
    Preserves I (Build.adopted v : m Variable) fun _ => True :=
  fun _ hb => gives_adopted fun _ _ => ⟨hb, trivial⟩

end

section

variable {α : Type} {I : Builder → Prop}

open Constructing

theorem preserves_draw (d : Draw α) : Preserves I (liftM d : Assembly α) fun _ => True :=
  fun _ hb => Building.ends_draw fun _ => ⟨hb, trivial⟩

end

end ScriptFuzz
