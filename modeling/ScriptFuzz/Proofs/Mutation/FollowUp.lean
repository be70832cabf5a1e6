import ScriptFuzz.Mutation.FollowUp
import ScriptFuzz.Proofs.Number.Order
import ScriptFuzz.Proofs.Program.Observation

/-!
# Following up values keeps code well formed

What is added to follow up a value is added where the value can be used: a statement or a function
may stand right after it, and only a class may not be used where its definition begins. So whatever
is selected and drawn, the copy is well formed (`FollowUp.yields_copyAll`), as long as the stated
arities leave room for a surplus argument (`Record.IsBounded`).
-/

namespace ScriptFuzz

set_option autoImplicit false

open Code Builder Building Number

namespace Record

/-- The arity is unknown, or one argument more than it can be counted. -/
def LeavesRoom (arity : Option Nat) : Prop := ∀ n, arity = some n → n + 1 < Operation.countLimit

/-- The arities that the record states leave room for a surplus argument. -/
structure IsBounded (r : Record) : Prop where
  arity : LeavesRoom r.arity
  methods : ∀ m ∈ r.methods, LeavesRoom (methodArity? m.2)

end Record

namespace FollowUp

theorem isProbability_clamped {x : Binary64} (h : x.isNaN = false) :
    Draw.isProbability (clamped x) = true := by
  have hnumber := Binary64.isNaN_toFloat h
  unfold clamped Draw.isProbability
  simp only
  split
  · decide
  · rename_i hlow
    split
    · decide
    · rename_i hhigh
      have hle := le_of_not_lt hnumber rfl hlow
      have hge := le_of_not_lt rfl hnumber hhigh
      simp [hle, hge]

variable {b : Builder} {q : Progress} {s : MutationSettings} {e : Environment}

theorem adds_literal (h : b.InBody q) (e : Environment) :
    Adds (literal e) b q fun v q' => q'.isVisible v = true := by
  refine adds_draw_bind fun r => ?_
  split
  · exact adds_draw_bind fun r => adds_load h ⟨rfl, rfl, rfl⟩ ⟨rfl, rfl, rfl⟩
  · exact adds_draw_bind fun r => adds_load h ⟨rfl, rfl, rfl⟩ ⟨rfl, rfl, rfl⟩
  · exact adds_draw_bind fun r => adds_load h ⟨rfl, rfl, rfl⟩ ⟨rfl, rfl, rfl⟩
  · exact adds_draw_bind fun r => adds_load h ⟨rfl, rfl, rfl⟩ ⟨rfl, rfl, rfl⟩
  · refine adds_draw_bind fun r => ?_
    split <;> exact adds_load h ⟨rfl, rfl, rfl⟩ ⟨rfl, rfl, rfl⟩
  · exact adds_load h ⟨rfl, rfl, rfl⟩ ⟨rfl, rfl, rfl⟩

theorem adds_argument (h : b.InBody q) (hs : s.reuseProbability.isNaN = false) :
    Adds (argument s e) b q fun v q' => q'.isVisible v = true := by
  unfold argument
  simp only [isProbability_clamped hs, Bool.not_true, Bool.false_eq_true, if_false]
  refine adds_draw_bind fun r => ?_
  split
  · refine adds_bind h (adds_randomVariable h) fun v b' q' h' _ hv => ?_
    split
    · exact adds_pure h' (hv _ rfl)
    · exact adds_literal h' e
  · exact adds_literal h e

theorem adds_argumentList (h : b.InBody q) (hs : s.reuseProbability.isNaN = false) (n : Nat) :
    Adds (argumentList s e n) b q fun vs q' => vs.length = n ∧ ∀ v ∈ vs, q'.isVisible v = true := by
  induction n generalizing b q with
  | zero => exact adds_pure h ⟨rfl, nofun⟩
  | succ n ih =>
    refine adds_bind h (adds_argument h hs) fun v b₁ q₁ h₁ _ hv => ?_
    refine adds_bind h₁ (ih h₁) fun vs b₂ q₂ h₂ hkeep hvs => ?_
    exact adds_pure h₂ ⟨congrArg (· + 1) hvs.1, List.forall_mem_cons.mpr ⟨hkeep v hv, hvs.2⟩⟩

theorem run_getD (d : Draw (Option Nat)) (r : Random) :
    ((do return (← d).getD 0 : Draw Nat).run r).1 = (d.run r).1.getD 0 := rfl

/-- A drawn number is an index of its weights. -/
theorem getD_weighted_lt {w : Draw.Width} {weights : List Nat} (h : weights ≠ []) (r : Random) :
    ((do return (← Draw.weighted w weights).getD 0 : Draw Nat).run r).1 < weights.length := by
  rw [run_getD]
  cases hdraw : ((Draw.weighted w weights).run r).1 with
  | none => exact List.length_pos_of_ne_nil h
  | some n => exact Draw.weighted_lt hdraw

theorem drawSurplus_le (r : Random) : (drawSurplus.run r).1 ≤ 1 := by
  unfold drawSurplus
  exact Nat.le_of_lt_succ (getD_weighted_lt (List.cons_ne_nil 4 [1]) r)

theorem drawGuess_le (r : Random) : (drawGuess.run r).1 ≤ 3 := by
  unfold drawGuess
  exact Nat.le_of_lt_succ (getD_weighted_lt (List.cons_ne_nil 4 [4, 2, 1]) r)

theorem adds_argumentCount (h : b.InBody q) {arity : Option Nat}
    (harity : Record.LeavesRoom arity) : Adds (argumentCount arity) b q fun _ _ => True := by
  cases arity with
  | none => exact adds_draw h
  | some n =>
    refine adds_draw_bind fun r => ?_
    have hcount : n + (drawSurplus.run r).1 < Operation.countLimit := by
      have := drawSurplus_le r
      have := harity n rfl
      omega
    simp only [hcount, if_true]
    exact adds_pure h trivial

theorem adds_arguments (h : b.InBody q) (hs : s.reuseProbability.isNaN = false)
    {arity : Option Nat} (harity : Record.LeavesRoom arity) :
    Adds (arguments s e arity) b q fun vs q' =>
      vs.length < Builder.capacity ∧ ∀ v ∈ vs, q'.isVisible v = true := by
  refine adds_bind h (adds_argumentCount h harity) fun count b₁ q₁ h₁ _ _ => ?_
  split
  · exact Building.bind (Building.shortage rfl)
  · rename_i hcount
    refine (adds_argumentList h₁ hs count).mono fun vs q₂ hvs => ⟨?_, hvs.2⟩
    rw [hvs.1]
    omega

theorem adds_guarded (h : b.InBody q) {call : Synthesis Variable}
    (hcall : ∀ b' q', b'.InBody q' → (∀ v, q.isVisible v = true → q'.isVisible v = true) →
      Adds call b' q' fun v q'' => q''.isVisible v = true) :
    Adds (guarded call) b q fun _ _ => True := by
  refine adds_tryCatch h fun b₁ q₁ h₁ hkeep₁ => ?_
  refine Building.bind (Building.get ?_)
  refine adds_bind h₁ (adds_load h₁ ⟨rfl, rfl, rfl⟩ ⟨rfl, rfl, rfl⟩)
    fun index b₂ q₂ h₂ hkeep₂ hindex => ?_
  refine adds_bind h₂ (hcall b₂ q₂ h₂ fun v hv => hkeep₂ v (hkeep₁ v hv))
    fun result b₃ q₃ h₃ hkeep₃ hresult => ?_
  refine adds_bind h₃ (adds_reuseBuiltin h₃ _) fun hook b₄ q₄ h₄ hkeep₄ hhook => ?_
  refine adds_bind h₄ (adds_apply h₄ ⟨rfl, rfl, rfl⟩ ⟨rfl, rfl, rfl⟩ (by simp [Builder.capacity])
    hhook ?_) fun _ b₅ q₅ h₅ _ _ => adds_pure h₅ trivial
  simpa using ⟨hkeep₄ result hresult, hkeep₄ index (hkeep₃ index hindex)⟩

theorem adds_guarded_apply (h : b.InBody q) {op : Operation} (hplain : IsPlain op)
    {subject : Variable} {args : List Variable} (hshape : op.shape.inputs = args.length + 1 ∧
      op.shape.outputs = 1 ∧ op.shape.innerOutputs = 0)
    (hsubject : q.isVisible subject = true)
    (hargs : args.length < Builder.capacity ∧ ∀ v ∈ args, q.isVisible v = true) :
    Adds (guarded (Build.emitOne op (subject :: args))) b q fun _ _ => True :=
  adds_guarded h fun _ _ h' hkeep => adds_apply h' hplain hshape hargs.1 (hkeep subject hsubject)
    fun v hv => hkeep v (hargs.2 v hv)

theorem adds_selectName (h : b.InBody q) (names : List String) :
    Adds (selectName s names) b q fun _ _ => True := by
  refine Building.bind (ends_getState fun f => adds_draw_bind fun r => ?_)
  split
  · exact Building.bind (ends_setState (adds_pure h trivial))
  · exact adds_pure h trivial

theorem adds_callMethods (h : b.InBody q) (hs : s.reuseProbability.isNaN = false)
    {methods : List (String × String)} {object : Variable} (hobject : q.isVisible object = true)
    (hmethods : ∀ m ∈ methods, Record.LeavesRoom (Record.methodArity? m.2)) (n : Nat) :
    Adds (callMethods s e methods object n) b q fun _ _ => True := by
  induction n generalizing b q with
  | zero => exact adds_pure h trivial
  | succ n ih =>
    refine adds_bind h (adds_selectName h _) fun choice b₁ q₁ h₁ hkeep₁ _ => ?_
    have hobject₁ := hkeep₁ object hobject
    split
    · rename_i method arity hm
      have harity := hmethods _ (List.mem_of_getElem? hm)
      refine adds_bind h₁ (adds_arguments h₁ hs harity) fun args b₂ q₂ h₂ hkeep₂ hargs => ?_
      have hobject₂ := hkeep₂ object hobject₁
      exact adds_bind h₂
        (adds_guarded_apply h₂ ⟨rfl, rfl, rfl⟩ ⟨rfl, rfl, rfl⟩ hobject₂ hargs)
        fun _ b₃ q₃ h₃ hkeep₃ _ => ih h₃ (hkeep₃ object hobject₂)
    · exact ih h₁ hobject₁

theorem adds_accessFields (h : b.InBody q) (hs : s.reuseProbability.isNaN = false)
    {fields : List String} {object : Variable} (hobject : q.isVisible object = true) (n : Nat) :
    Adds (accessFields s e fields object n) b q fun _ _ => True := by
  induction n generalizing b q with
  | zero => exact adds_pure h trivial
  | succ n ih =>
    refine adds_bind h (adds_selectName h _) fun choice b₁ q₁ h₁ hkeep₁ _ => ?_
    have hobject₁ := hkeep₁ object hobject
    split
    · refine adds_draw_bind fun r => ?_
      split
      · refine adds_bind h₁ (adds_apply h₁ ⟨rfl, rfl, rfl⟩ ⟨rfl, rfl, rfl⟩
          (by simp [Builder.capacity]) hobject₁ nofun) ?_
        exact fun _ b₂ q₂ h₂ hkeep₂ _ => ih h₂ (hkeep₂ object hobject₁)
      · refine adds_bind h₁ (adds_argument h₁ hs) fun value b₂ q₂ h₂ hkeep₂ hvalue => ?_
        have hobject₂ := hkeep₂ object hobject₁
        refine adds_bind h₂ (adds_tryCatch h₂ fun b' q' h' hkeep' =>
          adds_emit_ h' ⟨rfl, rfl, rfl⟩ rfl rfl ?_)
          fun _ b₃ q₃ h₃ hkeep₃ _ => ih h₃ (hkeep₃ object hobject₂)
        simpa using ⟨hkeep' object hobject₂, hkeep' value hvalue⟩
    · exact ih h₁ hobject₁

/-- The last stage of following up a value: accesses to its fields. -/
def fieldStage (s : MutationSettings) (e : Environment) (r : Record) (value : Variable) :
    Synthesis Unit := do
  if ← Draw.chance (odds r.kind).fields then
    if !r.fields.isEmpty then accessFields s e r.fields value (← drawRepetitions)

/-- The stages of following up a value from the calls of its methods on. -/
def methodStage (s : MutationSettings) (e : Environment) (r : Record) (value : Variable) :
    Synthesis Unit := do
  if ← Draw.chance (odds r.kind).methods then
    if !r.methods.isEmpty then callMethods s e r.methods value (← drawRepetitions)
  fieldStage s e r value

theorem followUp_eq (r : Record) (value : Variable) : followUp s e r value = (do
    if ← Draw.chance (odds r.kind).invoke then
      let args ← arguments s e r.arity
      if r.kind = .classObject then guarded (Build.construct value args)
      else guarded (Build.callFunction value args)
    methodStage s e r value) := rfl

theorem adds_fieldStage (h : b.InBody q) (hs : s.reuseProbability.isNaN = false) (r : Record)
    {value : Variable} (hvalue : q.isVisible value = true) :
    Adds (fieldStage s e r value) b q fun _ _ => True := by
  refine adds_draw_bind fun _ => ?_
  split
  · split
    · exact adds_draw_bind fun _ => adds_accessFields h hs hvalue _
    · exact adds_pure h trivial
  · exact adds_pure h trivial

theorem adds_methodStage (h : b.InBody q) (hs : s.reuseProbability.isNaN = false) {r : Record}
    (hr : r.IsBounded) {value : Variable} (hvalue : q.isVisible value = true) :
    Adds (methodStage s e r value) b q fun _ _ => True := by
  refine adds_draw_bind fun _ => ?_
  split
  · split
    · refine adds_draw_bind fun _ => ?_
      exact adds_bind h (adds_callMethods h hs hvalue hr.methods _) fun _ b₁ q₁ h₁ hkeep _ =>
        adds_fieldStage h₁ hs r (hkeep value hvalue)
    · exact adds_fieldStage h hs r hvalue
  · exact adds_fieldStage h hs r hvalue

theorem adds_followUp (h : b.InBody q) (hs : s.reuseProbability.isNaN = false) {r : Record}
    (hr : r.IsBounded) {value : Variable} (hvalue : q.isVisible value = true) :
    Adds (followUp s e r value) b q fun _ _ => True := by
  rw [followUp_eq]
  refine adds_draw_bind fun _ => ?_
  split
  · refine adds_bind h (adds_arguments h hs hr.arity) fun args b₁ q₁ h₁ hkeep₁ hargs => ?_
    have hvalue₁ := hkeep₁ value hvalue
    split <;>
      exact adds_bind h₁ (adds_guarded_apply h₁ ⟨rfl, rfl, rfl⟩ ⟨rfl, rfl, rfl⟩ hvalue₁ hargs)
        fun _ b₂ q₂ h₂ hkeep₂ _ => adds_methodStage h₂ hs hr (hkeep₂ value hvalue₁)
  · exact adds_methodStage h hs hr hvalue

/-! ## Copies with values followed up -/

variable {o : Observed} {selected : List Nat} {done : Code} {p final : Progress}

theorem yields_copyAll (hs : s.reuseProbability.isNaN = false) (is : Code)
    (h : Copies {} done p b q) (hrun : p.run done.length is = .ok final)
    (hcount : Code.IsCountable is)
    (hrecords : ∀ i ∈ is, ∀ r, o.record? i.index = some r →
      i.shape.outputs = 1 ∧ i.op.isClassHead = false ∧ r.IsBounded) :
    Yields (copyAll s e o selected is) b fun _ b' => ∃ q', Copies {} (done ++ is) final b' q' := by
  refine yields_walk rfl ?_ is h hrun hcount hrecords
  intro i is done p q b Q hrecord hcount ha h hrest
  refine Building.bind (yields_adopt rfl ha h hcount ?_)
  intro _ b₁ q₁ h₁
  split
  · split
    · rename_i v hv
      split
      · rename_i r hr
        obtain ⟨hone, hclass, hbounded⟩ := hrecord r hr
        refine Building.bind (yields_adopted_output rfl ha h.stacked h₁ hv hone hclass ?_)
        intro w hbody hw
        exact Building.bind (yields_added h₁ hbody (adds_followUp hbody hs hbounded hw)
          fun _ _ _ h₂ _ _ _ => hrest h₂)
      · exact hrest h₁
    · exact hrest h₁
  · exact hrest h₁

end FollowUp

end ScriptFuzz
