import ScriptFuzz.Proofs.Code.Reading

/-!
# Code as nested blocks

`WellNested` is the grammar of code: it says how bodies are made of instructions and blocks, which
variables are visible where, and where jumps may stand. `check_eq_ok_iff_wellNested` says that the
check, which reads the code once from front to back, accepts exactly the code that the grammar
generates with dense indices and densely numbered variables.
-/

namespace ScriptFuzz

set_option autoImplicit false

open Code

/-- Where a row of instructions stands. -/
inductive Interior where
  /-- A body of statements. A switch case counts as part of what is around its switch, so only
  functions and loops matter. -/
  | body (inFunction inLoop : Bool)
  /-- Directly in a switch, which itself stands in such a body. -/
  | cases (inFunction inLoop : Bool)
  /-- Directly in a class. -/
  | methods

/-- `WellNested place vs c`: the grammar generates `c` at the place, where the variables `vs` are
visible. Every block is followed by the rest of the row that it stands in. -/
inductive WellNested : Interior → List Variable → Code → Prop where
  | done {place : Interior} {vs : List Variable} : WellNested place vs []
  | instruction {f l : Bool} {vs : List Variable} {i : Instruction} {c : Code}
      (ordinary : i.isBlock = false) (visible : i.inputs ⊆ vs)
      (returns : i.op = .ret → f = true)
      (jumps : i.op = .loopBreak ∨ i.op = .loopContinue → l = true)
      (rest : WellNested (.body f l) (vs ++ i.outputs) c) :
      WellNested (.body f l) vs (i :: c)
  | function {f l : Bool} {vs : List Variable} {n : Nat} {head last : Instruction} {b c : Code}
      (starts : head.op = .beginPlainFunction n) (ends : last.op = .endPlainFunction)
      (body : WellNested (.body true false) (vs ++ head.outputs ++ head.innerOutputs) b)
      (rest : WellNested (.body f l) (vs ++ head.outputs) c) :
      WellNested (.body f l) vs (head :: b ++ last :: c)
  | conditional {f l : Bool} {vs : List Variable} {inverted : Bool} {head last : Instruction}
      {b c : Code} (starts : head.op = .beginIf inverted) (visible : head.inputs ⊆ vs)
      (ends : last.op = .endIf) (body : WellNested (.body f l) vs b)
      (rest : WellNested (.body f l) vs c) :
      WellNested (.body f l) vs (head :: b ++ last :: c)
  | alternative {f l : Bool} {vs : List Variable} {inverted : Bool}
      {head middle last : Instruction} {b b' c : Code} (starts : head.op = .beginIf inverted)
      (visible : head.inputs ⊆ vs) (continues : middle.op = .beginElse) (ends : last.op = .endIf)
      (body : WellNested (.body f l) vs b) (otherwise : WellNested (.body f l) vs b')
      (rest : WellNested (.body f l) vs c) :
      WellNested (.body f l) vs (head :: b ++ middle :: b' ++ last :: c)
  | whileLoop {f l : Bool} {vs : List Variable} {comparator : Comparator}
      {head last : Instruction} {b c : Code} (starts : head.op = .beginWhileLoop comparator)
      (visible : head.inputs ⊆ vs) (ends : last.op = .endWhileLoop)
      (body : WellNested (.body f true) vs b) (rest : WellNested (.body f l) vs c) :
      WellNested (.body f l) vs (head :: b ++ last :: c)
  | forLoop {f l : Bool} {vs : List Variable} {head last : Instruction} {b c : Code}
      (starts : head.op = .beginForLoop) (visible : head.inputs ⊆ vs)
      (ends : last.op = .endForLoop) (body : WellNested (.body f true) (vs ++ head.innerOutputs) b)
      (rest : WellNested (.body f l) vs c) :
      WellNested (.body f l) vs (head :: b ++ last :: c)
  | tryCatch {f l : Bool} {vs : List Variable} {head middle last : Instruction} {b b' c : Code}
      (starts : head.op = .beginTry) (continues : middle.op = .beginCatch)
      (ends : last.op = .endTryCatchFinally) (body : WellNested (.body f l) vs b)
      (handler : WellNested (.body f l) (vs ++ middle.innerOutputs) b')
      (rest : WellNested (.body f l) vs c) :
      WellNested (.body f l) vs (head :: b ++ middle :: b' ++ last :: c)
  | tryFinally {f l : Bool} {vs : List Variable} {head middle last : Instruction} {b b' c : Code}
      (starts : head.op = .beginTry) (continues : middle.op = .beginFinally)
      (ends : last.op = .endTryCatchFinally) (body : WellNested (.body f l) vs b)
      (cleanup : WellNested (.body f l) vs b') (rest : WellNested (.body f l) vs c) :
      WellNested (.body f l) vs (head :: b ++ middle :: b' ++ last :: c)
  | tryCatchFinally {f l : Bool} {vs : List Variable} {head middle middle' last : Instruction}
      {b b' b'' c : Code} (starts : head.op = .beginTry) (continues : middle.op = .beginCatch)
      (continues' : middle'.op = .beginFinally) (ends : last.op = .endTryCatchFinally)
      (body : WellNested (.body f l) vs b)
      (handler : WellNested (.body f l) (vs ++ middle.innerOutputs) b')
      (cleanup : WellNested (.body f l) vs b'') (rest : WellNested (.body f l) vs c) :
      WellNested (.body f l) vs (head :: b ++ middle :: b' ++ middle' :: b'' ++ last :: c)
  | switch {f l : Bool} {vs : List Variable} {head last : Instruction} {b c : Code}
      (starts : head.op = .beginSwitch) (visible : head.inputs ⊆ vs) (ends : last.op = .endSwitch)
      (body : WellNested (.cases f l) vs b) (rest : WellNested (.body f l) vs c) :
      WellNested (.body f l) vs (head :: b ++ last :: c)
  | switchCase {f l : Bool} {vs : List Variable} {head last : Instruction} {b c : Code}
      (starts : head.op = .beginSwitchCase) (visible : head.inputs ⊆ vs)
      (ends : last.op = .endSwitchCase) (body : WellNested (.body f l) vs b)
      (rest : WellNested (.cases f l) vs c) :
      WellNested (.cases f l) vs (head :: b ++ last :: c)
  /-- Nothing follows the default case. -/
  | defaultCase {f l : Bool} {vs : List Variable} {head last : Instruction} {b : Code}
      (starts : head.op = .beginSwitchDefaultCase) (ends : last.op = .endSwitchCase)
      (body : WellNested (.body f l) vs b) :
      WellNested (.cases f l) vs (head :: b ++ [last])
  | classDefinition {f l : Bool} {vs : List Variable} {superclass : Bool}
      {head last : Instruction} {b c : Code}
      (starts : head.op = .beginClassDefinition superclass) (visible : head.inputs ⊆ vs)
      (ends : last.op = .endClassDefinition) (body : WellNested .methods (vs ++ head.outputs) b)
      (rest : WellNested (.body f l) (vs ++ head.outputs) c) :
      WellNested (.body f l) vs (head :: b ++ last :: c)
  | method {vs : List Variable} {name : String} {n : Nat} {head last : Instruction} {b c : Code}
      (starts : head.op = .beginClassMethod name n) (ends : last.op = .endClassMethod)
      (body : WellNested (.body true false) (vs ++ head.innerOutputs) b)
      (rest : WellNested .methods vs c) :
      WellNested .methods vs (head :: b ++ last :: c)

/-- The variables that the code declares, in order. -/
def Code.declared (c : Code) : List Variable := c.flatMap Instruction.allOutputs

/-! ## Contexts of places -/

namespace Context

/-- The context of a body of statements. -/
structure IsBody (c : Context) (inFunction inLoop : Bool) : Prop where
  script : c.script = true
  switchBlock : c.switchBlock = false
  classDefinition : c.classDefinition = false
  subroutine : c.subroutine = inFunction
  loop : c.loop = inLoop

theorem isBody_top : top.IsBody false false := ⟨rfl, rfl, rfl, rfl, rfl⟩

namespace IsBody

variable {c : Context} {f l : Bool}

theorem union_empty (h : c.IsBody f l) : (c.union .empty).IsBody f l := by
  obtain ⟨h₁, h₂, h₃, h₄, h₅⟩ := h
  constructor <;> simp [union, empty, has, ofPredicate, *]

theorem union_loop (h : c.IsBody f l) : (c.union (.ofList [.loop])).IsBody f true := by
  obtain ⟨h₁, h₂, h₃, h₄, h₅⟩ := h
  constructor <;> simp [union, has, ofList, ofPredicate, *]

theorem union_switchCase (h : c.IsBody f l) : (c.union (.ofList [.switchCase])).IsBody f l := by
  obtain ⟨h₁, h₂, h₃, h₄, h₅⟩ := h
  constructor <;> simp [union, has, ofList, ofPredicate, *]

end IsBody

end Context

/-- The contexts around a place, and the flags of the open switches. -/
def Interior.Fits : Interior → List Context → List Bool → Prop
  | body f l, cs, _ => ∃ c rest, cs = c :: rest ∧ c.IsBody f l
  | cases f l, cs, ds => ∃ c rest flags, cs = .ofList [.switchBlock] :: c :: rest ∧
      c.IsBody f l ∧ ds = false :: flags
  | methods, cs, _ => ∃ rest, cs = .ofList [.classDefinition] :: rest

/-- The place of the body that an operation opens at a place, if it may stand there. -/
def Interior.inside? : Interior → Operation → Option Interior
  | body _ _, .beginPlainFunction _ => some (body true false)
  | body f l, .beginIf _ => some (body f l)
  | body f l, .beginElse => some (body f l)
  | body f l, .beginTry => some (body f l)
  | body f l, .beginCatch => some (body f l)
  | body f l, .beginFinally => some (body f l)
  | body f _, .beginWhileLoop _ => some (body f true)
  | body f _, .beginForLoop => some (body f true)
  | body f l, .beginSwitch => some (cases f l)
  | body _ _, .beginClassDefinition _ => some methods
  | cases f l, .beginSwitchCase => some (body f l)
  | cases f l, .beginSwitchDefaultCase => some (body f l)
  | methods, .beginClassMethod _ _ => some (body true false)
  | _, _ => none

theorem Interior.isBlockStart_of_inside {place inner : Interior} {i : Instruction}
    (h : place.inside? i.op = some inner) : i.isBlockStart = true := by
  rw [Instruction.isBlockStart_eq]
  cases place <;> cases hop : i.op <;> simp_all [inside?]

namespace Interior.Fits

variable {place inner : Interior} {p : Progress} {n : Nat} {i : Instruction}

/-- In a body, a jump stands inside of what it leaves, and what stands only in a switch or in a class
does not occur. -/
theorem admitted_in_body {f l : Bool} (h : (body f l).Fits p.contexts p.defaults)
    (ha : p.context.contains i.shape.requires = true) :
    (i.op = .ret → f = true) ∧ (i.op = .loopBreak ∨ i.op = .loopContinue → l = true) ∧
      i.op ≠ .beginSwitchCase ∧ i.op ≠ .beginSwitchDefaultCase ∧
      (∀ name n, i.op ≠ .beginClassMethod name n) := by
  obtain ⟨c, rest, hc, hb⟩ := h
  rw [Progress.context, hc, List.headD_cons, Context.contains_eq, Instruction.shape,
    Operation.requires_eq] at ha
  have h₁ := hb.switchBlock
  have h₂ := hb.classDefinition
  have h₃ := hb.subroutine
  have h₄ := hb.loop
  cases hop : i.op <;> simp_all [Context.ofList, Context.ofPredicate]

/-- Directly in a switch there are only cases. -/
theorem admitted_in_cases {f l : Bool} (h : (cases f l).Fits p.contexts p.defaults)
    (ha : p.context.contains i.shape.requires = true) :
    i.op = .beginSwitchCase ∨ i.op = .beginSwitchDefaultCase ∨ i.isBlockEnd = true := by
  obtain ⟨c, rest, flags, hc, hb, -⟩ := h
  rw [Progress.context, hc, List.headD_cons, Context.contains_eq, Instruction.shape,
    Operation.requires_eq] at ha
  rw [Instruction.isBlockEnd_eq]
  cases hop : i.op <;> simp_all [Context.ofList, Context.ofPredicate, Context.top]

/-- Directly in a class there are only methods. -/
theorem admitted_in_methods (h : methods.Fits p.contexts p.defaults)
    (ha : p.context.contains i.shape.requires = true) :
    (∃ name n, i.op = .beginClassMethod name n) ∨ i.isBlockEnd = true := by
  obtain ⟨rest, hc⟩ := h
  rw [Progress.context, hc, List.headD_cons, Context.contains_eq, Instruction.shape,
    Operation.requires_eq] at ha
  rw [Instruction.isBlockEnd_eq]
  cases hop : i.op <;> simp_all [Context.ofList, Context.ofPredicate, Context.top]

/-- What starts a block, and is read in the context that it requires, may stand at the place. -/
theorem inside_of_admits (h : place.Fits p.contexts p.defaults)
    (ha : p.context.contains i.shape.requires = true) (hs : i.isBlockStart = true)
    (he : i.isBlockEnd = false) : ∃ inner, place.inside? i.op = some inner := by
  cases place with
  | body f l =>
    obtain ⟨-, -, hcase, hdefault, hmethod⟩ := h.admitted_in_body ha
    rw [Instruction.isBlockStart_eq] at hs
    cases hop : i.op <;> simp_all [inside?]
  | cases f l =>
    rcases h.admitted_in_cases ha with hop | hop | he'
    · exact ⟨_, by rw [hop]; rfl⟩
    · exact ⟨_, by rw [hop]; rfl⟩
    · rw [he] at he'
      cases he'
  | methods =>
    rcases h.admitted_in_methods ha with ⟨name, n, hop⟩ | he'
    · exact ⟨_, by rw [hop]; rfl⟩
    · rw [he] at he'
      cases he'

/-- A start of a block leads to the place that it opens. -/
theorem after_start (h : place.Fits (p.outerContexts i) p.defaults)
    (hi : place.inside? i.op = some inner) :
    inner.Fits (p.after i).contexts (p.after i).defaults := by
  have hs := isBlockStart_of_inside hi
  have hcontexts : (p.after i).contexts =
      i.shape.mode.body (p.outerContexts i) i.shape.opens :: p.outerContexts i := by
    simp [Progress.after, hs]
  have hdefaults : (p.after i).defaults = p.defaultsAfter i := rfl
  rw [hcontexts, hdefaults, Instruction.shape, Operation.opens_eq, Operation.mode_eq]
  cases place with
  | body f l =>
    obtain ⟨c, rest, hc, hb⟩ := h
    rw [hc]
    cases hop : i.op <;> rw [hop] at hi <;> cases hi <;>
      first
      | exact ⟨_, _, rfl, hb.union_empty⟩
      | exact ⟨_, _, rfl, hb.union_loop⟩
      | exact ⟨_, _, rfl, ⟨rfl, rfl, rfl, rfl, rfl⟩⟩
      | exact ⟨_, _, _, rfl, hb, by rw [Progress.defaultsAfter, hop]⟩
      | exact ⟨_, rfl⟩
  | cases f l =>
    obtain ⟨c, rest, flags, hc, hb, -⟩ := h
    rw [hc]
    cases hop : i.op <;> rw [hop] at hi <;> cases hi <;> exact ⟨_, _, rfl, hb.union_switchCase⟩
  | methods =>
    cases hop : i.op <;> rw [hop] at hi <;> cases hi
    exact ⟨_, _, rfl, ⟨rfl, rfl, rfl, rfl, rfl⟩⟩

/-- What may start a block at a place stands there in the context that it requires. -/
theorem contains_of_inside (h : place.Fits p.contexts p.defaults)
    (hi : place.inside? i.op = some inner) : p.context.contains i.shape.requires = true := by
  rw [Progress.context, Context.contains_eq, Instruction.shape, Operation.requires_eq]
  cases place with
  | body f l =>
    obtain ⟨c, rest, hc, hb⟩ := h
    have hs := hb.script
    rw [hc]
    cases hop : i.op <;> rw [hop] at hi <;> cases hi <;>
      simp [Context.top, Context.empty, Context.ofList, Context.ofPredicate, hs]
  | cases f l =>
    obtain ⟨c, rest, flags, hc, -⟩ := h
    rw [hc]
    cases hop : i.op <;> rw [hop] at hi <;> cases hi <;> rfl
  | methods =>
    obtain ⟨rest, hc⟩ := h
    rw [hc]
    cases hop : i.op <;> rw [hop] at hi <;> cases hi
    rfl

/-- What stands in a body without being a block stands there in the context that it requires, if a
jump stands inside of what it leaves. -/
theorem contains_of_not_isBlock {f l : Bool} (h : (body f l).Fits p.contexts p.defaults)
    (hi : i.isBlock = false) (hret : i.op = .ret → f = true)
    (hjump : i.op = .loopBreak ∨ i.op = .loopContinue → l = true) :
    p.context.contains i.shape.requires = true := by
  obtain ⟨c, rest, hc, hb⟩ := h
  have hs := hb.script
  have hf := hb.subroutine
  have hl := hb.loop
  rw [Instruction.isBlock, Instruction.isBlockStart_eq, Instruction.isBlockEnd_eq] at hi
  rw [Progress.context, hc, List.headD_cons, Context.contains_eq, Instruction.shape,
    Operation.requires_eq]
  cases hop : i.op <;> rw [hop] at hi hret hjump <;>
    simp_all [Context.top, Context.ofList, Context.ofPredicate]

/-- The end of a block stands at the end of its body in the context that it requires. -/
theorem contains_of_closes {opener : Operation} {flags : List Bool}
    (h : inner.Fits p.contexts flags)
    (hi : place.inside? opener = some inner) (hc : i.op.Closes opener) :
    p.context.contains i.shape.requires = true := by
  rw [Progress.context, Context.contains_eq, Instruction.shape, Operation.requires_eq]
  generalize i.op = op at hc ⊢
  cases hc <;> cases place <;> cases hi <;>
    first
    | rfl
    | obtain ⟨_, _, _, hc, _⟩ := h
      rw [hc]
      rfl
    | obtain ⟨_, hc⟩ := h
      rw [hc]
      rfl

/-- A case stands only where its switch has had no default case. -/
theorem undefaulted_of_inside (h : place.Fits p.contexts p.defaults)
    (hi : place.inside? i.op = some inner)
    (hop : i.op = .beginSwitchCase ∨ i.op = .beginSwitchDefaultCase) :
    p.defaults.head? = some false := by
  cases place with
  | cases f l =>
    obtain ⟨c, rest, flags, -, -, hd⟩ := h
    rw [hd]
    rfl
  | body f l => rcases hop with hop | hop <;> rw [hop] at hi <;> cases hi
  | methods => rcases hop with hop | hop <;> rw [hop] at hi <;> cases hi

end Interior.Fits

namespace Code.Progress

/-- Exactly the variables `vs` are visible. -/
def Sees (p : Progress) (vs : List Variable) : Prop := ∀ v, (∃ s ∈ p.scopes, v ∈ s) ↔ v ∈ vs

theorem sees_start : Sees {} [] := by
  intro v
  simp

theorem Sees.subset_iff {p : Progress} {vs : List Variable} (h : p.Sees vs)
    {ws : List Variable} : (∀ v ∈ ws, p.isVisible v = true) ↔ ws ⊆ vs := by
  simp only [isVisible_iff, h _]
  rfl

/-- What a row of instructions at a place leaves as it was. -/
structure Around (place : Interior) (p q : Progress) : Prop where
  blocks : q.blocks = p.blocks
  contexts : q.contexts = p.contexts
  scopes : q.scopes.tail = p.scopes.tail
  defaults : match place with
    | .cases _ _ => q.defaults.tail = p.defaults.tail
    | _ => q.defaults = p.defaults

theorem Around.refl (place : Interior) (p : Progress) : Around place p p := by
  refine ⟨rfl, rfl, rfl, ?_⟩
  cases place <;> rfl

theorem Around.trans {place : Interior} {p q r : Progress} (h : Around place p q)
    (h' : Around place q r) : Around place p r := by
  refine ⟨h'.blocks.trans h.blocks, h'.contexts.trans h.contexts, h'.scopes.trans h.scopes, ?_⟩
  cases place <;> exact h'.defaults.trans h.defaults

/-- A state inside of the block that `opener` starts. From outside of the block, where the state `p`
was, exactly the variables `vs` are visible. -/
structure Opened (p : Progress) (vs : List Variable) (opener : Instruction) (s : Progress) :
    Prop where
  balanced : s.Balanced
  blocks : s.blocks = opener :: p.blocks
  contexts : s.contexts.tail = p.contexts
  scopes : s.scopes.tail.tail = p.scopes.tail
  outside : ∀ v, (∃ t ∈ s.scopes.tail, v ∈ t) ↔ v ∈ vs
  defaults : match opener.op with
    | .beginSwitch => s.defaults.tail = p.defaults
    | .beginSwitchDefaultCase => s.defaults = true :: p.defaults.tail
    | _ => s.defaults = p.defaults

/-- Variables that are added to the innermost scope are seen besides those that were. -/
theorem exists_mem_declared_iff (scopes : List (List Variable)) (ws : List Variable)
    (v : Variable) :
    (∃ s ∈ (scopes.headD [] ++ ws) :: scopes.tail, v ∈ s) ↔ (∃ s ∈ scopes, v ∈ s) ∨ v ∈ ws := by
  cases scopes with
  | nil => simp
  | cons s ss =>
    simp only [List.headD_cons, List.tail_cons, List.mem_cons, exists_eq_or_imp, List.mem_append]
    exact or_right_comm

section

variable {p s : Progress} {vs : List Variable} {n : Nat} {i opener : Instruction}

theorem Opened.around {place inner : Interior} {s' : Progress} (h : Opened p vs opener s)
    (hi : place.inside? opener.op = some inner) (ha : Around inner s s') (hb : s'.Balanced) :
    Opened p vs opener s' := by
  refine ⟨hb, ha.blocks.trans h.blocks, ?_, ?_, ?_, ?_⟩
  · rw [ha.contexts, h.contexts]
  · rw [ha.scopes, h.scopes]
  · rw [ha.scopes]
    exact h.outside
  · have hd := ha.defaults
    have ho := h.defaults
    cases place <;> cases hop : opener.op <;> rw [hop] at hi ho <;> cases hi <;>
      exact hd.trans ho

/-- An instruction that is no block instruction only declares its outputs. -/
theorem around_after (place : Interior) (hi : i.isBlock = false) : Around place p (p.after i) := by
  obtain ⟨hs, he⟩ : i.isBlockStart = false ∧ i.isBlockEnd = false := by
    simpa [Instruction.isBlock] using hi
  have hd : p.defaultsAfter i = p.defaults := by
    rw [Instruction.isBlockStart_eq] at hs
    rw [Instruction.isBlockEnd_eq] at he
    unfold defaultsAfter
    cases hop : i.op <;> simp_all
  refine ⟨?_, ?_, ?_, ?_⟩
  · simp [after, hs, he, outerBlocks]
  · simp [after, hs, he, outerContexts]
  · simp [after, hs, he, outerScopes]
  · cases place <;> simp [after, hd]

theorem Sees.after (h : p.Sees vs) (hi : i.isBlock = false) :
    (p.after i).Sees (vs ++ i.outputs) := by
  obtain ⟨hs, he⟩ : i.isBlockStart = false ∧ i.isBlockEnd = false := by
    simpa [Instruction.isBlock] using hi
  intro v
  simp only [Progress.after, hs, outerScopes, he, Bool.false_eq_true, if_false]
  rw [exists_mem_declared_iff, h v, List.mem_append]

/-- A block that starts without ending another is opened in the state before it. -/
theorem Sees.opened (h : p.Sees vs) (hp : p.Balanced) (ha : p.Admits n i)
    (hs : i.isBlockStart = true) (he : i.isBlockEnd = false) :
    Opened p (vs ++ i.outputs) i (p.after i) := by
  refine ⟨hp.after ha, ?_, ?_, ?_, ?_, ?_⟩
  · simp [Progress.after, hs, he, outerBlocks]
  · simp [Progress.after, hs, he, outerContexts]
  · simp [Progress.after, hs, he, outerScopes]
  · intro v
    simp only [Progress.after, hs, he, outerScopes, Bool.false_eq_true, if_true, if_false,
      List.tail_cons]
    rw [exists_mem_declared_iff, h v, List.mem_append]
  · rw [Instruction.isBlockEnd_eq] at he
    have hd : (p.after i).defaults = p.defaultsAfter i := rfl
    rw [hd, defaultsAfter]
    cases hop : i.op <;> simp_all

/-- Inside of a block its own variables are visible besides those from outside. -/
theorem Opened.sees_of_start {q : Progress} (h : Opened p vs i (q.after i))
    (hs : i.isBlockStart = true) : (q.after i).Sees (vs ++ i.innerOutputs) := by
  intro v
  have hscopes : (q.after i).scopes = i.innerOutputs :: (q.after i).scopes.tail := by
    simp [Progress.after, hs]
  rw [hscopes, List.mem_append, ← h.outside v]
  simp only [List.mem_cons, exists_eq_or_imp]
  exact or_comm

theorem outputs_of_isBlockEnd (he : i.isBlockEnd = true) : i.outputs = [] := by
  apply List.eq_nil_of_length_eq_zero
  rw [Instruction.length_outputs]
  rw [Instruction.isBlockEnd_eq] at he
  unfold Instruction.shape
  cases hop : i.op <;> first | rfl | simp [hop] at he

theorem Opened.closes_of_admits (h : Opened p vs opener s) (ha : s.Admits n i)
    (he : i.isBlockEnd = true) : i.op.Closes opener.op := by
  obtain ⟨o, rest, hb, hc⟩ := ha.closes he
  rw [h.blocks] at hb
  cases hb
  exact Operation.closes_iff.mp hc

theorem Opened.outerScopes (h : Opened p vs opener s) (he : i.isBlockEnd = true) :
    ((s.outerScopes i).headD [] ++ i.outputs) :: (s.outerScopes i).tail = s.scopes.tail := by
  have hlen := h.balanced.scopes
  rw [h.blocks, List.length_cons] at hlen
  rw [outputs_of_isBlockEnd he, List.append_nil, Progress.outerScopes, if_pos he]
  cases hs : s.scopes.tail with
  | nil =>
    have := congrArg List.length hs
    rw [List.length_tail, List.length_nil] at this
    omega
  | cons t ts => rfl

/-- An instruction that ends one block and starts the next stays in the block group. -/
theorem Opened.continued (h : Opened p vs opener s) (ha : s.Admits n i)
    (hs : i.isBlockStart = true) (he : i.isBlockEnd = true) : Opened p vs i (s.after i) := by
  have hcloses := h.closes_of_admits ha he
  have hscopes : (s.after i).scopes.tail = s.scopes.tail := by
    rw [← h.outerScopes he]
    simp [Progress.after, hs]
  refine ⟨h.balanced.after ha, ?_, ?_, ?_, ?_, ?_⟩
  · simp [Progress.after, hs, he, outerBlocks, h.blocks]
  · simp [Progress.after, hs, he, outerContexts, h.contexts]
  · rw [hscopes, h.scopes]
  · rw [hscopes]
    exact h.outside
  · have ho := h.defaults
    have hd : (s.after i).defaults = s.defaultsAfter i := rfl
    rw [Instruction.isBlockStart_eq] at hs
    rw [hd, defaultsAfter]
    generalize i.op = op, opener.op = op' at hcloses hs ho ⊢
    cases hcloses <;> first | exact ho | cases hs

/-- The end of a block group leads back to the surroundings. Only the default case of a switch leaves a
mark. -/
theorem Opened.closed {place inner : Interior} (h : Opened p vs opener s) (ha : s.Admits n i)
    (hi : place.inside? opener.op = some inner) (hs : i.isBlockStart = false)
    (he : i.isBlockEnd = true) :
    Around place p (s.after i) ∧ (s.after i).Sees vs ∧
      (s.after i).defaults =
        if opener.op = .beginSwitchDefaultCase then true :: p.defaults.tail else p.defaults := by
  have hcloses := h.closes_of_admits ha he
  have hscopes : (s.after i).scopes = s.scopes.tail := by
    rw [← h.outerScopes he]
    simp [Progress.after, hs]
  have hdefaults : (s.after i).defaults =
      if opener.op = .beginSwitchDefaultCase then true :: p.defaults.tail else p.defaults := by
    have ho := h.defaults
    have hd : (s.after i).defaults = s.defaultsAfter i := rfl
    rw [hd, defaultsAfter]
    generalize i.op = op, opener.op = op' at hcloses ho ⊢
    cases hcloses <;> exact ho
  refine ⟨⟨?_, ?_, ?_, ?_⟩, ?_, hdefaults⟩
  · simp [Progress.after, hs, he, outerBlocks, h.blocks]
  · simp [Progress.after, hs, he, outerContexts, h.contexts]
  · rw [hscopes, h.scopes]
  · rw [hdefaults]
    cases place with
    | cases f l => by_cases hop : opener.op = .beginSwitchDefaultCase <;> simp [hop]
    | body f l => cases hop : opener.op <;> rw [hop] at hi <;> cases hi <;> rfl
    | methods =>
      cases hop : opener.op <;> rw [hop] at hi <;> cases hi
      rfl
  · intro v
    rw [hscopes]
    exact h.outside v

end

end Code.Progress

/-! ## What the grammar generates is accepted -/

/-- The code stands at position `n`, and declares the variables from number `k` on. -/
structure Code.Dense (k n : Nat) (c : Code) : Prop where
  indices : c.map Instruction.index = List.range' n c.length
  numbers : c.declared.map Variable.number = List.range' k c.declared.length
  bounded : k + c.declared.length < Variable.limit

namespace Code

variable {k n : Nat} {i : Instruction} {a b c : Code}

@[simp] theorem declared_nil : declared [] = [] := rfl

@[simp] theorem declared_cons : declared (i :: c) = i.allOutputs ++ c.declared := rfl

@[simp] theorem declared_append : declared (a ++ b) = a.declared ++ b.declared :=
  List.flatMap_append

theorem dense_append_iff :
    Dense k n (a ++ b) ↔ Dense k n a ∧ Dense (k + a.declared.length) (n + a.length) b := by
  constructor
  · rintro ⟨hi, hv, hb⟩
    rw [List.map_append, List.length_append, ← List.range'_append_1] at hi
    rw [declared_append] at hv hb
    obtain ⟨hi₁, hi₂⟩ := List.append_inj hi (by simp)
    obtain ⟨hv₁, hv₂⟩ := Progress.numbered_append_iff.mp hv
    rw [List.length_append] at hb
    exact ⟨⟨hi₁, hv₁, by omega⟩, ⟨hi₂, hv₂, by omega⟩⟩
  · rintro ⟨⟨hi₁, hv₁, _⟩, ⟨hi₂, hv₂, hb⟩⟩
    refine ⟨?_, ?_, ?_⟩
    · rw [List.map_append, List.length_append, ← List.range'_append_1, hi₁, hi₂]
    · rw [declared_append]
      exact Progress.numbered_append_iff.mpr ⟨hv₁, hv₂⟩
    · rw [declared_append, List.length_append]
      omega

theorem dense_cons_iff :
    Dense k n (i :: c) ↔ i.index = n ∧
      i.allOutputs.map Variable.number = List.range' k i.allOutputs.length ∧
      Dense (k + i.allOutputs.length) (n + 1) c := by
  have h := dense_append_iff (k := k) (n := n) (a := [i]) (b := c)
  simp only [List.singleton_append, declared_cons, declared_nil, List.append_nil,
    List.length_singleton] at h
  rw [h]
  constructor
  · rintro ⟨⟨hi, hv, _⟩, hc⟩
    exact ⟨by simpa using hi, by simpa using hv, hc⟩
  · rintro ⟨hi, hv, hc⟩
    refine ⟨⟨by simpa using hi, by simpa using hv, ?_⟩, hc⟩
    have := hc.bounded
    simp only [declared_cons, declared_nil, List.append_nil]
    omega

end Code

namespace Code.Progress

/-- Read at the place where the variables `vs` are visible, the code is accepted, and what is around
it stays as it was. -/
def Accepted (place : Interior) (vs : List Variable) (c : Code) : Prop :=
  ∀ {p : Progress} {n : Nat}, p.Balanced → place.Fits p.contexts p.defaults → p.Sees vs →
    Dense p.next n c → ∃ q, p.run n c = .ok q ∧ Around place p q ∧ q.Balanced ∧
      q.next = p.next + c.declared.length

/-- Read after the body of a block, whose place is `inner` and which stands at `place`, the code is
accepted: it ends the block group, perhaps after further sections, and goes on after it. -/
def Continued (place inner : Interior) (vs : List Variable) (opener : Instruction) (c : Code) : Prop :=
  ∀ {p s : Progress} {n : Nat}, Opened p vs opener s → place.Fits p.contexts p.defaults →
    (∃ flags, inner.Fits s.contexts flags) → Dense s.next n c →
    ∃ q, s.run n c = .ok q ∧ Around place p q ∧ q.Balanced ∧ q.next = s.next + c.declared.length

section

variable {place inner : Interior} {vs : List Variable} {opener head middle last : Instruction}
  {b c : Code}

theorem accepted_nil : Accepted place vs [] := by
  intro p n hp hfit hv hd
  exact ⟨p, rfl, .refl place p, hp, rfl⟩

theorem accepted_instruction {f l : Bool} {i : Instruction} (hi : i.isBlock = false)
    (hin : i.inputs ⊆ vs) (hret : i.op = .ret → f = true)
    (hjump : i.op = .loopBreak ∨ i.op = .loopContinue → l = true)
    (hc : Accepted (.body f l) (vs ++ i.outputs) c) : Accepted (.body f l) vs (i :: c) := by
  intro p n hp hfit hv hd
  obtain ⟨hindex, hnum, hrest⟩ := dense_cons_iff.mp hd
  have ha : p.Admits n i := by
    refine ⟨hindex, hv.subset_iff.mpr hin, hfit.contains_of_not_isBlock hi hret hjump, ?_, ?_,
      hnum, ?_⟩
    · intro he
      simp [Instruction.isBlock, he] at hi
    · intro hop
      simp only [Instruction.isBlock, Instruction.isBlockStart_eq] at hi
      rcases hop with hop | hop <;> simp [hop] at hi
    · have := hrest.bounded
      omega
  have haround : Around (.body f l) p (p.after i) := around_after _ hi
  have hfit' : (Interior.body f l).Fits (p.after i).contexts (p.after i).defaults := by
    rw [haround.contexts]
    exact hfit
  obtain ⟨q, hrun, haround', hbal, hnext⟩ := hc (hp.after ha) hfit' (hv.after hi) hrest
  refine ⟨q, (run_cons_eq_ok_iff hp).mpr ⟨ha, hrun⟩, haround.trans haround', hbal, ?_⟩
  rw [hnext, declared_cons, List.length_append, ← Nat.add_assoc]
  rfl

/-- A block is accepted if its first body and what follows that are. -/
theorem accepted_block (inner : Interior) (hi : place.inside? head.op = some inner) (he : head.isBlockEnd = false)
    (hin : head.inputs ⊆ vs)
    (hb : Accepted inner (vs ++ head.outputs ++ head.innerOutputs) b)
    (hc : Continued place inner (vs ++ head.outputs) head c) :
    Accepted place vs (head :: b ++ c) := by
  intro p n hp hfit hv hd
  obtain ⟨hd₁, hd₂⟩ := dense_append_iff.mp hd
  obtain ⟨hindex, hnum, hrest⟩ := dense_cons_iff.mp hd₁
  have hs := Interior.isBlockStart_of_inside hi
  have ha : p.Admits n head := by
    refine ⟨hindex, hv.subset_iff.mpr hin, hfit.contains_of_inside hi, ?_,
      hfit.undefaulted_of_inside hi, hnum, ?_⟩
    · intro h
      rw [he] at h
      cases h
    · have := hrest.bounded
      omega
  have ho := hv.opened hp ha hs he
  have hinner : inner.Fits (p.after head).contexts (p.after head).defaults := by
    refine Interior.Fits.after_start ?_ hi
    rw [outerContexts, he]
    exact hfit
  obtain ⟨s, hrun, haround, hbal, hnext⟩ := hb ho.balanced hinner (ho.sees_of_start hs) hrest
  have hnext' : s.next = p.next + (declared (head :: b)).length := by
    rw [hnext, declared_cons, List.length_append, ← Nat.add_assoc]
    rfl
  rw [← hnext'] at hd₂
  obtain ⟨q, hrun', haround', hbal', hq⟩ := hc (ho.around hi haround hbal) hfit
    ⟨_, haround.contexts ▸ hinner⟩ hd₂
  refine ⟨q, run_append_eq_ok_iff.mpr ⟨s, (run_cons_eq_ok_iff hp).mpr ⟨ha, hrun⟩, hrun'⟩,
    haround', hbal', ?_⟩
  rw [hq, hnext', declared_append, List.length_append, Nat.add_assoc]

/-- An instruction that ends a block, which has no inputs, is admitted at the end of its body. -/
theorem Opened.admits {p s : Progress} {n : Nat} {flags : List Bool} (h : Opened p vs opener s)
    (hi : place.inside? opener.op = some inner) (hfit : inner.Fits s.contexts flags)
    (hc : last.op.Closes opener.op) (hd : Dense s.next n (last :: c)) : s.Admits n last := by
  obtain ⟨hindex, hnum, hrest⟩ := dense_cons_iff.mp hd
  have hin : last.inputs = [] := by
    apply List.eq_nil_of_length_eq_zero
    rw [Instruction.length_inputs, Instruction.shape]
    generalize last.op = op, opener.op = op' at hc ⊢
    cases hc <;> rfl
  refine ⟨hindex, ?_, hfit.contains_of_closes hi hc, ?_, ?_, hnum, ?_⟩
  · rw [hin]
    simp
  · intro _
    exact ⟨opener, p.blocks, h.blocks, Operation.closes_iff.mpr hc⟩
  · intro hop
    generalize last.op = op, opener.op = op' at hc hop
    cases hc <;> simp at hop
  · have := hrest.bounded
    omega

/-- A block group goes on with a further section if the section and what follows it are accepted. -/
theorem continued_section {f l : Bool} {op op' : Operation} (starts : opener.op = op)
    (continues : middle.op = op') (hc : op'.Closes op)
    (hi : (Interior.body f l).inside? op = some (.body f l))
    (hi' : (Interior.body f l).inside? op' = some (.body f l))
    (hb : Accepted (.body f l) (vs ++ middle.innerOutputs) b)
    (hrest : Continued (.body f l) (.body f l) vs middle c) :
    Continued (.body f l) (.body f l) vs opener (middle :: b ++ c) := by
  subst starts continues
  intro p s n h hfit ⟨flags, hin⟩ hd
  obtain ⟨hd₁, hd₂⟩ := dense_append_iff.mp hd
  have he := Instruction.isBlockEnd_of_closes hc
  have hs := Interior.isBlockStart_of_inside hi'
  have ha := h.admits hi hin hc hd₁
  have ho := h.continued ha hs he
  have hinner : (Interior.body f l).Fits (s.after middle).contexts (s.after middle).defaults := by
    refine Interior.Fits.after_start ?_ hi'
    rw [outerContexts, if_pos he, h.contexts]
    exact hfit
  obtain ⟨s', hrun, haround, hbal, hnext⟩ :=
    hb ho.balanced hinner (ho.sees_of_start hs) (dense_cons_iff.mp hd₁).2.2
  have hnext' : s'.next = s.next + (declared (middle :: b)).length := by
    rw [hnext, declared_cons, List.length_append, ← Nat.add_assoc]
    rfl
  rw [← hnext'] at hd₂
  obtain ⟨q, hrun', haround', hbal', hq⟩ := hrest (ho.around hi' haround hbal) hfit
    ⟨_, haround.contexts ▸ hinner⟩ hd₂
  refine ⟨q, run_append_eq_ok_iff.mpr
    ⟨s', (run_cons_eq_ok_iff h.balanced).mpr ⟨ha, hrun⟩, hrun'⟩, haround', hbal', ?_⟩
  rw [hq, hnext', declared_append, List.length_append, Nat.add_assoc]

/-- A block group ends, and what follows it is accepted. -/
theorem continued_end {op op' : Operation} (starts : opener.op = op) (ends : last.op = op')
    (hc : op'.Closes op) (hi : place.inside? op = some inner)
    (hs : op'.shape.has .blockStart = false) (hdefault : op = .beginSwitchDefaultCase → c = [])
    (hb : Accepted place vs c) : Continued place inner vs opener (last :: c) := by
  subst starts ends
  intro p s n h hfit ⟨flags, hin⟩ hd
  have ha := h.admits hi hin hc hd
  obtain ⟨haround, hsees, hdefaults⟩ := h.closed ha hi hs (Instruction.isBlockEnd_of_closes hc)
  have hbal := h.balanced.after ha
  by_cases hop : opener.op = .beginSwitchDefaultCase
  · rw [hdefault hop]
    refine ⟨s.after last, (run_cons_eq_ok_iff h.balanced).mpr ⟨ha, rfl⟩, haround, hbal, ?_⟩
    simp [Progress.after]
  · rw [if_neg hop] at hdefaults
    have hfit' : place.Fits (s.after last).contexts (s.after last).defaults := by
      rw [haround.contexts, hdefaults]
      exact hfit
    obtain ⟨q, hrun, haround', hbal', hnext⟩ :=
      hb hbal hfit' hsees (dense_cons_iff.mp hd).2.2
    refine ⟨q, (run_cons_eq_ok_iff h.balanced).mpr ⟨ha, hrun⟩, haround.trans haround', hbal', ?_⟩
    rw [hnext, declared_cons, List.length_append, ← Nat.add_assoc]
    rfl

/-- A block whose start binds no variable. -/
theorem accepted_unbound {op : Operation} (starts : head.op = op) (hout : op.shape.outputs = 0)
    (hinner : op.shape.innerOutputs = 0) (hi : place.inside? op = some inner)
    (he : op.shape.has .blockEnd = false) (hin : head.inputs ⊆ vs) (hb : Accepted inner vs b)
    (hc : Continued place inner vs head c) : Accepted place vs (head :: b ++ c) := by
  subst starts
  have ho := Instruction.outputs_eq_nil hout
  have hio := Instruction.innerOutputs_eq_nil_of_shape hinner
  apply accepted_block inner hi he hin
  · rwa [ho, hio, List.append_nil, List.append_nil]
  · rwa [ho, List.append_nil]

end

/-- Everything that the grammar generates is accepted. -/
theorem accepted_of_wellNested {place : Interior} {vs : List Variable} {c : Code}
    (h : WellNested place vs c) : Accepted place vs c := by
  induction h with
  | done => exact accepted_nil
  | instruction ordinary visible returns jumps _ ih =>
    exact accepted_instruction ordinary visible returns jumps ih
  | @function f l vs n head last b c starts ends _ _ ihb ihc =>
    have hin := Instruction.inputs_eq_nil (i := head) (by rw [starts]; rfl)
    apply accepted_block (.body true false) (by rw [starts]; rfl)
      (by rw [Instruction.isBlockEnd_eq, starts]) (by simp [hin]) ihb
    exact continued_end starts ends (.function n) rfl rfl (by simp) ihc
  | @conditional f l vs inverted head last b c starts visible ends _ _ ihb ihc =>
    exact accepted_unbound starts rfl rfl rfl rfl visible ihb
      (continued_end starts ends (.conditional inverted) rfl rfl (by simp) ihc)
  | @alternative f l vs inverted head middle last b b' c starts visible continues ends _ _ _ ihb
      ihb' ihc =>
    have hi' := Instruction.innerOutputs_eq_nil_of_shape (i := middle) (by rw [continues]; rfl)
    rw [List.append_assoc]
    apply accepted_unbound starts rfl rfl rfl rfl visible ihb
    apply continued_section starts continues (.otherwise inverted) rfl rfl
      (by rwa [hi', List.append_nil])
    exact continued_end continues ends .alternative rfl rfl (by simp) ihc
  | @whileLoop f l vs comparator head last b c starts visible ends _ _ ihb ihc =>
    exact accepted_unbound starts rfl rfl rfl rfl visible ihb
      (continued_end starts ends (.whileLoop comparator) rfl rfl (by simp) ihc)
  | @forLoop f l vs head last b c starts visible ends _ _ ihb ihc =>
    have ho := Instruction.outputs_eq_nil (i := head) (by rw [starts]; rfl)
    apply accepted_block (.body f true) (by rw [starts]; rfl)
      (by rw [Instruction.isBlockEnd_eq, starts]) visible (by rwa [ho, List.append_nil])
    rw [ho, List.append_nil]
    exact continued_end starts ends .forLoop rfl rfl (by simp) ihc
  | @tryCatch f l vs head middle last b b' c starts continues ends _ _ _ ihb ihb' ihc =>
    have hin := Instruction.inputs_eq_nil (i := head) (by rw [starts]; rfl)
    rw [List.append_assoc]
    apply accepted_unbound starts rfl rfl rfl rfl (by simp [hin]) ihb
    apply continued_section starts continues .tryCatch rfl rfl ihb'
    exact continued_end continues ends .catchEnd rfl rfl (by simp) ihc
  | @tryFinally f l vs head middle last b b' c starts continues ends _ _ _ ihb ihb' ihc =>
    have hin := Instruction.inputs_eq_nil (i := head) (by rw [starts]; rfl)
    have hi' := Instruction.innerOutputs_eq_nil_of_shape (i := middle) (by rw [continues]; rfl)
    rw [List.append_assoc]
    apply accepted_unbound starts rfl rfl rfl rfl (by simp [hin]) ihb
    apply continued_section starts continues .tryFinally rfl rfl (by rwa [hi', List.append_nil])
    exact continued_end continues ends .finallyEnd rfl rfl (by simp) ihc
  | @tryCatchFinally f l vs head middle middle' last b b' b'' c starts continues continues' ends _
      _ _ _ ihb ihb' ihb'' ihc =>
    have hin := Instruction.inputs_eq_nil (i := head) (by rw [starts]; rfl)
    have hi' := Instruction.innerOutputs_eq_nil_of_shape (i := middle') (by rw [continues']; rfl)
    rw [List.append_assoc, List.append_assoc]
    apply accepted_unbound starts rfl rfl rfl rfl (by simp [hin]) ihb
    apply continued_section starts continues .tryCatch rfl rfl ihb'
    apply continued_section continues continues' .catchFinally rfl rfl
      (by rwa [hi', List.append_nil])
    exact continued_end continues' ends .finallyEnd rfl rfl (by simp) ihc
  | @switch f l vs head last b c starts visible ends _ _ ihb ihc =>
    exact accepted_unbound starts rfl rfl rfl rfl visible ihb
      (continued_end starts ends .switch rfl rfl (by simp) ihc)
  | @switchCase f l vs head last b c starts visible ends _ _ ihb ihc =>
    exact accepted_unbound starts rfl rfl rfl rfl visible ihb
      (continued_end starts ends .switchCase rfl rfl (by simp) ihc)
  | @defaultCase f l vs head last b starts ends _ ihb =>
    have hin := Instruction.inputs_eq_nil (i := head) (by rw [starts]; rfl)
    apply accepted_unbound starts rfl rfl rfl rfl (by simp [hin]) ihb
    exact continued_end starts ends .defaultCase rfl rfl (fun _ => rfl) accepted_nil
  | @classDefinition f l vs superclass head last b c starts visible ends _ _ ihb ihc =>
    have hi := Instruction.innerOutputs_eq_nil_of_shape (i := head) (by rw [starts]; rfl)
    apply accepted_block .methods (by rw [starts]; rfl)
      (by rw [Instruction.isBlockEnd_eq, starts]) visible (by rwa [hi, List.append_nil])
    exact continued_end starts ends (.classDefinition superclass) rfl rfl (by simp) ihc
  | @method vs name n head last b c starts ends _ _ ihb ihc =>
    have hin := Instruction.inputs_eq_nil (i := head) (by rw [starts]; rfl)
    have ho := Instruction.outputs_eq_nil (i := head) (by rw [starts]; rfl)
    apply accepted_block (.body true false) (by rw [starts]; rfl)
      (by rw [Instruction.isBlockEnd_eq, starts]) (by simp [hin]) (by rwa [ho, List.append_nil])
    rw [ho, List.append_nil]
    exact continued_end starts ends (.method name n) rfl rfl (by simp) ihc

/-! ## What is accepted is generated by the grammar -/

/-- The code is a row that the grammar generates, and then ends or goes on with the end of the block that
the row stands in. -/
def StartsWithRow (place : Interior) (vs : List Variable) (p q : Progress) (c : Code) : Prop :=
  ∃ b rest p' m, c = b ++ rest ∧ WellNested place vs b ∧ p'.Balanced ∧ Around place p p' ∧
    p'.run m rest = .ok q ∧ ∀ i ∈ rest.head?, i.isBlockEnd = true

/-- Wherever the code is read to an end without open blocks, it starts with a row. -/
def Splits (c : Code) : Prop :=
  ∀ {place : Interior} {vs : List Variable} {p q : Progress} {n : Nat}, p.Balanced →
    place.Fits p.contexts p.defaults → p.Sees vs → p.run n c = .ok q → q.blocks = [] →
    StartsWithRow place vs p q c

section

variable {place inner : Interior} {vs : List Variable} {p q s : Progress} {n : Nat}
  {opener head middle last : Instruction} {c : Code}

/-- The body behind the start of a block, up to the instruction that ends it. -/
theorem Opened.splits_body (h : Opened p vs opener s) (hi : place.inside? opener.op = some inner)
    (hfit : inner.Fits s.contexts s.defaults) {ws : List Variable} (hv : s.Sees ws)
    (hc : Splits c) (hrun : s.run n c = .ok q) (hq : q.blocks = []) :
    ∃ b closer rest s' m, c = b ++ closer :: rest ∧ WellNested inner ws b ∧
      Opened p vs opener s' ∧ s'.Admits m closer ∧ closer.op.Closes opener.op ∧
      (s'.after closer).run (m + 1) rest = .ok q := by
  obtain ⟨b, rest, s', m, hsplit, hb, hbal, haround, hrest, hhead⟩ :=
    hc h.balanced hfit hv hrun hq
  have h' := h.around hi haround hbal
  cases rest with
  | nil =>
    cases hrest
    rw [h'.blocks] at hq
    cases hq
  | cons closer rest =>
    obtain ⟨ha, hrun'⟩ := (run_cons_eq_ok_iff hbal).mp hrest
    have he := hhead closer rfl
    exact ⟨b, closer, rest, s', m, hsplit, hb, h', ha, h'.closes_of_admits ha he, hrun'⟩

/-- The first body of a block. -/
theorem Sees.splits_block (hv : p.Sees vs) (hp : p.Balanced)
    (hfit : place.Fits p.contexts p.defaults) (ha : p.Admits n head)
    (hi : place.inside? head.op = some inner) (he : head.isBlockEnd = false) (hc : Splits c)
    (hrun : (p.after head).run (n + 1) c = .ok q) (hq : q.blocks = []) :
    ∃ b closer rest s m, c = b ++ closer :: rest ∧
      WellNested inner (vs ++ head.outputs ++ head.innerOutputs) b ∧
      Opened p (vs ++ head.outputs) head s ∧ s.Admits m closer ∧ closer.op.Closes head.op ∧
      (s.after closer).run (m + 1) rest = .ok q := by
  have hs := Interior.isBlockStart_of_inside hi
  have ho := hv.opened hp ha hs he
  have hinner : inner.Fits (p.after head).contexts (p.after head).defaults := by
    refine Interior.Fits.after_start ?_ hi
    rw [outerContexts, he]
    exact hfit
  exact ho.splits_body hi hinner (ho.sees_of_start hs) hc hrun hq

/-- A further section of a block group. -/
theorem Opened.splits_section {f l : Bool} (h : Opened p vs opener s)
    (hfit : (Interior.body f l).Fits p.contexts p.defaults) (ha : s.Admits n middle)
    (hc : middle.op.Closes opener.op)
    (hi : (Interior.body f l).inside? middle.op = some (.body f l)) (hcode : Splits c)
    (hrun : (s.after middle).run (n + 1) c = .ok q) (hq : q.blocks = []) :
    ∃ b closer rest s' m, c = b ++ closer :: rest ∧
      WellNested (.body f l) (vs ++ middle.innerOutputs) b ∧
      Opened p vs middle s' ∧ s'.Admits m closer ∧ closer.op.Closes middle.op ∧
      (s'.after closer).run (m + 1) rest = .ok q := by
  have he := Instruction.isBlockEnd_of_closes hc
  have hs := Interior.isBlockStart_of_inside hi
  have ho := h.continued ha hs he
  have hinner : (Interior.body f l).Fits (s.after middle).contexts (s.after middle).defaults := by
    refine Interior.Fits.after_start ?_ hi
    rw [outerContexts, if_pos he, h.contexts]
    exact hfit
  exact ho.splits_body hi hinner (ho.sees_of_start hs) hcode hrun hq

/-- What follows a block group other than a default case. -/
theorem Opened.splits_rest (h : Opened p vs opener s) (hfit : place.Fits p.contexts p.defaults)
    (hi : place.inside? opener.op = some inner) (ha : s.Admits n last)
    (hc : last.op.Closes opener.op) (hs : last.isBlockStart = false)
    (hop : opener.op ≠ .beginSwitchDefaultCase) (hcode : Splits c)
    (hrun : (s.after last).run (n + 1) c = .ok q) (hq : q.blocks = []) :
    StartsWithRow place vs p q c := by
  obtain ⟨haround, hsees, hdefaults⟩ :=
    h.closed ha hi hs (Instruction.isBlockEnd_of_closes hc)
  rw [if_neg hop] at hdefaults
  have hfit' : place.Fits (s.after last).contexts (s.after last).defaults := by
    rw [haround.contexts, hdefaults]
    exact hfit
  obtain ⟨b, rest, p', m, hsplit, hb, hbal, haround', hrest, hhead⟩ :=
    hcode (h.balanced.after ha) hfit' hsees hrun hq
  exact ⟨b, rest, p', m, hsplit, hb, hbal, haround.trans haround', hrest, hhead⟩

/-- A block group stands in front of the rest of its row. -/
theorem StartsWithRow.prepend {ws : List Variable} {a : Code}
    (h : StartsWithRow place ws p q c)
    (hg : ∀ b, WellNested place ws b → WellNested place vs (a ++ last :: b)) :
    StartsWithRow place vs p q (a ++ last :: c) := by
  obtain ⟨b, rest, p', m, rfl, hb, hbal, haround, hrest, hhead⟩ := h
  exact ⟨a ++ last :: b, rest, p', m, by simp, hg b hb, hbal, haround, hrest, hhead⟩

/-- A block group with one body, other than a default case. -/
theorem splits_simple {op ends : Operation} (hv : p.Sees vs) (hp : p.Balanced)
    (hfit : place.Fits p.contexts p.defaults) (ha : p.Admits n head) (starts : head.op = op)
    (hi : place.inside? op = some inner) (he : op.shape.has .blockEnd = false)
    (hop : op ≠ .beginSwitchDefaultCase) (hends : ∀ op', op'.Closes op → op' = ends)
    (hstart : ends.shape.has .blockStart = false)
    (ih : ∀ c' : Code, c'.length ≤ c.length → Splits c')
    (hrun : (p.after head).run (n + 1) c = .ok q) (hq : q.blocks = [])
    (hg : ∀ closer b b', closer.op = ends →
      WellNested inner (vs ++ head.outputs ++ head.innerOutputs) b →
      WellNested place (vs ++ head.outputs) b' →
      WellNested place vs (head :: b ++ closer :: b')) :
    StartsWithRow place vs p q (head :: c) := by
  subst starts
  obtain ⟨b, closer, c', s, m, rfl, hb, ho, ha', hc, hrun'⟩ :=
    hv.splits_block hp hfit ha hi he (ih c (Nat.le_refl _)) hrun hq
  have hlen : c'.length ≤ (b ++ closer :: c').length := by
    simp only [List.length_append, List.length_cons]
    omega
  have hlast := hends closer.op hc
  have hs : closer.isBlockStart = false := by
    rw [← hlast] at hstart
    exact hstart
  have hrow := ho.splits_rest hfit hi ha' hc hs hop (ih c' hlen) hrun' hq
  exact hrow.prepend (a := head :: b) fun b' hb' => hg closer b b' hlast hb hb'

/-- Such a group whose start binds no variable. -/
theorem splits_unbound {op ends : Operation} (hv : p.Sees vs) (hp : p.Balanced)
    (hfit : place.Fits p.contexts p.defaults) (ha : p.Admits n head) (starts : head.op = op)
    (hout : op.shape.outputs = 0) (hinner : op.shape.innerOutputs = 0)
    (hi : place.inside? op = some inner) (he : op.shape.has .blockEnd = false)
    (hop : op ≠ .beginSwitchDefaultCase) (hends : ∀ op', op'.Closes op → op' = ends)
    (hstart : ends.shape.has .blockStart = false)
    (ih : ∀ c' : Code, c'.length ≤ c.length → Splits c')
    (hrun : (p.after head).run (n + 1) c = .ok q) (hq : q.blocks = [])
    (hg : ∀ closer b b', closer.op = ends → WellNested inner vs b → WellNested place vs b' →
      WellNested place vs (head :: b ++ closer :: b')) :
    StartsWithRow place vs p q (head :: c) := by
  have ho := Instruction.outputs_eq_nil (i := head) (by rwa [starts])
  have hio := Instruction.innerOutputs_eq_nil_of_shape (i := head) (by rwa [starts])
  refine splits_simple hv hp hfit ha starts hi he hop hends hstart ih hrun hq ?_
  rw [ho, hio, List.append_nil, List.append_nil]
  exact hg

/-- The default case, which ends its row. -/
theorem splits_default {f l : Bool} (hv : p.Sees vs) (hp : p.Balanced)
    (hfit : (Interior.cases f l).Fits p.contexts p.defaults) (ha : p.Admits n head)
    (hop : head.op = .beginSwitchDefaultCase)
    (ih : ∀ c' : Code, c'.length ≤ c.length → Splits c')
    (hrun : (p.after head).run (n + 1) c = .ok q) (hq : q.blocks = []) :
    StartsWithRow (.cases f l) vs p q (head :: c) := by
  have hi : (Interior.cases f l).inside? head.op = some (.body f l) := by
    rw [hop]
    rfl
  have he : head.isBlockEnd = false := by
    rw [Instruction.isBlockEnd_eq, hop]
  have hout := Instruction.outputs_eq_nil (i := head) (by rw [hop]; rfl)
  have hinner := Instruction.innerOutputs_eq_nil_of_shape (i := head)
    (by rw [hop]; rfl)
  obtain ⟨b, closer, c', s, m, rfl, hb, ho, ha', hc, hrun'⟩ :=
    hv.splits_block hp hfit ha hi he (ih c (Nat.le_refl _)) hrun hq
  have hends : closer.op = .endSwitchCase := by
    rw [hop] at hc
    generalize closer.op = op at hc ⊢
    cases hc
    rfl
  rw [hout, hinner, List.append_nil, List.append_nil] at hb
  obtain ⟨haround, -, hdefaults⟩ := ho.closed ha' hi
    (by rw [Instruction.isBlockStart_eq, hends]) (Instruction.isBlockEnd_of_closes hc)
  rw [if_pos hop] at hdefaults
  have hbal := ho.balanced.after ha'
  refine ⟨head :: b ++ [closer], c', s.after closer, m + 1, by simp,
    .defaultCase hop hends hb, hbal, haround, hrun', ?_⟩
  intro i hhead
  cases c' with
  | nil => cases hhead
  | cons j js =>
    cases hhead
    obtain ⟨hadmits, -⟩ := (run_cons_eq_ok_iff hbal).mp hrun'
    -- Its switch has had the default case, so no further case is admitted.
    have hno := hadmits.undefaulted
    rw [hdefaults] at hno
    have hcontext := hadmits.context
    rw [Progress.context, haround.contexts, ← Progress.context] at hcontext
    rcases hfit.admitted_in_cases hcontext with hj | hj | hj
    · cases hno (.inl hj)
    · cases hno (.inr hj)
    · exact hj

/-- A conditional, perhaps with an alternative. -/
theorem splits_conditional {f l inverted : Bool} (hv : p.Sees vs) (hp : p.Balanced)
    (hfit : (Interior.body f l).Fits p.contexts p.defaults) (ha : p.Admits n head)
    (hop : head.op = .beginIf inverted)
    (ih : ∀ c' : Code, c'.length ≤ c.length → Splits c')
    (hrun : (p.after head).run (n + 1) c = .ok q) (hq : q.blocks = []) :
    StartsWithRow (.body f l) vs p q (head :: c) := by
  have hin := hv.subset_iff.mp ha.visible
  have hi : (Interior.body f l).inside? head.op = some (.body f l) := by
    rw [hop]
    rfl
  have he : head.isBlockEnd = false := by
    rw [Instruction.isBlockEnd_eq, hop]
  have hout := Instruction.outputs_eq_nil (i := head) (by rw [hop]; rfl)
  have hinner := Instruction.innerOutputs_eq_nil_of_shape (i := head)
    (by rw [hop]; rfl)
  obtain ⟨b, middle, c₁, s, m, rfl, hb, ho, ha₁, hc₁, hrun₁⟩ :=
    hv.splits_block hp hfit ha hi he (ih c (Nat.le_refl _)) hrun hq
  rw [hout, hinner, List.append_nil, List.append_nil] at hb
  rw [hout, List.append_nil] at ho
  have hends : middle.op = .endIf ∨ middle.op = .beginElse := by
    have hc := hc₁
    rw [hop] at hc
    generalize middle.op = op at hc ⊢
    cases hc
    · exact .inr rfl
    · exact .inl rfl
  rcases hends with hends | hcontinues
  · have hrow := ho.splits_rest hfit hi ha₁ hc₁ (by rw [Instruction.isBlockStart_eq, hends])
      (by simp [hop]) (ih c₁ (by simp; omega)) hrun₁ hq
    exact hrow.prepend (a := head :: b) fun b' hb' => .conditional hop hin hends hb hb'
  · have hi₁ : (Interior.body f l).inside? middle.op = some (.body f l) := by
      rw [hcontinues]
      rfl
    have hinner₁ := Instruction.innerOutputs_eq_nil_of_shape (i := middle)
      (by rw [hcontinues]; rfl)
    obtain ⟨b₁, last, c₂, s₁, m₁, rfl, hb₁, ho₁, ha₂, hc₂, hrun₂⟩ :=
      ho.splits_section hfit ha₁ hc₁ hi₁ (ih c₁ (by simp; omega)) hrun₁ hq
    rw [hinner₁, List.append_nil] at hb₁
    have hends : last.op = .endIf := by
      have hc := hc₂
      rw [hcontinues] at hc
      generalize last.op = op at hc ⊢
      cases hc
      rfl
    have hrow := ho₁.splits_rest hfit hi₁ ha₂ hc₂ (by rw [Instruction.isBlockStart_eq, hends])
      (by simp [hcontinues]) (ih c₂ (by simp; omega)) hrun₂ hq
    have := hrow.prepend (a := head :: b ++ middle :: b₁) fun b' hb' =>
      .alternative hop hin hcontinues hends hb hb₁ hb'
    simpa using this

/-- The last section of a try statement, and the rest of the row. -/
theorem Opened.splits_last_section {f l : Bool} (h : Opened p vs opener s)
    (hfit : (Interior.body f l).Fits p.contexts p.defaults) (ha : s.Admits n middle)
    (hc : middle.op.Closes opener.op) (hop : middle.op = .beginFinally)
    (ih : ∀ c' : Code, c'.length ≤ c.length → Splits c')
    (hrun : (s.after middle).run (n + 1) c = .ok q) (hq : q.blocks = []) :
    ∃ b last c', c = b ++ last :: c' ∧ last.op = .endTryCatchFinally ∧
      WellNested (.body f l) vs b ∧ StartsWithRow (.body f l) vs p q c' := by
  have hi : (Interior.body f l).inside? middle.op = some (.body f l) := by
    rw [hop]
    rfl
  have hinner := Instruction.innerOutputs_eq_nil_of_shape (i := middle) (by rw [hop]; rfl)
  obtain ⟨b, last, c', s', m, rfl, hb, ho, ha', hc', hrun'⟩ :=
    h.splits_section hfit ha hc hi (ih c (Nat.le_refl _)) hrun hq
  rw [hinner, List.append_nil] at hb
  have hends : last.op = .endTryCatchFinally := by
    have hc := hc'
    rw [hop] at hc
    generalize last.op = op at hc ⊢
    cases hc
    rfl
  have hrow := ho.splits_rest hfit hi ha' hc' (by rw [Instruction.isBlockStart_eq, hends])
    (by simp [hop]) (ih c' (by simp; omega)) hrun' hq
  exact ⟨b, last, c', rfl, hends, hb, hrow⟩

/-- A try statement, with a handler or a cleanup or both. -/
theorem splits_try {f l : Bool} (hv : p.Sees vs) (hp : p.Balanced)
    (hfit : (Interior.body f l).Fits p.contexts p.defaults) (ha : p.Admits n head)
    (hop : head.op = .beginTry) (ih : ∀ c' : Code, c'.length ≤ c.length → Splits c')
    (hrun : (p.after head).run (n + 1) c = .ok q) (hq : q.blocks = []) :
    StartsWithRow (.body f l) vs p q (head :: c) := by
  have hi : (Interior.body f l).inside? head.op = some (.body f l) := by
    rw [hop]
    rfl
  have he : head.isBlockEnd = false := by
    rw [Instruction.isBlockEnd_eq, hop]
  have hout := Instruction.outputs_eq_nil (i := head) (by rw [hop]; rfl)
  have hinner := Instruction.innerOutputs_eq_nil_of_shape (i := head) (by rw [hop]; rfl)
  obtain ⟨b, middle, c₁, s, m, rfl, hb, ho, ha₁, hc₁, hrun₁⟩ :=
    hv.splits_block hp hfit ha hi he (ih c (Nat.le_refl _)) hrun hq
  rw [hout, hinner, List.append_nil, List.append_nil] at hb
  rw [hout, List.append_nil] at ho
  have hcontinues : middle.op = .beginFinally ∨ middle.op = .beginCatch := by
    have hc := hc₁
    rw [hop] at hc
    generalize middle.op = op at hc ⊢
    cases hc
    · exact .inr rfl
    · exact .inl rfl
  rcases hcontinues with hfinally | hcatch
  · obtain ⟨b₁, last, c₂, rfl, hends, hb₁, hrow⟩ := ho.splits_last_section hfit ha₁ hc₁ hfinally
      (fun c' hc' => ih c' (by simp; omega)) hrun₁ hq
    have := hrow.prepend (a := head :: b ++ middle :: b₁) fun b' hb' =>
      .tryFinally hop hfinally hends hb hb₁ hb'
    simpa using this
  · have hi₁ : (Interior.body f l).inside? middle.op = some (.body f l) := by
      rw [hcatch]
      rfl
    obtain ⟨b₁, middle', c₂, s₁, m₁, rfl, hb₁, ho₁, ha₂, hc₂, hrun₂⟩ :=
      ho.splits_section hfit ha₁ hc₁ hi₁ (ih c₁ (by simp; omega)) hrun₁ hq
    have hcontinues' : middle'.op = .endTryCatchFinally ∨ middle'.op = .beginFinally := by
      have hc := hc₂
      rw [hcatch] at hc
      generalize middle'.op = op at hc ⊢
      cases hc
      · exact .inr rfl
      · exact .inl rfl
    rcases hcontinues' with hends | hfinally
    · have hrow := ho₁.splits_rest hfit hi₁ ha₂ hc₂
        (by rw [Instruction.isBlockStart_eq, hends]) (by simp [hcatch]) (ih c₂ (by simp; omega))
        hrun₂ hq
      have := hrow.prepend (a := head :: b ++ middle :: b₁) fun b' hb' =>
        .tryCatch hop hcatch hends hb hb₁ hb'
      simpa using this
    · obtain ⟨b₂, last, c₃, rfl, hends, hb₂, hrow⟩ :=
        ho₁.splits_last_section hfit ha₂ hc₂ hfinally (fun c' hc' => ih c' (by simp; omega)) hrun₂ hq
      have := hrow.prepend (a := head :: b ++ middle :: b₁ ++ middle' :: b₂) fun b' hb' =>
        .tryCatchFinally hop hcatch hfinally hends hb hb₁ hb₂ hb'
      simpa using this

/-- A block at the start of a row of statements. -/
theorem splits_block_in_body {f l : Bool} (hv : p.Sees vs) (hp : p.Balanced)
    (hfit : (Interior.body f l).Fits p.contexts p.defaults) (ha : p.Admits n head)
    (hi : (Interior.body f l).inside? head.op = some inner) (he : head.isBlockEnd = false)
    (ih : ∀ c' : Code, c'.length ≤ c.length → Splits c')
    (hrun : (p.after head).run (n + 1) c = .ok q) (hq : q.blocks = []) :
    StartsWithRow (.body f l) vs p q (head :: c) := by
  have hin := hv.subset_iff.mp ha.visible
  cases hop : head.op with
  | beginPlainFunction n =>
    apply splits_simple hv hp hfit ha hop rfl rfl (by simp) (by rintro _ ⟨⟩; rfl) rfl ih hrun hq
    intro closer b b' hlast hb hb'
    exact .function hop hlast hb hb'
  | beginIf inverted => exact splits_conditional hv hp hfit ha hop ih hrun hq
  | beginTry => exact splits_try hv hp hfit ha hop ih hrun hq
  | beginWhileLoop comparator =>
    apply splits_unbound hv hp hfit ha hop rfl rfl rfl rfl (by simp) (by rintro _ ⟨⟩; rfl) rfl
      ih hrun hq
    intro closer b b' hlast hb hb'
    exact .whileLoop hop hin hlast hb hb'
  | beginForLoop =>
    have hout := Instruction.outputs_eq_nil (i := head) (by rw [hop]; rfl)
    apply splits_simple hv hp hfit ha hop rfl rfl (by simp) (by rintro _ ⟨⟩; rfl) rfl ih hrun hq
    rw [hout, List.append_nil]
    intro closer b b' hlast hb hb'
    exact .forLoop hop hin hlast hb hb'
  | beginSwitch =>
    apply splits_unbound hv hp hfit ha hop rfl rfl rfl rfl (by simp) (by rintro _ ⟨⟩; rfl) rfl
      ih hrun hq
    intro closer b b' hlast hb hb'
    exact .switch hop hin hlast hb hb'
  | beginClassDefinition superclass =>
    have hinner := Instruction.innerOutputs_eq_nil_of_shape (i := head) (by rw [hop]; rfl)
    apply splits_simple hv hp hfit ha hop rfl rfl (by simp) (by rintro _ ⟨⟩; rfl) rfl ih hrun hq
    rw [hinner, List.append_nil]
    intro closer b b' hlast hb hb'
    exact .classDefinition hop hin hlast hb hb'
  | beginElse | beginCatch | beginFinally => simp [Instruction.isBlockEnd_eq, hop] at he
  | _ =>
    rw [hop] at hi
    cases hi

theorem splits_block_in_cases {f l : Bool} (hv : p.Sees vs) (hp : p.Balanced)
    (hfit : (Interior.cases f l).Fits p.contexts p.defaults) (ha : p.Admits n head)
    (hi : (Interior.cases f l).inside? head.op = some inner)
    (ih : ∀ c' : Code, c'.length ≤ c.length → Splits c')
    (hrun : (p.after head).run (n + 1) c = .ok q) (hq : q.blocks = []) :
    StartsWithRow (.cases f l) vs p q (head :: c) := by
  cases hop : head.op with
  | beginSwitchCase =>
    apply splits_unbound hv hp hfit ha hop rfl rfl rfl rfl (by simp) (by rintro _ ⟨⟩; rfl) rfl
      ih hrun hq
    intro closer b b' hlast hb hb'
    exact .switchCase hop (hv.subset_iff.mp ha.visible) hlast hb hb'
  | beginSwitchDefaultCase => exact splits_default hv hp hfit ha hop ih hrun hq
  | _ =>
    rw [hop] at hi
    cases hi

theorem splits_block_in_methods (hv : p.Sees vs) (hp : p.Balanced)
    (hfit : Interior.methods.Fits p.contexts p.defaults) (ha : p.Admits n head)
    (hi : Interior.methods.inside? head.op = some inner)
    (ih : ∀ c' : Code, c'.length ≤ c.length → Splits c')
    (hrun : (p.after head).run (n + 1) c = .ok q) (hq : q.blocks = []) :
    StartsWithRow .methods vs p q (head :: c) := by
  cases hop : head.op with
  | beginClassMethod name n =>
    have hout := Instruction.outputs_eq_nil (i := head) (by rw [hop]; rfl)
    apply splits_simple hv hp hfit ha hop rfl rfl (by simp) (by rintro _ ⟨⟩; rfl) rfl ih hrun hq
    rw [hout, List.append_nil]
    intro closer b b' hlast hb hb'
    exact .method hop hlast hb hb'
  | _ =>
    rw [hop] at hi
    cases hi

/-- A block at the start of a row. -/
theorem splits_block (hv : p.Sees vs) (hp : p.Balanced) (hfit : place.Fits p.contexts p.defaults)
    (ha : p.Admits n head) (hs : head.isBlockStart = true) (he : head.isBlockEnd = false)
    (ih : ∀ c' : Code, c'.length ≤ c.length → Splits c')
    (hrun : (p.after head).run (n + 1) c = .ok q) (hq : q.blocks = []) :
    StartsWithRow place vs p q (head :: c) := by
  obtain ⟨inner, hi⟩ := hfit.inside_of_admits ha.context hs he
  cases place with
  | body f l => exact splits_block_in_body hv hp hfit ha hi he ih hrun hq
  | cases f l => exact splits_block_in_cases hv hp hfit ha hi ih hrun hq
  | methods => exact splits_block_in_methods hv hp hfit ha hi ih hrun hq

end

/-- Whatever is read to an end without open blocks starts with a row that the grammar generates. -/
theorem splits (c : Code) : Splits c := by
  -- The bodies of a block and what follows it are shorter than the block, but not its tails.
  induction hlen : c.length using Nat.strongRecOn generalizing c with
  | ind k ih =>
    intro place vs p q n hp hfit hv hrun hq
    cases c with
    | nil => exact ⟨[], [], p, n, rfl, .done, hp, .refl place p, hrun, by simp⟩
    | cons i is =>
      obtain ⟨ha, hrun'⟩ := (run_cons_eq_ok_iff hp).mp hrun
      have hshorter (c' : Code) (h : c'.length ≤ is.length) : Splits c' := by
        rw [List.length_cons] at hlen
        exact ih c'.length (by omega) c' rfl
      cases he : i.isBlockEnd with
      | true =>
        refine ⟨[], i :: is, p, n, rfl, .done, hp, .refl place p, hrun, ?_⟩
        intro j hj
        cases hj
        exact he
      | false =>
        cases hs : i.isBlockStart with
        | true => exact splits_block hv hp hfit ha hs he hshorter hrun' hq
        | false =>
          have hi : i.isBlock = false := by
            rw [Instruction.isBlock, hs, he]
            rfl
          cases place with
          | body f l =>
            obtain ⟨hret, hjump, -⟩ := hfit.admitted_in_body ha.context
            have haround : Around (.body f l) p (p.after i) := around_after _ hi
            have hfit' : (Interior.body f l).Fits (p.after i).contexts (p.after i).defaults := by
              rw [haround.contexts]
              exact hfit
            obtain ⟨b, rest, p', m, rfl, hb, hbal, haround', hrest, hhead⟩ :=
              hshorter is (Nat.le_refl _) (hp.after ha) hfit' (hv.after hi) hrun' hq
            exact ⟨i :: b, rest, p', m, rfl,
              .instruction hi (hv.subset_iff.mp ha.visible) hret hjump hb, hbal,
              haround.trans haround', hrest, hhead⟩
          | cases f l =>
            exfalso
            rw [Instruction.isBlockStart_eq] at hs
            rcases hfit.admitted_in_cases ha.context with hop | hop | hend
            · simp [hop] at hs
            · simp [hop] at hs
            · rw [he] at hend
              cases hend
          | methods =>
            exfalso
            rw [Instruction.isBlockStart_eq] at hs
            rcases hfit.admitted_in_methods ha.context with ⟨name, n, hop⟩ | hend
            · simp [hop] at hs
            · rw [he] at hend
              cases hend

/-- Code that is read stands at its positions and declares the next variables. -/
theorem dense_of_run {p q : Progress} {n : Nat} {c : Code} (hp : p.Balanced)
    (hbound : p.next < Variable.limit) (h : p.run n c = .ok q) : Dense p.next n c := by
  induction c generalizing p n with
  | nil => exact ⟨rfl, rfl, hbound⟩
  | cons i is ih =>
    obtain ⟨ha, hrun⟩ := (run_cons_eq_ok_iff hp).mp h
    have hbound' : p.next + i.allOutputs.length < Variable.limit := by
      by_cases hne : i.allOutputs = []
      · rw [hne]
        exact hbound
      · exact ha.bounded hne
    exact dense_cons_iff.mpr ⟨ha.index, ha.numbered, ih (hp.after ha) hbound' hrun⟩

end Code.Progress

theorem Code.dense_of_check {c : Code} (h : c.check = .ok ()) : Dense 0 0 c := by
  obtain ⟨q, hrun, -⟩ := check_eq_ok_iff_run.mp h
  exact Progress.dense_of_run Progress.balanced_start (by decide) hrun

theorem Code.length_declared (c : Code) : c.declared.length = c.numVariables := by
  induction c with
  | nil => rfl
  | cons i is ih =>
    rw [declared_cons, List.length_append, ih]
    rfl

theorem Code.numVariables_cons (i : Instruction) (c : Code) :
    numVariables (i :: c) = i.allOutputs.length + c.numVariables := rfl

theorem Code.numVariables_append (c d : Code) :
    numVariables (c ++ d) = c.numVariables + d.numVariables := by
  rw [← length_declared, declared_append, List.length_append, length_declared, length_declared]

theorem Code.numVariables_lt_of_check {c : Code} (h : c.check = .ok ()) :
    c.numVariables < Variable.limit := by
  have hbounded := (dense_of_check h).bounded
  rwa [length_declared, Nat.zero_add] at hbounded

theorem Code.fits_start : (Interior.body false false).Fits [.top] [] :=
  ⟨_, _, rfl, Context.isBody_top⟩

theorem Code.wellNested_of_check {c : Code} (h : c.check = .ok ()) :
    WellNested (.body false false) [] c := by
  obtain ⟨q, hrun, hq⟩ := check_eq_ok_iff_run.mp h
  obtain ⟨b, rest, p', m, rfl, hb, hbal, haround, hrest, hhead⟩ :=
    Progress.splits c Progress.balanced_start fits_start Progress.sees_start hrun hq
  -- No block is open, so no further instruction can end one.
  have hnil : rest = [] := by
    cases rest with
    | nil => rfl
    | cons i is =>
      obtain ⟨ha, -⟩ := (Progress.run_cons_eq_ok_iff hbal).mp hrest
      obtain ⟨opener, outer, hopen, -⟩ := ha.closes (hhead i rfl)
      rw [haround.blocks] at hopen
      cases hopen
  rwa [hnil, List.append_nil]

theorem Code.check_of_wellNested {c : Code} (hc : WellNested (.body false false) [] c)
    (hd : Dense 0 0 c) : c.check = .ok () := by
  obtain ⟨q, hrun, haround, -, -⟩ :=
    Progress.accepted_of_wellNested hc Progress.balanced_start fits_start Progress.sees_start hd
  exact check_eq_ok_iff_run.mpr ⟨q, hrun, haround.blocks⟩

/-- The check accepts exactly the flattenings of well-formed trees of blocks. -/
theorem Code.check_eq_ok_iff_wellNested (c : Code) :
    c.check = .ok () ↔
      c.map Instruction.index = List.range c.length ∧
      c.declared.map Variable.number = List.range c.declared.length ∧
      c.declared.length < Variable.limit ∧
      WellNested (.body false false) [] c := by
  rw [List.range_eq_range', List.range_eq_range']
  constructor
  · intro h
    have hd := dense_of_check h
    exact ⟨hd.indices, hd.numbers, by simpa using hd.bounded, wellNested_of_check h⟩
  · rintro ⟨hindices, hnumbers, hbound, hc⟩
    exact check_of_wellNested hc ⟨hindices, hnumbers, by simpa using hbound⟩

end ScriptFuzz
