import ScriptFuzz.Proofs.Builder.Numbers
import ScriptFuzz.Proofs.Mutation.FollowUp

/-!
# What following up values keeps

An invariant of builders that emissions and guarded calls keep is kept by whatever is added to follow
up values, if it is kept when an instruction is copied (`FollowUp.spends_copyAll`). The same walk tells
how many numbers of variables an observed program may need: those of its copy, and for each record at
most four guarded calls with as many arguments as the record states, and three accesses to fields
(`Observed.need`).
-/

namespace ScriptFuzz

set_option autoImplicit false

def Operation.isMethodCall : Operation → Bool
  | callMethod _ _ => true
  | _ => false

/-- Whether the operation calls a value or one of its methods, or writes to one of its fields. -/
def Operation.acts : Operation → Bool
  | callFunction _ | construct _ | callMethod _ _ | setProperty _ => true
  | _ => false

theorem Operation.isMethodCall_eq_false {op : Operation} (h : op.acts = false) :
    op.isMethodCall = false := by
  cases op <;> first | rfl | cases h

namespace Record

/-- The numbers of arguments for something that takes a number of them, or is said to take some. -/
def Takes : Option Nat → Nat → Prop
  | some arity, n => n = arity ∨ n = arity + 1
  | none, n => n ≤ 3

/-- The largest number of arguments for something that takes a number of them, or is said to take
some. -/
def mostArguments : Option Nat → Nat
  | some arity => arity + 1
  | none => 3

theorem Takes.le {arity : Option Nat} {n : Nat} (h : Takes arity n) : n ≤ mostArguments arity := by
  cases arity with
  | none => exact h
  | some arity =>
    change n = arity ∨ n = arity + 1 at h
    change n ≤ arity + 1
    omega

/-- The calls with a number of arguments that a value with this record invites. -/
inductive Invokes (r : Record) (n : Nat) : Operation → Prop
  | function (hn : Takes r.arity n) : Invokes r n (.callFunction n)
  | construct (hn : Takes r.arity n) : Invokes r n (.construct n)
  | method {m : String × String} (hm : m ∈ r.methods) (hn : Takes (methodArity? m.2) n) :
    Invokes r n (.callMethod m.1 n)

/-- The largest number of arguments of the calls that a value with this record invites. -/
def mostInvited (r : Record) : Nat :=
  (r.methods.map fun m => mostArguments (methodArity? m.2)).foldr max (mostArguments r.arity)

/-- As many numbers as following up a value with this record takes: a guarded call takes four beside
that of its result and those of its arguments, an access to a field at most two. -/
def need (r : Record) : Nat := 4 * (r.mostInvited + 5) + 3 * 2

theorem mostArguments_arity_le (r : Record) : mostArguments r.arity ≤ r.mostInvited := by
  unfold mostInvited
  induction r.methods with
  | nil => exact Nat.le_refl _
  | cons m ms ih => exact Nat.le_trans ih (Nat.le_max_right _ _)

theorem mostArguments_le_of_mem {r : Record} {m : String × String} (h : m ∈ r.methods) :
    mostArguments (methodArity? m.2) ≤ r.mostInvited := by
  unfold mostInvited
  revert h
  induction r.methods with
  | nil => exact nofun
  | cons m' ms ih =>
    intro h
    rcases List.mem_cons.mp h with rfl | h
    · exact Nat.le_max_left _ _
    · exact Nat.le_trans (ih h) (Nat.le_max_right _ _)

end Record

/-- As many numbers as copying an instruction and following up its value takes. -/
def Observed.needAt (o : Observed) (i : Instruction) : Nat :=
  i.allOutputs.length + ((o.record? i.index).map Record.need).getD 0

/-- As many numbers as a copy of the program takes in which every recorded value is followed up. -/
def Observed.need (o : Observed) : Nat := (o.program.code.map o.needAt).sum

namespace FollowUp

/-- A call of a value, or of a method with one of the names. -/
inductive IsCall (names : String → Prop) (arguments : Nat) : Operation → Prop
  | function : IsCall names arguments (.callFunction arguments)
  | construct : IsCall names arguments (.construct arguments)
  | method {name : String} : names name → IsCall names arguments (.callMethod name arguments)

theorem isCall_of_invokes {r : Record} {names : String → Prop} {n : Nat} {op : Operation}
    (h : r.Invokes n op) (hmethods : ∀ m ∈ r.methods, names m.1) : IsCall names n op := by
  cases h with
  | function => exact .function
  | construct => exact .construct
  | method hm => exact .method (hmethods _ hm)

/-- An invariant that is kept by plain statements that neither call nor write, and by guarded writes
and calls. -/
structure Lasting (I : Builder → Prop) (calls : Nat → Operation → Prop) : Prop where
  emit : ∀ op : Operation, Builder.IsPlain op → op.isCountable = true → op.acts = false →
    KeptBy I op
  write : ∀ (field : String) (object value : Variable),
    Preserves I (Build.tryCatch (Build.setProperty field object value) fun _ => return () :
      Synthesis Unit) fun _ => True
  guarded : ∀ (op : Operation) (subject : Variable) (arguments : List Variable),
    calls arguments.length op → arguments.length < Builder.capacity →
      Preserves I (guarded (Build.emitOne op (subject :: arguments))) fun _ => True

variable {I : Builder → Prop} {calls : Nat → Operation → Prop} (s : MutationSettings)
  (e : Environment) (h : Lasting I calls)
include h

theorem spends_literal : Spends I 1 (literal e) fun _ => True := by
  apply spends_draw_bind
  intro n
  split
  · exact spends_draw_bind fun _ => spends_emitOne [] (h.emit _ ⟨rfl, rfl, rfl⟩ rfl rfl)
  · exact spends_draw_bind fun _ => spends_emitOne [] (h.emit _ ⟨rfl, rfl, rfl⟩ rfl rfl)
  · exact spends_draw_bind fun _ => spends_emitOne [] (h.emit _ ⟨rfl, rfl, rfl⟩ rfl rfl)
  · exact spends_draw_bind fun _ => spends_emitOne [] (h.emit _ ⟨rfl, rfl, rfl⟩ rfl rfl)
  · apply spends_draw_bind
    intro name
    cases name <;> exact spends_emitOne [] (h.emit _ ⟨rfl, rfl, rfl⟩ rfl rfl)
  · exact spends_emitOne [] (h.emit _ ⟨rfl, rfl, rfl⟩ rfl rfl)

theorem spends_argument : Spends I 1 (argument s e) fun _ => True := by
  unfold argument
  simp only
  split
  · exact spends_throw rfl
  apply spends_draw_bind
  intro reuses
  split
  · apply spends_randomVariable.bind_free
    intro v _
    cases v with
    | none => exact spends_literal e h
    | some v => exact (spends_pure trivial).mono (Nat.zero_le 1)
  · exact spends_literal e h

theorem spends_argumentList (n : Nat) :
    Spends I n (argumentList s e n) fun vs => vs.length = n := by
  induction n with
  | zero => exact spends_pure rfl
  | succ n ih =>
    refine ((spends_argument s e h).bind fun v _ => ih.bind fun vs hvs =>
      spends_pure (congrArg (· + 1) hvs)).mono ?_
    omega

omit h in
theorem spends_argumentCount (arity : Option Nat) :
    Spends I 0 (argumentCount arity) (Record.Takes arity) := by
  cases arity with
  | none => exact spends_draw_beside drawGuess_le
  | some arity =>
    refine (spends_draw_beside (Q := (· ≤ 1)) drawSurplus_le).bind_free fun surplus hsurplus => ?_
    simp only
    split
    · apply spends_pure
      unfold Record.Takes
      omega
    · exact spends_throw rfl

theorem spends_arguments (arity : Option Nat) :
    Spends I (Record.mostArguments arity) (arguments s e arity) fun vs =>
      vs.length < Builder.capacity ∧ Record.Takes arity vs.length := by
  refine (spends_argumentCount arity).bind_free fun count hcount => ?_
  have hmost := hcount.le
  simp only
  split
  · rename_i hcapacity
    exact spends_oversized (Nat.le_trans hcapacity hmost)
  · rename_i hcapacity
    refine ((spends_argumentList s e h count).post ?_).mono hmost
    rintro vs rfl
    exact ⟨Nat.lt_of_not_le hcapacity, hcount⟩

omit h in
theorem spends_selectName (options : List String) :
    Spends I 0 (selectName s options) fun _ => True := by
  apply spends_getState.bind_free
  intro f _
  apply spends_draw_bind
  intro choice
  simp only
  split
  · exact (spends_setState _).bind_free fun _ _ => spends_pure trivial
  · exact spends_pure trivial

omit h in
/-- The position of a call, the hook, the report and the exception take a number each. -/
theorem needs_guarded {n : Nat} {call : Synthesis Variable} (hcall : Needs n call) :
    Needs (n + 4) (guarded call) := by
  refine needs_tryCatch (n := n + 3) (spends_get.bind_free fun b _ => ?_)
  refine ((spends_emitOne [] (keptBy_true (.loadInteger _))).bind fun index _ =>
    hcall.bind fun result _ => (spends_reuseBuiltin (keptBy_true _)).bind fun hook _ =>
      (spends_emitOne [hook, result, index] (keptBy_true (.callMethod Hook.recordMethod 2))).bind
        fun _ _ => spends_pure trivial).mono ?_
  change 1 + (n + (1 + (1 + 0))) ≤ _
  omega

/-- A guarded call with one result. -/
theorem spends_guarded {op : Operation} (hone : Builder.declares op = 1) (subject : Variable)
    {args : List Variable} (hcalls : calls args.length op)
    (hlength : args.length < Builder.capacity) :
    Spends I 5 (guarded (Build.emitOne op (subject :: args))) fun _ => True := by
  have hneeds := needs_guarded (spends_emitOne (subject :: args) (keptBy_true op))
  rw [hone] at hneeds
  exact (h.guarded op subject args hcalls hlength).spends hneeds

theorem spends_callMethods {methods : List (String × String)}
    (hmethods : ∀ m ∈ methods, ∀ n, Record.Takes (Record.methodArity? m.2) n →
      calls n (.callMethod m.1 n)) {most : Nat}
    (hmost : ∀ m ∈ methods, Record.mostArguments (Record.methodArity? m.2) ≤ most)
    (object : Variable) (n : Nat) :
    Spends I (n * (most + 5)) (callMethods s e methods object n) fun _ => True := by
  induction n with
  | zero =>
    rw [Nat.zero_mul]
    exact spends_pure trivial
  | succ n ih =>
    apply (spends_selectName s _).bind_free
    intro choice _
    simp only
    rw [Nat.succ_mul]
    split
    · rename_i method arity hm
      have hmem := List.mem_of_getElem? hm
      have hle := hmost _ hmem
      refine (((spends_arguments s e h _).bind fun args hargs =>
        (spends_guarded h rfl object (hmethods _ hmem _ hargs.2) hargs.1).bind fun _ _ => ih).mono ?_)
      omega
    · exact ih.mono (Nat.le_add_right _ _)

theorem spends_accessFields (fields : List String) (object : Variable) (n : Nat) :
    Spends I (n * 2) (accessFields s e fields object n) fun _ => True := by
  induction n with
  | zero => exact spends_pure trivial
  | succ n ih =>
    apply (spends_selectName s _).bind_free
    intro choice _
    simp only
    rw [Nat.succ_mul]
    split
    · rename_i field _
      apply spends_draw_bind
      intro reads
      split
      · refine ((spends_emitOne [object] (h.emit (.getProperty field) ⟨rfl, rfl, rfl⟩ rfl rfl)).bind
          fun _ _ => ih).mono ?_
        change 1 + _ ≤ _
        omega
      · refine ((spends_argument s e h).bind fun value _ => ((h.write field object value).spends
          (needs_tryCatch (spends_emit_ [object, value] (keptBy_true (.setProperty field))))).bind
            fun _ _ => ih).mono ?_
        change 1 + (0 + 1 + _) ≤ _
        omega
    · exact ih.mono (Nat.le_add_right _ _)

omit h in
theorem drawRepetitions_le (r : Random) : (drawRepetitions.run r).1 ≤ 3 := by
  have hbelow : ((Draw.below .single 3).run r).1 < 3 := Draw.below_lt (by decide) r
  change 1 + ((Draw.below .single 3).run r).1 ≤ 3
  omega

theorem spends_fieldStage (r : Record) (value : Variable) :
    Spends I (3 * 2) (fieldStage s e r value) fun _ => True := by
  apply spends_draw_bind
  intro accesses
  split
  · split
    · refine (spends_draw_beside (Q := (· ≤ 3)) drawRepetitions_le).bind_free fun n hn => ?_
      exact (spends_accessFields s e h _ value n).mono (Nat.mul_le_mul_right 2 hn)
    · exact (spends_pure trivial).mono (Nat.zero_le _)
  · exact (spends_pure trivial).mono (Nat.zero_le _)

theorem spends_methodStage {r : Record} (hcalls : ∀ n op, r.Invokes n op → calls n op)
    (value : Variable) :
    Spends I (3 * (r.mostInvited + 5) + 3 * 2) (methodStage s e r value) fun _ => True := by
  have hrest : Spends I (3 * 2) (fieldStage s e r value) fun _ => True :=
    spends_fieldStage s e h r value
  apply spends_draw_bind
  intro invoked
  split
  · split
    · refine (spends_draw_beside (Q := (· ≤ 3)) drawRepetitions_le).bind_free fun n hn => ?_
      have hmethods : ∀ m ∈ r.methods, ∀ n, Record.Takes (Record.methodArity? m.2) n →
          calls n (.callMethod m.1 n) := fun m hm n hn => hcalls n _ (.method hm hn)
      have hmost := fun m hm => Record.mostArguments_le_of_mem (r := r) (m := m) hm
      exact ((spends_callMethods s e h hmethods hmost value n).mono
        (Nat.mul_le_mul_right _ hn)).bind fun _ _ => hrest
    · exact hrest.mono (Nat.le_add_left _ _)
  · exact hrest.mono (Nat.le_add_left _ _)

theorem spends_followUp {r : Record} (hcalls : ∀ n op, r.Invokes n op → calls n op)
    (value : Variable) : Spends I r.need (followUp s e r value) fun _ => True := by
  have hrest := spends_methodStage s e h hcalls value
  have hmost := r.mostArguments_arity_le
  rw [followUp_eq]
  unfold Record.need
  apply spends_draw_bind
  intro invokes
  split
  · refine ((spends_arguments s e h r.arity).bind (k := 5 + (3 * (r.mostInvited + 5) + 3 * 2))
      fun args hargs => ?_).mono (by omega)
    split
    · exact (spends_guarded h rfl value (hcalls _ _ (.construct hargs.2)) hargs.1).bind
        fun _ _ => hrest
    · exact (spends_guarded h rfl value (hcalls _ _ (.function hargs.2)) hargs.1).bind
        fun _ _ => hrest
  · exact hrest.mono (by omega)

theorem preserves_followUp {r : Record} (hcalls : ∀ n op, r.Invokes n op → calls n op)
    (value : Variable) : Preserves I (followUp s e r value) fun _ => True :=
  (spends_followUp s e h hcalls value).preserves

/-- The walk over the instructions keeps what copies and follow-ups keep, and takes what they take. -/
theorem spends_copyAll {o : Observed} (hrecords : ∀ n r, o.record? n = some r →
      ∀ k op, r.Invokes k op → calls k op) (selected : List Nat) {is : Code}
    (hadopt : ∀ i ∈ is, Preserves I (Build.adopt i : Synthesis (List Variable)) fun _ => True) :
    Spends I (is.map o.needAt).sum (copyAll s e o selected is) fun _ => True := by
  induction is with
  | nil => exact spends_pure trivial
  | cons i is ih =>
    have ih := ih fun j hj => hadopt j (List.mem_cons_of_mem i hj)
    rw [List.map_cons, List.sum_cons, Observed.needAt, Nat.add_assoc]
    refine ((hadopt i List.mem_cons_self).spends (needs_adopt i)).bind fun _ _ => ?_
    split
    · split
      · split
        · rename_i v _ _ r hr
          apply ((preserves_adopted v).spends (needs_adopted v)).bind_free
          intro w _
          rw [hr]
          exact (spends_followUp s e h (hrecords _ r hr) w).bind fun _ _ => ih
        · exact ih.mono (Nat.le_add_left _ _)
      · exact ih.mono (Nat.le_add_left _ _)
    · exact ih.mono (Nat.le_add_left _ _)

theorem preserves_copyAll {o : Observed} (hrecords : ∀ n r, o.record? n = some r →
      ∀ k op, r.Invokes k op → calls k op) (selected : List Nat) {is : Code}
    (hadopt : ∀ i ∈ is, Preserves I (Build.adopt i : Synthesis (List Variable)) fun _ => True) :
    Preserves I (copyAll s e o selected is) fun _ => True :=
  (spends_copyAll s e h hrecords selected hadopt).preserves

end FollowUp

end ScriptFuzz
