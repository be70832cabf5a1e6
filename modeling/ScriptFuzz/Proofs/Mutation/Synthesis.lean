import ScriptFuzz.Proofs.Fuzzing.Steps
import ScriptFuzz.Proofs.Mutation.Growth

/-!
# Programs synthesized from observations

A copy of an observed program in which values are followed up is well formed, and it is completed
wherever there are as many numbers for variables as following up every recorded value may take
(`FollowUp.finishes_synthesize`). What is left in the side channel may ask for more than that, and may be
about a class whose definition has only begun.
-/

namespace ScriptFuzz

set_option autoImplicit false

open Code Builder Building

namespace FollowUp

variable {s : MutationSettings} {e : Environment} {o : Observed}

theorem preserves_true {α : Type} (x : Synthesis α) :
    Preserves (fun _ => True) x fun _ => True := fun _ _ _ _ =>
  Fault.ends_iff_forall.mpr fun _ _ => ⟨trivial, trivial⟩

theorem needs_copyAll (s : MutationSettings) (e : Environment) (o : Observed) (selected : List Nat) :
    Needs o.need (copyAll s e o selected o.program.code) := by
  have hlasting : Lasting (fun _ => True) fun _ _ => True :=
    { emit := fun op _ _ _ => keptBy_true op
      write := fun _ _ _ => preserves_true _
      guarded := fun _ _ _ _ _ => preserves_true _ }
  exact spends_copyAll s e hlasting (fun _ _ _ _ _ _ => trivial) selected fun _ _ => preserves_true _

/-- Whatever is selected, the copy is well formed, provided that no record is about a class whose
definition has only begun and that the stated arities leave room. Only numbers can run short. -/
theorem finishes_synthesize (hs : s.reuseProbability.isNaN = false)
    (hsound : o.program.code.IsSound)
    (hrecords : ∀ i ∈ o.program.code, ∀ r, o.record? i.index = some r →
      i.shape.outputs = 1 ∧ i.op.isClassHead = false ∧ r.IsBounded)
    (id : Uuid) (f : Frequencies) :
    Finishes (synthesize s e id f o) (fun r => r.1.code.IsSound) fun fault =>
      fault.isShortage = true ∧ Variable.limit ≤ o.need := by
  obtain ⟨final, hrun, hblocks⟩ := check_eq_ok_iff_run.mp hsound.check
  have hstart : Copies {} [] {} _ {} :=
    Carries.start (holds_derivedFrom o.program o.program.contributors name)
  refine Finishes.bind (P := fun _ => True) (finishes_draw fun _ => trivial) fun selected _ => ?_
  have hcopy := Building.Yields.within
    (yields_copyAll hs o.program.code hstart hrun hsound.countable hrecords)
    (needs_copyAll s e o selected) rfl
  refine Finishes.bind (finishes_assembly (hcopy f)) ?_
  rintro ⟨⟨_, f'⟩, b⟩ ⟨q, h⟩
  exact (finishes_finalize h.target (h.blocks_eq hblocks) id).bind fun p hp => finishes_pure hp

/-- Whatever an execution leaves in the side channel, what is synthesized from it passes the check,
provided that no record is about a class whose definition has only begun, that the arities leave
room, and that the reuse probability is a number. It is synthesized unless following up every recorded
value may take more numbers for variables than there are. -/
theorem synthesize_of_reflectOn {p : Program} {x : Execution} (hcheck : p.code.check = .ok ())
    (hcount : Code.IsCountable p.code) (hreflect : p.reflectOn x = some o)
    (hrecords : ∀ r ∈ Record.ofStream x.fuzzout, ∀ i, p.code[r.index]? = some i →
      i.op.isClassHead = false ∧ r.IsBounded)
    (hs : s.reuseProbability.isNaN = false) (id : Uuid) (f : Frequencies) (random : Random) :
    (∃ r, ((synthesize s e id f o).run.run random).1 = .ok r ∧ r.1.code.check = .ok ()) ∨
      ∃ fault, ((synthesize s e id f o).run.run random).1 = .error fault ∧
        fault.isShortage = true ∧ Variable.limit ≤ o.need := by
  obtain ⟨rfl, hobserved⟩ := Program.reflectOn_eq_some hreflect
  have hfinishes := finishes_synthesize (e := e) hs ⟨hcheck, hcount⟩ ?_ id f
  · exact Fault.ends_iff_exists.mp ((hfinishes random).mono (fun r _ hr => hr.check) fun _ _ h => h)
  intro i hi r hr
  obtain ⟨hmem, hindex, hadmits⟩ := hobserved i.index r hr
  have hget : o.program.code[r.index]? = some i := by
    rw [hindex]
    exact Code.getElem?_index hcheck hi
  obtain ⟨hclass, hbounded⟩ := hrecords r hmem i hget
  refine ⟨?_, hclass, hbounded⟩
  simp only [Program.admits, hget, Option.any_some, Bool.and_eq_true] at hadmits
  simpa [Instruction.hasOneOutput] using hadmits.1

def oneValue : Program where
  id := default
  code := [{ op := .loadBuiltin "f", inouts := [⟨0⟩], index := 0, arity := rfl }]

/-- An execution that reports the value as callable. -/
def callableReport : Execution where
  fuzzout := "\x7b\"index\":0,\"kind\":\"function\",\"type\":\"\",\"arity\":2," ++
    "\"fields\":[],\"methods\":[]\x7d"

def callableRecord : Record :=
  { index := 0, kind := .function, typeName := "", arity := some 2 }

theorem ofStream_callableReport : Record.ofStream callableReport.fuzzout = [callableRecord] := by
  decide +kernel

/-- What the report of a callable value is followed up by. -/
def calls : Except Fault (Program × Frequencies) :=
  ((synthesize {} (.ofBuiltins []) default []
    { program := oneValue, records := [(0, callableRecord)] }).run.run { word := fun _ => 0 }).1

theorem synthesize_of_reflectOn_callable : (oneValue.reflectOn callableReport).isSome = true ∧
    ∃ r, calls = .ok r ∧ r.1.code.check = .ok () := by
  let o : Observed := { program := oneValue, records := [(0, callableRecord)] }
  have hreflect : oneValue.reflectOn callableReport = some o := by
    unfold Program.reflectOn
    rw [ofStream_callableReport]
    rfl
  have hcount : Code.IsCountable oneValue.code := by
    intro i hi
    cases List.mem_singleton.mp hi
    rfl
  have hrecords : ∀ r ∈ Record.ofStream callableReport.fuzzout, ∀ i,
      oneValue.code[r.index]? = some i → i.op.isClassHead = false ∧ r.IsBounded := by
    rw [ofStream_callableReport]
    intro r hr i hi
    cases List.mem_singleton.mp hr
    cases hi
    refine ⟨rfl, ?_, nofun⟩
    rintro n hn
    cases hn
    decide
  have hcheck : oneValue.code.check = .ok () := rfl
  refine ⟨by rw [hreflect]; rfl, ?_⟩
  rcases synthesize_of_reflectOn (s := {}) (e := .ofBuiltins []) hcheck hcount hreflect hrecords
    (by decide +kernel) default [] { word := fun _ => 0 } with hcalls | ⟨_, -, -, hlimit⟩
  · exact hcalls
  · exact absurd hlimit (by decide)

def emptyClass : Program where
  id := default
  code := [
    { op := .beginClassDefinition false, inouts := [⟨0⟩], index := 0, arity := rfl },
    { op := .endClassDefinition, inouts := [], index := 1, arity := by decide }]

def classReport : Execution where
  fuzzout := "\x7b\"index\":0,\"kind\":\"class\",\"type\":\"\",\"fields\":[],\"methods\":[]\x7d"

def classRecord : Record := { index := 0, kind := .classObject, typeName := "" }

theorem ofStream_classReport : Record.ofStream classReport.fuzzout = [classRecord] := by
  decide +kernel

/-- A class that is reported is called right where its definition begins, and no statement may stand
there. -/
theorem synthesize_ne_ok_classHead : emptyClass.code.check = .ok () ∧
    ∃ o, emptyClass.reflectOn classReport = some o ∧
      ((synthesize {} (.ofBuiltins []) default [] o).run.run { word := fun _ => 0 }).1 =
        .error (.context .beginTry (.ofList [.classDefinition])) := by
  refine ⟨rfl, { program := emptyClass, records := [(0, classRecord)] }, ?_, by decide +kernel⟩
  unfold Program.reflectOn
  rw [ofStream_classReport]
  rfl

end FollowUp

end ScriptFuzz
