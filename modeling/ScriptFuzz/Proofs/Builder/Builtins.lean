import ScriptFuzz.Proofs.Builder.Origins
import ScriptFuzz.Proofs.Builder.Outcome

/-!
# Loaded builtins

`Build.reuseBuiltin` gives a visible variable that was declared by loading the builtin, and loads the
builtin only if there is none (`Builder.loads_of_reuseBuiltin`). It does not look at assignments: the
variable may have been given another value since, and then it is given all the same. A variable that
is new has no assignments, since nothing can have read it (`Builder.Rooted`).
-/

namespace ScriptFuzz

set_option autoImplicit false

open Code

/-- Some instruction of the code changes the value of the variable. -/
def Code.Changes (c : Code) (v : Variable) : Prop := ∃ i ∈ c, i.op.assigns = true ∧ i.input 0 = v

theorem Code.changes_append_singleton {c : Code} {i : Instruction} {v : Variable}
    (h : i.op.assigns = false) : Code.Changes (c ++ [i]) v ↔ c.Changes v := by
  constructor
  · rintro ⟨j, hj, hassigns, hv⟩
    rcases List.mem_append.mp hj with hj | hj
    · exact ⟨j, hj, hassigns, hv⟩
    · cases List.mem_singleton.mp hj
      rw [h] at hassigns
      cases hassigns
  · rintro ⟨j, hj, hchanges⟩
    exact ⟨j, List.mem_append_left _ hj, hchanges⟩

namespace Builder

variable {b b' : Builder} {p : Progress} {op : Operation} {inputs : List Variable}
  {name : String} {v : Variable}

/-- The stacks are those of a reading, the builder looks up declarations, and all that is visible or
is read has been declared. -/
structure Rooted (b : Builder) (p : Progress) : Prop extends Stands b p, Traced b where
  sees : p.SeesNumbered
  reads : ∀ i ∈ b.code, ∀ v ∈ i.inputs, v.number < b.nextVariable

theorem Rooted.congr (h : b.Rooted p) (hcode : b'.code = b.code)
    (hnext : b'.nextVariable = b.nextVariable) (hscopes : b'.scopes = b.scopes)
    (hcontexts : b'.contexts = b.contexts) (hblocks : b'.openBlocks = b.openBlocks)
    (hdefinitions : b'.definitions = b.definitions) : b'.Rooted p where
  toStands := h.toStands.congr hcode hnext hscopes hcontexts hblocks
  toTraced := h.toTraced.congr hcode hnext hdefinitions
  sees := h.sees
  reads := by
    rw [hcode, hnext]
    exact h.reads

theorem rooted_start : Rooted {} {} where
  toStands := stands_start
  toTraced := traced_start
  sees := Progress.seesNumbered_start
  reads := nofun

theorem Rooted.number_lt (h : b.Rooted p) (hv : b.isVisible v = true) :
    v.number < b.nextVariable := by
  rw [h.isVisible] at hv
  obtain ⟨s, hs, hmem⟩ := Progress.isVisible_iff.mp hv
  rw [h.next]
  exact h.sees s hs v hmem

theorem Rooted.emit (h : b.Rooted p) {r : List Variable × Builder}
    (he : b.emit op inputs = .ok r) : ∃ q, r.2.Rooted q := by
  have htraced := h.toTraced.emit he
  obtain ⟨produced, b'⟩ := r
  obtain ⟨-, -, hfits, -, rfl⟩ := (emit_eq_ok_iff h.toStands).mp he
  have hnumbered := h.number_drafted hfits.length
  refine ⟨_, h.toStands.extended rfl hfits.closes, htraced, h.sees.after_of_numbered hnumbered, ?_⟩
  intro i hi v hv
  have hnext : v.number < b.nextVariable := by
    rcases List.mem_append.mp hi with hi | hi
    · exact h.reads i hi v hv
    · cases List.mem_singleton.mp hi
      rw [inputs_drafted] at hv
      apply h.number_lt
      rw [h.isVisible]
      exact hfits.visible v hv
  change v.number < p.next + _
  rw [← h.next]
  exact Nat.lt_add_right _ hnext

theorem Reachable.exists_rooted (h : b.Reachable) : ∃ p, b.Rooted p := by
  refine h.keeps (I := fun b => ∃ p, b.Rooted p) ⟨{}, rooted_start⟩ ?_ ?_
  · rintro b op inputs r ⟨p, hp⟩ he
    exact hp.emit he
  · rintro b b' ⟨p, hp⟩ hcode hnext hscopes hcontexts hblocks hdefinitions
    exact ⟨p, hp.congr hcode hnext hscopes hcontexts hblocks hdefinitions⟩

/-- What has not been declared has not been changed. -/
theorem Rooted.number_lt_of_changes (h : b.Rooted p) (hv : b.code.Changes v) :
    v.number < b.nextVariable := by
  obtain ⟨i, hi, hassigns, rfl⟩ := hv
  exact h.reads i hi _ (input_zero_mem_inputs hassigns)

/-- The variable is visible and is declared by loading the builtin. -/
structure Loads (b : Builder) (name : String) (v : Variable) : Prop where
  visible : b.isVisible v = true
  declared : ∃ i, b.code.declarer? v = some i ∧ i.op = .loadBuiltin name

/-- The variable is the first of those that are declared by loading the builtin. -/
def LoadsFirst (b : Builder) (name : String) (v : Variable) : Prop :=
  ∃ before after, b.visibleVariables = before ++ v :: after ∧ b.Loads name v ∧
    ∀ w ∈ before, ¬b.Loads name w

theorem Traced.loads_iff (h : b.Traced) (hv : v ∈ b.visibleVariables) : b.Loads name v ↔
    ((b.definition? v).any fun i => decide (i.op = .loadBuiltin name)) = true := by
  rw [h.definition, Option.any_eq_true]
  constructor
  · rintro ⟨-, i, hi, hop⟩
    exact ⟨i, hi, decide_eq_true hop⟩
  · rintro ⟨i, hi, hop⟩
    exact ⟨mem_visibleVariables.mp hv, i, hi, of_decide_eq_true hop⟩

theorem Traced.loadedBuiltin?_eq_some_iff (h : b.Traced) :
    Build.loadedBuiltin? b name = some v ↔ b.LoadsFirst name v := by
  unfold Build.loadedBuiltin? LoadsFirst
  rw [List.find?_eq_some_iff_append]
  constructor
  · rintro ⟨hv, before, after, hvisible, hbefore⟩
    have hmem (w : Variable) (hw : w ∈ before ++ v :: after) : w ∈ b.visibleVariables :=
      hvisible ▸ hw
    refine ⟨before, after, hvisible, (h.loads_iff (hmem v (by simp))).mpr hv, ?_⟩
    intro w hw hloads
    have hloads := (h.loads_iff (hmem w (List.mem_append_left _ hw))).mp hloads
    simpa [hloads] using hbefore w hw
  · rintro ⟨before, after, hvisible, hv, hbefore⟩
    have hmem (w : Variable) (hw : w ∈ before ++ v :: after) : w ∈ b.visibleVariables :=
      hvisible ▸ hw
    refine ⟨(h.loads_iff (hmem v (by simp))).mp hv, before, after, hvisible, ?_⟩
    intro w hw
    have hloads := mt (h.loads_iff (hmem w (List.mem_append_left _ hw))).mpr (hbefore w hw)
    rw [Bool.not_eq_true] at hloads
    rw [hloads]
    rfl

theorem Traced.loadedBuiltin?_eq_none_iff (h : b.Traced) :
    Build.loadedBuiltin? b name = none ↔ ∀ v, ¬b.Loads name v := by
  unfold Build.loadedBuiltin?
  rw [List.find?_eq_none]
  constructor
  · intro hnone v hv
    have hmem := mem_visibleVariables.mpr hv.visible
    exact hnone v hmem ((h.loads_iff hmem).mp hv)
  · intro hnone v hmem hv
    exact hnone v ((h.loads_iff hmem).mpr hv)

section

variable {m : Type → Type} [Monad m] [MonadStateOf Builder m] [MonadExceptOf Fault m]
  [Building m]

/-- A builtin is declared by an instruction that is there already or that is added. -/
theorem gives_reuseBuiltin_of_traced (h : b.Traced) (name : String) :
    Constructing.Gives (Build.reuseBuiltin name : m Variable) b fun v b' => b'.Traced ∧
      (∃ l, b'.code.declarer? v = some l ∧ l.op = .loadBuiltin name) ∧
      (b' = b ∨ ∃ vs, b.emit (.loadBuiltin name) [] = .ok (v :: vs, b')) := by
  unfold Build.reuseBuiltin
  apply Constructing.bind
  apply Constructing.get
  cases hloaded : Build.loadedBuiltin? b name with
  | some v =>
    apply Constructing.pure
    obtain ⟨_, _, -, hv, -⟩ := h.loadedBuiltin?_eq_some_iff.mp hloaded
    exact ⟨h, hv.declared, .inl rfl⟩
  | none =>
    apply Constructing.gives_emitOne
    intro v vs b' he
    obtain ⟨l, hop, -, -, -, hdeclarer⟩ := h.emitted he
    exact ⟨h.emit he, ⟨l, hdeclarer v List.mem_cons_self, hop⟩, .inr ⟨vs, he⟩⟩

end

/-- A builtin that is loaded anew is declared by the last instruction, and nothing has changed it. -/
theorem Rooted.load (h : b.Rooted p) {vs : List Variable}
    (he : b.emit (.loadBuiltin name) [] = .ok (v :: vs, b')) : b'.Loads name v ∧
      (∃ i, b'.code = b.code ++ [i] ∧ i.op = .loadBuiltin name) ∧ ¬b'.code.Changes v := by
  obtain ⟨l, hop, -, -, hcode, hdeclarer⟩ := h.toTraced.emitted he
  obtain ⟨-, -, hfits, hproduced, rfl⟩ := (emit_eq_ok_iff h.toStands).mp he
  obtain rfl : v = ⟨b.nextVariable⟩ := (List.cons.inj hproduced).1
  refine ⟨⟨?_, l, hdeclarer _ List.mem_cons_self, hop⟩, ⟨l, hcode, hop⟩, ?_⟩
  · have hvisible : (b.extended p (b.drafted (.loadBuiltin name) [] hfits.length)).scopes =
        (p.scopes.headD [] ++ [⟨b.nextVariable⟩]) :: p.scopes.tail := rfl
    unfold isVisible
    rw [hvisible, List.any_cons, List.contains_iff_mem.mpr (List.mem_append_right _ List.mem_cons_self)]
    rfl
  · rw [hcode, Code.changes_append_singleton (by rw [hop]; rfl)]
    exact fun hchanges => Nat.lt_irrefl _ (h.number_lt_of_changes hchanges)

/-- The builder can add a load wherever statements may stand and a number is left. -/
theorem Stands.exists_load_iff (h : b.Stands p) (name : String) :
    (∃ r, b.emit (.loadBuiltin name) [] = .ok r) ↔
      b.context.script = true ∧ b.nextVariable + 1 < Variable.limit := by
  constructor
  · rintro ⟨⟨produced, b'⟩, he⟩
    obtain ⟨-, hroom, hfits, -⟩ := (emit_eq_ok_iff h).mp he
    rw [h.context]
    exact ⟨contains_top_iff.mp hfits.context, hroom.numbers⟩
  · rintro ⟨hscript, hnumbers⟩
    rw [h.context] at hscript
    have hfits : Fits p (.loadBuiltin name) [] :=
      ⟨rfl, nofun, contains_top_iff.mpr hscript, nofun⟩
    have hcount : 0 < Operation.countLimit := by decide
    have hmemory : 1 < capacity := by decide
    exact ⟨_, (emit_eq_ok_iff h).mpr ⟨hcount, ⟨hmemory, hnumbers⟩, hfits, rfl, rfl⟩⟩

theorem run_getThe (b : Builder) :
    (getThe Builder : StateT Builder (Except Fault) Builder).run b = .ok (b, b) := rfl

theorem Traced.run_reuseBuiltin_of_loadsFirst (h : b.Traced) (hv : b.LoadsFirst name v) :
    (Build.reuseBuiltin name : StateT Builder (Except Fault) Variable).run b = .ok (v, b) := by
  unfold Build.reuseBuiltin
  rw [StateT.run_bind, run_getThe]
  simp only [bind, Except.bind, h.loadedBuiltin?_eq_some_iff.mpr hv]
  rfl

theorem Traced.run_reuseBuiltin_of_not_loads (h : b.Traced) (hnone : ∀ v, ¬b.Loads name v) :
    (Build.reuseBuiltin name : StateT Builder (Except Fault) Variable).run b =
      (Build.loadBuiltin name : StateT Builder (Except Fault) Variable).run b := by
  unfold Build.reuseBuiltin
  rw [StateT.run_bind, run_getThe]
  simp only [bind, Except.bind, h.loadedBuiltin?_eq_none_iff.mpr hnone]

theorem exists_emit_of_loadBuiltin
    (h : (Build.loadBuiltin name : StateT Builder (Except Fault) Variable).run b = .ok (v, b')) :
    ∃ vs, b.emit (.loadBuiltin name) [] = .ok (v :: vs, b') := by
  have hgives : Constructing.Gives
      (Build.loadBuiltin name : StateT Builder (Except Fault) Variable) b
      fun v b' => ∃ vs, b.emit (.loadBuiltin name) [] = .ok (v :: vs, b') := by
    apply Constructing.gives_emitOne
    intro v vs b' he
    exact ⟨vs, he⟩
  exact Constructing.gives_iff.mp hgives _ h

/-- A builtin is given wherever it is visible or can be loaded. What is given is visible and declared
by loading the builtin; the first such variable is given again and nothing is added, and only if there
is none, one instruction is added. What is given has been changed exactly if it was there and has been
changed. -/
theorem loads_of_reuseBuiltin (h : b.Reachable) (name : String) :
    ((∃ r, (Build.reuseBuiltin name : StateT Builder (Except Fault) Variable).run b = .ok r) ↔
      (∃ v, b.Loads name v) ∨ b.context.script = true ∧ b.nextVariable + 1 < Variable.limit) ∧
    ∀ v b', (Build.reuseBuiltin name : StateT Builder (Except Fault) Variable).run b = .ok (v, b') →
      b'.Loads name v ∧ ((∃ w, b.Loads name w) → b.LoadsFirst name v ∧ b' = b) ∧
        ((∀ w, ¬b.Loads name w) → ∃ i, b'.code = b.code ++ [i] ∧ i.op = .loadBuiltin name) ∧
        (b'.code.Changes v ↔ (∃ w, b.Loads name w) ∧ b.code.Changes v) := by
  obtain ⟨p, hp⟩ := h.exists_rooted
  cases hloaded : Build.loadedBuiltin? b name with
  | some w =>
    have hw := hp.loadedBuiltin?_eq_some_iff.mp hloaded
    have hrun := hp.run_reuseBuiltin_of_loadsFirst hw
    have hv : b.Loads name w := by
      obtain ⟨_, _, -, hv, -⟩ := hw
      exact hv
    have hloads : ∃ u, b.Loads name u := ⟨w, hv⟩
    refine ⟨iff_of_true ⟨_, hrun⟩ (.inl hloads), ?_⟩
    intro v b' hrun'
    cases hrun.symm.trans hrun'
    exact ⟨hv, fun _ => ⟨hw, rfl⟩, fun hnone => absurd hv (hnone w), (and_iff_right hloads).symm⟩
  | none =>
    have hnone := hp.loadedBuiltin?_eq_none_iff.mp hloaded
    have hrun := hp.run_reuseBuiltin_of_not_loads hnone
    have hnot : ¬∃ w, b.Loads name w := not_exists.mpr hnone
    rw [hrun, or_iff_right hnot, ← hp.exists_load_iff name]
    refine ⟨⟨?_, ?_⟩, ?_⟩
    · rintro ⟨⟨v, b'⟩, hv⟩
      obtain ⟨vs, he⟩ := exists_emit_of_loadBuiltin hv
      exact ⟨_, he⟩
    · rintro ⟨⟨produced, b'⟩, he⟩
      obtain ⟨-, -, -, rfl, -⟩ := (emit_eq_ok_iff hp.toStands).mp he
      exact ⟨_, run_emitOne he⟩
    · intro v b' hv
      obtain ⟨vs, he⟩ := exists_emit_of_loadBuiltin hv
      obtain ⟨hloads, hcode, hchanges⟩ := hp.load he
      exact ⟨hloads, fun hw => absurd hw hnot, fun _ => hcode,
        iff_of_false hchanges fun hv => hnot hv.1⟩

/-- A builtin that was given another value. -/
def overwritten : List (Operation × List Variable) :=
  [(.loadBuiltin "len", []), (.loadInteger 1, []), (.reassign, [⟨0⟩, ⟨1⟩])]

theorem loads_of_reuseBuiltin_overwritten : ∃ b, ({} : Builder).emitAll overwritten = .ok b ∧
    b.Reachable ∧ ∃ v, (Build.reuseBuiltin "len" : StateT Builder (Except Fault) Variable).run b =
      .ok (v, b) ∧ b.Loads "len" v := by
  have hemit : ({} : Builder).emitAll overwritten = .ok _ := rfl
  have hreachable := Reachable.new.emitAll hemit
  refine ⟨_, hemit, hreachable, ?_⟩
  obtain ⟨hreturns, hgives⟩ := loads_of_reuseBuiltin hreachable "len"
  obtain ⟨⟨v, b'⟩, hv⟩ := hreturns.mpr (.inr ⟨rfl, by decide⟩)
  obtain ⟨hloads, hfirst, -⟩ := hgives v b' hv
  obtain ⟨-, rfl⟩ := hfirst ⟨⟨0⟩, rfl, ⟨.loadBuiltin "len", [⟨0⟩], 0, by decide⟩, rfl, rfl⟩
  exact ⟨v, hv, hloads⟩

theorem changes_reuseBuiltin_overwritten : ∃ b, ({} : Builder).emitAll overwritten = .ok b ∧
    b.Reachable ∧ (Build.reuseBuiltin "len" : StateT Builder (Except Fault) Variable).run b =
      .ok (⟨0⟩, b) ∧ b.code.Changes ⟨0⟩ := by
  have hemit : ({} : Builder).emitAll overwritten = .ok _ := rfl
  refine ⟨_, hemit, Reachable.new.emitAll hemit, rfl, ?_⟩
  unfold Code.Changes
  decide

end Builder

end ScriptFuzz
