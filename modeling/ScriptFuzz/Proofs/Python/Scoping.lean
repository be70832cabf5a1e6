import ScriptFuzz.Proofs.Python.Binders
import ScriptFuzz.Proofs.Python.Blocks
import ScriptFuzz.Proofs.Python.OuterVariables

/-!
# Names in scope while a program is rendered

`Tidy` relates the state of rendering to the scopes of the check: what stands for a visible variable is
made of names that are bound in the blocks up to that of the variable, and every line that was written
fits behind the lines before it. The parts of rendering that stay in the open block keep this.
-/

namespace ScriptFuzz

set_option autoImplicit false

namespace Python

/-- The names that a source may bind in a line. -/
inductive Subject.Introduces (s : Subject) (line : Nat) : Name → Prop where
  | ofVariable {i : Instruction} {v : Variable} (hi : i ∈ s.code) (hv : v ∈ i.allOutputs) :
      Introduces s line (s.nameOf v)
  | temporary : Introduces s line (.temporary line)
  | capture {i : Instruction} (hi : i ∈ s.code) : Introduces s line (.capture i.index)

/-- A statement of the instruction at position `n` gives `target` a new value. -/
def Content.Assigns (c : Content) (n : Nat) (target : Expr) : Prop :=
  ∃ st, c = .statement st n ∧ st.target? = some target

/-- What is right about a line behind the lines `ls`. -/
structure Line.Fits (s : Subject) (Q : String → Prop) (ls : List Line) (x : Line) : Prop where
  inScope : x.content.Over (BoundBefore ls x) Q
  introduces : ∀ b ∈ x.binders, s.Introduces ls.length b.2
  fresh : ∀ b ∈ x.binders, ∀ k, b.2 = .capture k → ∀ y ∈ ls, ∀ b' ∈ y.binders, b'.2 ≠ .capture k
  assigns : ∀ n target, x.content.Assigns n target → ∃ i ∈ s.code, i.index = n ∧
    i.op.assigns = true ∧ target = .name (s.nameOf (i.input 0))
  /-- No other name stands for a name. -/
  named : ∀ target e n, x.content = .statement (.bind target e) n → target.isAuxiliary = true →
    e.isName = false

/-- Every line fits behind the lines before it. -/
def Orderly (s : Subject) (Q : String → Prop) (ls : List Line) : Prop :=
  ∀ a x b, ls = a ++ x :: b → x.Fits s Q a

/-- What stands for a variable in the blocks up to depth `d`. -/
structure Stands (s : Subject) (Q : String → Prop) (ls : List Line) (d : Nat) (v : Variable)
    (e : Expr) : Prop where
  inScope : e.Over (Bound ls d) Q
  named : (s.code.usage v).isSingleAssignment = false → e = .name (s.nameOf v)

/-- What stands for the variables of scopes, innermost first, that are used at all. -/
def Supplied (s : Subject) (Q : String → Prop) (ls : List Line) (e : Variable → Expr) :
    List (List Variable) → Prop
  | [] => True
  | scope :: scopes =>
    (∀ v ∈ scope, 0 < (s.code.usage v).uses → Stands s Q ls scopes.length v (e v)) ∧
      Supplied s Q ls e scopes

section

variable {s : Subject} {P P' : Name → Prop} {Q : String → Prop} {ls ms : List Line} {d d' : Nat}
  {v : Variable} {e : Expr} {f f' : Variable → Expr} {scope : List Variable}
  {scopes : List (List Variable)}

theorem Statement.Over.mono (hP : ∀ n, P n → P' n) {st : Statement} (h : st.Over P Q) :
    st.Over P' Q := by
  cases st with
  | pass | breakLoop | continueLoop => trivial
  | expression e | bind _ e | ret e | raise e | report e => exact Expr.Over.mono hP e h
  | assign target e | augment target _ e | setAttribute target _ e | setElement target _ e =>
    exact ⟨Expr.Over.mono hP target h.1, Expr.Over.mono hP e h.2⟩
  | raw pieces =>
    obtain ⟨code, es, hcode, hes, hpieces⟩ := h
    exact ⟨code, es, hcode, Expr.AllOver.mono hP es hes, hpieces⟩
  | globals names | nonlocals names => exact fun n hn => hP n (h n hn)

theorem Header.Over.mono (hP : ∀ n, P n → P' n) {hd : Header} (h : hd.Over P Q) :
    hd.Over P' Q := by
  cases hd with
  | ifTrue e | ifFalse e | matching e => exact Expr.Over.mono hP e h
  | whileLoop _ l r => exact ⟨Expr.Over.mono hP l h.1, Expr.Over.mono hP r h.2⟩
  | forLoop _ range => exact Expr.AllOver.mono hP range h
  | caseEqual capture value => exact ⟨hP capture h.1, Expr.Over.mono hP value h.2⟩
  | classBody _ base => exact fun e he => Expr.Over.mono hP e (h e he)
  | method _ _ => exact h
  | function _ _ | otherwise | tryBlock | exceptBlock _ | finallyBlock | caseAny => trivial

theorem orderly_nil : Orderly s Q [] := by
  intro a x b h
  cases a <;> cases h

/-- What holds of every line behind the lines before it holds behind a new last line. -/
theorem forall_splits_push {P : List Line → Line → Prop} {x : Line}
    (h : ∀ a y b, ls = a ++ y :: b → P a y) (hx : P ls x) :
    ∀ a y b, ls ++ [x] = a ++ y :: b → P a y := by
  intro a y b hsplit
  rcases List.eq_nil_or_concat b with rfl | ⟨b', z, rfl⟩
  · obtain ⟨rfl, hxy⟩ := List.append_inj' hsplit rfl
    rw [← (List.cons.inj hxy).1]
    exact hx
  · have hsplit' : ls ++ [x] = (a ++ y :: b') ++ [z] := by simpa using hsplit
    exact h a y b' (List.append_inj' hsplit' rfl).1

theorem Orderly.push {x : Line} (h : Orderly s Q ls) (hx : x.Fits s Q ls) :
    Orderly s Q (ls ++ [x]) :=
  forall_splits_push h hx

theorem Stands.grow (h : Stands s Q ls d v e) (hms : ∀ y ∈ ms, d ≤ y.depth) :
    Stands s Q (ls ++ ms) d v e :=
  ⟨Expr.Over.mono (fun _ hn => hn.append hms) e h.inScope, h.named⟩

theorem Stands.mono (h : Stands s Q ls d v e) (hd : d ≤ d') : Stands s Q ls d' v e :=
  ⟨Expr.Over.mono (fun _ hn => hn.mono hd) e h.inScope, h.named⟩

theorem stands_name (h : Bound ls d (s.nameOf v)) : Stands s Q ls d v (.name (s.nameOf v)) :=
  ⟨h, fun _ => rfl⟩

/-- Lines in the innermost block, or deeper, change nothing for the scopes. -/
theorem Supplied.grow (h : Supplied s Q ls f scopes) (hd : scopes.length ≤ d + 1)
    (hms : ∀ y ∈ ms, d ≤ y.depth) : Supplied s Q (ls ++ ms) f scopes := by
  induction scopes with
  | nil => trivial
  | cons scope scopes ih =>
    rw [List.length_cons] at hd
    refine ⟨?_, ih h.2 (by omega)⟩
    intro v hv huse
    refine (h.1 v hv huse).grow fun y hy => ?_
    have := hms y hy
    omega

theorem Supplied.congr (h : Supplied s Q ls f scopes) (hf : ∀ v ∈ scopes.flatten, f' v = f v) :
    Supplied s Q ls f' scopes := by
  induction scopes with
  | nil => trivial
  | cons scope scopes ih =>
    rw [List.flatten_cons] at hf
    refine ⟨?_, ih h.2 fun v hv => hf v (List.mem_append_right _ hv)⟩
    intro v hv huse
    rw [hf v (List.mem_append_left _ hv)]
    exact h.1 v hv huse

/-- What stands for a visible variable in the innermost block. -/
theorem Supplied.stands (h : Supplied s Q ls f scopes) (hv : v ∈ scopes.flatten)
    (huse : 0 < (s.code.usage v).uses) (hd : scopes.length ≤ d + 1) : Stands s Q ls d v (f v) := by
  induction scopes with
  | nil => cases hv
  | cons scope scopes ih =>
    rw [List.length_cons] at hd
    rcases List.mem_append.mp hv with hv | hv
    · exact (h.1 v hv huse).mono (by omega)
    · exact ih h.2 hv (by omega)

end

/-- The lines that have been written. -/
abbrev Lifting.lines (l : Lifting) : List Line := l.layout.lines.toList

/-- What holds of the state while the scopes `scopes` are open and the captures of the first `n`
instructions may have been written. -/
structure Tidy (s : Subject) (Q : String → Prop) (n : Nat) (scopes : List (List Variable))
    (l : Lifting) : Prop where
  depth : scopes.length = l.layout.depth + 1
  orderly : Orderly s Q l.lines
  captured : ∀ x ∈ l.lines, ∀ b ∈ x.binders, ∀ k, b.2 = .capture k → k < n
  supplied : Supplied s Q l.lines (l.standsFor s) scopes
  /-- Only variables of the innermost scope wait. -/
  waiting : ∀ v ∈ l.pending, v ∈ scopes.headD [] ∧ 0 < (s.code.usage v).uses
  declarations : ∀ k o, l.declarations.lookup k = some o →
    s.code.outerAssignments.lookup k = some o

/-- What the check knows of the variables in scope. -/
structure Scoped (s : Subject) (scopes : List (List Variable)) : Prop where
  nodup : scopes.flatten.Nodup
  declared : ∀ v ∈ scopes.flatten, ∃ i ∈ s.code, v ∈ i.allOutputs

/-- Lines are added to the open block. -/
structure Layout.Grows (l l' : Layout) : Prop where
  lines : ∃ ms, l'.lines.toList = l.lines.toList ++ ms ∧ ∀ y ∈ ms, l.depth ≤ y.depth
  depth : l'.depth = l.depth

section

variable {s : Subject} {Q : String → Prop} {n m : Nat} {l l' l'' : Lifting} {v : Variable} {e : Expr}
  {scope vs : List Variable} {scopes : List (List Variable)} {name : Name} {st : Statement}

theorem Layout.Grows.refl (l : Layout) : l.Grows l := ⟨⟨[], by simp, by simp⟩, rfl⟩

theorem Layout.Grows.trans {l l' l'' : Layout} (h : l.Grows l') (h' : l'.Grows l'') :
    l.Grows l'' := by
  obtain ⟨ms, hms, hdepth⟩ := h.lines
  obtain ⟨ms', hms', hdepth'⟩ := h'.lines
  rw [h.depth] at hdepth'
  refine ⟨⟨ms ++ ms', ?_, List.forall_mem_append.mpr ⟨hdepth, hdepth'⟩⟩, h'.depth.trans h.depth⟩
  rw [hms', hms, List.append_assoc]

theorem Layout.Grows.bound {l l' : Layout} (h : l.Grows l')
    (hn : Bound l.lines.toList l.depth name) : Bound l'.lines.toList l'.depth name := by
  obtain ⟨ms, hms, hdepth⟩ := h.lines
  rw [h.depth, hms]
  exact hn.append hdepth

theorem Layout.Grows.stands {l l' : Layout} (h : l.Grows l')
    (hv : Stands s Q l.lines.toList l.depth v e) : Stands s Q l'.lines.toList l'.depth v e :=
  ⟨Expr.Over.mono (fun _ hn => h.bound hn) e hv.inScope, hv.named⟩

theorem Layout.Grows.isPrefix {l l' : Layout} (h : l.Grows l') :
    l.lines.toList <+: l'.lines.toList := by
  obtain ⟨ms, hms, -⟩ := h.lines
  exact ⟨ms, hms.symm⟩

/-- What else changes in the state does not matter. -/
theorem Tidy.congr (h : Tidy s Q n scopes l) (hlayout : l'.layout = l.layout)
    (hbindings : l'.bindings = l.bindings) (hpending : l'.pending ⊆ l.pending)
    (hdeclarations : ∀ k o, l'.declarations.lookup k = some o →
      s.code.outerAssignments.lookup k = some o) : Tidy s Q n scopes l' := by
  have hstands : l'.standsFor s = l.standsFor s := by
    funext v
    rw [Lifting.standsFor, hbindings]
    rfl
  refine ⟨?_, ?_, ?_, ?_, fun v hv => h.waiting v (hpending hv), hdeclarations⟩
  · rw [hlayout]
    exact h.depth
  · rw [Lifting.lines, hlayout]
    exact h.orderly
  · rw [Lifting.lines, hlayout]
    exact h.captured
  · rw [Lifting.lines, hlayout, hstands]
    exact h.supplied

theorem Tidy.mono (h : Tidy s Q n scopes l) (hn : n ≤ m) : Tidy s Q m scopes l :=
  { h with captured := fun x hx b hb k hk => Nat.lt_of_lt_of_le (h.captured x hx b hb k hk) hn }

theorem Tidy.stands (h : Tidy s Q n scopes l) (hv : v ∈ scopes.flatten)
    (huse : 0 < (s.code.usage v).uses) :
    Stands s Q l.lines l.layout.depth v (l.standsFor s v) :=
  h.supplied.stands hv huse (Nat.le_of_eq h.depth)

/-- The scopes after a variable is declared that stands for something, unless it is not used. -/
theorem Tidy.extend (h : Tidy s Q n (scope :: scopes) l)
    (hv : 0 < (s.code.usage v).uses → Stands s Q l.lines l.layout.depth v (l.standsFor s v)) :
    Tidy s Q n ((scope ++ [v]) :: scopes) l := by
  have hdepth : scopes.length = l.layout.depth := by
    have := h.depth
    rw [List.length_cons] at this
    omega
  refine { h with supplied := ⟨?_, h.supplied.2⟩, waiting := ?_ }
  · intro w hw huse
    rcases List.mem_append.mp hw with hw | hw
    · exact h.supplied.1 w hw huse
    · rw [List.mem_singleton.mp hw] at huse ⊢
      rw [hdepth]
      exact hv huse
  · intro w hw
    exact ⟨List.mem_append_left _ (h.waiting w hw).1, (h.waiting w hw).2⟩

namespace Render

theorem fits_statement (hover : st.Over (Bound l.lines l.layout.depth) Q)
    (hbind : ∀ target e, st = .bind target e →
      s.Introduces l.lines.length target ∧ (∀ k, target ≠ .capture k) ∧
        (target.isAuxiliary = true → e.isName = false))
    (hassign : ∀ target, st.target? = some target → ∃ i ∈ s.code, i.index = m ∧
      i.op.assigns = true ∧ target = .name (s.nameOf (i.input 0))) :
    Line.Fits s Q l.lines ⟨l.layout.depth, .statement st m⟩ := by
  have hbinders : ∀ b ∈ (⟨l.layout.depth, .statement st m⟩ : Line).binders,
      s.Introduces l.lines.length b.2 ∧ ∀ k, b.2 ≠ .capture k := by
    intro b hb
    cases st with
    | bind target e =>
      rw [List.mem_singleton.mp hb]
      obtain ⟨hintro, hcapture, -⟩ := hbind target e rfl
      exact ⟨hintro, hcapture⟩
    | _ => cases hb
  refine ⟨hover.mono fun n hn => .line hn, fun b hb => (hbinders b hb).1, ?_, ?_, ?_⟩
  · intro b hb k hk
    exact absurd hk ((hbinders b hb).2 k)
  · rintro k target ⟨st', hst, htarget⟩
    cases hst
    exact hassign target htarget
  · intro target e k hst
    cases hst
    exact (hbind target e rfl).2.2

theorem tidy_write (st : Statement) (h : Tidy s Q n scopes l)
    (hover : st.Over (Bound l.lines l.layout.depth) Q)
    (hbind : ∀ target e, st = .bind target e →
      s.Introduces l.lines.length target ∧ (∀ k, target ≠ .capture k) ∧
        (target.isAuxiliary = true → e.isName = false))
    (hassign : ∀ target, st.target? = some target → ∃ i ∈ s.code, i.index = m ∧
      i.op.assigns = true ∧ target = .name (s.nameOf (i.input 0))) :
    Tidy s Q n scopes ((write m st).run l).2 ∧ l.layout.Grows ((write m st).run l).2.layout ∧
      ((write m st).run l).2.lines = l.lines ++ [⟨l.layout.depth, .statement st m⟩] := by
  have hfits := fits_statement hover hbind hassign
  generalize hl' : ((write m st).run l).2 = l'
  have hlines : l'.lines = l.lines ++ [⟨l.layout.depth, .statement st m⟩] := by
    rw [← hl']
    exact (l.layout.statement_eq st m).1
  have hdepth : l'.layout.depth = l.layout.depth := by
    rw [← hl']
    have := (l.layout.statement_eq st m).2
    exact (congrArg List.length this).trans length_fillWith
  have hlast : ∀ y ∈ [(⟨l.layout.depth, .statement st m⟩ : Line)], l.layout.depth ≤ y.depth :=
    List.forall_mem_singleton.mpr (Nat.le_refl _)
  refine ⟨⟨?_, ?_, ?_, ?_, ?_, ?_⟩, ⟨⟨_, hlines, hlast⟩, hdepth⟩, hlines⟩
  · rw [hdepth]
    exact h.depth
  · rw [hlines]
    exact h.orderly.push hfits
  · rw [hlines]
    refine List.forall_mem_append.mpr ⟨h.captured, List.forall_mem_singleton.mpr ?_⟩
    intro b hb k hk
    cases st with
    | bind target e =>
      rw [List.mem_singleton.mp hb] at hk
      exact absurd hk ((hbind target e rfl).2.1 k)
    | _ => cases hb
  · rw [hlines]
    subst hl'
    exact h.supplied.grow (Nat.le_of_eq h.depth) hlast
  · subst hl'
    exact h.waiting
  · subst hl'
    exact h.declarations

theorem tidy_write_plain (st : Statement) (h : Tidy s Q n scopes l)
    (hover : st.Over (Bound l.lines l.layout.depth) Q)
    (hbind : ∀ target e, st ≠ .bind target e) (hassign : st.target? = none) :
    Tidy s Q n scopes ((write m st).run l).2 ∧ l.layout.Grows ((write m st).run l).2.layout := by
  obtain ⟨ht, hg, -⟩ := tidy_write (m := m) st h hover (fun target e hst => absurd hst (hbind target e))
    (by simp [hassign])
  exact ⟨ht, hg⟩

/-- A variable that is not in scope yet may stand for anything. -/
theorem tidy_setBinding (h : Tidy s Q n scopes l) (hv : v ∉ scopes.flatten) (e : Expr) :
    Tidy s Q n scopes ((setBinding v e).run l).2 := by
  refine ⟨h.depth, h.orderly, h.captured, h.supplied.congr ?_, h.waiting, h.declarations⟩
  intro w hw
  refine standsFor_setBinding_of_ne e ?_
  rintro rfl
  exact hv hw

theorem name_ne_capture (v : Variable) (k : Nat) : s.nameOf v ≠ .capture k := by
  simp [Subject.nameOf]

theorem tidy_bind (h : Tidy s Q n scopes l) (he : e.Over (Bound l.lines l.layout.depth) Q)
    (hv : ∃ i ∈ s.code, v ∈ i.allOutputs) :
    let l' := ((write m (.bind (s.nameOf v) e)).run l).2
    Tidy s Q n scopes l' ∧ l.layout.Grows l'.layout ∧ Bound l'.lines l'.layout.depth (s.nameOf v) := by
  obtain ⟨i, hi, hv⟩ := hv
  obtain ⟨ht, hg, hlines⟩ := tidy_write (m := m) (.bind (s.nameOf v) e) h he
    (fun target e' hst => by
      cases hst
      exact ⟨.ofVariable hi hv, name_ne_capture v, nofun⟩)
    (fun target htarget => by cases htarget)
  refine ⟨ht, hg, ?_⟩
  rw [hlines, hg.depth]
  exact bound_last List.mem_cons_self (Nat.le_refl _)

/-- A variable of the innermost scope may stand for its name. -/
theorem tidy_setName (hsc : Scoped s (scope :: scopes)) (h : Tidy s Q n (scope :: scopes) l)
    (hv : v ∈ scope) (hbound : Bound l.lines l.layout.depth (s.nameOf v)) :
    Tidy s Q n (scope :: scopes) ((setBinding v (.name (s.nameOf v))).run l).2 := by
  have hdepth : scopes.length = l.layout.depth := by
    have := h.depth
    rw [List.length_cons] at this
    omega
  have houter : ∀ w ∈ scopes.flatten, w ≠ v := by
    rintro w hw rfl
    exact (List.nodup_append.mp hsc.nodup).2.2 w hv w hw rfl
  refine ⟨h.depth, h.orderly, h.captured, ⟨?_, ?_⟩, h.waiting, h.declarations⟩
  · intro w hw huse
    by_cases hwv : w = v
    · rw [hwv, standsFor_setBinding_self, hdepth]
      exact stands_name hbound
    · rw [standsFor_setBinding_of_ne _ hwv]
      exact h.supplied.1 w hw huse
  · exact h.supplied.2.congr fun w hw => standsFor_setBinding_of_ne _ (houter w hw)

theorem tidy_materialize (hsc : Scoped s (scope :: scopes)) (h : Tidy s Q n (scope :: scopes) l)
    (hv : v ∈ scope) (huse : 0 < (s.code.usage v).uses) :
    Tidy s Q n (scope :: scopes) ((materialize s m v).run l).2 ∧
      l.layout.Grows ((materialize s m v).run l).2.layout := by
  have hvisible : v ∈ (scope :: scopes).flatten := List.mem_append_left _ hv
  unfold materialize
  rw [run_get_bind]
  cases hlookup : l.bindings.lookup v with
  | none => exact ⟨h, .refl _⟩
  | some e =>
    have hstands := h.stands hvisible huse
    rw [show l.standsFor s v = e by rw [Lifting.standsFor, hlookup]; rfl] at hstands
    obtain ⟨ht, hg, hbound⟩ := tidy_bind (m := m) h hstands.inScope (hsc.declared v hvisible)
    exact ⟨tidy_setName hsc ht hv hbound, hg⟩

theorem tidy_materializeAll (vs : List Variable) (hsc : Scoped s (scope :: scopes))
    (h : Tidy s Q n (scope :: scopes) l)
    (hvs : ∀ v ∈ vs, v ∈ scope ∧ 0 < (s.code.usage v).uses) :
    Tidy s Q n (scope :: scopes) ((vs.forM (materialize s m)).run l).2 ∧
      l.layout.Grows ((vs.forM (materialize s m)).run l).2.layout := by
  induction vs generalizing l with
  | nil => exact ⟨h, .refl _⟩
  | cons v vs ih =>
    obtain ⟨hv, hvs⟩ := List.forall_mem_cons.mp hvs
    obtain ⟨ht, hg⟩ := tidy_materialize (m := m) hsc h hv.1 hv.2
    obtain ⟨ht', hg'⟩ := ih ht hvs
    exact ⟨ht', hg.trans hg'⟩

theorem tidy_drain (hsc : Scoped s (scope :: scopes)) (h : Tidy s Q n (scope :: scopes) l) :
    Tidy s Q n (scope :: scopes) ((drain s m).run l).2 ∧ l.layout.Grows ((drain s m).run l).2.layout :=
  tidy_materializeAll (l := { l with pending := [] }) l.pending hsc
    (h.congr rfl rfl (List.nil_subset _) h.declarations) h.waiting

theorem tidy_settle (hsc : Scoped s (scope :: scopes)) (h : Tidy s Q n (scope :: scopes) l)
    (inputs : List (Variable × Slot)) :
    Tidy s Q n (scope :: scopes) ((settle s m inputs).run l).2 ∧
      l.layout.Grows ((settle s m inputs).run l).2.layout := by
  have hkept : kept inputs l.pending ⊆ l.pending :=
    fun v hv => List.mem_of_mem_drop (List.mem_of_mem_take hv)
  obtain ⟨ht, hg⟩ := tidy_materializeAll (m := m) (boundFirst inputs l.pending) hsc h
    fun v hv => h.waiting v (List.mem_of_mem_take hv)
  have hpending := pending_materializeAll (s := s) (n := m) (l := l) (boundFirst inputs l.pending)
  refine ⟨ht.congr rfl rfl ?_ ht.declarations, hg⟩
  rw [hpending]
  exact hkept

/-- What stands for an input in the places where it is used. -/
theorem tidy_operand (h : Tidy s Q n scopes l) {input : Variable × Slot}
    (hv : input.1 ∈ scopes.flatten) (huse : 0 < (s.code.usage input.1).uses) :
    let l' := ((operand s m input).run l).2
    Tidy s Q n scopes l' ∧ l.layout.Grows l'.layout ∧
      Stands s Q l'.lines l'.layout.depth input.1 ((operand s m input).run l).1 := by
  obtain ⟨v, slot⟩ := input
  have hstands := h.stands hv huse
  unfold operand
  dsimp only
  rw [run_get_bind]
  change Stands s Q _ _ v ((l.bindings.lookup v).getD (.name (s.nameOf v))) at hstands
  split
  · -- A temporary stands for the variable, which has not been given another value then.
    rename_i hname
    rw [Bool.and_eq_true, Bool.not_eq_true'] at hname
    have hsize : l.layout.lines.size = l.lines.length := Array.length_toList.symm
    obtain ⟨ht, hg, hlines⟩ := tidy_write (m := m) (.bind (.temporary l.layout.lines.size)
        ((l.bindings.lookup v).getD (.name (s.nameOf v)))) h hstands.inScope
      (fun target e' hst => by
        cases hst
        rw [hsize]
        exact ⟨.temporary, by simp, fun _ => hname.2⟩)
      (fun target htarget => by cases htarget)
    refine ⟨ht, hg, ?_, ?_⟩
    · change Bound ((write m _).run l).2.lines ((write m _).run l).2.layout.depth
        (.temporary l.layout.lines.size)
      rw [hlines, hg.depth]
      exact bound_last List.mem_cons_self (Nat.le_refl _)
    · intro hsingle
      rw [hstands.named hsingle] at hname
      exact absurd hname.2 (by simp [Expr.isName])
  · exact ⟨h, .refl _, hstands⟩

theorem tidy_mapM_operand (h : Tidy s Q n scopes l) {inputs : List (Variable × Slot)}
    (hin : ∀ input ∈ inputs, input.1 ∈ scopes.flatten ∧ 0 < (s.code.usage input.1).uses) :
    let l' := ((inputs.mapM (operand s m)).run l).2
    Tidy s Q n scopes l' ∧ l.layout.Grows l'.layout ∧
      List.Forall₂ (fun input e => Stands s Q l'.lines l'.layout.depth input.1 e) inputs
        ((inputs.mapM (operand s m)).run l).1 := by
  induction inputs generalizing l with
  | nil => exact ⟨h, .refl _, .nil⟩
  | cons input inputs ih =>
    obtain ⟨hinput, hin⟩ := List.forall_mem_cons.mp hin
    rw [List.mapM_cons]
    obtain ⟨ht, hg, hstands⟩ := tidy_operand (m := m) h hinput.1 hinput.2
    obtain ⟨ht', hg', hall⟩ := ih ht hin
    exact ⟨ht', hg.trans hg', .cons (hg'.stands hstands) hall⟩

theorem tidy_operands (hsc : Scoped s (scope :: scopes)) (h : Tidy s Q n (scope :: scopes) l)
    {inputs : List (Variable × Slot)}
    (hin : ∀ input ∈ inputs,
      input.1 ∈ (scope :: scopes).flatten ∧ 0 < (s.code.usage input.1).uses) :
    let l' := ((operands s m inputs).run l).2
    Tidy s Q n (scope :: scopes) l' ∧ l.layout.Grows l'.layout ∧
      List.Forall₂ (fun input e => Stands s Q l'.lines l'.layout.depth input.1 e) inputs
        ((operands s m inputs).run l).1 := by
  obtain ⟨ht, hg⟩ := tidy_settle (m := m) hsc h inputs
  obtain ⟨ht', hg', hall⟩ := tidy_mapM_operand (m := m) ht hin
  exact ⟨ht', hg.trans hg', hall⟩

theorem allOver_of_stands {inputs : List (Variable × Slot)} {es : List Expr}
    (h : List.Forall₂ (fun input e => Stands s Q l.lines l.layout.depth input.1 e) inputs es) :
    Expr.AllOver (Bound l.lines l.layout.depth) Q es := by
  induction h with
  | nil => trivial
  | cons hstands _ ih => exact ⟨hstands.inScope, ih⟩

theorem tidy_emit (st : Statement) (hsc : Scoped s (scope :: scopes))
    (h : Tidy s Q n (scope :: scopes) l)
    (hover : st.Over (Bound l.lines l.layout.depth) Q) (hbind : ∀ target e, st ≠ .bind target e)
    (hassign : ∀ target, st.target? = some target → ∃ i ∈ s.code, i.index = m ∧
      i.op.assigns = true ∧ target = .name (s.nameOf (i.input 0))) :
    let l' := ((emit s m st).run l).2
    Tidy s Q n (scope :: scopes) l' ∧ l.layout.Grows l'.layout ∧
      ∃ x ∈ l'.lines, x.content = .statement st m := by
  obtain ⟨ht, hg⟩ := tidy_drain (m := m) hsc h
  obtain ⟨ht', hg', hlines⟩ := tidy_write (m := m) st ht (hover.mono fun n hn => hg.bound hn)
    (fun target e hst => absurd hst (hbind target e)) hassign
  refine ⟨ht', hg.trans hg', ⟨((drain s m).run l).2.layout.depth, .statement st m⟩, ?_, rfl⟩
  change _ ∈ ((write m st).run ((drain s m).run l).2).2.lines
  rw [hlines]
  exact List.mem_append_right _ (List.mem_singleton_self _)

theorem tidy_assign (hsc : Scoped s (scope :: scopes)) (h : Tidy s Q n (scope :: scopes) l)
    (he : e.Over (Bound l.lines l.layout.depth) Q) (hv : v ∉ (scope :: scopes).flatten)
    (hdeclared : ∃ i ∈ s.code, v ∈ i.allOutputs) :
    let l' := ((assign s m v e).run l).2
    Tidy s Q n ((scope ++ [v]) :: scopes) l' ∧ l.layout.Grows l'.layout := by
  obtain ⟨ht, hg⟩ := tidy_drain (m := m) hsc h
  obtain ⟨ht', hg', hbound⟩ := tidy_bind (m := m) ht (Expr.Over.mono (fun n hn => hg.bound hn) e he)
    hdeclared
  refine ⟨(tidy_setBinding ht' hv _).extend fun _ => ?_, hg.trans hg'⟩
  rw [standsFor_setBinding_self]
  exact stands_name hbound

theorem tidy_declare (hsc : Scoped s (scope :: scopes)) (h : Tidy s Q n (scope :: scopes) l)
    (he : e.Over (Bound l.lines l.layout.depth) Q) (hv : v ∉ (scope :: scopes).flatten)
    (hdeclared : ∃ i ∈ s.code, v ∈ i.allOutputs) :
    let l' := ((declare s m v e).run l).2
    Tidy s Q n ((scope ++ [v]) :: scopes) l' ∧ l.layout.Grows l'.layout := by
  have hstands (hsingle : (s.code.usage v).isSingleAssignment = true) :
      Stands s Q l.lines l.layout.depth v (((setBinding v e).run l).2.standsFor s v) := by
    rw [standsFor_setBinding_self]
    exact ⟨he, fun hnot => by rw [hsingle] at hnot; cases hnot⟩
  have hquiet : l.layout.Grows ((setBinding v e).run l).2.layout := .refl _
  have hset := tidy_setBinding h hv e
  have hassign := tidy_assign (m := m) hsc h he hv hdeclared
  unfold declare
  dsimp only
  split
  · rename_i hsingle
    split
    · split
      · -- The expression waits for its only use.
        rename_i huse
        refine ⟨{ hset.extend fun _ => hstands hsingle with waiting := ?_ }, hquiet⟩
        intro w hw
        rcases List.mem_append.mp hw with hw | hw
        · exact ⟨List.mem_append_left _ (h.waiting w hw).1, (h.waiting w hw).2⟩
        · rw [List.mem_singleton.mp hw, huse]
          exact ⟨List.mem_append_right _ (List.mem_singleton_self v), Nat.zero_lt_one⟩
      · split
        · -- Nothing uses the value.
          rename_i huse
          obtain ⟨ht, hg, -⟩ := tidy_emit (m := m) (.expression e) hsc h he
            (by simp) (by simp [Statement.target?])
          exact ⟨ht.extend fun hpos => by omega, hg⟩
        · exact hassign
    · split
      · exact ⟨hset.extend fun _ => hstands hsingle, hquiet⟩
      · exact hassign
  · exact hassign

theorem tidy_finish {i : Instruction} {f : Finish} (hi : i ∈ s.code)
    (hsc : Scoped s (scope :: scopes)) (h : Tidy s Q n (scope :: scopes) l)
    (hf : f.Over (Bound l.lines l.layout.depth) Q) (hout : f.outputs = i.outputs)
    (hnew : ∀ v ∈ i.outputs, v ∉ (scope :: scopes).flatten)
    (hbind : ∀ target e, f ≠ .emit (.bind target e))
    (htarget : ∀ target, f.target? = some target → i.op.assigns = true ∧
      target = .name (s.nameOf (i.input 0))) :
    let l' := ((f.run s i.index).run l).2
    Tidy s Q n ((scope ++ i.outputs) :: scopes) l' ∧ l.layout.Grows l'.layout ∧
      ∀ target, f.target? = some target → ∃ x ∈ l'.lines, x.content.Assigns i.index target := by
  have hdeclared {v : Variable} (hv : v ∈ i.outputs) : ∃ j ∈ s.code, v ∈ j.allOutputs :=
    ⟨i, hi, List.mem_of_mem_take hv⟩
  cases f with
  | declare v e =>
    have hv : v ∈ i.outputs := hout ▸ List.mem_singleton_self v
    obtain ⟨ht, hg⟩ := tidy_declare (m := i.index) hsc h hf (hnew v hv) (hdeclared hv)
    rw [← hout]
    exact ⟨ht, hg, nofun⟩
  | assign v e =>
    have hv : v ∈ i.outputs := hout ▸ List.mem_singleton_self v
    obtain ⟨ht, hg⟩ := tidy_assign (m := i.index) hsc h hf (hnew v hv) (hdeclared hv)
    rw [← hout]
    exact ⟨ht, hg, nofun⟩
  | emit st =>
    obtain ⟨ht, hg, x, hx, hcontent⟩ := tidy_emit (m := i.index) st hsc h hf
      (fun target e hst => hbind target e (congrArg Finish.emit hst))
      fun target hst => ⟨i, hi, rfl, htarget target hst⟩
    rw [← hout, Finish.outputs, List.append_nil]
    exact ⟨ht, hg, fun target hst => ⟨x, hx, st, hcontent, hst⟩⟩

end Render

end

end Python
end ScriptFuzz
