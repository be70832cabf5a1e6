import ScriptFuzz.Proofs.Python.Scoping

/-!
# Scopes of blocks

An instruction that starts a block binds what it declares in the header or inside of the body, and one
that ends a block leaves everything bound that the blocks around it bind. So each instruction leads from
the scopes before it to those after it (`tidy_step`).
-/

namespace ScriptFuzz

set_option autoImplicit false

namespace Python

/-- The header binds what the instruction declares, and else at most the name of a case. -/
structure Header.Declares (s : Subject) (i : Instruction) (hd : Header) : Prop where
  outputs : ∀ d, ∀ v ∈ i.outputs, (d, s.nameOf v) ∈ (⟨d, .header hd i.index⟩ : Line).binders
  innerOutputs : ∀ d, ∀ v ∈ i.innerOutputs,
    (d + 1, s.nameOf v) ∈ (⟨d, .header hd i.index⟩ : Line).binders
  only : ∀ d, ∀ b ∈ (⟨d, .header hd i.index⟩ : Line).binders,
    (∃ v ∈ i.allOutputs, b.2 = s.nameOf v) ∨ b.2 = .capture i.index

/-- What the check knows of an instruction between the scopes `scopes`. -/
structure Ready (s : Subject) (i : Instruction) (scopes : List (List Variable)) : Prop where
  mem : i ∈ s.code
  known : Scoped s scopes
  inputs : ∀ v ∈ i.inputs, v ∈ scopes.flatten ∧ 0 < (s.code.usage v).uses
  fresh : ∀ v ∈ i.allOutputs, v ∉ scopes.flatten
  reassigned : i.op.assigns = true → (s.code.usage (i.input 0)).isSingleAssignment = false

theorem binders_of_inert {x : Line}
    (h : x.content = .filler ∨ ∃ text, x.content = .comment text) : x.binders = [] := by
  unfold Line.binders
  rcases h with h | ⟨text, h⟩ <;> rw [h]

/-- A line that holds nothing of the program fits everywhere. -/
theorem Line.fits_of_inert {s : Subject} {Q : String → Prop} {ls : List Line} {x : Line}
    (h : x.content = .filler ∨ ∃ text, x.content = .comment text) : x.Fits s Q ls := by
  refine ⟨?_, ?_, ?_, ?_, ?_⟩
  · rcases h with h | ⟨text, h⟩ <;> rw [h] <;> trivial
  · rw [binders_of_inert h]
    exact List.forall_mem_nil _
  · rw [binders_of_inert h]
    exact List.forall_mem_nil _
  · rintro n target ⟨st, hst, -⟩
    rcases h with h | ⟨text, h⟩ <;> rw [h] at hst <;> cases hst
  · intro target e n hst
    rcases h with h | ⟨text, h⟩ <;> rw [h] at hst <;> cases hst

section

variable {s : Subject} {Q : String → Prop} {i : Instruction} {hd : Header} {ls : List Line} {d : Nat}

/-- The name of a case is that of the instruction itself. -/
theorem Header.Declares.eq_of_capture (h : hd.Declares s i) {b : Nat × Name} {k : Nat}
    (hb : b ∈ (⟨d, .header hd i.index⟩ : Line).binders) (hk : b.2 = .capture k) : k = i.index := by
  rcases h.only d b hb with ⟨v, -, hv⟩ | hv
  · rw [hv] at hk
    exact absurd hk (Render.name_ne_capture v k)
  · rw [hv] at hk
    exact (Name.capture.inj hk).symm

theorem Header.Declares.fits (h : hd.Declares s i) (hi : i ∈ s.code)
    (hover : hd.Over (fun name => Bound ls d name ∨ ∃ value, hd = .caseEqual name value) Q)
    (hcaptured : ∀ y ∈ ls, ∀ b ∈ y.binders, ∀ k, b.2 = .capture k → k < i.index) :
    Line.Fits s Q ls ⟨d, .header hd i.index⟩ := by
  refine ⟨?_, ?_, ?_, ?_, ?_⟩
  · refine Header.Over.mono ?_ hover
    rintro name (hn | ⟨value, rfl⟩)
    · exact .line hn
    · exact .pattern rfl
  · intro b hb
    rcases h.only d b hb with ⟨v, hv, hname⟩ | hname
    · rw [hname]
      exact .ofVariable hi hv
    · rw [hname]
      exact .capture hi
  · intro b hb k hk y hy b' hb' hk'
    have hlt := hcaptured y hy b' hb' k hk'
    rw [h.eq_of_capture hb hk] at hlt
    exact Nat.lt_irrefl _ hlt
  · rintro k target ⟨st, hst, -⟩
    cases hst
  · intro target e k hst
    cases hst

/-- Behind a header, what the instruction declares stands for its names. -/
theorem Supplied.enter {f : Variable → Expr} {scope : List Variable} {scopes : List (List Variable)}
    (hs : Supplied s Q ls f (scope :: scopes)) (hdepth : (scope :: scopes).length = d + 1)
    (h : hd.Declares s i) (hnamed : ∀ v ∈ i.allOutputs, f v = .name (s.nameOf v)) :
    Supplied s Q (ls ++ [⟨d, .header hd i.index⟩]) f
      (i.innerOutputs :: (scope ++ i.outputs) :: scopes) := by
  have hgrown : Supplied s Q (ls ++ [⟨d, .header hd i.index⟩]) f (scope :: scopes) :=
    hs.grow (Nat.le_of_eq hdepth) (List.forall_mem_singleton.mpr (Nat.le_refl d))
  have hd' : scopes.length = d := Nat.succ_inj.mp hdepth
  refine ⟨?_, ?_, hgrown.2⟩
  · intro v hv _
    rw [hnamed v (List.mem_of_mem_drop hv)]
    refine stands_name (bound_last (h.innerOutputs d v hv) ?_)
    rw [List.length_cons, hd']
  · intro v hv huse
    rcases List.mem_append.mp hv with hv | hv
    · exact hgrown.1 v hv huse
    · rw [hnamed v (List.mem_of_mem_take hv)]
      exact stands_name (bound_last (h.outputs d v hv) (Nat.le_of_eq hd'.symm))

end

namespace Render

open Lifting

variable {α β : Type} {s : Subject} {Q : String → Prop} {n m : Nat} {l : Lifting} {v : Variable}
  {scope vs ws : List Variable} {scopes : List (List Variable)} {i : Instruction} {hd : Header}

theorem tidy_inert {l' : Lifting} {x : Line} (h : Tidy s Q n scopes l)
    (hx : x.content = .filler ∨ ∃ text, x.content = .comment text)
    (hlines : l'.lines = l.lines ++ [x]) (hdepth : l'.layout.depth = l.layout.depth)
    (hx' : l.layout.depth ≤ x.depth) (hbindings : l'.bindings = l.bindings)
    (hpending : l'.pending = l.pending) (hdeclarations : l'.declarations = l.declarations) :
    Tidy s Q n scopes l' := by
  have hlast : ∀ y ∈ [x], l.layout.depth ≤ y.depth := List.forall_mem_singleton.mpr hx'
  have hstands : l'.standsFor s = l.standsFor s := by
    funext v
    rw [standsFor, hbindings]
    rfl
  refine ⟨hdepth ▸ h.depth, ?_, ?_, ?_, ?_, ?_⟩
  · rw [hlines]
    exact h.orderly.push (Line.fits_of_inert hx)
  · rw [hlines]
    refine List.forall_mem_append.mpr ⟨h.captured, List.forall_mem_singleton.mpr ?_⟩
    rw [binders_of_inert hx]
    exact List.forall_mem_nil _
  · rw [hlines, hstands]
    exact h.supplied.grow (Nat.le_of_eq h.depth) hlast
  · rw [hpending]
    exact h.waiting
  · rw [hdeclarations]
    exact h.declarations

theorem tidy_comments (h : Tidy s Q n scopes l) (css : List (List Char)) :
    let layout := css.foldl (fun l cs => l.push (.comment (String.ofList cs))) l.layout
    Tidy s Q n scopes { l with layout := layout } ∧ l.layout.Grows layout := by
  induction css generalizing l with
  | nil => exact ⟨h, .refl _⟩
  | cons cs css ih =>
    have hlines : (l.layout.push (.comment (String.ofList cs))).lines.toList =
        l.lines ++ [⟨l.layout.depth, .comment (String.ofList cs)⟩] := by
      simp [Layout.push]
    have hpush : Tidy s Q n scopes
        { l with layout := l.layout.push (.comment (String.ofList cs)) } :=
      tidy_inert h (.inr ⟨_, rfl⟩) hlines rfl (Nat.le_refl _) rfl rfl rfl
    obtain ⟨ht, hg⟩ := ih hpush
    refine ⟨ht, .trans ⟨⟨_, hlines, ?_⟩, rfl⟩ hg⟩
    exact List.forall_mem_singleton.mpr (Nat.le_refl _)

theorem tidy_note (h : Tidy s Q n scopes l) (wanted : Bool) (text : Option String) :
    Tidy s Q n scopes ((note wanted text).run l).2 ∧
      l.layout.Grows ((note wanted text).run l).2.layout := by
  unfold note
  split
  · rename_i text
    exact tidy_comments h (Text.lines text.toList)
  · exact ⟨h, .refl _⟩

theorem tidy_exit (hsc : Scoped s (scope :: scopes)) (h : Tidy s Q n (scope :: scopes) l)
    (hne : scopes ≠ []) :
    Tidy s Q n scopes ((exit s m).run l).2 ∧ l.lines <+: ((exit s m).run l).2.lines := by
  obtain ⟨ht, hg⟩ := tidy_drain (m := m) hsc h
  have hpending := pending_drain (s := s) (n := m) (l := l)
  unfold exit
  rw [run_bind]
  generalize ((drain s m).run l).2 = l₁ at ht hg hpending
  have hdepth := ht.depth
  have hpos := List.length_pos_iff.mpr hne
  rw [List.length_cons] at hdepth
  -- `b` tells whether the block has a statement; one that has none gets a filler.
  obtain ⟨b, bs, hfilled⟩ := List.exists_cons_of_length_pos (l := l₁.layout.filled)
    (by unfold Layout.depth at hdepth; omega)
  obtain ⟨hlines, hfilled'⟩ := l₁.layout.exit_eq hfilled
  have hdepth' : l₁.layout.depth = bs.length + 1 := by
    rw [Layout.depth, hfilled]
    rfl
  have hnew : ∀ y ∈ (if b then [] else [(⟨bs.length + 1, .filler⟩ : Line)]),
      y.content = .filler ∧ y.depth = bs.length + 1 := by
    cases b <;> simp
  have hlines' : l₁.layout.exit.lines.toList =
      l₁.lines ++ if b then [] else [⟨bs.length + 1, .filler⟩] := hlines
  have hsupplied := ht.supplied.2
  refine ⟨⟨?_, ?_, ?_, ?_, ?_, ht.declarations⟩, hg.isPrefix.trans ⟨_, hlines.symm⟩⟩
  · change scopes.length = l₁.layout.exit.filled.length + 1
    rw [hfilled']
    omega
  · change Orderly s Q l₁.layout.exit.lines.toList
    rw [hlines']
    cases b with
    | true => simpa using ht.orderly
    | false => exact ht.orderly.push (Line.fits_of_inert (.inl rfl))
  · change ∀ x ∈ l₁.layout.exit.lines.toList, _
    rw [hlines']
    refine List.forall_mem_append.mpr ⟨ht.captured, ?_⟩
    intro x hx
    rw [binders_of_inert (.inl (hnew x hx).1)]
    exact List.forall_mem_nil _
  · change Supplied s Q l₁.layout.exit.lines.toList (l₁.standsFor s) scopes
    rw [hlines']
    refine hsupplied.grow (d := bs.length) (by omega) fun y hy => ?_
    have := (hnew y hy).2
    omega
  · change ∀ v ∈ l₁.pending, _
    rw [hpending]
    exact List.forall_mem_nil _

/-- Emptying the queue only makes variables stand for their names. -/
theorem named_materialize (h : l.standsFor s v = .name (s.nameOf v)) (w : Variable) :
    ((materialize s m w).run l).2.standsFor s v = .name (s.nameOf v) := by
  unfold materialize
  rw [run_get_bind]
  cases hlookup : l.bindings.lookup w with
  | none => exact h
  | some e =>
    change ((setBinding w (.name (s.nameOf w))).run ((write m _).run l).2).2.standsFor s v = _
    by_cases hv : v = w
    · rw [hv]
      exact standsFor_setBinding_self _
    · rw [standsFor_setBinding_of_ne _ hv]
      exact h

theorem named_drain (h : l.standsFor s v = .name (s.nameOf v)) :
    ((drain s m).run l).2.standsFor s v = .name (s.nameOf v) := by
  have hall (ws : List Variable) {l : Lifting} (h : l.standsFor s v = .name (s.nameOf v)) :
      ((ws.forM (materialize s m)).run l).2.standsFor s v = .name (s.nameOf v) := by
    induction ws generalizing l with
    | nil => exact h
    | cons w ws ih => exact ih (named_materialize h w)
  exact hall l.pending (l := { l with pending := [] }) h

/-- From `l` to `l'` lines were only added, and the body that the instruction starts is entered. -/
structure EntersBody (s : Subject) (Q : String → Prop) (i : Instruction) (scope : List Variable)
    (scopes : List (List Variable)) (l l' : Lifting) : Prop where
  tidy : Tidy s Q (i.index + 1) (i.innerOutputs :: (scope ++ i.outputs) :: scopes) l'
  grown : l.lines <+: l'.lines

theorem tidy_enter (hi : i ∈ s.code) (hsc : Scoped s (scope :: scopes))
    (h : Tidy s Q i.index (scope :: scopes) l)
    (hover : hd.Over (fun name => Bound l.lines l.layout.depth name ∨
      ∃ value, hd = .caseEqual name value) Q)
    (hdeclares : hd.Declares s i)
    (hnamed : ∀ v ∈ i.allOutputs, l.standsFor s v = .name (s.nameOf v)) :
    EntersBody s Q i scope scopes l ((enter s i.index hd).run l).2 := by
  obtain ⟨ht, hg⟩ := tidy_drain (m := i.index) hsc h
  have hpending := pending_drain (s := s) (n := i.index) (l := l)
  have hnamed' (v : Variable) (hv : v ∈ i.allOutputs) := named_drain (m := i.index) (hnamed v hv)
  have hbound {name : Name} (hn : Bound l.lines l.layout.depth name) := hg.bound hn
  have hprefix := hg.isPrefix
  unfold enter
  rw [run_bind]
  -- The queue is empty before its scope is no longer the innermost one.
  generalize ((drain s i.index).run l).2 = l₁ at ht hpending hnamed' hbound hprefix
  obtain ⟨hlines, hfilled⟩ := l₁.layout.enter_eq hd i.index
  have hdepth : (l₁.layout.enter hd i.index).depth = l₁.layout.depth + 1 := by
    rw [Layout.depth, hfilled, List.length_cons, length_fillWith]
    rfl
  have hfits : Line.Fits s Q l₁.lines ⟨l₁.layout.depth, .header hd i.index⟩ :=
    hdeclares.fits hi (hover.mono fun name hn => hn.imp_left hbound) ht.captured
  refine ⟨⟨?_, ?_, ?_, ?_, ?_, ht.declarations⟩, hprefix.trans ⟨_, hlines.symm⟩⟩
  · change _ = (l₁.layout.enter hd i.index).depth + 1
    rw [hdepth, List.length_cons, ← ht.depth]
    rfl
  · change Orderly s Q (l₁.layout.enter hd i.index).lines.toList
    rw [hlines]
    exact ht.orderly.push hfits
  · change ∀ y ∈ (l₁.layout.enter hd i.index).lines.toList, _
    rw [hlines]
    refine List.forall_mem_append.mpr ⟨?_, List.forall_mem_singleton.mpr ?_⟩
    · intro y hy b hb k hk
      exact Nat.lt_succ_of_lt (ht.captured y hy b hb k hk)
    · intro b hb k hk
      rw [hdeclares.eq_of_capture hb hk]
      exact Nat.lt_succ_self _
  · change Supplied s Q (l₁.layout.enter hd i.index).lines.toList (l₁.standsFor s) _
    rw [hlines]
    exact ht.supplied.enter ht.depth hdeclares hnamed'
  · change ∀ v ∈ l₁.pending, _
    rw [hpending]
    exact List.forall_mem_nil _

/-- A part of rendering that does nothing but make the variables `vs` stand for their names. -/
structure Names (s : Subject) (vs : List Variable) (q : Render α) (a : α) : Prop where
  result : ∀ l, (q.run l).1 = a
  layout : ∀ l, (q.run l).2.layout = l.layout
  pending : ∀ l, (q.run l).2.pending = l.pending
  declarations : ∀ l, (q.run l).2.declarations = l.declarations
  named : ∀ l, ∀ v ∈ vs, (q.run l).2.standsFor s v = .name (s.nameOf v)
  others : ∀ l, ∀ v, v ∉ vs → (q.run l).2.standsFor s v = l.standsFor s v

variable {q : Render α} {r : α → Render β} {a : α} {b : β}

theorem names_pure (a : α) : Names s [] (pure a) a :=
  ⟨fun _ => rfl, fun _ => rfl, fun _ => rfl, fun _ => rfl, nofun, fun _ _ _ => rfl⟩

theorem names_switches (f : Lifting → List Bool) :
    Names s [] (modify fun l => { l with switches := f l }) () :=
  ⟨fun _ => rfl, fun _ => rfl, fun _ => rfl, fun _ => rfl, nofun, fun _ _ _ => rfl⟩

theorem names_bindName (v : Variable) : Names s [v] (bindName s v) (s.nameOf v) := by
  refine ⟨fun _ => rfl, fun _ => rfl, fun _ => rfl, fun _ => rfl, ?_, ?_⟩
  · intro l w hw
    rw [List.mem_singleton.mp hw]
    exact standsFor_setBinding_self _
  · intro l w hw
    exact standsFor_setBinding_of_ne _ fun h => hw (List.mem_singleton.mpr h)

theorem Names.bind (hq : Names s vs q a) (hr : Names s ws (r a) b) :
    Names s (vs ++ ws) (q >>= r) b := by
  have hrun (l : Lifting) : (q >>= r).run l = (r a).run (q.run l).2 := by
    rw [run_bind, hq.result]
  refine ⟨?_, ?_, ?_, ?_, ?_, ?_⟩
  · intro l
    rw [hrun, hr.result]
  · intro l
    rw [hrun, hr.layout, hq.layout]
  · intro l
    rw [hrun, hr.pending, hq.pending]
  · intro l
    rw [hrun, hr.declarations, hq.declarations]
  · intro l v hv
    rw [hrun]
    by_cases hw : v ∈ ws
    · exact hr.named _ v hw
    · rw [hr.others _ v hw]
      exact hq.named l v ((List.mem_append.mp hv).resolve_right hw)
  · intro l v hv
    rw [List.mem_append, not_or] at hv
    rw [hrun, hr.others _ v hv.2, hq.others l v hv.1]

theorem names_bindNames (vs : List Variable) :
    Names s vs (bindNames s vs) (vs.map s.nameOf) := by
  unfold bindNames
  induction vs with
  | nil => exact names_pure []
  | cons v vs ih =>
    rw [List.mapM_cons]
    have hrest := ih.bind (r := fun ns => pure (s.nameOf v :: ns)) (names_pure _)
    rw [List.append_nil] at hrest
    exact (names_bindName v).bind (r := fun n => do return n :: (← vs.mapM (bindName s))) hrest

theorem Names.tidy (hq : Names s vs q a) (hvs : ∀ v ∈ vs, v ∉ scopes.flatten)
    (h : Tidy s Q n scopes l) : Tidy s Q n scopes (q.run l).2 := by
  refine ⟨hq.layout l ▸ h.depth, ?_, ?_, ?_, hq.pending l ▸ h.waiting,
    hq.declarations l ▸ h.declarations⟩
  · rw [Lifting.lines, hq.layout]
    exact h.orderly
  · rw [Lifting.lines, hq.layout]
    exact h.captured
  · rw [Lifting.lines, hq.layout]
    exact h.supplied.congr fun v hv => hq.others l v fun hin => hvs v hin hv

/-- What an instruction does that starts a block: it takes its inputs, makes what it declares stand for
names, and writes the header `hd`. -/
theorem tidy_head (hr : Ready s i (scope :: scopes)) (h : Tidy s Q i.index (scope :: scopes) l)
    {m : Render Unit} {g : List Expr → α → Header} {inputs : List (Variable × Slot)}
    (hrun : m = operands s i.index inputs >>= fun es => q >>= fun a => enter s i.index (g es a))
    (hin : inputs.map Prod.fst = i.inputs) (hq : Names s vs q a)
    (hvs : ∀ v, v ∈ vs ↔ v ∈ i.allOutputs)
    (hover : ∀ (P : Name → Prop) es, Expr.AllOver P Q es →
      (g es a).Over (fun name => P name ∨ ∃ value, g es a = .caseEqual name value) Q)
    (hdeclares : ∀ es, (g es a).Declares s i) :
    EntersBody s Q i scope scopes l (m.run l).2 := by
  have hin' : ∀ input ∈ inputs,
      input.1 ∈ (scope :: scopes).flatten ∧ 0 < (s.code.usage input.1).uses := by
    intro input hinput
    refine hr.inputs input.1 ?_
    rw [← hin]
    exact List.mem_map_of_mem hinput
  obtain ⟨ht, hg, hes⟩ := tidy_operands (m := i.index) hr.known h hin'
  have hall := allOver_of_stands hes
  rw [hrun, run_bind, run_bind]
  generalize (operands s i.index inputs).run l = r at ht hg hall
  obtain ⟨es, l₁⟩ := r
  dsimp only at ht hg hall ⊢
  have ht' := hq.tidy (fun v hv => hr.fresh v ((hvs v).mp hv)) ht
  have hlines : (q.run l₁).2.lines = l₁.lines := by rw [Lifting.lines, hq.layout]
  have hover' := hover (Bound (q.run l₁).2.lines (q.run l₁).2.layout.depth) es
    (by rw [hlines, hq.layout]; exact hall)
  rw [hq.result l₁]
  obtain ⟨hentered, hprefix⟩ := tidy_enter hr.mem hr.known ht' hover' (hdeclares es)
    fun v hv => hq.named l₁ v ((hvs v).mpr hv)
  rw [hlines] at hprefix
  exact ⟨hentered, hg.isPrefix.trans hprefix⟩

theorem declares_nothing (hout : i.op.shape.outputs = 0) (hinner : i.op.shape.innerOutputs = 0)
    (hbinders : ∀ d, ∀ b ∈ (⟨d, .header hd i.index⟩ : Line).binders, b.2 = .capture i.index) :
    hd.Declares s i := by
  refine ⟨?_, ?_, fun d b hb => .inr (hbinders d b hb)⟩
  · rw [Instruction.outputs_eq_nil hout]
    nofun
  · rw [Instruction.innerOutputs_eq_nil_of_shape hinner]
    nofun

theorem mem_nil_iff_allOutputs (hout : i.op.shape.outputs = 0)
    (hinner : i.op.shape.innerOutputs = 0) (v : Variable) : v ∈ [] ↔ v ∈ i.allOutputs := by
  rw [← i.outputs_append_innerOutputs, Instruction.outputs_eq_nil hout,
    Instruction.innerOutputs_eq_nil_of_shape hinner]
  rfl

theorem mem_outputs_iff (hinner : i.op.shape.innerOutputs = 0) (v : Variable) :
    v ∈ i.outputs ↔ v ∈ i.allOutputs := by
  rw [← i.outputs_append_innerOutputs, Instruction.innerOutputs_eq_nil_of_shape hinner,
    List.append_nil]

theorem mem_innerOutputs_iff (hout : i.op.shape.outputs = 0) (v : Variable) :
    v ∈ i.innerOutputs ↔ v ∈ i.allOutputs := by
  rw [← i.outputs_append_innerOutputs, Instruction.outputs_eq_nil hout, List.nil_append]

theorem declares_outer {f : Name → Header} (hout : i.op.shape.outputs = 1)
    (hinner : i.op.shape.innerOutputs = 0)
    (hbinders : ∀ d name, (⟨d, .header (f name) i.index⟩ : Line).binders = [(d, name)]) :
    (f ((i.outputs.map s.nameOf).headD (s.nameOf default))).Declares s i := by
  obtain ⟨v, hv⟩ := List.length_eq_one_iff.mp (i.length_outputs.trans hout)
  rw [hv]
  refine ⟨?_, ?_, ?_⟩
  · intro d w hw
    rw [hv, List.mem_singleton] at hw
    rw [hw, hbinders]
    exact List.mem_singleton_self _
  · rw [Instruction.innerOutputs_eq_nil_of_shape hinner]
    nofun
  · intro d b hb
    rw [hbinders] at hb
    rw [List.mem_singleton.mp hb]
    refine .inl ⟨v, ?_, rfl⟩
    rw [← mem_outputs_iff hinner, hv]
    exact List.mem_singleton_self v

theorem declares_inner {f : Name → Header} (hout : i.op.shape.outputs = 0)
    (hinner : i.op.shape.innerOutputs = 1)
    (hbinders : ∀ d name, (⟨d, .header (f name) i.index⟩ : Line).binders = [(d + 1, name)]) :
    (f ((i.innerOutputs.map s.nameOf).headD (s.nameOf default))).Declares s i := by
  obtain ⟨v, hv⟩ := List.length_eq_one_iff.mp (i.length_innerOutputs.trans hinner)
  rw [hv]
  refine ⟨?_, ?_, ?_⟩
  · rw [Instruction.outputs_eq_nil hout]
    nofun
  · intro d w hw
    rw [hv, List.mem_singleton] at hw
    rw [hw, hbinders]
    exact List.mem_singleton_self _
  · intro d b hb
    rw [hbinders] at hb
    rw [List.mem_singleton.mp hb]
    refine .inl ⟨v, ?_, rfl⟩
    rw [← mem_innerOutputs_iff hout, hv]
    exact List.mem_singleton_self v

theorem tidy_head_of_no_inputs (hr : Ready s i (scope :: scopes))
    (h : Tidy s Q i.index (scope :: scopes) l) {m : Render Unit} {g : α → Header}
    (hrun : m = q >>= fun a => enter s i.index (g a)) (hinputs : i.op.shape.inputs = 0)
    (hq : Names s vs q a) (hvs : ∀ v, v ∈ vs ↔ v ∈ i.allOutputs)
    (hover : ∀ P : Name → Prop, (g a).Over P Q) (hdeclares : (g a).Declares s i) :
    EntersBody s Q i scope scopes l (m.run l).2 := by
  have hhead : m = operands s i.index [] >>= fun _ => q >>= fun a => enter s i.index (g a) := by
    rw [hrun, operands_nil]
    rfl
  exact tidy_head (g := fun _ => g) hr h hhead (Instruction.inputs_eq_nil hinputs).symm hq hvs
    (fun P _ _ => hover _) fun _ => hdeclares

/-- An instruction that takes its inputs, changes nothing but the open switches, and starts a block
without variables of its own. -/
theorem tidy_head_plain (hr : Ready s i (scope :: scopes))
    (h : Tidy s Q i.index (scope :: scopes) l) {q : Render Unit} {g : List Expr → Header}
    (hout : i.op.shape.outputs = 0) (hinner : i.op.shape.innerOutputs = 0) (hq : Names s [] q ())
    (hover : ∀ (P : Name → Prop) es, Expr.AllOver P Q es →
      (g es).Over (fun name => P name ∨ ∃ value, g es = .caseEqual name value) Q)
    (hbinders : ∀ es d, ∀ b ∈ (⟨d, .header (g es) i.index⟩ : Line).binders,
      b.2 = .capture i.index)
    (hrun : instruction s i =
      operands s i.index i.slots >>= fun es => q >>= fun _ => enter s i.index (g es)) :
    EntersBody s Q i scope scopes l ((instruction s i).run l).2 :=
  tidy_head (g := fun es _ => g es) hr h hrun i.map_fst_slots hq
    (mem_nil_iff_allOutputs hout hinner) hover
    fun es => declares_nothing hout hinner (hbinders es)

/-- A header that reads only names that are bound. -/
theorem over_or {P R : Name → Prop} (h : hd.Over P Q) : hd.Over (fun name => P name ∨ R name) Q :=
  h.mono fun _ => .inl

theorem tidy_if {inverted : Bool} (hop : i.op = .beginIf inverted)
    (hr : Ready s i (scope :: scopes)) (h : Tidy s Q i.index (scope :: scopes) l) :
    EntersBody s Q i scope scopes l ((instruction s i).run l).2 := by
  refine tidy_head_plain hr h (q := pure ()) (g := fun es =>
    if inverted then .ifFalse (es.headD .none) else .ifTrue (es.headD .none))
    (by rw [hop]; rfl) (by rw [hop]; rfl) (names_pure ()) ?_ ?_ ?_
  · intro P es hes
    refine over_or ?_
    cases inverted <;> exact hes.headD
  · intro es d b hb
    cases inverted <;> cases hb
  · unfold instruction Instruction.slots
    rw [hop]
    dsimp only
    rw [bind_operandAs]
    rfl

theorem tidy_while {comparator : Comparator} (hop : i.op = .beginWhileLoop comparator)
    (hr : Ready s i (scope :: scopes)) (h : Tidy s Q i.index (scope :: scopes) l) :
    EntersBody s Q i scope scopes l ((instruction s i).run l).2 := by
  refine tidy_head_plain hr h (q := pure ()) (g := fun es =>
    .whileLoop comparator (es.headD .none) ((es[1]?).getD .none))
    (by rw [hop]; rfl) (by rw [hop]; rfl) (names_pure ()) ?_ ?_ ?_
  · exact fun P es hes => over_or ⟨hes.headD, hes.getD 1⟩
  · nofun
  · unfold instruction Instruction.slots
    rw [hop]
    exact bind_pair _ _ _

theorem tidy_try (hop : i.op = .beginTry) (hr : Ready s i (scope :: scopes))
    (h : Tidy s Q i.index (scope :: scopes) l) :
    EntersBody s Q i scope scopes l ((instruction s i).run l).2 := by
  have hrun : instruction s i = pure () >>= fun _ => enter s i.index .tryBlock := by
    unfold instruction
    rw [hop]
    rfl
  have hout : i.op.shape.outputs = 0 := by rw [hop]; rfl
  have hinner : i.op.shape.innerOutputs = 0 := by rw [hop]; rfl
  exact tidy_head_of_no_inputs hr h hrun (by rw [hop]; rfl) (names_pure ())
    (mem_nil_iff_allOutputs hout hinner) (fun _ => trivial) (declares_nothing hout hinner nofun)

theorem tidy_switch (hop : i.op = .beginSwitch) (hr : Ready s i (scope :: scopes))
    (h : Tidy s Q i.index (scope :: scopes) l) :
    EntersBody s Q i scope scopes l ((instruction s i).run l).2 := by
  refine tidy_head_plain hr h (g := fun es => .matching (es.headD .none)) (by rw [hop]; rfl)
    (by rw [hop]; rfl) (names_switches fun l => false :: l.switches) ?_ nofun ?_
  · exact fun P es hes => over_or hes.headD
  · unfold instruction Instruction.slots
    rw [hop]
    dsimp only
    rw [bind_operandAs]

theorem tidy_case (hop : i.op = .beginSwitchCase) (hr : Ready s i (scope :: scopes))
    (h : Tidy s Q i.index (scope :: scopes) l) :
    EntersBody s Q i scope scopes l ((instruction s i).run l).2 := by
  refine tidy_head_plain hr h
    (g := fun es => .caseEqual (.capture i.index) (es.headD .none)) (by rw [hop]; rfl)
    (by rw [hop]; rfl) (names_switches _ : Names s [] markCase ()) ?_ ?_ ?_
  · intro P es hes
    exact ⟨.inr ⟨_, rfl⟩, Expr.Over.mono (fun _ => .inl) _ hes.headD⟩
  · intro es d b hb
    rw [List.mem_singleton.mp hb]
  · unfold instruction Instruction.slots
    rw [hop]
    dsimp only
    rw [bind_operandAs]
    rfl

theorem tidy_default (hop : i.op = .beginSwitchDefaultCase) (hr : Ready s i (scope :: scopes))
    (h : Tidy s Q i.index (scope :: scopes) l) :
    EntersBody s Q i scope scopes l ((instruction s i).run l).2 := by
  have hrun : instruction s i = markCase >>= fun _ => enter s i.index .caseAny := by
    unfold instruction
    rw [hop]
  have hout : i.op.shape.outputs = 0 := by rw [hop]; rfl
  have hinner : i.op.shape.innerOutputs = 0 := by rw [hop]; rfl
  exact tidy_head_of_no_inputs hr h hrun (by rw [hop]; rfl) (names_switches _)
    (mem_nil_iff_allOutputs hout hinner) (fun _ => trivial) (declares_nothing hout hinner nofun)

theorem tidy_for (hop : i.op = .beginForLoop) (hr : Ready s i (scope :: scopes))
    (h : Tidy s Q i.index (scope :: scopes) l) :
    EntersBody s Q i scope scopes l ((instruction s i).run l).2 := by
  have hrun : instruction s i = operands s i.index (i.inputs.map fun v => (v, .inline)) >>=
      fun es => bindNames s i.innerOutputs >>= fun counters =>
        enter s i.index (.forLoop (counters.headD (s.nameOf default)) es) := by
    unfold instruction
    rw [hop]
    rfl
  have hout : i.op.shape.outputs = 0 := by rw [hop]; rfl
  refine tidy_head (g := fun es (counters : List Name) =>
    .forLoop (counters.headD (s.nameOf default)) es) hr h hrun (by simp [Function.comp_def])
    (names_bindNames _) (mem_innerOutputs_iff hout) ?_ ?_
  · exact fun P es hes => over_or hes
  · exact fun es => declares_inner (f := (Header.forLoop · es)) hout (by rw [hop]; rfl)
      fun _ _ => rfl

theorem tidy_class {superclass : Bool} (hop : i.op = .beginClassDefinition superclass)
    (hr : Ready s i (scope :: scopes)) (h : Tidy s Q i.index (scope :: scopes) l) :
    EntersBody s Q i scope scopes l ((instruction s i).run l).2 := by
  have hrun : instruction s i = operands s i.index (i.inputs.map fun v => (v, .inline)) >>=
      fun es => bindNames s i.outputs >>= fun names =>
        enter s i.index (.classBody (names.headD (s.nameOf default)) es.head?) := by
    unfold instruction
    rw [hop]
    rfl
  have hinner : i.op.shape.innerOutputs = 0 := by rw [hop]; rfl
  refine tidy_head (g := fun es (names : List Name) =>
    .classBody (names.headD (s.nameOf default)) es.head?) hr h hrun (by simp [Function.comp_def])
    (names_bindNames _) (mem_outputs_iff hinner) ?_ ?_
  · intro P es hes
    refine over_or fun e he => ?_
    exact Expr.allOver_iff.mp hes e (List.mem_of_mem_head? he)
  · exact fun es => declares_outer (f := (Header.classBody · es.head?)) (by rw [hop]; rfl) hinner
      fun _ _ => rfl

/-! ## Bodies of functions and methods -/

theorem lookup_filter_of_ne {β : Type} {xs : List (Nat × β)} {j k : Nat} (hk : k ≠ j) :
    (xs.filter fun (n, _) => n ≠ j).lookup k = xs.lookup k := by
  induction xs with
  | nil => rfl
  | cons x xs ih =>
    obtain ⟨n, b⟩ := x
    by_cases hn : n = j
    · have hkn : (k == n) = false := by rw [hn]; exact beq_false_of_ne hk
      rw [List.filter_cons_of_neg (by simpa using hn), List.lookup_cons, hkn]
      exact ih
    · rw [List.filter_cons_of_pos (by simpa using hn), List.lookup_cons, List.lookup_cons, ih]

theorem lookup_of_lookup_filter {β : Type} {xs : List (Nat × β)} {j k : Nat} {b : β}
    (h : (xs.filter fun (n, _) => n ≠ j).lookup k = some b) : xs.lookup k = some b := by
  have hk : k ≠ j := by
    obtain ⟨before, after, hsplit, -⟩ := List.lookup_eq_some_iff.mp h
    have hmem : (k, b) ∈ xs.filter fun (n, _) => n ≠ j := by
      rw [hsplit]
      exact List.mem_append_right _ List.mem_cons_self
    simpa using (List.mem_filter.mp hmem).2
  rwa [lookup_filter_of_ne hk] at h

theorem tidy_undeclare (h : Tidy s Q n scopes l) (j : Nat) : Tidy s Q n scopes
    { l with declarations := l.declarations.filter fun (n, _) => n ≠ j } :=
  h.congr rfl rfl (List.Subset.refl _)
    fun k o hk => h.declarations k o (lookup_of_lookup_filter hk)

/-- What an instruction is said to assign outside of its body is visible and changes. -/
def Outside (s : Subject) (i : Instruction) (vs : List Variable) : Prop :=
  ∀ o, s.code.outerAssignments.lookup i.index = some o → ∀ v ∈ o.variables,
    v ∈ vs ∧ 0 < (s.code.usage v).uses ∧ (s.code.usage v).isSingleAssignment = false

theorem bound_outside {o : OuterAssignments} (h : Tidy s Q n scopes l)
    (ho : s.code.outerAssignments.lookup i.index = some o) (hi : Outside s i scopes.flatten)
    (hv : v ∈ o.variables) : Bound l.lines l.layout.depth (s.nameOf v) := by
  obtain ⟨hvisible, huse, hsingle⟩ := hi o ho v hv
  have hstands := h.stands hvisible huse
  have hover := hstands.inScope
  rw [hstands.named hsingle] at hover
  exact hover

/-- The declarations at the start of a body name what is bound around it. -/
theorem tidy_declareOuter (h : Tidy s Q n scopes l) (hi : Outside s i scopes.flatten) :
    Tidy s Q n scopes ((declareOuter s i).run l).2 ∧
      l.layout.Grows ((declareOuter s i).run l).2.layout := by
  have hwrite {l : Lifting} (h : Tidy s Q n scopes l) {names : List Name} {b : Bool}
      (hbound : ∀ name ∈ names, Bound l.lines l.layout.depth name) :
      let l' := ((if b then write i.index (.nonlocals names) else pure () : Render Unit).run l).2
      Tidy s Q n scopes l' ∧ l.layout.Grows l'.layout := by
    cases b with
    | true => exact tidy_write_plain (.nonlocals names) h hbound (by simp) rfl
    | false => exact ⟨h, .refl _⟩
  unfold declareOuter
  rw [run_get_bind]
  cases hlookup : l.declarations.lookup i.index with
  | none => exact ⟨h, .refl _⟩
  | some o =>
    have ho := h.declarations _ o hlookup
    have hnames {l : Lifting} (h : Tidy s Q n scopes l) {numbers : List Nat}
        (hn : ∀ k ∈ numbers, ⟨k⟩ ∈ o.variables) :
        ∀ name ∈ numbers.map fun k => s.nameOf ⟨k⟩, Bound l.lines l.layout.depth name := by
      intro name hname
      obtain ⟨k, hk, rfl⟩ := List.mem_map.mp hname
      exact bound_outside h ho hi (hn k hk)
    have hglobals : ∀ k ∈ o.globals, ⟨k⟩ ∈ o.variables :=
      fun k hk => OuterAssignments.mem_variables.mpr (.inl hk)
    have hnonlocals : ∀ k ∈ o.nonlocals, ⟨k⟩ ∈ o.variables :=
      fun k hk => OuterAssignments.mem_variables.mpr (.inr hk)
    dsimp only
    rw [run_bind]
    have ht := tidy_undeclare h i.index
    split
    · obtain ⟨ht', hg'⟩ := tidy_write_plain (m := i.index) (.globals _) ht
        (hnames ht hglobals) (by simp) rfl
      obtain ⟨ht'', hg''⟩ := hwrite ht' (hnames ht' hnonlocals)
      exact ⟨ht'', hg'.trans hg''⟩
    · exact hwrite ht (hnames ht hnonlocals)

/-- The names of the parameters of a function, and then its own. -/
def functionNames (s : Subject) (i : Instruction) : Render (List Name × List Name) := do
  let parameters ← bindNames s i.innerOutputs
  let names ← bindNames s i.outputs
  return (parameters, names)

theorem names_functionNames : Names s (i.innerOutputs ++ i.outputs) (functionNames s i)
    (i.innerOutputs.map s.nameOf, i.outputs.map s.nameOf) := by
  have h := (names_bindNames (s := s) i.outputs).bind
    (r := fun names => pure (i.innerOutputs.map s.nameOf, names)) (names_pure _)
  rw [List.append_nil] at h
  exact (names_bindNames i.innerOutputs).bind h

theorem declares_function (hout : i.op.shape.outputs = 1) :
    (Header.function ((i.outputs.map s.nameOf).headD (s.nameOf default))
      (i.innerOutputs.map s.nameOf)).Declares s i := by
  obtain ⟨v, hv⟩ := List.length_eq_one_iff.mp (i.length_outputs.trans hout)
  have hmem : v ∈ i.allOutputs := by
    refine List.mem_of_mem_take (i := i.shape.outputs) ?_
    change v ∈ i.outputs
    rw [hv]
    exact List.mem_singleton_self v
  rw [hv]
  refine ⟨?_, ?_, ?_⟩
  · intro d w hw
    rw [hv, List.mem_singleton] at hw
    rw [hw]
    exact List.mem_cons_self
  · intro d w hw
    exact List.mem_cons_of_mem _ (List.mem_map_of_mem (List.mem_map_of_mem hw))
  · intro d b hb
    rcases List.mem_cons.mp hb with rfl | hb
    · exact .inl ⟨v, hmem, rfl⟩
    · obtain ⟨name, hname, rfl⟩ := List.mem_map.mp hb
      obtain ⟨w, hw, rfl⟩ := List.mem_map.mp hname
      exact .inl ⟨w, List.mem_of_mem_drop hw, rfl⟩

/-- The body of a function or method starts with declarations. -/
theorem tidy_body {m : Render Unit} (hrun : instruction s i = m >>= fun _ => declareOuter s i)
    (hi : Outside s i ((scope ++ i.outputs) ++ scopes.flatten))
    (h : EntersBody s Q i scope scopes l (m.run l).2) :
    EntersBody s Q i scope scopes l ((instruction s i).run l).2 := by
  have houtside : Outside s i (i.innerOutputs :: (scope ++ i.outputs) :: scopes).flatten := by
    intro o ho v hv
    obtain ⟨hvisible, hrest⟩ := hi o ho v hv
    exact ⟨List.mem_append_right _ hvisible, hrest⟩
  obtain ⟨ht, hg⟩ := tidy_declareOuter h.tidy houtside
  rw [hrun, run_bind]
  exact ⟨ht, h.grown.trans hg.isPrefix⟩

theorem tidy_function {k : Nat} (hop : i.op = .beginPlainFunction k)
    (hr : Ready s i (scope :: scopes)) (h : Tidy s Q i.index (scope :: scopes) l)
    (hi : Outside s i ((scope ++ i.outputs) ++ scopes.flatten)) :
    EntersBody s Q i scope scopes l ((instruction s i).run l).2 := by
  have hrun : instruction s i = (functionNames s i >>= fun x =>
      enter s i.index (.function (x.2.headD (s.nameOf default)) x.1)) >>= fun _ =>
        declareOuter s i := by
    unfold instruction
    rw [hop]
    rfl
  have hall (v : Variable) : v ∈ i.innerOutputs ++ i.outputs ↔ v ∈ i.allOutputs := by
    rw [← i.outputs_append_innerOutputs, List.mem_append, List.mem_append, or_comm]
  refine tidy_body hrun hi ?_
  exact tidy_head_of_no_inputs hr h rfl (by rw [hop]; rfl) names_functionNames hall
    (fun _ => trivial) (declares_function (by rw [hop]; rfl))

theorem tidy_method {name : String} {k : Nat} (hop : i.op = .beginClassMethod name k)
    (hr : Ready s i (scope :: scopes)) (h : Tidy s Q i.index (scope :: scopes) l)
    (hi : Outside s i ((scope ++ i.outputs) ++ scopes.flatten)) :
    EntersBody s Q i scope scopes l ((instruction s i).run l).2 := by
  have hover (P : Name → Prop) :=
    Header.over_method P Q name i.index (i.innerOutputs.map s.nameOf)
  have hrun : instruction s i = (bindNames s i.innerOutputs >>= fun parameters =>
      enter s i.index (.method (if isIdentifier name then name else "m" ++ toString i.index)
        parameters)) >>= fun _ => declareOuter s i := by
    unfold instruction
    rw [hop]
    rfl
  have hout : i.op.shape.outputs = 0 := by rw [hop]; rfl
  generalize (if isIdentifier name then name else "m" ++ toString i.index) = text at hover hrun
  have hdeclares : (Header.method text (i.innerOutputs.map s.nameOf)).Declares s i := by
    refine ⟨?_, ?_, ?_⟩
    · rw [Instruction.outputs_eq_nil hout]
      nofun
    · intro d w hw
      exact List.mem_map_of_mem (List.mem_map_of_mem hw)
    · intro d b hb
      obtain ⟨_, hname, rfl⟩ := List.mem_map.mp hb
      obtain ⟨w, hw, rfl⟩ := List.mem_map.mp hname
      exact .inl ⟨w, List.mem_of_mem_drop hw, rfl⟩
  refine tidy_body hrun hi ?_
  exact tidy_head_of_no_inputs hr h rfl (by rw [hop]; rfl) (names_bindNames _)
    (mem_innerOutputs_iff hout) hover hdeclares

/-! ## All instructions -/

/-- What is assigned to comes first. -/
theorem head?_inputs (h : i.op.assigns = true) : i.inputs.head? = some (i.input 0) := by
  have hmem := Code.input_zero_mem_inputs h
  rw [Instruction.input]
  cases hinputs : i.inputs with
  | nil =>
    rw [hinputs] at hmem
    cases hmem
  | cons v vs => rfl

theorem headD_of_stands {ls : List Line} {d : Nat} {inputs : List (Variable × Slot)} {es : List Expr}
    (h : List.Forall₂ (fun input e => Stands s Q ls d input.1 e) inputs es)
    (hv : (inputs.map Prod.fst).head? = some v)
    (hsingle : (s.code.usage v).isSingleAssignment = false) :
    es.headD .none = .name (s.nameOf v) := by
  cases h with
  | nil => cases hv
  | cons hstands _ =>
    cases hv
    exact hstands.named hsingle

/-- An instruction inside of a body. What it assigns to is written as its name. -/
theorem tidy_ordinary (hblock : i.isBlock = false) (hQ : ∀ text ∈ i.rawTexts, Q text)
    (hr : Ready s i (scope :: scopes)) (h : Tidy s Q i.index (scope :: scopes) l) :
    let l' := ((instruction s i).run l).2
    Tidy s Q (i.index + 1) ((scope ++ i.outputs) :: scopes) l' ∧ l.lines <+: l'.lines ∧
      (i.op.assigns = true →
        ∃ x ∈ l'.lines, x.content.Assigns i.index (.name (s.nameOf (i.input 0)))) := by
  obtain ⟨f, hf⟩ := exists_finish s hblock hQ
  have hin : ∀ input ∈ i.slots,
      input.1 ∈ (scope :: scopes).flatten ∧ 0 < (s.code.usage input.1).uses := by
    intro input hinput
    refine hr.inputs input.1 ?_
    rw [← i.map_fst_slots]
    exact List.mem_map_of_mem hinput
  obtain ⟨ht, hg, hes⟩ := tidy_operands (m := i.index) hr.known h hin
  rw [hf.run, run_bind]
  generalize (operands s i.index i.slots).run l = r at ht hg hes
  obtain ⟨es, l₁⟩ := r
  dsimp only at ht hg hes ⊢
  have hhead (ha : i.op.assigns = true) : es.headD .none = .name (s.nameOf (i.input 0)) := by
    refine headD_of_stands hes ?_ (hr.reassigned ha)
    rw [i.map_fst_slots]
    exact head?_inputs ha
  have htarget : ∀ target, (f es).target? = some target → i.op.assigns = true ∧
      target = .name (s.nameOf (i.input 0)) := by
    intro target hst
    rw [hf.target] at hst
    split at hst
    · rename_i ha
      rw [← Option.some.inj hst]
      exact ⟨ha, hhead ha⟩
    · cases hst
  obtain ⟨ht', hg', hwritten⟩ := tidy_finish hr.mem hr.known ht (hf.inScope (allOver_of_stands hes))
    (hf.outputs es) (fun v hv => hr.fresh v (List.mem_of_mem_take hv)) (hf.binds es) htarget
  refine ⟨ht'.mono (Nat.le_succ _), (hg.trans hg').isPrefix, ?_⟩
  intro ha
  have hst := hf.target es
  rw [if_pos ha, hhead ha] at hst
  exact hwritten _ hst

theorem tidy_end (hrun : instruction s i = exit s i.index) (hsc : Scoped s (scope :: scopes))
    (h : Tidy s Q i.index (scope :: scopes) l) (hne : scopes ≠ []) :
    let l' := ((instruction s i).run l).2
    Tidy s Q (i.index + 1) scopes l' ∧ l.lines <+: l'.lines := by
  rw [hrun]
  obtain ⟨ht, hlines⟩ := tidy_exit (m := i.index) hsc h hne
  exact ⟨ht.mono (Nat.le_succ _), hlines⟩

/-- The end of a switch, which gets a case if it has none. -/
theorem tidy_endSwitch (hop : i.op = .endSwitch) (hi : i ∈ s.code)
    (hsc : Scoped s (scope :: scopes)) (h : Tidy s Q i.index (scope :: scopes) l)
    (hne : scopes ≠ []) :
    let l' := ((instruction s i).run l).2
    Tidy s Q (i.index + 1) scopes l' ∧ l.lines <+: l'.lines := by
  have hleft : Tidy s Q i.index (scope :: scopes) { l with switches := l.switches.tail } :=
    h.congr rfl rfl (List.Subset.refl _) h.declarations
  have hout : i.outputs = [] := Instruction.outputs_eq_nil (by rw [hop]; rfl)
  have hinner : i.innerOutputs = [] := Instruction.innerOutputs_eq_nil_of_shape (by rw [hop]; rfl)
  have hdeclares : Header.caseAny.Declares s i :=
    declares_nothing (by rw [hop]; rfl) (by rw [hop]; rfl) nofun
  rw [run_instruction_endSwitch hop]
  split
  · obtain ⟨hentered, hlines⟩ := tidy_enter hi hsc hleft (by trivial) hdeclares
      (by simp [← i.outputs_append_innerOutputs, hout, hinner])
    rw [hout, hinner, List.append_nil] at hentered
    have hsc' : Scoped s ([] :: scope :: scopes) := ⟨hsc.nodup, hsc.declared⟩
    obtain ⟨hcase, hlines'⟩ := tidy_exit (m := i.index) hsc' hentered (List.cons_ne_nil _ _)
    obtain ⟨hmatch, hlines''⟩ := tidy_exit (m := i.index) hsc hcase hne
    exact ⟨hmatch, (hlines.trans hlines').trans hlines''⟩
  · obtain ⟨hmatch, hlines⟩ := tidy_exit (m := i.index) hsc hleft hne
    exact ⟨hmatch.mono (Nat.le_succ _), hlines⟩

/-- An instruction that ends a block and starts another. -/
theorem tidy_section {inner : List Variable} {m : Render Unit}
    (hrun : instruction s i = exit s i.index >>= fun _ => m)
    (hsc : Scoped s (inner :: scope :: scopes))
    (hm : ∀ {l : Lifting}, Tidy s Q i.index (scope :: scopes) l →
      EntersBody s Q i scope scopes l (m.run l).2)
    (h : Tidy s Q i.index (inner :: scope :: scopes) l) :
    EntersBody s Q i scope scopes l ((instruction s i).run l).2 := by
  obtain ⟨ht, hlines⟩ := tidy_exit (m := i.index) hsc h (List.cons_ne_nil _ _)
  obtain ⟨ht', hlines'⟩ := hm ht
  rw [hrun, run_bind]
  exact ⟨ht', hlines.trans hlines'⟩

theorem tidy_section_plain {inner : List Variable} (hd : Header) (hrun : instruction s i =
      exit s i.index >>= fun _ => pure () >>= fun _ => enter s i.index hd)
    (hinputs : i.op.shape.inputs = 0) (hout : i.op.shape.outputs = 0)
    (hinner : i.op.shape.innerOutputs = 0) (hover : ∀ P : Name → Prop, hd.Over P Q)
    (hbinders : ∀ d, (⟨d, .header hd i.index⟩ : Line).binders = [])
    (hsc : Scoped s (inner :: scope :: scopes)) (hr : Ready s i (scope :: scopes))
    (h : Tidy s Q i.index (inner :: scope :: scopes) l) :
    EntersBody s Q i scope scopes l ((instruction s i).run l).2 := by
  have hdeclares : hd.Declares s i := by
    refine declares_nothing hout hinner fun d b hb => ?_
    simp [hbinders] at hb
  refine tidy_section hrun hsc (fun h => ?_) h
  exact tidy_head_of_no_inputs hr h rfl hinputs (names_pure ())
    (mem_nil_iff_allOutputs hout hinner) hover hdeclares

theorem tidy_catch {inner : List Variable} (hop : i.op = .beginCatch)
    (hsc : Scoped s (inner :: scope :: scopes)) (hr : Ready s i (scope :: scopes))
    (h : Tidy s Q i.index (inner :: scope :: scopes) l) :
    EntersBody s Q i scope scopes l ((instruction s i).run l).2 := by
  have hrun : instruction s i = exit s i.index >>= fun _ => bindNames s i.innerOutputs >>=
      fun errors => enter s i.index (.exceptBlock (errors.headD (s.nameOf default))) := by
    unfold instruction
    rw [hop]
  have hout : i.op.shape.outputs = 0 := by rw [hop]; rfl
  refine tidy_section hrun hsc (fun h => ?_) h
  exact tidy_head_of_no_inputs hr h rfl (by rw [hop]; rfl) (names_bindNames _)
    (mem_innerOutputs_iff hout) (fun _ => trivial)
    (declares_inner (f := Header.exceptBlock) hout (by rw [hop]; rfl) fun _ _ => rfl)

theorem tidy_opens (hs : i.isBlockStart = true) (he : i.isBlockEnd = false)
    (hr : Ready s i (scope :: scopes)) (hi : Outside s i ((scope ++ i.outputs) ++ scopes.flatten))
    (h : Tidy s Q i.index (scope :: scopes) l) :
    EntersBody s Q i scope scopes l ((instruction s i).run l).2 := by
  rw [Instruction.isBlockStart_eq] at hs
  rw [Instruction.isBlockEnd_eq] at he
  cases hop : i.op with
  | beginPlainFunction k => exact tidy_function hop hr h hi
  | beginClassMethod name k => exact tidy_method hop hr h hi
  | beginClassDefinition superclass => exact tidy_class hop hr h
  | beginIf inverted => exact tidy_if hop hr h
  | beginWhileLoop comparator => exact tidy_while hop hr h
  | beginForLoop => exact tidy_for hop hr h
  | beginTry => exact tidy_try hop hr h
  | beginSwitch => exact tidy_switch hop hr h
  | beginSwitchCase => exact tidy_case hop hr h
  | beginSwitchDefaultCase => exact tidy_default hop hr h
  | _ => simp [hop] at hs he

theorem tidy_continues {inner : List Variable} (hs : i.isBlockStart = true)
    (he : i.isBlockEnd = true) (hsc : Scoped s (inner :: scope :: scopes))
    (hr : Ready s i (scope :: scopes)) (h : Tidy s Q i.index (inner :: scope :: scopes) l) :
    EntersBody s Q i scope scopes l ((instruction s i).run l).2 := by
  rw [Instruction.isBlockStart_eq] at hs
  rw [Instruction.isBlockEnd_eq] at he
  cases hop : i.op with
  | beginElse =>
    refine tidy_section_plain .otherwise ?_ (by rw [hop]; rfl) (by rw [hop]; rfl)
      (by rw [hop]; rfl) (fun _ => trivial) (fun _ => rfl) hsc hr h
    unfold instruction
    rw [hop]
    rfl
  | beginFinally =>
    refine tidy_section_plain .finallyBlock ?_ (by rw [hop]; rfl) (by rw [hop]; rfl)
      (by rw [hop]; rfl) (fun _ => trivial) (fun _ => rfl) hsc hr h
    unfold instruction
    rw [hop]
    rfl
  | beginCatch => exact tidy_catch hop hsc hr h
  | _ => simp [hop] at hs he

theorem tidy_closes {inner : List Variable} (hs : i.isBlockStart = false)
    (he : i.isBlockEnd = true) (hi : i ∈ s.code) (hsc : Scoped s (inner :: scope :: scopes))
    (h : Tidy s Q i.index (inner :: scope :: scopes) l) :
    let l' := ((instruction s i).run l).2
    Tidy s Q (i.index + 1) ((scope ++ i.outputs) :: scopes) l' ∧ l.lines <+: l'.lines := by
  have hout : i.op.shape.outputs = 0 := by
    rw [Instruction.isBlockEnd_eq] at he
    cases hop : i.op <;> rw [hop] at he <;> first | rfl | cases he
  rw [Instruction.outputs_eq_nil hout, List.append_nil]
  by_cases hop : i.op = .endSwitch
  · exact tidy_endSwitch hop hi hsc h (List.cons_ne_nil _ _)
  · exact tidy_end (ends_of_isBlockEnd hs he hop) hsc h (List.cons_ne_nil _ _)

/-- An instruction leads from the scopes before it to those after it, and writes what it assigns to as
its name. -/
theorem tidy_step {p : Code.Progress} (hp : p.Balanced) (ha : p.Admits n i)
    (hsc : Scoped s p.scopes) (hr : Ready s i (p.outerScopes i)) (hi : Outside s i (p.around i))
    (hQ : ∀ text ∈ i.rawTexts, Q text) (h : Tidy s Q i.index p.scopes l) :
    let l' := ((instruction s i).run l).2
    Tidy s Q (i.index + 1) (p.after i).scopes l' ∧ l.lines <+: l'.lines ∧
      (i.op.assigns = true →
        ∃ x ∈ l'.lines, x.content.Assigns i.index (.name (s.nameOf (i.input 0)))) := by
  obtain ⟨scope, scopes, ho⟩ := List.exists_cons_of_ne_nil (hp.outerScopes_ne_nil ha.closes)
  have hafter : (p.after i).scopes = if i.isBlockStart then
      i.innerOutputs :: (scope ++ i.outputs) :: scopes else (scope ++ i.outputs) :: scopes := by
    unfold Code.Progress.after
    rw [ho]
    rfl
  have hinner (he : i.isBlockEnd = true) : ∃ inner, p.scopes = inner :: scope :: scopes := by
    rw [Code.Progress.outerScopes, if_pos he] at ho
    cases hscopes : p.scopes with
    | nil =>
      rw [hscopes] at ho
      cases ho
    | cons inner rest =>
      rw [hscopes] at ho
      exact ⟨inner, congrArg _ ho⟩
  have hplain (he : i.isBlockEnd = false) : p.scopes = scope :: scopes := by
    rw [Code.Progress.outerScopes, he] at ho
    exact ho
  have hblock (h : i.isBlockStart = true ∨ i.isBlockEnd = true) : i.op.assigns ≠ true := by
    intro hassigns
    obtain ⟨hs, he⟩ := Code.not_isBlock_of_assigns hassigns
    rw [hs, he] at h
    simp at h
  rw [ho] at hr
  rw [Code.Progress.around, hafter] at hi
  rw [hafter]
  cases hs : i.isBlockStart <;> cases he : i.isBlockEnd
  · rw [hplain he] at h
    exact tidy_ordinary (by rw [Instruction.isBlock, hs, he]; rfl) hQ hr h
  · obtain ⟨inner, hscopes⟩ := hinner he
    rw [hscopes] at h hsc
    obtain ⟨ht, hlines⟩ := tidy_closes hs he hr.mem hsc h
    exact ⟨ht, hlines, fun hassigns => absurd hassigns (hblock (.inr he))⟩
  · rw [hplain he] at h
    rw [if_pos hs] at hi
    obtain ⟨ht, hlines⟩ := tidy_opens hs he hr hi h
    exact ⟨ht, hlines, fun hassigns => absurd hassigns (hblock (.inl hs))⟩
  · obtain ⟨inner, hscopes⟩ := hinner he
    rw [hscopes] at h hsc
    obtain ⟨ht, hlines⟩ := tidy_continues hs he hsc hr h
    exact ⟨ht, hlines, fun hassigns => absurd hassigns (hblock (.inl hs))⟩

end Render
end Python
end ScriptFuzz
