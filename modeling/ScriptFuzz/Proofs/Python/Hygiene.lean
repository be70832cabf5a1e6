import ScriptFuzz.Proofs.Python.ReadOrder
import ScriptFuzz.Proofs.Python.ScopedBlocks

/-!
# Hygiene of names

In the source of a checked program every name is bound before it is used, in a block that is still open,
and what assigns to a variable assigns to its name. Temporaries and captures are new where they are bound.
-/

namespace ScriptFuzz

set_option autoImplicit false

namespace Python.Render

variable {s : Subject} {Q : String → Prop} {l : Lifting} {pre is : Code} {i : Instruction}
  {p q : Code.Progress}

/-- The check and rendering have come past the instructions `pre`. -/
structure Past (s : Subject) (Q : String → Prop) (pre : Code) (p : Code.Progress)
    (l : Lifting) : Prop where
  run : ({} : Code.Progress).run 0 pre = .ok p
  balanced : p.Balanced
  numbered : p.SeesNumbered
  distinct : p.Distinct
  declared : p.SeesDeclared s.code
  tidy : Tidy s Q pre.length p.scopes l

theorem past_start (declarations : List (Nat × OuterAssignments))
    (h : declarations = s.code.outerAssignments) :
    Past s Q [] {} { declarations := declarations } := by
  refine ⟨rfl, Code.Progress.balanced_start, Code.Progress.seesNumbered_start, List.nodup_nil, ?_, ?_⟩
  · intro v hv
    cases hv
  · refine ⟨rfl, orderly_nil, ?_, ⟨?_, trivial⟩, ?_, ?_⟩
    · intro x hx
      cases hx
    · intro v hv
      cases hv
    · intro v hv
      cases hv
    · intro k o ho
      rw [← h]
      exact ho

theorem Past.scoped (h : Past s Q pre p l) : Scoped s p.scopes := ⟨h.distinct, h.declared⟩

theorem Past.noted (h : Past s Q pre p l) (wanted : Bool) (text : Option String) :
    Past s Q pre p ((note wanted text).run l).2 ∧
      l.lines <+: ((note wanted text).run l).2.lines := by
  obtain ⟨ht, hg⟩ := tidy_note h.tidy wanted text
  exact ⟨{ h with tidy := ht }, hg.isPrefix⟩

/-- What the check knows of the next instruction. -/
theorem Past.ready (h : Past s Q pre p l) (ha : p.Admits pre.length i) (hi : i ∈ s.code)
    (hn : s.code.Numbered 0) : Ready s i (p.outerScopes i) := by
  have hsub : (p.outerScopes i).flatten.Sublist p.scopes.flatten :=
    Code.Progress.flatten_outerScopes_sublist
  refine ⟨hi, ⟨h.distinct.sublist hsub, fun v hv => h.declared v (hsub.subset hv)⟩, ?_, ?_, ?_⟩
  · exact fun v hv => ⟨ha.mem_outerScopes hv, Code.uses_pos hn hi hv⟩
  · exact fun v hv => ha.not_mem_outerScopes h.numbered hv
  · exact Code.isSingleAssignment_of_assigns hn hi

theorem Past.outside (h : Past s Q pre p l) (hcode : s.code = pre ++ i :: is)
    (hrun : ({} : Code.Progress).run 0 s.code = .ok q) (hn : s.code.Numbered 0) :
    Outside s i (p.around i) := by
  intro o ho v hv
  obtain ⟨hvisible, j, hj, ha, rfl⟩ := Code.around_of_outerAssignments hrun hcode h.run ho hv
  exact ⟨hvisible, Code.uses_pos hn hj (Code.input_zero_mem_inputs ha),
    Code.isSingleAssignment_of_assigns hn hj ha⟩

theorem Past.step (h : Past s Q pre p l) (ha : p.Admits pre.length i)
    (hcode : s.code = pre ++ i :: is) (hrun : ({} : Code.Progress).run 0 s.code = .ok q)
    (hQ : ∀ text ∈ i.rawTexts, Q text) :
    let l' := ((instruction s i).run l).2
    Past s Q (pre ++ [i]) (p.after i) l' ∧ l.lines <+: l'.lines ∧
      (i.op.assigns = true →
        ∃ x ∈ l'.lines, x.content.Assigns i.index (.name (s.nameOf (i.input 0)))) := by
  have hn : s.code.Numbered 0 :=
    Code.Progress.numbered_of_run Code.Progress.balanced_start Code.Progress.seesNumbered_start hrun
  have hi : i ∈ s.code := by
    rw [hcode]
    exact List.mem_append_right _ List.mem_cons_self
  have hindex := ha.index
  obtain ⟨ht, hlines, hassigns⟩ := tidy_step h.balanced ha h.scoped (h.ready ha hi hn)
    (h.outside hcode hrun hn) hQ (hindex ▸ h.tidy)
  have hrun' := Code.Progress.run_append_admitted h.run h.balanced ha
  refine ⟨⟨hrun', h.balanced.after ha, h.numbered.after ha,
    h.distinct.after h.balanced h.numbered ha, h.declared.after h.balanced ha hi, ?_⟩, hlines,
    hassigns⟩
  rw [List.length_append, List.length_singleton, ← hindex]
  exact ht

theorem Past.rest (wanted : Bool) (texts : Nat → Option String) (h : Past s Q pre p l)
    (hcode : s.code = pre ++ is)
    (hrun : ({} : Code.Progress).run 0 s.code = .ok q)
    (hQ : ∀ i ∈ s.code, ∀ text ∈ i.rawTexts, Q text) :
    let l' := ((instructions s wanted texts is).run l).2
    Past s Q s.code q l' ∧ l.lines <+: l'.lines ∧ ∀ i ∈ is, i.op.assigns = true →
      ∃ x ∈ l'.lines, x.content.Assigns i.index (.name (s.nameOf (i.input 0))) := by
  -- The lines so far are a start of all lines, so what was assigned there stays.
  induction is generalizing pre p l with
  | nil =>
    rw [List.append_nil] at hcode
    have hq : p = q := by
      have := h.run
      rw [← hcode, hrun] at this
      exact (Except.ok.inj this).symm
    rw [hcode, ← hq]
    exact ⟨h, List.prefix_refl _, nofun⟩
  | cons i is ih =>
    have hrun' := hrun
    rw [hcode, Code.Progress.run_append_eq_ok_iff] at hrun'
    obtain ⟨p', hpre, hrest⟩ := hrun'
    cases Except.ok.inj (hpre.symm.trans h.run)
    rw [Nat.zero_add] at hrest
    obtain ⟨ha, -⟩ := (Code.Progress.run_cons_eq_ok_iff h.balanced).mp hrest
    have hi : i ∈ s.code := by
      rw [hcode]
      exact List.mem_append_right _ List.mem_cons_self
    obtain ⟨hnoted, hlines⟩ := h.noted wanted (texts i.index)
    obtain ⟨hstep, hlines', hassigns⟩ := hnoted.step ha hcode hrun (hQ i hi)
    obtain ⟨hend, hlines'', hlater⟩ := ih hstep (by rw [hcode, List.append_assoc]; rfl)
    refine ⟨hend, (hlines.trans hlines').trans hlines'', List.forall_mem_cons.mpr ⟨?_, hlater⟩⟩
    intro hi
    obtain ⟨x, hx, hassign⟩ := hassigns hi
    exact ⟨x, hlines''.subset hx, hassign⟩

theorem Past.finish (h : Past s Q pre p l) (n : Nat) (wanted : Bool) (text : Option String) :
    let l' := ((do drain s n; note wanted text : Render Unit).run l).2
    Orderly s Q l'.lines ∧ l.lines <+: l'.lines := by
  obtain ⟨scope, scopes, hscopes⟩ := List.exists_cons_of_length_pos (l := p.scopes) (by
    rw [h.balanced.scopes]
    exact Nat.succ_pos _)
  have hsc := h.scoped
  have ht := h.tidy
  rw [hscopes] at hsc ht
  obtain ⟨ht', hg⟩ := tidy_drain (m := n) hsc ht
  obtain ⟨ht'', hg'⟩ := tidy_note ht' wanted text
  exact ⟨ht''.orderly, hg.isPrefix.trans hg'.isPrefix⟩

end Python.Render

open Python Python.Render

/-- Every line of a checked program fits behind the lines before it, and whatever is assigned to is
assigned to under its name. -/
theorem Program.orderly_layout {Q : String → Prop} (p : Program) (annotations : Annotations)
    (h : p.code.check = .ok ()) (hQ : ∀ i ∈ p.code, ∀ text ∈ i.rawTexts, Q text) :
    let s := Subject.ofCode p.code
    let ls := (p.layout annotations).lines.toList
    Orderly s Q ls ∧ ∀ i ∈ p.code, i.op.assigns = true →
      ∃ x ∈ ls, x.content.Assigns i.index (.name (s.nameOf (i.input 0))) := by
  obtain ⟨q, hrun, -⟩ := Code.check_eq_ok_iff_run.mp h
  let s : Subject := .ofCode p.code
  obtain ⟨hnoted, -⟩ := (past_start (s := s) (Q := Q) p.code.outerAssignments rfl).noted
    annotations.comments p.comments.header
  obtain ⟨hend, -, hassigns⟩ := hnoted.rest annotations.comments p.comments.get?
    (show s.code = [] ++ p.code from rfl) hrun hQ
  obtain ⟨horderly, hlines⟩ := hend.finish ((s.code.getLast?.map (·.index)).getD 0)
    annotations.comments p.comments.footer
  refine ⟨horderly, ?_⟩
  intro i hi ha
  obtain ⟨x, hx, hassign⟩ := hassigns i hi ha
  exact ⟨x, hlines.subset hx, hassign⟩

namespace Python

/-- An identifier that rendering may make up for the program in a source of `lines` lines. -/
inductive Generates (p : Program) (lines : Nat) : String → Prop where
  | ofVariable (role : Role) (v : Variable) (hv : v.number < p.code.numVariables) :
    Generates p lines (Name.variable role v).text
  | temporary (k : Nat) (hk : k < lines) : Generates p lines (Name.temporary k).text
  | capture (k : Nat) (hk : k < p.code.length) : Generates p lines (Name.capture k).text
  | method (k : Nat) (hk : k < p.code.length) : Generates p lines ("m" ++ toString k)

/-- The first letters of the names that rendering makes up. -/
def generatedLetters : List Char := ['v', 'f', 'C', 's', 'a', 'e', 'i', 't', 'c', 'm']

theorem Name.letter_mem (n : Name) : n.letter ∈ generatedLetters := by
  rcases n with ⟨role, v⟩ | k | k
  · cases role <;> simp [letter, generatedLetters]
  · simp [letter, generatedLetters]
  · simp [letter, generatedLetters]

theorem Generates.exists_letter {p : Program} {lines : Nat} {w : String}
    (h : Generates p lines w) : ∃ c ∈ w.toList.head?, c ∈ generatedLetters := by
  have hname (n : Name) : ∃ c ∈ n.text.toList.head?, c ∈ generatedLetters := by
    rw [n.toList_text]
    exact ⟨n.letter, rfl, n.letter_mem⟩
  cases h with
  | ofVariable role v hv => exact hname _
  | temporary k hk => exact hname _
  | capture k hk => exact hname _
  | method k hk =>
    rw [String.toList_append]
    exact ⟨'m', rfl, by simp [generatedLetters]⟩

/-- The identifiers that stand for variables in a line, and the names that it binds. -/
def Line.vocabulary (words : String → List String) (x : Line) : List String :=
  x.content.identifiers words ++ x.binders.map fun b => b.2.text

/-- The lines of a program name its variables as they should; `words` are the identifiers in the path of
a builtin or in raw code. -/
structure Hygienic (p : Program) (words : String → List String) (ls : List Line) : Prop where
  distinct : ∀ v w, ((Subject.ofCode p.code).nameOf v).text =
    ((Subject.ofCode p.code).nameOf w).text → v = w
  introduced : ∀ a x b, ls = a ++ x :: b → ∀ c ∈ x.binders,
    (Subject.ofCode p.code).Introduces a.length c.2
  /-- A temporary or a capture is new where it is bound. -/
  fresh : ∀ a x b, ls = a ++ x :: b → ∀ c ∈ x.binders, c.2.isAuxiliary = true →
    ∀ y ∈ a, c.2.text ∉ y.vocabulary words
  /-- What is used is bound before, in a block that is still open. -/
  bound : ∀ a x b, ls = a ++ x :: b → ∀ y ∈ x.content.identifiers words,
    Generates p ls.length y → ∃ n, n.text = y ∧ BoundBefore a x n
  /-- A variable that is assigned again is assigned to under its own name, and nothing else is. -/
  assigns : ∀ k target, (∃ x ∈ ls, x.content.Assigns k target) ↔ ∃ i ∈ p.code, i.index = k ∧
    i.op.assigns = true ∧ target = .name ((Subject.ofCode p.code).nameOf (i.input 0))
  /-- No temporary stands for a name. -/
  named : ∀ x ∈ ls, ∀ target e n, x.content = .statement (.bind target e) n →
    target.isAuxiliary = true → e.isName = false

variable {p : Program} {s : Subject} {Q : String → Prop} {words : String → List String}
  {ls a b : List Line} {x y : Line} {n : Name} {d d' : Nat}

/-- A temporary or a capture is not bound before. -/
theorem Orderly.not_mem_binders (h : Orderly s Q ls) (hls : ls = a ++ x :: b)
    (hx : (d, n) ∈ x.binders) (hn : n.isAuxiliary = true) (hy : y ∈ a) : (d', n) ∉ y.binders := by
  intro hy'
  have hfits := h a x b hls
  rcases n with ⟨role, v⟩ | k | k
  · cases hn
  · have hline {a b : List Line} {x : Line} {d : Nat} (hls : ls = a ++ x :: b)
        (hx : (d, Name.temporary k) ∈ x.binders) : k = a.length := by
      have hintro := (h a x b hls).introduces _ hx
      generalize hk : (d, Name.temporary k).2 = name at hintro
      cases hintro with
      | ofVariable hi hv => cases hk
      | temporary => exact Name.temporary.inj hk
      | capture hi => cases hk
    obtain ⟨a₁, a₂, rfl⟩ := List.append_of_mem hy
    have hsplit : ls = a₁ ++ y :: (a₂ ++ x :: b) := by simpa using hls
    have h₁ := hline hls hx
    have h₂ := hline hsplit hy'
    rw [List.length_append, List.length_cons] at h₁
    omega
  · exact hfits.fresh _ hx k rfl y hy _ hy' rfl

/-- Where every use of its text comes with a binding before, the name does not occur before. -/
theorem Orderly.not_mem_vocabulary (h : Orderly s Q ls) (hls : ls = a ++ x :: b)
    (hx : (d, n) ∈ x.binders) (hn : n.isAuxiliary = true)
    (huse : ∀ y ∈ a, n.text ∈ y.content.identifiers words → ∃ z ∈ a, ∃ k, (k, n) ∈ z.binders)
    (hy : y ∈ a) : n.text ∉ y.vocabulary words := by
  intro hin
  rcases List.mem_append.mp hin with hin | hin
  · obtain ⟨z, hz, k, hbinder⟩ := huse y hy hin
    exact h.not_mem_binders hls hx hn hz hbinder
  · obtain ⟨⟨k, n'⟩, hbinder, htext⟩ := List.mem_map.mp hin
    have hname : n' = n := Name.text_injective htext
    rw [hname] at hbinder
    exact h.not_mem_binders hls hx hn hy hbinder

/-- What is bound before a line is used is bound by a line up to this one. -/
theorem BoundBefore.exists_binder (h : BoundBefore a x n) :
    ∃ y ∈ a ++ [x], ∃ d, (d, n) ∈ y.binders := by
  cases h with
  | line h =>
    obtain ⟨a₁, y, a₂, d, rfl, hy⟩ := h.exists_binder
    exact ⟨y, by simp, d, hy⟩
  | pattern h =>
    refine ⟨x, by simp, x.depth + 1, ?_⟩
    unfold Line.binders
    rw [h]
    exact List.mem_singleton_self _

/-- A temporary or a capture that a line introduces is made up for the program. -/
theorem generates_of_introduces {k lines : Nat} (h : p.code.check = .ok ())
    (hn : (Subject.ofCode p.code).Introduces k n) (haux : n.isAuxiliary = true) (hk : k < lines) :
    Generates p lines n.text := by
  cases hn with
  | ofVariable hi hv => cases haux
  | temporary => exact .temporary k hk
  | capture hi => exact .capture _ (List.getElem?_eq_some_iff.mp (Code.getElem?_index h hi)).1

end Python

/-- Rendering a checked program is hygienic, if its raw texts do not use the names that are made up for
it. A variable that is assigned again is read under its name, wherever it is an input. -/
theorem Program.hygienic_layout (p : Program) (annotations : Annotations)
    (words : String → List String) (h : p.code.check = .ok ())
    (hraw : ∀ i ∈ p.code, ∀ text ∈ i.rawTexts, ∀ w ∈ words text,
      ¬ Generates p (p.layout annotations).lines.size w) :
    Hygienic p words (p.layout annotations).lines.toList ∧
      ∀ i ∈ p.code, ∀ j ∈ p.code, j.op.assigns = true →
        ((p.layout annotations).trace.map Prod.snd).count (.reads i.index (j.input 0)) =
          (i.reading i.inputs).count (j.input 0) := by
  obtain ⟨q, hrun, -⟩ := Code.check_eq_ok_iff_run.mp h
  have hnumbered := Code.Progress.numbered_of_run Code.Progress.balanced_start
    Code.Progress.seesNumbered_start hrun
  obtain ⟨horderly, hassigned⟩ := p.orderly_layout annotations h hraw
  rw [← Array.length_toList] at horderly
  generalize (p.layout annotations).lines.toList = ls at horderly hassigned
  have hbound (a : List Line) (x : Line) (b : List Line) (hls : ls = a ++ x :: b) (y : String)
      (hy : y ∈ x.content.identifiers words) (hg : Generates p ls.length y) :
      ∃ n, n.text = y ∧ BoundBefore a x n := by
    rcases Content.arises (horderly a x b hls).inScope hy with ⟨n, hn, htext⟩ | ⟨text, htext, hw⟩
    · exact ⟨n, htext, hn⟩
    · exact absurd hg (htext y hw)
  refine ⟨⟨?_, ?_, ?_, hbound, ?_, ?_⟩, ?_⟩
  · intro v w hvw
    exact (Name.variable.inj (Name.text_injective hvw)).2
  · exact fun a x b hls => (horderly a x b hls).introduces
  · rintro a x b hls ⟨d, n⟩ hx haux y hy
    refine horderly.not_mem_vocabulary hls hx haux ?_ hy
    intro y hy hin
    obtain ⟨a₁, a₂, rfl⟩ := List.append_of_mem hy
    have hg : Generates p ls.length n.text := by
      refine generates_of_introduces h ((horderly _ x b hls).introduces _ hx) haux ?_
      have hlength := congrArg List.length hls
      rw [List.length_append, List.length_cons] at hlength
      omega
    have hls' : ls = a₁ ++ y :: (a₂ ++ x :: b) := by simpa using hls
    obtain ⟨n', htext, hbefore⟩ := hbound a₁ y _ hls' _ hin hg
    rw [Name.text_injective htext] at hbefore
    obtain ⟨z, hz, hbinder⟩ := hbefore.exists_binder
    refine ⟨z, ?_, hbinder⟩
    rcases List.mem_append.mp hz with hz | hz
    · exact List.mem_append_left _ hz
    · rw [List.mem_singleton.mp hz]
      exact hy
  · intro k target
    constructor
    · rintro ⟨x, hx, hassign⟩
      obtain ⟨a, b, hls⟩ := List.append_of_mem hx
      exact (horderly a x b hls).assigns k target hassign
    · rintro ⟨i, hi, rfl, ha, rfl⟩
      exact hassigned i hi ha
  · intro x hx
    obtain ⟨a, b, hls⟩ := List.append_of_mem hx
    exact (horderly a x b hls).named
  · intro i hi j hj ha
    obtain ⟨l, l₁, hreads, -⟩ := p.exists_readsFrom annotations h hi
    exact hreads.count (Code.isSingleAssignment_of_assigns hnumbered hj ha)

/-- A text is called, and a function changes a variable of the module. -/
def Program.changesOutside : Program where
  id := default
  code := .ofRows [
    (.loadInteger 1, [0]),
    (.loadString "queue", [1]),
    (.callFunction 0, [1, 2]),
    (.beginPlainFunction 1, [3, 4]),
    (.update .add, [0, 4]),
    (.beginSwitch, [4]),
    (.beginSwitchCase, [0]),
    (.eval "run(%@)" 1, [0]),
    (.endSwitchCase, []),
    (.endSwitch, []),
    (.endPlainFunction, []),
    (.print, [2])]

/-- The parts of a text between its other characters. -/
def Python.alphanumericParts (text : String) : List String :=
  (text.toList.splitOnP fun c => !c.isAlphanum).map String.ofList

theorem Program.hygienic_layout_changesOutside :
    changesOutside.code.check = .ok () ∧
      (∀ i ∈ changesOutside.code, ∀ text ∈ i.rawTexts, ∀ w ∈ alphanumericParts text,
        ¬ Generates changesOutside (changesOutside.layout {}).lines.size w) ∧
      Hygienic changesOutside alphanumericParts (changesOutside.layout {}).lines.toList ∧
      ((changesOutside.layout {}).trace.map Prod.snd).count (.reads 7 ⟨0⟩) = 1 := by
  have hraw : ∀ i ∈ changesOutside.code, ∀ text ∈ i.rawTexts, ∀ w ∈ alphanumericParts text,
      ¬ Generates changesOutside (changesOutside.layout {}).lines.size w := by
    intro i hi text htext w hw hg
    have hother : ∀ i ∈ changesOutside.code, ∀ text ∈ i.rawTexts, ∀ w ∈ alphanumericParts text,
        (w.toList.head?.all fun c => decide (c ∉ generatedLetters)) = true := by decide
    obtain ⟨c, hc, hletter⟩ := hg.exists_letter
    have hapart := hother i hi text htext w hw
    rw [Option.mem_def.mp hc] at hapart
    exact of_decide_eq_true hapart hletter
  obtain ⟨hnames, hreads⟩ := hygienic_layout changesOutside {} alphanumericParts rfl hraw
  refine ⟨rfl, hraw, hnames, ?_⟩
  exact hreads ⟨.eval "run(%@)" 1, [⟨0⟩], 7, rfl⟩ (by decide)
    ⟨.update .add, [⟨0⟩, ⟨4⟩], 4, rfl⟩ (by decide) rfl

end ScriptFuzz
