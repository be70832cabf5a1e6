import ScriptFuzz.Proofs.Python.Hygiene
import ScriptFuzz.Proofs.Python.Placement

/-!
# Declarations of outer variables

In the source of a checked program the body of a function or method starts with the declarations of the
outer variables to which it assigns, and these are declared nowhere else. So every assignment stands in the
function or method in which its variable is declared, or in one that declares it global or nonlocal
(`Program.keepsScopes_layout`). Raw code is written as it is, and may assign without that.
-/

namespace ScriptFuzz

set_option autoImplicit false

namespace Python

/-- The lines that declare outer variables for the function or method at position `k`. -/
def declarationLines (s : Subject) (d k : Nat) (o : OuterAssignments) : List Line :=
  let names (numbers : List Nat) : List Name := numbers.map fun n => s.nameOf ⟨n⟩
  (if o.globals.isEmpty then [] else [⟨d, .statement (.globals (names o.globals)) k⟩]) ++
    if o.nonlocals.isEmpty then [] else [⟨d, .statement (.nonlocals (names o.nonlocals)) k⟩]

/-- The header of the function or method at position `k`, and the declarations right behind it. -/
def frameLines (s : Subject) (d k : Nat) (hd : Header) (o : OuterAssignments) : List Line :=
  ⟨d, .header hd k⟩ :: declarationLines s (d + 1) k o

/-- Among the lines, the function or method at position `k` has one header, right behind it the
declarations of the outer variables `o`, and no other declarations. -/
def Announces (s : Subject) (ls : List Line) (k : Nat) (o : OuterAssignments) : Prop :=
  ∃ d hd before after, hd.opensFrame = true ∧ ls = before ++ (frameLines s d k hd o ++ after) ∧
    ∀ x ∈ before ++ after, x.content.frame? ≠ some k

section

variable {s : Subject} {ls ms : List Line} {d k : Nat} {hd : Header} {o : OuterAssignments} {x : Line}

theorem Announces.append (h : Announces s ls k o) (hms : ∀ x ∈ ms, x.content.frame? ≠ some k) :
    Announces s (ls ++ ms) k o := by
  obtain ⟨d, hd, before, after, hframe, rfl, hothers⟩ := h
  refine ⟨d, hd, before, after ++ ms, hframe, by simp, ?_⟩
  rw [← List.append_assoc]
  exact List.forall_mem_append.mpr ⟨hothers, hms⟩

theorem announces_frameLines (hframe : hd.opensFrame = true)
    (hls : ∀ x ∈ ls, x.content.frame? ≠ some k) :
    Announces s (ls ++ frameLines s d k hd o) k o := by
  refine ⟨d, hd, ls, [], hframe, by rw [List.append_nil], ?_⟩
  rwa [List.append_nil]

theorem frame?_of_declarationLines (hx : x ∈ declarationLines s d k o) :
    x.content.frame? = some k := by
  unfold declarationLines at hx
  dsimp only at hx
  rcases List.mem_append.mp hx with hx | hx
  · split at hx
    · cases hx
    · rw [List.mem_singleton.mp hx]
      rfl
  · split at hx
    · cases hx
    · rw [List.mem_singleton.mp hx]
      rfl

theorem frame?_of_frameLines (hframe : hd.opensFrame = true) (hx : x ∈ frameLines s d k hd o) :
    x.content.frame? = some k := by
  rcases List.mem_cons.mp hx with rfl | hx
  · cases hd <;> first | rfl | cases hframe
  · exact frame?_of_declarationLines hx

theorem Announces.exists_line (h : Announces s ls k o) : ∃ x ∈ ls, x.content.frame? = some k := by
  obtain ⟨d, hd, before, after, hframe, rfl, -⟩ := h
  have hheader : (⟨d, .header hd k⟩ : Line) ∈ frameLines s d k hd o := List.mem_cons_self
  refine ⟨_, ?_, frame?_of_frameLines hframe hheader⟩
  exact List.mem_append_right _ (List.mem_append_left _ hheader)

end

namespace Render

variable {s : Subject} {l l' : Lifting} {i : Instruction} {pre rest : Code} {path : List Nat}

/-! ## The start of a body -/

/-- A declaration that may be missing. -/
theorem beside_writeUnless {n : Nat} (st : Statement) (b : Bool) (h : Beside s path l)
    (hbind : ∀ target e, st ≠ .bind target e) (htarget : st.target? = none) :
    let l' := ((if (!b) = true then write n st else pure () : Render Unit).run l).2
    Beside s path l' ∧
      l'.lines = l.lines ++ (if b = true then [] else [⟨path.length, .statement st n⟩]) ∧
      l'.declarations = l.declarations := by
  cases b with
  | true => exact ⟨h, (List.append_nil _).symm, rfl⟩
  | false =>
    obtain ⟨h', hlines⟩ := beside_write (n := n) h (fun v e hst => absurd hst (hbind _ e))
      (fun hne => absurd htarget hne)
    have hdepth : l.layout.depth = path.length := by
      rw [← length_path h, blocksAt_lines h]
    rw [hdepth] at hlines
    exact ⟨h', hlines, rfl⟩

/-- The declarations at the start of a body are those that were found. -/
theorem beside_declareOuter (h : Beside s path l) :
    let l' := ((declareOuter s i).run l).2
    Beside s path l' ∧
      l'.lines = l.lines ++
        declarationLines s path.length i.index ((l.declarations.lookup i.index).getD {}) ∧
      ∀ k, k ≠ i.index → l'.declarations.lookup k = l.declarations.lookup k := by
  cases hlookup : l.declarations.lookup i.index with
  | none =>
    unfold declareOuter
    rw [run_get_bind, hlookup]
    exact ⟨h, (List.append_nil _).symm, fun _ _ => rfl⟩
  | some o =>
    let names (numbers : List Nat) : List Name := numbers.map fun n => s.nameOf ⟨n⟩
    let first : Render Unit :=
      if (!o.globals.isEmpty) = true then write i.index (.globals (names o.globals)) else pure ()
    let second : Render Unit :=
      if (!o.nonlocals.isEmpty) = true then write i.index (.nonlocals (names o.nonlocals))
      else pure ()
    -- What is declared is forgotten, and then written.
    have hrun : ∃ left, (∀ k, k ≠ i.index → left.lookup k = l.declarations.lookup k) ∧
        ((declareOuter s i).run l).2 =
          (second.run (first.run { l with declarations := left }).2).2 := by
      refine ⟨_, fun k hk => lookup_filter_of_ne hk, ?_⟩
      unfold declareOuter first
      rw [run_get_bind, hlookup]
      dsimp only
      rw [run_bind]
      by_cases hempty : (!o.globals.isEmpty) = true
      · rw [if_pos hempty, if_pos hempty]
        rfl
      · rw [if_neg hempty, if_neg hempty]
        rfl
    obtain ⟨left, hleft, hrun⟩ := hrun
    have h₀ : Beside s path { l with declarations := left } := ⟨h.path, h.sound, h.placed, h.waiting⟩
    obtain ⟨h₁, hlines₁, hdeclarations₁⟩ := beside_writeUnless (n := i.index)
      (.globals (names o.globals)) o.globals.isEmpty h₀ nofun rfl
    obtain ⟨h₂, hlines₂, hdeclarations₂⟩ := beside_writeUnless (n := i.index)
      (.nonlocals (names o.nonlocals)) o.nonlocals.isEmpty h₁ nofun rfl
    rw [hrun]
    refine ⟨h₂, ?_, ?_⟩
    · refine hlines₂.trans ?_
      rw [hlines₁, List.append_assoc]
      rfl
    · intro k hk
      exact (congrArg (List.lookup k) (hdeclarations₂.trans hdeclarations₁)).trans (hleft k hk)

theorem mem_parameters {d : Nat} {x : Nat × Name}
    (hx : x ∈ (i.innerOutputs.map s.nameOf).map (Prod.mk d)) :
    ∃ v ∈ i.innerOutputs, x = (d, s.nameOf v) := by
  obtain ⟨name, hname, rfl⟩ := List.mem_map.mp hx
  obtain ⟨v, hv, rfl⟩ := List.mem_map.mp hname
  exact ⟨v, hv, rfl⟩

theorem places_function (hcheck : s.code.check = .ok ()) (hi : i ∈ s.code)
    (hs : i.isBlockStart = true) (hframe : i.op.opensFrame = true) (hout : i.op.shape.outputs = 1) :
    (Header.function ((i.outputs.map s.nameOf).headD (s.nameOf default))
      (i.innerOutputs.map s.nameOf)).Places s (s.code.blocksAround i) i.index := by
  refine places_of_binders hcheck hi hs hframe.symm fun d b hb => ?_
  rcases List.mem_cons.mp hb with hb | hb
  · obtain ⟨v, hv, hname⟩ := exists_output_name (s := s) hout
    exact .inl ⟨v, hv, hname ▸ hb⟩
  · exact .inr (mem_parameters hb)

theorem places_method (hcheck : s.code.check = .ok ()) (hi : i ∈ s.code)
    (hs : i.isBlockStart = true) (hframe : i.op.opensFrame = true) (text : String) :
    (Header.method text (i.innerOutputs.map s.nameOf)).Places s (s.code.blocksAround i) i.index :=
  places_of_binders hcheck hi hs hframe.symm fun _ _ hb => .inr (mem_parameters hb)

/-- What starts a function or method names its variables, writes the header, and then the declarations. -/
theorem exists_frame_head (hcheck : s.code.check = .ok ()) (hi : i ∈ s.code)
    (hframe : i.op.opensFrame = true) : ∃ hd vs, ∃ q : Render Header, Names s vs q hd ∧
      instruction s i = (q >>= enter s i.index) >>= (fun _ => declareOuter s i) ∧
      hd.opensFrame = true ∧ hd.Places s (s.code.blocksAround i) i.index := by
  have hs : i.isBlockStart = true := by
    rw [Instruction.isBlockStart_eq]
    cases hop : i.op <;> rw [hop] at hframe <;> first | rfl | cases hframe
  cases hop : i.op with
  | beginPlainFunction k =>
    have hnames := (names_functionNames (s := s) (i := i)).bind
      (r := fun x => pure (Header.function (x.2.headD (s.nameOf default)) x.1)) (names_pure _)
    refine ⟨_, _, _, hnames, ?_, rfl, places_function hcheck hi hs hframe (by rw [hop]; rfl)⟩
    unfold instruction
    rw [hop]
    rfl
  | beginClassMethod name k =>
    let text := if isIdentifier name then name else "m" ++ toString i.index
    have hnames := (names_bindNames (s := s) i.innerOutputs).bind
      (r := fun parameters => pure (Header.method text parameters)) (names_pure _)
    refine ⟨_, _, _, hnames, ?_, rfl, places_method hcheck hi hs hframe text⟩
    unfold instruction
    rw [hop]
    rfl
  | _ =>
    rw [hop] at hframe
    cases hframe

/-! ## Runs -/

/-- What holds of the state after the instructions `pre`. -/
structure Declared (s : Subject) (pre : Code) (l : Lifting) : Prop where
  beside : Beside s (Code.pathAfter [] pre) l
  left : ∀ k, pre.length ≤ k → l.declarations.lookup k = s.code.outerAssignments.lookup k
  announced : ∀ i ∈ pre, i.op.opensFrame = true →
    Announces s l.lines i.index (s.code.outerAssignmentsOf i.index)
  frames : ∀ x ∈ l.lines, ∀ k, x.content.frame? = some k →
    ∃ i ∈ pre, i.index = k ∧ i.op.opensFrame = true

theorem declared_start (s : Subject) :
    Declared s [] { declarations := s.code.outerAssignments } := by
  refine ⟨⟨rfl, Layout.isSound_empty, wellPlaced_nil, List.forall_mem_nil _⟩, fun _ _ => rfl,
    List.forall_mem_nil _, List.forall_mem_nil _⟩

/-- Lines that start no function or method change nothing. -/
theorem Declared.extend {pre' : Code} (h : Declared s pre l)
    (hpre : ∀ i ∈ pre', i.op.opensFrame = true → i ∈ pre) (hsub : pre ⊆ pre')
    (hlength : pre.length ≤ pre'.length)
    (hbeside : Beside s (Code.pathAfter [] pre') l') (he : l.Extends l') : Declared s pre' l' := by
  obtain ⟨ms, hms, hnone⟩ := he.lines
  refine ⟨hbeside, ?_, ?_, ?_⟩
  · intro k hk
    rw [he.declarations]
    exact h.left k (Nat.le_trans hlength hk)
  · intro i hi hframe
    rw [hms]
    refine (h.announced i (hpre i hi hframe) hframe).append fun x hx => ?_
    rw [hnone x hx]
    exact (Option.some_ne_none _).symm
  · rw [hms]
    refine List.forall_mem_append.mpr ⟨?_, ?_⟩
    · intro x hx k hk
      obtain ⟨i, hi, hframe⟩ := h.frames x hx k hk
      exact ⟨i, hsub hi, hframe⟩
    · intro x hx k hk
      rw [hnone x hx] at hk
      cases hk

theorem Declared.leads {m : Render Unit} (h : Declared s pre l)
    (hm : Leads s (Code.pathAfter [] pre) (Code.pathAfter [] pre) m) :
    Declared s pre (m.run l).2 := by
  obtain ⟨hbeside, he⟩ := hm l h.beside
  exact h.extend (fun i hi _ => hi) (List.Subset.refl _) (Nat.le_refl _) hbeside he

/-- Nothing that is written so far belongs to an instruction that is still to come. -/
theorem Declared.ne_frame (h : Declared s pre l) (hcheck : s.code.check = .ok ())
    (hcode : s.code = pre ++ rest) {k : Nat} (hk : pre.length ≤ k) :
    ∀ x ∈ l.lines, x.content.frame? ≠ some k := by
  intro x hx hframe
  obtain ⟨j, hj, rfl, -⟩ := h.frames x hx k hframe
  obtain ⟨n, hn, hget⟩ := List.getElem_of_mem hj
  have hindex : j.index = n := by
    refine Code.index_eq hcheck ?_
    rw [hcode, List.getElem?_append_left hn, List.getElem?_eq_getElem hn, hget]
  omega

/-- What starts a function or method writes what waits, and then the header and the declarations. -/
theorem Declared.writes (h : Declared s pre l) (hcheck : s.code.check = .ok ()) (hi : i ∈ s.code)
    (hindex : pre.length ≤ i.index) (haround : Code.pathAfter [] pre = s.code.blocksAround i)
    (hframe : i.op.opensFrame = true) :
    let l' := ((instruction s i).run l).2
    Beside s (i.index :: s.code.blocksAround i) l' ∧
      (∀ k, k ≠ i.index → l'.declarations.lookup k = l.declarations.lookup k) ∧
      ∃ ms d hd, hd.opensFrame = true ∧ (∀ x ∈ ms, x.content.frame? = none) ∧
        l'.lines = (l.lines ++ ms) ++
          frameLines s d i.index hd (s.code.outerAssignmentsOf i.index) := by
  obtain ⟨hd, vs, q, hq, hrun, hhd, hplaces⟩ := exists_frame_head hcheck hi hframe
  obtain ⟨hnamed, -⟩ := hq.leads l h.beside
  rw [haround] at hnamed
  obtain ⟨hentered, hdeclarations, ms, hlines, hnone⟩ := beside_enter hplaces hnamed
  obtain ⟨hbody, hlines', hothers⟩ := beside_declareOuter (i := i) hentered
  rw [hdeclarations, hq.declarations] at hlines' hothers
  rw [hrun, run_bind, run_bind, hq.result]
  refine ⟨hbody, hothers, ms, (s.code.blocksAround i).length, hd, hhd, hnone, hlines'.trans ?_⟩
  rw [hlines, h.left i.index hindex, Lifting.lines, hq.layout, List.append_assoc]
  rfl

theorem Declared.frame (h : Declared s pre l) (hcheck : s.code.check = .ok ())
    (hcode : s.code = pre ++ i :: rest) (hindex : i.index = pre.length)
    (haround : Code.pathAfter [] pre = s.code.blocksAround i)
    (hafter : Code.pathAfter [] (pre ++ [i]) = i.index :: s.code.blocksAround i)
    (hframe : i.op.opensFrame = true) :
    Declared s (pre ++ [i]) ((instruction s i).run l).2 := by
  have hi : i ∈ s.code := by
    rw [hcode]
    exact List.mem_append_right _ List.mem_cons_self
  obtain ⟨hbody, hothers, ms, d, hd, hhd, hnone, hlines⟩ :=
    h.writes hcheck hi (Nat.le_of_eq hindex.symm) haround hframe
  have hown {x : Line} := frame?_of_frameLines (s := s) (d := d) (k := i.index) (x := x)
    (o := s.code.outerAssignmentsOf i.index) hhd
  have hwaited : ∀ k, ∀ x ∈ ms, x.content.frame? ≠ some k := by
    intro k x hx
    rw [hnone x hx]
    exact (Option.some_ne_none k).symm
  refine ⟨hafter ▸ hbody, ?_, ?_, ?_⟩
  · intro k hk
    rw [List.length_append, List.length_singleton] at hk
    rw [hothers k (by omega)]
    exact h.left k (by omega)
  · rw [hlines]
    refine List.forall_mem_append.mpr ⟨?_, List.forall_mem_singleton.mpr fun _ => ?_⟩
    · -- An earlier function or method has another position.
      intro j hj hjframe
      have hannounced := h.announced j hj hjframe
      refine (hannounced.append (hwaited j.index)).append fun x hx => ?_
      rw [hown hx]
      intro heq
      obtain ⟨y, hy, hyframe⟩ := hannounced.exists_line
      exact h.ne_frame hcheck hcode (Nat.le_of_eq hindex.symm) y hy (hyframe.trans heq.symm)
    · exact announces_frameLines hhd (List.forall_mem_append.mpr
        ⟨h.ne_frame hcheck hcode (Nat.le_of_eq hindex.symm), hwaited i.index⟩)
  · rw [hlines]
    refine List.forall_mem_append.mpr ⟨List.forall_mem_append.mpr ⟨?_, ?_⟩, ?_⟩
    · intro x hx k hk
      obtain ⟨j, hj, hj'⟩ := h.frames x hx k hk
      exact ⟨j, List.mem_append_left _ hj, hj'⟩
    · exact fun x hx k hk => absurd hk (hwaited k x hx)
    · intro x hx k hk
      rw [hown hx] at hk
      exact ⟨i, List.mem_append_right _ List.mem_cons_self, Option.some.inj hk, hframe⟩

theorem Declared.step (h : Declared s pre l) (hcheck : s.code.check = .ok ())
    (hcode : s.code = pre ++ i :: rest) : Declared s (pre ++ [i]) ((instruction s i).run l).2 := by
  have hi : i ∈ s.code := by
    rw [hcode]
    exact List.mem_append_right _ List.mem_cons_self
  have hindex : i.index = pre.length := by
    refine Code.index_eq hcheck ?_
    rw [hcode, List.getElem?_append_right (Nat.le_refl _), Nat.sub_self]
    rfl
  have htake : s.code.take i.index = pre := by
    rw [hcode, hindex]
    exact List.take_left
  have hafter : Code.pathAfter [] (pre ++ [i]) = s.code.blocksAfter i := by
    rw [Code.pathAfter_append, Code.blocksAfter, htake]
  cases hframe : i.op.opensFrame with
  | false =>
    have hleads := leads_instruction hcheck hi hframe
    rw [htake, ← hafter] at hleads
    obtain ⟨hbeside, he⟩ := hleads l h.beside
    refine h.extend ?_ (List.subset_append_left _ _) (by simp) hbeside he
    intro j hj hjframe
    rcases List.mem_append.mp hj with hj | hj
    · exact hj
    · rw [List.mem_singleton.mp hj, hframe] at hjframe
      cases hjframe
  | true =>
    have hblock : i.isBlockStart = true ∧ i.isBlockEnd = false := by
      rw [Instruction.isBlockStart_eq, Instruction.isBlockEnd_eq]
      cases hop : i.op <;> rw [hop] at hframe <;> first | exact ⟨rfl, rfl⟩ | cases hframe
    refine h.frame hcheck hcode hindex ?_ ?_ hframe
    · rw [Code.blocksAround, htake, Instruction.outerPath, hblock.2]
      rfl
    · rw [hafter, blocksAfter_of_start hblock.1]

theorem Declared.run (wanted : Bool) (texts : Nat → Option String) (h : Declared s pre l)
    (hcheck : s.code.check = .ok ()) (hcode : s.code = pre ++ rest) :
    Declared s s.code ((instructions s wanted texts rest).run l).2 := by
  induction rest generalizing pre l with
  | nil =>
    rw [List.append_nil] at hcode
    rw [hcode]
    exact h
  | cons i rest ih =>
    refine ih ((h.leads (leads_note wanted (texts i.index))).step hcheck hcode) ?_
    rw [hcode, List.append_assoc]
    rfl

/-- All lines of a checked program. -/
theorem declared_program (hcheck : s.code.check = .ok ()) (annotations : Annotations)
    (comments : Comments) : Declared s s.code
      ((program s annotations comments).run { declarations := s.code.outerAssignments }).2 := by
  have hnoted := (declared_start s).leads (leads_note annotations.comments comments.header)
  have hend := hnoted.run annotations.comments comments.get? hcheck (List.nil_append s.code).symm
  have hdrained := hend.leads (leads_drain (n := (s.code.getLast?.map (·.index)).getD 0))
  exact hdrained.leads (leads_note annotations.comments comments.footer)

end Render

/-! ## The scopes of variables -/

/-- What a line gives a value, each with the depth of the block in which it gets it. -/
def Line.targets (x : Line) : List (Nat × Expr) :=
  x.binders.map (fun b => (b.1, .name b.2)) ++
    match x.content with
    | .statement st _ => st.target?.toList.map (Prod.mk x.depth)
    | _ => []

/-- The function or method at position `k` declares the name of an outer variable. -/
def DeclaresOuter (ls : List Line) (k : Nat) (n : Name) : Prop :=
  ∃ x ∈ ls, ∃ names, n ∈ names ∧
    (x.content = .statement (.globals names) k ∨ x.content = .statement (.nonlocals names) k)

/-- What is assigned around line `x` behind the lines `a` in the blocks up to depth `d` is a variable of
the innermost function or method, or one that this declares. -/
def InScope (s : Subject) (ls a : List Line) (x : Line) (d : Nat) (v : Variable) : Prop :=
  s.code.Home v (s.code.innermost (blocksAt (a ++ [x]) d)) ∨
    ∃ k, s.code.innermost (blocksAt (a ++ [x]) d) = some k ∧ DeclaresOuter ls k (s.nameOf v)

end Python

/-- These are the variables of the module, and those of functions and methods around it, to which the
function or method of an instruction assigns. -/
structure OuterAssignments.IsExact (o : OuterAssignments) (is : Code) (i : Instruction) : Prop where
  globals : ∀ v : Variable, v.number ∈ o.globals ↔ is.Home v none ∧ is.Reassigns is i.index v
  nonlocals : ∀ v : Variable, v.number ∈ o.nonlocals ↔
    (∃ m ∈ is.blocksAround i, is.Home v (some m)) ∧ is.Reassigns is i.index v
  foreign : ∀ v : Variable, is.Home v (some i.index) → v.number ∉ o.globals ∧ v.number ∉ o.nonlocals

theorem Code.isExact_outerAssignmentsOf {is : Code} {i : Instruction} (hcheck : is.check = .ok ())
    (hi : i ∈ is) : (is.outerAssignmentsOf i.index).IsExact is i := by
  refine ⟨fun _ => mem_globals_iff hcheck, fun _ => mem_nonlocals_iff hcheck hi, ?_⟩
  intro v hv
  refine ⟨?_, ?_⟩
  · intro hglobal
    cases hv.unique hcheck ((mem_globals_iff hcheck).mp hglobal).1
  · intro hnonlocal
    obtain ⟨⟨m, hm, hhome⟩, -⟩ := (mem_nonlocals_iff hcheck hi).mp hnonlocal
    exact ne_index_of_mem_blocksAround hcheck hi hm (Option.some.inj (hhome.unique hcheck hv))

namespace Python

/-- The lines keep the scopes of variables. -/
structure KeepsScopes (s : Subject) (ls : List Line) : Prop where
  /-- A function or method starts with declarations of the outer variables to which it assigns. -/
  bodies : ∀ i ∈ s.code, i.op.opensFrame = true →
    ∃ o : OuterAssignments, o.IsExact s.code i ∧ Announces s ls i.index o
  /-- Nothing else is declared. -/
  frames : ∀ x ∈ ls, ∀ k, x.content.frame? = some k →
    ∃ i ∈ s.code, i.index = k ∧ i.op.opensFrame = true
  headers : ∀ x ∈ ls, ∀ hd n, x.content = .header hd n →
    hd.opensFrame = (s.code[n]?).any (·.op.opensFrame)
  assigned : ∀ a x b, ls = a ++ x :: b → ∀ d e v, (d, e) ∈ x.targets →
    e.text = (s.nameOf v).text → InScope s ls a x d v

variable {s : Subject} {ls a b : List Line} {x : Line} {d k : Nat} {v : Variable}
  {o : OuterAssignments}

theorem declaresOuter_of_mem (hv : v ∈ o.variables) :
    DeclaresOuter (declarationLines s d k o) k (s.nameOf v) := by
  have hname {numbers : List Nat} (hv : v.number ∈ numbers) :
      s.nameOf v ∈ numbers.map fun n => s.nameOf ⟨n⟩ := List.mem_map.mpr ⟨v.number, hv, rfl⟩
  have hne {numbers : List Nat} (hv : v.number ∈ numbers) : ¬numbers.isEmpty = true := by
    rw [List.isEmpty_iff]
    exact List.ne_nil_of_mem hv
  unfold declarationLines
  dsimp only
  rcases OuterAssignments.mem_variables.mp hv with hv | hv
  · rw [if_neg (hne hv)]
    exact ⟨_, List.mem_append_left _ (List.mem_singleton_self _), _, hname hv, .inl rfl⟩
  · rw [if_neg (hne hv)]
    exact ⟨_, List.mem_append_right _ (List.mem_singleton_self _), _, hname hv, .inr rfl⟩

theorem Announces.declaresOuter (h : Announces s ls k o) (hv : v ∈ o.variables) :
    DeclaresOuter ls k (s.nameOf v) := by
  obtain ⟨d, hd, before, after, -, rfl, -⟩ := h
  obtain ⟨x, hx, hdeclares⟩ := declaresOuter_of_mem hv
  refine ⟨x, ?_, hdeclares⟩
  apply List.mem_append_right
  exact List.mem_cons_of_mem _ (List.mem_append_left _ hx)

theorem inScope_of_placed {i : Instruction} {target : Expr} (hcheck : s.code.check = .ok ())
    (hplaced : x.Placed s a) (hi : i ∈ s.code) (hassigns : i.op.assigns = true)
    (hx : x.content.Assigns i.index target)
    (hannounces : ∀ j ∈ s.code, j.op.opensFrame = true →
      Announces s ls j.index (s.code.outerAssignmentsOf j.index)) :
    InScope s ls a x x.depth (i.input 0) := by
  have hblocks : blocksAt (a ++ [x]) x.depth = s.code.blocksAround i := by
    rw [← hplaced.assigns i hi target hx]
    obtain ⟨depth, content⟩ := x
    obtain ⟨st, rfl, -⟩ := hx
    exact blocksAt_statement st
  unfold InScope
  rw [hblocks]
  rcases Code.home_or_listed hcheck hi hassigns with hhome | ⟨j, hj, hframe, hlisted⟩
  · exact .inl hhome
  · obtain ⟨j', hj', hindex, hopens⟩ := Code.exists_of_innermost hcheck hframe
    rw [Code.eq_of_index_eq hcheck hj' hj hindex] at hopens
    exact .inr ⟨j.index, hframe, (hannounces j hj hopens).declaresOuter hlisted⟩

end Python

open Python Python.Render

/-- Reassigned variables are scoped completely and exactly: a function or method starts with the
declarations of the outer variables to which it assigns, nothing else is declared, and every assignment to
the name of a variable stands in the function or method of the variable or in one that declares it. -/
theorem Program.keepsScopes_layout (p : Program) (annotations : Annotations)
    (h : p.code.check = .ok ()) :
    KeepsScopes (Subject.ofCode p.code) (p.layout annotations).lines.toList := by
  have hdeclared : Declared (.ofCode p.code) p.code _ :=
    declared_program (s := .ofCode p.code) h annotations p.comments
  obtain ⟨horderly, -⟩ :=
    p.orderly_layout (Q := fun _ => True) annotations h (fun _ _ _ _ => trivial)
  refine ⟨?_, hdeclared.frames, ?_, ?_⟩
  · intro i hi hframe
    exact ⟨_, Code.isExact_outerAssignmentsOf h hi, hdeclared.announced i hi hframe⟩
  · intro x hx hd n hcontent
    obtain ⟨a, b, hls⟩ := List.append_of_mem hx
    exact (hdeclared.beside.placed a x b hls).frames hd n hcontent
  · intro a x b hls d e v htarget htext
    have hplaced := hdeclared.beside.placed a x b hls
    rcases List.mem_append.mp htarget with htarget | htarget
    · -- The line binds the name of the variable.
      obtain ⟨⟨k, n⟩, hn, hpair⟩ := List.mem_map.mp htarget
      obtain ⟨rfl, rfl⟩ := Prod.mk.inj hpair
      cases Name.text_injective htext
      exact .inl (hplaced.binds k v hn)
    · -- The line assigns to the variable of an instruction.
      split at htarget
      · rename_i st n hcontent
        obtain ⟨target, hst, hpair⟩ := List.mem_map.mp htarget
        obtain ⟨rfl, rfl⟩ := Prod.mk.inj hpair
        have hassigns : x.content.Assigns n target := ⟨st, hcontent, Option.mem_toList.mp hst⟩
        obtain ⟨i, hi, rfl, hassign, rfl⟩ := (horderly a x b hls).assigns n target hassigns
        rw [← Subject.nameOf_inj (Name.text_injective htext)]
        exact inScope_of_placed h hplaced hi hassign hassigns hdeclared.announced
      · cases htarget

/-- A function assigns to a variable of the module and to one of the function around it. -/
def Program.assignsOutside : Program where
  id := default
  code := .ofRows [
    (.loadInteger 1, [0]),
    (.beginPlainFunction 1, [1, 2]),
    (.beginPlainFunction 0, [3]),
    (.reassign, [0, 2]),
    (.update .add, [2, 0]),
    (.endPlainFunction, []),
    (.endPlainFunction, []),
    (.print, [0])]

theorem Program.keepsScopes_assignsOutside : assignsOutside.code.check = .ok () ∧
    KeepsScopes (Subject.ofCode assignsOutside.code) (assignsOutside.layout {}).lines.toList ∧
    (assignsOutside.layout {}).lines.toList.filterMap (·.content.frame?) = [1, 2, 2, 2] :=
  ⟨rfl, keepsScopes_layout assignsOutside {} rfl, by decide +kernel⟩

/-- A function holds raw code that assigns to a variable of the module. -/
def Program.assignsInRawCode : Program where
  id := default
  code := .ofRows [
    (.loadInteger 1, [0]),
    (.beginPlainFunction 0, [1]),
    (.eval "v0 = 5" 0, []),
    (.endPlainFunction, [])]

theorem Program.body_assignsInRawCode :
    (assignsInRawCode.layout {}).lines.toList.map (fun x => Line.body {} x.content) =
      ["v0 = 1", "def f1():", "v0 = 5"] := by
  decide +kernel

theorem Program.not_declaresOuter_assignsInRawCode (k : Nat) (n : Name) :
    ¬DeclaresOuter (assignsInRawCode.layout {}).lines.toList k n := by
  rintro ⟨x, hx, names, -, hcontent⟩
  have hbody : Line.body {} x.content ∈ ["v0 = 1", "def f1():", "v0 = 5"] := by
    rw [← body_assignsInRawCode]
    exact List.mem_map_of_mem hx
  have hletter : (Line.body {} x.content).toList.head? ∈ [some 'v', some 'd'] := by
    generalize Line.body {} x.content = text at hbody
    revert text
    decide
  rcases hcontent with hcontent | hcontent
  · rw [hcontent] at hletter
    simp [Line.body, Statement.text] at hletter
  · rw [hcontent] at hletter
    simp [Line.body, Statement.text] at hletter

/-- Raw code may assign to the name of a variable in a function that does not declare it. -/
theorem Program.not_inScope_rawCode : ¬∀ (p : Program) (a b : List Line) (x : Line) (v : Variable)
    (e : Expr), p.code.check = .ok () → (p.layout {}).lines.toList = a ++ x :: b →
    Line.body {} x.content =
      (Statement.assign (.name ((Subject.ofCode p.code).nameOf v)) e).text →
    InScope (.ofCode p.code) (p.layout {}).lines.toList a x x.depth v := by
  intro h
  have hlength : 2 < (assignsInRawCode.layout {}).lines.toList.length := by decide +kernel
  have hline : Line.body {} (assignsInRawCode.layout {}).lines.toList[2].content =
        (Statement.assign (.name ((Subject.ofCode assignsInRawCode.code).nameOf ⟨0⟩)) (.int 5)).text ∧
      assignsInRawCode.code.innermost (blocksAt
        ((assignsInRawCode.layout {}).lines.toList.take 2 ++
          [(assignsInRawCode.layout {}).lines.toList[2]])
        (assignsInRawCode.layout {}).lines.toList[2].depth) = some 1 := by
    decide +kernel +revert
  have hsplit : (assignsInRawCode.layout {}).lines.toList =
      (assignsInRawCode.layout {}).lines.toList.take 2 ++
        (assignsInRawCode.layout {}).lines.toList[2] ::
          (assignsInRawCode.layout {}).lines.toList.drop 3 := by
    rw [List.getElem_cons_drop, List.take_append_drop]
  have hhome : assignsInRawCode.code.Home ⟨0⟩ none :=
    .outer (i := ⟨.loadInteger 1, [⟨0⟩], 0, rfl⟩) (by decide) (by decide)
  rcases h assignsInRawCode _ _ _ ⟨0⟩ (.int 5) rfl hsplit hline.1 with hin | ⟨k, -, hin⟩
  · cases hline.2.symm.trans (hin.unique rfl hhome)
  · exact not_declaresOuter_assignsInRawCode _ _ hin

end ScriptFuzz
