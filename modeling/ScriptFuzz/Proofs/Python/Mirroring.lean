import Mathlib.Data.Nat.Nth
import ScriptFuzz.Proofs.Python.Renaming
import ScriptFuzz.Proofs.Python.ScopedBlocks

/-!
# Runs with annotations and without

`Mirrors` says of two runs of a part of rendering, with annotations and without, that they write the
same lines, but for comments and for the lines that temporaries are named after. It is closed under
sequencing, so the runs of an instruction mirror each other because those of its parts do. A comment on
the first side only leaves them so.
-/

namespace ScriptFuzz

set_option autoImplicit false

namespace Python

/-! ## Lines without comments -/

/-- The lines that are no comments. -/
def codeLines (ls : List Line) : List Line := ls.filter fun x => !x.isComment

/-- Whether no comment stands on line `k`. -/
def isFree (ls : List Line) (k : Nat) : Bool := ls[k]?.all fun x => !x.isComment

/-- The line on which the line stands that is the `k`-th without the comments. -/
noncomputable def place (ls : List Line) : Nat → Nat := Nat.nth fun k => isFree ls k = true

section

variable {ls ms : List Line} {x : Line}

theorem strictMono_place (ls : List Line) : StrictMono (place ls) := by
  refine Nat.nth_strictMono (Set.infinite_of_injective_forall_mem
    (f := fun k => ls.length + k) (add_right_injective _) fun k => ?_)
  change isFree ls (ls.length + k) = true
  rw [isFree, List.getElem?_eq_none (Nat.le_add_right _ _)]
  rfl

theorem count_isFree (ls ms : List Line) :
    Nat.count (fun k => isFree (ls ++ ms) k = true) ls.length = (codeLines ls).length := by
  induction ls using List.reverseRecOn generalizing ms with
  | nil => rfl
  | append_singleton ls x ih =>
    have hfree : isFree (ls ++ [x] ++ ms) ls.length = !x.isComment := by
      simp [isFree]
    rw [List.length_append, List.length_singleton, Nat.count_succ, hfree, List.append_assoc, ih,
      codeLines, codeLines, List.filter_append, List.length_append, List.filter_singleton]
    cases x.isComment <;> rfl

/-- A line that is no comment has its place behind the lines before it. -/
theorem place_length (hls : ls ++ [x] <+: ms) (hx : x.isComment = false) :
    place ms (codeLines ls).length = ls.length := by
  obtain ⟨rest, rfl⟩ := hls
  rw [List.append_assoc, ← count_isFree ls ([x] ++ rest)]
  refine Nat.nth_count ?_
  simp [isFree, hx]

theorem codeLines_append : codeLines (ls ++ ms) = codeLines ls ++ codeLines ms :=
  List.filter_append ls ms

theorem codeLines_of_comments (h : ∀ x ∈ ms, x.isComment = true) : codeLines ms = [] :=
  List.filter_eq_nil_iff.mpr fun x hx => by simp [h x hx]

end

theorem lookup_map_renamed (ρ : Nat → Nat) (bindings : List (Variable × Expr)) (v : Variable) :
    (bindings.map fun b => (b.1, b.2.renamed ρ)).lookup v =
      (bindings.lookup v).map (Expr.renamed ρ) := by
  induction bindings with
  | nil => rfl
  | cons b bindings ih =>
    rw [List.map_cons, List.lookup_cons, List.lookup_cons, ih]
    cases v == b.1 <;> rfl

/-! ## Two runs -/

/-- Two states differ by comments and by the lines that temporaries are named after; `F` are the lines
that the first one leads to. -/
structure Lifting.Agrees (F : List Line) (l l' : Lifting) : Prop where
  lines : codeLines l.lines = l'.lines.map (Line.renamed (place F))
  filled : l.layout.filled = l'.layout.filled
  bindings : l.bindings = l'.bindings.map fun b => (b.1, b.2.renamed (place F))
  pending : l.pending = l'.pending
  switches : l.switches = l'.switches
  declarations : l.declarations = l'.declarations

namespace Lifting.Agrees

variable {F : List Line} {l l' : Lifting}

theorem depth (h : l.Agrees F l') : l.layout.depth = l'.layout.depth := congrArg List.length h.filled

theorem standsFor (h : l.Agrees F l') (s : Subject) (v : Variable) :
    l.standsFor s v = (l'.standsFor s v).renamed (place F) := by
  unfold Lifting.standsFor
  rw [h.bindings, lookup_map_renamed]
  cases l'.bindings.lookup v <;> rfl

/-- The next line is named alike, unless it is a comment. -/
theorem place_size (h : l.Agrees F l') {x : Line} (hF : l.lines ++ [x] <+: F)
    (hx : x.isComment = false) : place F l'.layout.lines.size = l.layout.lines.size := by
  have hplace := place_length hF hx
  rwa [h.lines, List.length_map, Array.length_toList, Array.length_toList] at hplace

end Lifting.Agrees

namespace Render

/-- A part of rendering only adds lines. -/
def Grows {α : Type} (m : Render α) : Prop := ∀ l : Lifting, l.lines <+: (m.run l).2.lines

/-- Two parts of rendering lead from states that agree to states that agree, and what the first one
returns is what the second one returns, renamed. -/
structure Mirrors {α β : Type} (F : List Line) (g : β → α) (m : Render α) (m' : Render β) :
    Prop where
  grows : Grows m
  agrees : ∀ l l' : Lifting, l.Agrees F l' → (m.run l).2.lines <+: F →
    (m.run l).1 = g (m'.run l').1 ∧ (m.run l).2.Agrees F (m'.run l').2

variable {α β γ δ : Type} {F : List Line} {s : Subject} {n : Nat} {i : Instruction} {v : Variable}

/-! ## Lines are only added -/

theorem grows_pure (a : α) : Grows (pure a : Render α) := fun _ => List.prefix_refl _

theorem Grows.bind {m : Render α} {f : α → Render β} (hm : Grows m) (hf : ∀ a, Grows (f a)) :
    Grows (m >>= f) := fun l => (hm l).trans (hf _ _)

theorem grows_get {f : Lifting → Render α} (hf : ∀ l, Grows (f l)) : Grows (get >>= f) :=
  fun l => hf l l

theorem grows_modify {f : Lifting → Lifting} (hf : ∀ l : Lifting, l.lines <+: (f l).lines) :
    Grows (modify f) := hf

theorem grows_forM {f : α → Render Unit} (hf : ∀ a, Grows (f a)) (as : List α) :
    Grows (as.forM f) := by
  induction as with
  | nil => exact grows_pure ()
  | cons a as ih => exact (hf a).bind fun _ => ih

theorem lines_write (st : Statement) (l : Lifting) :
    ((write n st).run l).2.lines = l.lines ++ [⟨l.layout.depth, .statement st n⟩] :=
  (l.layout.statement_eq st n).1

theorem grows_write (st : Statement) : Grows (write n st) := fun l => ⟨_, (lines_write st l).symm⟩

theorem grows_setBinding (e : Expr) : Grows (setBinding v e) := grows_modify fun _ => List.prefix_refl _

theorem grows_materialize : Grows (materialize s n v) := by
  refine grows_get fun l => ?_
  split
  · exact (grows_write _).bind fun _ => grows_setBinding _
  · exact grows_pure ()

theorem grows_queue (f : Lifting → List Variable) :
    Grows (modify fun l => { l with pending := f l }) := grows_modify fun _ => List.prefix_refl _

theorem grows_drain : Grows (drain s n) :=
  grows_get fun _ => (grows_queue _).bind fun _ => grows_forM (fun _ => grows_materialize) _

theorem grows_emit (st : Statement) : Grows (emit s n st) := grows_drain.bind fun _ => grows_write st

theorem grows_assign (e : Expr) : Grows (assign s n v e) :=
  (grows_emit _).bind fun _ => grows_setBinding _

theorem grows_declare (e : Expr) : Grows (declare s n v e) := by
  unfold declare
  dsimp only
  split
  · split
    · split
      · exact (grows_setBinding e).bind fun _ => grows_queue _
      · split
        · exact grows_emit _
        · exact grows_assign e
    · split
      · exact grows_setBinding e
      · exact grows_assign e
  · exact grows_assign e

theorem grows_compute (e : Expr) : Grows (compute s i e) := by
  unfold compute
  split
  · exact grows_declare _
  · exact grows_pure ()

theorem grows_opening (hd : Header) :
    Grows (modify fun l => { l with layout := l.layout.enter hd n }) :=
  grows_modify fun l => ⟨_, (l.layout.enter_eq hd n).1.symm⟩

theorem grows_enter (hd : Header) : Grows (enter s n hd) := grows_drain.bind fun _ => grows_opening hd

theorem grows_closing : Grows (modify fun l => { l with layout := l.layout.exit }) := by
  refine grows_modify fun l => ?_
  cases hfilled : l.layout.filled with
  | nil => rw [Lifting.lines, Lifting.lines, Layout.exit, hfilled]
  | cons b bs => exact ⟨_, (l.layout.exit_eq hfilled).1.symm⟩

theorem grows_exit : Grows (exit s n) := grows_drain.bind fun _ => grows_closing

/-! ## Parts of rendering -/

theorem mirrors_pure {g : β → α} (b : β) :
    Mirrors F g (pure (g b) : Render α) (pure b) :=
  ⟨grows_pure _, fun _ _ h _ => ⟨rfl, h⟩⟩

theorem Mirrors.bind {g : β → α} {g' : δ → γ} {m : Render α} {m' : Render β}
    {f : α → Render γ} {f' : β → Render δ} (hm : Mirrors F g m m') (hgrows : ∀ a, Grows (f a))
    (hf : ∀ b, Mirrors F g' (f (g b)) (f' b)) :
    Mirrors F g' (m >>= f) (m' >>= f') := by
  refine ⟨hm.grows.bind hgrows, fun l l' h hF => ?_⟩
  -- The lines in the middle are a start of `F`, as nothing that follows takes a line back.
  obtain ⟨hresult, h'⟩ := hm.agrees l l' h ((hgrows _ _).trans hF)
  rw [run_bind, hresult] at hF ⊢
  exact (hf _).agrees _ _ h' hF

theorem mirrors_get {g : β → α} {f : Lifting → Render α} {f' : Lifting → Render β}
    (hgrows : Grows (get >>= f)) (hf : ∀ l l', l.Agrees F l' → Mirrors F g (f l) (f' l')) :
    Mirrors F g (get >>= f) (get >>= f') :=
  ⟨hgrows, fun l l' h hF => (hf l l' h).agrees l l' h hF⟩

theorem mirrors_modify {f f' : Lifting → Lifting} (hgrows : ∀ l : Lifting, l.lines <+: (f l).lines)
    (hf : ∀ l l', l.Agrees F l' → (f l).Agrees F (f' l')) :
    Mirrors F id (modify f) (modify f') :=
  ⟨grows_modify hgrows, fun l l' h _ => ⟨rfl, hf l l' h⟩⟩

theorem mirrors_forM {f f' : α → Render Unit} (hf : ∀ a, Mirrors F id (f a) (f' a))
    (as : List α) : Mirrors F id (as.forM f) (as.forM f') := by
  induction as with
  | nil => exact mirrors_pure (g := id) ()
  | cons a as ih => exact (hf a).bind (fun _ => ih.grows) fun _ => ih

theorem mirrors_mapM {g : γ → β} {f : α → Render β} {f' : α → Render γ}
    (hf : ∀ a, Mirrors F g (f a) (f' a)) (as : List α) :
    Mirrors F (List.map g) (as.mapM f) (as.mapM f') := by
  induction as with
  | nil => exact mirrors_pure (g := List.map g) []
  | cons a as ih =>
    rw [List.mapM_cons, List.mapM_cons]
    refine (hf a).bind (fun _ => ih.grows.bind fun _ => grows_pure _) fun b => ?_
    exact ih.bind (fun _ => grows_pure _) fun bs => mirrors_pure (g := List.map g) (b :: bs)

/-- What changes only what waits changes it alike. -/
theorem mirrors_queue {f f' : Lifting → List Variable}
    (hf : ∀ l l', l.Agrees F l' → f l = f' l') :
    Mirrors F id (modify fun l => { l with pending := f l })
      (modify fun l => { l with pending := f' l }) :=
  mirrors_modify (fun _ => List.prefix_refl _) fun l l' h => { h with pending := hf l l' h }

theorem mirrors_setBinding (e : Expr) :
    Mirrors F id (setBinding v (e.renamed (place F))) (setBinding v e) :=
  mirrors_modify (fun _ => List.prefix_refl _) fun _ _ h =>
    { h with bindings := congrArg (_ :: ·) h.bindings }

theorem mirrors_bindNames (vs : List Variable) :
    Mirrors F (List.map (Name.renamed (place F))) (bindNames s vs) (bindNames s vs) :=
  mirrors_mapM (fun v => (mirrors_setBinding (.name (s.nameOf v))).bind (fun _ => grows_pure _)
    fun _ => mirrors_pure (g := Name.renamed (place F)) (s.nameOf v)) vs

theorem agrees_push {l l' : Lifting} (h : l.Agrees F l') {layout layout' : Layout} {x : Line}
    (hx : x.isComment = false)
    (hlines : layout.lines.toList = l.lines ++ [x.renamed (place F)])
    (hlines' : layout'.lines.toList = l'.lines ++ [x]) (hfilled : layout.filled = layout'.filled) :
    { l with layout }.Agrees F { l' with layout := layout' } := by
  have hcode : codeLines [x.renamed (place F)] = [x.renamed (place F)] := by
    simp [codeLines, Line.isComment_renamed, hx]
  refine { h with lines := ?_, filled := hfilled }
  rw [Lifting.lines, Lifting.lines, hlines, hlines', codeLines_append, h.lines, hcode, List.map_append]
  rfl

theorem agrees_write {l l' : Lifting} (h : l.Agrees F l') (st : Statement) :
    ((write n (st.renamed (place F))).run l).2.Agrees F ((write n st).run l').2 := by
  obtain ⟨hlines, hfilled⟩ := l.layout.statement_eq (st.renamed (place F)) n
  obtain ⟨hlines', hfilled'⟩ := l'.layout.statement_eq st n
  refine agrees_push h (x := ⟨l'.layout.depth, .statement st n⟩) rfl ?_ hlines' ?_
  · rw [hlines, h.depth]
    rfl
  · rw [hfilled, hfilled', h.filled]
    rfl

theorem mirrors_write (st : Statement) :
    Mirrors F id (write n (st.renamed (place F))) (write n st) :=
  ⟨grows_write _, fun _ _ h _ => ⟨rfl, agrees_write h st⟩⟩

theorem mirrors_materialize : Mirrors F id (materialize s n v) (materialize s n v) := by
  refine mirrors_get grows_materialize fun l l' h => ?_
  rw [h.bindings, lookup_map_renamed]
  cases l'.bindings.lookup v with
  | none => exact mirrors_pure (g := id) ()
  | some e =>
    exact (mirrors_write (.bind (s.nameOf v) e)).bind (fun _ => grows_setBinding _)
      fun _ => mirrors_setBinding (.name (s.nameOf v))

theorem mirrors_drain : Mirrors F id (drain s n) (drain s n) := by
  refine mirrors_get grows_drain fun l l' h => ?_
  rw [h.pending]
  exact (mirrors_queue fun _ _ _ => rfl).bind (fun _ => grows_forM (fun _ => grows_materialize) _)
    fun _ => mirrors_forM (fun _ => mirrors_materialize) _

theorem mirrors_emit (st : Statement) :
    Mirrors F id (emit s n (st.renamed (place F))) (emit s n st) :=
  mirrors_drain.bind (fun _ => grows_write _) fun _ => mirrors_write st

theorem mirrors_assign (e : Expr) :
    Mirrors F id (assign s n v (e.renamed (place F))) (assign s n v e) :=
  (mirrors_emit (.bind (s.nameOf v) e)).bind (fun _ => grows_setBinding _)
    fun _ => mirrors_setBinding (.name (s.nameOf v))

theorem mirrors_declare (e : Expr) :
    Mirrors F id (declare s n v (e.renamed (place F))) (declare s n v e) := by
  have hwait : Mirrors F id (modify fun l => { l with pending := l.pending ++ [v] })
      (modify fun l => { l with pending := l.pending ++ [v] }) :=
    mirrors_queue fun _ _ h => congrArg (· ++ [v]) h.pending
  unfold declare
  rw [Expr.isEffectful_renamed]
  dsimp only
  split
  · split
    · split
      · exact (mirrors_setBinding e).bind (fun _ => grows_queue _) fun _ => hwait
      · split
        · exact mirrors_emit (.expression e)
        · exact mirrors_assign e
    · split
      · exact mirrors_setBinding e
      · exact mirrors_assign e
  · exact mirrors_assign e

theorem grows_settle (inputs : List (Variable × Slot)) : Grows (settle s n inputs) :=
  grows_get fun _ => (grows_forM (fun _ => grows_materialize) _).bind fun _ => grows_queue _

theorem mirrors_settle (inputs : List (Variable × Slot)) :
    Mirrors F id (settle s n inputs) (settle s n inputs) := by
  refine mirrors_get (grows_settle inputs) fun l l' h => ?_
  rw [h.pending]
  exact (mirrors_forM (fun _ => mirrors_materialize) _).bind (fun _ => grows_queue _)
    fun _ => mirrors_queue fun _ _ _ => rfl

/-- Where only a name will do, another expression is bound to the name of the next line. -/
theorem run_operand (input : Variable × Slot) (l : Lifting) : (operand s n input).run l =
    if input.2 = .name ∧ (l.standsFor s input.1).isName = false then
      (.name (.temporary l.layout.lines.size),
        ((write n (.bind (.temporary l.layout.lines.size) (l.standsFor s input.1))).run l).2)
    else (l.standsFor s input.1, l) := by
  obtain ⟨v, slot⟩ := input
  unfold operand
  dsimp only
  rw [run_get_bind]
  split
  · rename_i hname
    rw [if_pos]
    · rfl
    · simpa [Lifting.standsFor] using hname
  · rename_i hname
    rw [if_neg]
    · rfl
    · simpa [Lifting.standsFor] using hname

theorem mirrors_operand (input : Variable × Slot) :
    Mirrors F (Expr.renamed (place F)) (operand s n input) (operand s n input) := by
  refine ⟨fun l => ?_, fun l l' h hF => ?_⟩
  · rw [run_operand]
    split
    · exact grows_write _ l
    · exact List.prefix_refl _
  · rw [run_operand] at hF ⊢
    rw [run_operand]
    rw [h.standsFor, Expr.isName_renamed] at hF ⊢
    split
    · rename_i hname
      rw [if_pos hname] at hF
      -- Only here does a name depend on how many lines there are.
      have hsize : place F l'.layout.lines.size = l.layout.lines.size := by
        rw [lines_write] at hF
        exact h.place_size hF rfl
      rw [← hsize]
      exact ⟨rfl, agrees_write h (.bind (.temporary l'.layout.lines.size) _)⟩
    · exact ⟨rfl, h⟩

/-- The expressions of the inputs are the same but for the temporaries. -/
theorem mirrors_operands (inputs : List (Variable × Slot)) :
    Mirrors F (List.map (Expr.renamed (place F))) (operands s n inputs) (operands s n inputs) := by
  have hoperands := mirrors_mapM (mirrors_operand (F := F) (s := s) (n := n)) inputs
  exact (mirrors_settle inputs).bind (fun _ => hoperands.grows) fun _ => hoperands

theorem mirrors_enter (hd : Header) :
    Mirrors F id (enter s n (hd.renamed (place F))) (enter s n hd) := by
  refine mirrors_drain.bind (fun _ => grows_opening _) fun _ => ?_
  refine mirrors_modify (grows_opening _) fun l l' h => ?_
  obtain ⟨hlines, hfilled⟩ := l.layout.enter_eq (hd.renamed (place F)) n
  obtain ⟨hlines', hfilled'⟩ := l'.layout.enter_eq hd n
  refine agrees_push h (x := ⟨l'.layout.depth, .header hd n⟩) rfl ?_ hlines' ?_
  · rw [hlines, h.depth]
    rfl
  · rw [hfilled, hfilled', h.filled]
    rfl

theorem mirrors_exit : Mirrors F id (exit s n) (exit s n) := by
  refine mirrors_drain.bind (fun _ => grows_closing) fun _ => ?_
  refine mirrors_modify grows_closing fun l l' h => ?_
  cases hfilled' : l'.layout.filled with
  | nil =>
    have hfilled : l.layout.filled = [] := h.filled.trans hfilled'
    have hexit : l.layout.exit = l.layout := by rw [Layout.exit, hfilled]
    have hexit' : l'.layout.exit = l'.layout := by rw [Layout.exit, hfilled']
    rw [hexit, hexit']
    exact h
  | cons b bs =>
    have hfilled : l.layout.filled = b :: bs := h.filled.trans hfilled'
    obtain ⟨hlines, hafter⟩ := l.layout.exit_eq hfilled
    obtain ⟨hlines', hafter'⟩ := l'.layout.exit_eq hfilled'
    cases b with
    | true =>
      refine { h with lines := ?_, filled := hafter.trans hafter'.symm }
      simp only [if_true, List.append_nil] at hlines hlines'
      rw [Lifting.lines, Lifting.lines, hlines, hlines']
      exact h.lines
    | false =>
      exact agrees_push h (x := ⟨bs.length + 1, .filler⟩) rfl hlines hlines'
        (hafter.trans hafter'.symm)

theorem mirrors_compute (e : Expr) :
    Mirrors F id (compute s i (e.renamed (place F))) (compute s i e) := by
  unfold compute
  split
  · exact mirrors_declare (.computed i.index e)
  · exact mirrors_pure (g := id) ()

theorem mirrors_load (e : Expr) : Mirrors F id (load s i (e.renamed (place F))) (load s i e) := by
  unfold load
  split
  · exact mirrors_declare e
  · exact mirrors_pure (g := id) ()

theorem mirrors_markCase : Mirrors F id markCase markCase :=
  mirrors_modify (fun _ => List.prefix_refl _) fun l l' h =>
    { h with switches := by rw [h.switches] }

theorem mirrors_leaveSwitch : Mirrors F id leaveSwitch leaveSwitch :=
  ⟨fun _ => List.prefix_refl _, fun _ _ h _ =>
    ⟨congrArg List.head? h.switches, { h with switches := congrArg List.tail h.switches }⟩⟩

theorem grows_ite {b : Bool} {m o : Render α} (hm : Grows m) (ho : Grows o) :
    Grows (if b then m else o) := by
  cases b
  · exact ho
  · exact hm

theorem grows_declareOuter : Grows (declareOuter s i) := by
  refine grows_get fun l => ?_
  cases l.declarations.lookup i.index with
  | none => exact grows_pure ()
  | some outer =>
    refine Grows.bind (fun _ => List.prefix_refl _) fun _ => ?_
    have hnonlocals := grows_ite (b := !outer.nonlocals.isEmpty)
      (grows_write (n := i.index) (.nonlocals (outer.nonlocals.map fun k => s.nameOf ⟨k⟩)))
      (grows_pure ())
    exact grows_ite ((grows_write _).bind fun _ => hnonlocals) hnonlocals

theorem mirrors_ite {g : β → α} {b : Bool} {m o : Render α} {m' o' : Render β}
    (hm : Mirrors F g m m') (ho : Mirrors F g o o') :
    Mirrors F g (if b then m else o) (if b then m' else o') := by
  cases b
  · exact ho
  · exact hm

/-- The names of variables are not renamed. -/
theorem mirrors_write_names (st : List Name → Statement)
    (hst : ∀ names, (st names).renamed (place F) = st (names.map (Name.renamed (place F))))
    (vs : List Nat) : Mirrors F id (write n (st (vs.map fun k => s.nameOf ⟨k⟩)))
      (write n (st (vs.map fun k => s.nameOf ⟨k⟩))) := by
  have hnames : (vs.map fun k => s.nameOf ⟨k⟩).map (Name.renamed (place F)) =
      vs.map fun k => s.nameOf ⟨k⟩ := by
    rw [List.map_map]
    rfl
  have hwrite := mirrors_write (F := F) (n := n) (st (vs.map fun k => s.nameOf ⟨k⟩))
  rwa [hst, hnames] at hwrite

theorem mirrors_declareOuter : Mirrors F id (declareOuter s i) (declareOuter s i) := by
  refine mirrors_get grows_declareOuter fun l l' h => ?_
  rw [h.declarations]
  cases l'.declarations.lookup i.index with
  | none => exact mirrors_pure (g := id) ()
  | some outer =>
    have hnonlocals := mirrors_ite (b := !outer.nonlocals.isEmpty)
      (mirrors_write_names (F := F) (s := s) (n := i.index) .nonlocals (fun _ => rfl) outer.nonlocals)
      (mirrors_pure (g := id) ())
    have hglobals := mirrors_write_names (F := F) (s := s) (n := i.index) .globals (fun _ => rfl)
      outer.globals
    have hnames := mirrors_ite (b := !outer.globals.isEmpty)
      (hglobals.bind (fun _ => hnonlocals.grows) fun _ => hnonlocals) hnonlocals
    refine Mirrors.bind (g := id) ?_ (fun _ => hnames.grows) fun _ => hnames
    exact mirrors_modify (fun _ => List.prefix_refl _) fun l l' h =>
      { h with declarations := congrArg (List.filter _) h.declarations }

/-! ## Instructions -/

theorem mirrors_ordinary (hi : i.isBlock = false) :
    Mirrors F id (instruction s i) (instruction s i) := by
  have hend : i.isBlockEnd = false := by
    rw [Instruction.isBlock, Bool.or_eq_false_iff] at hi
    exact hi.2
  rcases event?_cases i with hevent | hevent | hevent | hevent
  · rw [instruction_eq_load hevent hend]
    have hvalue := value_renamed (place F) i []
    rw [List.map_nil] at hvalue
    have hload := mirrors_load (F := F) (s := s) (i := i) (i.value [])
    rwa [← hvalue] at hload
  · by_cases hop : ∃ n, i.op = .construct n
    · obtain ⟨n, hop⟩ := hop
      obtain ⟨v, hv, -⟩ := exists_output (i := i) (of_computes hevent).2
      rw [instruction_eq_assign hop hv]
      refine (mirrors_operands _).bind (fun _ => grows_assign _) fun es => ?_
      rw [value_renamed]
      exact mirrors_assign (.computed i.index _)
    · rw [instruction_eq_compute hevent fun n h => hop ⟨n, h⟩]
      refine (mirrors_operands _).bind (fun _ => grows_compute _) fun es => ?_
      rw [value_renamed]
      exact mirrors_compute _
  · rw [instruction_eq_emit hevent]
    refine (mirrors_operands _).bind (fun _ => grows_emit _) fun es => ?_
    rw [statement_renamed]
    exact mirrors_emit _
  · rw [Instruction.isBlock, of_opens hevent] at hi
    cases hi

theorem mirrors_operandAs (slot : Slot) :
    Mirrors F (Expr.renamed (place F)) (operandAs s i slot) (operandAs s i slot) := by
  refine (mirrors_operands _).bind (fun _ => grows_pure _) fun es => ?_
  rw [List.headD_eq_head?_getD, List.head?_map, Expr.getD_map_renamed, List.headD_eq_head?_getD]
  exact mirrors_pure _

theorem mirrors_pair (first second : Slot) :
    Mirrors F (Prod.map (Expr.renamed (place F)) (Expr.renamed (place F))) (pair s i first second)
      (pair s i first second) := by
  refine (mirrors_operands _).bind (fun _ => grows_pure _) fun es => ?_
  rw [List.headD_eq_head?_getD, List.head?_map, Expr.getD_map_renamed, List.getElem?_map,
    Expr.getD_map_renamed, List.headD_eq_head?_getD]
  exact mirrors_pure (g := Prod.map _ _) (_, _)

theorem grows_bindNames (vs : List Variable) : Grows (bindNames s vs) :=
  (mirrors_bindNames (F := []) vs).grows

theorem mirrors_head (hd : Header) : Mirrors F id
    (enter s i.index (hd.renamed (place F)) >>= fun _ => declareOuter s i)
    (enter s i.index hd >>= fun _ => declareOuter s i) :=
  (mirrors_enter hd).bind (fun _ => grows_declareOuter) fun _ => mirrors_declareOuter

theorem grows_head (hd : Header) : Grows (enter s i.index hd >>= fun _ => declareOuter s i) :=
  (grows_enter hd).bind fun _ => grows_declareOuter

theorem headD_renamed (ρ : Nat → Nat) (names : List Name) (v : Variable) :
    (names.headD (s.nameOf v)).renamed ρ =
      (names.map (Name.renamed ρ)).headD (s.nameOf v) := by
  cases names <;> rfl

theorem mirrors_openSwitch : Mirrors F id (modify fun l => { l with switches := false :: l.switches })
    (modify fun l => { l with switches := false :: l.switches }) :=
  mirrors_modify (fun _ => List.prefix_refl _) fun _ _ h =>
    { h with switches := congrArg (false :: ·) h.switches }

theorem mirrors_starts (hs : i.isBlockStart = true) :
    Mirrors F id (instruction s i) (instruction s i) := by
  rw [Instruction.isBlockStart_eq] at hs
  unfold instruction
  cases hop : i.op with
  | beginPlainFunction k =>
    refine (mirrors_bindNames _).bind (fun _ => (grows_bindNames _).bind fun _ => grows_head _)
      fun ps => (mirrors_bindNames _).bind (fun _ => grows_head _) fun names => ?_
    rw [← headD_renamed]
    exact mirrors_head (.function _ ps)
  | beginIf inverted =>
    refine (mirrors_operandAs _).bind (fun _ => grows_enter _) fun e => ?_
    cases inverted
    · exact mirrors_enter (.ifTrue e)
    · exact mirrors_enter (.ifFalse e)
  | beginElse => exact mirrors_exit.bind (fun _ => grows_enter _) fun _ => mirrors_enter .otherwise
  | beginWhileLoop comparator =>
    exact (mirrors_pair _ _).bind (fun _ => grows_enter _) fun e =>
      mirrors_enter (.whileLoop comparator e.1 e.2)
  | beginForLoop =>
    refine (mirrors_operands _).bind (fun _ => (grows_bindNames _).bind fun _ => grows_enter _)
      fun range => (mirrors_bindNames _).bind (fun _ => grows_enter _) fun names => ?_
    rw [← headD_renamed]
    exact mirrors_enter (.forLoop _ range)
  | beginTry => exact mirrors_enter .tryBlock
  | beginCatch =>
    refine mirrors_exit.bind (fun _ => (grows_bindNames _).bind fun _ => grows_enter _)
      fun _ => (mirrors_bindNames _).bind (fun _ => grows_enter _) fun names => ?_
    rw [← headD_renamed]
    exact mirrors_enter (.exceptBlock _)
  | beginFinally =>
    exact mirrors_exit.bind (fun _ => grows_enter _) fun _ => mirrors_enter .finallyBlock
  | beginSwitch =>
    have hopen := mirrors_openSwitch (F := F)
    exact (mirrors_operandAs _).bind (fun _ => hopen.grows.bind fun _ => grows_enter _)
      fun e => hopen.bind (fun _ => grows_enter _) fun _ => mirrors_enter (.matching e)
  | beginSwitchCase =>
    have hmark := mirrors_markCase (F := F)
    exact (mirrors_operandAs _).bind (fun _ => hmark.grows.bind fun _ => grows_enter _)
      fun e => hmark.bind (fun _ => grows_enter _) fun _ =>
        mirrors_enter (.caseEqual (.capture i.index) e)
  | beginSwitchDefaultCase =>
    exact mirrors_markCase.bind (fun _ => grows_enter _) fun _ => mirrors_enter .caseAny
  | beginClassDefinition superclass =>
    refine (mirrors_operands _).bind (fun _ => (grows_bindNames _).bind fun _ => grows_enter _)
      fun bases => (mirrors_bindNames _).bind (fun _ => grows_enter _) fun names => ?_
    rw [← headD_renamed, List.head?_map]
    exact mirrors_enter (.classBody _ bases.head?)
  | beginClassMethod name k =>
    exact (mirrors_bindNames _).bind (fun _ => grows_head _) fun ps => mirrors_head (.method _ ps)
  | _ =>
    rw [hop] at hs
    cases hs

theorem mirrors_endSwitch (hop : i.op = .endSwitch) :
    Mirrors F id (instruction s i) (instruction s i) := by
  have hcase : Mirrors F id
      (enter s i.index .caseAny >>= fun _ => exit s i.index >>= fun _ => exit s i.index)
      (enter s i.index .caseAny >>= fun _ => exit s i.index >>= fun _ => exit s i.index) :=
    (mirrors_enter .caseAny).bind (fun _ => grows_exit.bind fun _ => grows_exit) fun _ =>
      mirrors_exit.bind (fun _ => grows_exit) fun _ => mirrors_exit
  unfold instruction
  rw [hop]
  refine mirrors_leaveSwitch.bind (fun cased => ?_) fun cased => ?_
  · dsimp only
    split
    · exact hcase.grows
    · exact grows_exit
  · dsimp only [id]
    split
    · exact hcase
    · exact mirrors_exit

theorem mirrors_instruction (i : Instruction) : Mirrors F id (instruction s i) (instruction s i) := by
  cases hs : i.isBlockStart <;> cases he : i.isBlockEnd
  · exact mirrors_ordinary (by rw [Instruction.isBlock, hs, he]; rfl)
  · by_cases hop : i.op = .endSwitch
    · exact mirrors_endSwitch hop
    · rw [show instruction s i = exit s i.index from ends_of_isBlockEnd hs he hop]
      exact mirrors_exit
  · exact mirrors_starts hs
  · exact mirrors_starts hs

/-! ## Comments -/

/-- A comment on the first side leaves the states in agreement. -/
theorem mirrors_note (wanted : Bool) (text : Option String) :
    Mirrors F id (note wanted text) (note false text) := by
  have hfalse : note false text = pure () := by cases text <;> rfl
  rw [hfalse]
  unfold note
  split
  · rename_i text
    have hcomments (l : Lifting) := lines_comment l.layout (Text.lines text.toList)
    refine ⟨fun l => ⟨_, (hcomments l).1.symm⟩, fun l l' h _ => ⟨rfl, ?_⟩⟩
    obtain ⟨hlines, hfilled⟩ := hcomments l
    have hcode : codeLines (l.layout.comment text).lines.toList = codeLines l.lines := by
      rw [Layout.comment, hlines, codeLines_append]
      refine List.append_right_eq_self.mpr (codeLines_of_comments ?_)
      exact List.forall_mem_map.mpr fun _ _ => rfl
    exact { h with lines := hcode.trans h.lines, filled := hfilled.trans h.filled }
  · exact mirrors_pure (g := id) ()

theorem mirrors_program (annotations : Annotations) (comments : Comments) :
    Mirrors F id (program s annotations comments) (program s {} comments) := by
  have hinstruction (i : Instruction) : Mirrors F id
      (note annotations.comments (comments.get? i.index) >>= fun _ => instruction s i)
      (note false (comments.get? i.index) >>= fun _ => instruction s i) :=
    (mirrors_note _ _).bind (fun _ => (mirrors_instruction (F := F) i).grows)
      fun _ => mirrors_instruction i
  have hfooter := mirrors_note (F := F) annotations.comments comments.footer
  have hend := (mirrors_drain (F := F) (s := s) (n := (s.code.getLast?.map (·.index)).getD 0)).bind
    (fun _ => hfooter.grows) fun _ => hfooter
  have hcode := (mirrors_forM hinstruction s.code).bind (fun _ => hend.grows) fun _ => hend
  exact (mirrors_note _ comments.header).bind (fun _ => hcode.grows) fun _ => hcode

end Render

/-- Without the comments, the lines of an annotated program are those of the plain one. Only the
temporaries are named after other lines. -/
theorem codeLines_layout (p : Program) (annotations : Annotations) :
    ∃ ρ : Nat → Nat, StrictMono ρ ∧ codeLines (p.layout annotations).lines.toList =
      (p.layout {}).lines.toList.map (Line.renamed ρ) := by
  let F := (p.layout annotations).lines.toList
  have hstart : Lifting.Agrees F { declarations := p.code.outerAssignments }
      { declarations := p.code.outerAssignments } := ⟨rfl, rfl, rfl, rfl, rfl, rfl⟩
  obtain ⟨-, hend⟩ := (Render.mirrors_program (F := F) (s := .ofCode p.code) annotations
    p.comments).agrees _ _ hstart (List.prefix_refl _)
  exact ⟨place F, strictMono_place F, hend.lines⟩

end Python
end ScriptFuzz
