import Mathlib.Data.List.Chain
import ScriptFuzz.Proofs.Code.Nesting
import ScriptFuzz.Proofs.Python.EffectOrder
import ScriptFuzz.Proofs.Python.Leaves

/-!
# The blocks of the source

`Suite` is the grammar of the lines of a block: which lines may follow each other at which depth.
`Appends` and `Inside` say which lines a part of the rendering adds to the open block, or to a block that
it has opened, and `straight_instruction` that an instruction inside of a body adds only statements.
-/

namespace ScriptFuzz

set_option autoImplicit false

namespace Python

/-- What the lines of a block are, comments aside. -/
inductive Row where
  | statements
  | cases
  | methods
deriving DecidableEq

def Line.isComment (l : Line) : Bool :=
  match l.content with
  | .comment _ => true
  | _ => false

/-- The lines of a body, with a `pass` if there are only comments among them. -/
def withFiller (depth : Nat) (body : List Line) : List Line :=
  if body.all Line.isComment then body ++ [⟨depth, .filler⟩] else body

namespace Header

/-- Whether a header starts a condition. -/
def isCondition : Header → Bool
  | ifTrue _ | ifFalse _ => true
  | _ => false

/-- Whether a header and a body make a statement. -/
def standsAlone : Header → Bool
  | function _ _ | ifTrue _ | ifFalse _ | whileLoop _ _ _ | forLoop _ _ => true
  | _ => false

end Header

/-- `Suite row d ls`: the lines `ls` make up a row of whole statements, cases or methods at depth `d`.
Every header is followed by its body, one level deeper, and the body by the section that continues the
statement or by the rest of the row. -/
inductive Suite : Row → Nat → List Line → Prop where
  | done {row : Row} {d : Nat} : Suite row d []
  | comment {row : Row} {d : Nat} {ls : List Line} (text : String) (rest : Suite row d ls) :
      Suite row d (⟨d, .comment text⟩ :: ls)
  | statement {d : Nat} {ls : List Line} (st : Statement) (n : Nat)
      (rest : Suite .statements d ls) : Suite .statements d (⟨d, .statement st n⟩ :: ls)
  | block {d n : Nat} {h : Header} {b ls : List Line} (alone : h.standsAlone = true)
      (body : Suite .statements (d + 1) b) (rest : Suite .statements d ls) :
      Suite .statements d (⟨d, .header h n⟩ :: withFiller (d + 1) b ++ ls)
  | alternative {d n n' : Nat} {h : Header} {b b' ls : List Line} (condition : h.isCondition = true)
      (body : Suite .statements (d + 1) b) (otherwise : Suite .statements (d + 1) b')
      (rest : Suite .statements d ls) :
      Suite .statements d (⟨d, .header h n⟩ :: withFiller (d + 1) b ++
        ⟨d, .header .otherwise n'⟩ :: withFiller (d + 1) b' ++ ls)
  | tryExcept {d n n' : Nat} {e : Name} {b b' ls : List Line} (body : Suite .statements (d + 1) b)
      (handler : Suite .statements (d + 1) b') (rest : Suite .statements d ls) :
      Suite .statements d (⟨d, .header .tryBlock n⟩ :: withFiller (d + 1) b ++
        ⟨d, .header (.exceptBlock e) n'⟩ :: withFiller (d + 1) b' ++ ls)
  | tryFinally {d n n' : Nat} {b b' ls : List Line} (body : Suite .statements (d + 1) b)
      (cleanup : Suite .statements (d + 1) b') (rest : Suite .statements d ls) :
      Suite .statements d (⟨d, .header .tryBlock n⟩ :: withFiller (d + 1) b ++
        ⟨d, .header .finallyBlock n'⟩ :: withFiller (d + 1) b' ++ ls)
  | tryExceptFinally {d n n' n'' : Nat} {e : Name} {b b' b'' ls : List Line}
      (body : Suite .statements (d + 1) b) (handler : Suite .statements (d + 1) b')
      (cleanup : Suite .statements (d + 1) b'') (rest : Suite .statements d ls) :
      Suite .statements d (⟨d, .header .tryBlock n⟩ :: withFiller (d + 1) b ++
        ⟨d, .header (.exceptBlock e) n'⟩ :: withFiller (d + 1) b' ++
        ⟨d, .header .finallyBlock n''⟩ :: withFiller (d + 1) b'' ++ ls)
  /-- A match has a case. -/
  | matching {d n : Nat} {e : Expr} {b ls : List Line} (body : Suite .cases (d + 1) b)
      (cased : b.all Line.isComment = false) (rest : Suite .statements d ls) :
      Suite .statements d (⟨d, .header (.matching e) n⟩ :: b ++ ls)
  | guarded {d n : Nat} {c : Name} {e : Expr} {b ls : List Line}
      (body : Suite .statements (d + 1) b) (rest : Suite .cases d ls) :
      Suite .cases d (⟨d, .header (.caseEqual c e) n⟩ :: withFiller (d + 1) b ++ ls)
  /-- Only comments follow the case without a guard. -/
  | unguarded {d n : Nat} {b ls : List Line} (body : Suite .statements (d + 1) b)
      (rest : Suite .cases d ls) (last : ls.all Line.isComment = true) :
      Suite .cases d (⟨d, .header .caseAny n⟩ :: withFiller (d + 1) b ++ ls)
  | classBody {d n : Nat} {name : Name} {base : Option Expr} {b ls : List Line}
      (body : Suite .methods (d + 1) b) (rest : Suite .statements d ls) :
      Suite .statements d (⟨d, .header (.classBody name base) n⟩ :: withFiller (d + 1) b ++ ls)
  | method {d n : Nat} {name : String} {ps : List Name} {b ls : List Line}
      (body : Suite .statements (d + 1) b) (rest : Suite .methods d ls) :
      Suite .methods d (⟨d, .header (.method name ps) n⟩ :: withFiller (d + 1) b ++ ls)

/-- Lines of a row that do not start a block. -/
inductive Line.Flat (row : Row) (d : Nat) : Line → Prop where
  | comment (text : String) : Flat row d ⟨d, .comment text⟩
  | statement (st : Statement) (n : Nat) (h : row = .statements) : Flat row d ⟨d, .statement st n⟩

namespace Suite

variable {row : Row} {d : Nat} {ls ms : List Line}

theorem flat_append (h : ∀ x ∈ ls, x.Flat row d) (hms : Suite row d ms) :
    Suite row d (ls ++ ms) := by
  induction ls with
  | nil => exact hms
  | cons x ls ih =>
    have hrest := ih fun y hy => h y (List.mem_cons_of_mem x hy)
    cases h x List.mem_cons_self with
    | comment text => exact .comment text hrest
    | statement st n hrow =>
      subst hrow
      exact .statement st n hrest

theorem append_flat (h : Suite row d ls) (hms : ∀ x ∈ ms, x.Flat row d) :
    Suite row d (ls ++ ms) := by
  induction h with
  | done => simpa using flat_append hms .done
  | comment text _ ih => exact .comment text (ih hms)
  | statement st n _ ih => exact .statement st n (ih hms)
  | block alone body _ _ ih =>
    rw [List.append_assoc]
    exact .block alone body (ih hms)
  | alternative condition body otherwise _ _ _ ih =>
    rw [List.append_assoc]
    exact .alternative condition body otherwise (ih hms)
  | tryExcept body handler _ _ _ ih =>
    rw [List.append_assoc]
    exact .tryExcept body handler (ih hms)
  | tryFinally body cleanup _ _ _ ih =>
    rw [List.append_assoc]
    exact .tryFinally body cleanup (ih hms)
  | tryExceptFinally body handler cleanup _ _ _ _ ih =>
    rw [List.append_assoc]
    exact .tryExceptFinally body handler cleanup (ih hms)
  | matching body cased _ _ ih =>
    rw [List.append_assoc]
    exact .matching body cased (ih hms)
  | guarded body _ _ ih =>
    rw [List.append_assoc]
    exact .guarded body (ih hms)
  | unguarded body _ last _ ih =>
    rw [List.append_assoc]
    refine .unguarded body (ih hms) ?_
    rw [List.all_append, last, Bool.true_and, List.all_eq_true]
    intro x hx
    cases hms x hx with
    | comment text => rfl
    | statement st n hrow => cases hrow
  | classBody body _ _ ih =>
    rw [List.append_assoc]
    exact .classBody body (ih hms)
  | method body _ _ ih =>
    rw [List.append_assoc]
    exact .method body (ih hms)

/-- Among comments alone, none starts a block. -/
theorem flat_of_comments (h : Suite row d ls) (hls : ls.all Line.isComment = true) :
    ∀ x ∈ ls, x.Flat row d := by
  induction h with
  | done => simp
  | comment text _ ih => exact List.forall_mem_cons.mpr ⟨.comment text, ih hls⟩
  | _ => simp [Line.isComment] at hls

end Suite

def Line.isHeader (l : Line) : Bool :=
  match l.content with
  | .header _ _ => true
  | _ => false

/-- How deep the next line may stand: one level deeper after a header, and nowhere else deeper. -/
def Line.Precedes (x y : Line) : Prop :=
  if x.isHeader then y.depth = x.depth + 1 else y.depth ≤ x.depth

/-- Lines from depth `d` on, each as deep as the line before it demands. -/
structure Steps (d : Nat) (ls : List Line) : Prop where
  chain : ls.IsChain Line.Precedes
  first : ∀ x ∈ ls.head?, x.depth = d
  inside : ∀ x ∈ ls, d ≤ x.depth
  last : ∀ x ∈ ls.getLast?, x.isHeader = false

namespace Steps

variable {d : Nat} {ls ms : List Line}

theorem nil : Steps d [] := by
  constructor <;> simp

theorem single {x : Line} (hd : x.depth = d) (hx : x.isHeader = false) : Steps d [x] := by
  constructor <;> simp [hd, hx]

theorem append (h : Steps d ls) (h' : Steps d ms) : Steps d (ls ++ ms) := by
  refine ⟨?_, ?_, List.forall_mem_append.mpr ⟨h.inside, h'.inside⟩, ?_⟩
  · refine List.isChain_append.mpr ⟨h.chain, h'.chain, ?_⟩
    intro x hx y hy
    unfold Line.Precedes
    rw [if_neg (by simp [h.last x hx]), h'.first y hy]
    exact h.inside x (List.mem_of_getLast? hx)
  · intro x hx
    rw [List.head?_append] at hx
    cases hls : ls.head? with
    | none => exact h'.first x (by simpa [hls] using hx)
    | some y => exact h.first x (by simpa [hls] using hx)
  · intro x hx
    rw [List.getLast?_append] at hx
    cases hms : ms.getLast? with
    | none => exact h.last x (by simpa [hms] using hx)
    | some y => exact h'.last x (by simpa [hms] using hx)

theorem header (h : Steps (d + 1) ls) (hls : ls ≠ []) (hd : Header) (n : Nat) :
    Steps d (⟨d, .header hd n⟩ :: ls) := by
  cases ls with
  | nil => exact absurd rfl hls
  | cons y ls =>
    refine ⟨List.isChain_cons_cons.mpr ⟨?_, h.chain⟩, by simp, ?_, ?_⟩
    · exact h.first y rfl
    · exact List.forall_mem_cons.mpr ⟨Nat.le_refl d, fun x hx => Nat.le_of_succ_le (h.inside x hx)⟩
    · simpa using h.last

theorem withFiller (h : Steps d ls) :
    Steps d (Python.withFiller d ls) ∧ Python.withFiller d ls ≠ [] := by
  unfold Python.withFiller
  split
  · exact ⟨h.append (single rfl rfl), by simp⟩
  · rename_i hls
    refine ⟨h, ?_⟩
    rintro rfl
    exact hls rfl

/-- A header and its body, which gets a `pass` if it holds no statement. -/
theorem body (h : Steps (d + 1) ls) (hd : Header) (n : Nat) :
    Steps d (⟨d, .header hd n⟩ :: Python.withFiller (d + 1) ls) :=
  h.withFiller.1.header h.withFiller.2 hd n

end Steps

/-- In a suite only headers increase the depth, each by one. -/
theorem Suite.steps {row : Row} {d : Nat} {ls : List Line} (h : Suite row d ls) : Steps d ls := by
  induction h with
  | done => exact .nil
  | @comment row d ls text _ ih => exact Steps.append (.single (d := d) rfl rfl) ih
  | @statement d ls st n _ ih => exact Steps.append (.single (d := d) rfl rfl) ih
  | block _ _ _ ihb ih => exact (ihb.body _ _).append ih
  | alternative _ _ _ _ ihb ihb' ih => exact ((ihb.body _ _).append (ihb'.body _ _)).append ih
  | tryExcept _ _ _ ihb ihb' ih => exact ((ihb.body _ _).append (ihb'.body _ _)).append ih
  | tryFinally _ _ _ ihb ihb' ih => exact ((ihb.body _ _).append (ihb'.body _ _)).append ih
  | tryExceptFinally _ _ _ _ ihb ihb' ihb'' ih =>
    exact (((ihb.body _ _).append (ihb'.body _ _)).append (ihb''.body _ _)).append ih
  | matching _ cased _ ihb ih =>
    refine (ihb.header ?_ _ _).append ih
    rintro rfl
    cases cased
  | guarded _ _ ihb ih => exact (ihb.body _ _).append ih
  | unguarded _ _ _ ihb ih => exact (ihb.body _ _).append ih
  | classBody _ _ ihb ih => exact (ihb.body _ _).append ih
  | method _ _ ihb ih => exact (ihb.body _ _).append ih

/-- The blocks that are open after lines have been added to the innermost one: it holds a statement as
soon as not all its lines are comments. -/
def fillWith (ls : List Line) : List Bool → List Bool
  | [] => []
  | b :: bs => (b || !ls.all Line.isComment) :: bs

section

variable {ls ms : List Line} {filled : List Bool}

theorem fillWith_of_comments (h : ls.all Line.isComment = true) : fillWith ls filled = filled := by
  cases filled with
  | nil => rfl
  | cons b bs => rw [fillWith, h, Bool.not_true, Bool.or_false]

theorem length_fillWith : (fillWith ls filled).length = filled.length := by
  cases filled <;> rfl

/-- Lines with a statement among them leave no difference to more lines. -/
theorem fillWith_append_of_statement (h : ls.all Line.isComment = false) :
    fillWith (ls ++ ms) filled = fillWith ls filled := by
  cases filled with
  | nil => rfl
  | cons b bs => simp [fillWith, h]

theorem fillWith_append : fillWith (ls ++ ms) filled = fillWith ms (fillWith ls filled) := by
  cases filled with
  | nil => rfl
  | cons b bs => simp [fillWith, Bool.or_assoc, ← Bool.not_and]

end

namespace Layout

theorem statement_eq (l : Layout) (st : Statement) (n : Nat) :
    (l.statement st n).lines.toList = l.lines.toList ++ [⟨l.depth, .statement st n⟩] ∧
      (l.statement st n).filled = fillWith [⟨l.depth, .statement st n⟩] l.filled := by
  cases hf : l.filled <;> simp [statement, push, fill, hf, fillWith, Line.isComment]

theorem enter_eq (l : Layout) (h : Header) (n : Nat) :
    (l.enter h n).lines.toList = l.lines.toList ++ [⟨l.depth, .header h n⟩] ∧
      (l.enter h n).filled = false :: fillWith [⟨l.depth, .header h n⟩] l.filled := by
  cases hf : l.filled <;> simp [enter, push, fill, hf, fillWith, Line.isComment]

theorem exit_eq (l : Layout) {b : Bool} {bs : List Bool} (h : l.filled = b :: bs) :
    l.exit.lines.toList = l.lines.toList ++ (if b then [] else [⟨bs.length + 1, .filler⟩]) ∧
      l.exit.filled = bs := by
  cases b <;> simp [exit, push, depth, h]

end Layout

/-- Whether the raw texts of a line are `Q` and its comments are `K`. -/
def Content.Within (Q K : String → Prop) : Content → Prop
  | .statement st _ => st.Over (fun _ => True) Q
  | .header h _ => h.Over (fun _ => True) Q
  | .comment text => K text
  | .filler => True

namespace Lifting

/-- Whether the raw texts of all bindings are `Q`. -/
def Sound (Q : String → Prop) (l : Lifting) : Prop :=
  ∀ x ∈ l.bindings, x.2.Over (fun _ => True) Q

/-- What adding the lines `ls` to a row does to the open switches. -/
def switchesAfter (row : Row) (ls : List Line) (switches : List Bool) : List Bool :=
  match row with
  | .cases => fillWith ls switches
  | .statements | .methods => switches

theorem switchesAfter_nil {row : Row} {switches : List Bool} :
    switchesAfter row [] switches = switches := by
  cases row with
  | cases => exact fillWith_of_comments rfl
  | statements | methods => rfl

theorem switchesAfter_append {row : Row} {ls ms : List Line} {switches : List Bool} :
    switchesAfter row (ls ++ ms) switches =
      switchesAfter row ms (switchesAfter row ls switches) := by
  cases row with
  | cases => exact fillWith_append
  | statements | methods => rfl

/-- Rendering adds lines to a row and leaves the blocks around it as they are. Between cases and
between methods nothing waits. -/
structure Appends (Q K : String → Prop) (row : Row) (l l' : Lifting) (ls : List Line) : Prop where
  lines : l'.layout.lines.toList = l.layout.lines.toList ++ ls
  within : ∀ x ∈ ls, x.content.Within Q K
  filled : l'.layout.filled = fillWith ls l.layout.filled
  switches : l'.switches = switchesAfter row ls l.switches
  idle : row ≠ .statements → l'.pending = []
  sound : l'.Sound Q

variable {Q K : String → Prop} {row : Row} {l l' l'' : Lifting} {ls ms : List Line}

theorem Appends.depth (h : l.Appends Q K row l' ls) : l'.layout.depth = l.layout.depth := by
  unfold Layout.depth
  rw [h.filled, length_fillWith]

theorem appends_refl (hl : l.Sound Q) (hidle : row ≠ .statements → l.pending = []) :
    l.Appends Q K row l [] := by
  exact ⟨by simp, by simp, (fillWith_of_comments rfl).symm, switchesAfter_nil.symm, hidle, hl⟩

theorem Appends.trans (h : l.Appends Q K row l' ls) (h' : l'.Appends Q K row l'' ms) :
    l.Appends Q K row l'' (ls ++ ms) := by
  refine ⟨?_, ?_, ?_, ?_, h'.idle, h'.sound⟩
  · rw [h'.lines, h.lines, List.append_assoc]
  · exact List.forall_mem_append.mpr ⟨h.within, h'.within⟩
  · rw [h'.filled, h.filled, fillWith_append]
  · rw [h'.switches, h.switches, switchesAfter_append]

/-- Rendering adds lines to a row, of which none starts a block. -/
def Flows (Q K : String → Prop) (row : Row) (l l' : Lifting) : Prop :=
  ∃ ls, l.Appends Q K row l' ls ∧ ∀ x ∈ ls, x.Flat row l.layout.depth

theorem flows_refl (hl : l.Sound Q) (hidle : row ≠ .statements → l.pending = []) :
    l.Flows Q K row l :=
  ⟨[], appends_refl hl hidle, by simp⟩

theorem Flows.trans (h : l.Flows Q K row l') (h' : l'.Flows Q K row l'') :
    l.Flows Q K row l'' := by
  obtain ⟨ls, ha, hls⟩ := h
  obtain ⟨ms, ha', hms⟩ := h'
  rw [ha.depth] at hms
  exact ⟨ls ++ ms, ha.trans ha', List.forall_mem_append.mpr ⟨hls, hms⟩⟩

theorem Flows.sound (h : l.Flows Q K row l') : l'.Sound Q := by
  obtain ⟨ls, ha, -⟩ := h
  exact ha.sound

end Lifting

namespace Render

/-- A computation that adds nothing but statements to the innermost block, and whose results are `R`. -/
def Straight {α : Type} (Q K : String → Prop) (m : Render α) (R : α → Prop) : Prop :=
  ∀ l : Lifting, l.Sound Q → l.Flows Q K .statements (m.run l).2 ∧ R (m.run l).1

section

open Lifting

variable {α β : Type} {s : Subject} {Q K : String → Prop} {R : α → Prop} {S : β → Prop} {n : Nat}
  {v : Variable} {e : Expr} {l : Lifting}

theorem straight_pure {a : α} (h : R a) : Straight Q K (pure a) R :=
  fun _ hl => ⟨flows_refl hl fun hne => absurd rfl hne, h⟩

theorem Straight.bind {m : Render α} {f : α → Render β} (h : Straight Q K m R)
    (hf : ∀ a, R a → Straight Q K (f a) S) : Straight Q K (m >>= f) S := by
  intro l hl
  obtain ⟨hm, ha⟩ := h l hl
  obtain ⟨hm', hb⟩ := hf _ ha _ hm.sound
  exact ⟨hm.trans hm', hb⟩

theorem straight_forM {f : α → Render Unit} (h : ∀ a, Straight Q K (f a) fun _ => True)
    (as : List α) : Straight Q K (as.forM f) fun _ => True := by
  induction as with
  | nil => exact straight_pure trivial
  | cons a as ih => exact (h a).bind fun _ _ => ih

theorem straight_mapM {f : α → Render β} (h : ∀ a, Straight Q K (f a) S) (as : List α) :
    Straight Q K (as.mapM f) fun bs => ∀ b ∈ bs, S b := by
  induction as with
  | nil => exact straight_pure (by simp)
  | cons a as ih =>
    rw [List.mapM_cons]
    refine (h a).bind fun b hb => ih.bind fun bs hbs => straight_pure ?_
    exact List.forall_mem_cons.mpr ⟨hb, hbs⟩

/-- What changes neither the lines nor the switches. -/
theorem straight_of_quiet {m : Render α}
    (h : ∀ l : Lifting, l.Sound Q → (m.run l).2.layout = l.layout ∧
      (m.run l).2.switches = l.switches ∧ (m.run l).2.Sound Q ∧ R (m.run l).1) :
    Straight Q K m R := by
  intro l hl
  obtain ⟨hlayout, hswitches, hsound, ha⟩ := h l hl
  refine ⟨⟨[], ⟨?_, by simp, ?_, hswitches, fun hne => absurd rfl hne, hsound⟩, by simp⟩, ha⟩
  · rw [hlayout, List.append_nil]
  · rw [hlayout, fillWith_of_comments rfl]

theorem flows_statement (hl : l.Sound Q) {st : Statement} (hst : st.Over (fun _ => True) Q) :
    l.Flows Q K .statements { l with layout := l.layout.statement st n } := by
  obtain ⟨hlines, hfilled⟩ := l.layout.statement_eq st n
  refine ⟨_, ⟨hlines, ?_, hfilled, rfl, fun hne => absurd rfl hne, hl⟩, ?_⟩
  · exact List.forall_mem_singleton.mpr hst
  · exact List.forall_mem_singleton.mpr (.statement st n rfl)

theorem straight_write (st : Statement) (hst : st.Over (fun _ => True) Q) :
    Straight Q K (write n st) fun _ => True :=
  fun _ hl => ⟨flows_statement hl hst, trivial⟩

theorem straight_setBinding (he : e.Over (fun _ => True) Q) :
    Straight Q K (setBinding v e) fun _ => True :=
  straight_of_quiet fun _ hl => ⟨rfl, rfl, List.forall_mem_cons.mpr ⟨he, hl⟩, trivial⟩

theorem straight_bindName : Straight Q K (bindName s v) fun _ => True :=
  (straight_setBinding (e := .name (s.nameOf v)) trivial).bind fun _ _ => straight_pure trivial

theorem straight_bindNames (vs : List Variable) : Straight Q K (bindNames s vs) fun _ => True := by
  intro l hl
  exact ⟨(straight_mapM (S := fun _ => True) (fun _ => straight_bindName) vs l hl).1, trivial⟩

theorem over_lookup (hl : l.Sound Q) (h : l.bindings.lookup v = some e) :
    e.Over (fun _ => True) Q := by
  obtain ⟨before, after, hsplit, -⟩ := List.lookup_eq_some_iff.mp h
  refine hl (v, e) ?_
  rw [hsplit]
  exact List.mem_append_right _ List.mem_cons_self

theorem straight_materialize : Straight Q K (materialize s n v) fun _ => True := by
  intro l hl
  unfold materialize
  rw [run_get_bind]
  cases hlookup : l.bindings.lookup v with
  | none => exact straight_pure (R := fun _ => True) trivial l hl
  | some e =>
    have he := over_lookup hl hlookup
    have hname : (Expr.name (s.nameOf v)).Over (fun _ => True) Q := trivial
    exact (straight_write (.bind _ e) he).bind (fun _ _ => straight_setBinding hname) l hl

theorem pending_materialize : ((materialize s n v).run l).2.pending = l.pending := by
  unfold materialize
  rw [run_get_bind]
  cases hlookup : l.bindings.lookup v <;> rfl

theorem pending_materializeAll (vs : List Variable) :
    ((vs.forM (materialize s n)).run l).2.pending = l.pending := by
  induction vs generalizing l with
  | nil => rfl
  | cons v vs ih => rw [run_forM_cons, ih, pending_materialize]

theorem straight_queue (vs : List Variable) (k : Lifting → List Variable) :
    Straight Q K (vs.forM (materialize s n) >>= fun _ =>
      modify fun l => { l with pending := k l }) fun _ => True :=
  (straight_forM (fun _ => straight_materialize) vs).bind fun _ _ =>
    straight_of_quiet fun _ hl => ⟨rfl, rfl, hl, trivial⟩

theorem straight_drain : Straight Q K (drain s n) fun _ => True := by
  intro l hl
  obtain ⟨⟨ls, ha, hls⟩, -⟩ := straight_forM (Q := Q) (K := K)
    (fun _ => straight_materialize (s := s) (n := n)) l.pending { l with pending := [] } hl
  exact ⟨⟨ls, ⟨ha.lines, ha.within, ha.filled, ha.switches, ha.idle, ha.sound⟩, hls⟩, trivial⟩

theorem pending_drain : ((drain s n).run l).2.pending = [] :=
  pending_materializeAll (l := { l with pending := [] }) l.pending

/-- Emptying a queue in which nothing waits changes nothing. -/
theorem run_drain_of_idle (h : l.pending = []) : ((drain s n).run l).2 = l := by
  obtain ⟨layout, bindings, pending, switches, declarations⟩ := l
  subst h
  rfl

theorem straight_emit (st : Statement) (hst : st.Over (fun _ => True) Q) :
    Straight Q K (emit s n st) fun _ => True :=
  straight_drain.bind fun _ _ => straight_write st hst

theorem straight_assign (he : e.Over (fun _ => True) Q) :
    Straight Q K (assign s n v e) fun _ => True :=
  (straight_emit (.bind _ e) he).bind fun _ _ => straight_setBinding trivial

theorem straight_declare (he : e.Over (fun _ => True) Q) :
    Straight Q K (declare s n v e) fun _ => True := by
  have hqueue : Straight Q K
      (modify fun l => { l with pending := l.pending ++ [v] } : Render Unit) fun _ => True :=
    straight_of_quiet fun _ hl => ⟨rfl, rfl, hl, trivial⟩
  unfold declare
  dsimp only
  split
  · split
    · split
      · exact (straight_setBinding he).bind fun _ _ => hqueue
      · split
        · exact straight_emit (.expression e) he
        · exact straight_assign he
    · split
      · exact straight_setBinding he
      · exact straight_assign he
  · exact straight_assign he

theorem straight_settle (inputs : List (Variable × Slot)) :
    Straight Q K (settle s n inputs) fun _ => True := by
  intro l hl
  exact straight_queue (s := s) (n := n) (boundFirst inputs l.pending) _ l hl

theorem straight_operand (input : Variable × Slot) :
    Straight Q K (operand s n input) fun e => e.Over (fun _ => True) Q := by
  obtain ⟨v, slot⟩ := input
  intro l hl
  have he : ((l.bindings.lookup v).getD (.name (s.nameOf v))).Over (fun _ => True) Q := by
    cases hlookup : l.bindings.lookup v with
    | none => trivial
    | some e => exact over_lookup hl hlookup
  unfold operand
  dsimp only
  rw [run_get_bind]
  split
  · exact (straight_write (.bind _ _) he).bind (fun _ _ => straight_pure trivial) l hl
  · exact straight_pure he l hl

theorem straight_operands (inputs : List (Variable × Slot)) :
    Straight Q K (operands s n inputs) (Expr.AllOver (fun _ => True) Q) := by
  refine (straight_settle inputs).bind fun _ _ => ?_
  intro l hl
  obtain ⟨hm, hes⟩ := straight_mapM (straight_operand (s := s) (n := n)) inputs l hl
  exact ⟨hm, Expr.allOver_iff.mpr hes⟩

/-- Where nothing waits and no name is needed, inputs change nothing. -/
theorem run_operands_of_idle {inputs : List (Variable × Slot)} (h : l.pending = [])
    (hinputs : ∀ input ∈ inputs, input.2 ≠ .name) : ((operands s n inputs).run l).2 = l := by
  have hsettle : ((settle s n inputs).run l).2 = l := by
    obtain ⟨layout, bindings, pending, switches, declarations⟩ := l
    subst h
    unfold settle
    rw [run_get_bind]
    simp only [run_bind, List.take_nil, List.drop_nil]
    rfl
  have hoperand {input : Variable × Slot} (hinput : input.2 ≠ .name) :
      ((operand s n input).run l).2 = l := by
    obtain ⟨v, slot⟩ := input
    have hslot : decide (slot = .name) = false := decide_eq_false hinput
    unfold operand
    dsimp only
    rw [run_get_bind]
    rw [hslot, Bool.false_and]
    rfl
  unfold operands
  rw [run_bind, hsettle]
  clear hsettle
  induction inputs with
  | nil => rfl
  | cons input inputs ih =>
    rw [List.mapM_cons, run_bind, hoperand (hinputs input List.mem_cons_self), run_bind]
    exact ih fun x hx => hinputs x (List.mem_cons_of_mem _ hx)

theorem Finish.straight {f : Finish} (hf : f.Over (fun _ => True) Q) :
    Straight Q K (f.run s n) fun _ => True := by
  cases f with
  | declare v e => exact straight_declare hf
  | assign v e => exact straight_assign hf
  | emit st => exact straight_emit st hf

/-- An instruction inside of a body adds nothing but statements. -/
theorem straight_instruction {i : Instruction} (hi : i.isBlock = false)
    (hQ : ∀ text ∈ i.rawTexts, Q text) : Straight Q K (instruction s i) fun _ => True := by
  obtain ⟨f, hf⟩ := exists_finish s hi hQ
  rw [hf.run]
  exact (straight_operands _).bind fun es hes => Finish.straight (hf.inScope hes)

/-- The declarations at the start of a body are statements. -/
theorem straight_declareOuter {i : Instruction} :
    Straight Q K (declareOuter s i) fun _ => True := by
  have hwrite (st : Statement) {b : Bool} (hst : st.Over (fun _ => True) Q) :
      Straight Q K (if b then write i.index st else pure ()) fun _ => True := by
    split
    · exact straight_write st hst
    · exact straight_pure trivial
  intro l hl
  unfold declareOuter
  rw [run_get_bind]
  dsimp only
  split
  · exact straight_pure (R := fun _ => True) trivial l hl
  · rename_i outer _
    have hglobals : (Statement.globals (outer.globals.map fun n => s.nameOf ⟨n⟩)).Over
        (fun _ => True) Q := fun _ _ => trivial
    have hnonlocals : (Statement.nonlocals (outer.nonlocals.map fun n => s.nameOf ⟨n⟩)).Over
        (fun _ => True) Q := fun _ _ => trivial
    refine Straight.bind (R := fun _ => True) (S := fun _ => True) (straight_of_quiet ?_)
      (fun _ _ => ?_) l hl
    · exact fun _ hl => ⟨rfl, rfl, hl, trivial⟩
    · split
      · exact (straight_write _ hglobals).bind fun _ _ => hwrite _ hnonlocals
      · exact hwrite _ hnonlocals

theorem lines_comment (layout : Layout) (css : List (List Char)) :
    let layout' := css.foldl (fun l cs => l.push (.comment (String.ofList cs))) layout
    layout'.lines.toList = layout.lines.toList ++
        css.map (fun cs => ⟨layout.depth, .comment (String.ofList cs)⟩) ∧
      layout'.filled = layout.filled := by
  induction css generalizing layout with
  | nil => simp
  | cons cs css ih =>
    obtain ⟨hlines, hfilled⟩ := ih (layout.push (.comment (String.ofList cs)))
    refine ⟨?_, hfilled⟩
    rw [List.foldl_cons, hlines]
    simp [Layout.push, Layout.depth]

/-- Whether the lines of all comments that are written are `K`. -/
def Commented (K : String → Prop) (wanted : Bool) (texts : Nat → Option String) : Prop :=
  ∀ n, ∀ text ∈ texts n, wanted = true → ∀ cs ∈ Text.lines text.toList, K (String.ofList cs)

/-- A comment may stand anywhere. -/
theorem flows_note {row : Row} {wanted : Bool} {texts : Nat → Option String}
    (hK : Commented K wanted texts) (k : Nat) (hl : l.Sound Q)
    (hidle : row ≠ .statements → l.pending = []) :
    l.Flows Q K row ((note wanted (texts k)).run l).2 := by
  unfold note
  split
  · rename_i text htext
    obtain ⟨hlines, hfilled⟩ := lines_comment l.layout (Text.lines text.toList)
    have hcomments : ∀ x ∈ (Text.lines text.toList).map
        (fun cs => (⟨l.layout.depth, .comment (String.ofList cs)⟩ : Line)), ∃ cs ∈
          Text.lines text.toList, x = ⟨l.layout.depth, .comment (String.ofList cs)⟩ := by
      intro x hx
      obtain ⟨cs, hcs, rfl⟩ := List.mem_map.mp hx
      exact ⟨cs, hcs, rfl⟩
    have hall : ((Text.lines text.toList).map
        (fun cs => (⟨l.layout.depth, .comment (String.ofList cs)⟩ : Line))).all
          Line.isComment = true := by
      rw [List.all_eq_true]
      intro x hx
      obtain ⟨cs, -, rfl⟩ := hcomments x hx
      rfl
    refine ⟨_, ⟨hlines, ?_, ?_, ?_, hidle, hl⟩, ?_⟩
    · intro x hx
      obtain ⟨cs, hcs, rfl⟩ := hcomments x hx
      exact hK k text htext rfl cs hcs
    · rw [fillWith_of_comments hall]
      exact hfilled
    · cases row with
      | cases => exact (fillWith_of_comments hall).symm
      | statements | methods => rfl
    · intro x hx
      obtain ⟨cs, -, rfl⟩ := hcomments x hx
      exact .comment _
  · exact flows_refl hl hidle

end
end Render

namespace Lifting

/-- Since `l`, rendering has added the lines `before`, the last of which is a header, and `b` to the
block of this header, where `switches` were open. -/
structure Inside (Q K : String → Prop) (inner : Row) (l l' : Lifting) (before b : List Line)
    (switches : List Bool) : Prop where
  lines : l'.layout.lines.toList = l.layout.lines.toList ++ before ++ b
  suite : Suite inner (l.layout.depth + 1) b
  headed : before.all Line.isComment = false
  within : ∀ x ∈ before ++ b, x.content.Within Q K
  filled : l'.layout.filled = fillWith b (false :: fillWith before l.layout.filled)
  switches : l'.switches = switchesAfter inner b switches
  idle : inner ≠ .statements → l'.pending = []
  sound : l'.Sound Q

variable {Q K : String → Prop} {row inner : Row} {l l' l'' : Lifting}
  {ls before b : List Line} {switches : List Bool}

theorem Inside.depth (h : l.Inside Q K inner l' before b switches) :
    l'.layout.depth = l.layout.depth + 1 := by
  unfold Layout.depth
  rw [h.filled, length_fillWith, List.length_cons, length_fillWith]

/-- More lines in the block. -/
theorem Inside.appends (h : l.Inside Q K inner l' before b switches)
    (ha : l'.Appends Q K inner l'' ls) (hs : Suite inner (l.layout.depth + 1) (b ++ ls)) :
    l.Inside Q K inner l'' before (b ++ ls) switches := by
  refine ⟨?_, hs, h.headed, ?_, ?_, ?_, ha.idle, ha.sound⟩
  · rw [ha.lines, h.lines, List.append_assoc]
  · rw [← List.append_assoc]
    exact List.forall_mem_append.mpr ⟨h.within, ha.within⟩
  · rw [ha.filled, h.filled, fillWith_append]
  · rw [ha.switches, h.switches, switchesAfter_append]

theorem Inside.flows (h : l.Inside Q K inner l' before b switches)
    (hf : l'.Flows Q K inner l'') : ∃ ls, l.Inside Q K inner l'' before (b ++ ls) switches ∧
      ∀ x ∈ ls, x.Flat inner (l.layout.depth + 1) := by
  obtain ⟨ls, ha, hls⟩ := hf
  rw [h.depth] at hls
  exact ⟨ls, h.appends ha (h.suite.append_flat hls), hls⟩

/-- A block is in the lines, and starts from any state with the same lines. -/
theorem Inside.of_layout_eq {k : Lifting} (h : l.Inside Q K inner l' before b switches)
    (hk : k.layout = l.layout) : k.Inside Q K inner l' before b switches := by
  obtain ⟨hlines, hsuite, headed, hwithin, hfilled, hswitches, hidle, hsound⟩ := h
  rw [← hk] at hlines hsuite hfilled
  exact ⟨hlines, hsuite, headed, hwithin, hfilled, hswitches, hidle, hsound⟩

theorem Appends.inside (ha : l.Appends Q K row l' ls)
    (h : l'.Inside Q K inner l'' before b switches) :
    l.Inside Q K inner l'' (ls ++ before) b switches := by
  refine ⟨?_, ?_, ?_, ?_, ?_, h.switches, h.idle, h.sound⟩
  · rw [h.lines, ha.lines, List.append_assoc _ ls]
  · rw [← ha.depth]
    exact h.suite
  · rw [List.all_append, h.headed, Bool.and_false]
  · rw [List.append_assoc]
    exact List.forall_mem_append.mpr ⟨ha.within, h.within⟩
  · rw [h.filled, ha.filled, fillWith_append]

end Lifting

namespace Render

open Lifting

variable {α : Type} {s : Subject} {Q K : String → Prop} {R : α → Prop} {n : Nat} {l l' : Lifting}
  {inner : Row} {before b : List Line}

/-- A header starts a block. What waited is written before it. -/
theorem inside_enter (hl : l.Sound Q) (inner : Row) {h : Header} (hh : h.Over (fun _ => True) Q) :
    ∃ ls, (∀ x ∈ ls, x.Flat .statements l.layout.depth) ∧ (l.pending = [] → ls = []) ∧
      l.Inside Q K inner ((enter s n h).run l).2 (ls ++ [⟨l.layout.depth, .header h n⟩]) []
        l.switches := by
  obtain ⟨⟨ls, ha, hls⟩, -⟩ := straight_drain (K := K) (s := s) (n := n) l hl
  refine ⟨ls, hls, ?_, ?_⟩
  · intro hp
    have hlines := ha.lines
    rw [run_drain_of_idle hp] at hlines
    simpa using hlines
  · obtain ⟨hlines, hfilled⟩ := ((drain s n).run l).2.layout.enter_eq h n
    rw [← ha.depth]
    refine ha.inside ⟨?_, .done, rfl, ?_, hfilled, ?_, fun _ => pending_drain, ha.sound⟩
    · rw [List.append_nil]
      exact hlines
    · exact List.forall_mem_singleton.mpr hh
    · rw [switchesAfter_nil]
      exact ha.switches

/-- A computation that takes what the header needs, and the header. -/
theorem inside_bind_enter {m : Render α} (hm : Straight Q K m R) {h : α → Header}
    (hh : ∀ a, R a → (h a).Over (fun _ => True) Q) (hl : l.Sound Q) (inner : Row) :
    ∃ a ls, R a ∧ (∀ x ∈ ls, x.Flat .statements l.layout.depth) ∧
      l.Inside Q K inner ((m >>= fun a => enter s n (h a)).run l).2
        (ls ++ [⟨l.layout.depth, .header (h a) n⟩]) [] l.switches := by
  obtain ⟨⟨ls, ha, hls⟩, hr⟩ := hm l hl
  obtain ⟨ms, hms, -, hinside⟩ := inside_enter (s := s) (n := n) ha.sound inner (hh _ hr)
  rw [ha.depth] at hms hinside
  refine ⟨(m.run l).1, ls ++ ms, hr, List.forall_mem_append.mpr ⟨hls, hms⟩, ?_⟩
  rw [List.append_assoc, run_bind]
  have := ha.inside hinside
  rwa [show (m.run l).2.switches = l.switches from ha.switches] at this

/-- The end of a body, which gets a `pass` if it holds no statement. -/
theorem appends_exit (h : l.Inside Q K inner l' before b l.switches) (hinner : inner ≠ .cases) :
    ∃ b', Suite inner (l.layout.depth + 1) b' ∧
      l.Appends Q K .statements ((exit s n).run l').2
        (before ++ withFiller (l.layout.depth + 1) b') ∧ ((exit s n).run l').2.pending = [] := by
  have hdrain : l'.Flows Q K inner ((drain s n).run l').2 := by
    cases inner with
    | statements => exact (straight_drain l' h.sound).1
    | methods =>
      rw [run_drain_of_idle (h.idle Row.noConfusion)]
      exact flows_refl h.sound h.idle
    | cases => exact absurd rfl hinner
  obtain ⟨ls, h', -⟩ := h.flows hdrain
  generalize b ++ ls = b' at h'
  have hlength : (fillWith before l.layout.filled).length = l.layout.depth := length_fillWith
  obtain ⟨hlines, hfilled⟩ := ((drain s n).run l').2.layout.exit_eq h'.filled
  rw [hlength, Bool.false_or, h'.lines, List.append_assoc, List.append_assoc] at hlines
  refine ⟨b', h'.suite, ⟨?_, ?_, ?_, ?_, fun hne => absurd rfl hne, h'.sound⟩, ?_⟩
  · refine hlines.trans ?_
    unfold withFiller
    cases b'.all Line.isComment <;> simp
  · have hwithin := List.forall_mem_append.mp h'.within
    refine List.forall_mem_append.mpr ⟨hwithin.1, ?_⟩
    unfold withFiller
    split
    · exact List.forall_mem_append.mpr ⟨hwithin.2, List.forall_mem_singleton.mpr trivial⟩
    · exact hwithin.2
  · rw [fillWith_append_of_statement h.headed]
    exact hfilled
  · cases inner with
    | statements | methods => exact h'.switches
    | cases => exact absurd rfl hinner
  · exact pending_drain

end Render

end Python
end ScriptFuzz
