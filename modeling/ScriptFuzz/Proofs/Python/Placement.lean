import ScriptFuzz.Proofs.Python.Homes
import ScriptFuzz.Proofs.Python.ScopedBlocks

/-!
# Where names are bound

`Line.Placed` says of a line that what it binds is at home in the function or method around it, and that
it assigns where the code does. `Leads` says of a part of rendering that it writes such lines on the way
from some open blocks to others. It is closed under sequencing, so an instruction leads from the blocks
before it to those after it because its parts do.
-/

namespace ScriptFuzz

set_option autoImplicit false

namespace Python

/-- The blocks around what stands at depth `d` behind lines, innermost first, by the positions of the
instructions that start them. -/
def blocksAt (ls : List Line) (d : Nat) : List Nat :=
  let path := (ls.foldl Reading.line {}).path
  path.drop (path.length - d)

/-- Whether a header starts the body of a function or method. -/
def Header.opensFrame : Header → Bool
  | .function _ _ | .method _ _ => true
  | _ => false

/-- The position of the function or method whose header or whose declarations of outer variables a line
holds. -/
def Content.frame? : Content → Option Nat
  | .statement (.globals _) n | .statement (.nonlocals _) n => some n
  | .header (.function _ _) n | .header (.method _ _) n => some n
  | _ => none

/-- What is right about the place of a line behind the lines `ls`. -/
structure Line.Placed (s : Subject) (ls : List Line) (x : Line) : Prop where
  binds : ∀ d v, (d, s.nameOf v) ∈ x.binders →
    s.code.Home v (s.code.innermost (blocksAt (ls ++ [x]) d))
  assigns : ∀ i ∈ s.code, ∀ target, x.content.Assigns i.index target →
    blocksAt ls x.depth = s.code.blocksAround i
  frames : ∀ hd n, x.content = .header hd n → hd.opensFrame = (s.code[n]?).any (·.op.opensFrame)

/-- Every line has its right place. -/
def WellPlaced (s : Subject) (ls : List Line) : Prop :=
  ∀ a x b, ls = a ++ x :: b → x.Placed s a

/-- The header binds what its instruction declares, in the blocks `path` and inside of its own. -/
structure Header.Places (s : Subject) (path : List Nat) (n : Nat) (hd : Header) : Prop where
  binds : ∀ d k v, (k, s.nameOf v) ∈ (⟨d, .header hd n⟩ : Line).binders →
    k = d ∧ s.code.Home v (s.code.innermost path) ∨
      k = d + 1 ∧ s.code.Home v (s.code.innermost (n :: path))
  frame : hd.opensFrame = (s.code[n]?).any (·.op.opensFrame)

section

variable {s : Subject} {ls ms : List Line} {x : Line} {d n : Nat} {path : List Nat}

theorem wellPlaced_nil : WellPlaced s [] := by
  intro a x b h
  cases a <;> cases h

theorem WellPlaced.push (h : WellPlaced s ls) (hx : x.Placed s ls) : WellPlaced s (ls ++ [x]) :=
  forall_splits_push h hx

/-- A line that holds nothing of the program has its place anywhere. -/
theorem placed_of_inert (h : x.content = .filler ∨ ∃ text, x.content = .comment text) :
    x.Placed s ls := by
  refine ⟨?_, ?_, ?_⟩
  · intro d v hv
    rw [binders_of_inert h] at hv
    cases hv
  · rintro i - target ⟨st, hst, -⟩
    rcases h with h | ⟨text, h⟩ <;> rw [h] at hst <;> cases hst
  · intro hd n hx
    rcases h with h | ⟨text, h⟩ <;> rw [h] at hx <;> cases hx

theorem WellPlaced.append_inert (h : WellPlaced s ls)
    (hms : ∀ x ∈ ms, x.content = .filler ∨ ∃ text, x.content = .comment text) :
    WellPlaced s (ls ++ ms) := by
  induction ms generalizing ls with
  | nil => rwa [List.append_nil]
  | cons x ms ih =>
    obtain ⟨hx, hms⟩ := List.forall_mem_cons.mp hms
    have hrest := ih (h.push (placed_of_inert hx)) hms
    rwa [List.append_assoc] at hrest

theorem blocksAt_statement (st : Statement) :
    blocksAt (ls ++ [⟨d, .statement st n⟩]) d = blocksAt ls d := by
  unfold blocksAt
  rw [List.foldl_append]
  exact Layout.trim_trim _ d

theorem blocksAt_header (hd : Header) (k : Nat) : blocksAt (ls ++ [⟨d, .header hd n⟩]) k =
    (n :: blocksAt ls d).drop ((blocksAt ls d).length + 1 - k) := by
  unfold blocksAt
  rw [List.foldl_append]
  rfl

theorem blocksAt_header_inner (hd : Header) (h : (blocksAt ls d).length = d) :
    blocksAt (ls ++ [⟨d, .header hd n⟩]) (d + 1) = n :: blocksAt ls d := by
  rw [blocksAt_header, h, Nat.sub_self, List.drop_zero]

theorem blocksAt_header_outer (hd : Header) (h : (blocksAt ls d).length = d) :
    blocksAt (ls ++ [⟨d, .header hd n⟩]) d = blocksAt ls d := by
  rw [blocksAt_header, h, Nat.add_sub_cancel_left, List.drop_one, List.tail_cons]

theorem Header.Places.placed {hd : Header} (h : hd.Places s (blocksAt ls d) n)
    (hd' : (blocksAt ls d).length = d) : Line.Placed s ls ⟨d, .header hd n⟩ := by
  refine ⟨?_, ?_, ?_⟩
  · intro k v hv
    rcases h.binds d k v hv with ⟨rfl, hhome⟩ | ⟨rfl, hhome⟩
    · rwa [blocksAt_header_outer hd hd']
    · rwa [blocksAt_header_inner hd hd']
  · rintro i - target ⟨st, hst, -⟩
    cases hst
  · intro hd' m hx
    cases hx
    exact h.frame

end

/-- What holds of the state while the blocks `blocks` are open. -/
structure Beside (s : Subject) (blocks : List Nat) (l : Lifting) : Prop where
  path : l.layout.path = blocks
  sound : l.layout.IsSound
  placed : WellPlaced s l.lines
  waiting : ∀ v ∈ l.pending, s.code.Home v (s.code.innermost blocks)

/-- Lines are added that start no function or method, and what is to be declared stays. -/
structure Lifting.Extends (l l' : Lifting) : Prop where
  lines : ∃ ms, l'.lines = l.lines ++ ms ∧ ∀ x ∈ ms, x.content.frame? = none
  declarations : l'.declarations = l.declarations

namespace Lifting.Extends

variable {l l' l'' : Lifting}

theorem refl (l : Lifting) : l.Extends l := ⟨⟨[], by simp, by simp⟩, rfl⟩

theorem trans (h : l.Extends l') (h' : l'.Extends l'') : l.Extends l'' := by
  obtain ⟨ms, hms, hnone⟩ := h.lines
  obtain ⟨ms', hms', hnone'⟩ := h'.lines
  refine ⟨⟨ms ++ ms', ?_, List.forall_mem_append.mpr ⟨hnone, hnone'⟩⟩,
    h'.declarations.trans h.declarations⟩
  rw [hms', hms, List.append_assoc]

end Lifting.Extends

namespace Subject

variable {s : Subject} {v w : Variable}

theorem nameOf_inj (h : s.nameOf v = s.nameOf w) : v = w := (Name.variable.inj h).2

end Subject

namespace Render

/-- A part of rendering writes lines in their places on the way from the blocks `path` to the blocks
`path'`. -/
def Leads {α : Type} (s : Subject) (path path' : List Nat) (m : Render α) : Prop :=
  ∀ l, Beside s path l → Beside s path' (m.run l).2 ∧ l.Extends (m.run l).2

variable {α β : Type} {s : Subject} {path path' path'' : List Nat} {l : Lifting} {n : Nat}
  {v : Variable} {vs : List Variable} {i : Instruction} {hd : Header}

/-! ## Parts of rendering -/

theorem leads_pure (a : α) : Leads s path path (pure a : Render α) := fun l h => ⟨h, .refl l⟩

theorem Leads.bind {m : Render α} {f : α → Render β} (hm : Leads s path path' m)
    (hf : ∀ a, Leads s path' path'' (f a)) : Leads s path path'' (m >>= f) := by
  intro l h
  obtain ⟨h', he⟩ := hm l h
  obtain ⟨h'', he'⟩ := hf (m.run l).1 _ h'
  exact ⟨h'', he.trans he'⟩

/-- What changes neither the lines nor what waits leads nowhere. -/
theorem leads_quiet {m : Render α} (hlayout : ∀ l, (m.run l).2.layout = l.layout)
    (hpending : ∀ l, (m.run l).2.pending ⊆ l.pending)
    (hdeclarations : ∀ l, (m.run l).2.declarations = l.declarations) : Leads s path path m := by
  intro l h
  refine ⟨⟨?_, ?_, ?_, fun v hv => h.waiting v (hpending l hv)⟩, ⟨[], ?_, by simp⟩,
    hdeclarations l⟩
  · rw [hlayout]
    exact h.path
  · rw [hlayout]
    exact h.sound
  · rw [Lifting.lines, hlayout]
    exact h.placed
  · rw [Lifting.lines, hlayout, List.append_nil]

theorem leads_setBinding (v : Variable) (e : Expr) : Leads s path path (setBinding v e) :=
  leads_quiet (fun _ => rfl) (fun _ => List.Subset.refl _) fun _ => rfl

theorem Names.leads {q : Render α} {a : α} (hq : Names s vs q a) : Leads s path path q :=
  leads_quiet hq.layout (fun l => by rw [hq.pending]; exact List.Subset.refl _) hq.declarations

/-- What follows a part of rendering that returns what is known, and only binds names. -/
theorem Leads.names {q : Render α} {a : α} {f : α → Render β} (hq : Names s vs q a)
    (hf : Leads s path path' (f a)) : Leads s path path' (q >>= f) := by
  intro l h
  obtain ⟨h', he⟩ := hq.leads l h
  obtain ⟨h'', he'⟩ := hf _ h'
  rw [run_bind, hq.result]
  exact ⟨h'', he.trans he'⟩

theorem length_path (h : Beside s path l) : (blocksAt l.lines l.layout.depth).length =
    l.layout.depth := by
  have hsound := h.sound
  unfold Layout.IsSound at hsound
  change (l.layout.reading.path.drop (l.layout.reading.path.length - l.layout.depth)).length = _
  rw [List.length_drop]
  omega

theorem blocksAt_lines (h : Beside s path l) : blocksAt l.lines l.layout.depth = path := h.path

/-- A statement that binds what is at home around it, and that assigns only where the code does. -/
theorem beside_write {st : Statement} (h : Beside s path l)
    (hbind : ∀ v e, st = .bind (s.nameOf v) e → s.code.Home v (s.code.innermost path))
    (hassign : st.target? ≠ none → ∀ i ∈ s.code, i.index = n → path = s.code.blocksAround i) :
    Beside s path ((write n st).run l).2 ∧
      ((write n st).run l).2.lines = l.lines ++ [⟨l.layout.depth, .statement st n⟩] := by
  have hextends := Layout.extends_statement h.sound st n
  have hlines : ((write n st).run l).2.lines = l.lines ++ [⟨l.layout.depth, .statement st n⟩] :=
    (l.layout.statement_eq st n).1
  refine ⟨⟨hextends.path.trans h.path, hextends.sound, ?_, h.waiting⟩, hlines⟩
  rw [hlines]
  refine h.placed.push ⟨?_, ?_, ?_⟩
  · intro d v hv
    cases st with
    | bind target e =>
      obtain ⟨rfl, rfl⟩ := Prod.mk.inj (List.mem_singleton.mp hv)
      rw [blocksAt_statement, blocksAt_lines h]
      exact hbind v e rfl
    | _ => cases hv
  · rintro i hi target ⟨st', hst, htarget⟩
    cases hst
    rw [blocksAt_lines h]
    exact hassign (by rw [htarget]; exact Option.some_ne_none _) i hi rfl
  · intro hd m hx
    cases hx

theorem leads_write {st : Statement}
    (hbind : ∀ v e, st = .bind (s.nameOf v) e → s.code.Home v (s.code.innermost path))
    (hassign : st.target? ≠ none → ∀ i ∈ s.code, i.index = n → path = s.code.blocksAround i)
    (hframe : (Content.statement st n).frame? = none) : Leads s path path (write n st) := by
  intro l h
  obtain ⟨h', hlines⟩ := beside_write h hbind hassign
  exact ⟨h', ⟨_, hlines, List.forall_mem_singleton.mpr hframe⟩, rfl⟩

theorem leads_bind {e : Expr} (hv : s.code.Home v (s.code.innermost path)) :
    Leads s path path (write n (.bind (s.nameOf v) e)) := by
  refine leads_write ?_ (fun h => absurd rfl h) rfl
  intro w e' hst
  rw [← Subject.nameOf_inj (Statement.bind.inj hst).1]
  exact hv

theorem leads_materialize (hv : s.code.Home v (s.code.innermost path)) :
    Leads s path path (materialize s n v) := by
  intro l h
  unfold materialize
  rw [run_get_bind]
  cases l.bindings.lookup v with
  | none => exact leads_pure () l h
  | some e => exact (leads_bind hv).bind (fun _ => leads_setBinding v _) l h

theorem leads_materializeAll (hvs : ∀ v ∈ vs, s.code.Home v (s.code.innermost path)) :
    Leads s path path (vs.forM (materialize s n)) := by
  induction vs with
  | nil => exact leads_pure ()
  | cons v vs ih =>
    obtain ⟨hv, hvs⟩ := List.forall_mem_cons.mp hvs
    exact (leads_materialize hv).bind fun _ => ih hvs

theorem leads_drain : Leads s path path (drain s n) := by
  intro l h
  obtain ⟨h', he⟩ := leads_materializeAll (n := n) h.waiting { l with pending := [] }
    ⟨h.path, h.sound, h.placed, List.forall_mem_nil _⟩
  exact ⟨h', he.lines, he.declarations⟩

theorem leads_settle (inputs : List (Variable × Slot)) : Leads s path path (settle s n inputs) := by
  intro l h
  have hfirst : ∀ v ∈ boundFirst inputs l.pending, s.code.Home v (s.code.innermost path) :=
    fun v hv => h.waiting v (List.mem_of_mem_take hv)
  obtain ⟨h', he⟩ := leads_materializeAll (n := n) hfirst l h
  refine ⟨⟨h'.path, h'.sound, h'.placed, ?_⟩, he.lines, he.declarations⟩
  intro v hv
  exact h.waiting v (List.mem_of_mem_drop (List.mem_of_mem_take hv))

theorem leads_operand (input : Variable × Slot) : Leads s path path (operand s n input) := by
  intro l h
  obtain ⟨v, slot⟩ := input
  unfold operand
  dsimp only
  rw [run_get_bind]
  split
  · have htemporary (e : Expr) : Leads s path path
        (write n (.bind (.temporary l.layout.lines.size) e)) := by
      refine leads_write ?_ (fun h => absurd rfl h) rfl
      intro w e' hst
      cases hst
    exact (htemporary _).bind (fun _ => leads_pure _) l h
  · exact leads_pure _ l h

theorem leads_operands (inputs : List (Variable × Slot)) :
    Leads s path path (operands s n inputs) := by
  refine (leads_settle inputs).bind fun _ => ?_
  induction inputs with
  | nil => exact leads_pure []
  | cons input inputs ih =>
    rw [List.mapM_cons]
    exact (leads_operand input).bind fun _ => ih.bind fun _ => leads_pure _

theorem leads_emit {st : Statement} (hbind : ∀ target e, st ≠ .bind target e)
    (hassign : st.target? ≠ none → ∀ i ∈ s.code, i.index = n → path = s.code.blocksAround i)
    (hframe : (Content.statement st n).frame? = none) : Leads s path path (emit s n st) :=
  leads_drain.bind fun _ => leads_write (fun _ e hst => absurd hst (hbind _ e)) hassign hframe

theorem leads_assign {e : Expr} (hv : s.code.Home v (s.code.innermost path)) :
    Leads s path path (assign s n v e) :=
  (leads_drain.bind fun _ => leads_bind hv).bind fun _ => leads_setBinding v _

/-- A variable waits only in the blocks around its declaration. -/
theorem leads_declare {e : Expr} (hv : s.code.Home v (s.code.innermost path)) :
    Leads s path path (declare s n v e) := by
  have hwait : Leads s path path (modify fun l => { l with pending := l.pending ++ [v] }) := by
    intro l h
    refine ⟨⟨h.path, h.sound, h.placed, ?_⟩, ⟨(Lifting.Extends.refl l).lines, rfl⟩⟩
    exact List.forall_mem_append.mpr ⟨h.waiting, List.forall_mem_singleton.mpr hv⟩
  unfold declare
  dsimp only
  split
  · split
    · split
      · exact (leads_setBinding v e).bind fun _ => hwait
      · split
        · exact leads_emit (by simp) (fun h => absurd rfl h) rfl
        · exact leads_assign hv
    · split
      · exact leads_setBinding v e
      · exact leads_assign hv
  · exact leads_assign hv

/-- Starting a block writes the header last, and nothing waits then. -/
theorem beside_enter (hhd : hd.Places s path n) (h : Beside s path l) :
    let l' := ((enter s n hd).run l).2
    Beside s (n :: path) l' ∧ l'.declarations = l.declarations ∧
      ∃ ms, l'.lines = l.lines ++ ms ++ [⟨path.length, .header hd n⟩] ∧
        ∀ x ∈ ms, x.content.frame? = none := by
  obtain ⟨h', he⟩ := leads_drain (n := n) l h
  have hpending := pending_drain (s := s) (n := n) (l := l)
  obtain ⟨ms, hms, hnone⟩ := he.lines
  unfold enter
  rw [run_bind]
  generalize ((drain s n).run l).2 = l₁ at h' he hpending hms
  have hblocks := blocksAt_lines h'
  have hlength := length_path h'
  have hdepth : l₁.layout.depth = path.length := by rw [← hlength, hblocks]
  have hextends := Layout.extends_enter h'.sound hd n
  have hlines : (l₁.layout.enter hd n).lines.toList =
      l₁.lines ++ [⟨l₁.layout.depth, .header hd n⟩] := (l₁.layout.enter_eq hd n).1
  refine ⟨⟨?_, hextends.sound, ?_, ?_⟩, he.declarations, ms, ?_, hnone⟩
  · change (l₁.layout.enter hd n).path = n :: path
    rw [hextends.path, h'.path]
  · change WellPlaced s (l₁.layout.enter hd n).lines.toList
    rw [hlines]
    rw [← hblocks] at hhd
    exact h'.placed.push (hhd.placed hlength)
  · change ∀ v ∈ l₁.pending, _
    rw [hpending]
    exact List.forall_mem_nil _
  · change (l₁.layout.enter hd n).lines.toList = _
    rw [hlines, hms, hdepth]

theorem leads_enter (hhd : hd.Places s path n) (hframe : hd.opensFrame = false) :
    Leads s path (n :: path) (enter s n hd) := by
  intro l h
  obtain ⟨h', hdeclarations, ms, hlines, hnone⟩ := beside_enter hhd h
  refine ⟨h', ⟨_, hlines.trans (List.append_assoc _ _ _), ?_⟩, hdeclarations⟩
  refine List.forall_mem_append.mpr ⟨hnone, List.forall_mem_singleton.mpr ?_⟩
  cases hd <;> first | rfl | cases hframe

theorem lines_exit (l : Layout) : ∃ ms, l.exit.lines.toList = l.lines.toList ++ ms ∧
    ∀ x ∈ ms, x.content = .filler := by
  cases hfilled : l.filled with
  | nil =>
    refine ⟨[], ?_, by simp⟩
    rw [Layout.exit, hfilled, List.append_nil]
  | cons b bs =>
    refine ⟨_, (l.exit_eq hfilled).1, ?_⟩
    cases b <;> simp

theorem leads_exit : Leads s path path.tail (exit s n) := by
  intro l h
  obtain ⟨h', he⟩ := leads_drain (n := n) l h
  have hpending := pending_drain (s := s) (n := n) (l := l)
  unfold exit
  rw [run_bind]
  generalize ((drain s n).run l).2 = l₁ at h' he hpending
  have hextends := Layout.extends_exit h'.sound
  obtain ⟨ms, hms, hfiller⟩ := lines_exit l₁.layout
  have hexit : l₁.Extends { l₁ with layout := l₁.layout.exit } := by
    refine ⟨⟨ms, hms, fun x hx => ?_⟩, rfl⟩
    rw [hfiller x hx]
    rfl
  refine ⟨⟨?_, hextends.sound, ?_, ?_⟩, he.trans hexit⟩
  · change l₁.layout.exit.path = path.tail
    rw [hextends.path, h'.path]
  · change WellPlaced s l₁.layout.exit.lines.toList
    rw [hms]
    exact h'.placed.append_inert fun x hx => .inl (hfiller x hx)
  · change ∀ v ∈ l₁.pending, _
    rw [hpending]
    exact List.forall_mem_nil _

theorem lines_comments (l : Layout) (css : List (List Char)) :
    ∃ ms, (css.foldl (fun l cs => l.push (.comment (String.ofList cs))) l).lines.toList =
      l.lines.toList ++ ms ∧ ∀ x ∈ ms, ∃ text, x.content = .comment text := by
  induction css generalizing l with
  | nil => exact ⟨[], (List.append_nil _).symm, by simp⟩
  | cons cs css ih =>
    obtain ⟨ms, hms, hcomment⟩ := ih (l.push (.comment (String.ofList cs)))
    refine ⟨⟨l.depth, .comment (String.ofList cs)⟩ :: ms, ?_,
      List.forall_mem_cons.mpr ⟨⟨_, rfl⟩, hcomment⟩⟩
    rw [List.foldl_cons, hms]
    simp [Layout.push]

theorem leads_note (wanted : Bool) (text : Option String) :
    Leads s path path (note wanted text) := by
  unfold note
  split
  · rename_i text
    intro l h
    have hextends := Layout.extends_comment h.sound text
    obtain ⟨ms, hms, hcomment⟩ := lines_comments l.layout (Text.lines text.toList)
    have hlines : ((comment text).run l).2.lines = l.lines ++ ms := hms
    refine ⟨⟨hextends.path.trans h.path, hextends.sound, ?_, h.waiting⟩, ⟨ms, hlines, ?_⟩, rfl⟩
    · rw [hlines]
      exact h.placed.append_inert fun x hx => .inr (hcomment x hx)
    · intro x hx
      obtain ⟨text, hx⟩ := hcomment x hx
      rw [hx]
      rfl
  · exact leads_pure ()

/-! ## Instructions -/

theorem leads_operandAs (slot : Slot) : Leads s path path (operandAs s i slot) :=
  (leads_operands _).bind fun _ => leads_pure _

theorem leads_pair (first second : Slot) : Leads s path path (pair s i first second) :=
  (leads_operands _).bind fun _ => leads_pure _

theorem leads_markCase : Leads s path path markCase :=
  leads_quiet (fun _ => rfl) (fun _ => List.Subset.refl _) fun _ => rfl

theorem frame?_statement (es : List Expr) : (Content.statement (i.statement es) n).frame? = none := by
  unfold Instruction.statement
  cases i.op with
  | update op =>
    dsimp only
    split <;> rfl
  | _ => rfl

/-- An instruction inside of a body. -/
theorem leads_ordinary (hcheck : s.code.check = .ok ()) (hi : i ∈ s.code)
    (hblock : i.isBlock = false) :
    Leads s (s.code.blocksAround i) (s.code.blocksAround i) (instruction s i) := by
  have hend : i.isBlockEnd = false := by
    rw [Instruction.isBlock, Bool.or_eq_false_iff] at hblock
    exact hblock.2
  have houtput (hout : i.op.shape.outputs = 1) : ∃ v, i.output? = some v ∧
      s.code.Home v (s.code.innermost (s.code.blocksAround i)) := by
    obtain ⟨v, hv, hvs⟩ := output?_eq hout
    exact ⟨v, hv, .outer hi (hvs ▸ List.mem_singleton_self v)⟩
  rcases event?_cases i with hevent | hevent | hevent | hevent
  · obtain ⟨v, hv, hhome⟩ := houtput (of_load hevent hend)
    rw [instruction_eq_load hevent hend, load, hv]
    exact leads_declare hhome
  · obtain ⟨v, hv, hhome⟩ := houtput (of_computes hevent).2
    by_cases hop : ∃ n, i.op = .construct n
    · obtain ⟨n, hop⟩ := hop
      rw [instruction_eq_assign hop hv]
      exact (leads_operands _).bind fun _ => leads_assign hhome
    · rw [instruction_eq_compute hevent fun n h => hop ⟨n, h⟩]
      refine (leads_operands _).bind fun es => ?_
      rw [compute, hv]
      exact leads_declare hhome
  · rw [instruction_eq_emit hevent]
    refine (leads_operands _).bind fun es => ?_
    refine leads_emit (statement_ne_bind es) (fun _ j hj hindex => ?_) (frame?_statement es)
    rw [Code.eq_of_index_eq hcheck hj hi hindex]
  · rw [Instruction.isBlock, of_opens hevent] at hblock
    cases hblock

theorem opensFrame_at (hcheck : s.code.check = .ok ()) (hi : i ∈ s.code) :
    (s.code[i.index]?).any (·.op.opensFrame) = i.op.opensFrame := by
  rw [Code.getElem?_index hcheck hi]
  rfl

theorem blocksAfter_of_start (hs : i.isBlockStart = true) :
    s.code.blocksAfter i = i.index :: s.code.blocksAround i := if_pos hs

theorem blocksAfter_of_not_start (hs : i.isBlockStart = false) :
    s.code.blocksAfter i = s.code.blocksAround i := if_neg (by rw [hs]; exact Bool.false_ne_true)

/-- A header that binds no variable. -/
theorem places_plain (hcheck : s.code.check = .ok ()) (hi : i ∈ s.code)
    (hframe : hd.opensFrame = i.op.opensFrame)
    (hbinders : ∀ d, ∀ b ∈ (⟨d, .header hd i.index⟩ : Line).binders, b.2 = .capture i.index) :
    hd.Places s path i.index := by
  refine ⟨?_, hframe.trans (opensFrame_at hcheck hi).symm⟩
  intro d k v hv
  exact absurd (hbinders d _ hv) (name_ne_capture v i.index)

/-- A header that binds what the instruction declares. -/
theorem places_of_binders (hcheck : s.code.check = .ok ()) (hi : i ∈ s.code)
    (hs : i.isBlockStart = true) (hframe : hd.opensFrame = i.op.opensFrame)
    (hbinders : ∀ d, ∀ b ∈ (⟨d, .header hd i.index⟩ : Line).binders,
      (∃ v ∈ i.outputs, b = (d, s.nameOf v)) ∨ ∃ v ∈ i.innerOutputs, b = (d + 1, s.nameOf v)) :
    hd.Places s (s.code.blocksAround i) i.index := by
  refine ⟨?_, hframe.trans (opensFrame_at hcheck hi).symm⟩
  intro d k v hv
  rcases hbinders d _ hv with ⟨w, hw, hpair⟩ | ⟨w, hw, hpair⟩
  · obtain ⟨rfl, hname⟩ := Prod.mk.inj hpair
    rw [Subject.nameOf_inj hname]
    exact .inl ⟨rfl, .outer hi hw⟩
  · obtain ⟨rfl, hname⟩ := Prod.mk.inj hpair
    rw [Subject.nameOf_inj hname, ← blocksAfter_of_start hs]
    exact .inr ⟨rfl, .inner hi hw⟩

theorem exists_headD_names (h : vs.length = 1) (name : Name) :
    ∃ v ∈ vs, (vs.map s.nameOf).headD name = s.nameOf v := by
  obtain ⟨v, rfl⟩ := List.length_eq_one_iff.mp h
  exact ⟨v, List.mem_singleton_self v, rfl⟩

theorem exists_output_name (h : i.op.shape.outputs = 1) :
    ∃ v ∈ i.outputs, (i.outputs.map s.nameOf).headD (s.nameOf default) = s.nameOf v :=
  exists_headD_names (i.length_outputs.trans h) _

theorem exists_innerOutput_name (h : i.op.shape.innerOutputs = 1) :
    ∃ v ∈ i.innerOutputs, (i.innerOutputs.map s.nameOf).headD (s.nameOf default) = s.nameOf v :=
  exists_headD_names (i.length_innerOutputs.trans h) _

/-- An instruction that starts a block other than a function or method, and ends none. -/
theorem leads_opens (hcheck : s.code.check = .ok ()) (hi : i ∈ s.code) (hs : i.isBlockStart = true)
    (he : i.isBlockEnd = false) (hframe : i.op.opensFrame = false) :
    Leads s (s.code.blocksAround i) (i.index :: s.code.blocksAround i) (instruction s i) := by
  have hstart := hs
  rw [Instruction.isBlockStart_eq] at hs
  rw [Instruction.isBlockEnd_eq] at he
  unfold instruction
  cases hop : i.op with
  | beginClassDefinition superclass =>
    refine (leads_operands _).bind fun es => (Leads.names (names_bindNames _) (leads_enter ?_ rfl))
    refine places_of_binders hcheck hi hstart hframe.symm fun d b hb => ?_
    obtain ⟨v, hv, hname⟩ := exists_output_name (s := s) (i := i) (by rw [hop]; rfl)
    exact .inl ⟨v, hv, hname ▸ List.mem_singleton.mp hb⟩
  | beginIf inverted =>
    refine (leads_operandAs _).bind fun e => ?_
    cases inverted <;> exact leads_enter (places_plain hcheck hi hframe.symm nofun) rfl
  | beginWhileLoop comparator =>
    exact (leads_pair _ _).bind fun e => leads_enter (places_plain hcheck hi hframe.symm nofun) rfl
  | beginForLoop =>
    refine (leads_operands _).bind fun es => (Leads.names (names_bindNames _) (leads_enter ?_ rfl))
    refine places_of_binders hcheck hi hstart hframe.symm fun d b hb => ?_
    obtain ⟨v, hv, hname⟩ := exists_innerOutput_name (s := s) (i := i) (by rw [hop]; rfl)
    exact .inr ⟨v, hv, hname ▸ List.mem_singleton.mp hb⟩
  | beginTry => exact leads_enter (places_plain hcheck hi hframe.symm nofun) rfl
  | beginSwitch =>
    refine (leads_operandAs _).bind fun e => Leads.names (names_switches _) (leads_enter ?_ rfl)
    exact places_plain hcheck hi hframe.symm nofun
  | beginSwitchCase =>
    refine (leads_operandAs _).bind fun e => leads_markCase.bind fun _ => leads_enter ?_ rfl
    refine places_plain hcheck hi hframe.symm fun d b hb => ?_
    rw [List.mem_singleton.mp hb]
  | beginSwitchDefaultCase =>
    refine leads_markCase.bind fun _ => leads_enter ?_ rfl
    exact places_plain hcheck hi hframe.symm nofun
  | beginPlainFunction k | beginClassMethod name k =>
    rw [hop] at hframe
    cases hframe
  | _ => simp [hop] at hs he

/-- An instruction that ends a block and starts another. -/
theorem leads_continues (hcheck : s.code.check = .ok ()) (hi : i ∈ s.code)
    (hs : i.isBlockStart = true) (he : i.isBlockEnd = true)
    (hpath : path.tail = s.code.blocksAround i) :
    Leads s path (i.index :: s.code.blocksAround i) (instruction s i) := by
  have hstart := hs
  rw [Instruction.isBlockStart_eq] at hs
  rw [Instruction.isBlockEnd_eq] at he
  rw [← hpath]
  unfold instruction
  cases hop : i.op with
  | beginElse | beginFinally =>
    refine leads_exit.bind fun _ => leads_enter (places_plain hcheck hi ?_ nofun) rfl
    rw [hop]
    rfl
  | beginCatch =>
    refine leads_exit.bind fun _ => Leads.names (names_bindNames _) (leads_enter ?_ rfl)
    rw [hpath]
    refine places_of_binders hcheck hi hstart (by rw [hop]; rfl) fun d b hb => ?_
    obtain ⟨v, hv, hname⟩ := exists_innerOutput_name (s := s) (i := i) (by rw [hop]; rfl)
    exact .inr ⟨v, hv, hname ▸ List.mem_singleton.mp hb⟩
  | _ => simp [hop] at hs he

theorem leads_endSwitch (hcheck : s.code.check = .ok ()) (hi : i ∈ s.code) (hop : i.op = .endSwitch) :
    Leads s path path.tail (instruction s i) := by
  have hleave : Leads s path path leaveSwitch :=
    leads_quiet (fun _ => rfl) (fun _ => List.Subset.refl _) fun _ => rfl
  have hcase : Leads s path path (do
      enter s i.index .caseAny
      exit s i.index : Render Unit) := by
    have hplaces : Header.caseAny.Places s path i.index :=
      places_plain hcheck hi (by rw [hop]; rfl) nofun
    exact (leads_enter hplaces rfl).bind fun _ => leads_exit
  unfold instruction
  rw [hop]
  refine hleave.bind fun cased => ?_
  dsimp only
  split
  · exact hcase.bind fun _ => leads_exit
  · exact leads_exit

theorem leads_closes (hcheck : s.code.check = .ok ()) (hi : i ∈ s.code)
    (hs : i.isBlockStart = false) (he : i.isBlockEnd = true) :
    Leads s path path.tail (instruction s i) := by
  by_cases hop : i.op = .endSwitch
  · exact leads_endSwitch hcheck hi hop
  · rw [show instruction s i = exit s i.index from ends_of_isBlockEnd hs he hop]
    exact leads_exit

/-- An instruction other than the start of a function or method leads from the blocks before it to those
after it. -/
theorem leads_instruction (hcheck : s.code.check = .ok ()) (hi : i ∈ s.code)
    (hframe : i.op.opensFrame = false) :
    Leads s (Code.pathAfter [] (s.code.take i.index)) (s.code.blocksAfter i) (instruction s i) := by
  have haround (he : i.isBlockEnd = false) :
      Code.pathAfter [] (s.code.take i.index) = s.code.blocksAround i := by
    unfold Code.blocksAround Instruction.outerPath
    rw [he]
    rfl
  have htail (he : i.isBlockEnd = true) :
      (Code.pathAfter [] (s.code.take i.index)).tail = s.code.blocksAround i := (if_pos he).symm
  cases hs : i.isBlockStart <;> cases he : i.isBlockEnd
  · rw [haround he, blocksAfter_of_not_start hs]
    exact leads_ordinary hcheck hi (by rw [Instruction.isBlock, hs, he]; rfl)
  · rw [blocksAfter_of_not_start hs, ← htail he]
    exact leads_closes hcheck hi hs he
  · rw [haround he, blocksAfter_of_start hs]
    exact leads_opens hcheck hi hs he hframe
  · rw [blocksAfter_of_start hs]
    exact leads_continues hcheck hi hs he (htail he)

end Render
end Python
end ScriptFuzz
