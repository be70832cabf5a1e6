import ScriptFuzz.Proofs.Python.Suites

/-!
# The layout of the source

Rendering checked code writes the lines of a `Suite`. `fills_of_wellNested` follows the grammar of the
code, block by block, and `Program.suite_layout` says it of a program.
-/

namespace ScriptFuzz

set_option autoImplicit false

/-- What the lines of a place are. -/
def Interior.row : Interior → Python.Row
  | body _ _ => .statements
  | cases _ _ => .cases
  | methods => .methods

namespace Python

theorem Header.standsAlone_of_isCondition {h : Header} (hh : h.isCondition = true) :
    h.standsAlone = true := by
  cases h <;> simp [isCondition, standsAlone] at hh ⊢

end Python

namespace Python.Render

open Header Lifting

variable {s : Subject} {Q K : String → Prop} {wanted : Bool} {texts : Nat → Option String}
  {row inner : Row} {l l' : Lifting} {before b : List Line} {switches : List Bool} {a a' a'' c c' : Code}
  {i head middle middle' last : Instruction}

/-- The state after rendering instructions. -/
def after (s : Subject) (wanted : Bool) (texts : Nat → Option String) (c : Code) (l : Lifting) :
    Lifting :=
  ((instructions s wanted texts c).run l).2

/-- The state after rendering the comment of an instruction. -/
def noted (wanted : Bool) (texts : Nat → Option String) (i : Instruction) (l : Lifting) : Lifting :=
  ((note wanted (texts i.index)).run l).2

theorem after_cons : after s wanted texts (i :: c) l =
    after s wanted texts c ((instruction s i).run (noted wanted texts i l)).2 := rfl

theorem after_append : after s wanted texts (c ++ c') l =
    after s wanted texts c' (after s wanted texts c l) := by
  induction c generalizing l with
  | nil => rfl
  | cons i c ih => rw [List.cons_append, after_cons, after_cons, ih]

/-- Rendering the code writes the lines of a row. -/
def Fills (s : Subject) (wanted : Bool) (texts : Nat → Option String) (Q K : String → Prop)
    (row : Row) (c : Code) : Prop :=
  ∀ l : Lifting, l.Sound Q → (row ≠ .statements → l.pending = []) →
    ∃ ls, l.Appends Q K row (after s wanted texts c l) ls ∧ Suite row l.layout.depth ls

/-- An instruction starts a block with a header that is `P`; `f` says what it does to the open
switches. -/
def Opens (s : Subject) (Q K : String → Prop) (row inner : Row) (f : List Bool → List Bool)
    (i : Instruction) (P : Header → Prop) : Prop :=
  ∀ l : Lifting, l.Sound Q → (row ≠ .statements → l.pending = []) → ∃ h ls ds, P h ∧
    (∀ x ∈ ls, x.Flat row l.layout.depth) ∧ (∀ x ∈ ds, x.Flat inner (l.layout.depth + 1)) ∧
    l.Inside Q K inner ((instruction s i).run l).2
      (ls ++ [⟨l.layout.depth, .header h i.index⟩]) ds (f l.switches)

/-- An instruction ends a body and goes on with a header that is `P`. -/
def Continues (s : Subject) (Q K : String → Prop) (i : Instruction) (P : Header → Prop) : Prop :=
  ∃ f : Render Unit, instruction s i = (exit s i.index >>= fun _ => f) ∧
    ∀ l : Lifting, l.Sound Q → l.pending = [] → ∃ h, P h ∧
      l.Inside Q K .statements (f.run l).2 [⟨l.layout.depth, .header h i.index⟩] [] l.switches

/-! ## Parts of a block -/

/-- The lines of a body, and the comment of the instruction behind it. -/
theorem inside_body (h : l.Inside Q K inner l' before b switches)
    (hb : ∀ x ∈ b, x.Flat inner (l.layout.depth + 1)) (hK : Commented K wanted texts)
    (hc : Fills s wanted texts Q K inner c) (i : Instruction) :
    ∃ b', l.Inside Q K inner (noted wanted texts i (after s wanted texts c l')) before b'
      switches := by
  obtain ⟨ls, ha, hs⟩ := hc l' h.sound h.idle
  rw [h.depth] at hs
  have hinside := h.appends ha (hs.flat_append hb)
  obtain ⟨ms, hnoted, -⟩ := hinside.flows (flows_note hK i.index hinside.sound hinside.idle)
  exact ⟨_, hnoted⟩

/-- A body that another section of the statement follows. -/
theorem inside_section (h : l.Inside Q K .statements l' before b l.switches) {P : Header → Prop}
    (hi : Continues s Q K i P) :
    ∃ h' b', P h' ∧ Suite .statements (l.layout.depth + 1) b' ∧
      l.Inside Q K .statements ((instruction s i).run l').2
        (before ++ withFiller (l.layout.depth + 1) b' ++ [⟨l.layout.depth, .header h' i.index⟩]) []
        l.switches := by
  obtain ⟨f, hrun, hf⟩ := hi
  obtain ⟨b', hb', ha, hidle⟩ := appends_exit (s := s) (n := i.index) h Row.noConfusion
  obtain ⟨h', hP, hinside⟩ := hf _ ha.sound hidle
  rw [ha.depth] at hinside
  refine ⟨h', b', hP, hb', ?_⟩
  rw [hrun, run_bind]
  have := ha.inside hinside
  rwa [show ((exit s i.index).run l').2.switches = l.switches from ha.switches] at this

/-- Whether an instruction does nothing but end a block. -/
def Ends (s : Subject) (i : Instruction) : Prop := instruction s i = exit s i.index

/-- The end of the last section of a statement. -/
theorem appends_end (h : l.Inside Q K inner l' before b l.switches) (hinner : inner ≠ .cases)
    (hi : Ends s i) :
    ∃ b', Suite inner (l.layout.depth + 1) b' ∧
      l.Appends Q K .statements ((instruction s i).run l').2
        (before ++ withFiller (l.layout.depth + 1) b') ∧
      ((instruction s i).run l').2.pending = [] := by
  rw [hi]
  exact appends_exit h hinner

/-! ## Rows -/

theorem fills_nil : Fills s wanted texts Q K row [] :=
  fun _ hl hidle => ⟨[], appends_refl hl hidle, .done⟩

theorem fills_instruction (hK : Commented K wanted texts) (hi : i.isBlock = false)
    (hQ : ∀ text ∈ i.rawTexts, Q text) (hc : Fills s wanted texts Q K .statements c) :
    Fills s wanted texts Q K .statements (i :: c) := by
  intro l hl hidle
  have hnote := flows_note hK i.index hl hidle
  obtain ⟨ls, ha, hls⟩ := hnote.trans (straight_instruction hi hQ _ hnote.sound).1
  obtain ⟨ms, ha', hms⟩ := hc _ ha.sound fun hne => absurd rfl hne
  rw [ha.depth] at hms
  exact ⟨ls ++ ms, ha.trans ha', hms.flat_append hls⟩

/-- The comment of an instruction that starts a block, the lines before the header, and the header. -/
theorem inside_opens (hK : Commented K wanted texts) {f : List Bool → List Bool}
    {P : Header → Prop} (hi : Opens s Q K row inner f i P) (hl : l.Sound Q)
    (hidle : row ≠ .statements → l.pending = []) :
    ∃ h ls ds, P h ∧ (∀ x ∈ ls, x.Flat row l.layout.depth) ∧
      (∀ x ∈ ds, x.Flat inner (l.layout.depth + 1)) ∧
      l.Inside Q K inner ((instruction s i).run (noted wanted texts i l)).2
        (ls ++ [⟨l.layout.depth, .header h i.index⟩]) ds (f l.switches) := by
  have hswitches : (noted wanted texts i l).switches = l.switches := by
    unfold noted note
    split <;> rfl
  have hnoted : l.Flows Q K row (noted wanted texts i l) := flows_note hK i.index hl hidle
  obtain ⟨ls, ha, hls⟩ := hnoted
  obtain ⟨h, ms, ds, hP, hms, hds, hinside⟩ := hi _ ha.sound ha.idle
  rw [ha.depth] at hms hds hinside
  refine ⟨h, ls ++ ms, ds, hP, List.forall_mem_append.mpr ⟨hls, hms⟩, hds, ?_⟩
  rw [List.append_assoc, ← hswitches]
  exact ha.inside hinside

theorem fills_block (hK : Commented K wanted texts) {P : Header → Prop}
    (hhead : Opens s Q K .statements inner id head P) (hinner : inner ≠ .cases)
    (hb : Fills s wanted texts Q K inner a) (hlast : Ends s last)
    (hc : Fills s wanted texts Q K .statements c)
    (hsuite : ∀ {h : Header} {d : Nat} {b ls : List Line} (n : Nat), P h → Suite inner (d + 1) b →
      Suite .statements d ls →
      Suite .statements d (⟨d, .header h n⟩ :: withFiller (d + 1) b ++ ls)) :
    Fills s wanted texts Q K .statements (head :: a ++ last :: c) := by
  intro l hl hidle
  obtain ⟨h, ls, ds, hP, hls, hds, hopen⟩ := inside_opens hK hhead hl hidle
  obtain ⟨b, hbody⟩ := inside_body hopen hds hK hb last
  obtain ⟨b', hb', ha, -⟩ := appends_end hbody hinner hlast
  obtain ⟨ms, ha', hms⟩ := hc _ ha.sound fun hne => absurd rfl hne
  rw [ha.depth] at hms
  refine ⟨_, ?_, (hsuite head.index hP hb' hms).flat_append hls⟩
  rw [List.cons_append, after_cons, after_append, after_cons]
  have := ha.trans ha'
  simpa only [List.append_assoc, List.cons_append, List.nil_append] using this

/-- A statement with two bodies. -/
theorem fills_two (hK : Commented K wanted texts) {P P' : Header → Prop}
    (hhead : Opens s Q K .statements .statements id head P)
    (hb : Fills s wanted texts Q K .statements a) (hmiddle : Continues s Q K middle P')
    (hb' : Fills s wanted texts Q K .statements a') (hlast : Ends s last)
    (hc : Fills s wanted texts Q K .statements c)
    (hsuite : ∀ {h h' : Header} {d : Nat} {b b' ls : List Line} (n n' : Nat), P h → P' h' →
      Suite .statements (d + 1) b → Suite .statements (d + 1) b' → Suite .statements d ls →
      Suite .statements d (⟨d, .header h n⟩ :: withFiller (d + 1) b ++
        ⟨d, .header h' n'⟩ :: withFiller (d + 1) b' ++ ls)) :
    Fills s wanted texts Q K .statements (head :: a ++ middle :: a' ++ last :: c) := by
  intro l hl hidle
  obtain ⟨h, ls, ds, hP, hls, hds, hopen⟩ := inside_opens hK hhead hl hidle
  obtain ⟨b, hbody⟩ := inside_body hopen hds hK hb middle
  obtain ⟨h', bs, hP', hbs, hopen'⟩ := inside_section hbody hmiddle
  obtain ⟨b', hbody'⟩ := inside_body hopen' (by simp) hK hb' last
  obtain ⟨bs', hbs', ha, -⟩ := appends_end hbody' Row.noConfusion hlast
  obtain ⟨ms, ha', hms⟩ := hc _ ha.sound fun hne => absurd rfl hne
  rw [ha.depth] at hms
  refine ⟨_, ?_, (hsuite head.index middle.index hP hP' hbs hbs' hms).flat_append hls⟩
  rw [List.cons_append, List.cons_append, after_cons, List.append_assoc, after_append,
    List.cons_append, after_cons, after_append, after_cons]
  have := ha.trans ha'
  simpa only [List.append_assoc, List.cons_append, List.nil_append] using this

/-- A statement with three bodies. -/
theorem fills_three (hK : Commented K wanted texts) {P P' P'' : Header → Prop}
    (hhead : Opens s Q K .statements .statements id head P)
    (hb : Fills s wanted texts Q K .statements a) (hmiddle : Continues s Q K middle P')
    (hb' : Fills s wanted texts Q K .statements a') (hmiddle' : Continues s Q K middle' P'')
    (hb'' : Fills s wanted texts Q K .statements a'') (hlast : Ends s last)
    (hc : Fills s wanted texts Q K .statements c)
    (hsuite : ∀ {h h' h'' : Header} {d : Nat} {b b' b'' ls : List Line} (n n' n'' : Nat),
      P h → P' h' → P'' h'' → Suite .statements (d + 1) b → Suite .statements (d + 1) b' →
      Suite .statements (d + 1) b'' → Suite .statements d ls →
      Suite .statements d (⟨d, .header h n⟩ :: withFiller (d + 1) b ++
        ⟨d, .header h' n'⟩ :: withFiller (d + 1) b' ++
        ⟨d, .header h'' n''⟩ :: withFiller (d + 1) b'' ++ ls)) :
    Fills s wanted texts Q K .statements
      (head :: a ++ middle :: a' ++ middle' :: a'' ++ last :: c) := by
  intro l hl hidle
  obtain ⟨h, ls, ds, hP, hls, hds, hopen⟩ := inside_opens hK hhead hl hidle
  obtain ⟨b, hbody⟩ := inside_body hopen hds hK hb middle
  obtain ⟨h', bs, hP', hbs, hopen'⟩ := inside_section hbody hmiddle
  obtain ⟨b', hbody'⟩ := inside_body hopen' (by simp) hK hb' middle'
  obtain ⟨h'', bs', hP'', hbs', hopen''⟩ := inside_section hbody' hmiddle'
  obtain ⟨b'', hbody''⟩ := inside_body hopen'' (by simp) hK hb'' last
  obtain ⟨bs'', hbs'', ha, -⟩ := appends_end hbody'' Row.noConfusion hlast
  obtain ⟨ms, ha', hms⟩ := hc _ ha.sound fun hne => absurd rfl hne
  rw [ha.depth] at hms
  refine ⟨_, ?_, (hsuite head.index middle.index middle'.index hP hP' hP'' hbs hbs' hbs''
    hms).flat_append hls⟩
  rw [List.cons_append, List.cons_append, List.cons_append, after_cons, List.append_assoc,
    List.append_assoc, after_append, List.cons_append, after_cons, after_append, List.cons_append,
    after_cons, after_append, after_cons]
  have := ha.trans ha'
  simpa only [List.append_assoc, List.cons_append, List.nil_append] using this

theorem run_exit_of_idle {n : Nat} (h : l.pending = []) :
    ((exit s n).run l).2 = { l with layout := l.layout.exit } := by
  unfold exit
  rw [run_bind, run_drain_of_idle h]
  rfl

theorem run_enter_of_idle {n : Nat} {h : Header} (hl : l.pending = []) :
    ((enter s n h).run l).2 = { l with layout := l.layout.enter h n } := by
  unfold enter
  rw [run_bind, run_drain_of_idle hl]
  rfl

theorem run_endSwitch (hi : i.op = .endSwitch) (hidle : l.pending = []) {cased : Bool}
    {switches : List Bool} (hswitches : l.switches = cased :: switches) :
    ((instruction s i).run l).2 = { l with
      switches
      layout := if cased then l.layout.exit
        else ((l.layout.enter .caseAny i.index).exit).exit } := by
  rw [run_instruction_endSwitch hi, hswitches, List.head?_cons, List.tail_cons]
  generalize hl' : { l with switches := switches } = l'
  have hidle' : l'.pending = [] := by rw [← hl', hidle]
  cases cased with
  | true =>
    rw [if_neg (by simp)]
    refine (run_exit_of_idle hidle').trans ?_
    subst hl'
    rfl
  | false =>
    have hcase := run_exit_of_idle (s := s) (n := i.index)
      (l := { l' with layout := l'.layout.enter .caseAny i.index }) hidle'
    have hmatch := run_exit_of_idle (s := s) (n := i.index)
      (l := { l' with layout := (l'.layout.enter .caseAny i.index).exit }) hidle'
    rw [if_pos rfl, run_bind, run_bind, run_enter_of_idle hidle', hcase]
    refine hmatch.trans ?_
    subst hl'
    rfl

theorem appends_endSwitch (h : l.Inside Q K .cases l' before b (false :: l.switches))
    (hi : i.op = .endSwitch) :
    ∃ b', Suite .cases (l.layout.depth + 1) b' ∧ b'.all Line.isComment = false ∧
      l.Appends Q K .statements ((instruction s i).run l').2 (before ++ b') := by
  have hwithin := List.forall_mem_append.mp h.within
  have hlength : (fillWith before l.layout.filled).length = l.layout.depth := length_fillWith
  have hfilled : l'.layout.filled =
      (!b.all Line.isComment) :: fillWith before l.layout.filled := h.filled
  rw [run_endSwitch hi (h.idle Row.noConfusion) h.switches, Bool.false_or]
  cases hb : b.all Line.isComment with
  | false =>
    rw [hb] at hfilled
    obtain ⟨hlines, hfilled'⟩ := l'.layout.exit_eq hfilled
    refine ⟨b, h.suite, hb, ⟨?_, h.within, ?_, rfl, fun hne => absurd rfl hne, h.sound⟩⟩
    · refine hlines.trans ?_
      rw [h.lines]
      simp
    · rw [fillWith_append_of_statement h.headed]
      exact hfilled'
  | true =>
    rw [hb] at hfilled
    obtain ⟨hlines, hfilled'⟩ := l'.layout.enter_eq .caseAny i.index
    obtain ⟨hlines', hfilled''⟩ := Layout.exit_eq _ hfilled'
    rw [hfilled, fillWith] at hfilled''
    obtain ⟨hlines'', hfilled'''⟩ := Layout.exit_eq _ hfilled''
    have hcomments : ∀ x ∈ b, x.Flat .cases (l.layout.depth + 1) :=
      h.suite.flat_of_comments hb
    refine ⟨b ++ [⟨l.layout.depth + 1, .header .caseAny i.index⟩,
      ⟨l.layout.depth + 1 + 1, .filler⟩], ?_, ?_, ⟨?_, ?_, ?_, rfl, fun hne => absurd rfl hne,
      h.sound⟩⟩
    · exact (Suite.unguarded .done .done rfl).flat_append hcomments
    · simp [Line.isComment]
    · refine hlines''.trans ?_
      rw [hlines', hlines, h.lines, length_fillWith, h.depth, hlength]
      simp [hfilled, hlength, Line.isComment]
    · rw [← List.append_assoc]
      refine List.forall_mem_append.mpr ⟨h.within, ?_⟩
      simp [Content.Within, Header.Over]
    · rw [fillWith_append_of_statement h.headed]
      exact hfilled'''

theorem fills_switch (hK : Commented K wanted texts)
    (hhead : Opens s Q K .statements .cases (false :: ·) head fun h => ∃ e, h = .matching e)
    (hb : Fills s wanted texts Q K .cases a) (hlast : last.op = .endSwitch)
    (hc : Fills s wanted texts Q K .statements c) :
    Fills s wanted texts Q K .statements (head :: a ++ last :: c) := by
  intro l hl hidle
  obtain ⟨_, ls, ds, ⟨e, rfl⟩, hls, hds, hopen⟩ := inside_opens hK hhead hl hidle
  obtain ⟨b, hbody⟩ := inside_body hopen hds hK hb last
  obtain ⟨b', hb', hcased, ha⟩ := appends_endSwitch hbody hlast
  obtain ⟨ms, ha', hms⟩ := hc _ ha.sound fun hne => absurd rfl hne
  rw [ha.depth] at hms
  have hmatch : Suite .statements l.layout.depth
      (⟨l.layout.depth, .header (.matching e) head.index⟩ :: b' ++ ms) := .matching hb' hcased hms
  refine ⟨_, ?_, hmatch.flat_append hls⟩
  rw [List.cons_append, after_cons, after_append, after_cons]
  have := ha.trans ha'
  simpa only [List.append_assoc, List.cons_append, List.nil_append] using this

/-- The innermost open switch has a case. -/
def marked : List Bool → List Bool
  | [] => []
  | _ :: bs => true :: bs

/-- A case, up to the instruction that ends it. -/
theorem appends_case (hK : Commented K wanted texts) {P : Header → Prop}
    (hhead : Opens s Q K .cases .statements marked head P)
    (hb : Fills s wanted texts Q K .statements a) (hlast : Ends s last) (hl : l.Sound Q)
    (hidle : l.pending = []) :
    ∃ h ls b, P h ∧ (∀ x ∈ ls, x.Flat .cases l.layout.depth) ∧
      Suite .statements (l.layout.depth + 1) b ∧
      l.Appends Q K .cases (after s wanted texts (head :: a ++ [last]) l)
        (ls ++ ⟨l.layout.depth, .header h head.index⟩ :: withFiller (l.layout.depth + 1) b) := by
  obtain ⟨h, ls, ds, hP, hls, hds, hopen⟩ := inside_opens hK hhead hl fun _ => hidle
  obtain ⟨b, hbody⟩ := inside_body hopen hds hK hb last
  -- Whether the switch has a case is noted before the header, so the block starts from there.
  have hmarked := hbody.of_layout_eq (k := { l with switches := marked l.switches }) rfl
  obtain ⟨b', hb', ha, hidle'⟩ := appends_end hmarked Row.noConfusion hlast
  refine ⟨h, ls, b', hP, hls, hb', ?_⟩
  rw [List.append_assoc, List.singleton_append] at ha
  rw [List.cons_append, after_cons, after_append, after_cons]
  refine ⟨ha.lines, ha.within, ha.filled, ha.switches.trans ?_, fun _ => hidle', ha.sound⟩
  change marked l.switches = fillWith _ l.switches
  cases l.switches with
  | nil => rfl
  | cons b bs => simp [marked, fillWith, Line.isComment]

theorem fills_case (hK : Commented K wanted texts)
    (hhead : Opens s Q K .cases .statements marked head fun h => ∃ n e, h = .caseEqual n e)
    (hb : Fills s wanted texts Q K .statements a) (hlast : Ends s last)
    (hc : Fills s wanted texts Q K .cases c) :
    Fills s wanted texts Q K .cases (head :: a ++ last :: c) := by
  intro l hl hidle
  obtain ⟨_, ls, b, ⟨n, e, rfl⟩, hls, hsuite, ha⟩ :=
    appends_case hK hhead hb hlast hl (hidle Row.noConfusion)
  obtain ⟨ms, ha', hms⟩ := hc _ ha.sound ha.idle
  rw [ha.depth] at hms
  have hcase : Suite .cases l.layout.depth (⟨l.layout.depth, .header (.caseEqual n e) head.index⟩ ::
      withFiller (l.layout.depth + 1) b ++ ms) := .guarded hsuite hms
  refine ⟨_, ?_, hcase.flat_append hls⟩
  rw [show head :: a ++ last :: c = (head :: a ++ [last]) ++ c by simp, after_append]
  have := ha.trans ha'
  simpa only [List.append_assoc, List.cons_append] using this

theorem fills_defaultCase (hK : Commented K wanted texts)
    (hhead : Opens s Q K .cases .statements marked head fun h => h = .caseAny)
    (hb : Fills s wanted texts Q K .statements a) (hlast : Ends s last) :
    Fills s wanted texts Q K .cases (head :: a ++ [last]) := by
  intro l hl hidle
  obtain ⟨_, ls, b, rfl, hls, hsuite, ha⟩ :=
    appends_case hK hhead hb hlast hl (hidle Row.noConfusion)
  refine ⟨_, ha, ?_⟩
  have hcase : Suite .cases l.layout.depth (⟨l.layout.depth, .header .caseAny head.index⟩ ::
      withFiller (l.layout.depth + 1) b ++ []) := .unguarded hsuite .done rfl
  rw [List.append_nil] at hcase
  exact hcase.flat_append hls

theorem fills_method (hK : Commented K wanted texts)
    (hhead : Opens s Q K .methods .statements id head fun h => ∃ name ps, h = .method name ps)
    (hb : Fills s wanted texts Q K .statements a) (hlast : Ends s last)
    (hc : Fills s wanted texts Q K .methods c) :
    Fills s wanted texts Q K .methods (head :: a ++ last :: c) := by
  intro l hl hidle
  obtain ⟨_, ls, ds, ⟨name, ps, rfl⟩, hls, hds, hopen⟩ := inside_opens hK hhead hl hidle
  obtain ⟨b, hbody⟩ := inside_body hopen hds hK hb last
  obtain ⟨b', hb', ha, hidle'⟩ := appends_end hbody Row.noConfusion hlast
  obtain ⟨ms, ha', hms⟩ := hc _ ha.sound fun _ => hidle'
  rw [ha.depth] at hms
  have hfirst : l.Appends Q K .methods _ _ :=
    ⟨ha.lines, ha.within, ha.filled, ha.switches, fun _ => hidle', ha.sound⟩
  have hmethod : Suite .methods l.layout.depth
      (⟨l.layout.depth, .header (.method name ps) head.index⟩ ::
        withFiller (l.layout.depth + 1) b' ++ ms) := .method hb' hms
  refine ⟨_, ?_, hmethod.flat_append hls⟩
  rw [List.cons_append, after_cons, after_append, after_cons]
  have := hfirst.trans ha'
  simpa only [List.append_assoc, List.cons_append, List.nil_append] using this

/-! ## Instructions that start and end blocks -/

/-- A header in a row of statements, after what it needs. -/
theorem opens_of_straight {α : Type} {m : Render α} {R : α → Prop} {h : α → Header}
    {P : Header → Prop} (hm : Straight Q K m R)
    (hrun : instruction s i = m >>= fun x => enter s i.index (h x))
    (hh : ∀ x, R x → P (h x) ∧ (h x).Over (fun _ => True) Q) (inner : Row) :
    Opens s Q K .statements inner id i P := by
  intro l hl _
  obtain ⟨x, ls, hx, hls, hinside⟩ :=
    inside_bind_enter (s := s) (n := i.index) hm (fun x hx => (hh x hx).2) hl inner
  rw [hrun]
  exact ⟨h x, ls, [], (hh x hx).1, hls, by simp, hinside⟩

theorem straight_operandAs (slot : Slot) :
    Straight Q K (operandAs s i slot) fun e => e.Over (fun _ => True) Q :=
  (straight_operands _).bind fun _ hes => straight_pure hes.headD

theorem straight_pair (first second : Slot) : Straight Q K (pair s i first second)
    fun es => es.1.Over (fun _ => True) Q ∧ es.2.Over (fun _ => True) Q :=
  (straight_operands _).bind fun _ hes => straight_pure ⟨hes.headD, hes.getD 1⟩

/-- A body that starts with declarations. -/
theorem inside_declareOuter (h : l.Inside Q K .statements l' before [] switches) :
    ∃ ds, (∀ x ∈ ds, x.Flat .statements (l.layout.depth + 1)) ∧
      l.Inside Q K .statements ((declareOuter s i).run l').2 before ds switches := by
  obtain ⟨ds, hinside, hds⟩ := h.flows (straight_declareOuter (s := s) (i := i) l' h.sound).1
  exact ⟨ds, hds, hinside⟩

theorem opens_function {n : Nat} (hi : i.op = .beginPlainFunction n) :
    Opens s Q K .statements .statements id i (Header.standsAlone · = true) := by
  intro l hl _
  have hm : Straight Q K (do
      let parameters ← bindNames s i.innerOutputs
      let names ← bindNames s i.outputs
      return (parameters, names) : Render (List Name × List Name)) fun _ => True :=
    (straight_bindNames _).bind fun _ _ => (straight_bindNames _).bind fun _ _ => straight_pure trivial
  obtain ⟨x, ls, -, hls, hinside⟩ := inside_bind_enter (s := s) (n := i.index) hm
    (h := fun x => .function (x.2.headD (s.nameOf default)) x.1) (fun _ _ => trivial) hl .statements
  obtain ⟨ds, hds, hinside'⟩ := inside_declareOuter (s := s) (i := i) hinside
  refine ⟨.function (x.2.headD (s.nameOf default)) x.1, ls, ds, rfl, hls, hds, ?_⟩
  unfold instruction
  rw [hi]
  exact hinside'

theorem opens_if {inverted : Bool} (hi : i.op = .beginIf inverted) :
    Opens s Q K .statements .statements id i (Header.isCondition · = true) := by
  have hm := straight_operandAs (s := s) (i := i) (Q := Q) (K := K) .inline
  refine opens_of_straight hm (h := fun e => if inverted then .ifFalse e else .ifTrue e) ?_ ?_ _
  · unfold instruction
    rw [hi]
  · intro e he
    cases inverted with
    | false => exact ⟨rfl, he⟩
    | true => exact ⟨rfl, he⟩

theorem opens_while {op : Comparator} (hi : i.op = .beginWhileLoop op) :
    Opens s Q K .statements .statements id i (Header.standsAlone · = true) := by
  have hm := straight_pair (s := s) (i := i) (Q := Q) (K := K) .settled .settled
  refine opens_of_straight hm (h := fun es => .whileLoop op es.1 es.2) ?_ ?_ _
  · unfold instruction
    rw [hi]
  · intro es hes
    exact ⟨rfl, hes⟩

theorem opens_for (hi : i.op = .beginForLoop) :
    Opens s Q K .statements .statements id i (Header.standsAlone · = true) := by
  have hm : Straight Q K (do
      let range ← operandsAs s i.index .inline i.inputs
      let counters ← bindNames s i.innerOutputs
      return (range, counters) : Render (List Expr × List Name))
      fun x => Expr.AllOver (fun _ => True) Q x.1 :=
    (straight_operands _).bind fun _ hes =>
      (straight_bindNames _).bind fun _ _ => straight_pure hes
  refine opens_of_straight hm (h := fun x => .forLoop (x.2.headD (s.nameOf default)) x.1) ?_ ?_ _
  · unfold instruction
    rw [hi]
    rfl
  · intro x hx
    exact ⟨rfl, hx⟩

theorem opens_try (hi : i.op = .beginTry) :
    Opens s Q K .statements .statements id i (· = .tryBlock) := by
  have hm : Straight Q K (pure () : Render Unit) fun _ => True := straight_pure trivial
  refine opens_of_straight hm (h := fun _ => .tryBlock) ?_ ?_ _
  · unfold instruction
    rw [hi]
    rfl
  · exact fun _ _ => ⟨rfl, trivial⟩

theorem opens_class {superclass : Bool} (hi : i.op = .beginClassDefinition superclass) :
    Opens s Q K .statements .methods id i fun h => ∃ name base, h = .classBody name base := by
  have hm : Straight Q K (do
      let bases ← operandsAs s i.index .inline i.inputs
      let names ← bindNames s i.outputs
      return (bases, names) : Render (List Expr × List Name))
      fun x => Expr.AllOver (fun _ => True) Q x.1 :=
    (straight_operands _).bind fun _ hes =>
      (straight_bindNames _).bind fun _ _ => straight_pure hes
  refine opens_of_straight hm
    (h := fun x => .classBody (x.2.headD (s.nameOf default)) x.1.head?) ?_ ?_ _
  · unfold instruction
    rw [hi]
    rfl
  · intro x hx
    exact ⟨⟨_, _, rfl⟩, fun e he => Expr.allOver_iff.mp hx e (List.mem_of_mem_head? he)⟩

theorem opens_switch (hi : i.op = .beginSwitch) :
    Opens s Q K .statements .cases (false :: ·) i fun h => ∃ e, h = .matching e := by
  intro l hl _
  obtain ⟨⟨ls, ha, hls⟩, he⟩ := straight_operandAs (s := s) (i := i) (K := K) .inline l hl
  unfold instruction
  rw [hi]
  dsimp only
  rw [run_bind]
  generalize (operandAs s i .inline).run l = r at ha he
  obtain ⟨e, l₁⟩ := r
  dsimp only at ha he ⊢
  obtain ⟨ms, hms, -, hinside⟩ := inside_enter (K := K) (s := s) (n := i.index)
    (l := { l₁ with switches := false :: l₁.switches }) ha.sound .cases (h := .matching e) he
  have hinside' := ha.inside (hinside.of_layout_eq rfl)
  dsimp only at hms hinside'
  rw [← List.append_assoc, ha.depth] at hinside'
  rw [ha.depth] at hms
  refine ⟨_, ls ++ ms, [], ⟨e, rfl⟩, List.forall_mem_append.mpr ⟨hls, hms⟩, by simp, ?_⟩
  rw [← show l₁.switches = l.switches from ha.switches]
  exact hinside'

/-- A header in a row where nothing waits. -/
theorem inside_of_idle {n : Nat} {h : Header} (hl : l.Sound Q) (hidle : l.pending = [])
    (hh : h.Over (fun _ => True) Q) (inner : Row) :
    l.Inside Q K inner ((enter s n h).run l).2 [⟨l.layout.depth, .header h n⟩] [] l.switches := by
  obtain ⟨ls, -, hls, hinside⟩ := inside_enter (K := K) (s := s) (n := n) hl inner hh
  rw [hls hidle] at hinside
  exact hinside

theorem opens_case (hi : i.op = .beginSwitchCase) :
    Opens s Q K .cases .statements marked i fun h => ∃ n e, h = .caseEqual n e := by
  intro l hl hidle
  have hp := hidle Row.noConfusion
  have he := (straight_operandAs (s := s) (i := i) (K := K) .inline l hl).2
  have hrun : ((operandAs s i .inline).run l).2 = l := by
    change ((operands s i.index [(i.input 0, .inline)]).run l).2 = l
    exact run_operands_of_idle hp (by simp)
  unfold instruction
  rw [hi]
  dsimp only
  rw [run_bind, hrun]
  generalize ((operandAs s i .inline).run l).1 = e at he
  have hinside := inside_of_idle (K := K) (s := s) (n := i.index)
    (h := .caseEqual (.capture i.index) e)
    (l := { l with switches := marked l.switches }) hl hp ⟨trivial, he⟩ .statements
  exact ⟨_, [], [], ⟨_, e, rfl⟩, by simp, by simp, hinside.of_layout_eq rfl⟩

theorem opens_default (hi : i.op = .beginSwitchDefaultCase) :
    Opens s Q K .cases .statements marked i (· = .caseAny) := by
  intro l hl hidle
  have hinside := inside_of_idle (K := K) (s := s) (n := i.index) (h := .caseAny)
    (l := { l with switches := marked l.switches }) hl (hidle Row.noConfusion) trivial .statements
  refine ⟨_, [], [], rfl, by simp, by simp, ?_⟩
  unfold instruction
  rw [hi]
  exact hinside.of_layout_eq rfl

theorem run_bindNames (vs : List Variable) (hl : l.Sound Q) :
    ∃ bs, ((bindNames s vs).run l).2 = { l with bindings := bs } ∧
      Sound Q { l with bindings := bs } := by
  induction vs generalizing l with
  | nil => exact ⟨l.bindings, rfl, hl⟩
  | cons v vs ih =>
    obtain ⟨bs, hrun, hbs⟩ := ih (l := { l with bindings := (v, .name (s.nameOf v)) :: l.bindings })
      (List.forall_mem_cons.mpr ⟨trivial, hl⟩)
    refine ⟨bs, ?_, hbs⟩
    unfold bindNames at hrun ⊢
    rw [List.mapM_cons, run_bind, run_bind]
    exact hrun

theorem opens_method {name : String} {n : Nat} (hi : i.op = .beginClassMethod name n) :
    Opens s Q K .methods .statements id i fun h => ∃ name ps, h = .method name ps := by
  intro l hl hidle
  obtain ⟨bs, hrun, hbs⟩ := run_bindNames (s := s) i.innerOutputs hl
  unfold instruction
  rw [hi]
  dsimp only
  rw [run_bind, hrun]
  generalize ((bindNames s i.innerOutputs).run l).1 = ps
  have hname := Header.over_method (fun _ => True) Q name i.index ps
  have hinside := inside_of_idle (K := K) (s := s) (n := i.index) hbs (hidle Row.noConfusion) hname
    .statements
  obtain ⟨ds, hds, hinside'⟩ := inside_declareOuter (s := s) (i := i) hinside
  exact ⟨_, [], ds, ⟨_, ps, rfl⟩, by simp, hds, hinside'.of_layout_eq rfl⟩

theorem continues_else (hi : i.op = .beginElse) : Continues s Q K i (· = .otherwise) := by
  refine ⟨enter s i.index .otherwise, ?_, ?_⟩
  · unfold instruction
    rw [hi]
  · intro l hl hidle
    exact ⟨_, rfl, inside_of_idle (h := .otherwise) hl hidle trivial .statements⟩

theorem continues_finally (hi : i.op = .beginFinally) :
    Continues s Q K i (· = .finallyBlock) := by
  refine ⟨enter s i.index .finallyBlock, ?_, ?_⟩
  · unfold instruction
    rw [hi]
  · intro l hl hidle
    exact ⟨_, rfl, inside_of_idle (h := .finallyBlock) hl hidle trivial .statements⟩

theorem continues_catch (hi : i.op = .beginCatch) :
    Continues s Q K i fun h => ∃ e, h = .exceptBlock e := by
  refine ⟨do
    let errors ← bindNames s i.innerOutputs
    enter s i.index (.exceptBlock (errors.headD (s.nameOf default))), ?_, ?_⟩
  · unfold instruction
    rw [hi]
  · intro l hl hidle
    obtain ⟨bs, hrun, hbs⟩ := run_bindNames (s := s) i.innerOutputs hl
    rw [run_bind, hrun]
    have hinside := inside_of_idle (K := K) (s := s) (n := i.index)
      (h := .exceptBlock (((bindNames s i.innerOutputs).run l).1.headD (s.nameOf default))) hbs hidle
      trivial .statements
    exact ⟨_, ⟨_, rfl⟩, hinside.of_layout_eq rfl⟩

theorem ends_of_op (hi : i.op = .endPlainFunction ∨ i.op = .endIf ∨ i.op = .endWhileLoop ∨
    i.op = .endForLoop ∨ i.op = .endTryCatchFinally ∨ i.op = .endSwitchCase ∨
    i.op = .endClassMethod ∨ i.op = .endClassDefinition) : Ends s i := by
  unfold Ends instruction
  rcases hi with hi | hi | hi | hi | hi | hi | hi | hi <;> rw [hi]

theorem ends_of_isBlockEnd (hs : i.isBlockStart = false) (he : i.isBlockEnd = true)
    (hop : i.op ≠ .endSwitch) : Ends s i := by
  refine ends_of_op ?_
  rw [Instruction.isBlockStart_eq] at hs
  rw [Instruction.isBlockEnd_eq] at he
  cases hop' : i.op <;> rw [hop'] at hs he hop <;> simp at hs he hop ⊢

/-- Rendering code that the grammar generates writes the lines of a row. -/
theorem fills_of_wellNested (hK : Commented K wanted texts) {place : Interior} {vs : List Variable}
    (h : WellNested place vs c) (hQ : ∀ i ∈ c, ∀ text ∈ i.rawTexts, Q text) :
    Fills s wanted texts Q K place.row c := by
  induction h with
  | done => exact fills_nil
  | instruction ordinary visible returns jumps rest ih =>
    obtain ⟨hi, hc⟩ := List.forall_mem_cons.mp hQ
    exact fills_instruction hK ordinary hi (ih hc)
  | function starts ends body rest ihb ihc =>
    simp only [List.forall_mem_append, List.forall_mem_cons] at hQ
    exact fills_block hK (opens_function starts) Row.noConfusion (ihb hQ.1.2)
      (ends_of_op (by simp [ends])) (ihc hQ.2.2) fun n => .block
  | conditional starts visible ends body rest ihb ihc =>
    simp only [List.forall_mem_append, List.forall_mem_cons] at hQ
    exact fills_block hK (opens_if starts) Row.noConfusion (ihb hQ.1.2)
      (ends_of_op (by simp [ends])) (ihc hQ.2.2) fun n h => .block (standsAlone_of_isCondition h)
  | alternative starts visible continues ends body otherwise rest ihb iho ihc =>
    simp only [List.forall_mem_append, List.forall_mem_cons] at hQ
    refine fills_two hK (opens_if starts) (ihb hQ.1.1.2) (continues_else continues) (iho hQ.1.2.2)
      (ends_of_op (by simp [ends])) (ihc hQ.2.2) ?_
    rintro h _ d b b' ls n n' hcondition rfl
    exact .alternative hcondition
  | whileLoop starts visible ends body rest ihb ihc =>
    simp only [List.forall_mem_append, List.forall_mem_cons] at hQ
    exact fills_block hK (opens_while starts) Row.noConfusion (ihb hQ.1.2)
      (ends_of_op (by simp [ends])) (ihc hQ.2.2) fun n => .block
  | forLoop starts visible ends body rest ihb ihc =>
    simp only [List.forall_mem_append, List.forall_mem_cons] at hQ
    exact fills_block hK (opens_for starts) Row.noConfusion (ihb hQ.1.2)
      (ends_of_op (by simp [ends])) (ihc hQ.2.2) fun n => .block
  | tryCatch starts continues ends body handler rest ihb ihh ihc =>
    simp only [List.forall_mem_append, List.forall_mem_cons] at hQ
    refine fills_two hK (opens_try starts) (ihb hQ.1.1.2) (continues_catch continues) (ihh hQ.1.2.2)
      (ends_of_op (by simp [ends])) (ihc hQ.2.2) ?_
    rintro _ _ d b b' ls n n' rfl ⟨e, rfl⟩
    exact .tryExcept
  | tryFinally starts continues ends body cleanup rest ihb ihf ihc =>
    simp only [List.forall_mem_append, List.forall_mem_cons] at hQ
    refine fills_two hK (opens_try starts) (ihb hQ.1.1.2) (continues_finally continues)
      (ihf hQ.1.2.2) (ends_of_op (by simp [ends])) (ihc hQ.2.2) ?_
    rintro _ _ d b b' ls n n' rfl rfl
    exact .tryFinally
  | tryCatchFinally starts continues continues' ends body handler cleanup rest ihb ihh ihf ihc =>
    simp only [List.forall_mem_append, List.forall_mem_cons] at hQ
    refine fills_three hK (opens_try starts) (ihb hQ.1.1.1.2) (continues_catch continues)
      (ihh hQ.1.1.2.2) (continues_finally continues') (ihf hQ.1.2.2) (ends_of_op (by simp [ends]))
      (ihc hQ.2.2) ?_
    rintro _ _ _ d b b' b'' ls n n' n'' rfl ⟨e, rfl⟩ rfl
    exact .tryExceptFinally
  | switch starts visible ends body rest ihb ihc =>
    simp only [List.forall_mem_append, List.forall_mem_cons] at hQ
    exact fills_switch hK (opens_switch starts) (ihb hQ.1.2) ends (ihc hQ.2.2)
  | switchCase starts visible ends body rest ihb ihc =>
    simp only [List.forall_mem_append, List.forall_mem_cons] at hQ
    exact fills_case hK (opens_case starts) (ihb hQ.1.2) (ends_of_op (by simp [ends])) (ihc hQ.2.2)
  | defaultCase starts ends body ihb =>
    simp only [List.forall_mem_append, List.forall_mem_cons] at hQ
    exact fills_defaultCase hK (opens_default starts) (ihb hQ.1.2) (ends_of_op (by simp [ends]))
  | classDefinition starts visible ends body rest ihb ihc =>
    simp only [List.forall_mem_append, List.forall_mem_cons] at hQ
    refine fills_block hK (opens_class starts) Row.noConfusion (ihb hQ.1.2)
      (ends_of_op (by simp [ends])) (ihc hQ.2.2) ?_
    rintro _ d b ls n ⟨name, base, rfl⟩
    exact .classBody
  | method starts ends body rest ihb ihc =>
    simp only [List.forall_mem_append, List.forall_mem_cons] at hQ
    exact fills_method hK (opens_method starts) (ihb hQ.1.2) (ends_of_op (by simp [ends]))
      (ihc hQ.2.2)

end Python.Render

namespace Comments

/-- All texts. -/
def texts (c : Comments) : List String :=
  c.header.toList ++ c.footer.toList ++ c.instructions.map Prod.snd

theorem mem_texts_of_get? {c : Comments} {n : Nat} {text : String} (h : c.get? n = some text) :
    text ∈ c.texts := by
  obtain ⟨before, rest, hsplit, -⟩ := List.lookup_eq_some_iff.mp h
  simp [texts, hsplit]

end Comments

open Python Python.Render Python.Lifting

/-- The lines of a program, with its raw texts in them and the lines of its comments. -/
theorem Program.suite_layout {Q K : String → Prop} (p : Program) (annotations : Annotations)
    (h : p.code.check = .ok ()) (hQ : ∀ i ∈ p.code, ∀ text ∈ i.rawTexts, Q text)
    (hK : annotations.comments = true → ∀ text ∈ p.comments.texts,
      ∀ line ∈ Text.lines text.toList, K (String.ofList line)) :
    Suite .statements 0 (p.layout annotations).lines.toList ∧
      (p.layout annotations).filled = [] ∧
      ∀ x ∈ (p.layout annotations).lines, x.content.Within Q K := by
  have hcode := Code.wellNested_of_check h
  have hheader : Commented K annotations.comments fun _ => p.comments.header := by
    intro n text htext hwanted
    refine hK hwanted text ?_
    simp [Comments.texts, Option.mem_def.mp htext]
  have hfooter : Commented K annotations.comments fun _ => p.comments.footer := by
    intro n text htext hwanted
    refine hK hwanted text ?_
    simp [Comments.texts, Option.mem_def.mp htext]
  have hinner : Commented K annotations.comments p.comments.get? :=
    fun n text htext hwanted => hK hwanted text (Comments.mem_texts_of_get? htext)
  let start : Lifting := { declarations := p.code.outerAssignments }
  have hstart : start.Sound Q := by
    intro x hx
    cases hx
  have hempty : Row.statements ≠ .statements → start.pending = [] := fun hne => absurd rfl hne
  obtain ⟨ls, ha, hls⟩ := flows_note hheader 0 hstart hempty
  obtain ⟨ms, ha', hms⟩ := fills_of_wellNested (s := .ofCode p.code) hinner hcode hQ _ ha.sound
    fun hne => absurd rfl hne
  have hdrain := (straight_drain (K := K) (s := .ofCode p.code)
    (n := (p.code.getLast?.map (·.index)).getD 0) _ ha'.sound).1
  obtain ⟨ns, ha'', hns⟩ := hdrain.trans
    (flows_note hfooter 0 hdrain.sound fun hne => absurd rfl hne)
  rw [ha'.depth, ha.depth] at hns
  rw [ha.depth] at hms
  have hall := (ha.trans ha').trans ha''
  have hlines : (p.layout annotations).lines.toList = ls ++ ms ++ ns := hall.lines
  refine ⟨?_, hall.filled, ?_⟩
  · rw [hlines, List.append_assoc]
    exact (hms.append_flat hns).flat_append hls
  · intro x hx
    refine hall.within x ?_
    rw [← hlines]
    exact Array.mem_toList_iff.mpr hx

end ScriptFuzz
