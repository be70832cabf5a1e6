import ScriptFuzz.Ordered

/-!
# Ascending lists are what they form

The elements of an ascending list, added one after the other, form the list itself; so do pairs with
ascending keys.
-/

namespace ScriptFuzz.Ordered

set_option autoImplicit false

/-- A fold whose step adds a greatest element at the end adds an ascending list as it stands. -/
theorem foldl_eq_append {α : Type} {R : α → α → Prop} {step : List α → α → List α}
    (hstep : ∀ s x, (∀ y ∈ s, R y x) → step s x = s ++ [x]) {s xs : List α}
    (h : (s ++ xs).Pairwise R) : xs.foldl step s = s ++ xs := by
  induction xs generalizing s with
  | nil => exact (List.append_nil s).symm
  | cons x xs ih =>
    have hlast : ∀ y ∈ s, R y x := fun y hy =>
      (List.pairwise_append.mp h).2.2 y hy x List.mem_cons_self
    rw [List.append_cons] at h
    rw [List.foldl_cons, hstep s x hlast, ih h, ← List.append_cons]

variable {κ β : Type} [LT κ] [DecidableLT κ] [DecidableEq κ] [Std.Asymm (α := κ) (· < ·)]

omit [DecidableLT κ] [DecidableEq κ] in
theorem ne_and_not_lt_of_lt {x k : κ} (h : x < k) : k ≠ x ∧ ¬k < x := by
  have hnot : ¬k < x := Std.Asymm.asymm _ _ h
  refine ⟨?_, hnot⟩
  rintro rfl
  exact hnot h

theorem insert_of_forall_lt {k : κ} {xs : List κ} (h : ∀ x ∈ xs, x < k) :
    insert k xs = xs ++ [k] := by
  induction xs with
  | nil => rfl
  | cons x xs ih =>
    obtain ⟨hne, hlt⟩ := ne_and_not_lt_of_lt (h x List.mem_cons_self)
    rw [insert, if_neg hne, if_neg hlt, ih fun y hy => h y (List.mem_cons_of_mem x hy)]
    rfl

theorem put_of_forall_lt {k : κ} {b : β} {m : List (κ × β)} (h : ∀ p ∈ m, p.1 < k) :
    put k b m = m ++ [(k, b)] := by
  induction m with
  | nil => rfl
  | cons p m ih =>
    obtain ⟨hne, hlt⟩ := ne_and_not_lt_of_lt (h p List.mem_cons_self)
    rw [put, if_neg hne, if_neg hlt, ih fun q hq => h q (List.mem_cons_of_mem p hq)]
    rfl

omit [Std.Asymm (α := κ) (· < ·)] in
theorem lookup_put_of_ne {k x : κ} (h : x ≠ k) (b : β) (m : List (κ × β)) :
    (put k b m).lookup x = m.lookup x := by
  have hx : (x == k) = false := beq_false_of_ne h
  induction m with
  | nil => simp [put, List.lookup_cons, hx]
  | cons p ps ih =>
    obtain ⟨y, c⟩ := p
    simp only [put]
    split
    · rename_i hk
      subst hk
      simp [List.lookup_cons, hx]
    · split
      · simp [List.lookup_cons, hx]
      · simp only [List.lookup_cons, ih]

omit [Std.Asymm (α := κ) (· < ·)] in
/-- Where equal keys have equal values, the map has the value of each key. -/
theorem lookup_ofPairs {f : κ → Option β} {ps : List (κ × β)} (h : ∀ p ∈ ps, f p.1 = some p.2)
    {k : κ} (hk : ∀ b, f k = some b → (k, b) ∈ ps) : (ofPairs ps).lookup k = f k := by
  have hfold (m : List (κ × β)) (hm : m.lookup k = f k ∨ k ∈ ps.map Prod.fst) :
      (ps.foldl (fun m p => put p.1 p.2 m) m).lookup k = f k := by
    clear hk
    induction ps generalizing m with
    | nil => exact hm.resolve_right List.not_mem_nil
    | cons p ps ih =>
      refine ih (fun q hq => h q (List.mem_cons_of_mem p hq)) _ ?_
      by_cases hp : k = p.1
      · subst hp
        exact .inl ((lookup_put _ _ _).trans (h p List.mem_cons_self).symm)
      · rw [lookup_put_of_ne hp]
        exact hm.imp_right fun hmem => (List.mem_cons.mp hmem).resolve_left hp
  apply hfold []
  cases hf : f k with
  | none => exact .inl rfl
  | some b => exact .inr (List.mem_map_of_mem (hk b hf))

omit [Std.Asymm (α := κ) (· < ·)] in
/-- A set stays ascending when an element is added. -/
theorem pairwise_insert [Trans (α := κ) (· < ·) (· < ·) (· < ·)]
    [Std.Trichotomous (α := κ) (· < ·)] {xs : List κ} (h : xs.Pairwise (· < ·)) (k : κ) :
    (insert k xs).Pairwise (· < ·) := by
  induction xs with
  | nil => exact List.pairwise_singleton _ _
  | cons x xs ih =>
    obtain ⟨hx, hxs⟩ := List.pairwise_cons.mp h
    rw [insert]
    split
    · exact h
    · rename_i hne
      split
      · rename_i hlt
        refine List.pairwise_cons.mpr ⟨?_, h⟩
        intro y hy
        rcases List.mem_cons.mp hy with rfl | hy
        · exact hlt
        · exact Trans.trans hlt (hx y hy)
      · rename_i hlt
        refine List.pairwise_cons.mpr ⟨?_, ih hxs⟩
        intro y hy
        rcases mem_insert.mp hy with rfl | hy
        · exact Decidable.byContradiction fun hnot =>
            hne (Std.Trichotomous.trichotomous _ _ hlt hnot)
        · exact hx y hy

omit [Std.Asymm (α := κ) (· < ·)] in
theorem mem_ofList {xs : List κ} {x : κ} : x ∈ ofList xs ↔ x ∈ xs := by
  have hfold (s : List κ) : x ∈ xs.foldl (fun s y => insert y s) s ↔ x ∈ s ∨ x ∈ xs := by
    induction xs generalizing s with
    | nil => exact ⟨.inl, fun h => h.resolve_right List.not_mem_nil⟩
    | cons y ys ih =>
      rw [List.foldl_cons, ih, mem_insert, List.mem_cons, or_comm (a := x = y), or_assoc]
  exact (hfold []).trans (or_iff_right List.not_mem_nil)

/-- An ascending list is the set of its elements. -/
theorem ofList_of_pairwise {xs : List κ} (h : xs.Pairwise (· < ·)) : ofList xs = xs :=
  foldl_eq_append (fun _ _ => insert_of_forall_lt) h

/-- Pairs with ascending keys are the map that they form. -/
theorem ofPairs_of_pairwise {ps : List (κ × β)} (h : ps.Pairwise fun p q => p.1 < q.1) :
    ofPairs ps = ps :=
  foldl_eq_append (fun _ _ => put_of_forall_lt) h

omit [DecidableLT κ] in
/-- In a map with ascending keys each pair is found by its key. -/
theorem mem_iff_lookup {m : List (κ × β)} (h : m.Pairwise fun p q => p.1 < q.1) {k : κ} {b : β} :
    (k, b) ∈ m ↔ m.lookup k = some b := by
  induction m with
  | nil => simp
  | cons p m ih =>
    obtain ⟨x, y⟩ := p
    obtain ⟨hx, hm⟩ := List.pairwise_cons.mp h
    rw [List.mem_cons, List.lookup_cons]
    by_cases hk : k = x
    · subst hk
      have hgone : (k, b) ∉ m := fun hmem => (ne_and_not_lt_of_lt (hx _ hmem)).1 rfl
      simp [hgone, eq_comm]
    · have hbeq : (k == x) = false := beq_false_of_ne hk
      simp [hk, hbeq, ih hm]

omit [DecidableLT κ] in
/-- A map with ascending keys is determined by its values. -/
theorem eq_of_lookup_eq {m m' : List (κ × β)} (hm : m.Pairwise fun p q => p.1 < q.1)
    (hm' : m'.Pairwise fun p q => p.1 < q.1) (h : ∀ k, m.lookup k = m'.lookup k) : m = m' := by
  have hnodup {l : List (κ × β)} (hl : l.Pairwise fun p q => p.1 < q.1) : l.Nodup := by
    refine hl.imp fun {p q} hlt heq => ?_
    exact (ne_and_not_lt_of_lt hlt).1 (heq ▸ rfl)
  have hperm : m.Perm m' := by
    refine (List.perm_ext_iff_of_nodup (hnodup hm) (hnodup hm')).mpr ?_
    rintro ⟨k, b⟩
    rw [mem_iff_lookup hm, mem_iff_lookup hm', h]
  refine hperm.eq_of_pairwise ?_ hm hm'
  intro p q _ _ hpq hqp
  exact absurd hqp (ne_and_not_lt_of_lt hpq).2

omit [Std.Asymm (α := κ) (· < ·)] in
theorem mem_of_mem_put {k : κ} {b : β} {m : List (κ × β)} {p : κ × β} (h : p ∈ put k b m) :
    p = (k, b) ∨ p ∈ m := by
  induction m with
  | nil => exact .inl (List.mem_singleton.mp h)
  | cons q m ih =>
    obtain ⟨x, y⟩ := q
    rw [put] at h
    split at h
    · exact (List.mem_cons.mp h).imp_right (List.mem_cons_of_mem _)
    · split at h
      · exact List.mem_cons.mp h
      · rcases List.mem_cons.mp h with rfl | h
        · exact .inr List.mem_cons_self
        · exact (ih h).imp_right (List.mem_cons_of_mem _)

omit [Std.Asymm (α := κ) (· < ·)] in
theorem mem_ofPairs {ps : List (κ × β)} {x : κ × β} (h : x ∈ ofPairs ps) : x ∈ ps := by
  have hfold (m : List (κ × β)) (hm : x ∈ ps.foldl (fun m y => put y.1 y.2 m) m) :
      x ∈ m ∨ x ∈ ps := by
    clear h
    induction ps generalizing m with
    | nil => exact .inl hm
    | cons y ys ih =>
      rcases ih _ hm with hx | hx
      · exact (mem_of_mem_put hx).symm.imp_right fun hx => List.mem_cons.mpr (.inl hx)
      · exact .inr (List.mem_cons_of_mem y hx)
  exact (hfold [] h).resolve_left List.not_mem_nil

section Total

variable [Trans (α := κ) (· < ·) (· < ·) (· < ·)] [Std.Trichotomous (α := κ) (· < ·)]

omit [Std.Asymm (α := κ) (· < ·)] in
/-- The keys of a map stay ascending when a key is given a value. -/
theorem pairwise_put {m : List (κ × β)} (h : m.Pairwise fun p q => p.1 < q.1) (k : κ) (b : β) :
    (put k b m).Pairwise fun p q => p.1 < q.1 := by
  induction m with
  | nil => exact List.pairwise_singleton _ _
  | cons q m ih =>
    obtain ⟨x, y⟩ := q
    obtain ⟨hx, hm⟩ := List.pairwise_cons.mp h
    rw [put]
    split
    · rename_i heq
      subst heq
      exact List.pairwise_cons.mpr ⟨hx, hm⟩
    · rename_i hne
      split
      · rename_i hlt
        refine List.pairwise_cons.mpr ⟨?_, h⟩
        intro p hp
        rcases List.mem_cons.mp hp with rfl | hp
        · exact hlt
        · exact Trans.trans hlt (hx p hp)
      · rename_i hlt
        refine List.pairwise_cons.mpr ⟨?_, ih hm⟩
        intro p hp
        rcases mem_of_mem_put hp with rfl | hp
        · exact Decidable.byContradiction fun hnot =>
            hne (Std.Trichotomous.trichotomous _ _ hlt hnot)
        · exact hx p hp

omit [Std.Asymm (α := κ) (· < ·)] in
theorem pairwise_ofPairs (ps : List (κ × β)) : (ofPairs ps).Pairwise fun p q => p.1 < q.1 := by
  have hfold (m : List (κ × β)) (hm : m.Pairwise fun p q => p.1 < q.1) :
      (ps.foldl (fun m p => put p.1 p.2 m) m).Pairwise fun p q => p.1 < q.1 := by
    induction ps generalizing m with
    | nil => exact hm
    | cons p ps ih => exact ih _ (pairwise_put hm p.1 p.2)
  exact hfold [] .nil

/-- Pairs with different keys form the same map in whatever order they are given. -/
theorem ofPairs_of_perm {ps qs : List (κ × β)} (h : ps.Perm qs)
    (hqs : qs.Pairwise fun p q => p.1 < q.1) : ofPairs ps = qs := by
  refine eq_of_lookup_eq (pairwise_ofPairs ps) hqs fun k => ?_
  apply lookup_ofPairs
  · exact fun p hp => (mem_iff_lookup hqs).mp (h.mem_iff.mp hp)
  · exact fun b hb => h.mem_iff.mpr ((mem_iff_lookup hqs).mpr hb)

omit [Std.Asymm (α := κ) (· < ·)] in
theorem pairwise_ofList (xs : List κ) : (ofList xs).Pairwise (· < ·) := by
  have hfold (s : List κ) (hs : s.Pairwise (· < ·)) :
      (xs.foldl (fun s x => insert x s) s).Pairwise (· < ·) := by
    induction xs generalizing s with
    | nil => exact hs
    | cons x xs ih => exact ih _ (pairwise_insert hs x)
  exact hfold [] .nil

omit [DecidableLT κ] [DecidableEq κ] [Trans (α := κ) (· < ·) (· < ·) (· < ·)]
  [Std.Trichotomous (α := κ) (· < ·)] in
/-- A set is determined by its elements. -/
theorem eq_of_mem_iff {xs ys : List κ} (hxs : xs.Pairwise (· < ·)) (hys : ys.Pairwise (· < ·))
    (h : ∀ x, x ∈ xs ↔ x ∈ ys) : xs = ys := by
  have hnodup {l : List κ} (hl : l.Pairwise (· < ·)) : l.Nodup :=
    List.Pairwise.imp (fun hlt => (ne_and_not_lt_of_lt hlt).1.symm) hl
  have hperm : xs.Perm ys := (List.perm_ext_iff_of_nodup (hnodup hxs) (hnodup hys)).mpr h
  refine hperm.eq_of_pairwise ?_ hxs hys
  intro x y _ _ hxy hyx
  exact absurd hyx (ne_and_not_lt_of_lt hxy).2

end Total

end ScriptFuzz.Ordered
