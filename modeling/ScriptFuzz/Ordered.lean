/-!
# Sets and maps as ascending lists

A set is a list in strictly ascending order and a map a list of pairs whose keys ascend strictly,
so that equal sets and equal maps are equal lists.
-/

namespace ScriptFuzz.Ordered

set_option autoImplicit false

variable {κ β : Type} [LT κ] [DecidableLT κ] [DecidableEq κ]

/-- The set with `k` added. -/
def insert (k : κ) : List κ → List κ
  | [] => [k]
  | x :: xs => if k = x then x :: xs else if k < x then k :: x :: xs else x :: insert k xs

/-- The set of the elements of a list. -/
def ofList (xs : List κ) : List κ := xs.foldl (fun s x => insert x s) []

theorem mem_insert {k x : κ} {xs : List κ} : x ∈ insert k xs ↔ x = k ∨ x ∈ xs := by
  induction xs with
  | nil => simp [insert]
  | cons y ys ih =>
    simp only [insert]
    split
    · subst k; simp
    · split <;> simp_all [or_left_comm]

/-- The map that takes `k` to `b` and agrees with the given one elsewhere. -/
def put (k : κ) (b : β) : List (κ × β) → List (κ × β)
  | [] => [(k, b)]
  | (x, y) :: xs =>
    if k = x then (k, b) :: xs
    else if k < x then (k, b) :: (x, y) :: xs
    else (x, y) :: put k b xs

/-- The map that the pairs of a list form; a later pair wins. -/
def ofPairs (ps : List (κ × β)) : List (κ × β) := ps.foldl (fun m (k, b) => put k b m) []

theorem lookup_put (k : κ) (b : β) (m : List (κ × β)) :
    (put k b m).lookup k = some b := by
  induction m with
  | nil => simp [put]
  | cons p ps ih =>
    obtain ⟨x, y⟩ := p
    simp only [put]
    split
    · simp
    · split
      · simp
      · rename_i h _
        have hb : (k == x) = false := by simpa using h
        simp [List.lookup_cons, hb, ih]

end ScriptFuzz.Ordered
