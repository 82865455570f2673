/-
  QuboProbe.Chunks

  Lists cut into pieces of one size, the last of which may be shorter.
-/

namespace QuboProbe

variable {β : Type}

/-- The first `count` pieces at most. -/
def firstChunks (size : Nat) : Nat → List β → List (List β)
  | 0, _ => []
  | _ + 1, [] => []
  | count + 1, x :: xs => (x :: xs).take size :: firstChunks size count ((x :: xs).drop size)

/-- All pieces: a list of `k` items has at most `k`, unless they are empty. -/
def chunks (size : Nat) (xs : List β) : List (List β) := firstChunks size xs.length xs

theorem flatten_firstChunks {size : Nat} (hs : 0 < size) (count : Nat) (xs : List β)
    (h : xs.length ≤ count) : (firstChunks size count xs).flatten = xs := by
  induction count generalizing xs with
  | zero => cases xs with
    | nil => rfl
    | cons => simp at h
  | succ count ih =>
    cases xs with
    | nil => rfl
    | cons x xs =>
      rw [firstChunks, List.flatten_cons, ih _ (by simp at h ⊢; omega), List.take_append_drop]

/-- The pieces make up the list. -/
theorem flatten_chunks {size : Nat} (hs : 0 < size) (xs : List β) :
    (chunks size xs).flatten = xs := flatten_firstChunks hs _ _ (Nat.le_refl _)

end QuboProbe
