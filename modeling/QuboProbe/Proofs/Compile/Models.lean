/-
  QuboProbe.Proofs.Compile.Models

  What is read from a model that was assembled of coefficients, and that their
  order does not matter (`PseudoBoolean.assemble_perm`).
-/
import QuboProbe.Proofs.Compile.Coefficients

namespace QuboProbe.PseudoBoolean

variable {α : Type}

/-! ## Tables filled entry by entry -/

theorem foldl_set_shape (q : Matrix α) (cs : Coefficients α) :
    (cs.foldl (fun q c => q.set c.1.1 c.1.2 c.2) q).rows = q.rows ∧
      (cs.foldl (fun q c => q.set c.1.1 c.1.2 c.2) q).cols = q.cols := by
  induction cs generalizing q with
  | nil => exact ⟨rfl, rfl⟩
  | cons c cs ih =>
    rw [List.foldl_cons]
    obtain ⟨hrows, hcols⟩ := ih (q.set c.1.1 c.1.2 c.2)
    exact ⟨hrows.trans (Matrix.rows_set ..), hcols.trans (Matrix.cols_set ..)⟩

theorem get?_foldl_set (q : Matrix α) (value : Place → α) (places : List Place)
    (hplaces : ∀ p ∈ places, p.1 < q.rows ∧ p.2 < q.cols) (i j : Nat) :
    ((places.map fun p => (p, value p)).foldl (fun q c => q.set c.1.1 c.1.2 c.2) q).get? i j =
      if (i, j) ∈ places then some (value (i, j)) else q.get? i j := by
  induction places generalizing q with
  | nil => rfl
  | cons p places ih =>
    obtain ⟨hi, hj⟩ := hplaces p List.mem_cons_self
    have hrest : ∀ p' ∈ places, p'.1 < (q.set p.1 p.2 (value p)).rows ∧
        p'.2 < (q.set p.1 p.2 (value p)).cols := fun p' hp' => by
      rw [Matrix.rows_set, Matrix.cols_set]
      exact hplaces p' (List.mem_cons_of_mem _ hp')
    rw [List.map_cons, List.foldl_cons, ih _ hrest, Matrix.get?_set _ hi hj]
    by_cases hmem : (i, j) ∈ places
    · rw [if_pos hmem, if_pos (List.mem_cons_of_mem _ hmem)]
    · by_cases hp : (i, j) = p
      · subst hp
        rw [if_neg hmem, if_pos ⟨rfl, rfl⟩, if_pos List.mem_cons_self]
      · have hne : ¬ (i = p.1 ∧ j = p.2) := fun ⟨h1, h2⟩ => hp (Prod.ext h1 h2)
        rw [if_neg hmem, if_neg hne, if_neg (List.not_mem_cons_of_ne_of_not_mem hp hmem)]

/-! ## Models -/

variable [Zero α]

theorem assemble_shape (n : Nat) (offset : α) (cs : Coefficients α) :
    (assemble n offset cs).matrix.rows = n ∧ (assemble n offset cs).matrix.cols = n :=
  foldl_set_shape (.zeros n n) cs

/-- What is read from a model whose coefficients are the values of a function of the place. -/
theorem get?_assemble {n : Nat} (offset : α) (value : Place → α) {places : List Place}
    (hplaces : ∀ p ∈ places, p.1 < n ∧ p.2 < n) (i j : Nat) :
    (assemble n offset (places.map fun p => (p, value p))).matrix.get? i j =
      if (i, j) ∈ places then some (value (i, j)) else if i < n ∧ j < n then some 0 else none := by
  rw [assemble, get?_foldl_set _ _ _ hplaces, Matrix.get?_zeros]

/-- The order of the coefficients does not matter. -/
theorem assemble_perm {n : Nat} (offset : α) (value : Place → α) {places places' : List Place}
    (hplaces : ∀ p ∈ places, p.1 < n ∧ p.2 < n) (hperm : places'.Perm places) :
    assemble n offset (places'.map fun p => (p, value p)) =
      assemble n offset (places.map fun p => (p, value p)) := by
  have hmatrix : (assemble n offset (places'.map fun p => (p, value p))).matrix =
      (assemble n offset (places.map fun p => (p, value p))).matrix := by
    obtain ⟨hrows, hcols⟩ := assemble_shape n offset (places.map fun p => (p, value p))
    obtain ⟨hrows', hcols'⟩ := assemble_shape n offset (places'.map fun p => (p, value p))
    apply Matrix.ext_get? (hrows'.trans hrows.symm) (hcols'.trans hcols.symm)
    intro i j
    rw [get?_assemble offset value hplaces,
      get?_assemble offset value fun p hp => hplaces p (hperm.mem_iff.1 hp)]
    simp only [hperm.mem_iff]
  exact congrArg (Qubo.mk · offset) hmatrix

variable [Add α] [Sub α]

/-- The model made of values on the probes. -/
def modelOf (value : BitString → α) (n : Nat) : Qubo α :=
  assemble n (value (.zeros n)) ((Probes.cells n).map fun p => (p, coefficientOf value n p))

theorem get?_modelOf (value : BitString → α) {n i j : Nat} (hij : i ≤ j) (hj : j < n) :
    (modelOf value n).matrix.get? i j = some (coefficientOf value n (i, j)) := by
  rw [modelOf, get?_assemble _ _ fun p => Probes.lt_of_mem_cells,
    if_pos (Probes.mem_cells.2 ⟨hij, hj⟩)]

end QuboProbe.PseudoBoolean
