/-
  QuboProbe.Proofs.Matrix

  Tables by their entries.  Inside of a table an entry is what the view finds,
  outside of it zero, so that a table is known by its shape and its entries
  (`Matrix.ext_entry`).
-/
import QuboProbe.Matrix

namespace QuboProbe.Matrix

variable {α : Type}

/-! ## Places -/

theorem place_eq_iff {cols i j k : Nat} (hj : j < cols) :
    (k / cols, k % cols) = (i, j) ↔ k = i * cols + j := by
  constructor
  · intro h
    obtain ⟨rfl, rfl⟩ := Prod.mk.inj h
    exact (Nat.div_add_mod' k cols).symm
  · rintro rfl
    rw [place_div hj, place_mod hj]

theorem mem_places {m : Matrix α} {i j : Nat} :
    (i, j) ∈ m.places ↔ i < m.rows ∧ j < m.cols := by
  rw [places, List.mem_map]
  constructor
  · rintro ⟨k, hk, heq⟩
    have hk := List.mem_range.1 hk
    obtain ⟨rfl, rfl⟩ := Prod.mk.inj heq
    have hcols : 0 < m.cols := Nat.pos_of_ne_zero fun h0 => by
      rw [h0, Nat.mul_zero] at hk
      omega
    exact ⟨(Nat.div_lt_iff_lt_mul hcols).2 hk, Nat.mod_lt k hcols⟩
  · rintro ⟨hi, hj⟩
    exact ⟨i * m.cols + j, List.mem_range.2 (place_lt hi hj), (place_eq_iff hj).2 rfl⟩

theorem get?_eq_none {m : Matrix α} {i j : Nat} (h : ¬(i < m.rows ∧ j < m.cols)) :
    m.get? i j = none :=
  Option.not_isSome_iff_eq_none.1 fun hsome => h ((m.get?_isSome_iff i j).1 hsome)

/-! ## Entries -/

variable [Zero α]

theorem get?_eq_entry {m : Matrix α} {i j : Nat} (hi : i < m.rows) (hj : j < m.cols) :
    m.get? i j = some (m.entry i j) := by
  obtain ⟨a, ha⟩ := Option.isSome_iff_exists.1 ((m.get?_isSome_iff i j).2 ⟨hi, hj⟩)
  rw [entry, ha, Option.getD_some]

theorem entry_eq_zero {m : Matrix α} {i j : Nat} (h : ¬(i < m.rows ∧ j < m.cols)) :
    m.entry i j = 0 := by
  rw [entry, get?_eq_none h, Option.getD_none]

theorem entry_ofFn (rows cols : Nat) (f : Nat → Nat → α) (i j : Nat) :
    (ofFn rows cols f).entry i j = if i < rows ∧ j < cols then f i j else 0 := by
  rw [entry, get?_ofFn]
  split <;> rfl

theorem entry_zeros (rows cols i j : Nat) : (zeros rows cols : Matrix α).entry i j = 0 := by
  rw [entry, get?_zeros]
  split <;> rfl

theorem entry_set {m : Matrix α} {r c : Nat} (hr : r < m.rows) (hc : c < m.cols) (v : α)
    (i j : Nat) :
    (m.set r c v).entry i j = if i = r ∧ j = c then v else m.entry i j := by
  rw [entry, get?_set m hr hc]
  split <;> rfl

/-- A table is known by its shape and its entries. -/
theorem ext_entry {p q : Matrix α} (hrows : p.rows = q.rows) (hcols : p.cols = q.cols)
    (h : ∀ i j, i < p.rows → j < p.cols → p.entry i j = q.entry i j) : p = q := by
  apply ext_get? hrows hcols
  intro i j
  by_cases hij : i < p.rows ∧ j < p.cols
  · rw [get?_eq_entry hij.1 hij.2, get?_eq_entry (hrows ▸ hij.1) (hcols ▸ hij.2),
      h i j hij.1 hij.2]
  · -- neither has such a place
    rw [get?_eq_none hij, get?_eq_none (by rwa [← hrows, ← hcols])]

end QuboProbe.Matrix
