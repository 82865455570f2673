/-
  QuboProbe.Proofs.Terms

  The sparse form of a model.  The places of a table are listed row after row
  (`Matrix.pairwise_places`), so the terms of a model are in that order too;
  they are the coefficients on and above the diagonal that are not zero
  (`Qubo.mem_terms`), and nothing below the diagonal is read by any of the
  readers of a model (`Qubo.SameAbove` and its lemmas).

  A model is got back from its terms (`Qubo.ofTerms`), and its energy is the
  sum of those terms whose bits are both set.
-/
import QuboProbe.Proofs.Folding

namespace QuboProbe

/-! ## Places in their order -/

namespace Matrix

variable {α : Type}

/-- The order of the places of a table: an earlier row, or an earlier place in the same row. -/
def Before (p p' : Nat × Nat) : Prop := p.1 < p'.1 ∨ p.1 = p'.1 ∧ p.2 < p'.2

theorem pairwise_places (m : Matrix α) : m.places.Pairwise Before := by
  rw [places, List.pairwise_map]
  refine List.pairwise_lt_range.imp fun {k k'} hk => ?_
  have hrow : k / m.cols ≤ k' / m.cols := Nat.div_le_div_right hk.le
  rcases Nat.eq_or_lt_of_le hrow with heq | hlt
  · -- in one row the columns differ as the numbers do
    have hdiv := Nat.div_add_mod k m.cols
    have hdiv' := Nat.div_add_mod k' m.cols
    rw [heq] at hdiv
    exact .inr ⟨heq, by omega⟩
  · exact .inl hlt

theorem nodup_places (m : Matrix α) : m.places.Nodup :=
  m.pairwise_places.imp fun {p p'} h heq => by
    subst heq
    rcases h with h | ⟨-, h⟩ <;> exact Nat.lt_irrefl _ h

/-- The table with zeros below its diagonal. -/
def upper [Zero α] (m : Matrix α) : Matrix α :=
  .ofFn m.rows m.cols fun i j => if i ≤ j then m.entry i j else 0

end Matrix

namespace Qubo

/-! ## Terms -/

section

variable {α : Type} [Zero α] [BEq α] {q : Qubo α}

/-- The places of the coefficients that are not zero. -/
def termPlaces (q : Qubo α) : List (Nat × Nat) :=
  q.matrix.places.filter fun p => decide (p.1 ≤ p.2) && q.matrix.entry p.1 p.2 != 0

theorem terms_eq (q : Qubo α) :
    q.terms = q.termPlaces.map fun p => ⟨p.1, p.2, q.matrix.entry p.1 p.2⟩ := rfl

theorem mem_termPlaces {i j : Nat} : (i, j) ∈ q.termPlaces ↔
    (i < q.matrix.rows ∧ j < q.matrix.cols) ∧ i ≤ j ∧ (q.matrix.entry i j != 0) = true := by
  rw [termPlaces, List.mem_filter, Matrix.mem_places, Bool.and_eq_true, decide_eq_true_iff]

/-- The terms are the coefficients on and above the diagonal that are not zero. -/
theorem mem_terms {t : Term α} : t ∈ q.terms ↔
    (t.i < q.matrix.rows ∧ t.j < q.matrix.cols) ∧ t.i ≤ t.j ∧
      t.coefficient = q.matrix.entry t.i t.j ∧ (t.coefficient != 0) = true := by
  rw [terms_eq, List.mem_map]
  constructor
  · rintro ⟨⟨i, j⟩, hp, rfl⟩
    obtain ⟨hin, hij, hne⟩ := mem_termPlaces.1 hp
    exact ⟨hin, hij, rfl, hne⟩
  · rintro ⟨hin, hij, hcoefficient, hne⟩
    rw [hcoefficient] at hne
    exact ⟨(t.i, t.j), mem_termPlaces.2 ⟨hin, hij, hne⟩, by rw [← hcoefficient]⟩

/-- A term is what the readers of a model give at its place. -/
theorem reads_of_mem_terms {t : Term α} (ht : t ∈ q.terms) :
    (t.i = t.j → q.linear? t.i = some t.coefficient) ∧
      q.quadratic? t.i t.j = some t.coefficient ∧ q.quadratic? t.j t.i = some t.coefficient := by
  obtain ⟨⟨hi, hj⟩, hij, hcoefficient, -⟩ := mem_terms.1 ht
  have hget : q.matrix.get? t.i t.j = some t.coefficient := by
    rw [Matrix.get?_eq_entry hi hj, hcoefficient]
  refine ⟨fun hdiagonal => ?_, ?_, ?_⟩
  · rw [linear?, ← hget, ← hdiagonal]
  · rw [quadratic?_eq_get?, min_eq_left hij, max_eq_right hij, hget]
  · rw [quadratic?_eq_get?, min_eq_right hij, max_eq_left hij, hget]

/-- A place on or above the diagonal has no term exactly if its coefficient is zero. -/
theorem no_term_iff {i j : Nat} (hin : i < q.matrix.rows ∧ j < q.matrix.cols) (hij : i ≤ j) :
    (∀ t ∈ q.terms, ¬(t.i = i ∧ t.j = j)) ↔
      ∃ c, q.quadratic? i j = some c ∧ (c == 0) = true := by
  have hget : q.quadratic? i j = some (q.matrix.entry i j) := by
    rw [quadratic?_eq_get?, min_eq_left hij, max_eq_right hij, Matrix.get?_eq_entry hin.1 hin.2]
  rw [hget]
  constructor
  · intro hnone
    refine ⟨_, rfl, ?_⟩
    by_contra hne
    exact hnone ⟨i, j, q.matrix.entry i j⟩
      (mem_terms.2 ⟨hin, hij, rfl, by rw [bne, Bool.eq_false_of_not_eq_true hne]; rfl⟩) ⟨rfl, rfl⟩
  · rintro ⟨c, hc, hzero⟩ t ht ⟨rfl, rfl⟩
    obtain ⟨-, -, hcoefficient, hne⟩ := mem_terms.1 ht
    rw [hcoefficient, Option.some.inj hc, bne, hzero] at hne
    cases hne

theorem pairwise_terms (q : Qubo α) :
    q.terms.Pairwise fun s t => Matrix.Before (s.i, s.j) (t.i, t.j) := by
  rw [terms_eq, List.pairwise_map]
  exact q.matrix.pairwise_places.filter _

/-! ## Models of terms -/

/-- The model with these terms; a coefficient that is not among them is zero. -/
def ofTerms (n : Nat) (offset : α) (terms : List (Term α)) : Qubo α :=
  PseudoBoolean.assemble n offset (terms.map fun t => ((t.i, t.j), t.coefficient))

theorem ofTerms_terms (q : Qubo α) (n : Nat) :
    ofTerms n q.offset q.terms = PseudoBoolean.assemble n q.offset
      (q.termPlaces.map fun p => (p, q.matrix.entry p.1 p.2)) := by
  rw [ofTerms, terms_eq, List.map_map]
  rfl

/-- What is read from the model of the terms of a model. -/
theorem get?_ofTerms_terms (hsquare : q.matrix.rows = q.matrix.cols) (i j : Nat) :
    (ofTerms q.size q.offset q.terms).matrix.get? i j =
      if i < q.size ∧ j < q.size then
        some (if i ≤ j ∧ (q.matrix.entry i j != 0) = true then q.matrix.entry i j else 0)
      else none := by
  have hin : ∀ p ∈ q.termPlaces, p.1 < q.size ∧ p.2 < q.size := fun p hp => by
    obtain ⟨⟨hi, hj⟩, -⟩ := mem_termPlaces.1 hp
    exact ⟨hi, Nat.lt_of_lt_of_eq hj hsquare.symm⟩
  rw [ofTerms_terms, PseudoBoolean.get?_assemble q.offset (fun p => q.matrix.entry p.1 p.2) hin]
  by_cases h : (i, j) ∈ q.termPlaces
  · obtain ⟨-, hterm⟩ := mem_termPlaces.1 h
    rw [if_pos h, if_pos (hin (i, j) h), if_pos hterm]
  · rw [if_neg h]
    refine ite_congr rfl (fun hij => ?_) fun _ => rfl
    rw [if_neg fun hterm => h (mem_termPlaces.2 ⟨⟨hij.1, hsquare ▸ hij.2⟩, hterm⟩)]

/-! ## What is below the diagonal -/

variable {p : Qubo α}

/-- Two models of one shape and offset that are the same on and above the diagonal. -/
structure SameAbove (p q : Qubo α) : Prop where
  rows : p.matrix.rows = q.matrix.rows
  cols : p.matrix.cols = q.matrix.cols
  offset : p.offset = q.offset
  entry : ∀ i j, i ≤ j → p.matrix.entry i j = q.matrix.entry i j

omit [BEq α] in
theorem SameAbove.get? (h : SameAbove p q) {i j : Nat} (hij : i ≤ j) :
    p.matrix.get? i j = q.matrix.get? i j := by
  by_cases hin : i < q.matrix.rows ∧ j < q.matrix.cols
  · rw [Matrix.get?_eq_entry hin.1 hin.2, Matrix.get?_eq_entry (h.rows.symm ▸ hin.1)
      (h.cols.symm ▸ hin.2), h.entry i j hij]
  · rw [Matrix.get?_eq_none hin, Matrix.get?_eq_none (by rwa [h.rows, h.cols])]

theorem SameAbove.terms (h : SameAbove p q) : p.terms = q.terms := by
  have hplaces : p.termPlaces = q.termPlaces := by
    rw [termPlaces, termPlaces, Matrix.places, Matrix.places, h.rows, h.cols]
    refine List.filter_congr fun place _ => ?_
    by_cases hle : place.1 ≤ place.2
    · rw [h.entry _ _ hle]
    · rw [decide_eq_false hle, Bool.false_and, Bool.false_and]
  rw [terms_eq, terms_eq, hplaces]
  refine List.map_congr_left fun place hplace => ?_
  rw [h.entry _ _ (mem_termPlaces.1 hplace).2.1]

omit [BEq α] in
theorem SameAbove.linear? (h : SameAbove p q) (i : Nat) : p.linear? i = q.linear? i :=
  h.get? (Nat.le_refl i)

omit [BEq α] in
theorem SameAbove.quadratic? (h : SameAbove p q) (i j : Nat) :
    p.quadratic? i j = q.quadratic? i j := by
  rw [quadratic?_eq_get?, quadratic?_eq_get?]
  exact h.get? min_le_max

omit [BEq α] in
theorem SameAbove.toSymmetric [Scalar α] (h : SameAbove p q) : p.toSymmetric = q.toSymmetric := by
  have hsize : p.size = q.size := h.rows
  have hentry (i j : Nat) : (if i = j then p.matrix.entry i i
      else Scalar.half (p.matrix.entry (min i j) (max i j))) =
      if i = j then q.matrix.entry i i
      else Scalar.half (q.matrix.entry (min i j) (max i j)) := by
    rw [h.entry i i (Nat.le_refl i), h.entry (min i j) (max i j) (by omega)]
  simp only [Qubo.toSymmetric, hsize, hentry]

omit [BEq α] in
theorem SameAbove.toSymmetric? [Scalar α] (h : SameAbove p q) :
    p.toSymmetric? = q.toSymmetric? := by
  have hsize : p.size = q.size := h.rows
  rw [Qubo.toSymmetric?, Qubo.toSymmetric?, h.rows, h.cols, hsize, h.toSymmetric]

omit [BEq α] in
theorem SameAbove.energy [Add α] (h : SameAbove p q) (x : List UInt8) :
    p.energy x = q.energy x := by
  rw [Qubo.energy, Qubo.energy, h.offset]
  exact Matrix.energy_congr h.rows h.cols h.entry q.offset x

end

/-! ## Energies -/

theorem termPlaces_toFinset (q : Qubo ℚ) (hsquare : q.matrix.rows = q.matrix.cols)
    (s : Finset Nat) :
    (q.termPlaces.filter fun p => p.1 ∈ s ∧ p.2 ∈ s).toFinset =
      (Finset.range q.size ×ˢ Finset.range q.size).filter fun p =>
        p.1 ≤ p.2 ∧ q.matrix.entry p.1 p.2 ≠ 0 ∧ p.1 ∈ s ∧ p.2 ∈ s := by
  ext ⟨i, j⟩
  rw [List.mem_toFinset, List.mem_filter, mem_termPlaces, Finset.mem_filter, Finset.mem_product,
    Finset.mem_range, Finset.mem_range, decide_eq_true_iff, bne_iff_ne, ← hsquare]
  exact ⟨fun ⟨⟨hin, hle, hne⟩, hs⟩ => ⟨hin, hle, hne, hs⟩,
    fun ⟨hin, hle, hne, hs⟩ => ⟨⟨hin, hle, hne⟩, hs⟩⟩

/-- The terms whose bits are both set add up to the double sum of the energy. -/
theorem sum_terms {q : Qubo ℚ} (hsquare : q.matrix.rows = q.matrix.cols) (x : BitString) :
    ((q.terms.filter fun t => t.i ∈ x.support ∧ t.j ∈ x.support).map Term.coefficient).sum =
      ∑ i ∈ Finset.range q.matrix.rows, q.matrix.entry i i * x.point i +
        ∑ i ∈ Finset.range q.matrix.rows, ∑ j ∈ Finset.range q.matrix.rows with i < j,
          q.matrix.entry i j * x.point i * x.point j := by
  have hplaces : (q.terms.filter fun t => t.i ∈ x.support ∧ t.j ∈ x.support).map
      Term.coefficient =
      (q.termPlaces.filter fun p => p.1 ∈ x.support ∧ p.2 ∈ x.support).map
        fun p => q.matrix.entry p.1 p.2 := by
    rw [terms_eq, List.filter_map, List.map_map]
    rfl
  have hnodup : (q.termPlaces.filter fun p => p.1 ∈ x.support ∧ p.2 ∈ x.support).Nodup :=
    (q.matrix.nodup_places.filter _).filter _
  -- a coefficient that is zero or of a clear bit adds nothing
  have hvalue (i j : Nat) :
      (if i ≤ j ∧ q.matrix.entry i j ≠ 0 ∧ i ∈ x.support ∧ j ∈ x.support then q.matrix.entry i j
        else 0) = if i ≤ j then q.matrix.entry i j * x.point i * x.point j else 0 := by
    simp only [BitString.point, setPoint, mul_ite, mul_one, mul_zero]
    by_cases hzero : q.matrix.entry i j = 0
    · simp only [hzero, ite_self]
    · simp only [hzero, ne_eq, not_false_eq_true, true_and, and_comm (a := i ∈ x.support), ite_and]
  rw [hplaces, ← List.sum_toFinset _ hnodup, termPlaces_toFinset q hsquare, Finset.sum_filter,
    Finset.sum_product]
  simp only [hvalue]
  rw [Matrix.sum_square]
  congr 1
  · apply Finset.sum_congr rfl
    intro i _
    rw [if_pos (Nat.le_refl i), mul_assoc, x.point_mul_self]
  · apply Finset.sum_congr rfl
    intro i _
    apply Finset.sum_congr rfl
    intro j hj
    have hij : i < j := (Finset.mem_filter.1 hj).2
    rw [if_pos hij.le, if_neg (Nat.not_le.2 hij), add_zero]

/-- In exact arithmetic nothing is lost above the diagonal. -/
theorem ofTerms_terms_eq {q : Qubo ℚ} (hsquare : q.matrix.rows = q.matrix.cols) :
    ofTerms q.size q.offset q.terms = ⟨q.matrix.upper, q.offset⟩ := by
  have hmatrix : (ofTerms q.size q.offset q.terms).matrix = q.matrix.upper := by
    obtain ⟨hrows, hcols⟩ := PseudoBoolean.assemble_shape q.size q.offset
      (q.terms.map fun t => ((t.i, t.j), t.coefficient))
    refine Matrix.ext_get? hrows (hcols.trans hsquare) fun i j => ?_
    have hcoefficient :
        (if i ≤ j ∧ (q.matrix.entry i j != 0) = true then q.matrix.entry i j else 0) =
          if i ≤ j then q.matrix.entry i j else 0 := by
      by_cases hzero : q.matrix.entry i j = 0
      · simp only [hzero, ite_self]
      · simp only [bne_iff_ne, hzero, ne_eq, not_false_eq_true, and_true]
    rw [get?_ofTerms_terms hsquare, Matrix.upper, Matrix.get?_ofFn, ← hsquare, hcoefficient]
    rfl
  exact congrArg (Qubo.mk · q.offset) hmatrix

/-- The terms of a square model are a faithful sparse form of it.  They are the coefficients on and
above the diagonal that are not zero, row after row; the model is got back from them, up to what is
below its diagonal; and its energy is the sum of the terms whose bits are both set.  Models that
differ only below the diagonal are the same to all that read them. -/
theorem terms_faithful :
    (∀ {α : Type} [Zero α] [BEq α] (q : Qubo α), q.matrix.rows = q.matrix.cols →
      q.terms.Pairwise (fun s t => s.i < t.i ∨ s.i = t.i ∧ s.j < t.j) ∧
      (∀ t ∈ q.terms, t.i ≤ t.j ∧ t.j < q.size ∧ (t.coefficient != 0) = true ∧
        (t.i = t.j → q.linear? t.i = some t.coefficient) ∧
        q.quadratic? t.i t.j = some t.coefficient ∧ q.quadratic? t.j t.i = some t.coefficient) ∧
      (∀ i j, i ≤ j → j < q.size → ((∀ t ∈ q.terms, ¬(t.i = i ∧ t.j = j)) ↔
        ∃ c, q.quadratic? i j = some c ∧ (c == 0) = true)) ∧
      ∀ i j, (ofTerms q.size q.offset q.terms).matrix.get? i j =
        if i < q.size ∧ j < q.size then
          some (if i ≤ j ∧ (q.matrix.entry i j != 0) = true then q.matrix.entry i j else 0)
        else none) ∧
    (∀ q : Qubo ℚ, q.matrix.rows = q.matrix.cols →
      ofTerms q.size q.offset q.terms = ⟨q.matrix.upper, q.offset⟩ ∧
      ∀ x : BitString, x.length = q.size → q.energy x.bytes = .ok (q.offset +
        ((q.terms.filter fun t => t.i ∈ x.support ∧ t.j ∈ x.support).map Term.coefficient).sum)) ∧
    ∀ {α : Type} [Zero α] [Add α] [BEq α] [Scalar α] (p q : Qubo α), SameAbove p q →
      p.terms = q.terms ∧ (∀ i, p.linear? i = q.linear? i) ∧
      (∀ i j, p.quadratic? i j = q.quadratic? i j) ∧ p.toSymmetric = q.toSymmetric ∧
      p.toSymmetric? = q.toSymmetric? ∧ ∀ x, p.energy x = q.energy x := by
  refine ⟨fun q hsquare => ⟨pairwise_terms q, fun t ht => ?_, fun i j hij hj => ?_,
      get?_ofTerms_terms hsquare⟩, fun q hsquare => ⟨ofTerms_terms_eq hsquare, fun x hx => ?_⟩,
    fun p q h => ⟨h.terms, h.linear?, h.quadratic?, h.toSymmetric, h.toSymmetric?, h.energy⟩⟩
  · obtain ⟨⟨-, hj⟩, hij, -, hne⟩ := mem_terms.1 ht
    exact ⟨hij, Nat.lt_of_lt_of_eq hj hsquare.symm, hne, reads_of_mem_terms ht⟩
  · exact no_term_iff ⟨Nat.lt_of_le_of_lt hij hj, hsquare ▸ hj⟩ hij
  · rw [energy, Matrix.energy_eq_sum hsquare hx, sum_terms hsquare x, add_assoc]

/-- A zero above the diagonal is no term, and what is below changes nothing. -/
theorem terms_faithful_below :
    let table (below : ℚ) : Matrix ℚ := .ofFn 2 2 fun i j =>
      if j < i then below else if i < j then 0 else 1 - 3 * i
    let q : Qubo ℚ := ⟨table 5, 3⟩
    let p : Qubo ℚ := ⟨table 7, 3⟩
    let x : BitString := ⟨[1, 2]⟩
    q.matrix.rows = q.matrix.cols ∧ x.length = q.size ∧ SameAbove p q ∧
      (∀ t ∈ q.terms, ¬(t.i = 0 ∧ t.j = 1)) ∧ p.terms = q.terms ∧
      (ofTerms q.size q.offset q.terms).matrix.entry 1 0 = 0 ∧
      (ofTerms q.size q.offset q.terms).matrix.entry 1 1 = -2 ∧
      q.energy x.bytes = .ok 2 ∧ p.energy x.bytes = .ok 2 := by
  intro table q p x
  have habove : SameAbove p q := by
    refine ⟨rfl, rfl, rfl, fun i j hij => ?_⟩
    rw [Matrix.entry_ofFn, Matrix.entry_ofFn, if_neg (Nat.not_lt.2 hij), if_neg (Nat.not_lt.2 hij)]
  obtain ⟨hlist, hexact, hsame⟩ := terms_faithful
  obtain ⟨hrebuilt, henergy⟩ := hexact q rfl
  obtain ⟨hterms, -, -, -, -, henergies⟩ := hsame p q habove
  have hq : q.energy x.bytes = .ok 2 := by
    rw [henergy x rfl]
    decide +kernel
  refine ⟨rfl, rfl, habove, ?_, hterms, ?_, ?_, hq, ?_⟩
  · exact ((hlist q rfl).2.2.1 0 1 (by decide) (by decide)).2 ⟨0, by decide +kernel, rfl⟩
  · rw [hrebuilt]
    decide +kernel
  · rw [hrebuilt]
    decide +kernel
  · rw [henergies, hq]

end Qubo

end QuboProbe
