/-
  QuboProbe.Proofs.Ranking

  Samples, best first, for any numbers that are ranked by a total order.
  Sorting is stable: what is tied keeps its order (`filter_mergeSort`), so the
  head of a sorted list is the earliest of its least entries
  (`foremost_of_mergeSort`).  Candidates are scored one after another, and the
  first that does not fit the model decides (`SampleSet.energies_eq_error_iff`).
-/
import QuboProbe.Proofs.QuadraticForm
import QuboProbe.SampleSet

namespace QuboProbe

/-! ## Stable sorting -/

section

variable {β : Type} {le : β → β → Bool} {xs : List β} {x : β}

/-- An entry that is at most any other, and the first of these: no entry before it is at most it. -/
def Foremost (le : β → β → Bool) (xs : List β) (x : β) : Prop :=
  ∃ before after, xs = before ++ x :: after ∧ (∀ y ∈ before, le y x = false) ∧
    ∀ y ∈ after, le x y = true

variable (htrans : ∀ a b c, le a b = true → le b c = true → le a c = true)
  (htotal : ∀ a b, (le a b || le b a) = true)

include htrans htotal

/-- What is tied keeps its order. -/
theorem filter_mergeSort {p : β → Bool} (htied : ∀ a b, p a = true → p b = true → le a b = true)
    (xs : List β) : (xs.mergeSort le).filter p = xs.filter p := by
  have hpairwise : (xs.filter p).Pairwise fun a b => le a b = true :=
    List.pairwise_of_forall_mem_list fun a ha b hb =>
      htied a b (List.mem_filter.1 ha).2 (List.mem_filter.1 hb).2
  -- the tied entries are a sorted part of the list, which sorting keeps as it is
  have hsub := (List.sublist_mergeSort htrans htotal hpairwise List.filter_sublist).filter p
  have hself : (xs.filter p).filter p = xs.filter p := by
    rw [List.filter_filter]
    simp only [Bool.and_self]
  rw [hself] at hsub
  exact (hsub.eq_of_length_le ((List.mergeSort_perm xs le).filter p).length_eq.le).symm

/-- The head of the sorted list is the earliest of the least entries. -/
theorem foremost_of_mergeSort (hx : (xs.mergeSort le).head? = some x) : Foremost le xs x := by
  obtain ⟨rest, hsort⟩ := List.head?_eq_some_iff.1 hx
  have hrefl : le x x = true := by simpa using htotal x x
  have hsorted := List.pairwise_mergeSort htrans htotal xs
  rw [hsort] at hsorted
  have hleast : ∀ y ∈ xs, le x y = true := fun y hy => by
    have hmem : y ∈ xs.mergeSort le := List.mem_mergeSort.2 hy
    rw [hsort] at hmem
    rcases List.mem_cons.1 hmem with rfl | hmem
    · exact hrefl
    · exact List.rel_of_pairwise_cons hsorted hmem
  -- of the entries that are tied with it, the head is the first, before and after sorting
  have htied := filter_mergeSort htrans htotal (p := fun y => le y x && le x y)
    (fun a b ha hb => htrans a x b (Bool.and_eq_true_iff.1 ha).1 (Bool.and_eq_true_iff.1 hb).2) xs
  rw [hsort, List.filter_cons_of_pos (by rw [hrefl]; rfl)] at htied
  obtain ⟨before, after, rfl, hbefore, -⟩ := List.filter_eq_cons_iff.1 htied.symm
  refine ⟨before, after, rfl, fun y hy => ?_, fun y hy => ?_⟩
  · have hy' := hbefore y hy
    rwa [hleast y (List.mem_append_left _ hy), Bool.and_true, Bool.not_eq_true] at hy'
  · exact hleast y (List.mem_append_right _ (List.mem_cons_of_mem x hy))

end

/-- The model has an energy on the string: it is square and of the string's length. -/
def Qubo.Fits {α : Type} (q : Qubo α) (x : BitString) : Prop :=
  q.matrix.rows = q.matrix.cols ∧ x.length = q.size

namespace SampleSet

variable {α : Type} [Scalar α]

/-! ## Sorted samples -/

theorem perm_ofList (samples : List (Sample α)) : (ofList samples).samples.Perm samples :=
  List.mergeSort_perm samples atLeastAsGood

theorem first?_ofList_eq_none {samples : List (Sample α)} :
    (ofList samples).first? = none ↔ samples = [] := by
  rw [first?, List.head?_eq_none_iff]
  exact ⟨fun h => List.nil_perm.1 (h ▸ perm_ofList samples),
    fun h => List.perm_nil.1 (h ▸ perm_ofList samples)⟩

section

variable [Std.TransCmp (Scalar.rank : α → α → Ordering)]

theorem atLeastAsGood_trans (a b c : Sample α) (hab : atLeastAsGood a b = true)
    (hbc : atLeastAsGood b c = true) : atLeastAsGood a c = true :=
  Std.TransCmp.isLE_trans hab hbc

theorem atLeastAsGood_total (a b : Sample α) : (atLeastAsGood a b || atLeastAsGood b a) = true := by
  have hswap : Scalar.rank b.energy a.energy = (Scalar.rank a.energy b.energy).swap :=
    Std.OrientedCmp.eq_swap
  rw [atLeastAsGood, atLeastAsGood, hswap]
  cases Scalar.rank a.energy b.energy <;> rfl

theorem pairwise_ofList (samples : List (Sample α)) :
    (ofList samples).samples.Pairwise fun a b => atLeastAsGood a b = true :=
  List.pairwise_mergeSort atLeastAsGood_trans atLeastAsGood_total samples

/-- Samples that are tied keep their order. -/
theorem filter_ofList {p : Sample α → Bool}
    (htied : ∀ a b, p a = true → p b = true → atLeastAsGood a b = true)
    (samples : List (Sample α)) : (ofList samples).samples.filter p = samples.filter p :=
  filter_mergeSort atLeastAsGood_trans atLeastAsGood_total htied samples

/-- The best of samples is the earliest of those with the least energy. -/
theorem foremost_of_first? {samples : List (Sample α)} {best : Sample α}
    (h : (ofList samples).first? = some best) : Foremost atLeastAsGood samples best :=
  foremost_of_mergeSort atLeastAsGood_trans atLeastAsGood_total h

end

/-! ## Scored candidates -/

variable [Zero α] [Add α] {q : Qubo α} {candidates : List BitString}

omit [Scalar α] in
theorem exists_energy {x : BitString} (h : q.Fits x) : ∃ v, q.energy x.bytes = .ok v := by
  cases henergy : q.energy x.bytes with
  | ok v => exact ⟨v, rfl⟩
  | error e =>
    rcases (Matrix.energy_eq_error_iff.1 henergy).1 with hrows | hlength
    · exact absurd h.1 hrows
    · exact absurd h.2 hlength

omit [Scalar α] in
theorem energy_of_not_fits {x : BitString} (h : ¬q.Fits x) :
    q.energy x.bytes = .error ⟨q.matrix.rows, q.matrix.cols, x.length⟩ := by
  refine Matrix.energy_eq_error_iff.2 ⟨?_, rfl⟩
  by_cases hsquare : q.matrix.rows = q.matrix.cols
  · exact .inr fun hlength => h ⟨hsquare, hlength⟩
  · exact .inl hsquare

omit [Scalar α] in
/-- Candidates that fit are scored, each with its energy. -/
theorem energies_of_fits (h : ∀ x ∈ candidates, q.Fits x) :
    ∃ samples, energies q candidates = .ok samples ∧ samples.map Sample.bits = candidates ∧
      ∀ a ∈ samples, q.energy a.bits.bytes = .ok a.energy := by
  induction candidates with
  | nil => exact ⟨[], rfl, rfl, fun a ha => absurd ha List.not_mem_nil⟩
  | cons x rest ih =>
    obtain ⟨hx, hrest⟩ := List.forall_mem_cons.1 h
    obtain ⟨v, hv⟩ := exists_energy hx
    obtain ⟨samples, hsamples, hbits, henergy⟩ := ih hrest
    refine ⟨⟨x, v⟩ :: samples, ?_, congrArg (x :: ·) hbits, List.forall_mem_cons.2 ⟨hv, henergy⟩⟩
    rw [energies, hv, hsamples]

omit [Scalar α] in
theorem energies_eq_ok {g : BitString → α} (hq : ∀ x ∈ candidates, q.energy x.bytes = .ok (g x)) :
    energies q candidates = .ok (candidates.map fun x => ⟨x, g x⟩) := by
  induction candidates with
  | nil => rfl
  | cons x rest ih =>
    obtain ⟨hx, hrest⟩ := List.forall_mem_cons.1 hq
    rw [energies, hx, ih hrest]
    rfl

omit [Scalar α] in
theorem energies_cons_of_fits {x : BitString} (hx : q.Fits x) (e : DimensionError) :
    energies q (x :: candidates) = .error e ↔ energies q candidates = .error e := by
  obtain ⟨v, hv⟩ := exists_energy hx
  rw [energies, hv]
  cases energies q candidates with
  | error e' => rfl
  | ok samples => exact iff_of_false nofun nofun

omit [Scalar α] in
/-- Scoring fails at the first candidate that does not fit the model. -/
theorem energies_eq_error_iff {e : DimensionError} : energies q candidates = .error e ↔
    ∃ before x after, candidates = before ++ x :: after ∧ (∀ y ∈ before, q.Fits y) ∧ ¬q.Fits x ∧
      e = ⟨q.matrix.rows, q.matrix.cols, x.length⟩ := by
  induction candidates with
  | nil => exact iff_of_false nofun fun ⟨before, x, after, h, _⟩ => by cases before <;> cases h
  | cons x rest ih =>
    by_cases hx : q.Fits x
    · rw [energies_cons_of_fits hx, ih]
      constructor
      · rintro ⟨before, y, after, rfl, hbefore, hy, he⟩
        exact ⟨x :: before, y, after, rfl, List.forall_mem_cons.2 ⟨hx, hbefore⟩, hy, he⟩
      · rintro ⟨before, y, after, hsplit, hbefore, hy, he⟩
        cases before with
        | nil =>
          obtain ⟨rfl, -⟩ := List.cons.inj hsplit
          exact absurd hx hy
        | cons z before =>
          obtain ⟨-, rfl⟩ := List.cons.inj hsplit
          exact ⟨before, y, after, rfl, (List.forall_mem_cons.1 hbefore).2, hy, he⟩
    · -- nothing before it fits or not
      rw [energies, energy_of_not_fits hx]
      constructor
      · rintro ⟨⟩
        exact ⟨[], x, rest, rfl, fun y hy => absurd hy List.not_mem_nil, hx, rfl⟩
      · rintro ⟨before, y, after, hsplit, hbefore, hy, rfl⟩
        cases before with
        | nil =>
          obtain ⟨rfl, -⟩ := List.cons.inj hsplit
          rfl
        | cons z before =>
          obtain ⟨rfl, -⟩ := List.cons.inj hsplit
          exact absurd (hbefore x List.mem_cons_self) hx

end SampleSet

end QuboProbe
