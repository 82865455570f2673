/-
  QuboProbe.Proofs.Moebius

  Functions of sets of positions as sums over their subsets.  The coefficient
  of a set, `moebius h t`, is the alternating sum of the values on its subsets,
  and a function is recovered by adding up the coefficients of the subsets
  (`sum_moebius`).  Leaving out the sets of more than `d` positions changes
  nothing exactly if all their coefficients vanish (`low_eq_iff`), which is
  to say that the function is a polynomial of degree at most `d` in the bits
  (`moebius_eq_zero_iff_multilinear`).
-/
import QuboProbe.Proofs.BitString
import Mathlib.Algebra.BigOperators.Group.Finset.Powerset
import Mathlib.Algebra.BigOperators.Ring.Finset
import Mathlib.Algebra.MvPolynomial.Variables
import Mathlib.Algebra.Order.Ring.Rat
import Mathlib.Tactic.Ring

namespace QuboProbe

variable {h : Finset Nat → ℚ} {d n : Nat}

/-- The coefficient of a set: the alternating sum of the values on its subsets. -/
def moebius (h : Finset Nat → ℚ) (t : Finset Nat) : ℚ :=
  ∑ u ∈ t.powerset, (-1) ^ (t.card - u.card) * h u

/-! ## Inversion -/

/-- The coefficient of a set with one more position is a coefficient of the difference that the
position makes. -/
theorem moebius_insert (h : Finset Nat → ℚ) {a : Nat} {t : Finset Nat} (ha : a ∉ t) :
    moebius h (insert a t) = moebius (fun u => h (insert a u) - h u) t := by
  rw [moebius, Finset.sum_powerset_insert ha, moebius, ← Finset.sum_add_distrib]
  apply Finset.sum_congr rfl
  intro u hu
  have hsub := Finset.mem_powerset.1 hu
  have hau : a ∉ u := fun h => ha (hsub h)
  have hcard := Finset.card_le_card hsub
  have hlong : (insert a t).card - u.card = t.card - u.card + 1 := by
    rw [Finset.card_insert_of_notMem ha]
    omega
  have hshort : (insert a t).card - (insert a u).card = t.card - u.card := by
    rw [Finset.card_insert_of_notMem ha, Finset.card_insert_of_notMem hau]
    omega
  rw [hlong, hshort, pow_succ]
  ring

/-- A function is the sum of the coefficients of the subsets. -/
theorem sum_moebius (h : Finset Nat → ℚ) (s : Finset Nat) :
    ∑ t ∈ s.powerset, moebius h t = h s := by
  induction s using Finset.induction_on generalizing h with
  | empty => simp [moebius]
  | insert a s ha ih =>
    have hnew : ∑ t ∈ s.powerset, moebius h (insert a t) = h (insert a s) - h s := by
      rw [← ih fun u => h (insert a u) - h u]
      refine Finset.sum_congr rfl fun t ht => moebius_insert h fun hat => ha ?_
      exact Finset.mem_powerset.1 ht hat
    rw [Finset.sum_powerset_insert ha, ih h, hnew]
    ring

/-- Nothing but the coefficients adds up to the function on all subsets of a set. -/
theorem eq_moebius_of_sum {c : Finset Nat → ℚ} {t : Finset Nat}
    (hc : ∀ s ⊆ t, ∑ u ∈ s.powerset, c u = h s) : c t = moebius h t := by
  -- both add up to `h t`, and by induction they agree on all smaller sets
  induction t using Finset.strongInduction with
  | H t ih =>
    have hbelow : ∑ u ∈ t.ssubsets, c u = ∑ u ∈ t.ssubsets, moebius h u :=
      Finset.sum_congr rfl fun u hu => by
        have hut := Finset.mem_ssubsets.1 hu
        exact ih u hut fun s hs => hc s (hs.trans hut.subset)
    have hboth : ∑ u ∈ t.powerset, c u = ∑ u ∈ t.powerset, moebius h u := by
      rw [hc t (Finset.Subset.refl t), sum_moebius]
    rw [← Finset.insert_erase (Finset.mem_powerset_self t),
      Finset.sum_insert (Finset.notMem_erase _ _), Finset.sum_insert (Finset.notMem_erase _ _)]
      at hboth
    have herase : t.powerset.erase t = t.ssubsets := rfl
    rw [herase, hbelow] at hboth
    exact add_right_cancel hboth

/-! ## Low sets alone -/

/-- The sum over the subsets of at most `d` positions. -/
def low (d : Nat) (h : Finset Nat → ℚ) (s : Finset Nat) : ℚ :=
  ∑ t ∈ s.powerset with t.card ≤ d, moebius h t

/-- On small sets nothing is left out. -/
theorem low_eq_of_card_le {s : Finset Nat} (hs : s.card ≤ d) : low d h s = h s := by
  rw [low, Finset.filter_true_of_mem fun t ht => ?_, sum_moebius]
  exact (Finset.card_le_card (Finset.mem_powerset.1 ht)).trans hs

/-- The low sets are enough exactly if the coefficients of all others vanish. -/
theorem low_eq_iff :
    (∀ s ⊆ Finset.range n, low d h s = h s) ↔
      ∀ t ⊆ Finset.range n, d < t.card → moebius h t = 0 := by
  constructor
  · intro hlow t ht hcard
    -- what is cut off at `d` are coefficients as well, so they are the coefficients
    have hcut : (if t.card ≤ d then moebius h t else 0) = moebius h t := by
      refine eq_moebius_of_sum (c := fun u => if u.card ≤ d then moebius h u else 0) fun s hs => ?_
      rw [← hlow s (hs.trans ht), low, Finset.sum_filter]
    rw [← hcut, if_neg (by omega)]
  · intro hzero s hs
    rw [low, Finset.sum_filter, ← sum_moebius h s]
    apply Finset.sum_congr rfl
    intro t ht
    by_cases hcard : t.card ≤ d
    · rw [if_pos hcard]
    · rw [if_neg hcard, hzero t ((Finset.mem_powerset.1 ht).trans hs) (by omega)]

/-! ## Polynomials on sets -/

/-- A set as a point: one at its positions, zero elsewhere. -/
def setPoint (s : Finset Nat) (i : Nat) : ℚ := if i ∈ s then 1 else 0

theorem prod_setPoint (m : Nat →₀ ℕ) (s : Finset Nat) :
    ∏ i ∈ m.support, setPoint s i ^ m i = if m.support ⊆ s then 1 else 0 := by
  by_cases hsub : m.support ⊆ s
  · rw [if_pos hsub]
    apply Finset.prod_eq_one
    intro i hi
    rw [setPoint, if_pos (hsub hi), one_pow]
  · rw [if_neg hsub]
    obtain ⟨i, hi, his⟩ := Finset.not_subset.1 hsub
    refine Finset.prod_eq_zero hi ?_
    rw [setPoint, if_neg his, zero_pow (Finsupp.mem_support_iff.1 hi)]

/-- On sets, a polynomial adds up its coefficients by the sets of variables of their monomials. -/
theorem eval_setPoint (p : MvPolynomial Nat ℚ) (s : Finset Nat) :
    MvPolynomial.eval (setPoint s) p =
      ∑ t ∈ s.powerset, ∑ m ∈ p.support with m.support = t, p.coeff m := by
  simp only [MvPolynomial.eval_eq, prod_setPoint, Finset.sum_filter]
  rw [Finset.sum_comm]
  apply Finset.sum_congr rfl
  intro m _
  rw [Finset.sum_ite_eq]
  simp only [Finset.mem_powerset, mul_ite, mul_one, mul_zero]

theorem card_support_le {p : MvPolynomial Nat ℚ} {m : Nat →₀ ℕ} (hm : m ∈ p.support) :
    m.support.card ≤ p.totalDegree := by
  refine le_trans ?_ (MvPolynomial.le_totalDegree hm)
  rw [Finset.card_eq_sum_ones, Finsupp.sum]
  exact Finset.sum_le_sum fun i hi => Nat.one_le_iff_ne_zero.2 (Finsupp.mem_support_iff.1 hi)

/-- The coefficients of a polynomial of degree at most `d` vanish above it, whatever the exponents
of its variables are. -/
theorem moebius_eq_zero_of_totalDegree {p : MvPolynomial Nat ℚ} (hp : p.totalDegree ≤ d)
    (heval : ∀ s ⊆ Finset.range n, MvPolynomial.eval (setPoint s) p = h s) {t : Finset Nat}
    (ht : t ⊆ Finset.range n) (hcard : d < t.card) : moebius h t = 0 := by
  -- monomials of the same variables have the same value, whatever their exponents
  have hcoeff : ∑ m ∈ p.support with m.support = t, p.coeff m = moebius h t := by
    refine eq_moebius_of_sum (c := fun u => ∑ m ∈ p.support with m.support = u, p.coeff m)
      fun s hs => ?_
    rw [← eval_setPoint, heval s (hs.trans ht)]
  rw [← hcoeff]
  apply Finset.sum_eq_zero
  intro m hm
  obtain ⟨hmem, rfl⟩ := Finset.mem_filter.1 hm
  have := card_support_le hmem
  omega

/-- The product of the variables of a set. -/
noncomputable def setMonomial (t : Finset Nat) : MvPolynomial Nat ℚ := ∏ i ∈ t, MvPolynomial.X i

theorem eval_setMonomial (s t : Finset Nat) :
    MvPolynomial.eval (setPoint s) (setMonomial t) = if t ⊆ s then 1 else 0 := by
  rw [setMonomial, map_prod]
  simp only [MvPolynomial.eval_X]
  by_cases hsub : t ⊆ s
  · rw [if_pos hsub]
    exact Finset.prod_eq_one fun i hi => if_pos (hsub hi)
  · rw [if_neg hsub]
    obtain ⟨i, hi, his⟩ := Finset.not_subset.1 hsub
    exact Finset.prod_eq_zero hi (if_neg his)

theorem totalDegree_setMonomial_le (t : Finset Nat) : (setMonomial t).totalDegree ≤ t.card := by
  refine (MvPolynomial.totalDegree_finsetProd t _).trans ?_
  rw [Finset.card_eq_sum_ones]
  exact Finset.sum_le_sum fun i _ => (MvPolynomial.totalDegree_X i).le

theorem degreeOf_setMonomial_le (t : Finset Nat) (i : Nat) : (setMonomial t).degreeOf i ≤ 1 := by
  refine (MvPolynomial.degreeOf_prod_le i t _).trans ?_
  simp only [MvPolynomial.degreeOf_X, Finset.sum_ite_eq]
  split <;> omega

theorem vars_setMonomial_subset (t : Finset Nat) : (setMonomial t).vars ⊆ t := by
  intro i hi
  obtain ⟨j, hj, hij⟩ := Finset.mem_biUnion.1 (MvPolynomial.vars_prod _ hi)
  rw [MvPolynomial.vars_X, Finset.mem_singleton] at hij
  rwa [hij]

/-- The polynomial of the coefficients of low sets. -/
noncomputable def lowPolynomial (d n : Nat) (h : Finset Nat → ℚ) : MvPolynomial Nat ℚ :=
  ∑ t ∈ (Finset.range n).powerset with t.card ≤ d, MvPolynomial.C (moebius h t) * setMonomial t

theorem eval_lowPolynomial {s : Finset Nat} (hs : s ⊆ Finset.range n) :
    MvPolynomial.eval (setPoint s) (lowPolynomial d n h) = low d h s := by
  rw [lowPolynomial, map_sum, low]
  simp only [map_mul, MvPolynomial.eval_C, eval_setMonomial, mul_ite, mul_one, mul_zero]
  rw [← Finset.sum_filter, Finset.filter_filter]
  refine Finset.sum_congr (Finset.ext fun t => ?_) fun _ _ => rfl
  simp only [Finset.mem_filter, Finset.mem_powerset]
  constructor
  · rintro ⟨-, hcard, hts⟩
    exact ⟨hts, hcard⟩
  · rintro ⟨hts, hcard⟩
    exact ⟨hts.trans hs, hcard, hts⟩

theorem totalDegree_lowPolynomial_le : (lowPolynomial d n h).totalDegree ≤ d := by
  apply MvPolynomial.totalDegree_finsetSum_le
  intro t ht
  refine (MvPolynomial.totalDegree_mul _ _).trans ?_
  rw [MvPolynomial.totalDegree_C, zero_add]
  exact (totalDegree_setMonomial_le t).trans (Finset.mem_filter.1 ht).2

theorem degreeOf_lowPolynomial_le (i : Nat) : (lowPolynomial d n h).degreeOf i ≤ 1 := by
  refine (MvPolynomial.degreeOf_sum_le i _ _).trans (Finset.sup_le fun t _ => ?_)
  exact (MvPolynomial.degreeOf_C_mul_le _ i _).trans (degreeOf_setMonomial_le t i)

theorem vars_lowPolynomial_subset : (lowPolynomial d n h).vars ⊆ Finset.range n := by
  intro i hi
  obtain ⟨t, ht, hit⟩ := Finset.mem_biUnion.1 (MvPolynomial.vars_sum_subset _ _ hi)
  have hsub := Finset.mem_powerset.1 (Finset.mem_filter.1 ht).1
  rcases Finset.mem_union.1 (MvPolynomial.vars_mul _ _ hit) with hC | hX
  · rw [MvPolynomial.vars_C] at hC
    exact absurd hC (Finset.notMem_empty i)
  · exact hsub (vars_setMonomial_subset t hX)

/-! ## Polynomials in bits -/

/-- The bits of a string as numbers. -/
def BitString.point (x : BitString) : Nat → ℚ := setPoint x.support

/-- On strings of `n` bits the function is a polynomial of degree at most `d` in the bits, none of
which has a higher exponent than one. -/
def Multilinear (d n : Nat) (g : BitString → ℚ) : Prop :=
  ∃ p : MvPolynomial Nat ℚ, p.totalDegree ≤ d ∧ (∀ i, p.degreeOf i ≤ 1) ∧
    p.vars ⊆ Finset.range n ∧ ∀ x, x.Binary n → MvPolynomial.eval x.point p = g x

theorem moebius_eq_zero_iff_multilinear {g : BitString → ℚ} :
    (∀ t ⊆ Finset.range n, d < t.card → moebius (fun s => g (.ofSet n s)) t = 0) ↔
      Multilinear d n g := by
  constructor
  · intro hzero
    refine ⟨lowPolynomial d n fun s => g (.ofSet n s), totalDegree_lowPolynomial_le,
      degreeOf_lowPolynomial_le, vars_lowPolynomial_subset, fun x hx => ?_⟩
    rw [BitString.point, eval_lowPolynomial hx.support_subset,
      low_eq_iff.2 hzero x.support hx.support_subset, hx.ofSet_support]
  · rintro ⟨p, hp, -, -, heval⟩ t ht hcard
    refine moebius_eq_zero_of_totalDegree hp (fun s hs => ?_) ht hcard
    rw [← heval _ (BitString.binary_ofSet n s), BitString.point,
      BitString.support_ofSet_of_subset hs]

/-- A function of `n` bits has degree at most `n`. -/
theorem multilinear_of_le (h : n ≤ d) (g : BitString → ℚ) : Multilinear d n g := by
  refine moebius_eq_zero_iff_multilinear.1 fun t ht hcard => ?_
  have hle : t.card ≤ n := (Finset.card_le_card ht).trans (Finset.card_range n).le
  omega

end QuboProbe
