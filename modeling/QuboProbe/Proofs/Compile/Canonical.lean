/-
  QuboProbe.Proofs.Compile.Canonical

  Compilation is the inverse of energy.  An upper triangular model is a
  function of the sets of at most two positions (`Qubo.weight`), and its energy
  adds up the weights of the sets of set positions.  The weights are therefore
  the coefficients of the energy (`Qubo.weight_eq_moebius`), which is what
  compilation computes: an objective with the energies of a model is compiled
  into that very model (`compile_canonical`), and no other model has the same
  energies.
-/
import QuboProbe.Proofs.Compile.Polynomial
import QuboProbe.Proofs.Matrix

namespace QuboProbe

/-! ## Models as functions of sets -/

namespace Qubo

variable {q : Qubo ℚ} {n : Nat}

/-- What a model holds for a set of at most two positions: the entry at the least and the greatest
of them, and the offset for none. -/
def weight (q : Qubo ℚ) (t : Finset Nat) : ℚ :=
  if h : t.Nonempty then q.matrix.entry (t.min' h) (t.max' h) else q.offset

theorem weight_empty (q : Qubo ℚ) : q.weight ∅ = q.offset := by
  rw [weight, dif_neg Finset.not_nonempty_empty]

theorem weight_pair (q : Qubo ℚ) {i j : Nat} (hij : i ≤ j) :
    q.weight {i, j} = q.matrix.entry i j := by
  have hne : ({i, j} : Finset Nat).Nonempty := Finset.insert_nonempty i {j}
  have hmin : ({i, j} : Finset Nat).min' hne = i := by
    apply le_antisymm
    · exact Finset.min'_le _ _ (Finset.mem_insert_self i {j})
    · apply Finset.le_min'
      intro k hk
      rcases Finset.mem_insert.1 hk with rfl | hk
      · exact le_refl k
      · rwa [Finset.mem_singleton.1 hk]
  have hmax : ({i, j} : Finset Nat).max' hne = j := by
    apply le_antisymm
    · apply Finset.max'_le
      intro k hk
      rcases Finset.mem_insert.1 hk with rfl | hk
      · exact hij
      · exact (Finset.mem_singleton.1 hk).le
    · exact Finset.le_max' _ _ (Finset.mem_insert_of_mem (Finset.mem_singleton_self j))
  rw [weight, dif_pos hne, hmin, hmax]

theorem holds_weight (q : Qubo ℚ) (s : Finset Nat) : q.matrix.Holds q.weight s where
  diagonal i _ := by
    rw [← q.weight_pair (le_refl i), Finset.pair_eq_singleton]
  above i _ j _ hij := (q.weight_pair hij.le).symm

/-- The energy of the string of a set: the weights of its subsets of at most two positions. -/
def form (q : Qubo ℚ) (s : Finset Nat) : ℚ := ∑ t ∈ s.powerset with t.card ≤ 2, q.weight t

theorem energy_eq_form (hq : q.matrix.UpperTriangular n) {x : BitString} (hx : x.Binary n) :
    q.energy x.bytes = .ok (q.form x.support) := by
  have hrows : q.matrix.rows = x.length := hq.rows.trans hx.length_eq.symm
  have hcols : q.matrix.cols = x.length := hq.cols.trans hx.length_eq.symm
  rw [energy, ← q.weight_empty, Matrix.energy_eq hrows hcols (q.holds_weight x.support), form]

/-- The weights are the coefficients of the energy. -/
theorem weight_eq_moebius (q : Qubo ℚ) {t : Finset Nat} (ht : t.card ≤ 2) :
    q.weight t = moebius q.form t := by
  -- no larger set has a weight, so the weights of all subsets add up to the energy
  have hcut : (if t.card ≤ 2 then q.weight t else 0) = moebius q.form t := by
    refine eq_moebius_of_sum (c := fun u => if u.card ≤ 2 then q.weight u else 0) fun s _ => ?_
    rw [form, Finset.sum_filter]
  rw [← hcut, if_pos ht]

/-- Values that are the energies of a model make that model. -/
theorem modelOf_form (hq : q.matrix.UpperTriangular n) :
    PseudoBoolean.modelOf (fun x => q.form x.support) n = q := by
  have hform {t : Finset Nat} (ht : t ⊆ Finset.range n) (hcard : t.card ≤ 2) :
      moebius (fun s => q.form (BitString.ofSet n s).support) t = q.weight t := by
    rw [q.weight_eq_moebius hcard]
    apply Finset.sum_congr rfl
    intro u hu
    have hu' : (BitString.ofSet n u).support = u :=
      BitString.support_ofSet_of_subset ((Finset.mem_powerset.1 hu).trans ht)
    simp only [hu']
  have hshape := PseudoBoolean.upperTriangular_modelOf (fun x => q.form x.support) n
  have hmatrix : (PseudoBoolean.modelOf (fun x => q.form x.support) n).matrix = q.matrix := by
    apply Matrix.ext_entry (hshape.rows.trans hq.rows.symm) (hshape.cols.trans hq.cols.symm)
    intro i j _ hj
    rw [hshape.cols] at hj
    by_cases hij : i ≤ j
    · have hsub : ({i, j} : Finset Nat) ⊆ Finset.range n := by
        intro k hk
        rw [Finset.mem_insert, Finset.mem_singleton] at hk
        exact Finset.mem_range.2 (by omega)
      rw [PseudoBoolean.entry_modelOf, if_pos ⟨hij, hj⟩,
        PseudoBoolean.coefficientOf_eq_moebius _ n hij, hform hsub Finset.card_le_two,
        q.weight_pair hij]
    · -- below the diagonal both are zero
      rw [hshape.below i j (by omega), hq.below i j (by omega)]
  have hoffset : (PseudoBoolean.modelOf (fun x => q.form x.support) n).offset = q.offset := by
    have hzeros : (PseudoBoolean.modelOf (fun x => q.form x.support) n).offset =
        q.form (BitString.zeros n).support := rfl
    have hempty : (BitString.zeros n).support = ∅ := by
      rw [BitString.zeros_eq_ofSet, BitString.support_ofSet_of_subset (Finset.empty_subset _)]
    have hcoefficient : moebius q.form ∅ = q.form ∅ := by simp [moebius]
    rw [hzeros, hempty, ← hcoefficient, ← q.weight_eq_moebius (by simp), weight_empty]
  calc PseudoBoolean.modelOf (fun x => q.form x.support) n
      = ⟨q.matrix, q.offset⟩ := by rw [← hmatrix, ← hoffset]
    _ = q := rfl

/-- Models with the same energies are the same. -/
theorem eq_of_energy_eq {p : Qubo ℚ} (hp : p.matrix.UpperTriangular n)
    (hq : q.matrix.UpperTriangular n)
    (h : ∀ x : BitString, x.Binary n → p.energy x.bytes = q.energy x.bytes) : p = q := by
  have hvalues (t : Finset Nat) :
      p.form (BitString.ofSet n t).support = q.form (BitString.ofSet n t).support := by
    have hx := BitString.binary_ofSet n t
    have henergy := h _ hx
    rw [energy_eq_form hp hx, energy_eq_form hq hx] at henergy
    exact Except.ok.inj henergy
  rw [← modelOf_form hp, ← modelOf_form hq]
  exact PseudoBoolean.modelOf_congr hvalues

end Qubo

/-! ## Objectives with the energies of a model -/

/-- Different strings of zeros and ones are decoded differently. -/
def Layout.Injective (l : Layout) : Prop :=
  ∀ x y : BitString, x.Binary l.size → y.Binary l.size →
    l.decode x.bytes = l.decode y.bytes → x = y

/-- A layout that loses nothing decodes different strings differently. -/
theorem Layout.WellFormed.injective {l : Layout} (hl : l.WellFormed) (hlawful : l.Lawful) :
    l.Injective := by
  intro x y hx hy hxy
  obtain ⟨a, ha, henc⟩ := encode_decode hl hlawful hx
  obtain ⟨b, hb, henc'⟩ := encode_decode hl hlawful hy
  have hab : a = b := by
    rw [ha, hb] at hxy
    exact Except.ok.inj hxy
  rw [hab] at henc
  exact Except.ok.inj (henc.symm.trans henc')

variable {ε : Type}

/-- Over the layout the objective has the energies of the model. -/
def Qubo.Describes (q : Qubo ℚ) (f : Objective ε ℚ) (l : Layout) : Prop :=
  ∀ x : BitString, x.Binary l.size →
    ∃ a v, l.decode x.bytes = .ok a ∧ f a = .ok v ∧ q.energy x.bytes = .ok v

/-- Where decoding is injective, some objective has the energies of the model. -/
theorem Layout.Injective.exists_objective {l : Layout} (hl : l.Injective) {q : Qubo ℚ}
    (hq : q.matrix.UpperTriangular l.size) : ∃ f : Objective ε ℚ, q.Describes f l := by
  classical
  -- the objective recovers the string from which its argument was decoded
  let origin (a : Valuation) : BitString :=
    Classical.epsilon fun x => x.Binary l.size ∧ l.decode x.bytes = .ok a
  refine ⟨fun a => .ok (q.form (origin a).support), fun x hx => ?_⟩
  have ha := decode_eq_ok (l := l) hx.length_eq
  refine ⟨_, _, ha, rfl, ?_⟩
  obtain ⟨hbinary, hdecode⟩ := Classical.epsilon_spec
    (p := fun y : BitString => y.Binary l.size ∧ l.decode y.bytes = .ok _) ⟨x, hx, ha⟩
  have horigin : origin _ = x := hl _ x hbinary hx (hdecode.trans ha.symm)
  rw [horigin, Qubo.energy_eq_form hq hx]

variable [Cause ε]

/-- An objective with the energies of an upper triangular model is compiled into that model,
whatever the settings: the same table and the same offset.  Such an objective exists where decoding
is injective, as it is over every layout of the library's own encodings.  No other upper triangular
model has the same energies. -/
theorem compile_canonical (s : Settings ℚ) {l : Layout} {q : Qubo ℚ}
    (hq : q.matrix.UpperTriangular l.size) :
    (∀ f : Objective ε ℚ, q.Describes f l →
      ∃ c, (compile s f l).result = .ok c ∧ c.qubo.matrix = q.matrix ∧
        c.qubo.offset = q.offset) ∧
    (l.Injective → ∃ f : Objective ε ℚ, q.Describes f l) ∧
    ((l.Built fun e _ => e.BuiltIn) → l.Injective) ∧
    ∀ p : Qubo ℚ, p.matrix.UpperTriangular l.size →
      (∀ x : BitString, x.Binary l.size → p.energy x.bytes = q.energy x.bytes) → p = q := by
  refine ⟨fun f hf => ?_, fun hl => hl.exists_objective hq,
    fun hl => hl.wellFormed.injective hl.lawful, fun p hp => Qubo.eq_of_energy_eq hp hq⟩
  have hvalues (x : BitString) (hx : x.Binary l.size) :
      ∃ a, l.decode x.bytes = .ok a ∧ f a = .ok (q.form x.support) := by
    obtain ⟨a, v, ha, hv, henergy⟩ := hf x hx
    rw [Qubo.energy_eq_form hq hx] at henergy
    obtain rfl : q.form x.support = v := Except.ok.inj henergy
    exact ⟨a, ha, hv⟩
  have hcompile := compile_of_values hvalues s
  rw [Qubo.modelOf_form hq] at hcompile
  exact ⟨_, hcompile, rfl, rfl⟩

/-- The triangular numbers, as an objective of a number of two bits. -/
theorem compile_canonical_triangular :
    let l : Layout := ⟨[⟨"x", .unsigned, 2, 0⟩], 2⟩
    let f : Objective CodingError ℚ := fun a =>
      (a.int "x").map fun v => (v.toInt * (v.toInt + 1) / 2 : ℚ)
    let q : Qubo ℚ := ⟨⟨2, 2, #[1, 2, 0, 3], rfl⟩, 0⟩
    q.matrix.UpperTriangular l.size ∧ q.Describes f l ∧
      ∃ c, (compile (.standard 4) f l).result = .ok c ∧ c.qubo.matrix = q.matrix ∧
        c.qubo.offset = q.offset := by
  intro l f q
  have hq : q.matrix.UpperTriangular l.size := by
    refine ⟨rfl, rfl, fun i j hji => ?_⟩
    by_cases hi : i < 2
    · obtain ⟨rfl, rfl⟩ : i = 1 ∧ j = 0 := by omega
      rfl
    · have hnone : q.matrix.get? i j = none := Option.not_isSome_iff_eq_none.1
        fun h => hi ((q.matrix.get?_isSome_iff i j).1 h).1
      rw [Matrix.entry, hnone, Option.getD_none]
  have hf : q.Describes f l := by
    rintro ⟨bytes⟩ hx
    obtain ⟨b, c, rfl⟩ := List.length_eq_two.1 hx.length_eq
    have hb := hx.bit b (by simp)
    have hc := hx.bit c (by simp)
    rcases hb with rfl | rfl <;> rcases hc with rfl | rfl
    · exact ⟨_, _, rfl, rfl, by decide +kernel⟩
    · exact ⟨_, _, rfl, rfl, by decide +kernel⟩
    · exact ⟨_, _, rfl, rfl, by decide +kernel⟩
    · exact ⟨_, _, rfl, rfl, by decide +kernel⟩
  exact ⟨hq, hf, (compile_canonical (.standard 4) hq).1 f hf⟩

end QuboProbe
