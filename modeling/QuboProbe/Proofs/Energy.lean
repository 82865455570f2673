/-
  QuboProbe.Proofs.Energy

  The energy of a bit string as a sum over sets of at most two of its set
  positions, when addition is associative and commutative.  A table stands for
  a function of sets (`Matrix.Holds`): a diagonal entry is the value of one
  position, an entry above the diagonal that of two.
-/
import QuboProbe.Qubo
import QuboProbe.Proofs.BitString
import Mathlib.Algebra.BigOperators.Group.Finset.Basic
import Mathlib.Data.Finset.Powerset
import Mathlib.Tactic.Abel

namespace QuboProbe

variable {α : Type} [AddCommMonoid α]

/-! ## Sets of at most two positions -/

theorem sum_card_le_two (c : Finset Nat → α) (s : Finset Nat) :
    ∑ t ∈ s.powerset with t.card ≤ 2, c t =
      c ∅ + ∑ i ∈ s, c {i} + ∑ t ∈ s.powersetCard 2, c t := by
  have hfilter : s.powerset.filter (fun t => t.card ≤ 2) =
      (s.powersetCard 0 ∪ s.powersetCard 1) ∪ s.powersetCard 2 := by
    ext t
    simp only [Finset.mem_filter, Finset.mem_powerset, Finset.mem_union, Finset.mem_powersetCard]
    constructor
    · rintro ⟨hsub, hcard⟩
      have : t.card = 0 ∨ t.card = 1 ∨ t.card = 2 := by omega
      tauto
    · rintro ((⟨hsub, hcard⟩ | ⟨hsub, hcard⟩) | ⟨hsub, hcard⟩) <;> exact ⟨hsub, by omega⟩
  have hdisjoint : Disjoint (s.powersetCard 0) (s.powersetCard 1) :=
    Finset.pairwise_disjoint_powersetCard s (by decide)
  have hdisjoint' : Disjoint (s.powersetCard 0 ∪ s.powersetCard 1) (s.powersetCard 2) :=
    Finset.disjoint_union_left.2 ⟨Finset.pairwise_disjoint_powersetCard s (by decide),
      Finset.pairwise_disjoint_powersetCard s (by decide)⟩
  rw [hfilter, Finset.sum_union hdisjoint', Finset.sum_union hdisjoint, Finset.powersetCard_zero,
    Finset.sum_singleton, Finset.powersetCard_one, Finset.sum_map]
  rfl

/-- The pairs with one more position. -/
theorem sum_pairs_insert (c : Finset Nat → α) {i : Nat} {s : Finset Nat} (hi : i ∉ s) :
    ∑ t ∈ (insert i s).powersetCard 2, c t =
      ∑ j ∈ s, c {i, j} + ∑ t ∈ s.powersetCard 2, c t := by
  have hdisjoint : Disjoint (s.powersetCard 2) ((s.powersetCard 1).image (insert i)) := by
    rw [Finset.disjoint_left]
    intro t ht ht'
    obtain ⟨u, -, rfl⟩ := Finset.mem_image.1 ht'
    exact hi ((Finset.mem_powersetCard.1 ht).1 (Finset.mem_insert_self i u))
  have hinjective : ∀ t ∈ s.powersetCard 1, ∀ u ∈ s.powersetCard 1,
      insert i t = insert i u → t = u := fun t ht u hu h => by
    have ht' : i ∉ t := fun h => hi ((Finset.mem_powersetCard.1 ht).1 h)
    have hu' : i ∉ u := fun h => hi ((Finset.mem_powersetCard.1 hu).1 h)
    rw [← Finset.erase_insert ht', h, Finset.erase_insert hu']
  rw [Finset.powersetCard_succ_insert hi, Finset.sum_union hdisjoint,
    Finset.sum_image hinjective, Finset.powersetCard_one, Finset.sum_map, add_comm]
  rfl

/-! ## Tables -/

/-- The entries at positions of a set are the values of a function of sets. -/
structure Matrix.Holds (q : Matrix α) (c : Finset Nat → α) (s : Finset Nat) : Prop where
  diagonal : ∀ i ∈ s, q.entry i i = c {i}
  above : ∀ i ∈ s, ∀ j ∈ s, i < j → q.entry i j = c {i, j}

namespace Matrix

variable {q : Matrix α} {c : Finset Nat → α}

theorem Holds.mono {s t : Finset Nat} (h : q.Holds c s) (hts : t ⊆ s) : q.Holds c t where
  diagonal i hi := h.diagonal i (hts hi)
  above i hi j hj := h.above i (hts hi) j (hts hj)

theorem foldl_row (q : Matrix α) (i : Nat) {later : List Nat} (hlater : later.Nodup) (total : α) :
    later.foldl (fun t j => t + q.entry i j) total =
      total + ∑ j ∈ later.toFinset, q.entry i j := by
  induction later generalizing total with
  | nil => simp
  | cons j later ih =>
    obtain ⟨hj, hlater⟩ := List.nodup_cons.1 hlater
    rw [List.foldl_cons, ih hlater, List.toFinset_cons,
      Finset.sum_insert (by simpa using hj), add_assoc]

theorem addActive_eq {l : List Nat} (hl : l.Pairwise (· < ·)) (h : q.Holds c l.toFinset)
    (total : α) :
    q.addActive total l =
      total + (∑ i ∈ l.toFinset, c {i} + ∑ t ∈ l.toFinset.powersetCard 2, c t) := by
  induction l generalizing total with
  | nil =>
    have hnone : (∅ : Finset Nat).powersetCard 2 = ∅ := Finset.powersetCard_eq_empty.2 (by simp)
    simp [addActive, hnone]
  | cons i later ih =>
    obtain ⟨hi, hlater⟩ := List.pairwise_cons.1 hl
    have hnotin : i ∉ later.toFinset := fun hin =>
      Nat.lt_irrefl i (hi i (List.mem_toFinset.1 hin))
    rw [List.toFinset_cons] at h ⊢
    have hrow : ∑ j ∈ later.toFinset, q.entry i j = ∑ j ∈ later.toFinset, c {i, j} :=
      Finset.sum_congr rfl fun j hj => h.above i (Finset.mem_insert_self ..) j
        (Finset.mem_insert_of_mem hj) (hi j (List.mem_toFinset.1 hj))
    rw [addActive, ih hlater (h.mono (Finset.subset_insert ..)),
      foldl_row q i (hlater.imp Nat.ne_of_lt), hrow, h.diagonal i (Finset.mem_insert_self ..),
      Finset.sum_insert hnotin, sum_pairs_insert c hnotin]
    abel

/-- The energy is the sum of the values of the sets of at most two set positions. -/
theorem energy_eq {x : BitString} (hrows : q.rows = x.length) (hcols : q.cols = x.length)
    (h : q.Holds c x.support) :
    q.energy (c ∅) x.bytes = .ok (∑ t ∈ x.support.powerset with t.card ≤ 2, c t) := by
  have hshape : ¬ (q.rows ≠ q.cols ∨ x.bytes.length ≠ q.rows) := by
    rw [hrows, hcols]
    simp [BitString.length]
  rw [energy, if_neg hshape, addActive_eq (BitString.pairwise_active x.bytes) h, sum_card_le_two,
    add_assoc]
  rfl

end Matrix

end QuboProbe
