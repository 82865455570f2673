/-
  QuboProbe.Proofs.BitString

  Strings of bits as sets of positions.  `BitString.ofSet` and
  `BitString.support` are inverse to each other on strings whose bytes are all
  zero or one (`BitString.Binary`), and the strings that the library makes are
  those of the empty set, of one position and of two.
-/
import QuboProbe.BitString
import Mathlib.Data.List.Sort
import Mathlib.Order.Interval.Finset.Nat

namespace QuboProbe.BitString

/-- The string of `n` bits whose positions in a set are one. -/
def ofSet (n : Nat) (t : Finset Nat) : BitString :=
  ⟨(List.range n).map fun i => if i ∈ t then 1 else 0⟩

/-- The set of the positions that are set. -/
def support (x : BitString) : Finset Nat := (active x.bytes).toFinset

/-- A string of `n` bytes, all of them zero or one. -/
structure Binary (n : Nat) (x : BitString) : Prop where
  length_eq : x.length = n
  bit : ∀ b ∈ x.bytes, b = 0 ∨ b = 1

instance (n : Nat) (x : BitString) : Decidable (Binary n x) :=
  decidable_of_iff (x.length = n ∧ x.bytes.all (fun b => b == 0 || b == 1) = true)
    ⟨fun ⟨hlength, hbit⟩ => ⟨hlength, by simpa using hbit⟩,
      fun h => ⟨h.length_eq, by simpa using h.bit⟩⟩

/-! ## Strings of sets -/

@[simp] theorem length_ofSet (n : Nat) (t : Finset Nat) : (ofSet n t).length = n := by
  simp [ofSet, length]

theorem getElem?_ofSet (n : Nat) (t : Finset Nat) (i : Nat) :
    (ofSet n t).bytes[i]? = if i < n then some (if i ∈ t then 1 else 0) else none := by
  rw [ofSet, List.getElem?_map]
  by_cases h : i < n
  · rw [List.getElem?_range h, if_pos h, Option.map_some]
  · rw [if_neg h, List.getElem?_eq_none (by simpa using h), Option.map_none]

theorem binary_ofSet (n : Nat) (t : Finset Nat) : (ofSet n t).Binary n where
  length_eq := length_ofSet n t
  bit b hb := by
    obtain ⟨i, -, rfl⟩ := List.mem_map.1 hb
    by_cases h : i ∈ t <;> simp [h]

theorem mem_support {x : BitString} {i : Nat} :
    i ∈ x.support ↔ ∃ b, x.bytes[i]? = some b ∧ b ≠ 0 := by
  rw [support, List.mem_toFinset, mem_active]

theorem support_ofSet (n : Nat) (t : Finset Nat) :
    (ofSet n t).support = t ∩ Finset.range n := by
  ext i
  rw [mem_support, Finset.mem_inter, Finset.mem_range]
  simp only [getElem?_ofSet]
  by_cases hi : i < n <;> by_cases ht : i ∈ t <;> simp [hi, ht]

theorem support_ofSet_of_subset {n : Nat} {t : Finset Nat} (h : t ⊆ Finset.range n) :
    (ofSet n t).support = t := by
  rw [support_ofSet, Finset.inter_eq_left.2 h]

theorem support_subset (x : BitString) : x.support ⊆ Finset.range x.length := by
  intro i hi
  obtain ⟨b, hb, -⟩ := mem_support.1 hi
  exact Finset.mem_range.2 (List.getElem?_eq_some_iff.1 hb).1

/-- A string of zeros and ones is that of the positions that are set. -/
theorem Binary.ofSet_support {n : Nat} {x : BitString} (h : x.Binary n) :
    ofSet n x.support = x := by
  have hbytes : (ofSet n x.support).bytes = x.bytes := by
    apply List.ext_getElem?
    intro i
    rw [getElem?_ofSet]
    by_cases hi : i < n
    · have hlt : i < x.bytes.length := by
        have := h.length_eq
        rw [length] at this
        omega
      rw [if_pos hi, List.getElem?_eq_getElem hlt]
      by_cases hs : i ∈ x.support
      · -- a byte that is not zero is one
        obtain ⟨b, hb, hne⟩ := mem_support.1 hs
        rw [List.getElem?_eq_getElem hlt] at hb
        rcases h.bit _ (List.getElem_mem hlt) with h0 | h1
        · exact absurd ((Option.some.inj hb).symm.trans h0) hne
        · rw [if_pos hs, h1]
      · rw [if_neg hs]
        by_contra hne
        refine hs (mem_support.2 ⟨_, List.getElem?_eq_getElem hlt, fun h0 => hne ?_⟩)
        rw [h0]
    · have : x.bytes[i]? = none := by
        refine List.getElem?_eq_none ?_
        have := h.length_eq
        rw [length] at this
        omega
      rw [if_neg hi, this]
  exact congrArg BitString.mk hbytes

theorem Binary.support_subset {n : Nat} {x : BitString} (h : x.Binary n) :
    x.support ⊆ Finset.range n := by
  have := BitString.support_subset x
  rwa [h.length_eq] at this

theorem Binary.append {m n : Nat} {a b : List UInt8} (ha : (⟨a⟩ : BitString).Binary m)
    (hb : (⟨b⟩ : BitString).Binary n) : (⟨a ++ b⟩ : BitString).Binary (m + n) where
  length_eq := by
    have hlength : a.length = m := ha.length_eq
    have hlength' : b.length = n := hb.length_eq
    rw [length, List.length_append, hlength, hlength']
  bit c hc := (List.mem_append.1 hc).elim (ha.bit c) (hb.bit c)

theorem Binary.tail {n : Nat} {b : UInt8} {bits : List UInt8}
    (h : (⟨b :: bits⟩ : BitString).Binary n) : (⟨bits⟩ : BitString).Binary bits.length where
  length_eq := rfl
  bit c hc := h.bit c (List.mem_cons_of_mem b hc)

theorem Binary.take {m n : Nat} {bits : List UInt8} (h : (⟨bits⟩ : BitString).Binary (m + n)) :
    (⟨bits.take m⟩ : BitString).Binary m where
  length_eq := by
    have hlength : bits.length = m + n := h.length_eq
    rw [length, List.length_take]
    omega
  bit b hb := h.bit b (List.mem_of_mem_take hb)

theorem Binary.drop {m n : Nat} {bits : List UInt8} (h : (⟨bits⟩ : BitString).Binary (m + n)) :
    (⟨bits.drop m⟩ : BitString).Binary n where
  length_eq := by
    have hlength : bits.length = m + n := h.length_eq
    rw [length, List.length_drop]
    omega
  bit b hb := h.bit b (List.mem_of_mem_drop hb)

/-- A part of a string of zeros and ones. -/
theorem Binary.slice {n start width : Nat} {bits : List UInt8}
    (h : (⟨bits⟩ : BitString).Binary n) (hstop : start + width ≤ n) :
    (⟨(bits.drop start).take width⟩ : BitString).Binary width := by
  obtain ⟨k, rfl⟩ := Nat.exists_eq_add_of_le hstop
  rw [Nat.add_assoc] at h
  exact h.drop.take

theorem ofSet_injOn {n : Nat} {s t : Finset Nat} (hs : s ⊆ Finset.range n)
    (ht : t ⊆ Finset.range n) (h : ofSet n s = ofSet n t) : s = t := by
  rw [← support_ofSet_of_subset hs, h, support_ofSet_of_subset ht]

/-- As many positions are set as bytes are one. -/
theorem Binary.ones_eq_card {n : Nat} {x : BitString} (h : x.Binary n) :
    x.ones = x.support.card := by
  have hnodup : (active x.bytes).Nodup := (pairwise_active x.bytes).imp Nat.ne_of_lt
  have hbyte : ∀ b ∈ x.bytes, (b == 1) = (b != 0) := fun b hb => by
    rcases h.bit b hb with rfl | rfl <;> decide
  have hzip (k : Nat) : ((x.bytes.zipIdx k).filter fun b => b.1 != 0).length =
      x.bytes.countP (· != 0) := by
    have hcount : x.bytes.countP (· != 0) =
        ((x.bytes.zipIdx k).map Prod.fst).countP (· != 0) := by
      rw [List.zipIdx_map_fst]
    rw [hcount, List.countP_map, List.countP_eq_length_filter]
    rfl
  rw [support, List.card_toFinset, hnodup.dedup, active, List.length_map, hzip, ones]
  exact List.countP_congr fun b hb => by rw [hbyte b hb]

/-! ## The strings that the library makes -/

theorem zeros_eq_ofSet (n : Nat) : zeros n = ofSet n ∅ := by
  have hbytes : (zeros n).bytes = (ofSet n ∅).bytes := by
    simp [zeros, ofSet, List.map_const']
  exact congrArg BitString.mk hbytes

/-- Setting a position adds it to the set. -/
theorem set_ofSet (n i : Nat) (t : Finset Nat) :
    (⟨(ofSet n t).bytes.set i 1⟩ : BitString) = ofSet n (insert i t) := by
  have hbytes : (ofSet n t).bytes.set i 1 = (ofSet n (insert i t)).bytes := by
    apply List.ext_getElem?
    intro j
    have hlength : (ofSet n t).bytes.length = n := length_ofSet n t
    rw [List.getElem?_set, getElem?_ofSet, getElem?_ofSet, hlength]
    by_cases hij : i = j
    · simp [hij]
    · simp [hij, Ne.symm hij]
  exact congrArg BitString.mk hbytes

theorem unit_eq_ofSet (n i : Nat) : unit n i = ofSet n {i} := by
  have h : unit n i = ⟨(zeros n).bytes.set i 1⟩ := rfl
  rw [h, zeros_eq_ofSet, set_ofSet, insert_empty_eq]

theorem pair_eq_ofSet (n i j : Nat) : pair n i j = ofSet n {i, j} := by
  have h : pair n i j = ⟨(unit n i).bytes.set j 1⟩ := rfl
  rw [h, unit_eq_ofSet, set_ofSet, Finset.pair_comm]

end QuboProbe.BitString
