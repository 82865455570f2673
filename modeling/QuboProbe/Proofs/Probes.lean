/-
  QuboProbe.Proofs.Probes

  Which places and which bit strings are listed.  The probes of `n` bits are
  the strings of the sets of at most two positions, each once
  (`Probes.mem_vectors`, `Probes.nodup_vectors`), and each of them is read by
  some coefficient (`Probes.mem_vectors_iff_ofPlace`).

  Each place has one probe of its own, and these come in the order of the
  places (`Probes.vectors_eq_cons`); what else a place reads belongs to places
  before it (`Probes.known_before`).
-/
import QuboProbe.Probes
import QuboProbe.Proofs.BitString
import Mathlib.Data.List.Nodup
import Mathlib.Tactic.Linarith

namespace QuboProbe.Probes

/-! ## Places -/

theorem mem_pairs {n i j : Nat} : (i, j) ∈ pairs n ↔ i < j ∧ j < n := by
  simp only [pairs, List.mem_flatMap, List.mem_range, List.mem_map, List.mem_range'_1,
    Prod.mk.injEq]
  constructor
  · rintro ⟨i', hi', j', hj', rfl, rfl⟩
    omega
  · rintro ⟨hij, hj⟩
    exact ⟨i, by omega, j, by omega, rfl, rfl⟩

theorem mem_cells {n i j : Nat} : (i, j) ∈ cells n ↔ i ≤ j ∧ j < n := by
  simp only [cells, List.mem_append, List.mem_map, List.mem_range, Prod.mk.injEq, mem_pairs]
  constructor
  · rintro (⟨k, hk, rfl, rfl⟩ | ⟨hij, hj⟩)
    · exact ⟨Nat.le_refl _, hk⟩
    · exact ⟨Nat.le_of_lt hij, hj⟩
  · rintro ⟨hij, hj⟩
    rcases Nat.eq_or_lt_of_le hij with rfl | hlt
    · exact .inl ⟨i, hj, rfl, rfl⟩
    · exact .inr ⟨hlt, hj⟩

theorem lt_of_mem_cells {n : Nat} {p : Nat × Nat} (hp : p ∈ cells n) : p.1 < n ∧ p.2 < n := by
  obtain ⟨hij, hj⟩ := mem_cells.1 hp
  exact ⟨Nat.lt_of_le_of_lt hij hj, hj⟩

theorem nodup_pairs (n : Nat) : (pairs n).Nodup := by
  rw [pairs, List.nodup_flatMap]
  refine ⟨fun i _ => ?_, ?_⟩
  · exact (List.nodup_range' 1).map fun _ _ h => (Prod.mk.inj h).2
  · refine List.nodup_range.imp fun {a b} hab => ?_
    intro p hp hp'
    obtain ⟨j, -, rfl⟩ := List.mem_map.1 hp
    obtain ⟨k, -, h⟩ := List.mem_map.1 hp'
    exact hab (Prod.mk.inj h).1.symm

/-- No place is listed twice. -/
theorem nodup_cells (n : Nat) : (cells n).Nodup := by
  refine List.Nodup.append ?_ (nodup_pairs n) fun p hp hp' => ?_
  · exact List.nodup_range.map fun _ _ h => (Prod.mk.inj h).1
  · obtain ⟨i, -, rfl⟩ := List.mem_map.1 hp
    exact absurd (mem_pairs.1 hp').1 (Nat.lt_irrefl i)

/-! ## Probes -/

/-- The sets of at most two positions, in the order of the probes. -/
def sets (n : Nat) : List (Finset Nat) :=
  ∅ :: (List.range n).map (fun i => {i}) ++ (pairs n).map fun p => {p.1, p.2}

theorem vectors_eq (n : Nat) : vectors n = (sets n).map (BitString.ofSet n) := by
  simp [vectors, sets, BitString.zeros_eq_ofSet, BitString.unit_eq_ofSet, BitString.pair_eq_ofSet,
    Function.comp_def]

theorem mem_sets {n : Nat} {t : Finset Nat} :
    t ∈ sets n ↔ t ⊆ Finset.range n ∧ t.card ≤ 2 := by
  simp only [sets, List.cons_append, List.mem_cons, List.mem_append, List.mem_map, List.mem_range,
    Prod.exists, mem_pairs]
  constructor
  · rintro (rfl | ⟨i, hi, rfl⟩ | ⟨i, j, ⟨hij, hj⟩, rfl⟩)
    · simp
    · simpa using hi
    · refine ⟨?_, Finset.card_le_two⟩
      rw [Finset.insert_subset_iff, Finset.singleton_subset_iff, Finset.mem_range, Finset.mem_range]
      omega
  · rintro ⟨hsub, hcard⟩
    have hcases : t.card = 0 ∨ t.card = 1 ∨ t.card = 2 := by omega
    rcases hcases with h0 | h1 | h2
    · exact .inl (Finset.card_eq_zero.1 h0)
    · obtain ⟨i, rfl⟩ := Finset.card_eq_one.1 h1
      exact .inr (.inl ⟨i, by simpa using hsub, rfl⟩)
    · obtain ⟨i, j, hne, rfl⟩ := Finset.card_eq_two.1 h2
      rw [Finset.insert_subset_iff, Finset.singleton_subset_iff, Finset.mem_range,
        Finset.mem_range] at hsub
      rcases Nat.lt_or_gt_of_ne hne with hij | hji
      · exact .inr (.inr ⟨i, j, ⟨hij, hsub.2⟩, rfl⟩)
      · exact .inr (.inr ⟨j, i, ⟨hji, hsub.1⟩, Finset.pair_comm j i⟩)

/-- The probes are the strings of at most two ones. -/
theorem mem_vectors {n : Nat} {x : BitString} :
    x ∈ vectors n ↔ ∃ t ⊆ Finset.range n, t.card ≤ 2 ∧ BitString.ofSet n t = x := by
  rw [vectors_eq, List.mem_map]
  simp only [mem_sets, and_assoc]

theorem mem_vectors_iff_ones {n : Nat} {x : BitString} :
    x ∈ vectors n ↔ x.Binary n ∧ x.ones ≤ 2 := by
  rw [mem_vectors]
  constructor
  · rintro ⟨t, ht, hcard, rfl⟩
    have hbinary := BitString.binary_ofSet n t
    rw [hbinary.ones_eq_card, BitString.support_ofSet_of_subset ht]
    exact ⟨hbinary, hcard⟩
  · rintro ⟨hbinary, hones⟩
    rw [hbinary.ones_eq_card] at hones
    exact ⟨x.support, hbinary.support_subset, hones, hbinary.ofSet_support⟩

theorem length_of_mem_vectors {n : Nat} {x : BitString} (h : x ∈ vectors n) : x.length = n := by
  obtain ⟨t, -, -, rfl⟩ := mem_vectors.1 h
  exact BitString.length_ofSet n t

theorem nodup_sets (n : Nat) : (sets n).Nodup := by
  have hsingles : ((List.range n).map fun i => ({i} : Finset Nat)).Nodup :=
    List.nodup_range.map fun _ _ h => Finset.singleton_injective h
  have hpairs : ((pairs n).map fun p => ({p.1, p.2} : Finset Nat)).Nodup := by
    refine (nodup_pairs n).map_on ?_
    rintro ⟨i, j⟩ hp ⟨i', j'⟩ hp' h
    have hij := (mem_pairs.1 hp).1
    have hij' := (mem_pairs.1 hp').1
    have hi : i ∈ ({i', j'} : Finset Nat) := h ▸ Finset.mem_insert_self i {j}
    have hj : j ∈ ({i', j'} : Finset Nat) :=
      h ▸ Finset.mem_insert_of_mem (Finset.mem_singleton_self j)
    rw [Finset.mem_insert, Finset.mem_singleton] at hi hj
    rw [Prod.mk.injEq]
    omega
  rw [sets, List.cons_append, List.nodup_cons]
  -- the three kinds differ in the number of their positions
  refine ⟨?_, hsingles.append hpairs fun t ht ht' => ?_⟩
  · intro h
    rcases List.mem_append.1 h with h | h
    · obtain ⟨i, -, hi⟩ := List.mem_map.1 h
      exact Finset.singleton_ne_empty i hi
    · obtain ⟨p, -, hp⟩ := List.mem_map.1 h
      exact Finset.insert_ne_empty _ _ hp
  · obtain ⟨i, -, rfl⟩ := List.mem_map.1 ht
    obtain ⟨⟨j, k⟩, hp, h⟩ := List.mem_map.1 ht'
    have hcard : ({j, k} : Finset Nat).card = 2 :=
      Finset.card_pair (Nat.ne_of_lt (mem_pairs.1 hp).1)
    rw [show ({j, k} : Finset Nat) = {i} from h, Finset.card_singleton] at hcard
    omega

/-- No probe is listed twice. -/
theorem nodup_vectors (n : Nat) : (vectors n).Nodup := by
  rw [vectors_eq]
  apply (nodup_sets n).map_on
  intro s hs t ht h
  exact BitString.ofSet_injOn (mem_sets.1 hs).1 (mem_sets.1 ht).1 h

/-! ## Probes of a place -/

/-- The probes that the coefficient of a place is made of. -/
def ofPlace (n : Nat) (p : Nat × Nat) : List BitString :=
  if p.1 = p.2 then [.zeros n, .unit n p.1]
  else [.zeros n, .unit n p.1, .unit n p.2, .pair n p.1 p.2]

/-- Each probe after the first belongs to a place, and each place has probes alone. -/
theorem mem_vectors_iff_ofPlace {n : Nat} {x : BitString} :
    x ∈ vectors n ↔ x = .zeros n ∨ ∃ p ∈ cells n, x ∈ ofPlace n p := by
  rw [vectors, List.cons_append, List.mem_cons, List.mem_append]
  simp only [List.mem_map, List.mem_range, Prod.exists, mem_pairs, mem_cells, ofPlace]
  constructor
  · rintro (rfl | ⟨i, hi, rfl⟩ | ⟨i, j, ⟨hij, hj⟩, rfl⟩)
    · exact .inl rfl
    · exact .inr ⟨i, i, ⟨Nat.le_refl i, hi⟩, by simp⟩
    · exact .inr ⟨i, j, ⟨Nat.le_of_lt hij, hj⟩, by simp [Nat.ne_of_lt hij]⟩
  · rintro (rfl | ⟨i, j, ⟨hij, hj⟩, hx⟩)
    · exact .inl rfl
    · split at hx
      · rename_i heq
        rcases List.mem_pair.1 hx with rfl | rfl
        · exact .inl rfl
        · exact .inr (.inl ⟨i, by omega, rfl⟩)
      · rename_i hne
        simp only [List.mem_cons, List.not_mem_nil, or_false] at hx
        rcases hx with rfl | rfl | rfl | rfl
        · exact .inl rfl
        · exact .inr (.inl ⟨i, by omega, rfl⟩)
        · exact .inr (.inl ⟨j, hj, rfl⟩)
        · exact .inr (.inr ⟨i, j, ⟨by omega, hj⟩, rfl⟩)

/-! ## Probes in turn -/

/-- The probe that no place before reads. -/
def own (n : Nat) (p : Nat × Nat) : BitString :=
  if p.1 = p.2 then .unit n p.1 else .pair n p.1 p.2

/-- The probes that places before read, too. -/
def known (n : Nat) (p : Nat × Nat) : List BitString :=
  if p.1 = p.2 then [.zeros n] else [.zeros n, .unit n p.1, .unit n p.2]

theorem ofPlace_eq (n : Nat) (p : Nat × Nat) : ofPlace n p = known n p ++ [own n p] := by
  by_cases hp : p.1 = p.2
  · rw [ofPlace, known, own, if_pos hp, if_pos hp, if_pos hp, List.singleton_append]
  · rw [ofPlace, known, own, if_neg hp, if_neg hp, if_neg hp]
    rfl

/-- The places of single positions, which come first. -/
def diagonal (n : Nat) : List (Nat × Nat) := (List.range n).map fun i => (i, i)

theorem vectors_eq_cons (n : Nat) : vectors n = .zeros n :: (cells n).map (own n) := by
  have hdiagonal : ((List.range n).map fun i => (i, i)).map (own n) =
      (List.range n).map (BitString.unit n) := by
    rw [List.map_map]
    exact List.map_congr_left fun i _ => if_pos rfl
  have hpairs : (pairs n).map (own n) = (pairs n).map fun p => BitString.pair n p.1 p.2 :=
    List.map_congr_left fun p hp => if_neg (Nat.ne_of_lt (mem_pairs.1 hp).1)
  rw [vectors, cells, List.map_append, hdiagonal, hpairs, List.cons_append]

/-- A pair comes after all single positions. -/
theorem diagonal_subset {n : Nat} {before after : List (Nat × Nat)} {p : Nat × Nat}
    (h : cells n = before ++ p :: after) (hp : p.1 ≠ p.2) : diagonal n ⊆ before := by
  have hcells : diagonal n ++ pairs n = before ++ p :: after := h
  rcases List.append_eq_append_iff.1 hcells with ⟨more, hbefore, -⟩ | ⟨more, hbefore, hmore⟩
  · rw [hbefore]
    exact List.subset_append_left _ _
  · cases more with
    | nil =>
      rw [hbefore, List.append_nil]
      exact List.Subset.refl before
    | cons q more =>
      -- the pair would be among the single positions
      obtain rfl : p = q := (List.cons.inj hmore).1
      have hmem : p ∈ diagonal n := by
        rw [hbefore]
        exact List.mem_append_right before List.mem_cons_self
      obtain ⟨i, -, rfl⟩ := List.mem_map.1 hmem
      exact absurd rfl hp

/-- What a place reads besides its own probe belongs to places before it. -/
theorem known_before {n : Nat} {before after : List (Nat × Nat)} {p : Nat × Nat}
    (h : cells n = before ++ p :: after) :
    ∀ x ∈ known n p, x ∈ before.map (own n) ∨ x = .zeros n := by
  intro x hx
  by_cases hp : p.1 = p.2
  · rw [known, if_pos hp, List.mem_singleton] at hx
    exact .inr hx
  · rw [known, if_neg hp, List.mem_cons, List.mem_pair] at hx
    have hdiagonal := diagonal_subset h hp
    have hunit {i : Nat} (hi : i < n) : .unit n i ∈ before.map (own n) := by
      have hplace : (i, i) ∈ before := hdiagonal (List.mem_map.2 ⟨i, List.mem_range.2 hi, rfl⟩)
      have hown : own n (i, i) = .unit n i := if_pos rfl
      exact hown ▸ List.mem_map_of_mem hplace
    have hlt := lt_of_mem_cells (n := n) (p := p)
      (h ▸ List.mem_append_right before List.mem_cons_self)
    rcases hx with rfl | rfl | rfl
    · exact .inr rfl
    · exact .inl (hunit hlt.1)
    · exact .inl (hunit hlt.2)

/-! ## How many there are -/

theorem two_mul_length_pairs (n : Nat) : 2 * (pairs n).length = n * (n - 1) := by
  -- the first positions, each with those behind it
  have hsum (k : Nat) (hk : k ≤ n) :
      2 * ((List.range k).map fun i => n - (i + 1)).sum + k * k + k = 2 * (n * k) := by
    induction k with
    | zero => rfl
    | succ k ih =>
      have hprevious := ih (by omega)
      obtain ⟨d, rfl⟩ : ∃ d, n = k + 1 + d := ⟨n - (k + 1), by omega⟩
      rw [List.range_succ, List.map_append, List.sum_append, List.map_singleton,
        List.sum_singleton, Nat.add_sub_cancel_left]
      nlinarith
  have hlength : (pairs n).length = ((List.range n).map fun i => n - (i + 1)).sum := by
    simp [pairs, List.length_flatMap]
  have hall := hsum n (Nat.le_refl n)
  rw [hlength]
  cases n with
  | zero => rfl
  | succ n =>
    rw [Nat.add_sub_cancel]
    nlinarith

theorem length_vectors (n : Nat) : (vectors n).length = 1 + n + n * (n - 1) / 2 := by
  have hpairs := two_mul_length_pairs n
  rw [vectors, List.length_append, List.length_cons, List.length_map, List.length_map,
    List.length_range]
  omega

/-- Probes and places are listed in step.  The probes are the strings of zeros and at most two
ones, and the places those on and above the diagonal, each once.  There are `1 + n + n(n - 1)/2`
probes, and behind the first one stands, for each place in turn, the probe of its one or two
positions. -/
theorem vectors_in_step (n : Nat) :
    (∀ x, x ∈ vectors n ↔ x.Binary n ∧ x.ones ≤ 2) ∧ (vectors n).Nodup ∧
    (vectors n).length = count n ∧ count n = 1 + n + n * (n - 1) / 2 ∧
    (∀ i j, (i, j) ∈ cells n ↔ i ≤ j ∧ j < n) ∧ (cells n).Nodup ∧
    (vectors n)[0]? = some (.zeros n) ∧
    ∀ k : Nat, (vectors n)[k + 1]? =
      (cells n)[k]?.map fun p => if p.1 = p.2 then .unit n p.1 else .pair n p.1 p.2 := by
  refine ⟨fun x => mem_vectors_iff_ones, nodup_vectors n, length_vectors n, rfl,
    fun i j => mem_cells, nodup_cells n, ?_, fun k => ?_⟩
  · rw [vectors_eq_cons, List.getElem?_cons_zero]
  · rw [vectors_eq_cons, List.getElem?_cons_succ, List.getElem?_map]
    rfl

/-- Three bits: the diagonal comes first, then the pairs by their first position. -/
example : cells 3 = [(0, 0), (1, 1), (2, 2), (0, 1), (0, 2), (1, 2)] ∧
    vectors 3 = [⟨[0, 0, 0]⟩, ⟨[1, 0, 0]⟩, ⟨[0, 1, 0]⟩, ⟨[0, 0, 1]⟩, ⟨[1, 1, 0]⟩, ⟨[1, 0, 1]⟩,
      ⟨[0, 1, 1]⟩] := by decide

/-- A single position asks for two probes, a pair for four. -/
theorem length_flatMap_ofPlace (n : Nat) :
    ((cells n).flatMap (ofPlace n)).length = 2 * n + 4 * (pairs n).length := by
  have hsingle (i : Nat) : (ofPlace n (i, i)).length = 2 := by rw [ofPlace, if_pos rfl]; rfl
  have hpair : ∀ p ∈ pairs n, (ofPlace n p).length = 4 := fun p hp => by
    rw [ofPlace, if_neg (Nat.ne_of_lt (mem_pairs.1 hp).1)]
    rfl
  rw [cells, List.flatMap_append, List.length_append, List.length_flatMap, List.length_flatMap,
    List.map_map, List.map_congr_left hpair, List.map_const', List.sum_replicate_nat]
  simp only [Function.comp_def, hsingle, List.map_const', List.length_range, List.sum_replicate_nat]
  omega

end QuboProbe.Probes
