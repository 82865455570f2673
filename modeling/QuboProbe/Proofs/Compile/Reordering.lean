/-
  QuboProbe.Proofs.Compile.Reordering

  The order in which variables are laid out does not matter to what is
  compiled.  An objective that looks at names alone has the same value on
  strings that agree along `Layout.relocate`; a coefficient is made of such
  values (`moebius_image`), so it is the coefficient of the relocated
  positions, whichever side of the diagonal these come to stand on
  (`compile_reordered`).
-/
import QuboProbe.Proofs.Compile.Polynomial
import QuboProbe.Proofs.Layout.Rearrangement

namespace QuboProbe

/-! ## Coefficients of renamed sets -/

section

variable {p : Nat → Nat} {s : Finset Nat} {h h' : Finset Nat → ℚ}

/-- The subsets of an image are the images of the subsets. -/
theorem sum_powerset_image (hp : Set.InjOn p s) (c : Finset Nat → ℚ) :
    ∑ u ∈ (s.image p).powerset, c u = ∑ u ∈ s.powerset, c (u.image p) := by
  symm
  refine Finset.sum_nbij (fun u => u.image p) (fun u hu => ?_) ?_ (fun u hu => ?_) fun u _ => rfl
  · exact Finset.mem_powerset.2 (Finset.image_subset_image (Finset.mem_powerset.1 hu))
  · exact Finset.image_injOn_powerset_of_injOn hp
  · obtain ⟨t, ht, rfl⟩ := Finset.subset_image_iff.1 (Finset.mem_powerset.1 hu)
    exact ⟨t, Finset.mem_coe.2 (Finset.mem_powerset.2 ht), rfl⟩

theorem card_image_of_subset (hp : Set.InjOn p s) {u : Finset Nat} (hu : u ⊆ s) :
    (u.image p).card = u.card := Finset.card_image_of_injOn (hp.mono hu)

/-- A function that takes the values of another on the images of sets has its coefficients. -/
theorem moebius_image (hp : Set.InjOn p s) (hvalue : ∀ u ⊆ s, h' (u.image p) = h u) :
    moebius h' (s.image p) = moebius h s := by
  rw [moebius, moebius, sum_powerset_image hp]
  apply Finset.sum_congr rfl
  intro u hu
  have hsub := Finset.mem_powerset.1 hu
  rw [hvalue u hsub, card_image_of_subset hp hsub, card_image_of_subset hp (Finset.Subset.refl s)]

theorem low_image (hp : Set.InjOn p s) (hvalue : ∀ u ⊆ s, h' (u.image p) = h u) (d : Nat) :
    low d h' (s.image p) = low d h s := by
  rw [low, low, Finset.sum_filter, Finset.sum_filter, sum_powerset_image hp]
  apply Finset.sum_congr rfl
  intro u hu
  have hsub := Finset.mem_powerset.1 hu
  rw [card_image_of_subset hp hsub,
    moebius_image (hp.mono hsub) fun t ht => hvalue t (ht.trans hsub)]

end

namespace BitString

variable {p : Nat → Nat} {n : Nat}

/-- The string of the image of a set agrees with that of the set along the renaming. -/
theorem getElem?_ofSet_image (hp : Set.BijOn p (Set.Iio n) (Set.Iio n)) {t : Finset Nat}
    (ht : t ⊆ Finset.range n) {i : Nat} (hi : i < n) :
    (ofSet n (t.image p)).bytes[p i]? = (ofSet n t).bytes[i]? := by
  have hmem : p i ∈ t.image p ↔ i ∈ t := by
    rw [Finset.mem_image]
    constructor
    · rintro ⟨k, hk, heq⟩
      rwa [← hp.injOn (Finset.mem_range.1 (ht hk)) hi heq]
    · exact fun hmem => ⟨i, hmem, rfl⟩
  have hlt : p i < n := hp.mapsTo hi
  rw [getElem?_ofSet, getElem?_ofSet, if_pos hi, if_pos hlt]
  simp only [hmem]

/-- A string that agrees with another along the renaming has the image of its set positions. -/
theorem support_eq_image (hp : Set.BijOn p (Set.Iio n) (Set.Iio n)) {x x' : BitString}
    (hx : x.Binary n) (hx' : x'.Binary n) (hagree : ∀ i < n, x'.bytes[p i]? = x.bytes[i]?) :
    x'.support = x.support.image p := by
  ext j
  rw [Finset.mem_image]
  constructor
  · intro hj
    obtain ⟨i, hi, rfl⟩ := hp.surjOn (Finset.mem_range.1 (hx'.support_subset hj))
    rw [mem_support, hagree i hi] at hj
    exact ⟨i, mem_support.2 hj, rfl⟩
  · rintro ⟨i, hi, rfl⟩
    have hlt := Finset.mem_range.1 (hx.support_subset hi)
    rw [mem_support] at hi ⊢
    rwa [hagree i hlt]

end BitString

/-! ## Coefficients of models -/

namespace PseudoBoolean

/-- The coefficient of two positions, in either order, is that of the set of them. -/
theorem quadratic?_modelOf (value : BitString → ℚ) {n i j : Nat} (hi : i < n) (hj : j < n) :
    (modelOf value n).quadratic? i j =
      some (moebius (fun t => value (.ofSet n t)) {i, j}) := by
  have hupper {i j : Nat} (hij : i ≤ j) (hj : j < n) : (modelOf value n).matrix.get? i j =
      some (moebius (fun t => value (.ofSet n t)) {i, j}) := by
    rw [get?_modelOf value hij hj, coefficientOf_eq_moebius value n hij]
  rw [Qubo.quadratic?]
  by_cases hij : i ≤ j
  · rw [if_pos hij, hupper hij hj]
  · rw [if_neg hij, hupper (by omega) hi, Finset.pair_comm]

theorem linear?_modelOf (value : BitString → ℚ) {n i : Nat} (hi : i < n) :
    (modelOf value n).linear? i = some (moebius (fun t => value (.ofSet n t)) {i}) := by
  have hquadratic := quadratic?_modelOf value hi hi
  rwa [Qubo.quadratic?, if_pos (Nat.le_refl i), Finset.pair_eq_singleton] at hquadratic

/-! ## Values of an objective -/

variable {ε : Type} {f : Objective ε ℚ} {l l' : Layout}

/-- Where two strings are decoded to valuations of the same result, the objective fails on both or
has the same value. -/
theorem value_congr {x x' : BitString} {a a' : Valuation} (ha : l.decode x.bytes = .ok a)
    (ha' : l'.decode x'.bytes = .ok a') (hf : f a = f a') :
    (FailsOn ⟨f, l'⟩ x' ↔ FailsOn ⟨f, l⟩ x) ∧ value ⟨f, l'⟩ x' = value ⟨f, l⟩ x := by
  constructor
  · simp only [FailsOn, ha, ha', Except.ok.injEq, exists_eq_left', hf]
  · simp only [value, evaluate, ha, ha', hf]
    cases f a' <;> rfl

end PseudoBoolean

namespace Layout.Rearranges

variable {ε : Type} {f : Objective ε ℚ} {l l' : Layout}

/-- On the string of a set and on that of the relocated positions, the objective fails or has the
same value. -/
theorem value_ofSet (h : l.Rearranges l')
    (hf : ∀ a b : Valuation, a.names.Nodup → b.names.Nodup → (a == b) = true → f a = f b)
    {t : Finset Nat} (ht : t ⊆ Finset.range l.size) :
    (PseudoBoolean.FailsOn ⟨f, l'⟩ (.ofSet l.size (t.image (relocate l l'))) ↔
      PseudoBoolean.FailsOn ⟨f, l⟩ (.ofSet l.size t)) ∧
    PseudoBoolean.value ⟨f, l'⟩ (.ofSet l.size (t.image (relocate l l'))) =
      PseudoBoolean.value ⟨f, l⟩ (.ofSet l.size t) := by
  have hagree (i : Nat) (hi : i < l.size) := BitString.getElem?_ofSet_image h.bijOn ht hi
  obtain ⟨a, a', ha, ha', hnodup, hnodup', hbeq⟩ := h.beq_decode hagree
    (BitString.length_ofSet l.size t) ((BitString.length_ofSet l.size _).trans h.size_eq.symm)
  exact PseudoBoolean.value_congr ha ha' (hf a a' hnodup hnodup' hbeq)

/-- If the objective fails on no probe of one layout, it fails on none of the other. -/
theorem not_failsOn (h : l.Rearranges l')
    (hf : ∀ a b : Valuation, a.names.Nodup → b.names.Nodup → (a == b) = true → f a = f b)
    (hok : ∀ x ∈ Probes.vectors l'.size, ¬ PseudoBoolean.FailsOn ⟨f, l'⟩ x) :
    ∀ x ∈ Probes.vectors l.size, ¬ PseudoBoolean.FailsOn ⟨f, l⟩ x := by
  intro x hx hfails
  obtain ⟨t, ht, hcard, rfl⟩ := Probes.mem_vectors.1 hx
  refine hok (.ofSet l.size (t.image (relocate l l'))) ?_ (((h.value_ofSet hf ht).1).2 hfails)
  rw [h.size_eq]
  refine Probes.mem_vectors.2 ⟨_, ?_, Finset.card_image_le.trans hcard, rfl⟩
  intro j hj
  obtain ⟨i, hi, rfl⟩ := Finset.mem_image.1 hj
  exact Finset.mem_range.2 (h.relocate_lt (Finset.mem_range.1 (ht hi)))

end Layout.Rearranges

variable {ε : Type} [Cause ε]

/-- Compiled over two layouts of the same variables in different orders, an objective that gives
equal results on valuations that agree comes to the same model but for the places of the bits.  It
is compiled over both or over neither.  The bits correspond one to one, each to the bit at the same
place of the field of the same variable; along them the offset, the coefficients of one bit and of
two, and the energies are the same. -/
theorem compile_reordered (s s' : Settings ℚ) {vs vs' : List (String × Encoding × Nat)}
    (hperm : vs.Perm vs') {l l' : Layout} (hl : Layout.ofList vs = .ok l)
    (hl' : Layout.ofList vs' = .ok l') (f : Objective ε ℚ)
    (hf : ∀ a b : Valuation, a.names.Nodup → b.names.Nodup → (a == b) = true → f a = f b) :
    l'.size = l.size ∧
    ((∃ c, (compile s f l).result = .ok c) ↔ ∃ c', (compile s' f l').result = .ok c') ∧
    ∃ p : Nat → Nat, Set.BijOn p (Set.Iio l.size) (Set.Iio l.size) ∧
      (∀ v ∈ l.vars, ∀ v' ∈ l'.vars, v'.name = v.name →
        v'.width = v.width ∧ ∀ k < v.width, p (v.offset + k) = v'.offset + k) ∧
      ∀ c c', (compile s f l).result = .ok c → (compile s' f l').result = .ok c' →
        c'.qubo.offset = c.qubo.offset ∧
        (∀ i < l.size, ∃ w, c.qubo.linear? i = some w ∧ c'.qubo.linear? (p i) = some w) ∧
        (∀ i < l.size, ∀ j < l.size, i ≠ j →
          ∃ w, c.qubo.quadratic? i j = some w ∧ c'.qubo.quadratic? (p i) (p j) = some w) ∧
        ∀ x x' : BitString, x.Binary l.size → x'.Binary l.size →
          (∀ i < l.size, x'.bytes[p i]? = x.bytes[i]?) →
          ∃ e, c.qubo.energy x.bytes = .ok e ∧ c'.qubo.energy x'.bytes = .ok e := by
  have h : l.Rearranges l' := .of_ofList hl hl' hperm
  refine ⟨h.size_eq, ?_, Layout.relocate l l', h.bijOn, fun v hv v' hv' hname => ?_,
    fun c c' hc hc' => ?_⟩
  · constructor
    · rintro ⟨c, hc⟩
      exact ⟨_, compile_eq_ok_iff.2 ⟨h.symm.not_failsOn hf (compile_eq_ok_iff.1 hc).1, rfl⟩⟩
    · rintro ⟨c', hc'⟩
      exact ⟨_, compile_eq_ok_iff.2 ⟨h.not_failsOn hf (compile_eq_ok_iff.1 hc').1, rfl⟩⟩
  · exact ⟨congrArg (fun s => s.2.2) (h.spec_eq hv hv' hname),
      fun k hk => h.relocate_offset hv hv' hname hk⟩
  · obtain ⟨-, rfl⟩ := compile_eq_ok_iff.1 hc
    obtain ⟨-, rfl⟩ := compile_eq_ok_iff.1 hc'
    rw [h.size_eq]
    -- the values of both objectives as functions of sets
    have hvalue (t : Finset Nat) (ht : t ⊆ Finset.range l.size) := (h.value_ofSet hf ht).2
    have himage {t : Finset Nat} (ht : t ⊆ Finset.range l.size) :
        moebius (fun u => PseudoBoolean.value ⟨f, l'⟩ (.ofSet l.size u))
            (t.image (Layout.relocate l l')) =
          moebius (fun u => PseudoBoolean.value ⟨f, l⟩ (.ofSet l.size u)) t := by
      refine moebius_image (h.bijOn.injOn.mono fun i hi => Finset.mem_range.1 (ht hi)) ?_
      exact fun u hu => hvalue u (hu.trans ht)
    refine ⟨?_, fun i hi => ?_, fun i hi j hj hij => ?_, fun x x' hx hx' hagree => ?_⟩
    · have hzero := hvalue ∅ (Finset.empty_subset _)
      rw [Finset.image_empty] at hzero
      simp only [PseudoBoolean.modelOf, PseudoBoolean.assemble, BitString.zeros_eq_ofSet, hzero]
    · refine ⟨_, PseudoBoolean.linear?_modelOf _ hi, ?_⟩
      rw [PseudoBoolean.linear?_modelOf _ (h.relocate_lt hi), ← Finset.image_singleton,
        himage (Finset.singleton_subset_iff.2 (Finset.mem_range.2 hi))]
    · refine ⟨_, PseudoBoolean.quadratic?_modelOf _ hi hj, ?_⟩
      have hpair : ({i, j} : Finset Nat) ⊆ Finset.range l.size :=
        Finset.insert_subset (Finset.mem_range.2 hi)
          (Finset.singleton_subset_iff.2 (Finset.mem_range.2 hj))
      rw [PseudoBoolean.quadratic?_modelOf _ (h.relocate_lt hi) (h.relocate_lt hj), ← himage hpair,
        Finset.image_insert, Finset.image_singleton]
    · refine ⟨_, PseudoBoolean.energy_modelOf _ hx, ?_⟩
      have hsub := hx.support_subset
      rw [PseudoBoolean.energy_modelOf _ hx', BitString.support_eq_image h.bijOn hx hx' hagree,
        low_image (h.bijOn.injOn.mono fun i hi => Finset.mem_range.1 (hsub hi))
          fun u hu => hvalue u (hu.trans hsub)]

/-- A product of two numbers whose fields change places: the pair of their first bits comes to
stand on the other side of the diagonal. -/
theorem compile_reordered_product :
    let vs : List (String × Encoding × Nat) := [("x", .unsigned, 2), ("y", .offsetBinary, 2)]
    let l : Layout := ⟨[⟨"x", .unsigned, 2, 0⟩, ⟨"y", .offsetBinary, 2, 2⟩], 4⟩
    let l' : Layout := ⟨[⟨"y", .offsetBinary, 2, 0⟩, ⟨"x", .unsigned, 2, 2⟩], 4⟩
    let f : Objective CodingError ℚ := fun a => do
      let x ← a.int "x"
      let y ← a.int "y"
      .ok ((x.toInt : ℚ) * y.toInt)
    vs.Perm vs.reverse ∧ Layout.ofList vs = .ok l ∧ Layout.ofList vs.reverse = .ok l' ∧
      (∀ a b : Valuation, a.names.Nodup → b.names.Nodup → (a == b) = true → f a = f b) ∧
      ∀ c c', (compile (.standard 1) f l).result = .ok c →
        (compile (.standard 4) f l').result = .ok c' →
        ∃ w, c.qubo.quadratic? 0 2 = some w ∧ c'.qubo.quadratic? 2 0 = some w := by
  intro vs l l' f
  have hperm : vs.Perm vs.reverse := (List.reverse_perm vs).symm
  have hl : Layout.ofList vs = .ok l := rfl
  have hl' : Layout.ofList vs.reverse = .ok l' := rfl
  have hf (a b : Valuation) (ha : a.names.Nodup) (hb : b.names.Nodup) (h : (a == b) = true) :
      f a = f b := by
    have hget := (Valuation.beq_iff ha hb).1 h
    simp only [f, Valuation.int, hget]
  obtain ⟨-, -, p, -, hp, hmodel⟩ :=
    compile_reordered (.standard 1) (.standard 4) hperm hl hl' f hf
  refine ⟨hperm, hl, hl', hf, fun c c' hc hc' => ?_⟩
  have hx : p 0 = 2 := (hp ⟨"x", .unsigned, 2, 0⟩ (by simp [l]) ⟨"x", .unsigned, 2, 2⟩
    (by simp [l']) rfl).2 0 (by decide)
  have hy : p 2 = 0 := (hp ⟨"y", .offsetBinary, 2, 2⟩ (by simp [l]) ⟨"y", .offsetBinary, 2, 0⟩
    (by simp [l']) rfl).2 0 (by decide)
  obtain ⟨w, hw, hw'⟩ := (hmodel c c' hc hc').2.2.1 0 (by decide) 2 (by decide) (by decide)
  rw [hx, hy] at hw'
  exact ⟨w, hw, hw'⟩

end QuboProbe
