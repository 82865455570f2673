/-
  QuboProbe.Proofs.BestFirst

  Sets of samples with floating point energies.  The order is the total one of
  the bit patterns, in which only equal patterns are tied
  (`SampleSet.score_bestFirst`); so the undefined values with the sign set come
  before all numbers and those without it behind them
  (`SampleSet.ofList_undefined`).
-/
import QuboProbe.Proofs.Ranking
import QuboProbe.Proofs.TotalOrder

namespace QuboProbe.SampleSet

variable {samples : List (Sample Binary64)} {a b : Sample Binary64}

theorem atLeastAsGood_iff_place :
    atLeastAsGood a b = true ↔ a.energy.place ≤ b.energy.place := Binary64.rank_isLE_iff

theorem atLeastAsGood_eq_false_iff :
    atLeastAsGood a b = false ↔ b.energy.place < a.energy.place := by
  rw [← Bool.not_eq_true, atLeastAsGood_iff_place, Int.not_le]

/-- Only samples with the same energy, bit for bit, are tied. -/
theorem tied_iff :
    atLeastAsGood a b = true ∧ atLeastAsGood b a = true ↔ a.energy = b.energy := by
  rw [atLeastAsGood_iff_place, atLeastAsGood_iff_place]
  exact ⟨fun h => Binary64.place_injective (Int.le_antisymm h.1 h.2),
    fun h => ⟨h ▸ Int.le_refl _, h ▸ Int.le_refl _⟩⟩

/-! ## The best of scored candidates -/

/-- The best of scored candidates is the earliest of those with the least energy. -/
theorem best_of_scored {q : Qubo Binary64} {candidates : List BitString}
    (hbits : samples.map Sample.bits = candidates)
    (henergy : ∀ a ∈ samples, q.energy a.bits.bytes = .ok a.energy) {best : Sample Binary64}
    (hbest : (ofList samples).first? = some best) :
    q.energy best.bits.bytes = .ok best.energy ∧
      ∃ before after, candidates = before ++ best.bits :: after ∧
        (∀ y ∈ before, ∃ v, q.energy y.bytes = .ok v ∧ best.energy.totalKey < v.totalKey) ∧
        ∀ y ∈ after, ∃ v, q.energy y.bytes = .ok v ∧ best.energy.totalKey ≤ v.totalKey := by
  obtain ⟨before, after, rfl, hbefore, hafter⟩ := foremost_of_first? hbest
  rw [List.map_append, List.map_cons] at hbits
  refine ⟨henergy best (List.mem_append_right _ List.mem_cons_self), before.map Sample.bits,
    after.map Sample.bits, hbits.symm, fun y hy => ?_, fun y hy => ?_⟩
  · obtain ⟨a, ha, rfl⟩ := List.mem_map.1 hy
    exact ⟨a.energy, henergy a (List.mem_append_left _ ha),
      Binary64.totalKey_lt_iff.2 (atLeastAsGood_eq_false_iff.1 (hbefore a ha))⟩
  · obtain ⟨a, ha, rfl⟩ := List.mem_map.1 hy
    exact ⟨a.energy, henergy a (List.mem_append_right _ (List.mem_cons_of_mem best ha)),
      Binary64.totalKey_le_iff.2 (atLeastAsGood_iff_place.1 (hafter a ha))⟩

/-- Sets of samples are stable orderings, best first.  A set made of a list has the samples of the
list, in the total order of their energies, and those with the same energy in their order.
Scoring fails exactly if a candidate does not fit the model, with the error of the first that does
not; otherwise the set has each candidate, as often as it was given, with its energy, and the best
is the earliest candidate with the least energy. -/
theorem score_bestFirst :
    (∀ samples : List (Sample Binary64),
      (ofList samples).samples.Perm samples ∧
      (ofList samples).samples.Pairwise (fun a b => a.energy.totalKey ≤ b.energy.totalKey) ∧
      ∀ v, (ofList samples).samples.filter (fun a => a.energy = v) =
        samples.filter (fun a => a.energy = v)) ∧
    ∀ (q : Qubo Binary64) (candidates : List BitString),
      (∀ e, score q candidates = .error e ↔
        ∃ before x after, candidates = before ++ x :: after ∧ (∀ y ∈ before, q.Fits y) ∧
          ¬q.Fits x ∧ e = ⟨q.matrix.rows, q.matrix.cols, x.length⟩) ∧
      ((∀ x ∈ candidates, q.Fits x) → ∃ samples,
        samples.map Sample.bits = candidates ∧
        (∀ a ∈ samples, q.energy a.bits.bytes = .ok a.energy) ∧
        score q candidates = .ok (ofList samples) ∧
        ((ofList samples).first? = none ↔ candidates = []) ∧
        ∀ best, (ofList samples).first? = some best → q.energy best.bits.bytes = .ok best.energy ∧
          ∃ before after, candidates = before ++ best.bits :: after ∧
            (∀ y ∈ before, ∃ v, q.energy y.bytes = .ok v ∧ best.energy.totalKey < v.totalKey) ∧
            ∀ y ∈ after, ∃ v, q.energy y.bytes = .ok v ∧ best.energy.totalKey ≤ v.totalKey) := by
  refine ⟨fun samples => ⟨perm_ofList samples, ?_, fun v => ?_⟩,
    fun q candidates => ⟨fun e => ?_, fun hfits => ?_⟩⟩
  · exact (pairwise_ofList samples).imp fun h =>
      Binary64.totalKey_le_iff.2 (atLeastAsGood_iff_place.1 h)
  · refine filter_ofList (fun a b ha hb => (tied_iff.2 ?_).1) samples
    rw [of_decide_eq_true ha, of_decide_eq_true hb]
  · rw [← energies_eq_error_iff, score]
    cases energies q candidates with
    | error e' => simp only [Except.map, Except.error.injEq]
    | ok samples => exact iff_of_false nofun nofun
  · obtain ⟨samples, hsamples, hbits, henergy⟩ := energies_of_fits hfits
    refine ⟨samples, hbits, henergy, by rw [score, hsamples]; rfl, ?_,
      fun best hbest => best_of_scored hbits henergy hbest⟩
    rw [first?_ofList_eq_none, ← hbits, List.map_eq_nil_iff]

/-- Candidates of which two have the least energy, a candidate that is too short, and two zeros of
different sign. -/
theorem score_bestFirst_ties :
    let q : Qubo Binary64 := ⟨⟨2, 2, #[⟨0xbff0000000000000⟩, 0, 0, ⟨0xbff0000000000000⟩], rfl⟩, 0⟩
    let candidates : List BitString := [⟨[0, 0]⟩, ⟨[0, 1]⟩, ⟨[1, 0]⟩]
    let zeros : List (Sample Binary64) := [⟨⟨[0]⟩, 0⟩, ⟨⟨[1]⟩, ⟨0x8000000000000000⟩⟩]
    (∀ x ∈ candidates, q.Fits x) ∧
      (∃ set best, score q candidates = .ok set ∧ set.first? = some best ∧
        ∃ before after, candidates = before ++ best.bits :: after ∧
          ∀ y ∈ before, ∃ v, q.energy y.bytes = .ok v ∧ best.energy.totalKey < v.totalKey) ∧
      score q [⟨[0, 0]⟩, ⟨[0]⟩, ⟨[0, 0, 0]⟩] = .error ⟨2, 2, 1⟩ ∧
      (ofList zeros).samples.filter (fun a => a.energy = 0) = [⟨⟨[0]⟩, 0⟩] := by
  intro q candidates zeros
  obtain ⟨hsorted, hscored⟩ := score_bestFirst
  have hfits : ∀ x ∈ candidates, q.Fits x := by
    simp only [candidates, List.forall_mem_cons]
    exact ⟨⟨rfl, rfl⟩, ⟨rfl, rfl⟩, ⟨rfl, rfl⟩, fun x hx => absurd hx List.not_mem_nil⟩
  obtain ⟨samples, -, -, hscore, hnone, hbest⟩ := (hscored q candidates).2 hfits
  obtain ⟨best, hfirst⟩ := Option.ne_none_iff_exists'.1 fun h => List.cons_ne_nil _ _ (hnone.1 h)
  obtain ⟨-, before, after, hsplit, hbefore, -⟩ := hbest best hfirst
  refine ⟨hfits, ⟨_, best, hscore, hfirst, before, after, hsplit, hbefore⟩, ?_, ?_⟩
  · refine ((hscored q _).1 _).2 ⟨[⟨[0, 0]⟩], ⟨[0]⟩, [⟨[0, 0, 0]⟩], rfl, fun y hy => ?_, ?_, rfl⟩
    · exact List.mem_singleton.1 hy ▸ ⟨rfl, rfl⟩
    · exact fun h => absurd h.2 (by decide)
  · rw [(hsorted zeros).2.2 0]
    rfl

/-! ## Undefined energies -/

/-- The samples are in the tiers of their energies. -/
theorem pairwise_tier (samples : List (Sample Binary64)) :
    (ofList samples).samples.Pairwise fun a b => a.energy.tier ≤ b.energy.tier :=
  (pairwise_ofList samples).imp fun h => Binary64.tier_le_of_place_le (atLeastAsGood_iff_place.1 h)

/-- The best sample is one of the samples, in the lowest tier of all. -/
theorem tier_first? {best : Sample Binary64} (hbest : (ofList samples).first? = some best) :
    best ∈ samples ∧ ∀ a ∈ samples, best.energy.tier ≤ a.energy.tier := by
  obtain ⟨rest, hsort⟩ := List.head?_eq_some_iff.1 hbest
  have hmem (a : Sample Binary64) : a ∈ samples ↔ a = best ∨ a ∈ rest := by
    rw [← (perm_ofList samples).mem_iff, hsort, List.mem_cons]
  have hsorted := pairwise_tier samples
  rw [hsort] at hsorted
  refine ⟨(hmem best).2 (.inl rfl), fun a ha => ?_⟩
  rcases (hmem a).1 ha with rfl | ha
  · exact Nat.le_refl _
  · exact List.rel_of_pairwise_cons hsorted ha

/-- The best sample has an undefined energy if one of the samples has one with the sign set, or if
none has a number. -/
theorem isNaN_first?_iff {best : Sample Binary64} (hbest : (ofList samples).first? = some best) :
    best.energy.isNaN = true ↔
      (∃ a ∈ samples, a.energy.isNaN = true ∧ a.energy.isNegative = true) ∨
        ∀ a ∈ samples, a.energy.isNaN = true := by
  obtain ⟨hmem, hleast⟩ := tier_first? hbest
  constructor
  · intro hNaN
    cases hsign : best.energy.isNegative with
    | true => exact .inl ⟨best, hmem, hNaN, hsign⟩
    | false =>
      -- the best sample is in the highest tier, and so are all
      refine .inr fun a ha => (Binary64.tier_eq_two_iff.1 ?_).1
      have hbest2 := Binary64.tier_eq_two_iff.2 ⟨hNaN, hsign⟩
      have hle := hleast a ha
      have htop := a.energy.tier_le_two
      omega
  · rintro (⟨a, ha, hlowest⟩ | hall)
    · have hle := hleast a ha
      rw [Binary64.tier_eq_zero_iff.2 hlowest] at hle
      exact (Binary64.tier_eq_zero_iff.1 (Nat.le_zero.1 hle)).1
    · exact hall best hmem

/-- Undefined energies with the sign set come first, then the numbers, then the undefined energies
without it.  So the best sample has no number exactly if some energy is undefined with the sign
set, or none is a number; and where no undefined energy has the sign set, every number comes
before every undefined energy, and the best sample has a number if any sample has. -/
theorem ofList_undefined (samples : List (Sample Binary64)) :
    (ofList samples).samples.Pairwise (fun a b => a.energy.tier ≤ b.energy.tier) ∧
    (∀ best, (ofList samples).first? = some best → (best.energy.isNaN = true ↔
      (∃ a ∈ samples, a.energy.isNaN = true ∧ a.energy.isNegative = true) ∨
        ∀ a ∈ samples, a.energy.isNaN = true)) ∧
    ((∀ a ∈ samples, a.energy.isNaN = true → a.energy.isNegative = false) →
      (ofList samples).samples.Pairwise
        (fun a b => ¬(a.energy.isNaN = true ∧ b.energy.isNaN = false)) ∧
      ((∃ a ∈ samples, a.energy.isNaN = false) →
        ∃ best, (ofList samples).first? = some best ∧ best.energy.isNaN = false)) := by
  refine ⟨pairwise_tier samples, fun best hbest => isNaN_first?_iff hbest, fun hsign => ⟨?_, ?_⟩⟩
  · refine (pairwise_tier samples).imp_of_mem fun {a b} ha _ htier => ?_
    rintro ⟨hNaN, hnumber⟩
    have ha2 := Binary64.tier_eq_two_iff.2 ⟨hNaN, hsign a ((perm_ofList samples).mem_iff.1 ha) hNaN⟩
    have hb1 := Binary64.tier_eq_one_iff.2 hnumber
    omega
  · rintro ⟨a, ha, hnumber⟩
    have hne : (ofList samples).first? ≠ none := fun h =>
      List.ne_nil_of_mem ha (first?_ofList_eq_none.1 h)
    obtain ⟨best, hbest⟩ := Option.ne_none_iff_exists'.1 hne
    refine ⟨best, hbest, Bool.eq_false_of_not_eq_true fun hNaN => ?_⟩
    rcases (isNaN_first?_iff hbest).1 hNaN with ⟨b, hb, hbNaN, hbsign⟩ | hall
    · rw [hsign b hb hbNaN] at hbsign
      cases hbsign
    · rw [hall a ha] at hnumber
      cases hnumber

/-- An undefined energy without the sign stays behind a number. -/
theorem ofList_undefined_unsigned :
    let samples : List (Sample Binary64) := [⟨⟨[0]⟩, ⟨0x7ff8000000000000⟩⟩, ⟨⟨[1]⟩, 0⟩]
    (∀ a ∈ samples, a.energy.isNaN = true → a.energy.isNegative = false) ∧
      (∃ a ∈ samples, a.energy.isNaN = false) ∧
      ∃ best, (ofList samples).first? = some best ∧ best.energy.isNaN = false := by
  intro samples
  have hsign : ∀ a ∈ samples, a.energy.isNaN = true → a.energy.isNegative = false := by
    simp only [samples, List.forall_mem_cons]
    exact ⟨by decide, by decide, fun a ha => absurd ha List.not_mem_nil⟩
  have hnumber : ∃ a ∈ samples, a.energy.isNaN = false :=
    ⟨⟨⟨[1]⟩, 0⟩, by simp [samples], by decide⟩
  exact ⟨hsign, hnumber, ((ofList_undefined samples).2.2 hsign).2 hnumber⟩

/-- An undefined energy with the sign set is preferred to zero. -/
theorem undefined_preferred :
    let samples : List (Sample Binary64) := [⟨⟨[0]⟩, 0⟩, ⟨⟨[1]⟩, ⟨0xfff8000000000000⟩⟩]
    (∃ a ∈ samples, a.energy.isNaN = false) ∧
      (ofList samples).samples = samples.reverse ∧
      ∃ best, (ofList samples).first? = some best ∧ best.energy.isNaN = true := by
  intro samples
  have hsorted : (ofList samples).samples = samples.reverse := by cbv
  refine ⟨⟨⟨⟨[0]⟩, 0⟩, by simp [samples], by decide⟩, hsorted, ⟨⟨[1]⟩, ⟨0xfff8000000000000⟩⟩, ?_,
    by decide⟩
  rw [first?, hsorted]
  rfl

end QuboProbe.SampleSet
