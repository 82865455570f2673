/-
  QuboProbe.Proofs.Exchange.Samples

  Sets of samples and the order in which they stand.  A set that is made of a
  list or of scored candidates is best first (`SampleSet.BestFirst`), and then
  its first sample has the least energy.  A set that is read has the samples of
  its text in the order of the text (`SampleSet.read?_eq_some_iff`); it is best
  first exactly if sorting would leave it alone (`SampleSet.bestFirst_iff`).
-/
import QuboProbe.Proofs.BestFirst
import QuboProbe.Proofs.Exchange.Models

namespace QuboProbe

namespace SampleSet

/-- No sample has less energy than one before it, in the total order of the bit patterns. -/
def BestFirst (s : SampleSet Binary64) : Prop :=
  s.samples.Pairwise fun a b => a.energy.totalKey ≤ b.energy.totalKey

theorem bestFirst_iff_atLeastAsGood {s : SampleSet Binary64} :
    s.BestFirst ↔ s.samples.Pairwise fun a b => atLeastAsGood a b = true := by
  simp only [BestFirst, Binary64.totalKey_le_iff, atLeastAsGood_iff_place]

theorem bestFirst_ofList (samples : List (Sample Binary64)) : (ofList samples).BestFirst :=
  bestFirst_iff_atLeastAsGood.2 (pairwise_ofList samples)

/-- The set is best first exactly if sorting leaves it alone. -/
theorem bestFirst_iff {s : SampleSet Binary64} : s.BestFirst ↔ ofList s.samples = s := by
  constructor
  · intro h
    rw [ofList, List.mergeSort_of_pairwise (bestFirst_iff_atLeastAsGood.1 h)]
  · intro h
    rw [← h]
    exact bestFirst_ofList s.samples

theorem bestFirst_score {q : Qubo Binary64} {candidates : List BitString}
    {s : SampleSet Binary64} (h : score q candidates = .ok s) : s.BestFirst := by
  rw [score] at h
  cases henergies : energies q candidates with
  | error e =>
    rw [henergies] at h
    cases h
  | ok samples =>
    rw [henergies] at h
    cases h
    exact bestFirst_ofList samples

/-- The first of a best first set has the least energy. -/
theorem BestFirst.first?_le {s : SampleSet Binary64} (h : s.BestFirst) {best : Sample Binary64}
    (hbest : s.first? = some best) :
    ∀ a ∈ s.samples, best.energy.totalKey ≤ a.energy.totalKey := by
  obtain ⟨rest, hsamples⟩ := List.head?_eq_some_iff.1 hbest
  rw [BestFirst, hsamples] at h
  rw [hsamples]
  exact List.forall_mem_cons.2 ⟨Int64.le_refl _, (List.pairwise_cons.1 h).1⟩

/-- What is read stands in the text, sample by sample and in the same order. -/
theorem read?_eq_some_iff {text : String} {s : SampleSet Binary64} :
    Json.read? ofJson? text = some s ↔
      ∃ v items, Json.parse text = some v ∧ v.fields? ["samples"] = some [.array items] ∧
        List.Forall₂ (fun item a => Sample.ofJson? item = some a) items s.samples := by
  have hshape (v : Json) : ofJson? v = some s ↔ ∃ items,
      v.fields? ["samples"] = some [.array items] ∧
        List.Forall₂ (fun item a => Sample.ofJson? item = some a) items s.samples := by
    rw [ofJson?]
    split
    · rename_i field hfields
      rw [Option.map_eq_some_iff]
      constructor
      · rintro ⟨samples, hsamples, rfl⟩
        obtain ⟨items, rfl, h⟩ := Json.list?_eq_some_iff.1 hsamples
        exact ⟨items, hfields, h⟩
      · rintro ⟨items, hitems, h⟩
        obtain rfl : field = .array items := by
          cases hfields.symm.trans hitems
          rfl
        exact ⟨s.samples, Json.list?_eq_some_iff.2 ⟨items, rfl, h⟩, rfl⟩
    · rename_i hnone
      exact iff_of_false nofun fun ⟨items, hitems, _⟩ => hnone _ hitems
  simp only [Json.read?, Option.bind_eq_some_iff, hshape, exists_and_left]

/-- A set that is made of samples, by scoring candidates or empty is best first, and so its first
sample, which is the one that is decoded, has the least energy.  A set that is read has the samples
of its text in the order of the text; every order is read, and the set is best first exactly if
sorting leaves it alone. -/
theorem obtained_bestFirst (s : SampleSet Binary64) :
    (∀ samples, ofList samples = s → s.BestFirst ∧ s.samples.Perm samples) ∧
    (∀ (q : Qubo Binary64) candidates, score q candidates = .ok s → s.BestFirst) ∧
    (s = empty → s.BestFirst) ∧
    (∀ text, Json.read? ofJson? text = some s ↔
      ∃ v items, Json.parse text = some v ∧ v.fields? ["samples"] = some [.array items] ∧
        List.Forall₂ (fun item a => Sample.ofJson? item = some a) items s.samples) ∧
    ((∀ a ∈ s.samples, a.energy.isFinite = true ∧ a.energy.ReadsBack) →
      Json.read? ofJson? s.toJson.text = some s) ∧
    (s.BestFirst ↔ ofList s.samples = s) ∧
    ∀ best, s.first? = some best → best ∈ s.samples ∧
      (∀ l, s.decodeFirst? l = some (l.decode best.bits.bytes)) ∧
      (s.BestFirst → ∀ a ∈ s.samples, best.energy.totalKey ≤ a.energy.totalKey) := by
  refine ⟨?_, fun q candidates => bestFirst_score, ?_, fun text => read?_eq_some_iff,
    fun hs => s.carries_toJson.read?_text.1 fun f hf => ?_, bestFirst_iff,
    fun best hbest => ⟨List.mem_of_head? hbest, fun l => ?_, fun h => h.first?_le hbest⟩⟩
  · rintro samples rfl
    exact ⟨bestFirst_ofList samples, perm_ofList samples⟩
  · rintro rfl
    exact List.Pairwise.nil
  · obtain ⟨a, ha, hfa⟩ := List.mem_flatMap.1 hf
    rw [List.mem_singleton.1 hfa]
    exact hs a ha
  · rw [decodeFirst?, hbest, Option.map_some]

/-- Two samples written in ascending order, and what is read of their text. -/
theorem obtained_bestFirst_ascending :
    let s : SampleSet Binary64 := ⟨[⟨⟨[0]⟩, 0⟩, ⟨⟨[1]⟩, 1⟩]⟩
    (∀ a ∈ s.samples, a.energy.isFinite = true ∧ a.energy.ReadsBack) ∧
      Json.read? ofJson? s.toJson.text = some s ∧ s.BestFirst ∧
      s.first? = some ⟨⟨[0]⟩, 0⟩ ∧ ∀ a ∈ s.samples, (0 : Binary64).totalKey ≤ a.energy.totalKey := by
  intro s
  obtain ⟨-, -, -, -, hread, hsorted, hfirst⟩ := obtained_bestFirst s
  have hfinite : ∀ a ∈ s.samples, a.energy.isFinite = true ∧ a.energy.ReadsBack := by
    decide +kernel
  have hbest : s.BestFirst := hsorted.2 (by cbv)
  exact ⟨hfinite, hread hfinite, hbest, rfl, (hfirst _ rfl).2.2 hbest⟩

/-- Samples in descending order are read from their text in that order: the first of them is not the
best, and it is the one that is decoded. -/
theorem descending_read :
    let s : SampleSet Binary64 := ⟨[⟨⟨[1]⟩, 1⟩, ⟨⟨[0]⟩, 0⟩]⟩
    Json.read? ofJson? s.toJson.text = some s ∧ ¬s.BestFirst ∧
      ∃ best, s.first? = some best ∧ ∃ a ∈ s.samples, a.energy.totalKey < best.energy.totalKey := by
  intro s
  have hread : Json.read? ofJson? s.toJson.text = some s :=
    s.carries_toJson.read?_text.1 (by decide +kernel)
  have hless : (0 : Binary64).totalKey < (1 : Binary64).totalKey := by decide +kernel
  have hfirst : s.first? = some ⟨⟨[1]⟩, 1⟩ := rfl
  refine ⟨hread, fun h => ?_, ⟨⟨[1]⟩, 1⟩, hfirst, ⟨⟨[0]⟩, 0⟩, ?_, hless⟩
  · have hle := h.first?_le hfirst ⟨⟨[0]⟩, 0⟩ (by simp [s])
    exact Int64.not_le.2 hless hle
  · simp [s]

end SampleSet

end QuboProbe
