/-
  QuboProbe.Proofs.SampleSet

  The best of scored candidates.  Sorting is stable, so the first of the sorted
  samples is the earliest of those with the least energy
  (`SampleSet.first?_ofList`).  For a quadratic objective the energies are the
  values of the objective, and so the first sample is decoded to an optimum of
  it among the candidates; if all strings of zeros and ones are among these,
  nothing that can be encoded is better (`decodeFirst_optimal`), except in the
  eyes of an objective that tells valuations with the same bindings apart.
-/
import QuboProbe.SampleSet
import QuboProbe.Proofs.Compile.QuadraticPart
import QuboProbe.Proofs.Layout.RoundTrip
import QuboProbe.Proofs.Ranking
import QuboProbe.Proofs.Validate.Exhaustive

namespace QuboProbe

/-! ## The first of the least -/

section

variable {β γ : Type} {cost : β → ℚ} {xs : List β} {x y : β}

/-- An entry of least cost, and the first of these: those before it cost more. -/
def FirstLeast (cost : β → ℚ) (xs : List β) (x : β) : Prop :=
  ∃ before after, xs = before ++ x :: after ∧ (∀ y ∈ before, cost x < cost y) ∧
    ∀ y ∈ after, cost x ≤ cost y

namespace FirstLeast

theorem mem (h : FirstLeast cost xs x) : x ∈ xs := by
  obtain ⟨before, after, rfl, -, -⟩ := h
  exact List.mem_append_right before List.mem_cons_self

theorem le (h : FirstLeast cost xs x) (hy : y ∈ xs) : cost x ≤ cost y := by
  obtain ⟨before, after, rfl, hbefore, hafter⟩ := h
  rcases List.mem_append.1 hy with hy | hy
  · exact (hbefore y hy).le
  · rcases List.mem_cons.1 hy with rfl | hy
    · exact le_refl _
    · exact hafter y hy

theorem of_map {f : γ → β} {zs : List γ} (h : FirstLeast cost (zs.map f) x) :
    ∃ z, x = f z ∧ FirstLeast (cost ∘ f) zs z := by
  obtain ⟨before, after, heq, hbefore, hafter⟩ := h
  obtain ⟨zs₁, zs₂, rfl, rfl, hrest⟩ := List.map_eq_append_iff.1 heq
  obtain ⟨z, zs₃, rfl, rfl, rfl⟩ := List.map_eq_cons_iff.1 hrest
  exact ⟨z, rfl, zs₁, zs₃, rfl, fun y hy => hbefore _ (List.mem_map_of_mem hy),
    fun y hy => hafter _ (List.mem_map_of_mem hy)⟩

end FirstLeast

end

namespace SampleSet

/-! ## Sorting -/

instance : Std.TransCmp (Scalar.rank : ℚ → ℚ → Ordering) :=
  inferInstanceAs (Std.TransCmp (compare : ℚ → ℚ → Ordering))

/-- Rational energies are ranked by size. -/
theorem atLeastAsGood_iff {a b : Sample ℚ} : atLeastAsGood a b = true ↔ a.energy ≤ b.energy := by
  rw [atLeastAsGood, Ordering.isLE_iff_ne_gt]
  exact compare_le_iff_le

/-- The best of samples is the first of those with the least energy. -/
theorem first?_ofList {samples : List (Sample ℚ)} (hsamples : samples ≠ []) :
    ∃ m, (ofList samples).first? = some m ∧ FirstLeast Sample.energy samples m := by
  obtain ⟨m, hm⟩ := Option.ne_none_iff_exists'.1 fun h => hsamples (first?_ofList_eq_none.1 h)
  obtain ⟨before, after, hsplit, hbefore, hafter⟩ := foremost_of_first? hm
  refine ⟨m, hm, before, after, hsplit, fun y hy => ?_, fun y hy => ?_⟩
  · have hnot := hbefore y hy
    rw [← Bool.not_eq_true, atLeastAsGood_iff] at hnot
    exact not_le.1 hnot
  · exact atLeastAsGood_iff.1 (hafter y hy)

/-! ## Scoring -/

variable {q : Qubo ℚ} {g : BitString → ℚ} {candidates : List BitString}

/-- Candidates that a model scores with the values of a function: the best is the first of those
with the least value. -/
theorem first?_score (hne : candidates ≠ [])
    (hq : ∀ x ∈ candidates, q.energy x.bytes = .ok (g x)) :
    ∃ set x, score q candidates = .ok set ∧ set.first? = some ⟨x, g x⟩ ∧
      FirstLeast g candidates x := by
  have hsamples : candidates.map (fun x => (⟨x, g x⟩ : Sample ℚ)) ≠ [] := fun h =>
    hne (List.map_eq_nil_iff.1 h)
  obtain ⟨m, hm, hleast⟩ := first?_ofList hsamples
  obtain ⟨x, rfl, hx⟩ := hleast.of_map
  refine ⟨_, x, ?_, hm, hx⟩
  rw [score, energies_eq_ok hq]
  rfl

end SampleSet

/-! ## Optima of objectives -/

variable {ε : Type} [Cause ε]

/-- Candidates scored by the model of a quadratic objective: the best is the earliest at which the
objective is least. -/
theorem score_compile (s : Settings ℚ) {f : Objective ε ℚ} {l : Layout} {g : BitString → ℚ}
    (hg : ∀ x : BitString, x.Binary l.size → ∃ a, l.decode x.bytes = .ok a ∧ f a = .ok (g x))
    (hdegree : Multilinear 2 l.size g) :
    ∃ c, (compile s f l).result = .ok c ∧
      ∀ candidates : List BitString, candidates ≠ [] → (∀ x ∈ candidates, x.Binary l.size) →
        ∃ set x a, SampleSet.score c.qubo candidates = .ok set ∧ FirstLeast g candidates x ∧
          l.decode x.bytes = .ok a ∧ f a = .ok (g x) ∧ set.decodeFirst? l = some (.ok a) := by
  have henergy := (PseudoBoolean.energy_modelOf_eq_iff g l.size).2
    (moebius_eq_zero_iff_multilinear.2 hdegree)
  refine ⟨_, compile_of_values hg s, fun candidates hne hbinary => ?_⟩
  obtain ⟨set, x, hscore, hfirst, hleast⟩ :=
    SampleSet.first?_score hne fun y hy => henergy y (hbinary y hy)
  obtain ⟨a, ha, hfa⟩ := hg x (hbinary x hleast.mem)
  refine ⟨set, x, a, hscore, hleast, ha, hfa, ?_⟩
  rw [SampleSet.decodeFirst?, hfirst, Option.map_some, ha]

/-- A quadratic objective is compiled, and any candidates are scored by the model.  The best of them
is the earliest at which the objective is least; it is decoded, and its value is no greater than
that of any other candidate.  If the candidates contain all strings of zeros and ones and the
encodings are lawful, the best is encoded as itself, and nothing that can be encoded is better: what
a valuation is encoded as is decoded to one that binds the same names to the same values and is no
better, and so neither is the valuation itself, unless the objective tells the two apart. -/
theorem decodeFirst_optimal (s : Settings ℚ) (f : Objective ε ℚ) (l : Layout) (g : BitString → ℚ)
    (hg : ∀ x : BitString, x.Binary l.size → ∃ a, l.decode x.bytes = .ok a ∧ f a = .ok (g x))
    (hdegree : Multilinear 2 l.size g) :
    ∃ c, (compile s f l).result = .ok c ∧
      ∀ candidates : List BitString, candidates ≠ [] → (∀ x ∈ candidates, x.Binary l.size) →
        ∃ set x a, SampleSet.score c.qubo candidates = .ok set ∧
          FirstLeast g candidates x ∧ l.decode x.bytes = .ok a ∧ f a = .ok (g x) ∧
          set.decodeFirst? l = some (.ok a) ∧
          (∀ y ∈ candidates, ∃ b, l.decode y.bytes = .ok b ∧ f b = .ok (g y) ∧ g x ≤ g y) ∧
          ((l.Built fun e width => e.Lawful width) →
            (∀ y : BitString, y.Binary l.size → y ∈ candidates) →
            l.encode a = .ok x ∧
            ∀ b y, l.encode b = .ok y →
              ∃ b', l.decode y.bytes = .ok b' ∧ b'.names.Nodup ∧ (∀ n, b'.get? n = b.get? n) ∧
                f b' = .ok (g y) ∧ g x ≤ g y ∧
                (f b = f b' → ∃ w, f b = .ok w ∧ g x ≤ w)) := by
  obtain ⟨c, hc, hbest⟩ := score_compile s hg hdegree
  refine ⟨c, hc, fun candidates hne hbinary => ?_⟩
  obtain ⟨set, x, a, hscore, hleast, ha, hfa, hfirst⟩ := hbest candidates hne hbinary
  refine ⟨set, x, a, hscore, hleast, ha, hfa, hfirst, fun y hy => ?_, fun hl hall => ?_⟩
  · obtain ⟨b, hb, hfb⟩ := hg y (hbinary y hy)
    exact ⟨b, hb, hfb, hleast.le hy⟩
  · have hlawful : l.Lawful := fun v hv => (hl.of_mem hv).1
    refine ⟨?_, fun b y henc => ?_⟩
    · obtain ⟨a', ha', henc⟩ := Layout.encode_decode hl.wellFormed hlawful (hbinary x hleast.mem)
      rwa [Except.ok.inj (ha.symm.trans ha')]
    · -- what is encoded is a candidate, which is decoded to the same bindings
      obtain ⟨hy, b', hb', hget⟩ := Layout.decode_encode hl.wellFormed hlawful henc
      have hfb' : f b' = .ok (g y) := by
        obtain ⟨b'', hb'', hvalue⟩ := hg y hy
        rwa [Except.ok.inj (hb'.symm.trans hb'')]
      have hle : g x ≤ g y := hleast.le (hall y hy)
      exact ⟨b', hb', Layout.nodup_names_decode hb', hget, hfb', hle,
        fun hsame => ⟨g y, hsame.trans hfb', hle⟩⟩

/-- The square of a number of two bits less three times the number, which is least at one and at
two, over all strings. -/
theorem decodeFirst_optimal_parabola :
    let l : Layout := ⟨[⟨"x", .unsigned, 2, 0⟩], 2⟩
    let value : Int64 → ℚ := fun v => (v.toInt : ℚ) ^ 2 - 3 * v.toInt
    let f : Objective CodingError ℚ := fun a => (a.int "x").map value
    let g : BitString → ℚ := fun x => value (Int64.ofInt (Field.toNat x.bytes))
    let candidates := (Validate.everyString l.size).toList
    (∀ x : BitString, x.Binary l.size → ∃ a, l.decode x.bytes = .ok a ∧ f a = .ok (g x)) ∧
      Multilinear 2 l.size g ∧ candidates ≠ [] ∧
      (∀ x ∈ candidates, x.Binary l.size) ∧ (∀ x : BitString, x.Binary l.size → x ∈ candidates) ∧
      (l.Built fun e width => e.Lawful width) ∧
      ∃ c set a w, (compile (.standard 4) f l).result = .ok c ∧
        SampleSet.score c.qubo candidates = .ok set ∧ set.decodeFirst? l = some (.ok a) ∧
        f a = .ok w ∧ ∀ b y, l.encode b = .ok y → ∃ w', f b = .ok w' ∧ w ≤ w' := by
  intro l value f g candidates
  have hg (x : BitString) (hx : x.Binary l.size) :
      ∃ a, l.decode x.bytes = .ok a ∧ f a = .ok (g x) :=
    ⟨_, Layout.decode_single hx.length_eq, rfl⟩
  have hdegree : Multilinear 2 l.size g := multilinear_of_le le_rfl g
  have hne : candidates ≠ [] := Validate.everyString_ne_nil l.size
  have hbinary : ∀ x ∈ candidates, x.Binary l.size := fun _ => Validate.mem_everyString.1
  have hall : ∀ x : BitString, x.Binary l.size → x ∈ candidates :=
    fun _ => Validate.mem_everyString.2
  have hl : l.Built fun e width => e.Lawful width := by
    have h : Layout.empty.add "x" .unsigned 2 = .ok l := rfl
    exact .add .empty (Encoding.unsigned_lawful rfl) h
  obtain ⟨c, hc, hbest⟩ := decodeFirst_optimal (.standard 4) f l g hg hdegree
  obtain ⟨set, x, a, hscore, -, -, hfa, hfirst, -, hleast⟩ :=
    hbest candidates hne hbinary
  refine ⟨hg, hdegree, hne, hbinary, hall, hl, c, set, a, g x, hc, hscore, hfirst, hfa,
    fun b y henc => ?_⟩
  -- the objective looks at nothing but what the name is bound to
  obtain ⟨b', -, -, hget, -, -, hsame⟩ := (hleast hl hall).2 b y henc
  exact hsame (by simp only [f, Valuation.int, hget])

/-- An objective that looks at the order of the names.  It is zero on whatever is decoded, and so on
the best of all strings, while a valuation that binds the second variable first can be encoded and
has a smaller value. -/
theorem decodeFirst_beaten_reordered :
    let l : Layout := ⟨[⟨"a", .unsigned, 1, 0⟩, ⟨"b", .unsigned, 1, 1⟩], 2⟩
    let f : Objective CodingError ℚ := fun a => .ok (if a.names.head? = some "b" then -1 else 0)
    let candidates := (Validate.everyString l.size).toList
    (l.Built fun e width => e.Lawful width) ∧
      (∀ x : BitString, x.Binary l.size → ∃ a, l.decode x.bytes = .ok a ∧ f a = .ok 0) ∧
      Multilinear 2 l.size (fun _ => 0) ∧ candidates ≠ [] ∧
      (∀ x ∈ candidates, x.Binary l.size) ∧ (∀ x : BitString, x.Binary l.size → x ∈ candidates) ∧
      (∃ c set a, (compile (.standard 4) f l).result = .ok c ∧
        SampleSet.score c.qubo candidates = .ok set ∧ set.decodeFirst? l = some (.ok a) ∧
        f a = .ok 0) ∧
      ∃ b y, l.encode b = .ok y ∧ f b = .ok (-1) := by
  intro l f candidates
  have hg (x : BitString) (hx : x.Binary l.size) :
      ∃ a, l.decode x.bytes = .ok a ∧ f a = .ok 0 := ⟨_, Layout.decode_eq_ok hx.length_eq, rfl⟩
  have hdegree : Multilinear 2 l.size (fun _ => 0) := multilinear_of_le le_rfl _
  have hne : candidates ≠ [] := Validate.everyString_ne_nil l.size
  have hbinary : ∀ x ∈ candidates, x.Binary l.size := fun _ => Validate.mem_everyString.1
  have hl : l.Built fun e width => e.Lawful width := by
    have ha : Layout.empty.add "a" .unsigned 1 = .ok ⟨[⟨"a", .unsigned, 1, 0⟩], 1⟩ := rfl
    have hb : (⟨[⟨"a", .unsigned, 1, 0⟩], 1⟩ : Layout).add "b" .unsigned 1 = .ok l := rfl
    exact .add (.add .empty (Encoding.unsigned_lawful rfl) ha) (Encoding.unsigned_lawful rfl) hb
  obtain ⟨c, hc, hbest⟩ := score_compile (.standard 4) hg hdegree
  obtain ⟨set, x, a, hscore, -, -, hfa, hfirst⟩ := hbest candidates hne hbinary
  exact ⟨hl, hg, hdegree, hne, hbinary, fun _ => Validate.mem_everyString.2,
    ⟨c, set, a, hc, hscore, hfirst, hfa⟩, ⟨[("b", .int 0), ("a", .int 0)]⟩, ⟨[0, 0]⟩, rfl, rfl⟩

end QuboProbe
