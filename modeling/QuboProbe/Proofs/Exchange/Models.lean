/-
  QuboProbe.Proofs.Exchange.Models

  Models, samples and settings survive an exchange exactly when their floats
  are finite (`exchange_of_floats`).  What is not finite is written as `null`,
  and since every shape asks for all its parts, one `null` is enough to refuse
  the whole text.

  Whether the literal of a finite float is read back is a matter of the float
  alone (`Binary64.ReadsBack`): literals are scaled once, and so some with
  seventeen digits come back as a neighbour.
-/
import QuboProbe.Exchange.Models
import QuboProbe.Exchange.Samples
import QuboProbe.Exchange.Settings
import QuboProbe.Proofs.Decimal.Literals
import QuboProbe.Proofs.Exchange.Values

namespace QuboProbe

/-- The literal that is written for a number is read as that number. -/
def Binary64.ReadsBack (x : Binary64) : Prop := (x.numeral .exchange .even).toBinary64? = some x

instance : DecidablePred Binary64.ReadsBack := fun x =>
  inferInstanceAs (Decidable ((x.numeral .exchange .even).toBinary64? = some x))

namespace Json

/-- In a shape, a tree stands for a value with these floats: it is read as the value if they are
finite and read back, and not at all if one of them is not finite. -/
structure Carries {β : Type} (shape : Json → Option β) (v : Json) (x : β)
    (floats : List Binary64) : Prop where
  written : v.Written
  reads : (∀ f ∈ floats, f.isFinite = true ∧ f.ReadsBack) → shape v = some x
  refuses : ∀ f ∈ floats, f.isFinite = false → shape v = none

/-- What a tree stands for, its text stands for. -/
theorem Carries.read?_text {β : Type} {shape : Json → Option β} {v : Json} {x : β}
    {floats : List Binary64} (h : Carries shape v x floats) :
    ((∀ f ∈ floats, f.isFinite = true ∧ f.ReadsBack) → read? shape v.text = some x) ∧
    ((∃ f ∈ floats, f.isFinite = false) → read? shape v.text = none) := by
  refine ⟨fun hfinite => Json.read?_text h.written (h.reads hfinite), fun ⟨f, hf, hinfinite⟩ => ?_⟩
  rw [read?, parse_text h.written, Option.bind_some, h.refuses f hf hinfinite]

/-! ## Shapes of leaves and lists -/

theorem index?_ofNat {n : Nat} (hn : n < 18446744073709551616) : (ofNat n).index? = some n :=
  natBelow?_ofNat hn

theorem uint64?_ofNat (n : UInt64) : (ofNat n.toNat).uint64? = some n := by
  rw [uint64?, index?_ofNat (UInt64.toNat_lt n), Option.map_some]
  exact congrArg some (UInt64.ofNat_toNat)

theorem carries_float (f : Binary64) : Carries float? (ofBinary64 f) f [f] where
  written := by
    rw [ofBinary64]
    by_cases hfinite : f.isFinite = true
    · rw [if_pos hfinite]
      exact .number (Binary64.standard_numeral .exchange .even hfinite)
    · rw [if_neg hfinite]
      exact .null
  reads h := by
    obtain ⟨hfinite, hback⟩ := h f List.mem_cons_self
    rw [ofBinary64, if_pos hfinite]
    exact hback
  refuses g hg hfinite := by
    obtain rfl := List.mem_singleton.1 hg
    rw [ofBinary64, if_neg (by rw [hfinite]; exact Bool.false_ne_true)]
    rfl

/-- One item that is refused refuses the list. -/
theorem list?_eq_none {β : Type} {shape : Json → Option β} {toItem : β → Json} {xs : List β} {x : β}
    (hx : x ∈ xs) (h : shape (toItem x) = none) : (ofList toItem xs).list? shape = none := by
  show (xs.map toItem).mapM shape = none
  induction xs with
  | nil => exact absurd hx List.not_mem_nil
  | cons y ys ih =>
    rw [List.map_cons, List.mapM_cons]
    rcases List.mem_cons.1 hx with rfl | hx
    · rw [h]
      rfl
    · rw [ih hx]
      cases shape (toItem y) <;> rfl

theorem Carries.list {β : Type} {shape : Json → Option β} {toItem : β → Json}
    {floats : β → List Binary64} (h : ∀ x, Carries shape (toItem x) x (floats x)) (xs : List β) :
    Carries (list? shape) (ofList toItem xs) xs (xs.flatMap floats) where
  written := written_ofList fun x _ => (h x).written
  reads hfinite := list?_ofList fun x hx =>
    (h x).reads fun f hf => hfinite f (List.mem_flatMap_of_mem hx hf)
  refuses f hf hfinite := by
    obtain ⟨x, hx, hf⟩ := List.mem_flatMap.1 hf
    exact list?_eq_none hx ((h x).refuses f hf hfinite)

end Json

/-! ## Tables and models -/

namespace Matrix

theorem ofList?_toList {α : Type} (m : Matrix α) :
    ofList? m.rows m.cols m.data.toList = some m := by
  rw [ofList?, dif_pos (by rw [Array.length_toList, m.size_eq])]

theorem dimensions?_array (rows cols : Json) :
    dimensions? (.array [rows, cols]) =
      match rows.index?, cols.index? with
      | some rows, some cols => some (rows, cols)
      | _, _ => none := rfl

/-- The dimensions are read if they are indices, as those of a table that fits are. -/
theorem dimensions?_ofNat {rows cols : Nat} (h : sizeFits rows cols = true) :
    dimensions? (.array [.ofNat rows, .ofNat cols]) = some (rows, cols) := by
  rw [sizeFits, decide_eq_true_eq] at h
  have hrows : max rows 1 * 1 ≤ max rows 1 * max cols 1 :=
    Nat.mul_le_mul_left _ (Nat.le_max_right cols 1)
  have hcols : 1 * max cols 1 ≤ max rows 1 * max cols 1 :=
    Nat.mul_le_mul_right _ (Nat.le_max_right rows 1)
  -- a dimension of zero does not count towards the size, but the other one still does
  rw [dimensions?_array, Json.index?_ofNat (n := rows) (by omega),
    Json.index?_ofNat (n := cols) (by omega)]

/-- Every one of the three fields must be well formed before any of them counts. -/
theorem ofJson?_record (version dimensions entries : Json) :
    ofJson? (.record [("v", version), ("dim", dimensions), ("data", entries)]) =
      if (version.byte? == some formatVersion && ((dimensions? dimensions).isSome &&
        ((entries? entries).isSome && true))) = true
      then ofFields? version dimensions entries else none := rfl

theorem carries_toJson {m : Matrix Binary64} (hfits : sizeFits m.rows m.cols = true) :
    Json.Carries ofJson? m.toJson m m.data.toList := by
  have hentries := Json.Carries.list Json.carries_float m.data.toList
  rw [List.flatMap_singleton'] at hentries
  have hversion := Json.byte?_ofNat formatVersion
  have hdimensions := dimensions?_ofNat hfits
  refine ⟨?_, fun h => ?_, fun f hf h => ?_⟩
  · apply Json.written_record
    have hsize : (Json.array [.ofNat m.rows, .ofNat m.cols]).Written := by
      refine .array ?_
      simpa using ⟨Json.written_ofNat m.rows, Json.written_ofNat m.cols⟩
    simpa using ⟨Json.written_ofNat formatVersion.toNat, hsize, hentries.written⟩
  · have hread : entries? (.ofList .ofBinary64 m.data.toList) = some m.data.toList :=
      hentries.reads h
    rw [toJson, ofJson?_record, ofFields?, hversion, hdimensions, hread, beq_self_eq_true]
    show (if formatVersion = formatVersion ∧ sizeFits m.rows m.cols = true then
      ofList? m.rows m.cols m.data.toList else none) = some m
    rw [if_pos ⟨rfl, hfits⟩, ofList?_toList]
  · have hrefused : entries? (.ofList .ofBinary64 m.data.toList) = none :=
      hentries.refuses f hf h
    rw [toJson, ofJson?_record, hrefused, Option.isSome_none, Bool.false_and, Bool.and_false,
      Bool.and_false, if_neg Bool.false_ne_true]

end Matrix

namespace Qubo

/-- The offset and the entries, row after row. -/
def floats (q : Qubo Binary64) : List Binary64 := q.matrix.data.toList ++ [q.offset]

theorem ofJson?_record (matrix offset : Json) :
    ofJson? (.record [("matrix", matrix), ("offset", offset)]) =
      match Matrix.ofJson? matrix, offset.float? with
      | some matrix, some offset => some ⟨matrix, offset⟩
      | _, _ => none := rfl

theorem carries_toJson {q : Qubo Binary64}
    (hfits : Matrix.sizeFits q.matrix.rows q.matrix.cols = true) :
    Json.Carries ofJson? q.toJson q q.floats := by
  have hmatrix := Matrix.carries_toJson hfits
  have hoffset := Json.carries_float q.offset
  refine ⟨?_, fun h => ?_, fun f hf h => ?_⟩
  · apply Json.written_record
    simpa using ⟨hmatrix.written, hoffset.written⟩
  · rw [floats, List.forall_mem_append] at h
    rw [toJson, ofJson?_record, hmatrix.reads h.1, hoffset.reads h.2]
  · rw [toJson, ofJson?_record]
    -- the offset is refused whatever came of the matrix
    rcases List.mem_append.1 hf with hf | hf
    · rw [hmatrix.refuses f hf h]
    · rw [hoffset.refuses f hf h]
      cases Matrix.ofJson? q.matrix.toJson <;> rfl

end Qubo

/-! ## Samples -/

theorem Sample.ofJson?_record (bits energy : Json) :
    ofJson? (.record [("bits", bits), ("energy", energy)]) =
      match BitString.ofJson? bits, energy.float? with
      | some bits, some energy => some ⟨bits, energy⟩
      | _, _ => none := rfl

theorem Sample.carries_toJson (s : Sample Binary64) :
    Json.Carries ofJson? s.toJson s [s.energy] := by
  have hbits := s.bits.ofJson?_toJson
  have henergy := Json.carries_float s.energy
  refine ⟨?_, fun h => ?_, fun f hf h => ?_⟩
  · apply Json.written_record
    simpa using ⟨s.bits.written_toJson, henergy.written⟩
  · rw [toJson, ofJson?_record, hbits, henergy.reads h]
  · rw [toJson, ofJson?_record, hbits, henergy.refuses f hf h]

namespace SampleSet

/-- The energies, in the order of the samples. -/
def floats (s : SampleSet Binary64) : List Binary64 := s.samples.flatMap fun x => [x.energy]

theorem ofJson?_record (samples : Json) :
    ofJson? (.record [("samples", samples)]) =
      (samples.list? Sample.ofJson?).map SampleSet.mk := rfl

theorem carries_toJson (s : SampleSet Binary64) : Json.Carries ofJson? s.toJson s s.floats := by
  have hsamples := Json.Carries.list Sample.carries_toJson s.samples
  refine ⟨?_, fun h => ?_, fun f hf h => ?_⟩
  · apply Json.written_record
    simpa using hsamples.written
  · rw [toJson, ofJson?_record, hsamples.reads h, Option.map_some]
  · rw [toJson, ofJson?_record, hsamples.refuses f hf h, Option.map_none]

end SampleSet

/-! ## Settings -/

namespace Tolerance

/-- The bounds of an approximate comparison. -/
def floats : Tolerance Binary64 → List Binary64
  | .exact => []
  | .approx epsilon maxRelative => [epsilon] ++ [maxRelative]
  | .auto => []

theorem ofJson?_record (epsilon maxRelative : Json) :
    ofJson? (.record [("Approx",
        .record [("epsilon", epsilon), ("max_relative", maxRelative)])]) =
      match epsilon.float?, maxRelative.float? with
      | some epsilon, some maxRelative => some (.approx epsilon maxRelative)
      | _, _ => none := rfl

theorem carries_toJson (t : Tolerance Binary64) : Json.Carries ofJson? t.toJson t t.floats := by
  cases t with
  | exact => exact ⟨.string "Exact", fun _ => rfl, fun _ hf => absurd hf List.not_mem_nil⟩
  | auto => exact ⟨.string "Auto", fun _ => rfl, fun _ hf => absurd hf List.not_mem_nil⟩
  | approx epsilon maxRelative =>
    have hepsilon := Json.carries_float epsilon
    have hrelative := Json.carries_float maxRelative
    refine ⟨?_, fun h => ?_, fun f hf h => ?_⟩
    · apply Json.written_record
      have hbounds : (Json.record [("epsilon", Json.ofBinary64 epsilon),
          ("max_relative", Json.ofBinary64 maxRelative)]).Written :=
        Json.written_record (by simpa using ⟨hepsilon.written, hrelative.written⟩)
      simpa using hbounds
    · rw [floats, List.forall_mem_append] at h
      rw [toJson, ofJson?_record, hepsilon.reads h.1, hrelative.reads h.2]
    · rw [toJson, ofJson?_record]
      rcases List.mem_append.1 hf with hf | hf
      · rw [hepsilon.refuses f hf h]
      · rw [hrelative.refuses f hf h]
        cases (Json.ofBinary64 epsilon).float? <;> rfl

end Tolerance

/-- Counts that a word of 64 bits holds. -/
def Effort.Counted (e : Effort Binary64) : Prop :=
  e.randomSamples < 18446744073709551616 ∧ e.exhaustiveLimit < 18446744073709551616

theorem Effort.ofJson?_record (randomSamples seed exhaustiveLimit tolerance : Json) :
    ofJson? (.record [("random_samples", randomSamples), ("seed", seed),
        ("exhaustive_limit", exhaustiveLimit), ("tolerance", tolerance)]) =
      match randomSamples.index?, seed.uint64?, exhaustiveLimit.index?,
        Tolerance.ofJson? tolerance with
      | some randomSamples, some seed, some exhaustiveLimit, some tolerance =>
        some ⟨randomSamples, seed, exhaustiveLimit, tolerance⟩
      | _, _, _, _ => none := rfl

theorem Effort.carries_toJson {e : Effort Binary64} (he : e.Counted) :
    Json.Carries ofJson? e.toJson e e.tolerance.floats := by
  have htolerance := e.tolerance.carries_toJson
  have hrandom := Json.index?_ofNat he.1
  have hlimit := Json.index?_ofNat he.2
  have hseed := Json.uint64?_ofNat e.seed
  refine ⟨?_, fun h => ?_, fun f hf h => ?_⟩
  · apply Json.written_record
    simpa using ⟨Json.written_ofNat e.randomSamples, Json.written_ofNat e.seed.toNat,
      Json.written_ofNat e.exhaustiveLimit, htolerance.written⟩
  · rw [toJson, ofJson?_record, hrandom, hseed, hlimit, htolerance.reads h]
  · rw [toJson, ofJson?_record, hrandom, hseed, hlimit, htolerance.refuses f hf h]

namespace Settings

/-- Counts that a word of 64 bits holds. -/
def Counted (s : Settings Binary64) : Prop :=
  s.workers < 18446744073709551616 ∧ s.validation.Counted

/-- The bounds of the tolerance. -/
def floats (s : Settings Binary64) : List Binary64 := s.validation.tolerance.floats

theorem ofJson?_record (parallel workers validation : Json) :
    ofJson? (.record [("parallel", parallel), ("num_threads", workers),
        ("validation", validation)]) =
      match parallel.bool?, workers.index?, Effort.ofJson? validation with
      | some parallel, some workers, some validation => some ⟨parallel, workers, validation⟩
      | _, _, _ => none := rfl

theorem carries_toJson {s : Settings Binary64} (hs : s.Counted) :
    Json.Carries ofJson? s.toJson s s.floats := by
  have heffort := Effort.carries_toJson hs.2
  have hworkers := Json.index?_ofNat hs.1
  have hparallel : (Json.bool s.parallel).bool? = some s.parallel := rfl
  refine ⟨?_, fun h => ?_, fun f hf h => ?_⟩
  · apply Json.written_record
    simpa using ⟨Json.Written.bool s.parallel, Json.written_ofNat s.workers, heffort.written⟩
  · rw [toJson, ofJson?_record, hparallel, hworkers, heffort.reads h]
  · rw [toJson, ofJson?_record, hparallel, hworkers, heffort.refuses f hf h]

end Settings

/-- Exchange is exact on the models, samples and settings whose floats are finite and have literals
that are read back: they are read from their text as they were, each zero with its sign and the
samples in their order.  The text of one with a float that is not finite is refused.  Tables have
sizes, and settings have counts, as memory holds them. -/
theorem exchange_of_floats :
    (∀ q : Qubo Binary64, Matrix.sizeFits q.matrix.rows q.matrix.cols = true →
      ((∀ f ∈ q.floats, f.isFinite = true ∧ f.ReadsBack) →
        Json.read? Qubo.ofJson? q.toJson.text = some q) ∧
      ((∃ f ∈ q.floats, f.isFinite = false) →
        Json.read? Qubo.ofJson? q.toJson.text = none)) ∧
    (∀ s : SampleSet Binary64,
      ((∀ f ∈ s.floats, f.isFinite = true ∧ f.ReadsBack) →
        Json.read? SampleSet.ofJson? s.toJson.text = some s) ∧
      ((∃ f ∈ s.floats, f.isFinite = false) →
        Json.read? SampleSet.ofJson? s.toJson.text = none)) ∧
    ∀ s : Settings Binary64, s.Counted →
      ((∀ f ∈ s.floats, f.isFinite = true ∧ f.ReadsBack) →
        Json.read? Settings.ofJson? s.toJson.text = some s) ∧
      ((∃ f ∈ s.floats, f.isFinite = false) →
        Json.read? Settings.ofJson? s.toJson.text = none) :=
  ⟨fun _ hfits => (Qubo.carries_toJson hfits).read?_text,
    fun s => s.carries_toJson.read?_text,
    fun _ hcounted => (Settings.carries_toJson hcounted).read?_text⟩

/-- A negative zero, a tenth and the least positive number are read back.  An undefined offset, an
infinite energy and an infinite bound are refused. -/
theorem exchange_of_floats_extremes :
    (let q : Qubo Binary64 := ⟨⟨1, 2, #[⟨0x8000000000000000⟩, ⟨0x3fb999999999999a⟩], rfl⟩, ⟨1⟩⟩;
      Json.read? Qubo.ofJson? q.toJson.text = some q) ∧
    (let q : Qubo Binary64 := ⟨⟨0, 3, #[], rfl⟩, ⟨0x7ff8000000000000⟩⟩;
      Json.read? Qubo.ofJson? q.toJson.text = none) ∧
    (let s : SampleSet Binary64 := ⟨[⟨⟨[1, 0]⟩, 1⟩, ⟨⟨[7]⟩, ⟨0xbff8000000000000⟩⟩]⟩;
      Json.read? SampleSet.ofJson? s.toJson.text = some s) ∧
    (let s : SampleSet Binary64 := ⟨[⟨⟨[]⟩, 0⟩, ⟨⟨[1]⟩, ⟨0xfff0000000000000⟩⟩]⟩;
      Json.read? SampleSet.ofJson? s.toJson.text = none) ∧
    (let s : Settings Binary64 := ⟨true, 0, ⟨1000, 0xffffffffffffffff, 12, .approx 0 1⟩⟩;
      Json.read? Settings.ofJson? s.toJson.text = some s) ∧
    (let s : Settings Binary64 := ⟨false, 8, ⟨0, 0, 0, .approx 0 ⟨0x7ff0000000000000⟩⟩⟩;
      Json.read? Settings.ofJson? s.toJson.text = none) :=
  ⟨(exchange_of_floats.1 _ (by decide)).1 (by decide +kernel),
    (exchange_of_floats.1 _ (by decide)).2 (by decide +kernel),
    (exchange_of_floats.2.1 _).1 (by decide +kernel),
    (exchange_of_floats.2.1 _).2 (by decide +kernel),
    (exchange_of_floats.2.2 _ ⟨by decide, by decide, by decide⟩).1 (by decide +kernel),
    (exchange_of_floats.2.2 _ ⟨by decide, by decide, by decide⟩).2 (by decide +kernel)⟩

end QuboProbe
