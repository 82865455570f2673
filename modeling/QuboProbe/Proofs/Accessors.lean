/-
  QuboProbe.Proofs.Accessors

  Which models can be asked for everything.  Positions below the size of a
  model are rows of its table, and the accessors take them for columns as well;
  so all of them stay inside of the table exactly if it is square
  (`Qubo.safe_iff`).  A model that is compiled, made of a table or zero
  everywhere is square, and has nothing below its diagonal
  (`Qubo.Made.upperTriangular`).  A model that is read has the table of its text,
  whatever the shape (`Qubo.accessors_inside`).

  The accessors that walk over a table are taken through views that have no
  place outside of it: `Qubo.terms?` reads and `Qubo.spread?` writes.
-/
import QuboProbe.Proofs.Capacity
import QuboProbe.Proofs.Compile.Outcome
import QuboProbe.Proofs.Encoding.Words
import QuboProbe.Proofs.Exchange.Models
import QuboProbe.Proofs.Folding
import QuboProbe.Proofs.Ranking
import QuboProbe.Proofs.Terms

namespace QuboProbe

/-- Steps that may be refused, taken in turn: all are taken exactly if none is refused. -/
theorem foldlM_eq_ite {σ β : Type} {step? : σ → β → Option σ} {step : σ → β → σ}
    {Taken : β → Prop} [DecidablePred Taken] (Inv : σ → Prop)
    (hstep : ∀ s b, Inv s → step? s b = if Taken b then some (step s b) else none)
    (hinv : ∀ s b, Inv s → Inv (step s b)) {s : σ} (hs : Inv s) (bs : List β) :
    bs.foldlM step? s = if ∀ b ∈ bs, Taken b then some (bs.foldl step s) else none := by
  -- the state at the start is any that has the invariant
  induction bs generalizing s with
  | nil =>
    rw [if_pos fun b hb => absurd hb List.not_mem_nil]
    rfl
  | cons b bs ih =>
    rw [List.foldlM_cons, hstep s b hs, List.foldl_cons]
    simp only [List.forall_mem_cons]
    by_cases hb : Taken b
    · rw [if_pos hb, Option.bind_eq_bind, Option.bind_some, ih (hinv s b hs)]
      simp only [hb, true_and]
    · rw [if_neg hb, if_neg fun h => hb h.1]
      rfl

/-- Writes an entry at a place that the table has. -/
def Matrix.set? {α : Type} (m : Matrix α) (i j : Nat) (v : α) : Option (Matrix α) :=
  if i < m.rows ∧ j < m.cols then some (m.set i j v) else none

namespace Qubo

variable {α : Type}

/-! ## Reading -/

theorem linear?_isSome_iff (q : Qubo α) :
    (∀ i < q.size, (q.linear? i).isSome) ↔ q.matrix.rows ≤ q.matrix.cols := by
  simp only [linear?, Matrix.get?_isSome_iff]
  constructor
  · exact fun h => Nat.le_of_not_lt fun hlt => Nat.lt_irrefl _ (h q.matrix.cols hlt).2
  · exact fun h i hi => ⟨hi, Nat.lt_of_lt_of_le hi h⟩

theorem quadratic?_isSome_iff (q : Qubo α) :
    (∀ i j, i < q.size → j < q.size → (q.quadratic? i j).isSome) ↔
      q.matrix.rows ≤ q.matrix.cols := by
  constructor
  · intro h
    refine q.linear?_isSome_iff.1 fun i hi => ?_
    have hii := h i i hi hi
    rwa [quadratic?_eq_get?, Nat.min_self, Nat.max_self] at hii
  · intro h i j hi hj
    rw [quadratic?_eq_get?, Matrix.get?_isSome_iff]
    exact ⟨Nat.lt_of_le_of_lt (Nat.min_le_left i j) hi, Nat.lt_of_lt_of_le (Nat.max_lt.2 ⟨hi, hj⟩) h⟩

section

variable [Zero α] [BEq α]

/-- `terms`, through the view that has no entry outside of the table. -/
def terms? (q : Qubo α) : Option (List (Term α)) :=
  (q.matrix.places.mapM fun p => (q.matrix.get? p.1 p.2).map (Term.mk p.1 p.2)).map
    (·.filter fun t => decide (t.i ≤ t.j) && t.coefficient != 0)

/-- The terms are read inside of the table, whatever its shape. -/
theorem terms?_eq (q : Qubo α) : q.terms? = some q.terms := by
  have hread : ∀ p ∈ q.matrix.places, (q.matrix.get? p.1 p.2).map (Term.mk p.1 p.2) =
      some ⟨p.1, p.2, q.matrix.entry p.1 p.2⟩ := fun p hp => by
    obtain ⟨hi, hj⟩ := Matrix.mem_places.1 hp
    rw [Matrix.get?_eq_entry hi hj, Option.map_some]
  rw [terms?, mapM_eq_some_map hread, Option.map_some, List.filter_map]
  rfl

end

/-- Strings of the size of a model have an energy, whatever their bytes, exactly if it is square. -/
theorem energy_eq_ok_iff [Zero α] [Add α] (q : Qubo α) :
    (∀ x : BitString, x.length = q.size → ∃ e, q.energy x.bytes = .ok e) ↔
      q.matrix.rows = q.matrix.cols := by
  constructor
  · intro h
    obtain ⟨e, he⟩ := h (.zeros q.size) (BitString.length_zeros _)
    by_contra hne
    cases he.symm.trans (SampleSet.energy_of_not_fits fun hfits => hne hfits.1)
  · exact fun hsquare x hx => SampleSet.exists_energy ⟨hsquare, hx⟩

/-! ## Writing the symmetric table -/

/-- The symmetric table has all places that are written exactly if the model's table has no more
columns than rows, or no rows at all. -/
theorem written_lt_iff (q : Qubo α) :
    (∀ p ∈ q.matrix.places, ∀ p' ∈ written p, p'.1 < q.size ∧ p'.2 < q.size) ↔
      q.matrix.rows = 0 ∨ q.matrix.cols ≤ q.matrix.rows := by
  constructor
  · intro h
    by_contra hwide
    -- the first place of the first row that has no mirror image
    have hplace : (0, q.size) ∈ q.matrix.places :=
      Matrix.mem_places.2 ⟨by omega, by show q.matrix.rows < _; omega⟩
    have hself : (0, q.size) ∈ written (0, q.size) := mem_written.2 rfl
    exact Nat.lt_irrefl _ (h _ hplace _ hself).2
  · rintro hshape ⟨i, j⟩ hp p' hp'
    obtain ⟨hi, hj⟩ := Matrix.mem_places.1 hp
    have hj' : j < q.size := by show j < q.matrix.rows; omega
    have hupward := mem_written.1 hp'
    have hij : i ≤ j := by
      have hle := Matrix.upward_le p'
      rwa [hupward] at hle
    rcases (Matrix.upward_eq_iff hij).1 hupward with rfl | rfl
    · exact ⟨hi, hj'⟩
    · exact ⟨hj', hi⟩

section

variable [Zero α] [Scalar α]

/-- `spread`, through writes that are refused outside of the symmetric table. -/
def spread? (q : Qubo α) : Option (Matrix α) :=
  q.matrix.places.foldlM (fun symmetric p =>
    if p.1 = p.2 then symmetric.set? p.1 p.1 (q.matrix.entry p.1 p.1)
    else if p.1 < p.2 then do
      let symmetric ← symmetric.set? p.1 p.2 (Scalar.half (q.matrix.entry p.1 p.2))
      symmetric.set? p.2 p.1 (Scalar.half (q.matrix.entry p.1 p.2))
    else some symmetric) (.zeros q.size q.size)

/-- A table with more columns than rows has places that face none of the symmetric table. -/
theorem spread?_eq (q : Qubo α) :
    q.spread? = if q.matrix.rows = 0 ∨ q.matrix.cols ≤ q.matrix.rows then some q.spread
      else none := by
  simp only [← written_lt_iff]
  rw [spread?, spread]
  -- writes keep the shape of the table, so the places it has are the same at every step
  refine foldlM_eq_ite (fun symmetric => symmetric.rows = q.size ∧ symmetric.cols = q.size)
    ?_ ?_ ⟨rfl, rfl⟩ _
  · rintro symmetric ⟨i, j⟩ ⟨hrows, hcols⟩
    rcases Nat.lt_trichotomy i j with hij | rfl | hij
    · simp only [written, Nat.ne_of_lt hij, hij, if_false, if_true, Matrix.set?, hrows, hcols,
        List.forall_mem_cons, Prod.swap_prod_mk]
      by_cases h : i < q.size ∧ j < q.size
      · rw [if_pos h, Option.bind_eq_bind, Option.bind_some, Matrix.rows_set, Matrix.cols_set,
          hrows, hcols, if_pos h.symm,
          if_pos ⟨h, h.symm, fun p hp => absurd hp List.not_mem_nil⟩]
      · rw [if_neg h, if_neg fun h' => h h'.1]
        rfl
    · simp only [written, if_true, Matrix.set?, hrows, hcols, List.forall_mem_singleton]
    · simp only [written, Nat.ne_of_gt hij, Nat.lt_asymm hij, if_false, List.not_mem_nil,
        false_implies, implies_true, if_true]
  · rintro symmetric ⟨i, j⟩ hshape
    dsimp only
    split
    · rwa [Matrix.rows_set, Matrix.cols_set]
    · split
      · rwa [Matrix.rows_set, Matrix.cols_set, Matrix.rows_set, Matrix.cols_set]
      · exact hshape

/-- The symmetric table can be had if it is written and can be held. -/
theorem toSymmetric?_isSome_iff (q : Qubo α) :
    q.toSymmetric?.isSome ↔ q.spread?.isSome ∧ Matrix.fits q.size q.size = true := by
  have hsome : q.spread?.isSome ↔ q.matrix.rows = 0 ∨ q.matrix.cols ≤ q.matrix.rows := by
    rw [spread?_eq]
    split
    · exact iff_of_true rfl ‹_›
    · exact iff_of_false nofun ‹_›
  rw [hsome, toSymmetric?]
  split
  · rename_i hwide
    exact iff_of_false nofun fun h => by omega
  · rename_i hwide
    rw [and_iff_right (by omega)]
    split
    · exact iff_of_true rfl ‹_›
    · exact iff_of_false nofun ‹_›

end

/-! ## All of them -/

section

variable [Zero α] [Add α] [BEq α] [Scalar α]

/-- Whatever is asked about the bits of a model or of a string of its size has an answer. -/
structure Safe (q : Qubo α) : Prop where
  linear : ∀ i < q.size, (q.linear? i).isSome
  quadratic : ∀ i j, i < q.size → j < q.size → (q.quadratic? i j).isSome
  terms : q.terms?.isSome
  symmetric : q.spread?.isSome
  energy : ∀ x : BitString, x.length = q.size →
    ∃ e, q.matrix.energy? q.offset x.bytes = some (.ok e)

theorem safe_iff {q : Qubo α} : q.Safe ↔ q.matrix.rows = q.matrix.cols := by
  have henergy (x : BitString) (e : α) : q.matrix.energy? q.offset x.bytes = some (.ok e) ↔
      q.energy x.bytes = .ok e := by
    rw [Matrix.energy?_eq, Option.some.injEq, energy]
  constructor
  · intro h
    refine q.energy_eq_ok_iff.1 fun x hx => ?_
    obtain ⟨e, he⟩ := h.energy x hx
    exact ⟨e, (henergy x e).1 he⟩
  · intro hsquare
    refine ⟨q.linear?_isSome_iff.2 hsquare.le, q.quadratic?_isSome_iff.2 hsquare.le, ?_, ?_,
      fun x hx => ?_⟩
    · rw [terms?_eq]
      rfl
    · rw [spread?_eq, if_pos (.inr hsquare.ge)]
      rfl
    · obtain ⟨e, he⟩ := q.energy_eq_ok_iff.2 hsquare x hx
      exact ⟨e, (henergy x e).2 he⟩

end

/-! ## Models that are made -/

section

variable [Zero α] [Add α] [Sub α] [Scalar α]

/-- The models that are compiled, made of a table or zero everywhere. -/
inductive Made : Qubo α → Prop
  | compiled {ε : Type} [Cause ε] {s : Settings α} {f : Objective ε α} {l : Layout}
      {run : Run α (Except (Failure ε α) (Compilation α))} {c : Compilation α} :
      compile? s f l = some run → run.result = .ok c → Made c.qubo
  | ofMatrix {m : Matrix α} {offset : α} {q : Qubo α} :
      Matrix.fits m.rows m.cols = true → Qubo.ofMatrix m offset = .ok q → Made q
  | zeros {n : Nat} {q : Qubo α} : Qubo.zeros? n = some q → Made q

/-- A model that is made has a square table, which can be held, and nothing below its diagonal. -/
theorem Made.upperTriangular {q : Qubo α} (h : q.Made) :
    q.matrix.UpperTriangular q.size ∧ Matrix.fits q.size q.size = true := by
  cases h with
  | @compiled _ _ s f l run c hrun hresult =>
    obtain ⟨⟨-, hheld⟩, rfl⟩ := compile?_eq_some_iff.1 hrun
    obtain ⟨-, rfl⟩ := compile_eq_ok_iff.1 hresult
    have hshape := PseudoBoolean.upperTriangular_modelOf (PseudoBoolean.value ⟨f, l⟩) l.size
    rw [size, hshape.rows]
    exact ⟨hshape, Matrix.fits_square_iff.2 hheld⟩
  | @ofMatrix m offset _ hfits hq =>
    by_cases hsquare : m.rows = m.cols
    · rw [ofMatrix_eq_ok hsquare] at hq
      cases hq
      exact ⟨upperTriangular_folded m, by rwa [← hsquare] at hfits⟩
    · rw [ofMatrix_eq_error_iff.2 ⟨hsquare, rfl⟩] at hq
      cases hq
  | @zeros n _ hq =>
    obtain ⟨hheld, rfl⟩ := zeros?_eq_some_iff.1 hq
    exact ⟨⟨rfl, rfl, fun i j _ => Matrix.entry_zeros n n i j⟩, Matrix.fits_square_iff.2 hheld⟩

theorem Made.toSymmetric?_eq {q : Qubo α} (h : q.Made) : q.toSymmetric? = some q.toSymmetric := by
  obtain ⟨hshape, hfits⟩ := h.upperTriangular
  rw [Qubo.toSymmetric?_eq (hshape.rows.trans hshape.cols.symm), if_pos hfits]

end

/-- A model that is made is square, has nothing below its diagonal and answers whatever is asked.
Reading checks none of this: models of all shapes that memory holds are read from their texts as they
are.  The accessors of one bit and of two stay inside of a table exactly if it has no more rows than
columns, the symmetric table is written exactly if it has no more columns than rows or no rows at
all, and energies are had exactly if it is square. -/
theorem accessors_inside (q : Qubo Binary64) :
    (q.Made → q.matrix.UpperTriangular q.size ∧ q.Safe ∧ q.toSymmetric? = some q.toSymmetric) ∧
    (Matrix.sizeFits q.matrix.rows q.matrix.cols = true →
      (∀ f ∈ q.floats, f.isFinite = true ∧ f.ReadsBack) →
        Json.read? ofJson? q.toJson.text = some q) ∧
    (q.Safe ↔ q.matrix.rows = q.matrix.cols) ∧
    ((∀ i < q.size, (q.linear? i).isSome) ↔ q.matrix.rows ≤ q.matrix.cols) ∧
    ((∀ i j, i < q.size → j < q.size → (q.quadratic? i j).isSome) ↔
      q.matrix.rows ≤ q.matrix.cols) ∧
    q.terms? = some q.terms ∧
    (q.spread? = if q.matrix.rows = 0 ∨ q.matrix.cols ≤ q.matrix.rows then some q.spread
      else none) ∧
    (q.toSymmetric?.isSome ↔ q.spread?.isSome ∧ Matrix.fits q.size q.size = true) ∧
    ((∀ x : BitString, x.length = q.size → ∃ e, q.energy x.bytes = .ok e) ↔
      q.matrix.rows = q.matrix.cols) := by
  refine ⟨fun hmade => ?_, fun hfits hfloats => (carries_toJson hfits).read?_text.1 hfloats,
    safe_iff, q.linear?_isSome_iff, q.quadratic?_isSome_iff, q.terms?_eq, q.spread?_eq,
    q.toSymmetric?_isSome_iff, q.energy_eq_ok_iff⟩
  obtain ⟨hshape, -⟩ := hmade.upperTriangular
  exact ⟨hshape, safe_iff.2 (hshape.rows.trans hshape.cols.symm), hmade.toSymmetric?_eq⟩

/-- A table with an entry below its diagonal, which is folded; the model is square, and it is read
from its text. -/
theorem accessors_inside_folded :
    let m : Matrix Binary64 := ⟨2, 2, #[1, 0, 1, 0], rfl⟩
    let q : Qubo Binary64 := ⟨folded m, 1⟩
    Matrix.fits m.rows m.cols = true ∧ ofMatrix m 1 = .ok q ∧ q.Made ∧
      Matrix.sizeFits q.matrix.rows q.matrix.cols = true ∧
      (∀ f ∈ q.floats, f.isFinite = true ∧ f.ReadsBack) ∧
      Json.read? ofJson? q.toJson.text = some q ∧ q.matrix.entry 1 0 = 0 ∧
      q.Safe ∧ q.toSymmetric? = some q.toSymmetric := by
  intro m q
  obtain ⟨hmade, hread, -⟩ := accessors_inside q
  have hq : ofMatrix m 1 = .ok q := rfl
  have hm : q.Made := .ofMatrix (by decide) hq
  have hfloats : ∀ f ∈ q.floats, f.isFinite = true ∧ f.ReadsBack := by decide +kernel
  obtain ⟨hshape, hsafe, hsymmetric⟩ := hmade hm
  exact ⟨by decide, hq, hm, by decide, hfloats, hread (by decide) hfloats,
    hshape.below 1 0 (by decide), hsafe, hsymmetric⟩

/-- Models that are read from their texts.  In a row of two the column of the second bit has no
place in the symmetric table, and no string has an energy; in a column of two the second bit has no
coefficients; and in a square table what is below the diagonal stays there. -/
theorem read_outside :
    let wide : Qubo Binary64 := ⟨⟨1, 2, #[1, 1], rfl⟩, 0⟩
    let tall : Qubo Binary64 := ⟨⟨2, 1, #[1, 1], rfl⟩, 0⟩
    let below : Qubo Binary64 := ⟨⟨2, 2, #[0, 0, 1, 0], rfl⟩, 0⟩
    (∀ q ∈ [wide, tall, below], Json.read? ofJson? q.toJson.text = some q) ∧
      wide.spread? = none ∧ wide.toSymmetric? = none ∧ wide.energy [1] = .error ⟨1, 2, 1⟩ ∧
      tall.linear? 1 = none ∧ tall.quadratic? 0 1 = none ∧
      ¬below.matrix.UpperTriangular below.size := by
  intro wide tall below
  have hread (q : Qubo Binary64) (hq : q ∈ [wide, tall, below]) :
      Json.read? ofJson? q.toJson.text = some q := by
    have hfits : ∀ q ∈ [wide, tall, below],
        Matrix.sizeFits q.matrix.rows q.matrix.cols = true := by decide
    have hfloats : ∀ q ∈ [wide, tall, below], ∀ f ∈ q.floats,
        f.isFinite = true ∧ f.ReadsBack := by decide +kernel
    exact (carries_toJson (hfits q hq)).read?_text.1 (hfloats q hq)
  refine ⟨hread, ?_, rfl, rfl, rfl, rfl, fun h => ?_⟩
  · rw [spread?_eq]
    rfl
  · have hentry : (1 : Binary64) = 0 := h.below 1 0 (by decide)
    revert hentry
    decide +kernel

end Qubo

end QuboProbe
