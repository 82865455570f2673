/-
  QuboProbe.Proofs.Capacity

  A function whose name ends in a question mark has the result of the function
  without it, or none at all.  For each of them it is said here when it has one:
  a bit string needs fewer than `2^63` bits, a square table fewer than `2^30`
  rows (`Matrix.fits_square_iff`), and an encoding needs fewer than `2^60`
  integers for a value (`Encoding.decodable_iff`).  So whatever is proved of
  `Layout.encode`, `Layout.decode`, `compile` and `validate` holds of the results
  that there are.
-/
import QuboProbe.Compile
import QuboProbe.Encoding.OffsetBinary
import QuboProbe.Encoding.Packed
import QuboProbe.Encoding.Unsigned
import QuboProbe.Proofs.Layout.RoundTrip
import QuboProbe.Proofs.Probes
import QuboProbe.Proofs.Validate.Exhaustive

namespace QuboProbe

theorem Capacity.holds_iff {size count : Nat} :
    holds size count = true ↔ size * count < 2 ^ 63 := by
  rw [holds, decide_eq_true_eq]
  exact Iff.rfl

/-! ## Bit strings -/

namespace BitString

variable {n i j index : Nat} {x : BitString}

theorem fits_iff : fits n = true ↔ n < 2 ^ 63 := by
  rw [fits, Capacity.holds_iff, Capacity.bitSize, Nat.one_mul]

theorem zeros?_eq_some_iff : zeros? n = some x ↔ n < 2 ^ 63 ∧ zeros n = x := by
  rw [zeros?, Option.ite_none_right_eq_some, Option.some_inj, fits_iff]

theorem unit?_eq_some_iff : unit? n i = some x ↔ (n < 2 ^ 63 ∧ i < n) ∧ unit n i = x := by
  rw [unit?, Option.ite_none_right_eq_some, Option.some_inj, fits_iff]

theorem pair?_eq_some_iff :
    pair? n i j = some x ↔ (n < 2 ^ 63 ∧ i < n ∧ j < n) ∧ pair n i j = x := by
  rw [pair?, Option.ite_none_right_eq_some, Option.some_inj, fits_iff]

theorem ofIndex?_eq_some_iff :
    ofIndex? n index = some x ↔ n < 2 ^ 63 ∧ ofIndex n index = x := by
  rw [ofIndex?, Option.ite_none_right_eq_some, Option.some_inj, fits_iff]

end BitString

/-! ## Tables -/

theorem Matrix.fits_square_iff {n : Nat} : fits n n = true ↔ n < 2 ^ 30 := by
  have hsquare : n * n < 2 ^ 30 * 2 ^ 30 ↔ n < 2 ^ 30 := Nat.mul_self_lt_mul_self_iff
  rw [fits, Capacity.holds_iff, Capacity.wordSize, ← hsquare]
  omega

theorem Qubo.zeros?_eq_some_iff {α : Type} [Zero α] {n : Nat} {q : Qubo α} :
    zeros? n = some q ↔ n < 2 ^ 30 ∧ zeros n = q := by
  rw [zeros?, Option.ite_none_right_eq_some, Option.some_inj, Matrix.fits_square_iff]

/-! ## Values -/

namespace Encoding

variable {e : Encoding} {bits : List UInt8} {v : Value} {count width : Nat}

theorem decodable_iff : e.decodable = true ↔ e.reserved < 2 ^ 60 := by
  rw [decodable, Capacity.holds_iff, Capacity.wordSize]
  omega

theorem decode?_eq_some_iff :
    e.decode? bits = some v ↔ e.reserved < 2 ^ 60 ∧ e.decode bits = v := by
  rw [decode?, Option.ite_none_right_eq_some, Option.some_inj, decodable_iff]

theorem decode?_unsigned : unsigned.decode? bits = some (unsigned.decode bits) :=
  decode?_eq_some_iff.2 ⟨Nat.two_pow_pos 60, rfl⟩

theorem decode?_offsetBinary : offsetBinary.decode? bits = some (offsetBinary.decode bits) :=
  decode?_eq_some_iff.2 ⟨Nat.two_pow_pos 60, rfl⟩

/-- Only entries of no bits can be too many to be held: of others there are no more than bits. -/
theorem decode?_packed_eq_some_iff :
    (packed count width).decode? bits = some v ↔
      (width = 0 → count < 2 ^ 60) ∧ (packed count width).decode bits = v := by
  have hreserved : (packed count width).reserved = if width = 0 then count else 0 := rfl
  rw [decode?_eq_some_iff, hreserved]
  split
  · rename_i hzero
    simp only [hzero, true_imp_iff]
  · rename_i hzero
    simp only [hzero, false_imp_iff, Nat.two_pow_pos]

end Encoding

/-! ## Layouts -/

namespace Layout

variable {l : Layout} {a : Valuation} {bits : List UInt8}

/-- The bits of the layout can be held, or a name that is no variable's is found before they are
needed. -/
theorem encode?_eq_some_iff {r : Except CodingError BitString} :
    l.encode? a = some r ↔
      ((∀ n ∈ a.names, n ∈ l.vars.map Variable.name) → l.size < 2 ^ 63) ∧ l.encode a = r := by
  rw [encode?, Option.ite_none_left_eq_some, Option.some_inj, List.all_eq_true, not_and_not_right,
    BitString.fits_iff]
  simp only [find?_isSome]

theorem decodable_iff :
    l.decodable = true ↔ ∀ v ∈ l.vars, v.encoding.reserved < 2 ^ 60 := by
  rw [decodable, List.all_eq_true]
  simp only [Encoding.decodable_iff]

theorem canDecode_iff :
    l.canDecode bits = true ↔ bits.length ≠ l.size ∨ l.decodable = true := by
  rw [canDecode, Bool.or_eq_true, bne_iff_ne]

theorem decodeValues?_eq_some_iff {r : Except CodingError (List Value)} :
    l.decodeValues? bits = some r ↔
      (bits.length ≠ l.size ∨ l.decodable = true) ∧ l.decodeValues bits = r := by
  rw [decodeValues?, Option.ite_none_right_eq_some, Option.some_inj, canDecode_iff]

theorem decode?_eq_some_iff {r : Except CodingError Valuation} :
    l.decode? bits = some r ↔
      (bits.length ≠ l.size ∨ l.decodable = true) ∧ l.decode bits = r := by
  rw [decode?, Option.ite_none_right_eq_some, Option.some_inj, canDecode_iff]

/-- What is encoded can be held, and is decoded to the same bindings if the values can be held. -/
theorem decode?_encode? (hl : l.WellFormed) (hlawful : l.Lawful) (hvalues : l.decodable = true)
    {x : BitString} (h : l.encode? a = some (.ok x)) :
    BitString.fits x.length = true ∧
      ∃ b, l.decode? x.bytes = some (.ok b) ∧ ∀ n, b.get? n = a.get? n := by
  obtain ⟨hsize, hencode⟩ := encode?_eq_some_iff.1 h
  obtain ⟨hnames, -⟩ := encode_eq_ok.1 hencode
  obtain ⟨hx, b, hdecode, hget⟩ := decode_encode hl hlawful hencode
  refine ⟨?_, b, decode?_eq_some_iff.2 ⟨.inr hvalues, hdecode⟩, hget⟩
  rw [BitString.fits_iff, hx.length_eq]
  exact hsize hnames

end Layout

/-! ## Compiling -/

section

variable {ε α : Type} [Zero α] [Add α] [Sub α] [Cause ε] [Scalar α]

theorem compile?_eq_some_iff {s : Settings α} {f : Objective ε α} {l : Layout}
    {run : Run α (Except (Failure ε α) (Compilation α))} :
    compile? s f l = some run ↔
      (l.decodable = true ∧ l.size < 2 ^ 30) ∧ compile s f l = run := by
  rw [compile?, Option.ite_none_right_eq_some, Option.some_inj, Matrix.fits_square_iff]

end

/-! ## Validating -/

theorem Coins.length_strings {σ : Type} (next : σ → Bool × σ) (n k : Nat) (s : σ) :
    (strings next n k s).length = k := by
  induction k generalizing s with
  | zero => rfl
  | succ k ih => exact congrArg (· + 1) (ih _)

/-- The bit strings that a validation tries are as many as it makes room for. -/
theorem Validate.length_trials {α : Type} (effort : Effort α) (n : Nat)
    (samples : Option (List BitString)) :
    (trials effort n samples).toList.length = trialCount effort n samples := by
  rw [toList_trials, List.length_append, Probes.length_vectors]
  cases samples with
  | some samples =>
    rw [further, Supply.toList_ofList]
    rfl
  | none =>
    unfold further trialCount
    dsimp only
    split
    · rw [length_everyString]
      rfl
    · rw [Coins.toList_draws, Coins.length_strings]
      rfl

theorem validate?_eq_some_iff {ε α : Type} [Zero α] [Add α] [Sub α] [Mul α] [BEq α] [Cause ε]
    [Scalar α] {s : Settings α} {f : Objective ε α} {q : Qubo α} {l : Layout}
    {samples : Option (List BitString)} {run : Run α (Except (Failure ε α) (Report α))} :
    validate? s f q l samples = some run ↔
      (q.size ≠ l.size ∨ l.decodable = true ∧
        24 * (Validate.trials s.validation l.size samples).toList.length < 2 ^ 63) ∧
      validate s f q l samples = run := by
  rw [validate?, Option.ite_none_right_eq_some, Option.some_inj, Validate.length_trials,
    Capacity.holds_iff, Capacity.stringSize]

end QuboProbe
