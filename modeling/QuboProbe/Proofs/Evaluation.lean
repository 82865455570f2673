/-
  QuboProbe.Proofs.Evaluation

  What the evaluation of a function on some bits comes to: bits of another
  number than the layout's do not decode and the objective is not asked, and
  on all others the objective has a value or is at fault.
-/
import QuboProbe.PseudoBoolean
import Mathlib.Tactic.Common

namespace QuboProbe.PseudoBoolean

variable {ε α : Type} [Scalar α] {g : PseudoBoolean ε α} {x : BitString}

/-! ## Values and faults -/

/-- On these bits the objective has this value, a real number. -/
def HasValue (g : PseudoBoolean ε α) (x : BitString) (v : α) : Prop :=
  ∃ a, g.layout.decode x.bytes = .ok a ∧ g.objective a = .ok v ∧ Scalar.isFinite v = true

/-- On these bits the objective is at fault: with the error that it raises, or with its value that
is not a real number. -/
def FailsWith (g : PseudoBoolean ε α) (x : BitString) (fault : Fault ε α) : Prop :=
  ∃ a, g.layout.decode x.bytes = .ok a ∧
    ((∃ e, g.objective a = .error e ∧ fault = .raised e) ∨
      ∃ v, g.objective a = .ok v ∧ Scalar.isFinite v = false ∧ fault = .notFinite v)

/-- On these bits the objective raises an error or gives a value that is not a real number. -/
def FailsOn (g : PseudoBoolean ε α) (x : BitString) : Prop :=
  ∃ a, g.layout.decode x.bytes = .ok a ∧
    ((∃ e, g.objective a = .error e) ∨ ∃ v, g.objective a = .ok v ∧ Scalar.isFinite v = false)

theorem failsOn_iff : g.FailsOn x ↔ ∃ fault, g.FailsWith x fault := by
  constructor
  · rintro ⟨a, ha, ⟨e, he⟩ | ⟨v, hv, hnot⟩⟩
    · exact ⟨.raised e, a, ha, .inl ⟨e, he, rfl⟩⟩
    · exact ⟨.notFinite v, a, ha, .inr ⟨v, hv, hnot, rfl⟩⟩
  · rintro ⟨fault, a, ha, ⟨e, he, -⟩ | ⟨v, hv, hnot, -⟩⟩
    · exact ⟨a, ha, .inl ⟨e, he⟩⟩
    · exact ⟨a, ha, .inr ⟨v, hv, hnot⟩⟩

/-! ## Outcomes -/

omit [Scalar α] in
theorem length_eq_of_decode {a : Valuation} (h : g.layout.decode x.bytes = .ok a) :
    x.length = g.arity := by
  by_contra hlength
  have hsize : x.bytes.length ≠ g.layout.size := hlength
  rw [Layout.decode, if_pos hsize] at h
  cases h

omit [Scalar α] in
theorem exists_decode (h : x.length = g.arity) : ∃ a, g.layout.decode x.bytes = .ok a := by
  have hsize : ¬ x.bytes.length ≠ g.layout.size := not_not_intro h
  rw [Layout.decode, if_neg hsize]
  exact ⟨_, rfl⟩

theorem evaluate_of_length (h : x.length ≠ g.arity) :
    g.evaluate x = .error (.probe x (.lengthMismatch g.arity x.length)) := by
  have hsize : x.bytes.length ≠ g.layout.size := h
  rw [evaluate, Layout.decode, if_pos hsize]
  rfl

theorem HasValue.length_eq {v : α} (h : g.HasValue x v) : x.length = g.arity := by
  obtain ⟨a, ha, -⟩ := h
  exact length_eq_of_decode ha

theorem HasValue.evaluate_eq {v : α} (h : g.HasValue x v) : g.evaluate x = .ok v := by
  obtain ⟨a, ha, hf, hv⟩ := h
  simp only [evaluate, ha, hf, if_pos hv]

theorem FailsWith.evaluate_eq {fault : Fault ε α} (h : g.FailsWith x fault) :
    g.evaluate x = .error (.objective x fault) := by
  obtain ⟨a, ha, ⟨e, hf, rfl⟩ | ⟨v, hf, hv, rfl⟩⟩ := h
  · simp only [evaluate, ha, hf]
  · rw [evaluate, ha]
    dsimp only
    rw [hf]
    dsimp only
    rw [hv, if_neg Bool.false_ne_true]

/-- An evaluation has one of three outcomes. -/
theorem evaluate_outcomes (g : PseudoBoolean ε α) (x : BitString) :
    (x.length ≠ g.arity ∧
      g.evaluate x = .error (.probe x (.lengthMismatch g.arity x.length))) ∨
    (∃ fault, g.FailsWith x fault ∧ g.evaluate x = .error (.objective x fault)) ∨
    ∃ v, g.HasValue x v ∧ g.evaluate x = .ok v := by
  by_cases hlength : x.length = g.arity
  · right
    obtain ⟨a, ha⟩ := exists_decode hlength
    cases hf : g.objective a with
    | error e =>
      have hfault : g.FailsWith x (.raised e) := ⟨a, ha, .inl ⟨e, hf, rfl⟩⟩
      exact .inl ⟨_, hfault, hfault.evaluate_eq⟩
    | ok v =>
      cases hv : Scalar.isFinite v with
      | true =>
        have hvalue : g.HasValue x v := ⟨a, ha, hf, hv⟩
        exact .inr ⟨_, hvalue, hvalue.evaluate_eq⟩
      | false =>
        have hfault : g.FailsWith x (.notFinite v) := ⟨a, ha, .inr ⟨v, hf, hv, rfl⟩⟩
        exact .inl ⟨_, hfault, hfault.evaluate_eq⟩
  · exact .inl ⟨hlength, evaluate_of_length hlength⟩

theorem hasValue_iff {v : α} : g.HasValue x v ↔ g.evaluate x = .ok v := by
  refine ⟨HasValue.evaluate_eq, fun h => ?_⟩
  rcases g.evaluate_outcomes x with ⟨-, hnot⟩ | ⟨fault, -, hnot⟩ | ⟨w, hw, hev⟩
  · cases hnot.symm.trans h
  · cases hnot.symm.trans h
  · obtain rfl := Except.ok.inj (hev.symm.trans h)
    exact hw

/-- Bits of the right number decode, so only the objective can fail on them. -/
theorem evaluate_cases {x : BitString} (hx : x.length = g.arity) :
    (∃ v, g.evaluate x = .ok v) ∧ ¬ g.FailsOn x ∨
      g.FailsOn x ∧ ∃ fault, g.evaluate x = .error (.objective x fault) := by
  rcases g.evaluate_outcomes x with ⟨hlength, -⟩ | ⟨fault, hfault, he⟩ | ⟨v, -, he⟩
  · exact absurd hx hlength
  · exact .inr ⟨failsOn_iff.2 ⟨fault, hfault⟩, fault, he⟩
  · refine .inl ⟨⟨v, he⟩, fun hfails => ?_⟩
    obtain ⟨fault, hfault⟩ := failsOn_iff.1 hfails
    cases hfault.evaluate_eq.symm.trans he

theorem exists_value_iff {x : BitString} (hx : x.length = g.arity) :
    (∃ v, g.evaluate x = .ok v) ↔ ¬ g.FailsOn x := by
  rcases evaluate_cases hx with ⟨hv, hn⟩ | ⟨hf, fault, he⟩
  · exact iff_of_true hv hn
  · refine iff_of_false ?_ (not_not_intro hf)
    rintro ⟨v, hv⟩
    cases he.symm.trans hv

/-! ## Questions -/

omit [Scalar α] in
/-- The objective is asked about the bits that are as many as the layout's, one after another. -/
theorem map_ok_questions (g : PseudoBoolean ε α) (xs : List BitString) :
    (g.questions xs).map Except.ok =
      (xs.filter fun x => x.length == g.arity).map fun x => g.layout.decode x.bytes := by
  induction xs with
  | nil => rfl
  | cons x xs ih =>
    rw [questions, List.filterMap_cons, List.filter_cons]
    cases ha : g.layout.decode x.bytes with
    | ok a =>
      rw [if_pos (beq_iff_eq.2 (length_eq_of_decode ha)), List.map_cons, ha]
      exact congrArg _ ih
    | error e =>
      have hlength : x.length ≠ g.arity := by
        intro h
        obtain ⟨a, ha'⟩ := exists_decode h
        cases ha.symm.trans ha'
      rw [if_neg (by simpa using hlength)]
      exact ih

end QuboProbe.PseudoBoolean
