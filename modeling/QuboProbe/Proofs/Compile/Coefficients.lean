/-
  QuboProbe.Proofs.Compile.Coefficients

  What the computation of one coefficient asks for and comes to, whatever the
  state of the memo.  It looks up the probes of its place.  If the function has
  a value on each of them, its only result is the combination of those values
  (`PseudoBoolean.yields_coefficient`); otherwise it fails on one of them
  (`PseudoBoolean.failsOn_of_yields`).
-/
import QuboProbe.Compile
import QuboProbe.Proofs.Evaluation
import QuboProbe.Proofs.Memo.Lookups
import QuboProbe.Proofs.Probes

namespace QuboProbe.PseudoBoolean

variable {ε α : Type} [Scalar α] {g : PseudoBoolean ε α}

/-! ## Where the function has no value -/

variable [Cause ε]

/-- A failure that a look-up answers is one of the objective on the bits that were looked up. -/
theorem failsOn_of_answers {x : BitString} (hx : x.length = g.arity) {e : Failure ε α}
    (h : Script.Answers g.evaluate x (.error e)) :
    g.FailsOn x ∧ ∃ fault, e = .objective x fault := by
  obtain ⟨e', he', h⟩ := h.eval_error
  rcases evaluate_cases hx with ⟨⟨v, hv⟩, -⟩ | ⟨hf, fault, he⟩
  · cases he'.symm.trans hv
  · refine ⟨hf, ?_⟩
    rcases h with rfl | rfl
    · exact ⟨fault, Except.error.inj (he'.symm.trans he)⟩
    · exact ⟨_, rfl⟩

/-! ## One coefficient -/

variable [Add α] [Sub α]

/-- The coefficient of a place, from the values on its probes. -/
def coefficientOf (value : BitString → α) (n : Nat) (p : Place) : α :=
  if p.1 = p.2 then value (.unit n p.1) - value (.zeros n)
  else value (.pair n p.1 p.2) - value (.unit n p.1) - value (.unit n p.2) + value (.zeros n)

omit [Cause ε] [Add α] [Sub α] in
theorem ask_looksUp {P : BitString → Prop} {x : BitString} (hx : P x) :
    (g.ask x).LooksUp g.evaluate P 1 := .lookup hx

omit [Cause ε] in
/-- The computation looks up the probes of the place, four at most. -/
theorem coefficient_looksUp {P : BitString → Prop} {p : Place}
    (hP : ∀ x ∈ Probes.ofPlace g.arity p, P x) :
    (g.coefficient p).LooksUp g.evaluate P 4 := by
  obtain ⟨i, j⟩ := p
  by_cases hij : i = j
  · subst hij
    simp only [Probes.ofPlace, if_true, List.mem_cons, List.not_mem_nil, or_false,
      forall_eq_or_imp, forall_eq] at hP
    simp only [coefficient, if_true]
    have h := (ask_looksUp (g := g) hP.1).andThen fun zero =>
      (ask_looksUp (g := g) hP.2).andThen fun gi =>
        Script.LooksUp.done 2 (.ok (gi - zero))
    exact h
  · simp only [Probes.ofPlace, if_neg hij, List.mem_cons, List.not_mem_nil, or_false,
      forall_eq_or_imp, forall_eq] at hP
    simp only [coefficient, if_neg hij]
    obtain ⟨h0, hi, hj, hp⟩ := hP
    have h := (ask_looksUp (g := g) h0).andThen fun zero =>
      (ask_looksUp (g := g) hi).andThen fun gi =>
        (ask_looksUp (g := g) hj).andThen fun gj =>
          (ask_looksUp (g := g) hp).andThen fun gij =>
            Script.LooksUp.done 0 (.ok (gij - gi - gj + zero))
    exact h

/-- If the function has values on the probes of the place, their combination is the one result. -/
theorem yields_coefficient {p : Place} {value : BitString → α}
    (hvalue : ∀ x ∈ Probes.ofPlace g.arity p, g.evaluate x = .ok (value x))
    (r : Except (Failure ε α) α) :
    (g.coefficient p).Yields g.evaluate r ↔ r = .ok (coefficientOf value g.arity p) := by
  obtain ⟨i, j⟩ := p
  by_cases hij : i = j
  · subst hij
    simp only [Probes.ofPlace, if_true, List.mem_cons, List.not_mem_nil, or_false,
      forall_eq_or_imp, forall_eq] at hvalue
    simp only [coefficient, coefficientOf, if_true, ask, Script.yields_andThen,
      Script.yields_lookup, Script.yields_done, Script.answers_iff_of_ok hvalue.1,
      Script.answers_iff_of_ok hvalue.2]
    simp
  · simp only [Probes.ofPlace, if_neg hij, List.mem_cons, List.not_mem_nil, or_false,
      forall_eq_or_imp, forall_eq] at hvalue
    obtain ⟨h0, hi, hj, hp⟩ := hvalue
    simp only [coefficient, coefficientOf, if_neg hij, ask, Script.yields_andThen,
      Script.yields_lookup, Script.yields_done, Script.answers_iff_of_ok h0,
      Script.answers_iff_of_ok hi, Script.answers_iff_of_ok hj, Script.answers_iff_of_ok hp]
    simp

/-- A value comes of values on all probes of the place. -/
theorem evaluate_of_yields {p : Place} {v : α}
    (h : (g.coefficient p).Yields g.evaluate (.ok v)) :
    ∀ x ∈ Probes.ofPlace g.arity p, ∃ w, g.evaluate x = .ok w := by
  obtain ⟨i, j⟩ := p
  simp only [coefficient, ask, Script.yields_andThen, Script.yields_lookup, reduceCtorEq,
    and_false, exists_false, or_false] at h
  obtain ⟨zero, h0, gi, hi, h⟩ := h
  by_cases hij : i = j
  · subst hij
    simp only [Probes.ofPlace, if_true, List.mem_cons, List.not_mem_nil, or_false,
      forall_eq_or_imp, forall_eq]
    exact ⟨⟨zero, h0.eval_eq⟩, ⟨gi, hi.eval_eq⟩⟩
  · simp only [if_neg hij, Script.yields_andThen, Script.yields_lookup, reduceCtorEq,
      and_false, exists_false, or_false] at h
    obtain ⟨gj, hj, gij, hp, -⟩ := h
    simp only [Probes.ofPlace, if_neg hij, List.mem_cons, List.not_mem_nil, or_false,
      forall_eq_or_imp, forall_eq]
    exact ⟨⟨zero, h0.eval_eq⟩, ⟨gi, hi.eval_eq⟩, ⟨gj, hj.eval_eq⟩, ⟨gij, hp.eval_eq⟩⟩

/-- A failure is the answer of a look-up of one of the probes of the place. -/
theorem answers_of_yields {p : Place} {e : Failure ε α}
    (h : (g.coefficient p).Yields g.evaluate (.error e)) :
    ∃ x ∈ Probes.ofPlace g.arity p, Script.Answers g.evaluate x (.error e) := by
  obtain ⟨i, j⟩ := p
  simp only [coefficient, ask, Script.yields_andThen, Script.yields_lookup, Except.error.injEq,
    exists_eq_right'] at h
  by_cases hij : i = j
  · subst hij
    simp only [if_true, Script.yields_done, reduceCtorEq, and_false, exists_false,
      false_or] at h
    rcases h with ⟨zero, -, h⟩ | h
    · exact ⟨_, by simp [Probes.ofPlace], h⟩
    · exact ⟨_, by simp [Probes.ofPlace], h⟩
  · simp only [if_neg hij, Script.yields_andThen, Script.yields_lookup, Script.yields_done,
      Except.error.injEq, exists_eq_right', reduceCtorEq, and_false, exists_false, false_or] at h
    rcases h with ⟨zero, -, ⟨gi, -, ⟨gj, -, h⟩ | h⟩ | h⟩ | h
    · exact ⟨.pair g.arity i j, by simp [Probes.ofPlace, hij], h⟩
    · exact ⟨.unit g.arity j, by simp [Probes.ofPlace, hij], h⟩
    · exact ⟨.unit g.arity i, by simp [Probes.ofPlace, hij], h⟩
    · exact ⟨.zeros g.arity, by simp [Probes.ofPlace, hij], h⟩

omit [Cause ε] in
/-- The computation asks for the probes of the place, each once. -/
theorem keys_coefficient {p : Place}
    (hvalue : ∀ x ∈ Probes.ofPlace g.arity p, ∃ v, g.evaluate x = .ok v) :
    (g.coefficient p).keys g.evaluate = Probes.ofPlace g.arity p := by
  obtain ⟨i, j⟩ := p
  by_cases hij : i = j
  · subst hij
    simp only [Probes.ofPlace, if_true, List.mem_cons, List.not_mem_nil, or_false,
      forall_eq_or_imp, forall_eq] at hvalue ⊢
    obtain ⟨⟨zero, h0⟩, ⟨gi, hi⟩⟩ := hvalue
    simp only [coefficient, if_true, ask]
    rw [Script.keys_lookup_andThen h0, Script.keys_lookup_andThen hi]
    rfl
  · simp only [Probes.ofPlace, if_neg hij, List.mem_cons, List.not_mem_nil, or_false,
      forall_eq_or_imp, forall_eq] at hvalue ⊢
    obtain ⟨⟨zero, h0⟩, ⟨gi, hi⟩, ⟨gj, hj⟩, ⟨gij, hp⟩⟩ := hvalue
    simp only [coefficient, if_neg hij, ask]
    rw [Script.keys_lookup_andThen h0, Script.keys_lookup_andThen hi,
      Script.keys_lookup_andThen hj, Script.keys_lookup_andThen hp]
    rfl

end QuboProbe.PseudoBoolean
