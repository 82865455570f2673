/-
  QuboProbe.Proofs.Compile.Interleaving

  Compilation by any number of workers.  The offset is looked up first; then
  the places are shared out in any way, and the workers' steps on the common
  memo interleave in any way.  What comes of it is what comes of computing one
  coefficient after another (`compile_interleaved`).
-/
import QuboProbe.Proofs.Compile.Outcome
import QuboProbe.Encoding.Unsigned
import QuboProbe.Exact

namespace QuboProbe

variable {ε α : Type} [Zero α] [Add α] [Sub α] [Cause ε] [Scalar α]

namespace PseudoBoolean

/-! ## Workers -/

/-- The workers that compute the coefficients, after some moves. -/
def workersAfter (g : PseudoBoolean ε α) (shares : List (List Place)) (moves : List Move) :
    Pool Place ε α :=
  (g.crew g.offsetMemo shares).run moves

/-- What a compilation can return once the workers have taken these steps: the failure of the
offset, or what the results of the coefficients amount to when nobody has anything left to do. -/
inductive Returns (g : PseudoBoolean ε α) (shares : List (List Place)) (moves : List Move) :
    Except (Failure ε α) (Compilation α) → Prop where
  | offset {e : Failure ε α} (h : ((g.ask (.zeros g.arity)).run .empty).1 = .error e) :
      Returns g shares moves (.error e)
  | coefficients {offset : α} {r : Except (Failure ε α) (Coefficients α)}
      (hoffset : ((g.ask (.zeros g.arity)).run .empty).1 = .ok offset)
      (hidle : (g.workersAfter shares moves).idle = true)
      (hr : Reports (g.workersAfter shares moves).results r) :
      Returns g shares moves
        (r.map fun cs => ⟨assemble g.arity offset cs, (g.workersAfter shares moves).memo.tally⟩)

variable {g : PseudoBoolean ε α} {shares : List (List Place)} {moves : List Move}
  {r : Except (Failure ε α) (Compilation α)}

omit [Zero α] in
theorem sound_workersAfter (hshares : shares.flatten.Perm (Probes.cells g.arity))
    (moves : List Move) :
    (g.workersAfter shares moves).Sound g.evaluate (· ∈ Probes.vectors g.arity) 4 g.coefficient :=
  (sound_crew (settled_offsetMemo g) probes_offsetMemo hshares).run moves

omit [Zero α] in
theorem finished_workersAfter (hshares : shares.flatten.Perm (Probes.cells g.arity))
    (hidle : (g.workersAfter shares moves).idle = true) :
    g.Finished (Probes.cells g.arity) g.offsetMemo (g.workersAfter shares moves).memo
      (g.workersAfter shares moves).results :=
  finished_crew (settled_offsetMemo g) probes_offsetMemo hshares hidle

/-- Whatever the workers have done so far, they can go on until the compilation returns. -/
theorem exists_returns (hshares : shares.flatten.Perm (Probes.cells g.arity))
    (moves : List Move) : ∃ more r, g.Returns shares (moves ++ more) r := by
  obtain ⟨more, hidle⟩ := (sound_workersAfter hshares moves).exists_idle
  rw [workersAfter, ← Pool.run_append] at hidle
  cases hzero : ((g.ask (.zeros g.arity)).run .empty).1 with
  | error e => exact ⟨more, _, .offset hzero⟩
  | ok offset => exact ⟨more, _, .coefficients hzero hidle (reports_collect _)⟩

theorem Returns.eq_value (h : g.Returns shares moves r)
    (hshares : shares.flatten.Perm (Probes.cells g.arity))
    (hok : ∀ x ∈ Probes.vectors g.arity, ¬ g.FailsOn x) :
    r = .ok ⟨modelOf g.value g.arity, Probes.tally g.arity⟩ := by
  have hzero := evaluate_eq_value (BitString.length_zeros _)
    (hok _ (Probes.mem_vectors_iff_ofPlace.2 (.inl rfl)))
  cases h with
  | offset he =>
    rw [run_offset] at he
    cases hzero.symm.trans he
  | @coefficients offset _ ho hidle hr =>
    rw [run_offset] at ho
    obtain rfl : g.value (.zeros g.arity) = offset := Except.ok.inj (hzero.symm.trans ho)
    exact (finished_workersAfter hshares hidle).compilation_eq hr hok

theorem Returns.fails (h : g.Returns shares moves r)
    (hshares : shares.flatten.Perm (Probes.cells g.arity))
    (hfails : ∃ x ∈ Probes.vectors g.arity, g.FailsOn x) :
    ∃ x ∈ Probes.vectors g.arity, g.FailsOn x ∧ ∃ fault, r = .error (.objective x fault) := by
  cases h with
  | @offset e he =>
    rw [run_offset] at he
    obtain ⟨x, hx, hx', fault, rfl⟩ := failsOn_of_offset he
    exact ⟨x, hx, hx', fault, rfl⟩
  | @coefficients offset r ho hidle hr =>
    rw [run_offset] at ho
    have hzero := (exists_value_iff (BitString.length_zeros g.arity)).1 ⟨offset, ho⟩
    obtain ⟨x, hx, hx', fault, rfl⟩ :=
      (finished_workersAfter hshares hidle).fails hr hzero hfails
    exact ⟨x, hx, hx', fault, rfl⟩

end PseudoBoolean

/-! ## Interleavings agree -/

/-- Compilation by workers agrees with compilation of one coefficient after another, whatever the
settings, the shares of the workers and the order of their steps.  The workers never block one
another for good, and nobody evaluates a bit string a second time.  If the objective fails on no
probe, everybody returns the same model and tally; otherwise everybody fails, and what workers
return is a failure of the objective on a probe. -/
theorem compile_interleaved (s : Settings α) (f : Objective ε α) (l : Layout)
    (shares : List (List Place)) (hshares : shares.flatten.Perm (Probes.cells l.size)) :
    (∀ moves, ∃ more r, PseudoBoolean.Returns ⟨f, l⟩ shares (moves ++ more) r) ∧
    ((compile s f l).evaluated.Nodup ∧
      ∀ moves, (PseudoBoolean.workersAfter ⟨f, l⟩ shares moves).memo.started.Nodup) ∧
    ((∀ x ∈ Probes.vectors l.size, ¬ PseudoBoolean.FailsOn ⟨f, l⟩ x) →
      ∃ c, (compile { s with parallel := false } f l).result = .ok c ∧
        (compile s f l).result = .ok c ∧
        ∀ moves r, PseudoBoolean.Returns ⟨f, l⟩ shares moves r → r = .ok c) ∧
    ((∃ x ∈ Probes.vectors l.size, PseudoBoolean.FailsOn ⟨f, l⟩ x) →
      (∃ e, (compile { s with parallel := false } f l).result = .error e) ∧
        (∃ x ∈ Probes.vectors l.size, PseudoBoolean.FailsOn ⟨f, l⟩ x ∧
          ∃ fault, (compile s f l).result = .error (.objective x fault)) ∧
        ∀ moves r, PseudoBoolean.Returns ⟨f, l⟩ shares moves r →
          ∃ x ∈ Probes.vectors l.size, PseudoBoolean.FailsOn ⟨f, l⟩ x ∧
            ∃ fault, r = .error (.objective x fault)) := by
  refine ⟨PseudoBoolean.exists_returns hshares, ⟨?_, fun moves => ?_⟩, fun hok => ?_,
    fun hfails => ?_⟩
  · exact List.nodup_reverse.2 (PseudoBoolean.started_compileWith_nodup ⟨f, l⟩ s)
  · exact (PseudoBoolean.sound_workersAfter hshares moves).consistent.started_nodup
  · have hvalue := PseudoBoolean.compileWith_value (g := ⟨f, l⟩) hok
    exact ⟨_, hvalue { s with parallel := false }, hvalue s,
      fun moves r h => h.eq_value hshares hok⟩
  · obtain ⟨x, -, -, fault, hserial⟩ :=
      PseudoBoolean.compileWith_fails (g := ⟨f, l⟩) hfails { s with parallel := false }
    exact ⟨⟨_, hserial⟩, PseudoBoolean.compileWith_fails (g := ⟨f, l⟩) hfails s,
      fun moves r h => h.fails hshares hfails⟩

/-- Two workers that compile the square of a number of two bits: the square has a value on every
probe, so every interleaving of their steps returns one and the same compilation. -/
theorem compile_interleaved_square :
    let l : Layout := ⟨[⟨"x", .unsigned, 2, 0⟩], 2⟩
    let f : Objective CodingError ℚ := fun a => (a.int "x").map fun v => (v.toInt : ℚ) ^ 2
    let shares : List (List Place) := [[(1, 1)], [(0, 1), (0, 0)]]
    shares.flatten.Perm (Probes.cells l.size) ∧
      ∃ c, (compile (.serial 0) f l).result = .ok c ∧
        ∀ moves r, PseudoBoolean.Returns ⟨f, l⟩ shares moves r → r = .ok c := by
  intro l f shares
  have hshares : shares.flatten.Perm (Probes.cells l.size) := by decide
  have hok : ∀ x ∈ Probes.vectors l.size, ¬ PseudoBoolean.FailsOn ⟨f, l⟩ x := by
    intro x hx
    refine (PseudoBoolean.exists_value_iff (g := ⟨f, l⟩) (Probes.length_of_mem_vectors hx)).1 ?_
    have hprobes : x ∈ [BitString.zeros 2, .unit 2 0, .unit 2 1, .pair 2 0 1] := hx
    simp only [List.mem_cons, List.not_mem_nil, or_false] at hprobes
    rcases hprobes with rfl | rfl | rfl | rfl
    · exact ⟨_, rfl⟩
    · exact ⟨_, rfl⟩
    · exact ⟨_, rfl⟩
    · exact ⟨_, rfl⟩
  obtain ⟨c, hserial, -, hreturns⟩ :=
    (compile_interleaved (.serial 0) f l shares hshares).2.2.1 hok
  exact ⟨hshares, c, hserial, hreturns⟩

end QuboProbe
