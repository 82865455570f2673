/-
  QuboProbe.Proofs.Compile.Failures

  Which failure a compilation reports when the objective fails.  One
  coefficient after another, or by workers no two of which are at work at the
  same time, it is the failure of the objective itself, with the error that the
  objective raised.  When the workers' steps interleave, the worker that is
  recorded first may be one that was only told of the failure: the error is
  then a text, and the failure of the objective stands among the results that
  are not reported (`compile_failure_source`).
-/
import QuboProbe.Proofs.Compile.Interleaving
import QuboProbe.Proofs.Memo.Failures

namespace QuboProbe

variable {ε α : Type} [Cause ε] [Scalar α]

namespace PseudoBoolean

variable {g : PseudoBoolean ε α}

/-! ## Failures of the objective itself -/

omit [Cause ε] in
/-- The failure of the objective on a probe, with the error that it raised there or the value that
is not a real number. -/
def Gives (g : PseudoBoolean ε α) (e : Failure ε α) : Prop :=
  ∃ x ∈ Probes.vectors g.arity, ∃ a, g.layout.decode x.bytes = .ok a ∧
    ((∃ err, g.objective a = .error err ∧ e = .objective x (.raised err)) ∨
      ∃ v, g.objective a = .ok v ∧ Scalar.isFinite v = false ∧ e = .objective x (.notFinite v))

omit [Cause ε] in
/-- An evaluation that fails on the objective tells the bits it was about, and keeps the error. -/
theorem gives_of_evaluate {key x : BitString} {fault : Fault ε α}
    (hx : x ∈ Probes.vectors g.arity) (h : g.evaluate key = .error (.objective x fault)) :
    key = x ∧ g.Gives (.objective x fault) := by
  cases ha : g.layout.decode key.bytes with
  | error e =>
    simp only [evaluate, ha] at h
    cases h
  | ok a =>
    cases hf : g.objective a with
    | error err =>
      simp only [evaluate, ha, hf] at h
      cases h
      exact ⟨rfl, key, hx, a, ha, .inl ⟨err, hf, rfl⟩⟩
    | ok v =>
      simp only [evaluate, ha, hf] at h
      by_cases hv : Scalar.isFinite v
      · rw [if_pos hv] at h
        cases h
      · rw [if_neg hv] at h
        cases h
        exact ⟨rfl, key, hx, a, ha, .inr ⟨v, hf, by simpa using hv, rfl⟩⟩

omit [Cause ε] in
theorem gives_of_offset {e : Failure ε α} (h : g.evaluate (.zeros g.arity) = .error e) :
    g.Gives e := by
  obtain ⟨x, hx, -, fault, rfl⟩ := failsOn_of_offset h
  exact (gives_of_evaluate hx h).2

omit [Cause ε] in
/-- What was only told is no failure of the objective itself. -/
theorem not_gives_replayed (g : PseudoBoolean ε α) (x : BitString) (message : String) :
    ¬ g.Gives (.objective x (.replayed message)) := by
  rintro ⟨_, _, _, _, ⟨_, _, h⟩ | ⟨_, _, _, h⟩⟩
  · cases h
  · cases h

/-! ## One after another -/

/-- The memo that the coefficients start on knows of no failure. -/
theorem unfailing_offsetMemo [Zero α] {offset : α} (h : g.evaluate (.zeros g.arity) = .ok offset) :
    g.offsetMemo.Unfailing g.evaluate := by
  have hempty : (Memo.empty : Memo α).Unfailing g.evaluate := by
    intro key hkey
    rw [Memo.outcome?_empty] at hkey
    cases hkey
  rw [offsetMemo, ask, Script.run_lookup]
  exact hempty.look Memo.Settled.empty h

variable [Add α] [Sub α]

omit [Cause ε] in
/-- The computation of a coefficient ends with the first failure that it is answered. -/
theorem relays_coefficient (g : PseudoBoolean ε α) (p : Place) : (g.coefficient p).Relays := by
  obtain ⟨i, j⟩ := p
  have hask (x : BitString) : (g.ask x).Relays := .lookup g.evaluate x
  refine (hask _).andThen fun zero => (hask _).andThen fun gi => ?_
  split
  · exact .value _
  · exact (hask _).andThen fun gj => (hask _).andThen fun gij => .value _

theorem evaluate_of_inOrder {places : List Place} {m : Memo α} {e : Failure ε α}
    (hm : m.Settled g.evaluate) (hok : m.Unfailing g.evaluate)
    (h : (g.inOrder places m).1 = .error e) : ∃ key, g.evaluate key = .error e := by
  induction places generalizing m with
  | nil => cases h
  | cons p places ih =>
    have hlooks : (g.coefficient p).LooksUp g.evaluate (fun _ => True) 4 :=
      coefficient_looksUp fun _ _ => trivial
    have hsettled := hlooks.run_settled hm
    rw [inOrder] at h
    obtain ⟨r, m', hrun⟩ : ∃ r m', (g.coefficient p).run m = (r, m') := ⟨_, _, rfl⟩
    have hcases := (relays_coefficient g p).run hlooks hm hok
    rw [hrun] at hcases hsettled h
    rcases hcases with ⟨key, e', he', rfl⟩ | ⟨v, rfl, hok'⟩
    · obtain rfl : e' = e := Except.error.inj h
      exact ⟨key, he'⟩
    · refine ih hsettled hok' ?_
      dsimp only at h
      split at h
      · rename_i hrest
        rw [hrest]
        exact h
      · cases h

variable [Zero α]

theorem gives_of_serial {s : Settings α} {e : Failure ε α}
    (hserial : s.parallel = false ∨ g.arity ≤ 1) (h : (g.compileWith s).1 = .error e) :
    g.Gives e := by
  -- whatever fails, it is a failure of the objective on some probe
  obtain ⟨x, hx, fault, rfl⟩ : ∃ x ∈ Probes.vectors g.arity, ∃ fault, e = .objective x fault := by
    by_cases hok : ∀ x ∈ Probes.vectors g.arity, ¬ g.FailsOn x
    · rw [compileWith_value hok s] at h
      cases h
    · obtain ⟨x, hx, -, fault, hfails⟩ := compileWith_fails (by simpa using hok) s
      exact ⟨x, hx, fault, Except.error.inj (h.symm.trans hfails)⟩
  rw [compileWith, run_offset] at h
  cases hzero : g.evaluate (.zeros g.arity) with
  | error e =>
    rw [hzero] at h
    obtain rfl : e = .objective x fault := Except.error.inj h
    exact gives_of_offset hzero
  | ok offset =>
    have hone : ¬ (s.parallel = true ∧ 1 < g.arity) := by
      rintro ⟨hparallel, hsize⟩
      rcases hserial with hserial | hserial
      · cases hparallel.symm.trans hserial
      · omega
    have hinOrder : (g.inOrder (Probes.cells g.arity) g.offsetMemo).1 =
        .error (.objective x fault) := by
      rw [hzero] at h
      simp only [coefficients, if_neg hone] at h
      split at h
      · rename_i hrest
        rw [hrest]
        exact congrArg Except.error (Except.error.inj h)
      · cases h
    obtain ⟨key, hkey⟩ :=
      evaluate_of_inOrder (settled_offsetMemo g) (unfailing_offsetMemo hzero) hinOrder
    exact (gives_of_evaluate hx hkey).2

/-! ## By workers -/

variable {shares : List (List Place)} {moves : List Move}

/-- What a compilation returns when nobody has anything left to do, where the failure that is
recorded first is the one that is reported. -/
def returned (g : PseudoBoolean ε α) (shares : List (List Place)) (moves : List Move) :
    Except (Failure ε α) (Compilation α) := do
  let offset ← ((g.ask (.zeros g.arity)).run .empty).1
  let coefficients ← (g.workersAfter shares moves).collect
  .ok ⟨assemble g.arity offset coefficients, (g.workersAfter shares moves).memo.tally⟩

theorem returns_returned (hidle : (g.workersAfter shares moves).idle = true) :
    g.Returns shares moves (g.returned shares moves) := by
  rw [returned]
  cases hzero : ((g.ask (.zeros g.arity)).run .empty).1 with
  | error e => exact .offset hzero
  | ok offset =>
    have h := Returns.coefficients hzero hidle (reports_collect (g.workersAfter shares moves))
    revert h
    cases (g.workersAfter shares moves).collect <;> exact id

theorem cases_of_returned {e : Failure ε α} (h : g.returned shares moves = .error e) :
    g.evaluate (.zeros g.arity) = .error e ∨ ∃ offset, g.evaluate (.zeros g.arity) = .ok offset ∧
      (g.workersAfter shares moves).collect = .error e := by
  rw [returned, run_offset] at h
  cases hzero : g.evaluate (.zeros g.arity) with
  | error e' =>
    rw [hzero] at h
    exact .inl (congrArg Except.error (Except.error.inj h))
  | ok offset =>
    rw [hzero] at h
    refine .inr ⟨offset, rfl, ?_⟩
    cases hcollect : (g.workersAfter shares moves).collect with
    | error e' =>
      rw [hcollect] at h
      exact congrArg Except.error (Except.error.inj h)
    | ok coefficients =>
      rw [hcollect] at h
      cases h

/-- The workers that compute coefficients pass failures on. -/
theorem kept_workersAfter {offset : α} (hzero : g.evaluate (.zeros g.arity) = .ok offset)
    (hshares : shares.flatten.Perm (Probes.cells g.arity)) (moves : List Move) :
    (g.workersAfter shares moves).Kept g.evaluate := by
  have hcrew : (g.crew g.offsetMemo shares).Kept g.evaluate := by
    refine Pool.kept_ofQueues (unfailing_offsetMemo hzero) fun queue hqueue x hx => ?_
    obtain ⟨places, -, rfl⟩ := List.mem_map.1 hqueue
    obtain ⟨p, -, rfl⟩ := List.mem_map.1 hx
    exact relays_coefficient g p
  exact hcrew.run (sound_workersAfter hshares []) moves

omit [Zero α] in
/-- A failure that is recorded is one of the objective on some probe. -/
theorem objective_of_recorded (hshares : shares.flatten.Perm (Probes.cells g.arity))
    (hidle : (g.workersAfter shares moves).idle = true) {e : Failure ε α}
    (h : e ∈ failures (g.workersAfter shares moves).results) :
    ∃ x ∈ Probes.vectors g.arity, ∃ fault, e = .objective x fault := by
  have hfinished := finished_workersAfter hshares hidle
  obtain ⟨y, hy, he⟩ := List.mem_flatMap.1 h
  have hyields := hfinished.yields y hy
  rw [Failure.mem_of.1 he] at hyields
  obtain ⟨x, hx, -, fault, rfl⟩ := failsOn_of_yields (hfinished.mem y hy) hyields
  exact ⟨x, hx, fault, rfl⟩

/-- If no two workers ever have jobs at the same time, the failure that is reported is that of the
objective itself. -/
theorem gives_of_alone (hshares : shares.flatten.Perm (Probes.cells g.arity))
    (hidle : (g.workersAfter shares moves).idle = true)
    (halone : ∀ begun, begun <+: moves → (g.workersAfter shares begun).Alone) {e : Failure ε α}
    (h : g.returned shares moves = .error e) : g.Gives e := by
  rcases cases_of_returned h with hzero | ⟨offset, hzero, hcollect⟩
  · exact gives_of_offset hzero
  · have hlast := Pool.getLast?_of_collect hcollect
    have hfirst : (g.workersAfter shares moves).FirstGiven g.evaluate :=
      (Pool.firstGiven_ofQueues _ _).run (sound_workersAfter hshares [])
        (kept_workersAfter hzero hshares []) halone
    obtain ⟨key, hkey⟩ := hfirst.first e hlast
    obtain ⟨x, hx, fault, rfl⟩ :=
      objective_of_recorded hshares hidle (List.mem_of_getLast? hlast)
    exact (gives_of_evaluate hx hkey).2

/-- In any interleaving the failure that is reported is that of the objective itself, or it tells
of one that is recorded too. -/
theorem gives_or_told (hshares : shares.flatten.Perm (Probes.cells g.arity))
    (hidle : (g.workersAfter shares moves).idle = true) {e : Failure ε α}
    (h : g.returned shares moves = .error e) :
    g.Gives e ∨ ∃ x fault p, g.Gives (.objective x fault) ∧
      (p, .error (.objective x fault)) ∈ (g.workersAfter shares moves).results ∧
      e = .objective x (.replayed (Failure.objective x fault).message) := by
  rcases cases_of_returned h with hzero | ⟨offset, hzero, hcollect⟩
  · exact .inl (gives_of_offset hzero)
  · have hkept := kept_workersAfter hzero hshares moves
    -- nobody holds anything any more, so what is in hand is recorded
    have hhand : (g.workersAfter shares moves).inHand =
        failures (g.workersAfter shares moves).results := by
      rw [Pool.inHand, List.append_right_eq_self, List.flatMap_eq_nil_iff]
      intro w hw
      rw [Worker.held, (Pool.idle_iff.1 hidle w hw).1]
      rfl
    have hrecorded := List.mem_of_getLast? (Pool.getLast?_of_collect hcollect)
    rcases hkept.accounts.origin e (hhand ▸ hrecorded) with ⟨key, hkey⟩ | ⟨key, e', hkey, hk, rfl⟩
    · obtain ⟨x, hx, fault, rfl⟩ := objective_of_recorded hshares hidle hrecorded
      exact .inl (gives_of_evaluate hx hkey).2
    · have hheld := hkept.accounts.held key e' hkey hk
      rw [hhand] at hheld
      obtain ⟨x, hx, fault, rfl⟩ := objective_of_recorded hshares hidle hheld
      obtain ⟨rfl, hgives⟩ := gives_of_evaluate hx hkey
      obtain ⟨⟨p, r⟩, hp, he'⟩ := List.mem_flatMap.1 hheld
      obtain rfl : r = .error (.objective key fault) := Failure.mem_of.1 he'
      exact .inr ⟨key, fault, p, hgives, hp, rfl⟩

end PseudoBoolean

/-! ## What the caller is told -/

/-- The error that the objective raised, or its value that is not a real number, is what a failed
compilation reports, with the probe, whenever one coefficient is computed after another or no two
workers are at work at the same time.  In any other interleaving of the workers' steps, what is
reported is either that or its text, told by a worker that came across the failure and was recorded
first; the failure of the objective is then among the results that are not reported. -/
theorem compile_failure_source [Zero α] [Add α] [Sub α] (s : Settings α) (f : Objective ε α)
    (l : Layout) :
    (∀ e, s.parallel = false ∨ l.size ≤ 1 → (compile s f l).result = .error e →
      PseudoBoolean.Gives ⟨f, l⟩ e) ∧
    ∀ shares : List (List Place), shares.flatten.Perm (Probes.cells l.size) →
      ∀ moves e, (PseudoBoolean.workersAfter ⟨f, l⟩ shares moves).idle = true →
        PseudoBoolean.returned ⟨f, l⟩ shares moves = .error e →
        ((∀ begun, begun <+: moves → (PseudoBoolean.workersAfter ⟨f, l⟩ shares begun).Alone) →
          PseudoBoolean.Gives ⟨f, l⟩ e) ∧
        (PseudoBoolean.Gives ⟨f, l⟩ e ∨
          ∃ x fault p, PseudoBoolean.Gives ⟨f, l⟩ (.objective x fault) ∧
            (p, .error (.objective x fault)) ∈
              (PseudoBoolean.workersAfter ⟨f, l⟩ shares moves).results ∧
            e = .objective x (.replayed (Failure.objective x fault).message)) := by
  refine ⟨fun e hs h => PseudoBoolean.gives_of_serial (g := ⟨f, l⟩) hs h, ?_⟩
  intro shares hshares moves e hidle h
  exact ⟨fun halone => PseudoBoolean.gives_of_alone (g := ⟨f, l⟩) hshares hidle halone h,
    PseudoBoolean.gives_or_told (g := ⟨f, l⟩) hshares hidle h⟩

/-- An objective that asks for a name that is not there once its number is not zero.  One
coefficient after another, and by a single worker, the error that it raised is reported.  Of two
workers the second comes across the failure before the first has counted it as a miss, so that the
text is reported while the error itself stands among the results. -/
theorem compile_failure_source_unknown :
    let l : Layout := ⟨[⟨"x", .unsigned, 2, 0⟩], 2⟩
    let f : Objective CodingError ℚ := fun a =>
      (a.int "x").bind fun v =>
        if v.toInt = 0 then .ok 0 else (a.int "c").map fun c => (c.toInt : ℚ)
    let one : List (List Place) := [[(0, 0), (0, 1), (1, 1)]]
    let two : List (List Place) := [[(0, 0)], [(0, 1), (1, 1)]]
    let alone : List Move := List.replicate 30 (.step 0)
    let moves : List Move :=
      List.replicate 8 (.step 0) ++ List.replicate 8 (.step 1) ++ [.quit 1, .step 0, .step 0]
    (∃ e, (compile (.serial 0) f l).result = .error e ∧ PseudoBoolean.Gives ⟨f, l⟩ e) ∧
      (∃ e, PseudoBoolean.returned ⟨f, l⟩ one alone = .error e ∧ PseudoBoolean.Gives ⟨f, l⟩ e) ∧
      ∃ x fault p, PseudoBoolean.Gives ⟨f, l⟩ (.objective x fault) ∧
        (p, .error (.objective x fault)) ∈
          (PseudoBoolean.workersAfter ⟨f, l⟩ two moves).results := by
  intro l f one two alone moves
  refine ⟨?_, ?_, ?_⟩
  · have hfails : (compile (.serial 0) f l).result.toBool = false := by decide +kernel
    cases h : (compile (.serial 0) f l).result with
    | ok c =>
      rw [h] at hfails
      cases hfails
    | error e => exact ⟨e, rfl, (compile_failure_source (.serial 0) f l).1 e (.inl rfl) h⟩
  · have hfails : (PseudoBoolean.returned ⟨f, l⟩ one alone).toBool = false := by decide +kernel
    cases h : PseudoBoolean.returned ⟨f, l⟩ one alone with
    | ok c =>
      rw [h] at hfails
      cases hfails
    | error e =>
      refine ⟨e, rfl, ((compile_failure_source (.serial 0) f l).2 one (by decide) alone e
        (by decide +kernel) h).1 fun begun _ => ?_⟩
      exact Pool.alone_run (p := PseudoBoolean.crew ⟨f, l⟩ (PseudoBoolean.offsetMemo ⟨f, l⟩) one)
        (Nat.le_refl 1) begun
  · have htold : (match PseudoBoolean.returned ⟨f, l⟩ two moves with
        | .error (.objective _ (.replayed _)) => true
        | _ => false) = true := by decide +kernel
    split at htold
    · rename_i x message h
      have hsource := ((compile_failure_source (.serial 0) f l).2 two (by decide) moves _
        (by decide +kernel) h).2
      obtain ⟨x, fault, p, hgives, hrecorded, -⟩ :=
        hsource.resolve_left (PseudoBoolean.not_gives_replayed _ _ _)
      exact ⟨x, fault, p, hgives, hrecorded⟩
    · cases htold

/-- What the caller is told by those two workers is not the failure of the objective itself. -/
theorem compile_failure_text :
    let l : Layout := ⟨[⟨"x", .unsigned, 2, 0⟩], 2⟩
    let f : Objective CodingError ℚ := fun a =>
      (a.int "x").bind fun v =>
        if v.toInt = 0 then .ok 0 else (a.int "c").map fun c => (c.toInt : ℚ)
    let shares : List (List Place) := [[(0, 0)], [(0, 1), (1, 1)]]
    let moves : List Move :=
      List.replicate 8 (.step 0) ++ List.replicate 8 (.step 1) ++ [.quit 1, .step 0, .step 0]
    shares.flatten.Perm (Probes.cells l.size) ∧
      (PseudoBoolean.workersAfter ⟨f, l⟩ shares moves).idle = true ∧
      ∃ e, PseudoBoolean.returned ⟨f, l⟩ shares moves = .error e ∧
        ¬ PseudoBoolean.Gives ⟨f, l⟩ e := by
  intro l f shares moves
  refine ⟨by decide, by decide +kernel, ?_⟩
  have htold : (match PseudoBoolean.returned ⟨f, l⟩ shares moves with
      | .error (.objective _ (.replayed _)) => true
      | _ => false) = true := by decide +kernel
  split at htold
  · rename_i x message h
    exact ⟨_, h, PseudoBoolean.not_gives_replayed _ x message⟩
  · cases htold

end QuboProbe
