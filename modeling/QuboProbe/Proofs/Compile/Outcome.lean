/-
  QuboProbe.Proofs.Compile.Outcome

  What a compilation comes to, whatever its settings.  If the objective fails
  on no probe, it gives the model of the values on the probes and evaluates
  each probe once (`PseudoBoolean.compileWith_value`); otherwise it fails on
  such a probe (`PseudoBoolean.compileWith_fails`).
-/
import QuboProbe.Proofs.Compile.AnyOrder

namespace QuboProbe

/-- The look-ups of a compilation without failures: each probe is evaluated once, and all others
are hits. -/
def Probes.tally (n : Nat) : Tally :=
  ⟨1 + ((cells n).flatMap (ofPlace n)).length - (vectors n).length, (vectors n).length⟩

namespace PseudoBoolean

variable {ε α : Type} [Add α] [Sub α] [Cause ε] [Scalar α] {g : PseudoBoolean ε α}
  {m m' : Memo α} {results : List (Place × Except (Failure ε α) α)}

variable [Zero α]

/-! ## The offset -/

/-- The value on some bits, zero where there is none. -/
def value (g : PseudoBoolean ε α) (x : BitString) : α :=
  match g.evaluate x with
  | .ok v => v
  | .error _ => 0

/-- The memo once the offset has been looked up. -/
def offsetMemo (g : PseudoBoolean ε α) : Memo α := ((g.ask (.zeros g.arity)).run .empty).2

omit [Add α] [Sub α] [Cause ε] in
theorem evaluate_eq_value {x : BitString} (hx : x.length = g.arity) (h : ¬ g.FailsOn x) :
    g.evaluate x = .ok (g.value x) := by
  obtain ⟨v, hv⟩ := (exists_value_iff hx).2 h
  rw [value, hv]

omit [Add α] [Sub α] [Zero α] in
theorem run_offset (g : PseudoBoolean ε α) :
    (g.ask (.zeros g.arity)).run .empty = (g.evaluate (.zeros g.arity), g.offsetMemo) := by
  refine Prod.ext ?_ rfl
  rw [ask, Script.run_lookup, Memo.look, Memo.outcome?_empty]

omit [Add α] [Sub α] [Zero α] in
theorem settled_offsetMemo (g : PseudoBoolean ε α) : g.offsetMemo.Settled g.evaluate := by
  rw [offsetMemo, ask, Script.run_lookup]
  exact Memo.Settled.empty.look _

omit [Add α] [Sub α] [Zero α] in
theorem started_offsetMemo (g : PseudoBoolean ε α) : g.offsetMemo.started = [.zeros g.arity] := by
  rw [offsetMemo, ask, Script.run_lookup, Memo.started_look Memo.Settled.empty]
  simp [Memo.empty]

omit [Add α] [Sub α] [Zero α] in
theorem probes_offsetMemo : ∀ x ∈ g.offsetMemo.started, x ∈ Probes.vectors g.arity := by
  intro x hx
  rw [started_offsetMemo, List.mem_singleton] at hx
  exact Probes.mem_vectors_iff_ofPlace.2 (.inl hx)

omit [Add α] [Sub α] [Zero α] in
theorem lookups_offsetMemo (g : PseudoBoolean ε α) : g.offsetMemo.tally.lookups = 1 := by
  rw [offsetMemo, ask, Script.run_lookup, Memo.lookups_look]
  rfl

omit [Add α] [Sub α] [Zero α] [Cause ε] in
/-- If there is no offset, the objective fails on the first probe. -/
theorem failsOn_of_offset {e : Failure ε α} (h : g.evaluate (.zeros g.arity) = .error e) :
    ∃ x ∈ Probes.vectors g.arity, g.FailsOn x ∧ ∃ fault, e = .objective x fault := by
  rcases evaluate_cases (BitString.length_zeros g.arity) with ⟨⟨v, hv⟩, -⟩ | ⟨hf, fault, he⟩
  · cases hv.symm.trans h
  · exact ⟨_, Probes.mem_vectors_iff_ofPlace.2 (.inl rfl), hf, fault,
      Except.error.inj (h.symm.trans he)⟩

/-! ## From coefficients to a compilation -/

omit [Zero α] in
/-- If the objective fails on a probe, but not on the first, then the coefficients fail, and what
they report is a failure of the objective on a probe. -/
theorem Finished.fails (h : g.Finished (Probes.cells g.arity) m m' results)
    {r : Except (Failure ε α) (Coefficients α)} (hr : Reports results r)
    (hzero : ¬ g.FailsOn (.zeros g.arity)) (hfails : ∃ x ∈ Probes.vectors g.arity, g.FailsOn x) :
    ∃ x ∈ Probes.vectors g.arity, g.FailsOn x ∧ ∃ fault, r = .error (.objective x fault) := by
  cases hr with
  | @failed p e hp =>
    obtain ⟨x, hx, hx', fault, rfl⟩ := failsOn_of_yields (h.mem _ hp) (h.yields _ hp)
    exact ⟨x, hx, hx', fault, rfl⟩
  | @values cs hperm =>
    -- if there were values alone, the place that reads the probe would have one
    exfalso
    obtain ⟨x, hx, hx'⟩ := hfails
    obtain ⟨p, hp, hxp⟩ : ∃ p ∈ Probes.cells g.arity, x ∈ Probes.ofPlace g.arity p := by
      rcases Probes.mem_vectors_iff_ofPlace.1 hx with rfl | hp
      · exact absurd hx' hzero
      · exact hp
    have hresult : ∀ y ∈ results, ∃ v, y.2 = .ok v := fun y hy => by
      obtain ⟨c, -, rfl⟩ := List.mem_map.1 (hperm.mem_iff.2 hy)
      exact ⟨c.2, rfl⟩
    rcases h.complete with hall | ⟨y, hy, e, he⟩
    · obtain ⟨y, hy, rfl⟩ := List.mem_map.1 (hall.mem_iff.2 hp)
      obtain ⟨v, hv⟩ := hresult y hy
      have hyields := h.yields y hy
      rw [hv] at hyields
      exact (exists_value_iff (Probes.length_of_mem_vectors hx)).1
        (evaluate_of_yields hyields x hxp) hx'
    · obtain ⟨v, hv⟩ := hresult y hy
      cases hv.symm.trans he

/-- The coefficients that are reported are those of the values, if the objective fails on no
probe. -/
theorem Finished.reported (h : g.Finished (Probes.cells g.arity) m m' results)
    {r : Except (Failure ε α) (Coefficients α)} (hr : Reports results r)
    (hok : ∀ x ∈ Probes.vectors g.arity, ¬ g.FailsOn x) :
    ∃ places : List Place, places.Perm (Probes.cells g.arity) ∧
      r = .ok (places.map fun p => (p, coefficientOf g.value g.arity p)) := by
  have hvalue : ∀ x ∈ Probes.vectors g.arity, g.evaluate x = .ok (g.value x) := fun x hx =>
    evaluate_eq_value (Probes.length_of_mem_vectors hx) (hok x hx)
  cases hr with
  | failed hp =>
    obtain ⟨x, hx, hx', -⟩ := failsOn_of_yields (h.mem _ hp) (h.yields _ hp)
    exact absurd hx' (hok x hx)
  | @values cs hperm =>
    have hall : (results.map Prod.fst).Perm (Probes.cells g.arity) :=
      h.complete.resolve_right (h.no_error (List.Subset.refl _) fun x hx => ⟨_, hvalue x hx⟩)
    have hplaces : (cs.map Prod.fst).Perm (Probes.cells g.arity) := by
      have := hperm.map Prod.fst
      rw [List.map_map] at this
      exact this.trans hall
    refine ⟨cs.map Prod.fst, hplaces, congrArg Except.ok ?_⟩
    rw [List.map_map]
    refine (List.map_id cs).symm.trans (List.map_congr_left fun c hc => ?_)
    have hresult : (c.1, Except.ok c.2) ∈ results := hperm.mem_iff.1 (List.mem_map_of_mem hc)
    have hcell : c.1 ∈ Probes.cells g.arity := hplaces.mem_iff.1 (List.mem_map_of_mem hc)
    have hyields := (yields_coefficient (fun x hx => hvalue x (probes_of_cells hcell x hx)) _).1
      (h.yields _ hresult)
    exact Prod.ext rfl (Except.ok.inj hyields)

/-- If the objective fails on no probe, each probe has been evaluated once. -/
theorem Finished.tally_eq (h : g.Finished (Probes.cells g.arity) g.offsetMemo m' results)
    (hok : ∀ x ∈ Probes.vectors g.arity, ¬ g.FailsOn x) : m'.tally = Probes.tally g.arity := by
  obtain ⟨hlookups, hall⟩ := h.totals fun x hx =>
    ⟨_, evaluate_eq_value (Probes.length_of_mem_vectors hx) (hok x hx)⟩
  have hstarted : m'.started.Perm (Probes.vectors g.arity) := by
    apply (List.perm_ext_iff_of_nodup h.settled.nodup (Probes.nodup_vectors _)).2
    intro x
    refine ⟨h.started x, fun hx => hall x ?_⟩
    rw [started_offsetMemo, List.mem_singleton, List.mem_flatMap]
    exact Probes.mem_vectors_iff_ofPlace.1 hx
  have hmisses : m'.tally.misses = (Probes.vectors g.arity).length :=
    h.settled.misses.trans hstarted.length_eq
  rw [lookups_offsetMemo, Tally.lookups] at hlookups
  have hhits : m'.tally.hits = (Probes.tally g.arity).hits := by
    simp only [Probes.tally]
    omega
  calc m'.tally = ⟨m'.tally.hits, m'.tally.misses⟩ := rfl
    _ = Probes.tally g.arity := by rw [hhits, hmisses]; rfl

/-- The compilation that coefficients lead to, if the objective fails on no probe. -/
theorem Finished.compilation_eq (h : g.Finished (Probes.cells g.arity) g.offsetMemo m' results)
    {r : Except (Failure ε α) (Coefficients α)} (hr : Reports results r)
    (hok : ∀ x ∈ Probes.vectors g.arity, ¬ g.FailsOn x) :
    (r.map fun cs =>
      (⟨assemble g.arity (g.value (.zeros g.arity)) cs, m'.tally⟩ : Compilation α)) =
        .ok ⟨modelOf g.value g.arity, Probes.tally g.arity⟩ := by
  obtain ⟨places, hperm, rfl⟩ := h.reported hr hok
  rw [Except.map, assemble_perm _ _ (fun p => Probes.lt_of_mem_cells) hperm, h.tally_eq hok,
    modelOf]

/-! ## Compilations -/

/-- A compilation looks up the offset and then computes the coefficients, in one way or the
other. -/
theorem compileWith_cases (g : PseudoBoolean ε α) (s : Settings α) :
    (∃ e, g.evaluate (.zeros g.arity) = .error e ∧ g.compileWith s = (.error e, g.offsetMemo)) ∨
      ∃ offset m' results r, g.evaluate (.zeros g.arity) = .ok offset ∧
        g.Finished (Probes.cells g.arity) g.offsetMemo m' results ∧ Reports results r ∧
        g.compileWith s = (r.map fun cs => ⟨assemble g.arity offset cs, m'.tally⟩, m') := by
  rw [compileWith, run_offset]
  cases hzero : g.evaluate (.zeros g.arity) with
  | error e => exact .inl ⟨e, rfl, rfl⟩
  | ok offset =>
    right
    have hcoefficients : ∃ results, g.Finished (Probes.cells g.arity) g.offsetMemo
        (g.coefficients s g.offsetMemo).2 results ∧
          Reports results (g.coefficients s g.offsetMemo).1 := by
      rw [coefficients]
      split
      · exact finished_shared s.workers (settled_offsetMemo g) probes_offsetMemo
      · exact finished_inOrder (List.Subset.refl _) (settled_offsetMemo g) probes_offsetMemo
    obtain ⟨results, hfinished, hreports⟩ := hcoefficients
    refine ⟨offset, _, results, _, rfl, hfinished, hreports, ?_⟩
    dsimp only
    split <;> rename_i h <;> rw [h] <;> rfl

/-- Without a probe on which the objective fails, a compilation gives the model of its values,
whatever the settings. -/
theorem compileWith_value (hok : ∀ x ∈ Probes.vectors g.arity, ¬ g.FailsOn x) (s : Settings α) :
    (g.compileWith s).1 = .ok ⟨modelOf g.value g.arity, Probes.tally g.arity⟩ := by
  have hzero := evaluate_eq_value (BitString.length_zeros _)
    (hok _ (Probes.mem_vectors_iff_ofPlace.2 (.inl rfl)))
  rcases compileWith_cases g s with ⟨e, he, -⟩ | ⟨offset, m', results, r, ho, hfin, hrep, heq⟩
  · cases hzero.symm.trans he
  · obtain rfl : g.value (.zeros g.arity) = offset := Except.ok.inj (hzero.symm.trans ho)
    rw [heq]
    exact hfin.compilation_eq hrep hok

/-- With a probe on which the objective fails, a compilation fails on such a probe. -/
theorem compileWith_fails (hfails : ∃ x ∈ Probes.vectors g.arity, g.FailsOn x) (s : Settings α) :
    ∃ x ∈ Probes.vectors g.arity, g.FailsOn x ∧
      ∃ fault, (g.compileWith s).1 = .error (.objective x fault) := by
  rcases compileWith_cases g s with ⟨e, he, heq⟩ | ⟨offset, m', results, r, ho, hfin, hrep, heq⟩
  · obtain ⟨x, hx, hx', fault, rfl⟩ := failsOn_of_offset he
    exact ⟨x, hx, hx', fault, by rw [heq]⟩
  · have hzero := (exists_value_iff (BitString.length_zeros g.arity)).1 ⟨offset, ho⟩
    obtain ⟨x, hx, hx', fault, rfl⟩ := hfin.fails hrep hzero hfails
    refine ⟨x, hx, hx', fault, ?_⟩
    rw [heq]
    rfl

theorem started_compileWith_nodup (g : PseudoBoolean ε α) (s : Settings α) :
    (g.compileWith s).2.started.Nodup := by
  rcases compileWith_cases g s with ⟨e, -, heq⟩ | ⟨offset, m', results, r, -, hfin, -, heq⟩
  · rw [heq]
    exact (settled_offsetMemo g).nodup
  · rw [heq]
    exact hfin.settled.nodup

end PseudoBoolean

variable {ε α : Type} [Zero α] [Add α] [Sub α] [Cause ε] [Scalar α]

/-- A compilation succeeds exactly if the objective fails on no probe, and there is one thing that
it can give. -/
theorem compile_eq_ok_iff {s : Settings α} {f : Objective ε α} {l : Layout} {c : Compilation α} :
    (compile s f l).result = .ok c ↔
      (∀ x ∈ Probes.vectors l.size, ¬ PseudoBoolean.FailsOn ⟨f, l⟩ x) ∧
        c = ⟨PseudoBoolean.modelOf (PseudoBoolean.value ⟨f, l⟩) l.size, Probes.tally l.size⟩ := by
  have hresult : (compile s f l).result = (PseudoBoolean.compileWith ⟨f, l⟩ s).1 := rfl
  rw [hresult]
  by_cases hok : ∀ x ∈ Probes.vectors l.size, ¬ PseudoBoolean.FailsOn ⟨f, l⟩ x
  · rw [PseudoBoolean.compileWith_value (g := ⟨f, l⟩) hok s, Except.ok.injEq]
    exact ⟨fun h => ⟨hok, h.symm⟩, fun h => h.2.symm⟩
  · have hfails : ∃ x ∈ Probes.vectors l.size, PseudoBoolean.FailsOn ⟨f, l⟩ x := by
      simpa only [not_forall, not_not, exists_prop] using hok
    obtain ⟨x, -, -, fault, herror⟩ := PseudoBoolean.compileWith_fails (g := ⟨f, l⟩) hfails s
    rw [herror]
    exact ⟨nofun, fun h => absurd h.1 hok⟩

end QuboProbe
