/-
  QuboProbe.Proofs.Compile.AnyOrder

  The coefficients do not depend on who computes them, nor in which order.
  `PseudoBoolean.Finished` says what is left when they have been computed, and
  it holds one after another (`finished_inOrder`), by workers whose steps
  interleave in any way (`finished_crew`), and by workers one after another
  (`finished_shared`).
-/
import QuboProbe.Proofs.Compile.Models
import QuboProbe.Proofs.Memo.Progress
import QuboProbe.Proofs.Memo.Totals

namespace QuboProbe

namespace PseudoBoolean

variable {ε α : Type} [Add α] [Sub α] [Cause ε] [Scalar α] {g : PseudoBoolean ε α}

/-! ## Coefficients of all places -/

/-- What results of single coefficients amount to: a failure of one of them, or the values of all
of them, in any order. -/
inductive Reports (results : List (Place × Except (Failure ε α) α)) :
    Except (Failure ε α) (Coefficients α) → Prop where
  | failed {p : Place} {e : Failure ε α} (h : (p, .error e) ∈ results) : Reports results (.error e)
  | values {cs : Coefficients α} (h : (cs.map fun c => (c.1, Except.ok c.2)).Perm results) :
      Reports results (.ok cs)

/-- The coefficients of places have been computed: the memo that there was, the memo that there is,
and the results.  Some places may have none once there is a failure. -/
structure Finished (g : PseudoBoolean ε α) (places : List Place) (m m' : Memo α)
    (results : List (Place × Except (Failure ε α) α)) : Prop where
  settled : m'.Settled g.evaluate
  started : ∀ x ∈ m'.started, x ∈ Probes.vectors g.arity
  mem : ∀ x ∈ results, x.1 ∈ places
  yields : ∀ x ∈ results, (g.coefficient x.1).Yields g.evaluate x.2
  complete : (results.map Prod.fst).Perm places ∨ ∃ x ∈ results, ∃ e, x.2 = .error e
  totals : (∀ x ∈ Probes.vectors g.arity, ∃ v, g.evaluate x = .ok v) →
    m'.tally.lookups = m.tally.lookups + (places.flatMap (Probes.ofPlace g.arity)).length ∧
      ∀ x, x ∈ m.started ∨ x ∈ places.flatMap (Probes.ofPlace g.arity) → x ∈ m'.started

omit [Add α] [Sub α] [Cause ε] [Scalar α] in
theorem Reports.perm {results results' : List (Place × Except (Failure ε α) α)}
    {r : Except (Failure ε α) (Coefficients α)} (h : Reports results r)
    (hperm : results.Perm results') : Reports results' r := by
  cases h with
  | failed h => exact .failed (hperm.mem_iff.1 h)
  | values h => exact .values (h.trans hperm)

omit [Add α] [Sub α] [Cause ε] [Scalar α] in
/-- What a pool reports is what the results of its jobs amount to. -/
theorem reports_collect (pool : Pool Place ε α) : Reports pool.results pool.collect := by
  have h (results : List (Place × Except (Failure ε α) α)) :
      Reports results (results.mapM fun r => r.2.map fun v => (r.1, v)) := by
    induction results with
    | nil => exact .values (.refl [])
    | cons x results ih =>
      obtain ⟨p, r⟩ := x
      rw [List.mapM_cons]
      cases r with
      | error e => exact .failed List.mem_cons_self
      | ok v =>
        cases hrest : results.mapM fun r => r.2.map fun v => (r.1, v) with
        | error e =>
          rw [hrest] at ih
          cases ih with
          | failed h => exact .failed (List.mem_cons_of_mem _ h)
        | ok cs =>
          rw [hrest] at ih
          cases ih with
          | values h => exact .values (h.cons (p, Except.ok v))
  exact (h pool.results.reverse).perm (List.reverse_perm pool.results)

omit [Add α] [Sub α] [Cause ε] [Scalar α] in
theorem probes_of_cells {p : Place} (hp : p ∈ Probes.cells g.arity) :
    ∀ x ∈ Probes.ofPlace g.arity p, x ∈ Probes.vectors g.arity := fun _ hx =>
  Probes.mem_vectors_iff_ofPlace.2 (.inr ⟨p, hp, hx⟩)

/-- A coefficient that fails comes of a probe on which the objective fails. -/
theorem failsOn_of_yields {p : Place} (hp : p ∈ Probes.cells g.arity) {e : Failure ε α}
    (h : (g.coefficient p).Yields g.evaluate (.error e)) :
    ∃ x ∈ Probes.vectors g.arity, g.FailsOn x ∧ ∃ fault, e = .objective x fault := by
  obtain ⟨x, hx, ha⟩ := answers_of_yields h
  have hx' := probes_of_cells hp x hx
  exact ⟨x, hx', failsOn_of_answers (Probes.length_of_mem_vectors hx') ha⟩

/-- Where every probe has a value, a coefficient has one. -/
theorem exists_value_of_yields (hok : ∀ x ∈ Probes.vectors g.arity, ∃ v, g.evaluate x = .ok v)
    {p : Place} (hp : p ∈ Probes.cells g.arity) {r : Except (Failure ε α) α}
    (h : (g.coefficient p).Yields g.evaluate r) : ∃ v, r = .ok v := by
  cases r with
  | ok v => exact ⟨v, rfl⟩
  | error e =>
    obtain ⟨x, hx, hfails, -⟩ := failsOn_of_yields hp h
    exact absurd hfails ((exists_value_iff (Probes.length_of_mem_vectors hx)).1 (hok x hx))

variable {places more : List Place} {m m' m'' : Memo α}
  {results results' : List (Place × Except (Failure ε α) α)}

/-- Without a probe on which the objective fails, no coefficient fails. -/
theorem Finished.no_error (h : g.Finished places m m' results)
    (hplaces : places ⊆ Probes.cells g.arity)
    (hok : ∀ x ∈ Probes.vectors g.arity, ∃ v, g.evaluate x = .ok v) :
    ¬ ∃ x ∈ results, ∃ e, x.2 = .error e := by
  rintro ⟨y, hy, e, he⟩
  obtain ⟨v, hv⟩ := exists_value_of_yields hok (hplaces (h.mem y hy)) (h.yields y hy)
  cases hv.symm.trans he

/-- After a failure the places that are left may be left out. -/
theorem Finished.stop (h : g.Finished places m m' results)
    (hplaces : places ⊆ Probes.cells g.arity) (herror : ∃ x ∈ results, ∃ e, x.2 = .error e) :
    g.Finished (places ++ more) m m' results where
  settled := h.settled
  started := h.started
  mem x hx := List.mem_append_left _ (h.mem x hx)
  yields := h.yields
  complete := .inr herror
  totals hok := absurd herror (h.no_error hplaces hok)

theorem Finished.append (h : g.Finished places m m' results)
    (h' : g.Finished more m' m'' results') :
    g.Finished (places ++ more) m m'' (results ++ results') where
  settled := h'.settled
  started := h'.started
  mem x hx := (List.mem_append.1 hx).elim (fun hx => List.mem_append_left _ (h.mem x hx))
    fun hx => List.mem_append_right _ (h'.mem x hx)
  yields x hx := (List.mem_append.1 hx).elim (h.yields x) (h'.yields x)
  complete := by
    rcases h.complete with hperm | ⟨x, hx, he⟩
    · rcases h'.complete with hperm' | ⟨x, hx, he⟩
      · left
        rw [List.map_append]
        exact hperm.append hperm'
      · exact .inr ⟨x, List.mem_append_right _ hx, he⟩
    · exact .inr ⟨x, List.mem_append_left _ hx, he⟩
  totals hok := by
    obtain ⟨hlookups, hstarted⟩ := h.totals hok
    obtain ⟨hlookups', hstarted'⟩ := h'.totals hok
    refine ⟨?_, fun x hx => hstarted' x ?_⟩
    · rw [hlookups', hlookups, List.flatMap_append, List.length_append, Nat.add_assoc]
    · rw [List.flatMap_append, List.mem_append, ← or_assoc] at hx
      exact hx.imp_left (hstarted x)

/-! ## One after another -/

theorem finished_run {p : Place} (hp : p ∈ Probes.cells g.arity) (hm : m.Settled g.evaluate)
    (hstarted : ∀ x ∈ m.started, x ∈ Probes.vectors g.arity) :
    g.Finished [p] m ((g.coefficient p).run m).2 [(p, ((g.coefficient p).run m).1)] := by
  have hprobes := probes_of_cells hp
  have hlooks := coefficient_looksUp hprobes
  refine ⟨hlooks.run_settled hm, fun x hx => ?_, by simp, ?_, .inl (.refl _), fun hok => ?_⟩
  · exact ((hlooks.run_started hm).2 x hx).elim (hstarted x) id
  · intro x hx
    rw [List.mem_singleton.1 hx]
    exact hlooks.run_yields hm
  · obtain ⟨hkeys, hlookups⟩ := hlooks.run_keys hm hok
    rw [keys_coefficient fun x hx => hok x (hprobes x hx)] at hkeys hlookups
    rw [List.flatMap_singleton]
    refine ⟨hlookups, fun x hx => ?_⟩
    rcases hx with hx | hx
    · exact (hlooks.run_started hm).1 hx
    · exact hkeys hx

theorem finished_inOrder (hplaces : places ⊆ Probes.cells g.arity) (hm : m.Settled g.evaluate)
    (hstarted : ∀ x ∈ m.started, x ∈ Probes.vectors g.arity) :
    ∃ results, g.Finished places m (g.inOrder places m).2 results ∧
      Reports results (g.inOrder places m).1 := by
  induction places generalizing m with
  | nil =>
    refine ⟨[], ⟨hm, hstarted, by simp, by simp, .inl (.refl []), fun _ => ⟨rfl, ?_⟩⟩,
      .values (.refl [])⟩
    exact fun x hx => hx.elim id fun h => absurd h List.not_mem_nil
  | cons p places ih =>
    obtain ⟨hp, hrest⟩ := List.cons_subset.1 hplaces
    have hfirst := finished_run hp hm hstarted
    rw [inOrder]
    obtain ⟨r, m', hrun⟩ : ∃ r m', (g.coefficient p).run m = (r, m') := ⟨_, _, rfl⟩
    rw [hrun] at hfirst ⊢
    cases r with
    | error e =>
      -- the places that are left stay undone
      refine ⟨[(p, .error e)], hfirst.stop (List.cons_subset.2 ⟨hp, List.nil_subset _⟩) ?_,
        .failed (List.mem_singleton_self _)⟩
      exact ⟨_, List.mem_singleton_self _, e, rfl⟩
    | ok v =>
      -- the result of this place stands before those of the rest
      obtain ⟨results, hfin, hreports⟩ := ih hrest hfirst.settled hfirst.started
      refine ⟨(p, .ok v) :: results, ?_, ?_⟩
      · have := hfirst.append hfin
        dsimp only
        split <;> rename_i h <;> rw [h] at this <;> exact this
      · dsimp only
        split <;> rename_i h <;> rw [h] at hreports <;> cases hreports
        · exact .failed (List.mem_cons_of_mem _ ‹_›)
        · exact .values (.cons (p, Except.ok v) ‹_›)

/-! ## By workers, in any order -/

/-- The computation of coefficients by workers that start on a settled memo. -/
theorem sound_crew (hm : m.Settled g.evaluate)
    (hstarted : ∀ x ∈ m.started, x ∈ Probes.vectors g.arity) {shares : List (List Place)}
    (hshares : shares.flatten.Perm (Probes.cells g.arity)) :
    (g.crew m shares).Sound g.evaluate (· ∈ Probes.vectors g.arity) 4 g.coefficient := by
  apply Pool.sound_ofQueues hm hstarted
  intro queue hqueue x hx
  obtain ⟨share, hshare, rfl⟩ := List.mem_map.1 hqueue
  obtain ⟨p, hp, rfl⟩ := List.mem_map.1 hx
  have hcell := hshares.mem_iff.1 (List.mem_flatten_of_mem hshare hp)
  exact ⟨rfl, coefficient_looksUp (probes_of_cells hcell)⟩

omit [Cause ε] in
/-- The probes that workers are to look up are those of all places. -/
theorem keys_crew {shares : List (List Place)}
    (hshares : shares.flatten.Perm (Probes.cells g.arity))
    (hok : ∀ x ∈ Probes.vectors g.arity, ∃ v, g.evaluate x = .ok v) :
    ((shares.map fun places => places.map fun p => (p, g.coefficient p)).flatten.flatMap
      fun x => x.2.keys g.evaluate).Perm
        ((Probes.cells g.arity).flatMap (Probes.ofPlace g.arity)) := by
  rw [← List.map_flatten, List.flatMap_map]
  refine (hshares.flatMap_right _).trans (.of_eq ?_)
  apply List.flatMap_congr
  intro p hp
  exact keys_coefficient fun x hx => hok x (probes_of_cells hp x hx)

/-- What workers have done when nobody has anything left to do. -/
theorem finished_crew (hm : m.Settled g.evaluate)
    (hstarted : ∀ x ∈ m.started, x ∈ Probes.vectors g.arity) {shares : List (List Place)}
    (hshares : shares.flatten.Perm (Probes.cells g.arity)) {moves : List Move}
    (hidle : ((g.crew m shares).run moves).idle = true) :
    g.Finished (Probes.cells g.arity) m ((g.crew m shares).run moves).memo
      ((g.crew m shares).run moves).results := by
  have hsound := sound_crew hm hstarted hshares
  have hrun := hsound.run moves
  have htags : ((shares.map fun places => places.map fun p => (p, g.coefficient p)).flatten.map
      Prod.fst) = shares.flatten := by
    rw [← List.map_flatten, List.map_map]
    exact List.map_id _
  refine ⟨hrun.settled hidle, hrun.started, fun x hx => ?_, hrun.results, ?_, fun hok => ?_⟩
  · have hx' : x.1 ∈ ((g.crew m shares).run moves).tags :=
      List.mem_append_left _ (List.mem_map_of_mem hx)
    have := Pool.tags_run_subset (g.crew m shares) moves hx'
    rw [crew, Pool.tags_ofQueues, htags] at this
    exact hshares.mem_iff.1 this
  · rcases Pool.results_perm_or_failed _ moves hidle with h | h
    · rw [htags] at h
      exact .inl (h.trans hshares)
    · right
      obtain ⟨x, hx, hfailed⟩ := List.any_eq_true.1 h
      cases hr : x.2 with
      | ok v => simp [hr, Except.toBool] at hfailed
      | error e => exact ⟨x, hx, e, hr⟩
  · have hvalue : ∀ p ∈ shares.flatten, ∀ r, (g.coefficient p).Yields g.evaluate r →
        ∃ v, r = .ok v := fun p hp r hr => exists_value_of_yields hok (hshares.mem_iff.1 hp) hr
    have hkeys := keys_crew hshares hok
    obtain ⟨-, hlookups, hin⟩ := Pool.Sound.totals hsound hok (htags ▸ hvalue) hidle
    refine ⟨hlookups.trans (by rw [hkeys.length_eq]), fun x hx => hin x ?_⟩
    exact hx.imp_right hkeys.mem_iff.2

/-- The shares of the places are all places. -/
theorem flatten_shareOut (workers : Nat) (places : List Place) :
    (shareOut workers places).flatten = places := by
  cases places with
  | nil => rfl
  | cons p places =>
    refine flatten_chunks (Nat.div_pos ?_ (by omega)) _
    rw [List.length_cons]
    omega

/-- One worker after another computes its share. -/
theorem finished_shared (workers : Nat) (hm : m.Settled g.evaluate)
    (hstarted : ∀ x ∈ m.started, x ∈ Probes.vectors g.arity) :
    ∃ results, g.Finished (Probes.cells g.arity) m
        (g.shared workers (Probes.cells g.arity) m).2 results ∧
      Reports results (g.shared workers (Probes.cells g.arity) m).1 := by
  have hshares : (shareOut workers (Probes.cells g.arity)).flatten.Perm (Probes.cells g.arity) :=
    .of_eq (flatten_shareOut workers _)
  have hidle := Pool.Sound.run_inTurn
    ((shareOut workers (Probes.cells g.arity)).map fun share =>
      (enoughSteps share, share.map fun p => (p, g.coefficient p)))
    (by rw [List.map_map]; exact sound_crew hm hstarted hshares) (fun q hq => by
      obtain ⟨share, -, rfl⟩ := List.mem_map.1 hq
      simp [enoughSteps])
  rw [List.map_map, List.map_map] at hidle
  exact ⟨_, finished_crew hm hstarted hshares hidle, reports_collect _⟩

end PseudoBoolean

end QuboProbe
