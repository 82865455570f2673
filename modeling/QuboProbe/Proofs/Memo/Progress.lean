/-
  QuboProbe.Proofs.Memo.Progress

  Workers that only look up keys never block each other for good: a worker
  waits only for one that can move on.  Every move that changes their pool
  brings it nearer to the end (`Pool.Sound.turn_steps`), some move always does
  (`Pool.Sound.exists_move`), and so every interleaving can be continued until
  nobody has anything left to do (`Pool.Sound.exists_idle`).

  The measure, `Worker.steps`, is the number of steps that a worker has left
  when it need not wait.  A worker that is alone at work never waits, so one
  worker after another is an interleaving that ends (`Pool.Sound.run_inTurn`).
-/
import QuboProbe.Proofs.Memo.Crew

namespace QuboProbe

variable {τ ε α : Type} {evaluate : BitString → Except (Failure ε α) α} {P : BitString → Prop}
  {k : Nat} {script : τ → Script ε α}

/-! ## Steps left -/

/-- The least number of steps within which a job is over when it need not wait. -/
noncomputable def Job.steps (evaluate : BitString → Except (Failure ε α) α) (P : BitString → Prop)
    (job : Job τ ε α) : Nat := sInf {c | job.Within evaluate P c}

/-- The steps that a worker has left; a queued job is taken, and makes at most `k` look-ups. -/
noncomputable def Worker.steps (evaluate : BitString → Except (Failure ε α) α)
    (P : BitString → Prop) (k : Nat) (w : Worker τ ε α) : Nat :=
  (w.job.map (Job.steps evaluate P)).getD 0 + (5 * k + 2) * w.queue.length

noncomputable def Pool.steps (evaluate : BitString → Except (Failure ε α) α)
    (P : BitString → Prop) (k : Nat) (p : Pool τ ε α) : Nat :=
  (p.workers.map (Worker.steps evaluate P k)).sum

theorem Job.Within.steps_le {job : Job τ ε α} {c : Nat} (h : job.Within evaluate P c) :
    job.steps evaluate P ≤ c := Nat.sInf_le h

theorem Job.Within.steps {job : Job τ ε α} {c : Nat} (h : job.Within evaluate P c) :
    job.Within evaluate P (job.steps evaluate P) :=
  Nat.sInf_mem (s := {c | job.Within evaluate P c}) ⟨c, h⟩

/-- A job that claims a key is inside no evaluation. -/
theorem Job.Within.openKeys_eq_nil {job : Job τ ε α} {c : Nat} (h : job.Within evaluate P c)
    {key : BitString} {evaluation : Unit → Script ε α}
    {next : Except (Failure ε α) α → Script ε α}
    (hphase : job.phase = .claiming key evaluation next) : job.openKeys = [] := by
  cases h with
  | claiming => rfl
  | running | evaluating | entered | hitting | missing => cases hphase

theorem Job.Within.pos {job : Job τ ε α} {c : Nat} (h : job.Within evaluate P c) : 0 < c := by
  cases h <;> omega

theorem Pool.steps_split {m : Memo α} {before after : List (Worker τ ε α)} {w : Worker τ ε α}
    {results : List (τ × Except (Failure ε α) α)} :
    (⟨m, before ++ w :: after, results⟩ : Pool τ ε α).steps evaluate P k =
      ((before ++ after).map (Worker.steps evaluate P k)).sum + w.steps evaluate P k := by
  simp only [Pool.steps, List.map_append, List.map_cons, List.sum_append, List.sum_cons]
  omega

variable [Cause ε] [Scalar α]

/-- A worker is a step nearer to its end after a turn, unless it waits. -/
theorem Worker.Turn.steps_lt {m m' : Memo α} {w w' : Worker τ ε α}
    {new : List (τ × Except (Failure ε α) α)} (h : Worker.Turn m w m' w' new)
    (hw : w.Sound evaluate P k script) :
    (w.Waits m ∧ m' = m ∧ w' = w ∧ new = []) ∨
      w'.steps evaluate P k < w.steps evaluate P k := by
  cases h with
  | take tag s queue =>
    right
    have hlooks : s.LooksUp evaluate P k := (hw.queue (tag, s) List.mem_cons_self).2
    have hsteps := (Job.Within.running tag hlooks).steps_le
    simp only [Worker.steps, Option.map_some, Option.map_none, Option.getD_some, Option.getD_none,
      List.length_cons, Nat.mul_add]
    omega
  | @advance _ job job' queue hjob =>
    obtain ⟨c, hc⟩ := hw.within job rfl
    rcases hjob.within hc.steps with ⟨hwaits, rfl, rfl⟩ | ⟨c', hlt, hc'⟩
    · exact .inl ⟨⟨job', rfl, hwaits⟩, rfl, rfl, rfl⟩
    · right
      have := hc'.steps_le
      simp only [Worker.steps, Option.map_some, Option.getD_some]
      omega
  | finish tag r queue =>
    right
    obtain ⟨c, hc⟩ := hw.within _ rfl
    have := hc.steps.pos
    simp only [Worker.steps, Option.map_some, Option.map_none, Option.getD_some, Option.getD_none]
    omega

/-- A worker without steps left has nothing to do. -/
theorem Worker.Sound.eq_idle {w : Worker τ ε α} (hw : w.Sound evaluate P k script)
    (h : w.steps evaluate P k = 0) : w = ⟨none, []⟩ := by
  obtain ⟨job, queue⟩ := w
  have hqueue : queue = [] := by
    simp only [Worker.steps] at h
    rcases Nat.mul_eq_zero.1 (show (5 * k + 2) * queue.length = 0 by omega) with h | h
    · omega
    · exact List.length_eq_zero_iff.1 h
  cases job with
  | none => rw [hqueue]
  | some job =>
    obtain ⟨c, hc⟩ := hw.within job rfl
    have := hc.steps.pos
    simp only [Worker.steps, Option.map_some, Option.getD_some] at h
    omega

namespace Pool

/-- A change of a pool brings it nearer to its end, and everything else changes nothing. -/
theorem Sound.turn_steps {p p' : Pool τ ε α} (hp : p.Sound evaluate P k script)
    (h : Turn p p') : p' = p ∨ p'.steps evaluate P k < p.steps evaluate P k := by
  cases h with
  | @step m m' before after w w' new results hw =>
    rw [steps_split, steps_split]
    rcases hw.steps_lt (hp.workers w (by simp)) with ⟨-, rfl, rfl, rfl⟩ | hlt
    · exact .inl rfl
    · exact .inr (by omega)
  | quit m before after job queue results hf =>
    rw [steps_split, steps_split]
    cases queue with
    | nil => exact .inl rfl
    | cons x queue =>
      right
      simp only [Worker.steps, List.length_nil, List.length_cons, Nat.mul_add]
      omega

/-- A worker that has something to do and does not wait brings the pool nearer to its end. -/
theorem Sound.step_steps {m : Memo α} {before after : List (Worker τ ε α)} {w : Worker τ ε α}
    {results : List (τ × Except (Failure ε α) α)}
    (hp : (⟨m, before ++ w :: after, results⟩ : Pool τ ε α).Sound evaluate P k script)
    (hw : w.job ≠ none ∨ w.queue ≠ []) (hwaits : ¬ w.Waits m) :
    ((⟨m, before ++ w :: after, results⟩ : Pool τ ε α).move (.step before.length)).steps
        evaluate P k <
      (⟨m, before ++ w :: after, results⟩ : Pool τ ε α).steps evaluate P k := by
  obtain ⟨m', w', new, hturn, hmove⟩ := hp.housed.move_step hw
  rw [hmove, steps_split, steps_split]
  rcases hturn.steps_lt (hp.workers w (by simp)) with ⟨h, -⟩ | hlt
  · exact absurd h hwaits
  · omega

/-- The worker that evaluates a busy key does not wait itself. -/
theorem Sound.exists_evaluator {p : Pool τ ε α} (hp : p.Sound evaluate P k script)
    {key : BitString} (hbusy : p.memo.cell? key = some .busy) :
    ∃ w ∈ p.workers, w.job ≠ none ∧ ¬ w.Waits p.memo := by
  have hopen := (hp.consistent.mem_open key).2 hbusy
  obtain ⟨w, hw, hkey⟩ := List.mem_flatMap.1 hopen
  refine ⟨w, hw, ?_, ?_⟩
  · intro hnone
    rw [Worker.openKeys, hnone] at hkey
    exact List.not_mem_nil hkey
  · rintro ⟨job, hjob, key', evaluation, next, hphase, -⟩
    obtain ⟨c, hc⟩ := (hp.workers w hw).within job hjob
    rw [Worker.openKeys, hjob, Option.map_some, Option.getD_some, hc.openKeys_eq_nil hphase] at hkey
    exact List.not_mem_nil hkey

/-- While someone has something left to do, some worker can do it. -/
theorem Sound.exists_move {p : Pool τ ε α} (hp : p.Sound evaluate P k script)
    (hidle : p.idle ≠ true) :
    ∃ mv, (p.move mv).steps evaluate P k < p.steps evaluate P k := by
  obtain ⟨w, hw, hbusy⟩ : ∃ w ∈ p.workers, w.job ≠ none ∨ w.queue ≠ [] := by
    rw [ne_eq, idle_iff] at hidle
    push Not at hidle
    obtain ⟨w, hw, h⟩ := hidle
    refine ⟨w, hw, ?_⟩
    by_cases hjob : w.job = none
    · exact .inr (h hjob)
    · exact .inl hjob
  obtain ⟨v, hv, hv', hfree⟩ :
      ∃ v ∈ p.workers, (v.job ≠ none ∨ v.queue ≠ []) ∧ ¬ v.Waits p.memo := by
    by_cases hwaits : w.Waits p.memo
    · obtain ⟨job, -, key, evaluation, next, -, hkey⟩ := hwaits
      obtain ⟨v, hv, hjob, hfree⟩ := hp.exists_evaluator hkey
      exact ⟨v, hv, .inl hjob, hfree⟩
    · exact ⟨w, hw, hbusy, hwaits⟩
  obtain ⟨m, workers, results⟩ := p
  obtain ⟨before, after, rfl⟩ := List.append_of_mem hv
  exact ⟨_, hp.step_steps hv' hfree⟩

/-- Every interleaving can be continued until nobody has anything left to do. -/
theorem Sound.exists_idle {p : Pool τ ε α} (hp : p.Sound evaluate P k script) :
    ∃ moves, (p.run moves).idle = true := by
  induction hn : p.steps evaluate P k using Nat.strong_induction_on generalizing p with
  | _ n ih =>
    by_cases hidle : p.idle = true
    · exact ⟨[], hidle⟩
    · obtain ⟨mv, hlt⟩ := hp.exists_move hidle
      obtain ⟨moves, hmoves⟩ := ih _ (hn ▸ hlt) (hp.run [mv]) rfl
      exact ⟨mv :: moves, hmoves⟩

/-! ## One worker after another -/

/-- A worker that is alone at work does not wait. -/
theorem Sound.not_waits_alone {m : Memo α} {before after : List (Worker τ ε α)}
    {w : Worker τ ε α} {results : List (τ × Except (Failure ε α) α)}
    (hp : (⟨m, before ++ w :: after, results⟩ : Pool τ ε α).Sound evaluate P k script)
    (hothers : ∀ u ∈ before ++ after, u.job = none) : ¬ w.Waits m := by
  rintro ⟨job, hjob, key, evaluation, next, hphase, hbusy⟩
  obtain ⟨v, hv, hvjob, hvfree⟩ := hp.exists_evaluator hbusy
  -- nobody else is at work, so the worker would be waiting for itself
  have hvw : v = w := by
    simp only [List.mem_append, List.mem_cons] at hv hothers
    rcases hv with hv | hv | hv
    · exact absurd (hothers v (.inl hv)) hvjob
    · exact hv
    · exact absurd (hothers v (.inr hv)) hvjob
  subst hvw
  exact hvfree ⟨job, hjob, key, evaluation, next, hphase, hbusy⟩

/-- Alone at work, a worker comes to its end within the steps that it has left. -/
theorem Sound.run_alone {m : Memo α} {before after : List (Worker τ ε α)} {w : Worker τ ε α}
    {results : List (τ × Except (Failure ε α) α)}
    (hp : (⟨m, before ++ w :: after, results⟩ : Pool τ ε α).Sound evaluate P k script)
    (hothers : ∀ u ∈ before ++ after, u.job = none) {n : Nat} (hn : w.steps evaluate P k ≤ n) :
    ∃ m' results', (⟨m, before ++ w :: after, results⟩ : Pool τ ε α).run
        (List.replicate n (.step before.length)) =
      ⟨m', before ++ ⟨none, []⟩ :: after, results'⟩ := by
  induction n generalizing m w results with
  | zero =>
    have hw := hp.workers w (by simp)
    rw [hw.eq_idle (Nat.le_zero.1 hn)]
    exact ⟨m, results, rfl⟩
  | succ n ih =>
    rw [List.replicate_succ, run_cons]
    by_cases hw : w.job ≠ none ∨ w.queue ≠ []
    · obtain ⟨m', w', new, hturn, hmove⟩ := hp.housed.move_step hw
      rcases hturn.steps_lt (hp.workers w (by simp)) with ⟨h, -⟩ | hlt
      · exact absurd h (hp.not_waits_alone hothers)
      · have hp' := hp.run [.step before.length]
        rw [run_cons, run_nil, hmove] at hp'
        rw [hmove]
        exact ih hp' (by omega)
    · -- the steps that are left over change nothing
      obtain ⟨job, queue⟩ := w
      simp only [ne_eq, not_or, Decidable.not_not] at hw
      obtain ⟨rfl, rfl⟩ := hw
      rw [move_step_of_idle]
      exact ih hp (by simp [Worker.steps])

/-- One worker after another, behind those that are finished already. -/
theorem Sound.run_inTurn_behind (crew : List (Nat × List (τ × Script ε α)))
    (hn : ∀ q ∈ crew, (5 * k + 2) * q.2.length ≤ q.1) (finished : List (Worker τ ε α))
    (hfinished : ∀ w ∈ finished, w = ⟨none, []⟩) (m : Memo α)
    (results : List (τ × Except (Failure ε α) α))
    (hp : (⟨m, finished ++ crew.map fun q => ⟨none, q.2⟩, results⟩ : Pool τ ε α).Sound
      evaluate P k script) :
    ((⟨m, finished ++ crew.map fun q => ⟨none, q.2⟩, results⟩ : Pool τ ε α).run
      (((crew.map Prod.fst).zipIdx finished.length).flatMap fun (k, i) =>
        List.replicate k (.step i))).idle = true := by
  -- the finished workers come first, so that the number of the next one is theirs
  induction crew generalizing finished m results with
  | nil =>
    apply idle_iff.2
    intro w hw
    have hw' : w ∈ finished := by simpa using (hw : w ∈ finished ++ [])
    rw [hfinished w hw']
    exact ⟨rfl, rfl⟩
  | cons q crew ih =>
    simp only [List.map_cons, List.zipIdx_cons, List.flatMap_cons] at hp ⊢
    have hothers : ∀ u ∈ finished ++ crew.map fun q => (⟨none, q.2⟩ : Worker τ ε α),
        u.job = none := by
      intro u hu
      rcases List.mem_append.1 hu with hu | hu
      · rw [hfinished u hu]
      · obtain ⟨q', -, rfl⟩ := List.mem_map.1 hu
        rfl
    have hq : (⟨none, q.2⟩ : Worker τ ε α).steps evaluate P k ≤ q.1 := by
      simpa [Worker.steps] using hn q List.mem_cons_self
    obtain ⟨m', results', hrun⟩ := hp.run_alone hothers hq
    have hp' := hp.run (List.replicate q.1 (.step finished.length))
    rw [hrun, List.append_cons] at hp'
    rw [run_append, hrun, List.append_cons]
    have hlen : finished.length + 1 = (finished ++ [(⟨none, []⟩ : Worker τ ε α)]).length := by simp
    rw [hlen]
    refine ih (fun q' hq' => hn q' (List.mem_cons_of_mem _ hq')) _ ?_ m' results' hp'
    intro w hw
    rcases List.mem_append.1 hw with hw | hw
    · exact hfinished w hw
    · exact List.mem_singleton.1 hw

/-- One worker after another, each for as many steps as its queue may need, comes to the end. -/
theorem Sound.run_inTurn {m : Memo α} (crew : List (Nat × List (τ × Script ε α)))
    (hp : (ofQueues m (crew.map Prod.snd) : Pool τ ε α).Sound evaluate P k script)
    (hn : ∀ q ∈ crew, (5 * k + 2) * q.2.length ≤ q.1) :
    ((ofQueues m (crew.map Prod.snd) : Pool τ ε α).run (inTurn (crew.map Prod.fst))).idle =
      true := by
  rw [ofQueues, List.map_map] at hp ⊢
  exact Sound.run_inTurn_behind crew hn [] (by simp) m [] hp

end Pool

end QuboProbe
