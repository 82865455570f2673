/-
  QuboProbe.Proofs.Memo.Totals

  What a pool has done in all when nobody has anything left to do.  Jobs are
  neither lost nor made up, except that workers may drop theirs once a job has
  failed (`Pool.tags_turn`).  If no job can fail, every key that was to be
  looked up has been evaluated, and the look-ups counted are as many as there
  were to be made, whoever made them and in whatever order
  (`Pool.Sound.totals`).
-/
import QuboProbe.Proofs.Memo.Crew

namespace QuboProbe

variable {τ ε α : Type} {evaluate : BitString → Except (Failure ε α) α} {P : BitString → Prop}
  {k : Nat} {script : τ → Script ε α}

/-! ## Jobs that are neither lost nor made up -/

/-- The tags of a worker's jobs, that in progress first. -/
def Worker.tags (w : Worker τ ε α) : List τ := (w.job.map Job.tag).toList ++ w.queue.map Prod.fst

/-- The tags of all jobs, over or not. -/
def Pool.tags (p : Pool τ ε α) : List τ :=
  p.results.map Prod.fst ++ p.workers.flatMap Worker.tags

theorem Worker.Turn.tags_eq [Cause ε] [Scalar α] {m m' : Memo α} {w w' : Worker τ ε α}
    {new : List (τ × Except (Failure ε α) α)} (h : Worker.Turn m w m' w' new) :
    new.map Prod.fst ++ w'.tags = w.tags := by
  cases h with
  | take | finish => rfl
  | advance queue hjob => simp [Worker.tags, hjob.tag_eq]

theorem Pool.tags_split {m : Memo α} {before after : List (Worker τ ε α)} {w : Worker τ ε α}
    {results : List (τ × Except (Failure ε α) α)} :
    (⟨m, before ++ w :: after, results⟩ : Pool τ ε α).tags.Perm
      (w.tags ++ (results.map Prod.fst ++ (before ++ after).flatMap Worker.tags)) := by
  refine ((Pool.flatMap_split Worker.tags before after w).append_left _).trans ?_
  exact List.perm_append_comm_assoc _ _ _

theorem Worker.Turn.tags_perm [Cause ε] [Scalar α] {m m' : Memo α}
    (before after : List (Worker τ ε α)) {w w' : Worker τ ε α}
    {new : List (τ × Except (Failure ε α) α)} (results : List (τ × Except (Failure ε α) α))
    (h : Worker.Turn m w m' w' new) :
    (⟨m', before ++ w' :: after, new ++ results⟩ : Pool τ ε α).tags.Perm
      (⟨m, before ++ w :: after, results⟩ : Pool τ ε α).tags := by
  refine Pool.tags_split.trans (List.Perm.trans ?_ Pool.tags_split.symm)
  rw [← h.tags_eq, List.map_append, List.append_assoc, List.append_assoc]
  exact List.perm_append_comm_assoc _ _ _

/-- All jobs are still there after a change, unless one had failed before it. -/
theorem Pool.tags_turn [Cause ε] [Scalar α] {p p' : Pool τ ε α} (h : Turn p p') :
    p'.tags.Perm p.tags ∨ p.failed = true := by
  cases h with
  | step before after results hw => exact .inl (hw.tags_perm before after results)
  | quit m before after job queue results hf => exact .inr hf

/-- No job is made up. -/
theorem Pool.tags_run_subset [Cause ε] [Scalar α] (p : Pool τ ε α) (moves : List Move) :
    (p.run moves).tags ⊆ p.tags := by
  refine run_induction (motive := fun p' => p'.tags ⊆ p.tags) ?_ (List.Subset.refl _) moves
  intro p' p'' h hp'
  cases h with
  | step before after results hw =>
    exact List.Subset.trans (hw.tags_perm before after results).subset hp'
  | quit m before after job queue results hf =>
    refine List.Subset.trans (fun tag htag => ?_) hp'
    have htag' := Pool.tags_split.subset htag
    refine Pool.tags_split.symm.subset ?_
    simp only [Worker.tags, List.map_nil, List.append_nil, List.mem_append] at htag' ⊢
    exact htag'.imp_left .inl

/-- A failure stays. -/
theorem Pool.failed_turn [Cause ε] [Scalar α] {p p' : Pool τ ε α} (h : Turn p p')
    (hp : p.failed = true) : p'.failed = true := by
  cases h with
  | step before after results hw =>
    rw [Pool.failed, List.any_append, Bool.or_eq_true]
    exact .inr hp
  | quit => exact hp

/-! ## Look-ups to be made -/

/-- What a job goes on with when each answer is that of the evaluation. -/
def Job.rest (evaluate : BitString → Except (Failure ε α) α) (job : Job τ ε α) : Script ε α :=
  match job.phase, job.frames with
  | .running s, [] => s
  | .running _, f :: _ => f.next (evaluate f.key)
  | .entered key _ next, _ => next (evaluate key)
  | .claiming key _ next, _ => next (evaluate key)
  | .hitting a next, _ => next a
  | .missing a next, _ => next a

/-- Whether a job is in the middle of a look-up, which is not counted yet. -/
def Job.midway (job : Job τ ε α) : Nat :=
  match job.phase, job.frames with
  | .running _, [] => 0
  | _, _ => 1

/-- How many look-ups of a job are still to be counted. -/
def Job.pending (evaluate : BitString → Except (Failure ε α) α) (job : Job τ ε α) : Nat :=
  ((job.rest evaluate).keys evaluate).length + job.midway

/-- The keys that a job has yet to find evaluated. -/
def Job.wanted (evaluate : BitString → Except (Failure ε α) α) (job : Job τ ε α) :
    List BitString :=
  match job.phase with
  | .entered key _ _ => key :: (job.rest evaluate).keys evaluate
  | .claiming key _ _ => key :: (job.rest evaluate).keys evaluate
  | _ => (job.rest evaluate).keys evaluate

def Worker.pending (evaluate : BitString → Except (Failure ε α) α) (w : Worker τ ε α) : Nat :=
  (w.job.map (Job.pending evaluate)).getD 0 +
    (w.queue.flatMap fun x => x.2.keys evaluate).length

def Worker.wanted (evaluate : BitString → Except (Failure ε α) α) (w : Worker τ ε α) :
    List BitString :=
  (w.job.map (Job.wanted evaluate)).getD [] ++ w.queue.flatMap fun x => x.2.keys evaluate

variable [Cause ε] [Scalar α]

theorem replay_outcomeOf_of_ok {key : BitString} {v : α} (h : evaluate key = .ok v) :
    Memo.replay key (Memo.outcomeOf (evaluate key)) = evaluate key := by
  rw [h]
  rfl

/-- A turn counts a look-up or leaves it to be counted. -/
theorem Job.Turn.pending {m m' : Memo α} {job job' : Job τ ε α} {c : Nat}
    (h : Job.Turn m job m' job') (hm : m.Faithful evaluate) (hc : job.Within evaluate P c)
    (hok : ∀ key, P key → ∃ v, evaluate key = .ok v) :
    m'.tally.lookups + job'.pending evaluate = m.tally.lookups + job.pending evaluate := by
  cases h with
  | ask =>
    cases hc with
    | running =>
      simp only [Job.pending, Job.rest, Job.midway, Memo.tally_enter, Script.keys,
        List.length_cons]
  | settle =>
    cases hc with
    | evaluating => rfl
  | seen _ _ _ _ ho =>
    cases hc with
    | entered _ hP _ _ =>
      obtain ⟨v, hv⟩ := hok _ hP
      rw [hm _ _ ho, replay_outcomeOf_of_ok hv]
      rfl
  | shared _ _ _ _ ho =>
    cases hc with
    | claiming _ hP _ _ =>
      obtain ⟨v, hv⟩ := hok _ hP
      rw [hm _ _ ho, replay_outcomeOf_of_ok hv]
      rfl
  | unseen | wait => rfl
  | begin => rfl
  | hit =>
    cases hc with
    | hitting =>
      simp only [Job.pending, Job.rest, Job.midway, Memo.hit, Tally.lookups]
      omega
  | miss =>
    cases hc with
    | missing =>
      simp only [Job.pending, Job.rest, Job.midway, Memo.miss, Tally.lookups]
      omega

/-- A turn finds a key evaluated, evaluates it, or leaves it to be found. -/
theorem Job.Turn.wanted {m m' : Memo α} {job job' : Job τ ε α} {c : Nat}
    (h : Job.Turn m job m' job') (hm : m.Faithful evaluate) (hc : job.Within evaluate P c)
    (hstarted : ∀ key, m.Begun key → key ∈ m.started)
    (hok : ∀ key, P key → ∃ v, evaluate key = .ok v) {key : BitString}
    (hkey : key ∈ job.wanted evaluate) : key ∈ m'.started ∨ key ∈ job'.wanted evaluate := by
  -- an outcome that is seen was evaluated by somebody
  have begun {key : BitString} {o : Except String α} (ho : m.outcome? key = some o) :
      key ∈ m.started := hstarted key ⟨_, (m.outcome?_eq_some_iff key o).1 ho, by simp⟩
  cases h with
  | ask =>
    cases hc with
    | running => exact .inr hkey
  | settle =>
    cases hc with
    | evaluating => exact .inr hkey
  | seen _ _ _ _ ho =>
    cases hc with
    | entered _ hP _ _ =>
      obtain ⟨v, hv⟩ := hok _ hP
      rw [hm _ _ ho, replay_outcomeOf_of_ok hv]
      rcases List.mem_cons.1 hkey with rfl | hkey
      · exact .inl (begun ho)
      · exact .inr hkey
  | shared _ _ _ _ ho =>
    cases hc with
    | claiming _ hP _ _ =>
      obtain ⟨v, hv⟩ := hok _ hP
      rw [hm _ _ ho, replay_outcomeOf_of_ok hv]
      rcases List.mem_cons.1 hkey with rfl | hkey
      · exact .inl (begun ho)
      · exact .inr hkey
  | unseen | wait => exact .inr hkey
  | begin =>
    -- the key that is begun is started from now on
    rcases List.mem_cons.1 hkey with rfl | hkey
    · exact .inl List.mem_cons_self
    · exact .inr hkey
  | hit =>
    cases hc with
    | hitting => exact .inr hkey
  | miss =>
    cases hc with
    | missing => exact .inr hkey

theorem Worker.Turn.pending {m m' : Memo α} {w w' : Worker τ ε α}
    {new : List (τ × Except (Failure ε α) α)} (h : Worker.Turn m w m' w' new)
    (hm : m.Faithful evaluate) (hw : w.Sound evaluate P k script)
    (hok : ∀ key, P key → ∃ v, evaluate key = .ok v) :
    m'.tally.lookups + w'.pending evaluate = m.tally.lookups + w.pending evaluate := by
  cases h with
  | take =>
    simp [Worker.pending, Job.pending, Job.rest, Job.midway]
  | advance queue hjob =>
    obtain ⟨c, hc⟩ := hw.within _ rfl
    have := hjob.pending hm hc hok
    simp only [Worker.pending, Option.map_some, Option.getD_some]
    omega
  | finish =>
    simp [Worker.pending, Job.pending, Job.rest, Job.midway, Script.keys]

theorem Worker.Turn.wanted {m m' : Memo α} {w w' : Worker τ ε α}
    {new : List (τ × Except (Failure ε α) α)} (h : Worker.Turn m w m' w' new)
    (hm : m.Faithful evaluate) (hw : w.Sound evaluate P k script)
    (hstarted : ∀ key, m.Begun key → key ∈ m.started)
    (hok : ∀ key, P key → ∃ v, evaluate key = .ok v) {key : BitString}
    (hkey : key ∈ w.wanted evaluate) : key ∈ m'.started ∨ key ∈ w'.wanted evaluate := by
  cases h with
  | take => exact .inr (by simpa [Worker.wanted, Job.wanted, Job.rest] using hkey)
  | advance queue hjob =>
    obtain ⟨c, hc⟩ := hw.within _ rfl
    rcases List.mem_append.1 hkey with hkey | hkey
    · rcases hjob.wanted hm hc hstarted hok hkey with h | h
      · exact .inl h
      · exact .inr (List.mem_append_left _ h)
    · exact .inr (List.mem_append_right _ hkey)
  | finish => exact .inr (by simpa [Worker.wanted, Job.wanted, Job.rest, Script.keys] using hkey)

namespace Pool

/-- The look-ups that are counted and those that are to be counted are `n`, and each of the keys
is evaluated or still to be found evaluated. -/
structure Accounted (evaluate : BitString → Except (Failure ε α) α) (keys : List BitString)
    (n : Nat) (p : Pool τ ε α) : Prop where
  lookups : p.memo.tally.lookups + (p.workers.map (Worker.pending evaluate)).sum = n
  wanted : ∀ key ∈ keys,
    key ∈ p.memo.started ∨ key ∈ p.workers.flatMap (Worker.wanted evaluate)

theorem Accounted.turn {keys : List BitString} {n : Nat} {p p' : Pool τ ε α} (h : Turn p p')
    (hp : p.Sound evaluate P k script) (hfailed : p.failed = false)
    (hok : ∀ key, P key → ∃ v, evaluate key = .ok v) (ha : p.Accounted evaluate keys n) :
    p'.Accounted evaluate keys n := by
  cases h with
  | @step m m' before after w w' new results hw =>
    have hsound := hp.workers w (by simp)
    obtain ⟨hlookups, hwanted⟩ := ha
    simp only [List.map_append, List.map_cons, List.sum_append, List.sum_cons] at hlookups
    simp only [List.flatMap_append, List.flatMap_cons, List.mem_append] at hwanted
    refine ⟨?_, fun key hkey => ?_⟩
    · have := hw.pending hp.faithful hsound hok
      simp only [List.map_append, List.map_cons, List.sum_append, List.sum_cons]
      omega
    · simp only [List.flatMap_append, List.flatMap_cons, List.mem_append]
      rcases hwanted key hkey with hs | hb | hm | ha
      · left
        rcases hw.started hsound with hs' | ⟨key', -, hs'⟩
        · rw [hs']
          exact hs
        · rw [hs']
          exact List.mem_cons_of_mem _ hs
      · exact .inr (.inl hb)
      · have hstarted : ∀ key, m.Begun key → key ∈ m.started := fun key =>
          (hp.consistent.mem_started key).2
        rcases hw.wanted hp.faithful hsound hstarted hok hm with h | h
        · exact .inl h
        · exact .inr (.inr (.inl h))
      · exact .inr (.inr (.inr ha))
  | quit m before after job queue results hf =>
    -- a queue is dropped only after a failure
    rw [Pool.failed, hf] at hfailed
    cases hfailed

/-- When nobody has anything left to do, no evaluation is under way. -/
theorem Sound.settled {p : Pool τ ε α} (hp : p.Sound evaluate P k script)
    (hidle : p.idle = true) : p.memo.Settled evaluate := by
  rw [idle_iff] at hidle
  obtain ⟨hopen, howed⟩ := nothing_open fun w hw => (hidle w hw).1
  have hnot (key : BitString) : p.memo.cell? key ≠ some .busy := fun hbusy => by
    have := (hp.consistent.mem_open key).2 hbusy
    rw [hopen] at this
    exact List.not_mem_nil this
  refine ⟨hnot, fun h => hp.faithful _ _ h, fun {key} => ?_, hp.consistent.started_nodup, ?_⟩
  · exact (hp.consistent.mem_started key).trans (Memo.begun_iff_outcome? (hnot key))
  · have := hp.consistent.misses
    rw [hopen, howed] at this
    exact this

omit [Cause ε] [Scalar α] in
theorem job_ofQueues (m : Memo α) (queues : List (List (τ × Script ε α))) :
    ∀ w ∈ (ofQueues m queues).workers, w.job = none := by
  intro w hw
  obtain ⟨queue, -, rfl⟩ := List.mem_map.1 hw
  rfl

/-- Workers that have not begun make a sound pool when they share a settled memo. -/
theorem sound_ofQueues {m : Memo α} (hm : m.Settled evaluate) (hP : ∀ key ∈ m.started, P key)
    {queues : List (List (τ × Script ε α))}
    (hqueues : ∀ queue ∈ queues, ∀ x ∈ queue, x.2 = script x.1 ∧ x.2.LooksUp evaluate P k) :
    (ofQueues m queues : Pool τ ε α).Sound evaluate P k script := by
  obtain ⟨hopen, howed⟩ := nothing_open (job_ofQueues m queues)
  refine ⟨?_, housed_ofQueues m queues, fun key o h => hm.outcome_eq h, hP, ?_,
    by simp [ofQueues]⟩
  · rw [Consistent, hopen, howed]
    exact ⟨hm.nodup,
      fun key => hm.mem_started.trans (Memo.begun_iff_outcome? (hm.not_busy key)).symm,
      List.nodup_nil, fun key => iff_of_false List.not_mem_nil (hm.not_busy key), hm.misses⟩
  · intro w hw
    obtain ⟨queue, hqueue, rfl⟩ := List.mem_map.1 hw
    exact ⟨by simp, by simp, hqueues queue hqueue⟩

omit [Cause ε] [Scalar α] in
theorem tags_ofQueues (m : Memo α) (queues : List (List (τ × Script ε α))) :
    (ofQueues m queues : Pool τ ε α).tags = queues.flatten.map Prod.fst := by
  simp [Pool.tags, ofQueues, Worker.tags, List.map_flatten, List.flatMap_def, Function.comp_def]

/-- All jobs are over when nobody has anything left to do, unless one of them has failed. -/
theorem results_perm_or_failed {m : Memo α} (queues : List (List (τ × Script ε α)))
    (moves : List Move) (hidle : ((ofQueues m queues).run moves).idle = true) :
    (((ofQueues m queues).run moves).results.map Prod.fst).Perm (queues.flatten.map Prod.fst) ∨
      ((ofQueues m queues).run moves).failed = true := by
  have htags := tags_ofQueues m queues
  have hrun : ((ofQueues m queues).run moves).tags.Perm (queues.flatten.map Prod.fst) ∨
      ((ofQueues m queues).run moves).failed = true := by
    refine run_induction (motive := fun p => p.tags.Perm (queues.flatten.map Prod.fst) ∨
      p.failed = true) ?_ (.inl (.of_eq htags)) moves
    rintro p p' h (hp | hp)
    · rcases tags_turn h with h' | h'
      · exact .inl (h'.trans hp)
      · exact .inr (failed_turn h h')
    · exact .inr (failed_turn h hp)
  rcases hrun with hrun | hrun
  · left
    have hnone : ((ofQueues m queues).run moves).workers.flatMap Worker.tags = [] :=
      List.flatMap_eq_nil_iff.2 fun w hw => by
        obtain ⟨hjob, hqueue⟩ := idle_iff.1 hidle w hw
        simp [Worker.tags, hjob, hqueue]
    rwa [Pool.tags, hnone, List.append_nil] at hrun
  · exact .inr hrun

/-- No job has failed if none can. -/
theorem Sound.not_failed {p : Pool τ ε α} (hp : p.Sound evaluate P k script)
    (hvalue : ∀ tag ∈ p.tags, ∀ r, (script tag).Yields evaluate r → ∃ v, r = .ok v) :
    p.failed = false := by
  apply List.any_eq_false.2
  intro x hx
  have htag : x.1 ∈ p.tags := List.mem_append_left _ (List.mem_map_of_mem hx)
  obtain ⟨v, hv⟩ := hvalue x.1 htag x.2 (hp.results x hx)
  rw [hv]
  simp [Except.toBool]

omit [Cause ε] [Scalar α] in
/-- Before the first step all look-ups of the queues are still to be counted. -/
theorem accounted_ofQueues (m : Memo α) (queues : List (List (τ × Script ε α))) :
    (ofQueues m queues : Pool τ ε α).Accounted evaluate
      (m.started ++ queues.flatten.flatMap fun x => x.2.keys evaluate)
      (m.tally.lookups + (queues.flatten.flatMap fun x => x.2.keys evaluate).length) := by
  have hpending : ((ofQueues m queues : Pool τ ε α).workers.map (Worker.pending evaluate)).sum =
      (queues.flatten.flatMap fun x => x.2.keys evaluate).length := by
    simp [ofQueues, Worker.pending, List.length_flatMap, List.map_flatten, Function.comp_def,
      List.sum_flatten]
  have hwanted : (ofQueues m queues : Pool τ ε α).workers.flatMap (Worker.wanted evaluate) =
      queues.flatten.flatMap fun x => x.2.keys evaluate := by
    simp [ofQueues, Worker.wanted, List.flatMap_def, List.map_flatten, List.flatten_flatten,
      Function.comp_def]
  refine ⟨by rw [hpending]; rfl, fun key hkey => ?_⟩
  rw [hwanted]
  exact List.mem_append.1 hkey

omit [Cause ε] [Scalar α] in
/-- When nobody has anything left to do, everything is counted. -/
theorem Accounted.of_idle {keys : List BitString} {n : Nat} {p : Pool τ ε α}
    (ha : p.Accounted evaluate keys n) (hidle : p.idle = true) :
    p.memo.tally.lookups = n ∧ ∀ key ∈ keys, key ∈ p.memo.started := by
  rw [idle_iff] at hidle
  have hpending : (p.workers.map (Worker.pending evaluate)).sum = 0 :=
    sum_eq_zero fun w hw => by
      obtain ⟨hjob, hqueue⟩ := hidle w hw
      simp [Worker.pending, hjob, hqueue]
  have hwanted : p.workers.flatMap (Worker.wanted evaluate) = [] :=
    List.flatMap_eq_nil_iff.2 fun w hw => by
      obtain ⟨hjob, hqueue⟩ := hidle w hw
      simp [Worker.wanted, hjob, hqueue]
  obtain ⟨hlookups, hkeys⟩ := ha
  rw [hpending] at hlookups
  rw [hwanted] at hkeys
  exact ⟨hlookups, fun key hkey => (hkeys key hkey).resolve_right List.not_mem_nil⟩

/-- If no job can fail, then in the end all keys are evaluated and all look-ups are counted. -/
theorem Sound.totals {m : Memo α} {queues : List (List (τ × Script ε α))}
    (hp : (ofQueues m queues : Pool τ ε α).Sound evaluate P k script)
    (hok : ∀ key, P key → ∃ v, evaluate key = .ok v)
    (hvalue : ∀ tag ∈ queues.flatten.map Prod.fst,
      ∀ r, (script tag).Yields evaluate r → ∃ v, r = .ok v)
    {moves : List Move} (hidle : ((ofQueues m queues).run moves).idle = true) :
    ((ofQueues m queues).run moves).failed = false ∧
      ((ofQueues m queues).run moves).memo.tally.lookups =
        m.tally.lookups + (queues.flatten.flatMap fun x => x.2.keys evaluate).length ∧
      ∀ key, (key ∈ m.started ∨ key ∈ queues.flatten.flatMap fun x => x.2.keys evaluate) →
        key ∈ ((ofQueues m queues).run moves).memo.started := by
  -- without a failure no queue is dropped, so the accounts are kept at every turn
  obtain ⟨hsound, htags, ha⟩ := run_induction
    (motive := fun p => p.Sound evaluate P k script ∧
      p.tags.Perm (queues.flatten.map Prod.fst) ∧ p.Accounted evaluate
        (m.started ++ queues.flatten.flatMap fun x => x.2.keys evaluate)
        (m.tally.lookups + (queues.flatten.flatMap fun x => x.2.keys evaluate).length))
    (fun p p' h ⟨hsound, htags, ha⟩ => by
      have hfailed := hsound.not_failed fun tag htag => hvalue tag (htags.mem_iff.1 htag)
      refine ⟨Sound.turn p p' h hsound, ?_, ha.turn h hsound hfailed hok⟩
      rcases tags_turn h with h' | h'
      · exact h'.trans htags
      · rw [hfailed] at h'
        cases h')
    ⟨hp, .of_eq (tags_ofQueues m queues), accounted_ofQueues m queues⟩ moves
  obtain ⟨hlookups, hkeys⟩ := ha.of_idle hidle
  exact ⟨hsound.not_failed fun tag htag => hvalue tag (htags.mem_iff.1 htag), hlookups,
    fun key hkey => hkeys key (List.mem_append.2 hkey)⟩

end Pool

end QuboProbe
