/-
  QuboProbe.Proofs.Memo.Crew

  Workers whose jobs only look up keys, all of them with one evaluation.  At
  every moment of every interleaving the memo holds outcomes of that evaluation
  alone, and the result of every job that is over is one that the job's
  computation can come to (`Pool.Sound`, `Pool.Sound.run`).
-/
import QuboProbe.Proofs.Memo.Cells
import QuboProbe.Proofs.Memo.Consistent
import QuboProbe.Proofs.Memo.Lookups

namespace QuboProbe

variable {τ ε α : Type} {evaluate : BitString → Except (Failure ε α) α} {P : BitString → Prop}
  {k : Nat} {script : τ → Script ε α}

/-! ## Jobs -/

/-- A job that only looks up keys and is over after so many steps in which it does not wait.  A
look-up that evaluates takes five steps, and the end of the job takes one. -/
inductive Job.Within (evaluate : BitString → Except (Failure ε α) α) (P : BitString → Prop) :
    Nat → Job τ ε α → Prop where
  | running (tag : τ) {k : Nat} {s : Script ε α} (hs : s.LooksUp evaluate P k) :
      Within evaluate P (5 * k + 1) ⟨tag, .running s, []⟩
  | evaluating (tag : τ) {k : Nat} (key : BitString)
      {next : Except (Failure ε α) α → Script ε α} (hnext : ∀ r, (next r).LooksUp evaluate P k) :
      Within evaluate P (5 * k + 3) ⟨tag, .running (.done (evaluate key)), [⟨key, next⟩]⟩
  | entered (tag : τ) {k : Nat} {key : BitString} {evaluation : Unit → Script ε α}
      {next : Except (Failure ε α) α → Script ε α} (hP : P key)
      (heval : evaluation () = .done (evaluate key)) (hnext : ∀ r, (next r).LooksUp evaluate P k) :
      Within evaluate P (5 * k + 5) ⟨tag, .entered key evaluation next, []⟩
  | claiming (tag : τ) {k : Nat} {key : BitString} {evaluation : Unit → Script ε α}
      {next : Except (Failure ε α) α → Script ε α} (hP : P key)
      (heval : evaluation () = .done (evaluate key)) (hnext : ∀ r, (next r).LooksUp evaluate P k) :
      Within evaluate P (5 * k + 4) ⟨tag, .claiming key evaluation next, []⟩
  | hitting (tag : τ) {k : Nat} (a : Except (Failure ε α) α)
      {next : Except (Failure ε α) α → Script ε α} (hnext : ∀ r, (next r).LooksUp evaluate P k) :
      Within evaluate P (5 * k + 2) ⟨tag, .hitting a next, []⟩
  | missing (tag : τ) {k : Nat} (a : Except (Failure ε α) α)
      {next : Except (Failure ε α) α → Script ε α} (hnext : ∀ r, (next r).LooksUp evaluate P k) :
      Within evaluate P (5 * k + 2) ⟨tag, .missing a next, []⟩

/-- The job waits for a key that another worker is evaluating. -/
def Job.Waits (m : Memo α) (job : Job τ ε α) : Prop :=
  ∃ key evaluation next, job.phase = .claiming key evaluation next ∧ m.cell? key = some .busy

variable [Cause ε] [Scalar α]

/-- The results that a job can still come to. -/
def Job.Yields (evaluate : BitString → Except (Failure ε α) α) (job : Job τ ε α)
    (r : Except (Failure ε α) α) : Prop :=
  match job.phase, job.frames with
  | .running s, [] => s.Yields evaluate r
  | .running _, f :: _ => (f.next (evaluate f.key)).Yields evaluate r
  | .entered key _ next, _ => ∃ a, Script.Answers evaluate key a ∧ (next a).Yields evaluate r
  | .claiming key _ next, _ => ∃ a, Script.Answers evaluate key a ∧ (next a).Yields evaluate r
  | .hitting a next, _ => (next a).Yields evaluate r
  | .missing a next, _ => (next a).Yields evaluate r

/-- The memo holds outcomes of one evaluation alone. -/
def Memo.Faithful (evaluate : BitString → Except (Failure ε α) α) (m : Memo α) : Prop :=
  ∀ key o, m.outcome? key = some o → o = Memo.outcomeOf (evaluate key)

/-- A turn is a step nearer to the end of the job, unless the job waits. -/
theorem Job.Turn.within {m m' : Memo α} {job job' : Job τ ε α} {c : Nat}
    (h : Job.Turn m job m' job') (hc : job.Within evaluate P c) :
    (job.Waits m ∧ m' = m ∧ job' = job) ∨ ∃ c' < c, job'.Within evaluate P c' := by
  cases h with
  | ask =>
    cases hc with
    | running _ hs =>
      cases hs with
      | ask hP heval hnext => exact .inr ⟨_, by omega, .entered _ hP heval hnext⟩
  | settle =>
    cases hc with
    | evaluating _ key hnext => exact .inr ⟨_, by omega, .missing _ _ hnext⟩
  | seen =>
    cases hc with
    | entered _ _ _ hnext => exact .inr ⟨_, by omega, .hitting _ _ hnext⟩
  | unseen =>
    cases hc with
    | entered _ hP heval hnext => exact .inr ⟨_, by omega, .claiming _ hP heval hnext⟩
  | shared =>
    cases hc with
    | claiming _ _ _ hnext => exact .inr ⟨_, by omega, .hitting _ _ hnext⟩
  | wait tag evaluation next frames hbusy =>
    -- the only turn that is no progress
    exact .inl ⟨⟨_, _, _, rfl, hbusy⟩, rfl, rfl⟩
  | begin =>
    cases hc with
    | claiming _ _ heval hnext =>
      rw [heval]
      exact .inr ⟨_, by omega, .evaluating _ _ hnext⟩
  | hit =>
    cases hc with
    | hitting _ _ hnext => exact .inr ⟨_, by omega, .running _ (hnext _)⟩
  | miss =>
    cases hc with
    | missing _ _ hnext => exact .inr ⟨_, by omega, .running _ (hnext _)⟩

/-- A turn leaves no result within reach that was not before. -/
theorem Job.Turn.yields {m m' : Memo α} {job job' : Job τ ε α} {c : Nat}
    (h : Job.Turn m job m' job') (hm : m.Faithful evaluate) (hc : job.Within evaluate P c)
    {r : Except (Failure ε α) α} (hr : job'.Yields evaluate r) : job.Yields evaluate r := by
  cases h with
  | ask =>
    cases hc with
    | running => exact Script.yields_ask.2 hr
  | settle =>
    cases hc with
    | evaluating => exact hr
  | seen _ _ _ _ ho =>
    -- a stored outcome is replayed, which may word a failure differently
    rw [hm _ _ ho] at hr
    exact ⟨_, .again, hr⟩
  | shared _ _ _ _ ho =>
    rw [hm _ _ ho] at hr
    exact ⟨_, .again, hr⟩
  | unseen | wait => exact hr
  | begin => exact ⟨_, .own, hr⟩
  | hit =>
    cases hc with
    | hitting => exact hr
  | miss =>
    cases hc with
    | missing => exact hr

theorem Job.Turn.faithful {m m' : Memo α} {job job' : Job τ ε α} {c : Nat}
    (h : Job.Turn m job m' job') (hm : m.Faithful evaluate) (hc : job.Within evaluate P c) :
    m'.Faithful evaluate := by
  cases h with
  | ask =>
    intro key o ho
    rw [Memo.outcome?_enter] at ho
    exact hm key o ho
  | settle =>
    cases hc with
    | evaluating _ key _ =>
      intro key' o ho
      rw [Memo.outcome?_settle] at ho
      split at ho
      · rename_i hk
        rw [hk]
        exact (Option.some.inj ho).symm
      · exact hm key' o ho
  | begin =>
    -- the key that is begun has no outcome yet
    intro key o ho
    rw [Memo.outcome?_eq_some_iff, Memo.cell?_start] at ho
    split at ho
    · cases ho
    · exact hm key o ((m.outcome?_eq_some_iff key o).2 ho)
  | seen | unseen | shared | wait | hit | miss => exact hm

/-- Only keys with the property are evaluated. -/
theorem Job.Turn.started {m m' : Memo α} {job job' : Job τ ε α} {c : Nat}
    (h : Job.Turn m job m' job') (hc : job.Within evaluate P c) :
    m'.started = m.started ∨ ∃ key, P key ∧ m'.started = key :: m.started := by
  cases h with
  | ask tag key => exact .inl (Memo.started_enter m key)
  | begin =>
    cases hc with
    | claiming _ hP _ _ => exact .inr ⟨_, hP, rfl⟩
  | settle | seen | unseen | shared | wait | hit | miss => exact .inl rfl

/-! ## Workers -/

/-- A worker whose job comes to results of the computation that its tag stands for, and whose
queue holds such computations. -/
structure Worker.Sound (evaluate : BitString → Except (Failure ε α) α) (P : BitString → Prop)
    (k : Nat) (script : τ → Script ε α) (w : Worker τ ε α) : Prop where
  within : ∀ job, w.job = some job → ∃ c, job.Within evaluate P c
  yields : ∀ job, w.job = some job →
    ∀ r, job.Yields evaluate r → (script job.tag).Yields evaluate r
  queue : ∀ x ∈ w.queue, x.2 = script x.1 ∧ x.2.LooksUp evaluate P k

def Worker.Waits (m : Memo α) (w : Worker τ ε α) : Prop :=
  ∃ job, w.job = some job ∧ job.Waits m

theorem Worker.Turn.sound {m m' : Memo α} {w w' : Worker τ ε α}
    {new : List (τ × Except (Failure ε α) α)} (h : Worker.Turn m w m' w' new)
    (hm : m.Faithful evaluate) (hw : w.Sound evaluate P k script) :
    w'.Sound evaluate P k script ∧ ∀ x ∈ new, (script x.1).Yields evaluate x.2 := by
  cases h with
  | take tag s queue =>
    obtain ⟨hs, hlooks⟩ := hw.queue (tag, s) List.mem_cons_self
    refine ⟨⟨?_, ?_, fun x hx => hw.queue x (List.mem_cons_of_mem _ hx)⟩, by simp⟩
    · rintro job ⟨⟩
      exact ⟨_, .running tag hlooks⟩
    · rintro job ⟨⟩ r hr
      rw [← show s = script tag from hs]
      exact hr
  | @advance _ job job' queue hjob =>
    obtain ⟨c, hc⟩ := hw.within job rfl
    refine ⟨⟨?_, ?_, hw.queue⟩, by simp⟩
    · rintro _ ⟨⟩
      rcases hjob.within hc with ⟨-, -, rfl⟩ | ⟨c', -, hc'⟩
      · exact ⟨c, hc⟩
      · exact ⟨c', hc'⟩
    · rintro _ ⟨⟩ r hr
      rw [hjob.tag_eq]
      exact hw.yields job rfl r (hjob.yields hm hc hr)
  | finish tag r queue =>
    refine ⟨⟨by simp, by simp, hw.queue⟩, ?_⟩
    intro x hx
    rw [List.mem_singleton.1 hx]
    exact hw.yields _ rfl r (.done r)

theorem Worker.Turn.faithful {m m' : Memo α} {w w' : Worker τ ε α}
    {new : List (τ × Except (Failure ε α) α)} (h : Worker.Turn m w m' w' new)
    (hm : m.Faithful evaluate) (hw : w.Sound evaluate P k script) : m'.Faithful evaluate := by
  cases h with
  | advance queue hjob =>
    obtain ⟨c, hc⟩ := hw.within _ rfl
    exact hjob.faithful hm hc
  | take | finish => exact hm

theorem Worker.Turn.started {m m' : Memo α} {w w' : Worker τ ε α}
    {new : List (τ × Except (Failure ε α) α)} (h : Worker.Turn m w m' w' new)
    (hw : w.Sound evaluate P k script) :
    m'.started = m.started ∨ ∃ key, P key ∧ m'.started = key :: m.started := by
  cases h with
  | advance queue hjob =>
    obtain ⟨c, hc⟩ := hw.within _ rfl
    exact hjob.started hc
  | take | finish => exact .inl rfl

/-! ## Pools -/

/-- A pool of workers that look up keys alone.  The tag of a job tells its computation. -/
structure Pool.Sound (evaluate : BitString → Except (Failure ε α) α) (P : BitString → Prop)
    (k : Nat) (script : τ → Script ε α) (p : Pool τ ε α) : Prop where
  consistent : p.Consistent
  housed : p.Housed
  faithful : p.memo.Faithful evaluate
  started : ∀ key ∈ p.memo.started, P key
  workers : ∀ w ∈ p.workers, w.Sound evaluate P k script
  results : ∀ x ∈ p.results, (script x.1).Yields evaluate x.2

namespace Pool

theorem Sound.turn (p p' : Pool τ ε α) (h : Turn p p') (hp : p.Sound evaluate P k script) :
    p'.Sound evaluate P k script := by
  have hconsistent := Consistent.turn p p' h hp.consistent
  have hhoused := Housed.turn p p' h hp.housed
  cases h with
  | @step m m' before after w w' new results hw =>
    have hsound := hp.workers w (by simp)
    obtain ⟨hw', hnew⟩ := hw.sound hp.faithful hsound
    refine ⟨hconsistent, hhoused, hw.faithful hp.faithful hsound, ?_, ?_, ?_⟩
    · -- at most one key is started by a turn
      intro key hkey
      rcases hw.started hsound with hs | ⟨key', hP, hs⟩
      · exact hp.started key (hs ▸ hkey)
      · rcases List.mem_cons.1 (hs ▸ hkey : key ∈ key' :: m.started) with rfl | hin
        · exact hP
        · exact hp.started key hin
    · -- the other workers are as they were
      intro v hv
      have hother : ∀ u ∈ before ++ after, u.Sound evaluate P k script := fun u hu =>
        hp.workers u (by simp only [List.mem_append, List.mem_cons] at hu ⊢; tauto)
      simp only [List.mem_append, List.mem_cons] at hv hother
      rcases hv with hv | rfl | hv
      · exact hother v (.inl hv)
      · exact hw'
      · exact hother v (.inr hv)
    · intro x hx
      rcases List.mem_append.1 hx with hx | hx
      · exact hnew x hx
      · exact hp.results x hx
  | quit m before after job queue results hf =>
    have hsound := hp.workers ⟨job, queue⟩ (by simp)
    refine ⟨hconsistent, hhoused, hp.faithful, hp.started, ?_, hp.results⟩
    intro v hv
    simp only [List.mem_append, List.mem_cons] at hv
    rcases hv with hv | rfl | hv
    · exact hp.workers v (by simp [hv])
    · exact ⟨hsound.within, hsound.yields, by simp⟩
    · exact hp.workers v (by simp [hv])

/-- A pool stays sound in every interleaving. -/
theorem Sound.run {p : Pool τ ε α} (hp : p.Sound evaluate P k script) (moves : List Move) :
    (p.run moves).Sound evaluate P k script := run_induction Sound.turn hp moves

end Pool

end QuboProbe
