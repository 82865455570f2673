/-
  QuboProbe.Proofs.Memo.Turns

  What one move of a pool can do, said once: `Job.Turn` has a case for each
  step of a job, `Worker.Turn` for each step of a worker, `Pool.Turn` for each
  way in which a pool changes.
  `Pool.move_turn` says that there is nothing else, so that an invariant is
  proved by its cases and `Pool.run_induction` carries it over a whole
  interleaving.  A job that claims a key without a cell would stay where it is
  (`Job.Lost`); `QuboProbe.Proofs.Memo.Cells` shows that there is none.
-/
import QuboProbe.Memo.Pool

namespace QuboProbe

variable {τ ε α : Type}

/-! ## Cells after each step on a memo -/

namespace Memo

theorem cell?_enter (m : Memo α) (key k : BitString) :
    (m.enter key).cell? k =
      if k = key ∧ m.cell? key = none then some .vacant else m.cell? k := by
  unfold enter
  split
  · rename_i h
    rw [if_neg (by simp [h])]
  · rename_i h
    rw [cell?_setCell]
    simp [h]

@[simp] theorem cell?_start (m : Memo α) (key k : BitString) :
    (m.start key).cell? k = if k = key then some .busy else m.cell? k :=
  cell?_setCell m key k .busy

@[simp] theorem cell?_settle [Cause ε] [Scalar α] (m : Memo α) (key k : BitString)
    (r : Except (Failure ε α) α) :
    (m.settle key r).cell? k = if k = key then some (.settled (outcomeOf r)) else m.cell? k :=
  cell?_setCell m key k _

@[simp] theorem started_enter (m : Memo α) (key : BitString) :
    (m.enter key).started = m.started := by
  unfold enter
  split <;> rfl

@[simp] theorem tally_enter (m : Memo α) (key : BitString) : (m.enter key).tally = m.tally := by
  unfold enter
  split <;> rfl

theorem outcome?_eq_some_iff (m : Memo α) (k : BitString) (o : Except String α) :
    m.outcome? k = some o ↔ m.cell? k = some (.settled o) := by
  unfold outcome?
  split <;> simp_all

/-- The evaluation of a key has begun, and may be over. -/
def Begun (m : Memo α) (k : BitString) : Prop := ∃ c, m.cell? k = some c ∧ c ≠ .vacant

theorem not_begun_of_vacant {m : Memo α} {k : BitString} (h : m.cell? k = some .vacant) :
    ¬ m.Begun k := by
  rintro ⟨c, hc, hne⟩
  exact hne (Option.some.inj (hc.symm.trans h))

theorem outcome?_of_vacant {m : Memo α} {k : BitString} (h : m.cell? k = some .vacant) :
    m.outcome? k = none := by
  rw [outcome?, h]

theorem begun_iff_outcome? {m : Memo α} {k : BitString} (h : m.cell? k ≠ some .busy) :
    m.Begun k ↔ (m.outcome? k).isSome := by
  unfold Begun outcome?
  cases hc : m.cell? k with
  | none => simp
  | some c => cases c <;> simp_all

end Memo

/-! ## Lost jobs -/

/-- The job claims a key that has no cell, so that nobody will ever evaluate it. -/
def Job.Lost (m : Memo α) (job : Job τ ε α) : Prop :=
  ∃ key evaluation next, job.phase = .claiming key evaluation next ∧ m.cell? key = none

def Worker.Lost (m : Memo α) (w : Worker τ ε α) : Prop := ∃ job, w.job = some job ∧ job.Lost m

/-! ## One step of a job -/

variable [Cause ε] [Scalar α]

/-- What one step does to the memo and to a job that goes on. -/
inductive Job.Turn (m : Memo α) : Job τ ε α → Memo α → Job τ ε α → Prop where
  | ask (tag : τ) (key : BitString) (evaluation : Unit → Script ε α)
      (next : Except (Failure ε α) α → Script ε α) (frames : List (Frame ε α)) :
      Turn m ⟨tag, .running (.ask key evaluation next), frames⟩
        (m.enter key) ⟨tag, .entered key evaluation next, frames⟩
  | settle (tag : τ) (r : Except (Failure ε α) α) (f : Frame ε α) (frames : List (Frame ε α)) :
      Turn m ⟨tag, .running (.done r), f :: frames⟩
        (m.settle f.key r) ⟨tag, .missing r f.next, frames⟩
  | seen (tag : τ) {key : BitString} (evaluation : Unit → Script ε α)
      (next : Except (Failure ε α) α → Script ε α) (frames : List (Frame ε α))
      {o : Except String α} (h : m.outcome? key = some o) :
      Turn m ⟨tag, .entered key evaluation next, frames⟩
        m ⟨tag, .hitting (Memo.replay key o) next, frames⟩
  | unseen (tag : τ) {key : BitString} (evaluation : Unit → Script ε α)
      (next : Except (Failure ε α) α → Script ε α) (frames : List (Frame ε α)) :
      Turn m ⟨tag, .entered key evaluation next, frames⟩
        m ⟨tag, .claiming key evaluation next, frames⟩
  | shared (tag : τ) {key : BitString} (evaluation : Unit → Script ε α)
      (next : Except (Failure ε α) α → Script ε α) (frames : List (Frame ε α))
      {o : Except String α} (h : m.outcome? key = some o) :
      Turn m ⟨tag, .claiming key evaluation next, frames⟩
        m ⟨tag, .hitting (Memo.replay key o) next, frames⟩
  | wait (tag : τ) {key : BitString} (evaluation : Unit → Script ε α)
      (next : Except (Failure ε α) α → Script ε α) (frames : List (Frame ε α))
      (h : m.cell? key = some .busy) :
      Turn m ⟨tag, .claiming key evaluation next, frames⟩
        m ⟨tag, .claiming key evaluation next, frames⟩
  | begin (tag : τ) {key : BitString} (evaluation : Unit → Script ε α)
      (next : Except (Failure ε α) α → Script ε α) (frames : List (Frame ε α))
      (h : m.cell? key = some .vacant) :
      Turn m ⟨tag, .claiming key evaluation next, frames⟩
        (m.start key) ⟨tag, .running (evaluation ()), ⟨key, next⟩ :: frames⟩
  | hit (tag : τ) (a : Except (Failure ε α) α) (next : Except (Failure ε α) α → Script ε α)
      (frames : List (Frame ε α)) :
      Turn m ⟨tag, .hitting a next, frames⟩ m.hit ⟨tag, .running (next a), frames⟩
  | miss (tag : τ) (a : Except (Failure ε α) α) (next : Except (Failure ε α) α → Script ε α)
      (frames : List (Frame ε α)) :
      Turn m ⟨tag, .missing a next, frames⟩ m.miss ⟨tag, .running (next a), frames⟩

/-- A step is a turn, or the end of a job that is inside no evaluation, unless the job is lost. -/
theorem Job.step_turn (m : Memo α) (job : Job τ ε α) :
    (∃ m' job', job.step m = (m', .inl job') ∧ Job.Turn m job m' job') ∨
      (∃ tag r, job = ⟨tag, .running (.done r), []⟩ ∧ job.step m = (m, .inr r)) ∨
      job.Lost m ∧ job.step m = (m, .inl job) := by
  obtain ⟨tag, phase, frames⟩ := job
  cases phase with
  | running s =>
    cases s with
    | ask key evaluation next => exact .inl ⟨_, _, rfl, .ask ..⟩
    | done r =>
      cases frames with
      | nil => exact .inr (.inl ⟨tag, r, rfl, rfl⟩)
      | cons f rest => exact .inl ⟨_, _, rfl, .settle ..⟩
  | entered key evaluation next =>
    cases ho : m.outcome? key with
    | some o => exact .inl ⟨m, _, by simp [step, ho], .seen _ _ _ _ ho⟩
    | none => exact .inl ⟨m, _, by simp [step, ho], .unseen ..⟩
  | claiming key evaluation next =>
    cases hc : m.cell? key with
    | none => exact .inr (.inr ⟨⟨key, evaluation, next, rfl, hc⟩, by simp [step, hc]⟩)
    | some c =>
      cases c with
      | vacant => exact .inl ⟨m.start key, _, by simp [step, hc], .begin _ _ _ _ hc⟩
      | busy => exact .inl ⟨m, _, by simp [step, hc], .wait _ _ _ _ hc⟩
      | settled o =>
        have ho := (m.outcome?_eq_some_iff key o).2 hc
        exact .inl ⟨m, _, by simp [step, hc], .shared _ _ _ _ ho⟩
  | hitting a next => exact .inl ⟨_, _, rfl, .hit ..⟩
  | missing a next => exact .inl ⟨_, _, rfl, .miss ..⟩

theorem Job.Turn.tag_eq {m m' : Memo α} {job job' : Job τ ε α} (h : Job.Turn m job m' job') :
    job'.tag = job.tag := by
  cases h <;> rfl

/-! ## One move of a pool -/

/-- What one step does to the memo and to a worker, and which result it adds. -/
inductive Worker.Turn (m : Memo α) :
    Worker τ ε α → Memo α → Worker τ ε α → List (τ × Except (Failure ε α) α) → Prop where
  | take (tag : τ) (script : Script ε α) (queue : List (τ × Script ε α)) :
      Turn m ⟨none, (tag, script) :: queue⟩ m ⟨some ⟨tag, .running script, []⟩, queue⟩ []
  | advance {m' : Memo α} {job job' : Job τ ε α} (queue : List (τ × Script ε α))
      (h : Job.Turn m job m' job') : Turn m ⟨some job, queue⟩ m' ⟨some job', queue⟩ []
  | finish (tag : τ) (r : Except (Failure ε α) α) (queue : List (τ × Script ε α)) :
      Turn m ⟨some ⟨tag, .running (.done r), []⟩, queue⟩ m ⟨none, queue⟩ [(tag, r)]

namespace Pool

/-- The ways in which a pool changes.  The worker that moves stands between the others. -/
inductive Turn : Pool τ ε α → Pool τ ε α → Prop where
  | step {m m' : Memo α} (before after : List (Worker τ ε α)) {w w' : Worker τ ε α}
      {new : List (τ × Except (Failure ε α) α)} (results : List (τ × Except (Failure ε α) α))
      (h : Worker.Turn m w m' w' new) :
      Turn ⟨m, before ++ w :: after, results⟩ ⟨m', before ++ w' :: after, new ++ results⟩
  | quit (m : Memo α) (before after : List (Worker τ ε α)) (job : Option (Job τ ε α))
      (queue : List (τ × Script ε α)) (results : List (τ × Except (Failure ε α) α))
      (h : results.any (fun r => !r.2.toBool) = true) :
      Turn ⟨m, before ++ ⟨job, queue⟩ :: after, results⟩ ⟨m, before ++ ⟨job, []⟩ :: after, results⟩

omit [Cause ε] [Scalar α] in
/-- A worker stands between others, and is replaced there. -/
theorem exists_split {workers : List (Worker τ ε α)} {i : Nat} {w : Worker τ ε α}
    (h : workers[i]? = some w) :
    ∃ before after, before.length = i ∧ workers = before ++ w :: after ∧
      ∀ w', workers.set i w' = before ++ w' :: after := by
  obtain ⟨hi, hw⟩ := List.getElem?_eq_some_iff.1 h
  have hlen : (workers.take i).length = i := by
    rw [List.length_take]
    omega
  refine ⟨workers.take i, workers.drop (i + 1), hlen, ?_, fun w' => ?_⟩
  · rw [← hw, ← List.drop_eq_getElem_cons hi, List.take_append_drop]
  · rw [List.set_eq_take_append_cons_drop, if_pos hi]

/-- A worker with something to do takes a turn when it moves, and the others stay as they are.
Nothing changes if its job is lost. -/
theorem move_step (m : Memo α) (before after : List (Worker τ ε α)) (w : Worker τ ε α)
    (results : List (τ × Except (Failure ε α) α)) (hw : w.job ≠ none ∨ w.queue ≠ []) :
    (∃ m' w' new, Worker.Turn m w m' w' new ∧
      (⟨m, before ++ w :: after, results⟩ : Pool τ ε α).move (.step before.length) =
        ⟨m', before ++ w' :: after, new ++ results⟩) ∨
    w.Lost m ∧ (⟨m, before ++ w :: after, results⟩ : Pool τ ε α).move (.step before.length) =
      ⟨m, before ++ w :: after, results⟩ := by
  have hset (w' : Worker τ ε α) :
      (before ++ w :: after).set before.length w' = before ++ w' :: after := by simp
  have hmove : (⟨m, before ++ w :: after, results⟩ : Pool τ ε α).move (.step before.length) =
      stepWorker ⟨m, before ++ w :: after, results⟩ before.length w := by
    simp [move]
  rw [hmove]
  obtain ⟨job, queue⟩ := w
  cases job with
  | none =>
    cases queue with
    | nil => simp at hw
    | cons q queue =>
      obtain ⟨tag, script⟩ := q
      exact .inl ⟨m, _, [], .take tag script queue,
        by simp only [stepWorker, hset, List.nil_append]⟩
  | some job =>
    rcases job.step_turn m with ⟨m', job', hstep, hturn⟩ | ⟨tag, r, rfl, hstep⟩ | ⟨hlost, hstep⟩
    · exact .inl ⟨m', _, [], .advance queue hturn,
        by simp only [stepWorker, hstep, hset, List.nil_append]⟩
    · exact .inl ⟨m, _, _, .finish tag r queue,
        by simp only [stepWorker, hstep, hset, List.cons_append, List.nil_append]⟩
    · exact .inr ⟨⟨job, rfl, hlost⟩, by simp only [stepWorker, hstep, hset]⟩

theorem move_step_of_idle (m : Memo α) (before after : List (Worker τ ε α))
    (results : List (τ × Except (Failure ε α) α)) :
    (⟨m, before ++ ⟨none, []⟩ :: after, results⟩ : Pool τ ε α).move (.step before.length) =
      ⟨m, before ++ ⟨none, []⟩ :: after, results⟩ := by
  simp [move, stepWorker]

/-- A move changes a pool in one of these ways, or not at all. -/
theorem move_turn (p : Pool τ ε α) (mv : Move) : p.move mv = p ∨ Turn p (p.move mv) := by
  obtain ⟨m, workers, results⟩ := p
  cases mv with
  | step i =>
    cases hw : workers[i]? with
    | none => exact .inl (by simp [move, hw])
    | some w =>
      obtain ⟨before, after, rfl, rfl, -⟩ := exists_split hw
      by_cases hidle : w.job ≠ none ∨ w.queue ≠ []
      · rcases move_step m before after w results hidle with
          ⟨m', w', new, hturn, hmove⟩ | ⟨-, hmove⟩
        · rw [hmove]
          exact .inr (.step before after results hturn)
        · exact .inl hmove
      · obtain ⟨job, queue⟩ := w
        simp only [ne_eq, not_or, Decidable.not_not] at hidle
        obtain ⟨rfl, rfl⟩ := hidle
        exact .inl (move_step_of_idle m before after results)
  | quit i =>
    cases hw : workers[i]? with
    | none => exact .inl (by simp [move, hw])
    | some w =>
      obtain ⟨before, after, rfl, rfl, hset⟩ := exists_split hw
      by_cases hf : (⟨m, before ++ w :: after, results⟩ : Pool τ ε α).failed = true
      · right
        simp only [move, hw, hf, if_true, hset]
        exact .quit m before after w.job w.queue results hf
      · exact .inl (by simp only [move, hw, hf, Bool.false_eq_true, if_false])

@[simp] theorem run_nil (p : Pool τ ε α) : p.run [] = p := rfl

theorem run_cons (p : Pool τ ε α) (mv : Move) (moves : List Move) :
    p.run (mv :: moves) = (p.move mv).run moves := rfl

theorem run_append (p : Pool τ ε α) (moves more : List Move) :
    p.run (moves ++ more) = (p.run moves).run more := List.foldl_append

/-- What every change of a pool keeps, every interleaving keeps. -/
theorem run_induction {motive : Pool τ ε α → Prop}
    (hturn : ∀ p p', Turn p p' → motive p → motive p')
    {p : Pool τ ε α} (h : motive p) (moves : List Move) : motive (p.run moves) := by
  induction moves generalizing p with
  | nil => exact h
  | cons mv moves ih =>
    rw [run_cons]
    apply ih
    rcases p.move_turn mv with hmove | hmove
    · rw [hmove]
      exact h
    · exact hturn _ _ hmove h

omit [Cause ε] [Scalar α] in
theorem idle_iff {p : Pool τ ε α} :
    p.idle = true ↔ ∀ w ∈ p.workers, w.job = none ∧ w.queue = [] := by
  simp [idle, List.all_eq_true]

end Pool

end QuboProbe
