/-
  QuboProbe.Proofs.Memo.History

  What the workers of a pool are seen to do: which keys they look up, which
  evaluations they begin, what these come to and which answers are given.
  `Pool.history` collects it move by move, by a look at each worker before and
  after the move.

  At every moment of every interleaving the memo knows what the history says
  (`Memo.Follows`, `Pool.Chronicled.run`).  So a key is evaluated only once,
  whatever the computations are, and all look-ups of it are answered with what
  that one evaluation came to (`Pool.single_flight`).
-/
import QuboProbe.Exact
import QuboProbe.Proofs.Memo.Contents
import QuboProbe.Proofs.Memo.Totals

namespace QuboProbe

variable {τ ε α : Type}

/-! ## Marks -/

/-- One thing that a worker is seen to do. -/
inductive Mark (ε α : Type) where
  /-- It looks up a key. -/
  | asked (key : BitString)
  /-- It begins the evaluation of a key. -/
  | begun (key : BitString)
  /-- It ends the evaluation of a key. -/
  | evaluated (key : BitString) (result : Except (Failure ε α) α)
  /-- Its look-up of a key has got an answer, with which it returns once it is counted. -/
  | answered (key : BitString) (answer : Except (Failure ε α) α)

namespace Mark

def request? : Mark ε α → Option BitString
  | asked key => some key
  | _ => none

def evaluation? : Mark ε α → Option BitString
  | begun key => some key
  | _ => none

def result? : Mark ε α → Option (BitString × Except (Failure ε α) α)
  | evaluated key r => some (key, r)
  | _ => none

def answer? : Mark ε α → Option (BitString × Except (Failure ε α) α)
  | answered key a => some (key, a)
  | _ => none

/-- The keys that were looked up, once for each look-up. -/
def requests (h : List (Mark ε α)) : List BitString := h.filterMap request?

/-- The keys whose evaluation was begun, once for each time. -/
def evaluations (h : List (Mark ε α)) : List BitString := h.filterMap evaluation?

/-- What the evaluations that are over came to. -/
def results (h : List (Mark ε α)) : List (BitString × Except (Failure ε α) α) :=
  h.filterMap result?

/-- The answers of the look-ups that have one. -/
def answers (h : List (Mark ε α)) : List (BitString × Except (Failure ε α) α) :=
  h.filterMap answer?

/-- Marks of other kinds add nothing. -/
theorem filterMap_append_of_nil {σ : Type} {f : Mark ε α → Option σ} (h : List (Mark ε α))
    {new : List (Mark ε α)} (hnew : new.filterMap f = []) :
    (h ++ new).filterMap f = h.filterMap f := by
  rw [List.filterMap_append, hnew, List.append_nil]

theorem requests_append (h new : List (Mark ε α)) :
    requests (h ++ new) = requests h ++ requests new := List.filterMap_append

theorem evaluations_append (h new : List (Mark ε α)) :
    evaluations (h ++ new) = evaluations h ++ evaluations new := List.filterMap_append

theorem results_append (h new : List (Mark ε α)) :
    results (h ++ new) = results h ++ results new := List.filterMap_append

theorem answers_append (h new : List (Mark ε α)) :
    answers (h ++ new) = answers h ++ answers new := List.filterMap_append

end Mark

/-- What a job is seen to do when it goes from one phase to another inside of some evaluations. -/
def Phase.marks (frames : List (Frame ε α)) : Phase ε α → Phase ε α → List (Mark ε α)
  | .running _, .entered key _ _ => [.asked key]
  | .entered key _ _, .hitting a _ => [.answered key a]
  | .claiming key _ _, .hitting a _ => [.answered key a]
  | .claiming key _ _, .running _ => [.begun key]
  | .running (.done r), .missing a _ =>
    match frames with
    | [] => []
    | f :: _ => [.evaluated f.key r, .answered f.key a]
  | _, _ => []

/-- What a worker is seen to do when it changes.  Jobs begin and end out of sight. -/
def Worker.marks (w w' : Worker τ ε α) : List (Mark ε α) :=
  match w.job, w'.job with
  | some job, some job' => job.phase.marks job.frames job'.phase
  | _, _ => []

/-- What the workers of a pool are seen to do when it changes. -/
def Pool.marks (p p' : Pool τ ε α) : List (Mark ε α) :=
  (p.workers.zipWith Worker.marks p'.workers).flatten

/-- What is seen during an interleaving, oldest first. -/
def Pool.history [Cause ε] [Scalar α] (p : Pool τ ε α) : List Move → List (Mark ε α)
  | [] => []
  | mv :: moves => p.marks (p.move mv) ++ (p.move mv).history moves

/-- Nothing is seen of a worker whose job stays as it is. -/
theorem Worker.marks_eq_nil {w w' : Worker τ ε α} (hjob : w'.job = w.job) : w.marks w' = [] := by
  rw [Worker.marks, hjob]
  cases w.job with
  | none => rfl
  | some job =>
    -- no phase is seen to go over into itself
    obtain ⟨tag, phase, frames⟩ := job
    cases phase with
    | running s => cases s <;> rfl
    | entered | claiming | hitting | missing => rfl

theorem Worker.zipWith_marks_self (ws : List (Worker τ ε α)) :
    (ws.zipWith Worker.marks ws).flatten = [] := by
  induction ws with
  | nil => rfl
  | cons w ws ih =>
    rw [List.zipWith_cons_cons, List.flatten_cons, Worker.marks_eq_nil rfl, ih]
    rfl

theorem Pool.marks_self (p : Pool τ ε α) : p.marks p = [] := Worker.zipWith_marks_self p.workers

/-- Of the workers of a pool only the one that changes is seen to do something. -/
theorem Pool.marks_split {m m' : Memo α} {before after : List (Worker τ ε α)}
    {w w' : Worker τ ε α} {results results' : List (τ × Except (Failure ε α) α)} :
    (⟨m, before ++ w :: after, results⟩ : Pool τ ε α).marks
      ⟨m', before ++ w' :: after, results'⟩ = w.marks w' := by
  rw [Pool.marks, List.zipWith_append rfl, List.zipWith_cons_cons, List.flatten_append,
    List.flatten_cons, Worker.zipWith_marks_self, Worker.zipWith_marks_self, List.nil_append,
    List.append_nil]

/-! ## A memo and its history -/

variable [Cause ε] [Scalar α]

namespace Memo

omit [Cause ε] [Scalar α] in
theorem Matches.outcome?_eq_none {m : Memo α} {ks : List BitString} {owed : Nat} {key : BitString}
    (h : m.Matches ks owed) (hkey : key ∈ ks) : m.outcome? key = none := by
  rw [outcome?, (h.mem_open key).1 hkey]

/-- The outcomes of a memo are those of the evaluations that are over, and the answers tell them. -/
structure Tells (m : Memo α) (h : List (Mark ε α)) : Prop where
  outcome_iff : ∀ k o, m.outcome? k = some o ↔ ∃ r, (k, r) ∈ Mark.results h ∧ outcomeOf r = o
  once : ((Mark.results h).map Prod.fst).Nodup
  result_of_answer : ∀ k a, (k, a) ∈ Mark.answers h →
    ∃ r, (k, r) ∈ Mark.results h ∧ (a = r ∨ a = replay k (outcomeOf r))
  answer_of_result : ∀ k r, (k, r) ∈ Mark.results h → (k, r) ∈ Mark.answers h

/-- The memo fits a history in which the look-ups of `waiting` have no answer yet and `uncounted`
look-ups have an answer and are not counted. -/
structure Follows (m : Memo α) (h : List (Mark ε α)) (waiting : List BitString) (uncounted : Nat) :
    Prop where
  keyed : m.Keyed
  tells : m.Tells h
  begun : (Mark.evaluations h).reverse = m.started
  requests : (Mark.requests h).Perm ((Mark.answers h).map Prod.fst ++ waiting)
  lookups : m.tally.lookups + uncounted = (Mark.answers h).length

variable {m : Memo α} {h new : List (Mark ε α)} {waiting : List BitString} {n : Nat}
  {key : BitString}

theorem Tells.empty : (empty : Memo α).Tells ([] : List (Mark ε α)) where
  outcome_iff k o := by
    rw [outcome?_empty]
    refine iff_of_false nofun ?_
    rintro ⟨r, hr, -⟩
    exact List.not_mem_nil hr
  once := List.nodup_nil
  result_of_answer k a ha := absurd ha List.not_mem_nil
  answer_of_result k r hr := absurd hr List.not_mem_nil

theorem Tells.congr {m' : Memo α} {h' : List (Mark ε α)} (hm : m.Tells h)
    (hknown : ∀ k, m'.outcome? k = m.outcome? k) (hresults : Mark.results h' = Mark.results h)
    (hanswers : Mark.answers h' = Mark.answers h) : m'.Tells h' where
  outcome_iff k o := by
    rw [hknown, hresults]
    exact hm.outcome_iff k o
  once := by
    rw [hresults]
    exact hm.once
  result_of_answer k a ha := by
    rw [hresults]
    rw [hanswers] at ha
    exact hm.result_of_answer k a ha
  answer_of_result k r hr := by
    rw [hresults] at hr
    rw [hanswers]
    exact hm.answer_of_result k r hr

/-- The first to be answered is the one who evaluated, with the result itself. -/
theorem Tells.settle (hm : m.Tells h) (hnew : m.outcome? key = none)
    (r : Except (Failure ε α) α) :
    (m.settle key r).Tells (h ++ [.evaluated key r, .answered key r]) := by
  have hresults : Mark.results (h ++ [.evaluated key r, .answered key r]) =
      Mark.results h ++ [(key, r)] := Mark.results_append h _
  have hanswers : Mark.answers (h ++ [.evaluated key r, .answered key r]) =
      Mark.answers h ++ [(key, r)] := Mark.answers_append h _
  -- a key without an outcome has not been evaluated before
  have hnot (r' : Except (Failure ε α) α) : (key, r') ∉ Mark.results h := by
    intro hr'
    have hsome := (hm.outcome_iff key _).2 ⟨r', hr', rfl⟩
    rw [hnew] at hsome
    cases hsome
  constructor
  case outcome_iff =>
    intro k o
    rw [hresults, outcome?_settle]
    by_cases hk : k = key
    · subst hk
      simp [hnot]
    · simp [hk, hm.outcome_iff]
  case once =>
    rw [hresults, List.map_append, List.nodup_append]
    refine ⟨hm.once, List.nodup_singleton _, ?_⟩
    rintro _ hk _ hkey rfl
    obtain ⟨⟨k, r'⟩, hr', rfl⟩ := List.mem_map.1 hk
    obtain rfl : k = key := List.mem_singleton.1 hkey
    exact hnot r' hr'
  case result_of_answer =>
    intro k a ha
    rw [hresults]
    rw [hanswers] at ha
    rcases List.mem_append.1 ha with ha | ha
    · obtain ⟨r', hr', hra⟩ := hm.result_of_answer k a ha
      exact ⟨r', List.mem_append_left _ hr', hra⟩
    · cases List.mem_singleton.1 ha
      exact ⟨r, List.mem_append_right _ (List.mem_singleton.2 rfl), .inl rfl⟩
  case answer_of_result =>
    intro k r' hr'
    rw [hanswers]
    rw [hresults] at hr'
    rcases List.mem_append.1 hr' with hr' | hr'
    · exact List.mem_append_left _ (hm.answer_of_result k r' hr')
    · exact List.mem_append_right _ hr'

/-- All others are told the outcome. -/
theorem Tells.replay {o : Except String α} (hm : m.Tells h) (ho : m.outcome? key = some o) :
    m.Tells (h ++ [.answered key (replay key o)]) := by
  have hresults : Mark.results (h ++ [.answered key (Memo.replay key o)]) = Mark.results h :=
    Mark.filterMap_append_of_nil h rfl
  have hanswers : Mark.answers (h ++ [.answered key (Memo.replay key o)]) =
      Mark.answers h ++ [(key, Memo.replay key o)] := Mark.answers_append h _
  constructor
  case outcome_iff =>
    intro k o'
    rw [hresults]
    exact hm.outcome_iff k o'
  case once =>
    rw [hresults]
    exact hm.once
  case result_of_answer =>
    intro k a ha
    rw [hresults]
    rw [hanswers] at ha
    rcases List.mem_append.1 ha with ha | ha
    · exact hm.result_of_answer k a ha
    · -- the outcome is that of an evaluation which the history knows
      cases List.mem_singleton.1 ha
      obtain ⟨r, hr, hro⟩ := (hm.outcome_iff key o).1 ho
      exact ⟨r, hr, .inr (by rw [hro])⟩
  case answer_of_result =>
    intro k r hr
    rw [hanswers]
    rw [hresults] at hr
    exact List.mem_append_left _ (hm.answer_of_result k r hr)

namespace Follows

theorem empty : (Memo.empty : Memo α).Follows ([] : List (Mark ε α)) [] 0 :=
  ⟨Keyed.empty, Tells.empty, rfl, .nil, rfl⟩

theorem perm {waiting' : List BitString} (hm : m.Follows h waiting n)
    (hp : waiting.Perm waiting') : m.Follows h waiting' n :=
  ⟨hm.keyed, hm.tells, hm.begun, hm.requests.trans (hp.append_left _), hm.lookups⟩

theorem ask (hm : m.Follows h waiting n) (key : BitString) :
    (m.enter key).Follows (h ++ [.asked key]) (key :: waiting) n := by
  have hanswers : Mark.answers (h ++ [.asked key]) = Mark.answers h :=
    Mark.filterMap_append_of_nil h rfl
  have hevaluations : Mark.evaluations (h ++ [.asked key]) = Mark.evaluations h :=
    Mark.filterMap_append_of_nil h rfl
  have hresults : Mark.results (h ++ [.asked key]) = Mark.results h :=
    Mark.filterMap_append_of_nil h rfl
  refine ⟨hm.keyed.enter key, hm.tells.congr (fun k => outcome?_enter m key k) hresults hanswers,
    ?_, ?_, ?_⟩
  · rw [hevaluations, started_enter]
    exact hm.begun
  · -- the new request is the one that waits
    have hmove : (waiting ++ [key]).Perm (key :: waiting) := List.perm_append_singleton key waiting
    rw [hanswers, Mark.requests_append]
    refine (hm.requests.append_right [key]).trans ?_
    rw [List.append_assoc]
    exact hmove.append_left _
  · rw [hanswers, tally_enter]
    exact hm.lookups

theorem begin (hm : m.Follows h waiting n) (hnew : m.outcome? key = none) :
    (m.start key).Follows (h ++ [.begun key]) waiting n := by
  have hanswers : Mark.answers (h ++ [.begun key]) = Mark.answers h :=
    Mark.filterMap_append_of_nil h rfl
  have hrequests : Mark.requests (h ++ [.begun key]) = Mark.requests h :=
    Mark.filterMap_append_of_nil h rfl
  have hresults : Mark.results (h ++ [.begun key]) = Mark.results h :=
    Mark.filterMap_append_of_nil h rfl
  refine ⟨hm.keyed.start key,
    hm.tells.congr (fun k => outcome?_start m key k hnew) hresults hanswers, ?_, ?_, ?_⟩
  · rw [Mark.evaluations_append, List.reverse_append, hm.begun]
    rfl
  · rw [hrequests, hanswers]
    exact hm.requests
  · rw [hanswers]
    exact hm.lookups

/-- A look-up that gets its answer no longer waits, and is to be counted. -/
theorem answer {m' : Memo α} {a : Except (Failure ε α) α} (hm : m.Follows h (key :: waiting) n)
    (hkeyed : m'.Keyed) (htells : m'.Tells (h ++ new)) (hstarted : m'.started = m.started)
    (htally : m'.tally = m.tally) (hbegun : Mark.evaluations new = [])
    (hrequests : Mark.requests new = []) (hanswers : Mark.answers new = [(key, a)]) :
    m'.Follows (h ++ new) waiting (n + 1) := by
  have hevaluations : Mark.evaluations (h ++ new) = Mark.evaluations h :=
    Mark.filterMap_append_of_nil h hbegun
  have hrequests' : Mark.requests (h ++ new) = Mark.requests h :=
    Mark.filterMap_append_of_nil h hrequests
  refine ⟨hkeyed, htells, ?_, ?_, ?_⟩
  · rw [hevaluations, hstarted]
    exact hm.begun
  · -- the key goes over from those that wait to those that are answered
    rw [hrequests', Mark.answers_append, hanswers, List.map_append, List.append_assoc]
    exact hm.requests
  · have := hm.lookups
    rw [Mark.answers_append, hanswers, List.length_append, List.length_singleton, htally]
    omega

theorem settle (hm : m.Follows h (key :: waiting) n) (hnew : m.outcome? key = none)
    (r : Except (Failure ε α) α) :
    (m.settle key r).Follows (h ++ [.evaluated key r, .answered key r]) waiting (n + 1) :=
  hm.answer (hm.keyed.settle key r) (hm.tells.settle hnew r) rfl rfl rfl rfl rfl

theorem replay {o : Except String α} (hm : m.Follows h (key :: waiting) n)
    (ho : m.outcome? key = some o) :
    m.Follows (h ++ [.answered key (Memo.replay key o)]) waiting (n + 1) :=
  hm.answer hm.keyed (hm.tells.replay ho) rfl rfl rfl rfl rfl

theorem hit (hm : m.Follows h waiting (n + 1)) : m.hit.Follows h waiting n := by
  refine ⟨hm.keyed.hit, hm.tells.congr (outcome?_hit m) rfl rfl, hm.begun, hm.requests, ?_⟩
  have := hm.lookups
  simp only [Memo.hit, Tally.lookups] at this ⊢
  omega

theorem miss (hm : m.Follows h waiting (n + 1)) : m.miss.Follows h waiting n := by
  refine ⟨hm.keyed.miss, hm.tells.congr (outcome?_miss m) rfl rfl, hm.begun, hm.requests, ?_⟩
  have := hm.lookups
  simp only [Memo.miss, Tally.lookups] at this ⊢
  omega

end Follows

/-- An answer to a look-up is what the one evaluation of the key came to, or a failure that tells
its message. -/
theorem Tells.answer (hm : m.Tells h) {a : Except (Failure ε α) α}
    (ha : (key, a) ∈ Mark.answers h) :
    ∃ r, (key, r) ∈ Mark.results h ∧ (∀ r', (key, r') ∈ Mark.results h → r' = r) ∧
      (∀ v, a = .ok v ↔ r = .ok v) ∧
      ∀ e, r = .error e → a = .error e ∨ a = .error (.objective key (.replayed e.message)) := by
  obtain ⟨r, hr, hra⟩ := hm.result_of_answer key a ha
  refine ⟨r, hr, fun r' hr' => ?_, ?_⟩
  -- a key has only one result
  · have hsame : (key, r') = (key, r) := List.inj_on_of_nodup_map hm.once hr' hr rfl
    exact congrArg Prod.snd hsame
  · rcases hra with rfl | rfl
    · exact ⟨fun v => Iff.rfl, fun e he => .inl he⟩
    · -- what is told again is the value itself, or a failure with the message
      cases r with
      | ok v => exact ⟨fun w => Iff.rfl, fun e he => nomatch he⟩
      | error e =>
        refine ⟨fun w => iff_of_false nofun nofun, fun e' he => .inr ?_⟩
        cases he
        rfl

/-- When no look-up is under way, the keys that were looked up are those that were evaluated. -/
theorem Follows.mem_requests_iff (hm : m.Follows h [] n) (k : BitString) :
    k ∈ Mark.requests h ↔ ∃ o, m.outcome? k = some o := by
  rw [hm.requests.mem_iff, List.append_nil, List.mem_map]
  constructor
  · rintro ⟨⟨k, a⟩, ha, rfl⟩
    obtain ⟨r, hr, -⟩ := hm.tells.result_of_answer k a ha
    exact ⟨_, (hm.tells.outcome_iff k _).2 ⟨r, hr, rfl⟩⟩
  · rintro ⟨o, ho⟩
    obtain ⟨r, hr, -⟩ := (hm.tells.outcome_iff k o).1 ho
    exact ⟨(k, r), hm.tells.answer_of_result k r hr, rfl⟩

/-- When no look-up is under way, everything is counted. -/
theorem Follows.totals (hm : m.Follows h [] 0) (hc : m.Matches [] 0) :
    m.tally.misses = (Mark.requests h).toFinset.card ∧
      m.tally.hits + m.tally.misses = (Mark.requests h).length ∧
      m.size + m.failures = m.tally.misses := by
  have hmisses : m.tally.misses = m.started.length := hc.misses
  -- nothing is under evaluation, so all that is begun has an outcome
  have hmem (k : BitString) : k ∈ m.started.toFinset ↔ ∃ o, m.outcome? k = some o := by
    have hfree : m.cell? k ≠ some .busy := fun hbusy =>
      List.not_mem_nil ((hc.mem_open k).2 hbusy)
    rw [List.mem_toFinset, hc.mem_started, begun_iff_outcome? hfree, Option.isSome_iff_exists]
  have hset : m.started.toFinset = (Mark.requests h).toFinset := by
    ext k
    rw [hmem, List.mem_toFinset, hm.mem_requests_iff]
  have hcard : m.started.toFinset.card = m.started.length :=
    List.toFinset_card_of_nodup hc.started_nodup
  refine ⟨?_, ?_, ?_⟩
  · -- what was started is what was looked up, each key once
    rw [hmisses, ← hcard, hset]
  · have hlookups : m.tally.lookups = (Mark.answers h).length := hm.lookups
    rw [hm.requests.length_eq, List.append_nil, List.length_map, ← hlookups]
    rfl
  · rw [size_add_failures, hmisses, ← hcard]
    have hcount : ∀ k, k ∈ m.started.toFinset ↔ ∃ o, m.outcome? k = some o ∧ true = true := by
      intro k
      rw [hmem]
      simp only [and_true]
    exact count_eq_card hm.keyed hcount

end Memo

/-! ## Jobs and workers -/

/-- The keys of a job's look-ups that have no answer yet, innermost first. -/
def Job.waiting (job : Job τ ε α) : List BitString :=
  match job.phase with
  | .entered key _ _ => key :: job.openKeys
  | .claiming key _ _ => key :: job.openKeys
  | _ => job.openKeys

/-- Whether a job has an answer that is not counted yet. -/
def Job.uncounted (job : Job τ ε α) : Nat :=
  match job.phase with
  | .hitting _ _ => 1
  | .missing _ _ => 1
  | _ => 0

def Worker.waiting (w : Worker τ ε α) : List BitString := (w.job.map Job.waiting).getD []

def Worker.uncounted (w : Worker τ ε α) : Nat := (w.job.map Job.uncounted).getD 0

/-- A turn of one job keeps the memo in step with what is seen of it.  The evaluations that the job
is inside of have no outcome yet. -/
theorem Job.Turn.follows {m m' : Memo α} {job job' : Job τ ε α} {h : List (Mark ε α)}
    {ks : List BitString} {n : Nat} (ht : Job.Turn m job m' job')
    (hopen : ∀ key ∈ job.openKeys, m.outcome? key = none)
    (hm : m.Follows h (job.waiting ++ ks) (n + job.uncounted)) :
    m'.Follows (h ++ job.phase.marks job.frames job'.phase) (job'.waiting ++ ks)
      (n + job'.uncounted) := by
  -- a step of which nothing is seen
  have quiet (hm : m.Follows h (job.waiting ++ ks) (n + job.uncounted)) :
      m.Follows (h ++ []) (job.waiting ++ ks) (n + job.uncounted) := by
    rw [List.append_nil]
    exact hm
  cases ht with
  | ask tag key => exact hm.ask key
  | settle tag r f => exact Memo.Follows.settle hm (hopen f.key List.mem_cons_self) r
  | seen _ _ _ _ ho => exact Memo.Follows.replay hm ho
  | unseen => exact quiet hm
  | shared _ _ _ _ ho => exact Memo.Follows.replay hm ho
  | wait => exact quiet hm
  | begin _ _ _ _ hvacant => exact Memo.Follows.begin hm (Memo.outcome?_of_vacant hvacant)
  | hit =>
    rw [← List.append_nil h] at hm
    exact Memo.Follows.hit hm
  | miss =>
    rw [← List.append_nil h] at hm
    exact Memo.Follows.miss hm

theorem Worker.Turn.follows {m m' : Memo α} {w w' : Worker τ ε α}
    {new : List (τ × Except (Failure ε α) α)} {h : List (Mark ε α)} {ks : List BitString} {n : Nat}
    (ht : Worker.Turn m w m' w' new) (hopen : ∀ key ∈ w.openKeys, m.outcome? key = none)
    (hm : m.Follows h (w.waiting ++ ks) (n + w.uncounted)) :
    m'.Follows (h ++ w.marks w') (w'.waiting ++ ks) (n + w'.uncounted) := by
  cases ht with
  | advance queue hjob => exact hjob.follows hopen hm
  | take | finish =>
    rw [← List.append_nil h] at hm
    exact hm

/-! ## Pools -/

namespace Pool

/-- The keys of the look-ups that have no answer yet. -/
def waiting (p : Pool τ ε α) : List BitString := p.workers.flatMap Worker.waiting

/-- How many look-ups have an answer and are not counted. -/
def uncounted (p : Pool τ ε α) : Nat := (p.workers.map Worker.uncounted).sum

/-- The memo of a pool knows what a history says, neither more nor less. -/
structure Chronicled (p : Pool τ ε α) (h : List (Mark ε α)) : Prop where
  consistent : p.Consistent
  follows : p.memo.Follows h p.waiting p.uncounted

theorem chronicled_split {m : Memo α} {before after : List (Worker τ ε α)} {w : Worker τ ε α}
    {results : List (τ × Except (Failure ε α) α)} {h : List (Mark ε α)} :
    (⟨m, before ++ w :: after, results⟩ : Pool τ ε α).Chronicled h ↔
      (⟨m, before ++ w :: after, results⟩ : Pool τ ε α).Consistent ∧
      m.Follows h (w.waiting ++ (before ++ after).flatMap Worker.waiting)
        (((before ++ after).map Worker.uncounted).sum + w.uncounted) := by
  have hwaiting := flatMap_split Worker.waiting before after w
  have huncounted := sum_split Worker.uncounted before after w
  constructor
  · rintro ⟨hc, hf⟩
    rw [uncounted, huncounted] at hf
    exact ⟨hc, hf.perm hwaiting⟩
  · rintro ⟨hc, hf⟩
    refine ⟨hc, ?_⟩
    rw [uncounted, huncounted]
    exact hf.perm hwaiting.symm

theorem Chronicled.turn {p p' : Pool τ ε α} {h : List (Mark ε α)} (ht : Turn p p')
    (hp : p.Chronicled h) : p'.Chronicled (h ++ p.marks p') := by
  have hc : p'.Consistent := Consistent.turn p p' ht hp.consistent
  cases ht with
  | @step m m' before after w w' new results hw =>
    rw [marks_split]
    obtain ⟨hp, hf⟩ := chronicled_split.1 hp
    -- what the worker evaluates is busy
    have hopen : ∀ key ∈ w.openKeys, m.outcome? key = none := fun key hkey =>
      (consistent_split.1 hp).outcome?_eq_none (List.mem_append_left _ hkey)
    exact chronicled_split.2 ⟨hc, hw.follows hopen hf⟩
  | quit m before after job queue =>
    -- jobs that have not begun are out of sight
    have hseen : (⟨job, queue⟩ : Worker τ ε α).marks ⟨job, []⟩ = [] := Worker.marks_eq_nil rfl
    rw [marks_split, hseen, List.append_nil]
    exact chronicled_split.2 ⟨hc, (chronicled_split.1 hp).2⟩

/-- At every moment of every interleaving the memo knows what the history says. -/
theorem Chronicled.run {p : Pool τ ε α} {h : List (Mark ε α)} (hp : p.Chronicled h)
    (moves : List Move) : (p.run moves).Chronicled (h ++ p.history moves) := by
  induction moves generalizing p h with
  | nil =>
    rw [history, List.append_nil]
    exact hp
  | cons mv moves ih =>
    -- the rest of the moves adds to a history that holds the first one already
    rw [run_cons, history, ← List.append_assoc]
    apply ih
    rcases p.move_turn mv with hmove | hmove
    · rw [hmove, marks_self, List.append_nil]
      exact hp
    · exact hp.turn hmove

/-! ## Pools in which no look-up is under way -/

/-- Every worker that has a job is between two of its look-ups. -/
def Quiet (p : Pool τ ε α) : Prop := ∀ w ∈ p.workers, ∀ job, w.job = some job → job.midway = 0

omit [Cause ε] [Scalar α] in
theorem Quiet.worker {p : Pool τ ε α} (hp : p.Quiet) {w : Worker τ ε α} (hw : w ∈ p.workers) :
    w.openKeys = [] ∧ w.owed = 0 ∧ w.waiting = [] ∧ w.uncounted = 0 := by
  have hmidway := hp w hw
  obtain ⟨job, queue⟩ := w
  cases job with
  | none => exact ⟨rfl, rfl, rfl, rfl⟩
  | some job =>
    -- only a job that is running outside of all evaluations is in no look-up
    have hjob : job.midway = 0 := hmidway job rfl
    obtain ⟨tag, phase, frames⟩ := job
    cases phase with
    | running s =>
      cases frames with
      | nil => exact ⟨rfl, rfl, rfl, rfl⟩
      | cons f frames => cases hjob
    | entered | claiming | hitting | missing => cases hjob

omit [Cause ε] [Scalar α] in
/-- Then nothing is under evaluation, unanswered or uncounted. -/
theorem Quiet.nothing {p : Pool τ ε α} (hp : p.Quiet) :
    p.openKeys = [] ∧ p.owed = 0 ∧ p.waiting = [] ∧ p.uncounted = 0 := by
  refine ⟨?_, ?_, ?_, ?_⟩
  · exact List.flatMap_eq_nil_iff.2 fun w hw => (hp.worker hw).1
  · exact sum_eq_zero fun w hw => (hp.worker hw).2.1
  · exact List.flatMap_eq_nil_iff.2 fun w hw => (hp.worker hw).2.2.1
  · exact sum_eq_zero fun w hw => (hp.worker hw).2.2.2

omit [Cause ε] [Scalar α] in
theorem quiet_ofQueues (m : Memo α) (queues : List (List (τ × Script ε α))) :
    (ofQueues m queues).Quiet := by
  intro w hw job hjob
  rw [job_ofQueues m queues w hw] at hjob
  cases hjob

/-- Workers that have not begun are seen to do nothing, and an empty memo knows nothing. -/
theorem chronicled_ofQueues (queues : List (List (τ × Script ε α))) :
    (ofQueues .empty queues).Chronicled [] := by
  obtain ⟨hopen, howed, hwaiting, huncounted⟩ :=
    (quiet_ofQueues .empty queues : (ofQueues (Memo.empty : Memo α) queues).Quiet).nothing
  constructor
  · rw [Consistent, hopen, howed]
    exact Memo.Matches.empty
  · rw [hwaiting, huncounted]
    exact Memo.Follows.empty

end Pool

/-! ## One evaluation for all -/

/-- Workers that share a memo, each with any computations, whose evaluations are computations of
any kind too, and in any order of their steps.  No evaluation of a key is begun twice.  Every
look-up that is answered is answered with what the one evaluation of its key came to, where those
that did not evaluate are told of a failure by its message.  Whenever no look-up is under way, the
misses are the different keys that were looked up, hits and misses are the look-ups, and the keys
with a value or a failure are the misses. -/
theorem Pool.single_flight (queues : List (List (τ × Script ε α))) (moves : List Move) :
    (Mark.evaluations ((ofQueues .empty queues).history moves)).Nodup ∧
    (∀ key a, (key, a) ∈ Mark.answers ((ofQueues .empty queues).history moves) →
      ∃ r, (key, r) ∈ Mark.results ((ofQueues .empty queues).history moves) ∧
        (∀ r', (key, r') ∈ Mark.results ((ofQueues .empty queues).history moves) → r' = r) ∧
        (∀ v, a = .ok v ↔ r = .ok v) ∧
        ∀ e, r = .error e → a = .error e ∨ a = .error (.objective key (.replayed e.message))) ∧
    (((ofQueues .empty queues).run moves).Quiet →
      ((ofQueues .empty queues).run moves).memo.tally.misses =
          (Mark.requests ((ofQueues .empty queues).history moves)).toFinset.card ∧
        ((ofQueues .empty queues).run moves).memo.tally.hits +
            ((ofQueues .empty queues).run moves).memo.tally.misses =
          (Mark.requests ((ofQueues .empty queues).history moves)).length ∧
        ((ofQueues .empty queues).run moves).memo.size +
            ((ofQueues .empty queues).run moves).memo.failures =
          ((ofQueues .empty queues).run moves).memo.tally.misses) := by
  obtain ⟨hc, hf⟩ := (chronicled_ofQueues queues).run moves
  rw [List.nil_append] at hf
  refine ⟨?_, fun key a ha => hf.tells.answer ha, fun hquiet => ?_⟩
  · rw [← List.nodup_reverse, hf.begun]
    exact hc.started_nodup
  · obtain ⟨hopen, howed, hwaiting, huncounted⟩ := hquiet.nothing
    rw [Consistent, hopen, howed] at hc
    rw [hwaiting, huncounted] at hf
    exact hf.totals hc

/-- Two workers look up one key at the same time, each with an evaluation of its own.  The second
one waits for the first and is told its value; the other evaluation is never begun. -/
theorem Pool.single_flight_race :
    let key := BitString.unit 2 0
    let lookup (v : ℚ) : Script CodingError ℚ := .ask key (fun _ => .done (.ok v)) .done
    let queues : List (List (Nat × Script CodingError ℚ)) := [[(0, lookup 3)], [(1, lookup 5)]]
    let moves := (List.replicate 7 [Move.step 0, .step 1]).flatten
    (Mark.answers ((ofQueues .empty queues).history moves)).map (fun a => (a.1, a.2.toOption)) =
        [(key, some 3), (key, some 3)] ∧
      ((ofQueues .empty queues).run moves).Quiet ∧
      ((ofQueues .empty queues).run moves).memo.tally.misses = 1 ∧
      ((ofQueues .empty queues).run moves).memo.tally.hits = 1 := by
  intro key lookup queues moves
  have hrequests : Mark.requests ((ofQueues .empty queues).history moves) = [key, key] := by
    decide +kernel
  have hidle : ((ofQueues .empty queues).run moves).idle = true := by decide +kernel
  have hquiet : ((ofQueues .empty queues).run moves).Quiet := by
    intro w hw job hjob
    rw [(idle_iff.1 hidle w hw).1] at hjob
    cases hjob
  refine ⟨by decide +kernel, hquiet, ?_⟩
  obtain ⟨hmisses, hlookups, -⟩ := (single_flight queues moves).2.2 hquiet
  rw [hrequests] at hmisses hlookups
  have hone : ((ofQueues .empty queues).run moves).memo.tally.misses = 1 := hmisses
  have hhits : ((ofQueues .empty queues).run moves).memo.tally.hits = 1 := by
    rw [hone] at hlookups
    exact Nat.succ.inj hlookups
  exact ⟨hone, hhits⟩

end QuboProbe
