/-
  QuboProbe.Proofs.Memo.Failures

  Where failures come from.  Whoever evaluates a key is handed the failure of
  its evaluation; the memo keeps the message, and later look-ups are told that.
  For computations that end with the first failure that they are answered
  (`Script.Relays`):

    * alone on a memo without failures, such a computation fails with what an
      evaluation gave (`Script.Relays.run`);
    * among workers, a failure that the memo knows of is held by some worker or
      recorded as it was given, and whatever is held or recorded was given or
      tells of a failure that the memo knows of (`Pool.Kept`, `Pool.Kept.run`);
    * while no two workers have jobs at the same time, the failure that is
      recorded first was given (`Pool.FirstGiven.run`).
-/
import QuboProbe.Proofs.Memo.Totals

namespace QuboProbe

variable {τ ε α : Type}

/-! ## Computations that pass failures on -/

/-- A computation that ends with a value, or with the first failure that it is answered. -/
inductive Script.Relays : Script ε α → Prop where
  | value (v : α) : Relays (.done (.ok v))
  | ask (key : BitString) (evaluation : Unit → Script ε α)
      {next : Except (Failure ε α) α → Script ε α} (hvalue : ∀ v, Relays (next (.ok v)))
      (hfailure : ∀ e, next (.error e) = .done (.error e)) : Relays (.ask key evaluation next)

namespace Script

/-- What follows an answer passes failures on. -/
def PassesOn (next : Except (Failure ε α) α → Script ε α) : Prop :=
  (∀ v, (next (.ok v)).Relays) ∧ ∀ e, next (.error e) = .done (.error e)

theorem relays_ask {key : BitString} {evaluation : Unit → Script ε α}
    {next : Except (Failure ε α) α → Script ε α} :
    (ask key evaluation next).Relays ↔ PassesOn next := by
  constructor
  · rintro (_ | ⟨_, _, hvalue, hfailure⟩)
    exact ⟨hvalue, hfailure⟩
  · rintro ⟨hvalue, hfailure⟩
    exact .ask key evaluation hvalue hfailure

theorem Relays.lookup (evaluate : BitString → Except (Failure ε α) α) (key : BitString) :
    (Script.lookup evaluate key).Relays := .ask key _ .value fun _ => rfl

theorem Relays.andThen {s : Script ε α} {f : α → Script ε α} (hs : s.Relays)
    (hf : ∀ v, (f v).Relays) : (s.andThen f).Relays := by
  induction hs with
  | value v => exact hf v
  | @ask key evaluation next _ hfailure ih =>
    -- a failure ends the first part, and with it the sequence
    refine .ask key evaluation ih fun e => ?_
    show (next (.error e)).andThen f = .done (.error e)
    rw [hfailure, Script.andThen]

end Script

/-! ## Failures that are held -/

/-- The failure that a result is. -/
def Failure.of : Except (Failure ε α) α → List (Failure ε α)
  | .ok _ => []
  | .error e => [e]

theorem Failure.mem_of {r : Except (Failure ε α) α} {e : Failure ε α} :
    e ∈ Failure.of r ↔ r = .error e := by
  cases r with
  | ok v => simp [Failure.of]
  | error e' => simp [Failure.of, eq_comm]

/-- The failure that a job is going to end with. -/
def Job.held (job : Job τ ε α) : List (Failure ε α) :=
  match job.phase, job.frames with
  | .running (.done r), [] => Failure.of r
  | .hitting a _, _ => Failure.of a
  | .missing a _, _ => Failure.of a
  | _, _ => []

/-- A job whose computation passes failures on, from where it stands. -/
def Job.Relays (job : Job τ ε α) : Prop :=
  match job.phase, job.frames with
  | .running s, [] => s.Relays ∨ ∃ e, s = .done (.error e)
  | .running _, f :: _ => Script.PassesOn f.next
  | .entered _ _ next, _ => Script.PassesOn next
  | .claiming _ _ next, _ => Script.PassesOn next
  | .hitting _ next, _ => Script.PassesOn next
  | .missing _ next, _ => Script.PassesOn next

/-- A computation that passes failures on holds none before it has asked for anything. -/
theorem Script.Relays.held_running {s : Script ε α} (hs : s.Relays) (tag : τ) :
    (⟨tag, .running s, []⟩ : Job τ ε α).held = [] := by
  cases hs <;> rfl

/-- A job that goes on with an answer holds the failure that the answer is. -/
theorem Job.held_answered (tag : τ) {next : Except (Failure ε α) α → Script ε α}
    (hnext : Script.PassesOn next) (a : Except (Failure ε α) α) :
    (⟨tag, .running (next a), []⟩ : Job τ ε α).held = Failure.of a := by
  cases a with
  | ok v => exact (hnext.1 v).held_running tag
  | error e =>
    rw [hnext.2 e]
    rfl

theorem Job.relays_answered (tag : τ) {next : Except (Failure ε α) α → Script ε α}
    (hnext : Script.PassesOn next) (a : Except (Failure ε α) α) :
    (⟨tag, .running (next a), []⟩ : Job τ ε α).Relays := by
  cases a with
  | ok v => exact .inl (hnext.1 v)
  | error e => exact .inr ⟨e, hnext.2 e⟩

/-! ## Alone on a memo -/

/-- No evaluation that the memo knows of has failed. -/
def Memo.Unfailing (evaluate : BitString → Except (Failure ε α) α) (m : Memo α) : Prop :=
  ∀ key, (m.outcome? key).isSome → ∃ v, evaluate key = .ok v

variable [Cause ε] [Scalar α] {evaluate : BitString → Except (Failure ε α) α}
  {P : BitString → Prop} {k : Nat} {script : τ → Script ε α}

theorem Memo.Unfailing.look {m : Memo α} (hm : m.Unfailing evaluate) (hs : m.Settled evaluate)
    {key : BitString} {v : α} (hv : evaluate key = .ok v) :
    (m.look evaluate key).2.Unfailing evaluate := by
  intro k hk
  rw [outcome?_look hs] at hk
  split at hk
  · rename_i hkey
    exact ⟨v, hkey ▸ hv⟩
  · exact hm k hk

/-- On a memo without failures, a computation fails with what an evaluation gave, or leaves the
memo without failures. -/
theorem Script.Relays.run {s : Script ε α} (hr : s.Relays) (hs : s.LooksUp evaluate P k)
    {m : Memo α} (hm : m.Settled evaluate) (hok : m.Unfailing evaluate) :
    (∃ key e, evaluate key = .error e ∧ (s.run m).1 = .error e) ∨
      ∃ v, (s.run m).1 = .ok v ∧ (s.run m).2.Unfailing evaluate := by
  induction hs generalizing m with
  | done _ r =>
    cases hr with
    | value v => exact .inr ⟨v, rfl, hok⟩
  | @ask _ key _ next _ heval _ ih =>
    obtain ⟨hvalue, hfailure⟩ := relays_ask.1 hr
    rw [run_ask heval]
    cases hkey : evaluate key with
    | ok v =>
      rw [(answers_iff_of_ok hkey _).1 (Memo.answers_look hm key)]
      exact ih _ (hvalue v) (hm.look key) (hok.look hm hkey)
    | error e =>
      -- the memo cannot know of this key, so it is evaluated now
      have hnone : m.outcome? key = none := by
        cases ho : m.outcome? key with
        | none => rfl
        | some o =>
          obtain ⟨v, hv⟩ := hok key (by simp [ho])
          cases hv.symm.trans hkey
      have hlook : (m.look evaluate key).1 = .error e := by
        rw [Memo.look, hnone]
        exact hkey
      rw [hlook, hfailure]
      exact .inl ⟨key, e, hkey, rfl⟩

/-! ## One step -/

/-- The key has an outcome now, and what is known of all others is as before. -/
def Memo.Learns (m m' : Memo α) (key : BitString) (o : Except String α) : Prop :=
  ∀ k, m'.outcome? k = if k = key then some o else m.outcome? k

/-- What a step does with failures.  The lists are those held or recorded before and after it. -/
inductive Memo.Passes (evaluate : BitString → Except (Failure ε α) α) (m m' : Memo α) :
    List (Failure ε α) → List (Failure ε α) → Prop where
  /-- Nothing becomes known, and what was held is held or recorded. -/
  | keeps (held : List (Failure ε α)) (h : ∀ k, m'.outcome? k = m.outcome? k) :
      Passes evaluate m m' held held
  /-- An evaluation is over: its outcome is known, and its failure is held. -/
  | gives (key : BitString) (h : m.Learns m' key (Memo.outcomeOf (evaluate key))) :
      Passes evaluate m m' [] (Failure.of (evaluate key))
  /-- A known outcome is told. -/
  | tells (key : BitString) (h : (m.outcome? key).isSome) (hm : m' = m) :
      Passes evaluate m m' [] (Failure.of (Memo.replay key (Memo.outcomeOf (evaluate key))))

theorem Job.Turn.passes {m m' : Memo α} {job job' : Job τ ε α} {c : Nat}
    (h : Job.Turn m job m' job') (hm : m.Faithful evaluate) (hc : job.Within evaluate P c)
    (hr : job.Relays) : m.Passes evaluate m' job.held job'.held := by
  cases h with
  | ask => exact .keeps [] (m.outcome?_enter _)
  | settle =>
    -- the only step in which a failure is handed on as it was given
    cases hc with
    | evaluating _ key => exact .gives key fun k => m.outcome?_settle key k _
  | seen _ _ _ _ ho =>
    -- what the memo holds is the outcome of the evaluation, so its message is told
    rw [hm _ _ ho]
    exact .tells _ (by simp [ho]) rfl
  | shared _ _ _ _ ho =>
    rw [hm _ _ ho]
    exact .tells _ (by simp [ho]) rfl
  | unseen | wait => exact .keeps [] fun _ => rfl
  | begin _ _ _ _ hvacant =>
    cases hc with
    | claiming _ _ heval =>
      -- the key has no outcome yet, and the evaluation is under way
      rw [heval]
      exact .keeps [] fun k => m.outcome?_start _ k (Memo.outcome?_of_vacant hvacant)
  | hit tag a =>
    cases hc with
    | hitting =>
      rw [Job.held_answered tag hr a]
      exact .keeps _ fun _ => rfl
  | miss tag a =>
    cases hc with
    | missing =>
      rw [Job.held_answered tag hr a]
      exact .keeps _ fun _ => rfl

theorem Job.Turn.relays {m m' : Memo α} {job job' : Job τ ε α} {c : Nat}
    (h : Job.Turn m job m' job') (hc : job.Within evaluate P c) (hr : job.Relays) :
    job'.Relays := by
  cases h with
  | ask =>
    cases hc with
    | running =>
      -- a computation that asks has not ended with a failure
      rcases hr with hr | ⟨e, he⟩
      · exact Script.relays_ask.1 hr
      · cases he
  | hit tag a =>
    cases hc with
    | hitting => exact Job.relays_answered tag hr a
  | miss tag a =>
    cases hc with
    | missing => exact Job.relays_answered tag hr a
  | settle | seen | unseen | shared | wait | begin => exact hr

/-! ## Workers -/

omit [Cause ε] [Scalar α] in
/-- The failures among results, newest first as these are. -/
def failures (results : List (τ × Except (Failure ε α) α)) : List (Failure ε α) :=
  results.flatMap fun x => Failure.of x.2

omit [Cause ε] [Scalar α] in
theorem failures_append (new results : List (τ × Except (Failure ε α) α)) :
    failures (new ++ results) = failures new ++ failures results := List.flatMap_append

/-- The failure that a worker's job is going to end with. -/
def Worker.held (w : Worker τ ε α) : List (Failure ε α) := (w.job.map Job.held).getD []

/-- A worker whose computations pass failures on. -/
structure Worker.Relays (w : Worker τ ε α) : Prop where
  job : ∀ job, w.job = some job → job.Relays
  queue : ∀ x ∈ w.queue, x.2.Relays

theorem Worker.Turn.passes {m m' : Memo α} {w w' : Worker τ ε α}
    {new : List (τ × Except (Failure ε α) α)} (h : Worker.Turn m w m' w' new)
    (hm : m.Faithful evaluate) (hw : w.Sound evaluate P k script) (hr : w.Relays) :
    m.Passes evaluate m' w.held (failures new ++ w'.held) := by
  cases h with
  | take tag s queue =>
    have hs : s.Relays := hr.queue (tag, s) List.mem_cons_self
    have hheld : (⟨some ⟨tag, .running s, []⟩, queue⟩ : Worker τ ε α).held = [] :=
      hs.held_running tag
    rw [hheld]
    exact .keeps [] fun _ => rfl
  | advance queue hjob =>
    obtain ⟨c, hc⟩ := hw.within _ rfl
    exact hjob.passes hm hc (hr.job _ rfl)
  | finish tag r queue =>
    have hnew : failures [(tag, r)] ++ (⟨none, queue⟩ : Worker τ ε α).held = Failure.of r := by
      simp [failures, Worker.held]
    rw [hnew]
    exact .keeps _ fun _ => rfl

theorem Worker.Turn.relays {m m' : Memo α} {w w' : Worker τ ε α}
    {new : List (τ × Except (Failure ε α) α)} (h : Worker.Turn m w m' w' new)
    (hw : w.Sound evaluate P k script) (hr : w.Relays) : w'.Relays := by
  cases h with
  | take tag s queue =>
    refine ⟨?_, fun x hx => hr.queue x (List.mem_cons_of_mem _ hx)⟩
    rintro job ⟨⟩
    exact .inl (hr.queue (tag, s) List.mem_cons_self)
  | advance queue hjob =>
    obtain ⟨c, hc⟩ := hw.within _ rfl
    refine ⟨?_, hr.queue⟩
    rintro job ⟨⟩
    exact hjob.relays hc (hr.job _ rfl)
  | finish tag r queue => exact ⟨by simp, hr.queue⟩

/-! ## A memo and the failures that are held or recorded -/

/-- The failures in hand account for those of the memo, and the memo for those in hand. -/
structure Memo.Accounts (evaluate : BitString → Except (Failure ε α) α) (m : Memo α)
    (hand : List (Failure ε α)) : Prop where
  /-- A failure that the memo knows of is in hand, as it was given. -/
  held : ∀ key e, evaluate key = .error e → (m.outcome? key).isSome → e ∈ hand
  /-- A failure in hand was given, or tells of one that the memo knows of. -/
  origin : ∀ e ∈ hand, (∃ key, evaluate key = .error e) ∨
    ∃ key e', evaluate key = .error e' ∧ (m.outcome? key).isSome ∧
      e = .objective key (.replayed e'.message)

namespace Memo

variable {m m' : Memo α} {held held' others : List (Failure ε α)}

theorem Accounts.congr {hand hand' : List (Failure ε α)} (h : m.Accounts evaluate hand)
    (hmem : ∀ e, e ∈ hand ↔ e ∈ hand') : m.Accounts evaluate hand' where
  held key e he hk := (hmem e).1 (h.held key e he hk)
  origin e he := h.origin e ((hmem e).2 he)

theorem mem_of_replay {key : BitString} {e : Failure ε α}
    (he : e ∈ Failure.of (replay key (outcomeOf (evaluate key)))) :
    ∃ e', evaluate key = .error e' ∧ e = .objective key (.replayed e'.message) := by
  cases hkey : evaluate key with
  | ok v =>
    rw [hkey] at he
    cases he
  | error e' =>
    rw [hkey] at he
    exact ⟨e', rfl, List.mem_singleton.1 he⟩

theorem Accounts.passes (hm : m.Accounts evaluate (held ++ others))
    (h : m.Passes evaluate m' held held') : m'.Accounts evaluate (held' ++ others) := by
  cases h with
  | keeps held h =>
    constructor
    · intro key e he hk
      rw [h] at hk
      exact hm.held key e he hk
    · intro e he
      simp only [h]
      exact hm.origin e he
  | gives key h =>
    -- whatever the memo knew of, it knows of still
    have hmono : ∀ k, (m.outcome? k).isSome → (m'.outcome? k).isSome := by
      intro k hk
      rw [h k]
      split
      · rfl
      · exact hk
    constructor
    · intro k e he hk
      rw [h k] at hk
      split at hk
      · rename_i hkey
        exact List.mem_append_left _ (Failure.mem_of.2 (hkey ▸ he))
      · exact List.mem_append_right _ (hm.held k e he hk)
    · intro e he
      rcases List.mem_append.1 he with he | he
      · exact .inl ⟨key, Failure.mem_of.1 he⟩
      · refine (hm.origin e he).imp_right ?_
        rintro ⟨k, e', hk, hsome, rfl⟩
        exact ⟨k, e', hk, hmono k hsome, rfl⟩
  | tells key hsome hm' =>
    subst hm'
    constructor
    · exact fun k e he hk => List.mem_append_right _ (hm.held k e he hk)
    · intro e he
      rcases List.mem_append.1 he with he | he
      · obtain ⟨e', he', rfl⟩ := mem_of_replay he
        exact .inr ⟨key, e', he', hsome, rfl⟩
      · exact hm.origin e he

/-- Where the failures in hand were given and nobody else has any, what a step makes of them was
given too. -/
theorem Accounts.given (hm : m.Accounts evaluate held)
    (hheld : ∀ e ∈ held, ∃ key, evaluate key = .error e) (h : m.Passes evaluate m' held held') :
    ∀ e ∈ held', ∃ key, evaluate key = .error e := by
  cases h with
  | keeps => exact hheld
  | gives key => exact fun e he => ⟨key, Failure.mem_of.1 he⟩
  | tells key hsome =>
    -- the failure that is told of would be in hand
    intro e he
    obtain ⟨e', he', -⟩ := mem_of_replay he
    cases hm.held key e' he' hsome

end Memo

/-! ## Pools -/

namespace Pool

omit [Cause ε] [Scalar α] in
/-- The failures that are recorded or held by workers. -/
def inHand (p : Pool τ ε α) : List (Failure ε α) :=
  failures p.results ++ p.workers.flatMap Worker.held

omit [Cause ε] [Scalar α] in
theorem mem_inHand_split {m : Memo α} {before after : List (Worker τ ε α)} {w : Worker τ ε α}
    {results : List (τ × Except (Failure ε α) α)} (e : Failure ε α) :
    e ∈ (⟨m, before ++ w :: after, results⟩ : Pool τ ε α).inHand ↔
      e ∈ w.held ++ (failures results ++ (before ++ after).flatMap Worker.held) := by
  simp only [inHand, List.flatMap_append, List.flatMap_cons, List.mem_append]
  tauto

/-- The workers' computations pass failures on, and the failures in hand are those of the memo. -/
structure Kept (evaluate : BitString → Except (Failure ε α) α) (p : Pool τ ε α) : Prop where
  relays : ∀ w ∈ p.workers, w.Relays
  accounts : p.memo.Accounts evaluate p.inHand

theorem Kept.turn {p p' : Pool τ ε α} (h : Turn p p') (hs : p.Sound evaluate P k script)
    (hp : p.Kept evaluate) : p'.Kept evaluate := by
  cases h with
  | @step m m' before after w w' new results hw =>
    have hsound := hs.workers w (by simp)
    have hrelays := hp.relays w (by simp)
    constructor
    · intro v hv
      have hothers : v ∈ before ++ w :: after ∨ v = w' := by
        simp only [List.mem_append, List.mem_cons] at hv ⊢
        tauto
      rcases hothers with hv | rfl
      · exact hp.relays v hv
      · exact hw.relays hsound hrelays
    · have hbefore := hp.accounts.congr mem_inHand_split
      refine (hbefore.passes (hw.passes hs.faithful hsound hrelays)).congr fun e => ?_
      rw [mem_inHand_split, failures_append]
      simp only [List.mem_append]
      tauto
  | quit m before after job queue results hf =>
    have hw := hp.relays ⟨job, queue⟩ (by simp)
    constructor
    · intro v hv
      have hothers : v ∈ before ++ ⟨job, queue⟩ :: after ∨ v = ⟨job, []⟩ := by
        simp only [List.mem_append, List.mem_cons] at hv ⊢
        tauto
      rcases hothers with hv | rfl
      · exact hp.relays v hv
      · exact ⟨hw.job, by simp⟩
    · exact (hp.accounts.congr mem_inHand_split).congr
        fun e => (mem_inHand_split (w := ⟨job, []⟩) e).symm

/-- In every interleaving the failures in hand are those of the memo. -/
theorem Kept.run {p : Pool τ ε α} (hs : p.Sound evaluate P k script) (hp : p.Kept evaluate)
    (moves : List Move) : (p.run moves).Kept evaluate := by
  have h : (p.run moves).Sound evaluate P k script ∧ (p.run moves).Kept evaluate :=
    run_induction (motive := fun p => p.Sound evaluate P k script ∧ p.Kept evaluate)
      (fun p p' ht h => ⟨h.1.turn p p' ht, h.2.turn ht h.1⟩) ⟨hs, hp⟩ moves
  exact h.2

omit [Cause ε] [Scalar α] in
theorem inHand_ofQueues (m : Memo α) (queues : List (List (τ × Script ε α))) :
    (ofQueues m queues : Pool τ ε α).inHand = [] := by
  refine List.append_eq_nil_iff.2 ⟨rfl, List.flatMap_eq_nil_iff.2 fun w hw => ?_⟩
  rw [Worker.held, job_ofQueues m queues w hw]
  rfl

/-- A pool whose workers have not begun and whose memo knows of no failure. -/
theorem kept_ofQueues {m : Memo α} (hm : m.Unfailing evaluate)
    {queues : List (List (τ × Script ε α))}
    (hqueues : ∀ queue ∈ queues, ∀ x ∈ queue, x.2.Relays) :
    (ofQueues m queues : Pool τ ε α).Kept evaluate := by
  constructor
  · intro w hw
    obtain ⟨queue, hqueue, rfl⟩ := List.mem_map.1 hw
    exact ⟨by simp, hqueues queue hqueue⟩
  · rw [inHand_ofQueues]
    constructor
    · intro key e he hk
      obtain ⟨v, hv⟩ := hm key hk
      cases he.symm.trans hv
    · simp

/-! ## Workers that do not work at the same time -/

omit [Cause ε] [Scalar α] in
/-- No two workers have jobs. -/
def Alone (p : Pool τ ε α) : Prop := p.workers.Pairwise fun v w => v.job = none ∨ w.job = none

omit [Cause ε] [Scalar α] in
theorem Alone.held_others {m : Memo α} {before after : List (Worker τ ε α)} {w : Worker τ ε α}
    {results : List (τ × Except (Failure ε α) α)}
    (h : (⟨m, before ++ w :: after, results⟩ : Pool τ ε α).Alone) (hw : w.job ≠ none) :
    (before ++ after).flatMap Worker.held = [] := by
  obtain ⟨-, hafter, hbefore⟩ := List.pairwise_append.1 h
  have hnone : ∀ v ∈ before ++ after, v.job = none := by
    intro v hv
    rcases List.mem_append.1 hv with hv | hv
    · exact (hbefore v hv w List.mem_cons_self).resolve_right hw
    · exact ((List.pairwise_cons.1 hafter).1 v hv).resolve_left hw
  refine List.flatMap_eq_nil_iff.2 fun v hv => ?_
  rw [Worker.held, hnone v hv]
  rfl

/-- One worker never works at the same time as another. -/
theorem alone_run {p : Pool τ ε α} (hp : p.workers.length ≤ 1) (moves : List Move) :
    (p.run moves).Alone := by
  have hlength : (p.run moves).workers.length ≤ 1 := by
    refine run_induction (motive := fun p => p.workers.length ≤ 1) ?_ hp moves
    intro p p' ht h
    cases ht <;> simpa using h
  match hworkers : (p.run moves).workers, hlength with
  | [], _ =>
    rw [Alone, hworkers]
    exact .nil
  | [w], _ =>
    rw [Alone, hworkers]
    exact List.pairwise_singleton _ w

/-- The failure that was recorded first was given by an evaluation, and so was whatever is held as
long as none is recorded. -/
structure FirstGiven (evaluate : BitString → Except (Failure ε α) α) (p : Pool τ ε α) : Prop where
  first : ∀ e, (failures p.results).getLast? = some e → ∃ key, evaluate key = .error e
  held : failures p.results = [] → ∀ e ∈ p.inHand, ∃ key, evaluate key = .error e

/-- While no failure is recorded, a step of the one worker with a job leaves given failures alone
in hand. -/
theorem FirstGiven.step {m m' : Memo α} {before after : List (Worker τ ε α)}
    {w w' : Worker τ ε α} {new results : List (τ × Except (Failure ε α) α)}
    (hw : Worker.Turn m w m' w' new)
    (halone : (⟨m, before ++ w :: after, results⟩ : Pool τ ε α).Alone)
    (hs : (⟨m, before ++ w :: after, results⟩ : Pool τ ε α).Sound evaluate P k script)
    (hk : (⟨m, before ++ w :: after, results⟩ : Pool τ ε α).Kept evaluate)
    (hgiven : ∀ e ∈ (⟨m, before ++ w :: after, results⟩ : Pool τ ε α).inHand,
      ∃ key, evaluate key = .error e)
    (hnone : failures results = []) :
    ∀ e ∈ (⟨m', before ++ w' :: after, new ++ results⟩ : Pool τ ε α).inHand,
      ∃ key, evaluate key = .error e := by
  have hrelays := hk.relays w (by simp)
  have hpasses := hw.passes hs.faithful (hs.workers w (by simp)) hrelays
  have haccounts := hk.accounts.congr mem_inHand_split
  simp only [mem_inHand_split, failures_append, hnone, List.append_nil, List.nil_append]
    at hgiven haccounts ⊢
  by_cases hjob : w.job = none
  · -- a worker without a job takes one, which holds nothing yet
    cases hw with
    | take tag s queue =>
      have hs' : s.Relays := hrelays.queue (tag, s) List.mem_cons_self
      have hheld : (⟨some ⟨tag, .running s, []⟩, queue⟩ : Worker τ ε α).held = [] :=
        hs'.held_running tag
      rw [hheld]
      exact hgiven
    | advance | finish => cases hjob
  · have hothers := halone.held_others hjob
    rw [hothers, List.append_nil] at hgiven haccounts
    intro e he
    rw [hothers, List.append_nil] at he
    exact haccounts.given hgiven hpasses e (by simpa [or_comm] using he)

theorem FirstGiven.turn {p p' : Pool τ ε α} (h : Turn p p') (halone : p.Alone)
    (hs : p.Sound evaluate P k script) (hk : p.Kept evaluate) (hp : p.FirstGiven evaluate) :
    p'.FirstGiven evaluate := by
  cases h with
  | @step m m' before after w w' new results hw =>
    by_cases hnone : failures results = []
    · have hgiven := FirstGiven.step hw halone hs hk (hp.held hnone) hnone
      refine ⟨fun e he => hgiven e ?_, fun _ => hgiven⟩
      exact List.mem_append_left _ (List.mem_of_getLast? he)
    · -- the first failure stays the first
      constructor
      · intro e he
        rw [failures_append, List.getLast?_append_of_ne_nil _ hnone] at he
        exact hp.first e he
      · intro hnil
        rw [failures_append] at hnil
        exact absurd (List.append_eq_nil_iff.1 hnil).2 hnone
  | quit m before after job queue results hf =>
    refine ⟨hp.first, fun hnil e he => hp.held hnil e ?_⟩
    exact (mem_inHand_split e).2 ((mem_inHand_split (w := ⟨job, []⟩) e).1 he)

/-- While no two workers have jobs, the failure that is recorded first was given. -/
theorem FirstGiven.run {p : Pool τ ε α} (hs : p.Sound evaluate P k script) (hk : p.Kept evaluate)
    (hp : p.FirstGiven evaluate) {moves : List Move}
    (halone : ∀ begun, begun <+: moves → (p.run begun).Alone) :
    (p.run moves).FirstGiven evaluate := by
  induction moves generalizing p with
  | nil => exact hp
  | cons mv moves ih =>
    -- the moves made so far begin with none, and with this one when it has been made
    have hnow : p.Alone := halone [] List.nil_prefix
    have hlater : ∀ begun, begun <+: moves → ((p.move mv).run begun).Alone := fun begun hbegun =>
      halone (mv :: begun) (List.cons_prefix_cons.2 ⟨rfl, hbegun⟩)
    rw [run_cons]
    rcases p.move_turn mv with hmove | hmove
    · rw [hmove] at hlater ⊢
      exact ih hs hk hp hlater
    · exact ih (hs.turn _ _ hmove) (hk.turn hmove hs) (hp.turn hmove hnow hs hk) hlater

omit [Cause ε] [Scalar α] in
theorem firstGiven_ofQueues (m : Memo α) (queues : List (List (τ × Script ε α))) :
    (ofQueues m queues : Pool τ ε α).FirstGiven evaluate := by
  refine ⟨nofun, fun _ e he => ?_⟩
  rw [inHand_ofQueues] at he
  cases he

omit [Cause ε] [Scalar α] in
/-- The failure that a pool reports is the one that was recorded first. -/
theorem getLast?_of_collect {p : Pool τ ε α} {e : Failure ε α} (h : p.collect = .error e) :
    (failures p.results).getLast? = some e := by
  have hhead (results : List (τ × Except (Failure ε α) α))
      (hr : (results.mapM fun r => r.2.map fun v => (r.1, v)) = .error e) :
      (failures results).head? = some e := by
    induction results with
    | nil => cases hr
    | cons x results ih =>
      obtain ⟨tag, r⟩ := x
      rw [List.mapM_cons] at hr
      cases r with
      | error e' =>
        obtain rfl : e' = e := Except.error.inj hr
        rfl
      | ok v =>
        cases hrest : results.mapM fun r => r.2.map fun v => (r.1, v) with
        | ok cs =>
          rw [hrest] at hr
          cases hr
        | error e' =>
          rw [hrest] at hr
          obtain rfl : e' = e := Except.error.inj hr
          exact ih hrest
  have hreverse : (failures p.results.reverse) = (failures p.results).reverse := by
    rw [failures, List.flatMap_reverse]
    refine congrArg List.reverse (List.flatMap_congr fun x _ => ?_)
    obtain ⟨tag, r⟩ := x
    cases r <;> rfl
  rw [← List.head?_reverse, ← hreverse]
  exact hhead _ h

end Pool

end QuboProbe
