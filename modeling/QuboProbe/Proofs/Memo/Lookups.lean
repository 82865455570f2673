/-
  QuboProbe.Proofs.Memo.Lookups

  Computations that look up keys one after another, every key with the same
  evaluation (`Script.LooksUp`), and what is true of them whoever else uses the
  memo: the answers that a look-up can get (`Script.Answers`), the results that
  a computation can come to (`Script.Yields`), and the keys that it asks for
  when no evaluation fails (`Script.keys`).

  Run alone on a memo, such a computation comes to one of those results and
  leaves the memo settled: `Script.LooksUp.run_yields`, `Script.LooksUp.run_settled`.
-/
import QuboProbe.Memo.Script

namespace QuboProbe

variable {ε α : Type}

namespace Script

/-! ## Computations that only look up -/

/-- A computation that looks up at most `k` keys one after another, all of them with the property
`P` and each with the evaluation `evaluate`. -/
inductive LooksUp (evaluate : BitString → Except (Failure ε α) α) (P : BitString → Prop) :
    Nat → Script ε α → Prop where
  | done (k : Nat) (r : Except (Failure ε α) α) : LooksUp evaluate P k (.done r)
  | ask {k : Nat} {key : BitString} {evaluation : Unit → Script ε α}
      {next : Except (Failure ε α) α → Script ε α} (hP : P key)
      (heval : evaluation () = .done (evaluate key)) (hnext : ∀ r, LooksUp evaluate P k (next r)) :
      LooksUp evaluate P (k + 1) (.ask key evaluation next)

variable {evaluate : BitString → Except (Failure ε α) α} {P : BitString → Prop}

theorem LooksUp.mono {a b : Nat} {s : Script ε α} (h : s.LooksUp evaluate P a) (hab : a ≤ b) :
    s.LooksUp evaluate P b := by
  induction h generalizing b with
  | done k r => exact .done b r
  | @ask k key evaluation next hP heval _ ih =>
    obtain ⟨c, rfl⟩ : ∃ c, b = c + 1 := ⟨b - 1, by omega⟩
    exact .ask hP heval fun r => ih r (by omega)

theorem LooksUp.lookup {key : BitString} (hP : P key) :
    (Script.lookup evaluate key).LooksUp evaluate P 1 :=
  .ask hP rfl fun r => .done 0 r

theorem LooksUp.andThen {a b : Nat} {s : Script ε α} {f : α → Script ε α}
    (hs : s.LooksUp evaluate P a) (hf : ∀ v, (f v).LooksUp evaluate P b) :
    (s.andThen f).LooksUp evaluate P (a + b) := by
  induction hs with
  | done k r =>
    cases r with
    | ok v => exact (hf v).mono (by omega)
    | error e => exact .done _ _
  | @ask k key evaluation next hP heval _ ih =>
    have h : ∀ r, ((next r).andThen f).LooksUp evaluate P (k + b) := ih
    have : k + 1 + b = k + b + 1 := by omega
    rw [this]
    exact .ask hP heval h

/-! ## Answers and results -/

/-- The answers that a look-up of a key can get: the result of its evaluation, or what a memo
tells of it later. -/
inductive Answers [Cause ε] [Scalar α] (evaluate : BitString → Except (Failure ε α) α)
    (key : BitString) : Except (Failure ε α) α → Prop where
  | own : Answers evaluate key (evaluate key)
  | again : Answers evaluate key (Memo.replay key (Memo.outcomeOf (evaluate key)))

/-- The results that a computation can come to, whatever its look-ups find. -/
inductive Yields [Cause ε] [Scalar α] (evaluate : BitString → Except (Failure ε α) α) :
    Script ε α → Except (Failure ε α) α → Prop where
  | done (r : Except (Failure ε α) α) : Yields evaluate (.done r) r
  | ask {key : BitString} {evaluation : Unit → Script ε α}
      {next : Except (Failure ε α) α → Script ε α} {a r : Except (Failure ε α) α}
      (ha : Answers evaluate key a) (hr : Yields evaluate (next a) r) :
      Yields evaluate (.ask key evaluation next) r

variable [Cause ε] [Scalar α]

theorem answers_iff {key : BitString} {a : Except (Failure ε α) α} :
    Answers evaluate key a ↔
      a = evaluate key ∨ a = Memo.replay key (Memo.outcomeOf (evaluate key)) := by
  constructor
  · rintro (_ | _)
    · exact .inl rfl
    · exact .inr rfl
  · rintro (rfl | rfl)
    · exact .own
    · exact .again

theorem answers_iff_of_ok {key : BitString} {v : α} (h : evaluate key = .ok v)
    (a : Except (Failure ε α) α) : Answers evaluate key a ↔ a = .ok v := by
  rw [answers_iff, h]
  exact or_self_iff

/-- A value is an answer only if the evaluation gives it. -/
theorem Answers.eval_eq {key : BitString} {v : α} (h : Answers evaluate key (.ok v)) :
    evaluate key = .ok v := by
  rcases answers_iff.1 h with h | h
  · exact h.symm
  · cases he : evaluate key with
    | ok w =>
      rw [he] at h
      exact h.symm
    | error e =>
      rw [he] at h
      cases h

/-- A failure is an answer only of a key whose evaluation fails: the same failure, or one that
tells its message. -/
theorem Answers.eval_error {key : BitString} {e : Failure ε α}
    (h : Answers evaluate key (.error e)) :
    ∃ e', evaluate key = .error e' ∧ (e = e' ∨ e = .objective key (.replayed e'.message)) := by
  rcases answers_iff.1 h with h | h
  · exact ⟨e, h.symm, .inl rfl⟩
  · cases he : evaluate key with
    | ok w =>
      rw [he] at h
      cases h
    | error e' =>
      rw [he] at h
      cases h
      exact ⟨e', rfl, .inr rfl⟩

@[simp] theorem yields_done (r r' : Except (Failure ε α) α) :
    Yields evaluate (.done r) r' ↔ r' = r := by
  constructor
  · rintro ⟨⟩
    rfl
  · rintro rfl
    exact .done r'

theorem yields_ask {key : BitString} {evaluation : Unit → Script ε α}
    {next : Except (Failure ε α) α → Script ε α} {r : Except (Failure ε α) α} :
    Yields evaluate (.ask key evaluation next) r ↔
      ∃ a, Answers evaluate key a ∧ Yields evaluate (next a) r := by
  constructor
  · intro h
    cases h with
    | ask ha hr => exact ⟨_, ha, hr⟩
  · rintro ⟨a, ha, hr⟩
    exact .ask ha hr

@[simp] theorem yields_lookup {key : BitString} {r : Except (Failure ε α) α} :
    Yields evaluate (Script.lookup evaluate key) r ↔ Answers evaluate key r := by
  simp [Script.lookup, yields_ask]

/-- A sequence goes on with each value of its first part, and ends with each failure of it. -/
theorem yields_andThen {s : Script ε α} {f : α → Script ε α} {r : Except (Failure ε α) α} :
    Yields evaluate (s.andThen f) r ↔
      (∃ v, Yields evaluate s (.ok v) ∧ Yields evaluate (f v) r) ∨
        ∃ e, Yields evaluate s (.error e) ∧ r = .error e := by
  induction s with
  | done r' =>
    cases r' with
    | ok v => simp [Script.andThen]
    | error e => simp [Script.andThen]
  | ask key evaluation next _ ih =>
    rw [Script.andThen, yields_ask]
    simp only [ih, yields_ask]
    constructor
    · rintro ⟨a, ha, ⟨v, hv, hr⟩ | ⟨e, he, rfl⟩⟩
      · exact .inl ⟨v, ⟨a, ha, hv⟩, hr⟩
      · exact .inr ⟨e, ⟨a, ha, he⟩, rfl⟩
    · rintro (⟨v, ⟨a, ha, hv⟩, hr⟩ | ⟨e, ⟨a, ha, he⟩, rfl⟩)
      · exact ⟨a, ha, .inl ⟨v, hv, hr⟩⟩
      · exact ⟨a, ha, .inr ⟨e, he, rfl⟩⟩

/-! ## Keys asked for -/

/-- The keys that a computation asks for when each answer is that of the evaluation. -/
def keys (evaluate : BitString → Except (Failure ε α) α) : Script ε α → List BitString
  | done _ => []
  | ask key _ next => key :: (next (evaluate key)).keys evaluate

omit [Cause ε] [Scalar α] in
theorem keys_lookup_andThen {key : BitString} {v : α} (h : evaluate key = .ok v)
    (f : α → Script ε α) :
    ((Script.lookup evaluate key).andThen f).keys evaluate = key :: (f v).keys evaluate := by
  rw [Script.lookup, Script.andThen, keys, h]
  rfl

end Script

/-! ## One look-up at a time -/

namespace Memo

variable [Cause ε] [Scalar α]

/-- One whole look-up: its answer and the memo afterwards. -/
def look (m : Memo α) (evaluate : BitString → Except (Failure ε α) α) (key : BitString) :
    Except (Failure ε α) α × Memo α :=
  match m.outcome? key with
  | some outcome => (replay key outcome, m.hit)
  | none => (evaluate key, ((m.start key).settle key (evaluate key)).miss)

/-- A memo that nobody is at work on, and that holds outcomes of `evaluate` alone. -/
structure Settled (evaluate : BitString → Except (Failure ε α) α) (m : Memo α) : Prop where
  not_busy : ∀ k, m.cell? k ≠ some .busy
  outcome_eq : ∀ {k o}, m.outcome? k = some o → o = outcomeOf (evaluate k)
  mem_started : ∀ {k}, k ∈ m.started ↔ (m.outcome? k).isSome
  nodup : m.started.Nodup
  misses : m.tally.misses = m.started.length

variable {evaluate : BitString → Except (Failure ε α) α} {m : Memo α}

omit [Scalar α] in
theorem outcome?_empty (k : BitString) : (empty : Memo α).outcome? k = none := by
  simp [empty, outcome?, cell?]

theorem Settled.empty : Settled evaluate (empty : Memo α) where
  not_busy k := by simp [Memo.empty, cell?]
  outcome_eq h := by simp [outcome?_empty] at h
  mem_started {k} := by
    rw [outcome?_empty]
    simp [Memo.empty]
  nodup := List.nodup_nil
  misses := rfl

theorem answers_look (hm : Settled evaluate m) (key : BitString) :
    Script.Answers evaluate key (m.look evaluate key).1 := by
  unfold look
  split
  · rename_i o ho
    rw [hm.outcome_eq ho]
    exact .again
  · exact .own

/-- After a look-up the evaluation of the key has been started, now or before. -/
theorem started_look (hm : Settled evaluate m) (key : BitString) :
    (m.look evaluate key).2.started =
      if key ∈ m.started then m.started else key :: m.started := by
  unfold look
  split
  · rename_i o ho
    rw [if_pos (hm.mem_started.2 (by simp [ho]))]
    rfl
  · rename_i ho
    rw [if_neg (by simp [hm.mem_started, ho])]
    rfl

theorem lookups_look (m : Memo α) (evaluate : BitString → Except (Failure ε α) α)
    (key : BitString) : (m.look evaluate key).2.tally.lookups = m.tally.lookups + 1 := by
  unfold look
  split <;> simp only [hit, miss, settle, start, setCell, Tally.lookups] <;> omega

theorem outcome?_look (hm : Settled evaluate m) (key k : BitString) :
    (m.look evaluate key).2.outcome? k =
      if k = key then some (outcomeOf (evaluate key)) else m.outcome? k := by
  unfold look
  split
  · rename_i o ho
    rw [outcome?_hit]
    split
    · rename_i hk
      rw [hk, ho, hm.outcome_eq ho]
    · rfl
  · rename_i ho
    rw [outcome?_miss, outcome?_settle, outcome?_start m key k ho]

theorem Settled.look (hm : Settled evaluate m) (key : BitString) :
    Settled evaluate (m.look evaluate key).2 where
  not_busy k := by
    unfold Memo.look
    split
    · exact hm.not_busy k
    · -- the evaluation begins and is over within the one look-up
      change ((m.start key).settle key (evaluate key)).cell? k ≠ some .busy
      rw [settle, cell?_setCell]
      split
      · simp
      · rename_i hk
        change (m.setCell key .busy).cell? k ≠ some .busy
        rw [cell?_setCell, if_neg hk]
        exact hm.not_busy k
  outcome_eq {k o} h := by
    rw [outcome?_look hm] at h
    split at h
    · rename_i hk
      rw [hk]
      exact (Option.some.inj h).symm
    · exact hm.outcome_eq h
  mem_started {k} := by
    rw [started_look hm, outcome?_look hm]
    by_cases hk : k = key
    · by_cases hs : key ∈ m.started <;> simp [hk, hs]
    · by_cases hs : key ∈ m.started <;> simp [hk, hs, hm.mem_started]
  nodup := by
    rw [started_look hm]
    split
    · exact hm.nodup
    · rename_i hs
      exact List.nodup_cons.2 ⟨hs, hm.nodup⟩
  misses := by
    have hmisses := hm.misses
    have hstarted := hm.mem_started (k := key)
    unfold Memo.look
    split
    · exact hmisses
    · simp only [miss, settle, start, setCell, List.length_cons]
      omega

theorem look_new (hm : m.Settled evaluate) {x : BitString} (hx : x ∉ m.started) :
    (m.look evaluate x).1 = evaluate x ∧ (m.look evaluate x).2.started = x :: m.started := by
  rw [started_look hm, if_neg hx, look]
  cases ho : m.outcome? x with
  | none => exact ⟨rfl, rfl⟩
  | some o => exact absurd (hm.mem_started.2 (by simp [ho])) hx

/-- Where no evaluation failed, the memo has a value of each key that was evaluated. -/
theorem get?_isSome (hm : m.Settled evaluate) {x : BitString}
    (hok : ∀ y ∈ m.started, ∃ v, evaluate y = .ok v) : (m.get? x).isSome ↔ x ∈ m.started := by
  rw [hm.mem_started, get?]
  cases ho : m.outcome? x with
  | none => simp
  | some o =>
    obtain ⟨v, hv⟩ := hok x (hm.mem_started.2 (by simp [ho]))
    rw [hm.outcome_eq ho, hv]
    rfl

end Memo

/-! ## Whole computations, alone on a memo -/

namespace Script

variable [Cause ε] [Scalar α] {evaluate : BitString → Except (Failure ε α) α}
  {P : BitString → Prop} {m : Memo α} {s : Script ε α} {k : Nat}

theorem run_ask {key : BitString} {evaluation : Unit → Script ε α}
    (heval : evaluation () = .done (evaluate key)) (next : Except (Failure ε α) α → Script ε α)
    (m : Memo α) :
    (ask key evaluation next).run m =
      (next (m.look evaluate key).1).run (m.look evaluate key).2 := by
  rw [run, Memo.look]
  cases ho : m.outcome? key with
  | some o => rfl
  | none => simp only [heval, run]

theorem run_lookup (key : BitString) (m : Memo α) :
    (lookup evaluate key).run m = m.look evaluate key := by
  rw [lookup, run_ask rfl, run]

theorem LooksUp.run_yields (hs : s.LooksUp evaluate P k) (hm : m.Settled evaluate) :
    s.Yields evaluate (s.run m).1 := by
  induction hs generalizing m with
  | done => exact .done _
  | @ask _ key _ _ _ heval _ ih =>
    rw [run_ask heval]
    exact .ask (Memo.answers_look hm key) (ih _ (hm.look key))

theorem LooksUp.run_settled (hs : s.LooksUp evaluate P k) (hm : m.Settled evaluate) :
    (s.run m).2.Settled evaluate := by
  induction hs generalizing m with
  | done => exact hm
  | @ask _ key _ _ _ heval _ ih =>
    rw [run_ask heval]
    exact ih _ (hm.look key)

/-- Nothing is forgotten, and only keys with the property are evaluated. -/
theorem LooksUp.run_started (hs : s.LooksUp evaluate P k) (hm : m.Settled evaluate) :
    m.started ⊆ (s.run m).2.started ∧
      ∀ key ∈ (s.run m).2.started, key ∈ m.started ∨ P key := by
  induction hs generalizing m with
  | done => exact ⟨List.Subset.refl _, fun _ => .inl⟩
  | @ask _ key _ _ hP heval _ ih =>
    rw [run_ask heval]
    obtain ⟨hsub, hnew⟩ := ih (m.look evaluate key).1 (hm.look key)
    have hlook := Memo.started_look hm key
    refine ⟨fun x hx => hsub ?_, fun x hx => ?_⟩
    · rw [hlook]
      split
      · exact hx
      · exact List.mem_cons_of_mem _ hx
    · rcases hnew x hx with h | h
      · rw [hlook] at h
        split at h
        · exact .inl h
        · rcases List.mem_cons.1 h with rfl | h
          · exact .inr hP
          · exact .inl h
      · exact .inr h

/-- If no evaluation fails, a computation looks up its keys, each once. -/
theorem LooksUp.run_keys (hs : s.LooksUp evaluate P k) (hm : m.Settled evaluate)
    (hok : ∀ key, P key → ∃ v, evaluate key = .ok v) :
    s.keys evaluate ⊆ (s.run m).2.started ∧
      (s.run m).2.tally.lookups = m.tally.lookups + (s.keys evaluate).length := by
  induction hs generalizing m with
  | done => exact ⟨List.nil_subset _, rfl⟩
  | @ask j key _ next hP heval hnext ih =>
    rw [run_ask heval]
    obtain ⟨v, hv⟩ := hok key hP
    have hanswer : (m.look evaluate key).1 = evaluate key :=
      ((answers_iff_of_ok hv _).1 (Memo.answers_look hm key)).trans hv.symm
    rw [hanswer]
    obtain ⟨hkeys, hlookups⟩ := ih (evaluate key) (hm.look key)
    have hstarted : key ∈ (m.look evaluate key).2.started := by
      rw [Memo.started_look hm]
      split
      · assumption
      · exact List.mem_cons_self
    refine ⟨List.cons_subset.2 ⟨?_, hkeys⟩, ?_⟩
    · exact ((hnext _).run_started (hm.look key)).1 hstarted
    · rw [hlookups, Memo.lookups_look, keys, List.length_cons]
      omega

end Script

end QuboProbe
