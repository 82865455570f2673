/-
  QuboProbe.Proofs.Memo.Trace

  In which order a memo evaluates what it is asked for.  New keys are evaluated
  in turn up to the first failure (`Memo.Evaluates`), and one list of keys after
  another is evaluated like all of them together (`Memo.Evaluates.append`).  A
  computation that asks for known keys and then for a new one evaluates that
  one alone (`Script.Follows.evaluates`).
-/
import QuboProbe.Proofs.Memo.Failures

namespace QuboProbe

/-- The first item without a property is in one place. -/
theorem eq_of_first {δ : Type} {P : δ → Prop} {before before' after after' : List δ} {x x' : δ}
    (h : before ++ x :: after = before' ++ x' :: after') (hbefore : ∀ y ∈ before, P y)
    (hx : ¬ P x) (hbefore' : ∀ y ∈ before', P y) (hx' : ¬ P x') : before = before' ∧ x = x' := by
  induction before generalizing before' with
  | nil =>
    cases before' with
    | nil => exact ⟨rfl, (List.cons.inj h).1⟩
    | cons y before' =>
      have hy : x = y := (List.cons.inj h).1
      exact absurd (hbefore' y List.mem_cons_self) (hy ▸ hx)
  | cons y before ih =>
    cases before' with
    | nil =>
      have hy : y = x' := (List.cons.inj h).1
      exact absurd (hbefore y List.mem_cons_self) (hy ▸ hx')
    | cons y' before' =>
      obtain ⟨rfl, hrest⟩ := List.cons.inj h
      obtain ⟨rfl, hx⟩ := ih hrest (fun z hz => hbefore z (List.mem_cons_of_mem y hz))
        fun z hz => hbefore' z (List.mem_cons_of_mem y hz)
      exact ⟨rfl, hx⟩

variable {ε α β γ : Type} [Cause ε] [Scalar α] {evaluate : BitString → Except (Failure ε α) α}
  {m m' m'' : Memo α} {keys more : List BitString}

/-! ## Keys in turn -/

/-- From one memo to another, keys are evaluated in turn: all of them, and none fails; or those up
to the first that fails, and its failure is the result. -/
inductive Memo.Evaluates (evaluate : BitString → Except (Failure ε α) α) (m m' : Memo α) :
    List BitString → Except (Failure ε α) β → Prop where
  | all {keys : List BitString} (hvalue : ∀ x ∈ keys, ∃ v, evaluate x = .ok v)
      (hsettled : m'.Settled evaluate) (hok : m'.Unfailing evaluate)
      (hstarted : m'.started = keys.reverse ++ m.started) (b : β) :
      Evaluates evaluate m m' keys (.ok b)
  | upTo {before after : List BitString} {x : BitString} {e : Failure ε α}
      (hvalue : ∀ y ∈ before, ∃ v, evaluate y = .ok v) (hfails : evaluate x = .error e)
      (hstarted : m'.started = x :: (before.reverse ++ m.started)) :
      Evaluates evaluate m m' (before ++ x :: after) (.error e)

namespace Memo.Evaluates

theorem of_ok {b : β} (h : m.Evaluates evaluate m' keys (.ok b)) :
    m'.Settled evaluate ∧ m'.Unfailing evaluate ∧ m'.started = keys.reverse ++ m.started := by
  cases h with
  | all _ hsettled hok hstarted => exact ⟨hsettled, hok, hstarted⟩

/-- The first key fails. -/
theorem first {x : BitString} {e : Failure ε α} (hfails : evaluate x = .error e)
    (hstarted : m'.started = x :: m.started) (after : List BitString) :
    m.Evaluates evaluate m' (x :: after) (.error e : Except _ β) := by
  have hnone : ∀ y ∈ ([] : List BitString), ∃ v, evaluate y = .ok v := fun y hy =>
    absurd hy List.not_mem_nil
  exact .upTo hnone hfails hstarted

/-- There is one key, and it has a value. -/
theorem single {x : BitString} {v : α} (hv : evaluate x = .ok v) (hsettled : m'.Settled evaluate)
    (hok : m'.Unfailing evaluate) (hstarted : m'.started = x :: m.started) (b : β) :
    m.Evaluates evaluate m' [x] (.ok b) := by
  have hvalue : ∀ y ∈ [x], ∃ v, evaluate y = .ok v := fun y hy =>
    ⟨v, List.mem_singleton.1 hy ▸ hv⟩
  exact .all hvalue hsettled hok hstarted b

/-- After keys that do not fail, the next are evaluated. -/
theorem append {b : β} {r : Except (Failure ε α) γ}
    (h : m.Evaluates evaluate m' keys (.ok b)) (h' : m'.Evaluates evaluate m'' more r) :
    m.Evaluates evaluate m'' (keys ++ more) r := by
  cases h with
  | all hvalue _ _ hstarted =>
    cases h' with
    | all hvalue' hsettled hok hstarted' c =>
      refine .all (fun x hx => ?_) hsettled hok ?_ c
      · exact (List.mem_append.1 hx).elim (hvalue x) (hvalue' x)
      · rw [hstarted', hstarted, List.reverse_append, List.append_assoc]
    | upTo hvalue' hfails hstarted' =>
      rw [← List.append_assoc]
      refine .upTo (fun x hx => ?_) hfails ?_
      · exact (List.mem_append.1 hx).elim (hvalue x) (hvalue' x)
      · rw [hstarted', hstarted, List.reverse_append, List.append_assoc]

/-- After a key that fails, no other is evaluated. -/
theorem stop {e : Failure ε α} (h : m.Evaluates evaluate m' keys (.error e : Except _ β))
    (more : List BitString) : m.Evaluates evaluate m' (keys ++ more) (.error e : Except _ γ) := by
  cases h with
  | upTo hvalue hfails hstarted =>
    rw [List.append_assoc, List.cons_append]
    exact .upTo hvalue hfails hstarted

/-- Of the memo from which it starts, only what was started counts. -/
theorem congr {r : Except (Failure ε α) β} (h : m.Evaluates evaluate m' keys r)
    {m₀ : Memo α} (hstarted : m.started = m₀.started) : m₀.Evaluates evaluate m' keys r := by
  cases h with
  | all hvalue hsettled hok h b => exact .all hvalue hsettled hok (hstarted ▸ h) b
  | upTo hvalue hfails h => exact .upTo hvalue hfails (hstarted ▸ h)

/-- What is made of the values does not matter. -/
theorem map {r : Except (Failure ε α) β} (h : m.Evaluates evaluate m' keys r) (f : β → γ) :
    m.Evaluates evaluate m' keys (r.map f) := by
  cases h with
  | all hvalue hsettled hok hstarted b => exact .all hvalue hsettled hok hstarted (f b)
  | upTo hvalue hfails hstarted => exact .upTo hvalue hfails hstarted

/-- Without a failure, all keys are evaluated. -/
theorem started_of_values {r : Except (Failure ε α) β} (h : m.Evaluates evaluate m' keys r)
    (hvalue : ∀ x ∈ keys, ∃ v, evaluate x = .ok v) :
    m'.started.reverse = m.started.reverse ++ keys := by
  cases h with
  | all _ _ _ hstarted => rw [hstarted, List.reverse_append, List.reverse_reverse]
  | upTo _ hfails =>
    obtain ⟨v, hv⟩ := hvalue _ (List.mem_append_right _ List.mem_cons_self)
    cases hfails.symm.trans hv

/-- The keys up to the first that fails are evaluated, and the result is its failure. -/
theorem started_of_failure {r : Except (Failure ε α) β} {before after : List BitString}
    {x : BitString} {e : Failure ε α} (h : m.Evaluates evaluate m' (before ++ x :: after) r)
    (hvalue : ∀ y ∈ before, ∃ v, evaluate y = .ok v) (hfails : evaluate x = .error e) :
    m'.started.reverse = m.started.reverse ++ (before ++ [x]) ∧ r = .error e := by
  have hnone {y : BitString} {e' : Failure ε α} (hy : evaluate y = .error e') :
      ¬ ∃ v, evaluate y = .ok v := by
    rintro ⟨v, hv⟩
    cases hy.symm.trans hv
  -- the keys may be split in another place, but the first that fails is in one place
  generalize hkeys : before ++ x :: after = keys at h
  cases h with
  | all hall =>
    exact absurd (hall x (hkeys ▸ List.mem_append_right before List.mem_cons_self)) (hnone hfails)
  | upTo hvalue' hfails' hstarted =>
    obtain ⟨rfl, rfl⟩ := eq_of_first (P := fun y => ∃ v, evaluate y = .ok v) hkeys hvalue
      (hnone hfails) hvalue' (hnone hfails')
    refine ⟨by simp [hstarted], congrArg Except.error ?_⟩
    exact Except.error.inj (hfails'.symm.trans hfails)

/-- What is evaluated is a beginning of the keys. -/
theorem started_prefix {r : Except (Failure ε α) β} (h : m.Evaluates evaluate m' keys r) :
    m'.started.reverse <+: m.started.reverse ++ keys := by
  cases h with
  | all _ _ _ hstarted =>
    rw [hstarted, List.reverse_append, List.reverse_reverse]
  | @upTo before after x e hvalue hfails hstarted =>
    refine ⟨after, ?_⟩
    simp [hstarted]

end Memo.Evaluates

/-! ## Computations -/

/-- A computation that asks for keys in turn, whatever the values are, and ends with the first
failure that it is answered. -/
inductive Script.Follows (evaluate : BitString → Except (Failure ε α) α) :
    Script ε α → List BitString → Prop where
  | value (v : α) : Follows evaluate (.done (.ok v)) []
  | ask {key : BitString} {evaluation : Unit → Script ε α}
      {next : Except (Failure ε α) α → Script ε α} {keys : List BitString}
      (heval : evaluation () = .done (evaluate key))
      (hvalue : ∀ v, Follows evaluate (next (.ok v)) keys)
      (hfailure : ∀ e, next (.error e) = .done (.error e)) :
      Follows evaluate (.ask key evaluation next) (key :: keys)

namespace Script.Follows

omit [Cause ε] [Scalar α] in
theorem lookup_andThen {key : BitString} {f : α → Script ε α}
    (hf : ∀ v, (f v).Follows evaluate keys) :
    ((lookup evaluate key).andThen f).Follows evaluate (key :: keys) :=
  .ask rfl hf fun _ => rfl

omit [Cause ε] [Scalar α] in
theorem done_of_nil {s : Script ε α} (hs : s.Follows evaluate []) :
    ∃ v, s = .done (.ok v) := by
  generalize hkeys : [] = keys at hs
  cases hs with
  | value v => exact ⟨v, rfl⟩
  | ask => cases hkeys

/-- Known keys are answered from the memo, and the new one is evaluated. -/
theorem evaluates {s : Script ε α} {known : List BitString} {x : BitString}
    (hs : s.Follows evaluate (known ++ [x])) (hm : m.Settled evaluate)
    (hok : m.Unfailing evaluate) (hknown : ∀ key ∈ known, key ∈ m.started)
    (hx : x ∉ m.started) : m.Evaluates evaluate (s.run m).2 [x] (s.run m).1 := by
  induction known generalizing s m with
  | nil =>
    obtain _ | ⟨heval, hvalue, hfailure⟩ := hs
    obtain ⟨hanswer, hstarted⟩ := Memo.look_new hm hx
    rw [run_ask heval, hanswer]
    cases hev : evaluate x with
    | error e =>
      rw [hfailure]
      exact .first hev hstarted []
    | ok v =>
      -- nothing is asked for behind the new key
      obtain ⟨w, hw⟩ := done_of_nil (hvalue v)
      rw [hw]
      exact .single hev (hm.look x) (hok.look hm hev) hstarted w
  | cons key known ih =>
    obtain _ | ⟨heval, hvalue, hfailure⟩ := hs
    have hkey := hknown key List.mem_cons_self
    obtain ⟨v, hv⟩ := hok key (hm.mem_started.1 hkey)
    have hstarted := Memo.started_look hm key
    rw [if_pos hkey] at hstarted
    have hanswer : (m.look evaluate key).1 = .ok v :=
      (answers_iff_of_ok hv _).1 (Memo.answers_look hm key)
    have hrest := ih (hvalue v) (hm.look key) (hok.look hm hv)
      (fun k hk => hstarted ▸ hknown k (List.mem_cons_of_mem key hk)) (hstarted ▸ hx)
    rw [run_ask heval, hanswer]
    exact hrest.congr hstarted

end Script.Follows

end QuboProbe
