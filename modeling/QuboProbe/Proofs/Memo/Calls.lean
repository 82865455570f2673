/-
  QuboProbe.Proofs.Memo.Calls

  The look-ups of a computation that runs alone on a memo, in the order in
  which they are made, those of an evaluation right after the look-up that runs
  it (`Script.calls`).

  An evaluation is recorded only when it is over, after the look-ups that it
  makes itself.  If none of them is for a key that is still under evaluation,
  this makes no difference: the run is one that consults a plain table, look-up
  after look-up, and fills it at once (`Call.AllServed`,
  `Script.WellNested.served`).  What holds of every run is then read off the list
  of its look-ups (`Script.WellNested.memoises`).
-/
import QuboProbe.Exact
import QuboProbe.Proofs.Memo.Contents
import QuboProbe.Proofs.Memo.Lookups

namespace QuboProbe

variable {ε α : Type}

/-- One look-up of a run. -/
structure Call (ε α : Type) where
  key : BitString
  /-- The keys that are under evaluation when it is made, innermost first. -/
  within : List BitString
  /-- What its evaluation comes to, if it is run. -/
  result : Option (Except (Failure ε α) α)
  answer : Except (Failure ε α) α

/-! ## A table that is consulted call by call -/

namespace Call

/-- Whether the call has run its evaluation. -/
def ran (c : Call ε α) : Bool := c.result.isSome

/-- Whether the call has run its evaluation, which gave a value. -/
def succeeded (c : Call ε α) : Bool := c.result.any Except.toBool

/-- Whether the call has run its evaluation, which failed. -/
def failed (c : Call ε α) : Bool := c.result.any fun r => !r.toBool

variable [Cause ε] [Scalar α]

/-- The table of outcomes after a call. -/
def record (known : BitString → Option (Except String α)) (c : Call ε α) :
    BitString → Option (Except String α) :=
  match c.result with
  | some r => Function.update known c.key (some (Memo.outcomeOf r))
  | none => known

/-- The call is answered from the table if its key is there, and else by its evaluation. -/
inductive Served (known : BitString → Option (Except String α)) (c : Call ε α) : Prop where
  | told {o : Except String α} (ho : known c.key = some o) (hresult : c.result = none)
      (hanswer : c.answer = Memo.replay c.key o)
  | evaluated (hnew : known c.key = none) (hresult : c.result = some c.answer)

/-- Each call is answered from the table that the calls before it have left. -/
def AllServed (known : BitString → Option (Except String α)) : List (Call ε α) → Prop
  | [] => True
  | c :: cs => c.Served known ∧ AllServed (c.record known) cs

variable {known : BitString → Option (Except String α)} {c : Call ε α} {cs ds : List (Call ε α)}
  {key : BitString}

theorem allServed_append :
    AllServed known (cs ++ ds) ↔ AllServed known cs ∧ AllServed (cs.foldl record known) ds := by
  induction cs generalizing known with
  | nil => simp [AllServed]
  | cons c cs ih =>
    rw [List.cons_append, AllServed, AllServed, ih, List.foldl_cons, and_assoc]

/-! ### Calls for other keys -/

theorem record_of_none (hresult : c.result = none) : c.record known = known := by
  rw [record, hresult]

theorem record_of_some {r : Except (Failure ε α) α} (hresult : c.result = some r) :
    c.record known = Function.update known c.key (some (Memo.outcomeOf r)) := by
  rw [record, hresult]

theorem record_update {v : Option (Except String α)} (hc : c.key ≠ key) :
    c.record (Function.update known key v) = Function.update (c.record known) key v := by
  cases hresult : c.result with
  | none => rw [record_of_none hresult, record_of_none hresult]
  | some r =>
    rw [record_of_some hresult, record_of_some hresult]
    exact Function.update_comm hc.symm _ _ _

theorem foldl_record_update {v : Option (Except String α)} (hcs : ∀ c ∈ cs, c.key ≠ key) :
    cs.foldl record (Function.update known key v) =
      Function.update (cs.foldl record known) key v := by
  induction cs generalizing known with
  | nil => rfl
  | cons c cs ih =>
    obtain ⟨hc, hcs⟩ := List.forall_mem_cons.1 hcs
    rw [List.foldl_cons, record_update hc, ih hcs, List.foldl_cons]

theorem AllServed.update {v : Option (Except String α)} (hcs : ∀ c ∈ cs, c.key ≠ key)
    (h : AllServed known cs) : AllServed (Function.update known key v) cs := by
  induction cs generalizing known with
  | nil => trivial
  | cons c cs ih =>
    obtain ⟨hc, hcs⟩ := List.forall_mem_cons.1 hcs
    have hkey : Function.update known key v c.key = known c.key := Function.update_of_ne hc v known
    refine ⟨?_, ?_⟩
    · cases h.1 with
      | told ho hresult hanswer => exact .told (hkey.trans ho) hresult hanswer
      | evaluated hnew hresult => exact .evaluated (hkey.trans hnew) hresult
    · rw [record_update hc]
      exact ih hcs h.2

/-! ### What the table holds -/

theorem Served.record_eq_none_iff (h : c.Served known) (k : BitString) :
    c.record known k = none ↔ known k = none ∧ c.key ≠ k := by
  cases h with
  | told ho hresult =>
    rw [record_of_none hresult]
    refine ⟨fun hk => ⟨hk, ?_⟩, And.left⟩
    rintro rfl
    rw [ho] at hk
    cases hk
  | evaluated hnew hresult =>
    rw [record_of_some hresult, Function.update_apply]
    by_cases hk : k = c.key
    · simp [hk]
    · simp [hk, Ne.symm hk]

theorem Served.record_eq_some_iff (h : c.Served known) (k : BitString) (o : Except String α) :
    c.record known k = some o ↔
      known k = some o ∨ c.key = k ∧ ∃ r, c.result = some r ∧ Memo.outcomeOf r = o := by
  cases h with
  | told ho hresult =>
    rw [record_of_none hresult, hresult]
    simp
  | evaluated hnew hresult =>
    rw [record_of_some hresult, Function.update_apply, hresult]
    by_cases hk : k = c.key
    · simp [hk, hnew]
    · simp [hk, Ne.symm hk]

theorem AllServed.table_eq_none_iff (h : AllServed known cs) (k : BitString) :
    cs.foldl record known k = none ↔ known k = none ∧ ∀ c ∈ cs, c.key ≠ k := by
  induction cs generalizing known with
  | nil => simp
  | cons c cs ih =>
    rw [List.foldl_cons, ih h.2, h.1.record_eq_none_iff, List.forall_mem_cons, and_assoc]

theorem AllServed.table_eq_some_iff (h : AllServed known cs) (k : BitString)
    (o : Except String α) :
    cs.foldl record known k = some o ↔
      known k = some o ∨ ∃ c ∈ cs, c.key = k ∧ ∃ r, c.result = some r ∧ Memo.outcomeOf r = o := by
  induction cs generalizing known with
  | nil => simp
  | cons c cs ih =>
    rw [List.foldl_cons, ih h.2, h.1.record_eq_some_iff, or_assoc]
    simp

/-- A call that runs its evaluation is for a key that was not in the table. -/
theorem AllServed.known_eq_none (h : AllServed known cs) {c : Call ε α} (hc : c ∈ cs)
    (hran : c.ran = true) : known c.key = none := by
  obtain ⟨before, after, rfl⟩ := List.append_of_mem hc
  obtain ⟨hbefore, hserved, -⟩ := allServed_append.1 h
  cases hserved with
  | told ho hresult =>
    rw [ran, hresult] at hran
    cases hran
  | evaluated hnew => exact ((hbefore.table_eq_none_iff c.key).1 hnew).1

/-- No key is evaluated by two calls. -/
theorem AllServed.nodup_ran (h : AllServed known cs) :
    ((cs.filter ran).map Call.key).Nodup := by
  induction cs generalizing known with
  | nil => exact List.nodup_nil
  | cons c cs ih =>
    obtain ⟨hserved, hrest⟩ := h
    by_cases hran : c.ran = true
    · rw [List.filter_cons_of_pos hran, List.map_cons, List.nodup_cons]
      refine ⟨fun hmem => ?_, ih hrest⟩
      -- the key is in the table from now on
      obtain ⟨d, hd, hkey⟩ := List.mem_map.1 hmem
      obtain ⟨hd, hran'⟩ := List.mem_filter.1 hd
      have hnone := hrest.known_eq_none hd hran'
      exact ((hserved.record_eq_none_iff d.key).1 hnone).2 hkey.symm
    · rw [List.filter_cons_of_neg hran]
      exact ih hrest

/-! ### Calls that begin with an empty table -/

theorem AllServed.mem_keys_iff (h : AllServed (fun _ => none) cs) (k : BitString) :
    k ∈ cs.map Call.key ↔ k ∈ (cs.filter ran).map Call.key := by
  constructor
  · intro hk
    obtain ⟨c, hc, rfl⟩ := List.mem_map.1 hk
    -- a key that was looked up is in the table, so that some call has evaluated it
    have hsome : cs.foldl record (fun _ => none) c.key ≠ none := fun hnone =>
      ((h.table_eq_none_iff c.key).1 hnone).2 c hc rfl
    obtain ⟨o, ho⟩ := Option.ne_none_iff_exists'.1 hsome
    rcases (h.table_eq_some_iff c.key o).1 ho with hno | ⟨d, hd, hkey, r, hr, -⟩
    · cases hno
    · have hran : d.ran = true := Option.isSome_iff_exists.2 ⟨r, hr⟩
      exact List.mem_map.2 ⟨d, List.mem_filter.2 ⟨hd, hran⟩, hkey⟩
  · intro hk
    obtain ⟨c, hc, rfl⟩ := List.mem_map.1 hk
    exact List.mem_map_of_mem (List.mem_of_mem_filter hc)

/-- Each key that is looked up is evaluated by one call. -/
theorem AllServed.countP_ran (h : AllServed (fun _ => none) cs) :
    cs.countP ran = (cs.map Call.key).toFinset.card := by
  have hkeys : (cs.map Call.key).toFinset = ((cs.filter ran).map Call.key).toFinset := by
    ext k
    rw [List.mem_toFinset, List.mem_toFinset, h.mem_keys_iff]
  rw [hkeys, List.toFinset_card_of_nodup h.nodup_ran, List.length_map, List.countP_eq_length_filter]

/-- The first call for a key runs its evaluation; all others are told what that came to. -/
theorem AllServed.answers {before after : List (Call ε α)}
    (h : AllServed (fun _ => none) (before ++ c :: after)) :
    (c.ran = true ↔ ∀ b ∈ before, b.key ≠ c.key) ∧
      (∀ r, c.result = some r → c.answer = r) ∧
      (c.ran = false → ∃ b ∈ before, b.key = c.key ∧ ∃ r, b.result = some r ∧
        c.answer = Memo.replay c.key (Memo.outcomeOf r)) := by
  obtain ⟨hbefore, hserved, -⟩ := allServed_append.1 h
  cases hserved with
  | @told o ho hresult hanswer =>
    -- the table began empty, so what it tells is what an earlier call has come to
    rcases (hbefore.table_eq_some_iff c.key o).1 ho with hno | ⟨b, hb, hkey, r, hr, rfl⟩
    · cases hno
    · have hran : c.ran = false := by rw [ran, hresult]; rfl
      refine ⟨?_, ?_, fun _ => ⟨b, hb, hkey, r, hr, hanswer⟩⟩
      · rw [hran]
        exact iff_of_false Bool.false_ne_true fun hall => hall b hb hkey
      · intro r' hr'
        rw [hresult] at hr'
        cases hr'
  | evaluated hnew hresult =>
    have hran : c.ran = true := by rw [ran, hresult]; rfl
    refine ⟨?_, ?_, ?_⟩
    · exact iff_of_true hran ((hbefore.table_eq_none_iff c.key).1 hnew).2
    · intro r hr
      exact Option.some.inj (hresult.symm.trans hr)
    · intro hran'
      rw [hran] at hran'
      cases hran'

end Call

/-! ## The look-ups of a run -/

namespace Script

variable [Cause ε] [Scalar α]

/-- The look-ups of a run, in the order in which they are made. -/
def calls (within : List BitString) : Script ε α → Memo α → List (Call ε α)
  | done _, _ => []
  | ask key evaluation next, m =>
    match m.outcome? key with
    | some o =>
      ⟨key, within, none, Memo.replay key o⟩ :: (next (Memo.replay key o)).calls within m.hit
    | none =>
      let inner := (evaluation ()).run (m.start key)
      ⟨key, within, some inner.1, inner.1⟩ ::
        ((evaluation ()).calls (key :: within) (m.start key) ++
          (next inner.1).calls within (inner.2.settle key inner.1).miss)

/-- No look-up of a run is for a key that is still under evaluation. -/
def WellNested (s : Script ε α) (m : Memo α) : Prop := ∀ c ∈ s.calls [] m, c.key ∉ c.within

instance (s : Script ε α) (m : Memo α) : Decidable (s.WellNested m) :=
  inferInstanceAs (Decidable (∀ c ∈ s.calls [] m, c.key ∉ c.within))

variable {key : BitString} {evaluation : Unit → Script ε α}
  {next : Except (Failure ε α) α → Script ε α} {m : Memo α}

theorem run_told {o : Except String α} (ho : m.outcome? key = some o) :
    (ask key evaluation next).run m = (next (Memo.replay key o)).run m.hit := by
  rw [run, ho]

theorem calls_told {o : Except String α} (ho : m.outcome? key = some o)
    (within : List BitString) :
    (ask key evaluation next).calls within m =
      ⟨key, within, none, Memo.replay key o⟩ ::
        (next (Memo.replay key o)).calls within m.hit := by
  rw [calls, ho]

/-- The memo to which a look-up leaves what follows it, if it runs its evaluation. -/
def evaluated (m : Memo α) (key : BitString) (evaluation : Unit → Script ε α) : Memo α :=
  let inner := (evaluation ()).run (m.start key)
  (inner.2.settle key inner.1).miss

theorem outcome?_evaluated (m : Memo α) (key : BitString) (evaluation : Unit → Script ε α)
    (k : BitString) :
    (evaluated m key evaluation).outcome? k =
      if k = key then some (Memo.outcomeOf ((evaluation ()).run (m.start key)).1)
      else ((evaluation ()).run (m.start key)).2.outcome? k := by
  rw [evaluated, Memo.outcome?_miss, Memo.outcome?_settle]

theorem tally_evaluated (m : Memo α) (key : BitString) (evaluation : Unit → Script ε α) :
    (evaluated m key evaluation).tally.lookups =
        ((evaluation ()).run (m.start key)).2.tally.lookups + 1 ∧
      (evaluated m key evaluation).tally.misses =
        ((evaluation ()).run (m.start key)).2.tally.misses + 1 :=
  ⟨(Nat.add_assoc _ _ _).symm, rfl⟩

theorem run_new (ho : m.outcome? key = none) :
    (ask key evaluation next).run m =
      (next ((evaluation ()).run (m.start key)).1).run (evaluated m key evaluation) := by
  rw [run, ho]
  rfl

theorem calls_new (ho : m.outcome? key = none) (within : List BitString) :
    (ask key evaluation next).calls within m =
      ⟨key, within, some ((evaluation ()).run (m.start key)).1,
          ((evaluation ()).run (m.start key)).1⟩ ::
        ((evaluation ()).calls (key :: within) (m.start key) ++
          (next ((evaluation ()).run (m.start key)).1).calls within
            (evaluated m key evaluation)) := by
  rw [calls, ho]
  rfl

/-- What is under evaluation stays so during all that a run does. -/
theorem subset_within (s : Script ε α) (within : List BitString) (m : Memo α) :
    ∀ c ∈ s.calls within m, within ⊆ c.within := by
  induction s generalizing within m with
  | done r => exact fun c hc => absurd hc List.not_mem_nil
  | ask key evaluation next ihe ihn =>
    intro c hc
    cases ho : m.outcome? key with
    | some o =>
      rw [calls_told ho, List.mem_cons] at hc
      rcases hc with rfl | hc
      · exact List.Subset.refl within
      · exact ihn _ within m.hit c hc
    | none =>
      -- the evaluation is inside of one key more, what follows it is not
      rw [calls_new ho, List.mem_cons, List.mem_append] at hc
      rcases hc with rfl | hc | hc
      · exact List.Subset.refl within
      · exact List.Subset.trans (List.subset_cons_self key within) (ihe () _ _ c hc)
      · exact ihn _ within _ c hc

/-- A run in which no look-up is for a key under evaluation consults a plain table, and the memo
is left with what is then in the table. -/
theorem served_of_within (s : Script ε α) (within : List BitString) (m : Memo α)
    (hs : ∀ c ∈ s.calls within m, c.key ∉ c.within) :
    Call.AllServed m.outcome? (s.calls within m) ∧
      (s.run m).2.outcome? = (s.calls within m).foldl Call.record m.outcome? := by
  induction s generalizing within m with
  | done r => exact ⟨trivial, rfl⟩
  | ask key evaluation next ihe ihn =>
    cases ho : m.outcome? key with
    | some o =>
      rw [calls_told ho] at hs
      obtain ⟨hserved, htable⟩ :=
        ihn (Memo.replay key o) within m.hit fun c hc => hs c (List.mem_cons_of_mem _ hc)
      rw [calls_told ho, run_told ho]
      exact ⟨⟨.told ho rfl rfl, hserved⟩, htable⟩
    | none =>
      rw [calls_new ho, List.forall_mem_cons, List.forall_mem_append] at hs
      obtain ⟨-, hinner, hrest⟩ := hs
      rw [calls_new ho, run_new ho]
      generalize hr : ((evaluation ()).run (m.start key)).1 = r at hrest ⊢
      -- the evaluation looks up other keys, so it does not matter when the key is recorded
      have hother : ∀ c ∈ (evaluation ()).calls (key :: within) (m.start key), c.key ≠ key := by
        rintro c hc rfl
        exact hinner c hc (subset_within _ _ _ c hc List.mem_cons_self)
      have hstart : (m.start key).outcome? = m.outcome? :=
        funext fun k => Memo.outcome?_start m key k ho
      obtain ⟨hserved, htable⟩ := ihe () (key :: within) (m.start key) hinner
      rw [hstart] at hserved htable
      -- recorded after the evaluation is as good as recorded before it
      have hevaluated : (evaluated m key evaluation).outcome? =
          ((evaluation ()).calls (key :: within) (m.start key)).foldl Call.record
            (Function.update m.outcome? key (some (Memo.outcomeOf r))) := by
        rw [Call.foldl_record_update hother, ← htable]
        funext k
        rw [outcome?_evaluated, hr, Function.update_apply]
      obtain ⟨hserved', htable'⟩ := ihn r within (evaluated m key evaluation) hrest
      rw [hevaluated] at hserved' htable'
      refine ⟨⟨.evaluated ho rfl, ?_⟩, ?_⟩
      · exact Call.allServed_append.2 ⟨hserved.update hother, hserved'⟩
      · rw [htable', List.foldl_cons, List.foldl_append]
        rfl

theorem WellNested.served {s : Script ε α} (hs : s.WellNested m) :
    Call.AllServed m.outcome? (s.calls [] m) ∧
      (s.run m).2.outcome? = (s.calls [] m).foldl Call.record m.outcome? :=
  s.served_of_within [] m hs

/-- A run leaves the outcomes of all keys that it does not evaluate, whatever is under evaluation. -/
theorem outcome?_run_of_not_ran (s : Script ε α) (within : List BitString) (m : Memo α)
    {k : BitString} (hk : ∀ c ∈ s.calls within m, c.key = k → c.ran = false) :
    (s.run m).2.outcome? k = m.outcome? k := by
  induction s generalizing within m with
  | done r => rfl
  | ask key evaluation next ihe ihn =>
    cases ho : m.outcome? key with
    | some o =>
      rw [calls_told ho] at hk
      rw [run_told ho]
      exact ihn _ within m.hit fun c hc => hk c (List.mem_cons_of_mem _ hc)
    | none =>
      rw [calls_new ho, List.forall_mem_cons, List.forall_mem_append] at hk
      obtain ⟨hkey, hinner, hrest⟩ := hk
      -- the look-up itself runs its evaluation, so its key is another one
      have hne : k ≠ key := fun h => nomatch hkey h.symm
      rw [run_new ho, ihn _ within _ hrest, outcome?_evaluated, if_neg hne,
        ihe () (key :: within) (m.start key) hinner, Memo.outcome?_start m key k ho]

/-- A run counts its look-ups, those that run their evaluation as misses. -/
theorem tally_run (s : Script ε α) (within : List BitString) (m : Memo α) :
    (s.run m).2.tally.lookups = m.tally.lookups + (s.calls within m).length ∧
      (s.run m).2.tally.misses = m.tally.misses + (s.calls within m).countP Call.ran := by
  induction s generalizing within m with
  | done r => exact ⟨rfl, rfl⟩
  | ask key evaluation next ihe ihn =>
    cases ho : m.outcome? key with
    | some o =>
      obtain ⟨hlookups, hmisses⟩ := ihn (Memo.replay key o) within m.hit
      have hhit : m.hit.tally.lookups = m.tally.lookups + 1 := Nat.add_right_comm _ _ _
      rw [run_told ho, calls_told ho, hlookups, hmisses, hhit, List.length_cons,
        List.countP_cons_of_neg (by simp [Call.ran])]
      exact ⟨by omega, rfl⟩
    | none =>
      obtain ⟨hlookups, hmisses⟩ := ihn ((evaluation ()).run (m.start key)).1 within
        (evaluated m key evaluation)
      obtain ⟨hlookups', hmisses'⟩ := ihe () (key :: within) (m.start key)
      obtain ⟨hown, hown'⟩ := tally_evaluated m key evaluation
      -- the look-up is counted after those that its evaluation makes
      have hstart : (m.start key).tally = m.tally := rfl
      rw [hstart] at hlookups' hmisses'
      rw [run_new ho, calls_new ho, hlookups, hmisses, hown, hown', hlookups', hmisses',
        List.length_cons, List.length_append, List.countP_cons_of_pos (by rfl), List.countP_append]
      exact ⟨by omega, by omega⟩

/-- The evaluations that a run begins are those of the look-ups that run theirs. -/
theorem started_run (s : Script ε α) (within : List BitString) (m : Memo α) :
    (s.run m).2.started =
      (((s.calls within m).filter Call.ran).map Call.key).reverse ++ m.started := by
  induction s generalizing within m with
  | done r => rfl
  | ask key evaluation next ihe ihn =>
    cases ho : m.outcome? key with
    | some o =>
      rw [run_told ho, calls_told ho, ihn _ within m.hit,
        List.filter_cons_of_neg (by simp [Call.ran])]
      rfl
    | none =>
      -- the key is started before those that its evaluation looks up
      have hevaluated : (evaluated m key evaluation).started =
          ((evaluation ()).run (m.start key)).2.started := rfl
      have hstart : (m.start key).started = key :: m.started := rfl
      rw [run_new ho, calls_new ho, ihn _ within, hevaluated, ihe () (key :: within), hstart,
        List.filter_cons_of_pos (by rfl), List.filter_append]
      simp only [List.map_cons, List.map_append, List.reverse_cons, List.reverse_append,
        List.append_assoc, List.singleton_append]

/-- Every cell stays at the key of its bit string. -/
theorem keyed_run (s : Script ε α) (hm : m.Keyed) : (s.run m).2.Keyed := by
  induction s generalizing m with
  | done r => exact hm
  | ask key evaluation next ihe ihn =>
    cases ho : m.outcome? key with
    | some o =>
      rw [run_told ho]
      exact ihn _ hm.hit
    | none =>
      rw [run_new ho]
      exact ihn _ ((ihe () (hm.start key)).settle key _).miss

/-! ## Runs on an empty memo -/

variable {s : Script ε α}

theorem WellNested.served_empty (hs : s.WellNested .empty) :
    Call.AllServed (fun _ => none) (s.calls [] .empty) ∧
      ∀ k o, (s.run .empty).2.outcome? k = some o ↔
        ∃ c ∈ s.calls [] .empty, c.key = k ∧ ∃ r, c.result = some r ∧ Memo.outcomeOf r = o := by
  obtain ⟨hserved, htable⟩ := hs.served
  have hempty : (Memo.empty : Memo α).outcome? = fun _ => none := funext Memo.outcome?_empty
  rw [hempty] at hserved htable
  refine ⟨hserved, fun k o => ?_⟩
  rw [htable, hserved.table_eq_some_iff]
  -- nothing is in the table at first
  exact or_iff_right nofun

/-- A count of outcomes is a count of the keys that were evaluated to them. -/
theorem WellNested.count_run (hs : s.WellNested .empty) {test : Except String α → Bool}
    {passes : Call ε α → Bool} (hpasses : ∀ c, passes c = true ↔
      ∃ r, c.result = some r ∧ test (Memo.outcomeOf r) = true) :
    (s.run .empty).2.count test =
      (((s.calls [] .empty).filter passes).map Call.key).toFinset.card := by
  refine Memo.count_eq_card (s.keyed_run Memo.Keyed.empty) fun k => ?_
  rw [List.mem_toFinset, List.mem_map]
  constructor
  · rintro ⟨c, hc, rfl⟩
    obtain ⟨hc, hpass⟩ := List.mem_filter.1 hc
    obtain ⟨r, hr, htest⟩ := (hpasses c).1 hpass
    exact ⟨_, (hs.served_empty.2 c.key _).2 ⟨c, hc, rfl, r, hr, rfl⟩, htest⟩
  · rintro ⟨o, ho, htest⟩
    obtain ⟨c, hc, hkey, r, hr, rfl⟩ := (hs.served_empty.2 k o).1 ho
    exact ⟨c, List.mem_filter.2 ⟨hc, (hpasses c).2 ⟨r, hr, htest⟩⟩, hkey⟩

/-- A computation that runs alone on an empty memo and looks up no key that is still under
evaluation.  A look-up runs its evaluation if and only if no look-up before it was for the same key,
and then returns the result as it is; every later look-up of the key is told the value, or that the
evaluation has failed on that key, without an evaluation.  Nothing else is evaluated, and nothing is
recorded for keys that are not evaluated, on whatever memo.  In the end the misses are the different
keys, hits and misses are the look-ups, and the memo holds the values of the keys that were
evaluated, and counts the keys with a value and those with a failure. -/
theorem run_memoised (s : Script ε α) (hs : s.WellNested .empty) :
    (∀ (before : List (Call ε α)) (c : Call ε α) (after : List (Call ε α)),
      s.calls [] .empty = before ++ c :: after →
      (c.ran = true ↔ ∀ b ∈ before, b.key ≠ c.key) ∧
      (∀ r, c.result = some r → c.answer = r) ∧
      (c.ran = false → ∃ b ∈ before, b.key = c.key ∧ ∃ r, b.result = some r ∧
        (∀ v, r = .ok v → c.answer = .ok v) ∧
        ∀ e, r = .error e → c.answer = .error (.objective c.key (.replayed e.message)))) ∧
    ((s.calls [] .empty).filter Call.ran).map Call.key = (s.run .empty).2.started.reverse ∧
    (∀ (t : Script ε α) (m : Memo α) (k : BitString),
      (∀ c ∈ t.calls [] m, c.key = k → c.ran = false) →
        (t.run m).2.outcome? k = m.outcome? k) ∧
    (s.run .empty).2.tally.misses = ((s.calls [] .empty).map Call.key).toFinset.card ∧
    (s.run .empty).2.tally.hits + (s.run .empty).2.tally.misses = (s.calls [] .empty).length ∧
    (∀ k v, (s.run .empty).2.get? k = some v ↔
      ∃ c ∈ s.calls [] .empty, c.key = k ∧ c.result = some (.ok v)) ∧
    (s.run .empty).2.size =
      (((s.calls [] .empty).filter Call.succeeded).map Call.key).toFinset.card ∧
    (s.run .empty).2.failures =
      (((s.calls [] .empty).filter Call.failed).map Call.key).toFinset.card := by
  obtain ⟨hserved, houtcome⟩ := hs.served_empty
  obtain ⟨hlookups, hmisses⟩ := s.tally_run [] .empty
  refine ⟨fun before c after hsplit => ?_, ?_, fun t m k => t.outcome?_run_of_not_ran [] m, ?_, ?_,
    fun k v => ?_, ?_, ?_⟩
  · rw [hsplit] at hserved
    obtain ⟨hran, hown, htold⟩ := hserved.answers
    refine ⟨hran, hown, fun hnot => ?_⟩
    obtain ⟨b, hb, hkey, r, hr, hanswer⟩ := htold hnot
    refine ⟨b, hb, hkey, r, hr, ?_, ?_⟩
    · rintro v rfl
      exact hanswer
    · rintro e rfl
      exact hanswer
  · rw [s.started_run [] .empty, List.reverse_append, List.reverse_reverse]
    rfl
  · rw [hmisses, ← hserved.countP_ran]
    exact Nat.zero_add _
  · exact hlookups.trans (Nat.zero_add _)
  · rw [Memo.get?_eq_some_iff, houtcome]
    simp only [Memo.outcomeOf_eq_ok_iff, exists_eq_right]
  · refine hs.count_run fun c => ?_
    simp only [Call.succeeded, Option.any_eq_true, Memo.toBool_outcomeOf]
  · refine hs.count_run fun c => ?_
    simp only [Call.failed, Option.any_eq_true, Memo.toBool_outcomeOf]

/-- The evaluation of the first key looks up the second one.  The next look-up of the first key is
told the value, whatever evaluation it brings, and the last look-up is told of the failure of the
third key. -/
theorem run_memoised_nested :
    let outer := BitString.unit 2 0
    let inner := BitString.unit 2 1
    let third := BitString.pair 2 0 1
    let s : Script CodingError ℚ :=
      .ask outer
        (fun _ => .ask inner (fun _ => .done (.ok 2)) fun r => .done (r.map (· + 1))) fun _ =>
      .ask outer (fun _ => .done (.ok 7)) fun _ =>
      .ask third (fun _ => .done (.error (.objective third (.notFinite 0)))) fun _ =>
      .ask third (fun _ => .done (.ok 5)) .done
    s.WellNested .empty ∧
      (s.run .empty).2.tally.misses = 3 ∧ (s.run .empty).2.tally.hits = 2 ∧
      (s.run .empty).2.size = 2 ∧ (s.run .empty).2.failures = 1 := by
  intro outer inner third s
  have hs : s.WellNested .empty := by decide +kernel
  have hkeys : (s.calls [] .empty).map Call.key = [outer, inner, outer, third, third] := by
    decide +kernel
  have hsucceeded : ((s.calls [] .empty).filter Call.succeeded).map Call.key = [outer, inner] := by
    decide +kernel
  have hfailed : ((s.calls [] .empty).filter Call.failed).map Call.key = [third] := by
    decide +kernel
  have hlength : (s.calls [] .empty).length = 5 := by
    rw [← List.length_map Call.key, hkeys]
    rfl
  obtain ⟨-, -, -, hmisses, hlookups, -, hsize, hfailures⟩ := run_memoised s hs
  rw [hkeys] at hmisses
  rw [hlength] at hlookups
  rw [hsucceeded] at hsize
  rw [hfailed] at hfailures
  have hthree : (s.run .empty).2.tally.misses = 3 := hmisses
  exact ⟨hs, hthree, by omega, hsize, hfailures⟩

end Script

end QuboProbe
