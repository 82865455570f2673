/-
  QuboProbe.Proofs.Validate.FirstEvent

  A validation is decided by the first bit string that stops it.  A string
  passes, or it stops the walk in exactly one way: it has the wrong length, the
  objective is at fault, or value and energy differ
  (`Validate.passes_iff_not_stops`).  Repetitions are passed over, so the walk
  is along the list of trials without them (`Validate.walk_first`).
-/
import QuboProbe.Encoding.Unsigned
import QuboProbe.Exact
import QuboProbe.Proofs.Evaluation
import QuboProbe.Proofs.Memo.Failures
import QuboProbe.Proofs.Validate.Walk

namespace QuboProbe

/-! ## Lists without repetitions -/

section

variable {β : Type} [DecidableEq β] {seen l : List β} {x : β}

/-- The items of a list that are not among others, each where it stands first. -/
def newIn (seen l : List β) : List β := (l.filter (· ∉ seen)).eraseDups

theorem newIn_nil (l : List β) : newIn [] l = l.eraseDups := by
  rw [newIn, List.filter_eq_self.2 fun x _ => by simp]

theorem newIn_cons_of_mem (hx : x ∈ seen) (l : List β) : newIn seen (x :: l) = newIn seen l := by
  rw [newIn, List.filter_cons_of_neg (by simpa using hx), newIn]

theorem newIn_cons_of_notMem (hx : x ∉ seen) (l : List β) :
    newIn seen (x :: l) = x :: newIn (x :: seen) l := by
  rw [newIn, List.filter_cons_of_pos (by simpa using hx), List.eraseDups_cons, List.filter_filter,
    newIn]
  refine congrArg (fun l => x :: List.eraseDups l) (List.filter_congr fun y _ => ?_)
  by_cases hy : y = x <;> simp [hy]

theorem nodup_newIn (seen l : List β) :
    (newIn seen l).Nodup ∧ ∀ y ∈ newIn seen l, y ∉ seen := by
  induction l generalizing seen with
  | nil => exact ⟨List.nodup_nil, fun y hy => absurd hy List.not_mem_nil⟩
  | cons x l ih =>
    by_cases hx : x ∈ seen
    · rw [newIn_cons_of_mem hx]
      exact ih seen
    · obtain ⟨hnodup, hnew⟩ := ih (x :: seen)
      rw [newIn_cons_of_notMem hx]
      refine ⟨List.nodup_cons.2 ⟨fun h => hnew x h List.mem_cons_self, hnodup⟩, fun y hy => ?_⟩
      rcases List.mem_cons.1 hy with rfl | hy
      · exact hx
      · exact fun h => hnew y hy (List.mem_cons_of_mem x h)

end

namespace Validate

variable {ε α : Type} [Zero α] [Add α] [Sub α] [Mul α] [BEq α] [Cause ε] [Scalar α]
  {g : PseudoBoolean ε α} {q : Qubo α} {tolerance : Tolerance α} {x : BitString}

/-! ## Passing and stopping -/

/-- The value of the objective and the energy of the model count as equal. -/
def Passes (g : PseudoBoolean ε α) (q : Qubo α) (tolerance : Tolerance α) (x : BitString) : Prop :=
  ∃ v e, g.HasValue x v ∧ q.energy x.bytes = .ok e ∧ tolerance.accepts v e = true

omit [Cause ε] in
theorem passes_iff : Passes g q tolerance x ↔
    (match g.evaluate x, q.energy x.bytes with
      | .ok v, .ok e => tolerance.accepts v e
      | _, _ => false) = true := by
  simp only [Passes, PseudoBoolean.hasValue_iff]
  constructor
  · rintro ⟨v, e, hvalue, henergy, haccepts⟩
    rw [hvalue, henergy]
    exact haccepts
  · intro h
    split at h
    · exact ⟨_, _, ‹_›, ‹_›, h⟩
    · cases h

instance : Decidable (Passes g q tolerance x) := decidable_of_iff _ passes_iff.symm

/-- What stops a validation: bits that do not decode, a fault of the objective, or a difference. -/
inductive Stops (g : PseudoBoolean ε α) (q : Qubo α) (tolerance : Tolerance α) (x : BitString) :
    Except (Failure ε α) (Mismatch α) → Prop where
  | length (h : x.length ≠ g.arity) :
      Stops g q tolerance x (.error (.probe x (.lengthMismatch g.arity x.length)))
  | fault {fault : Fault ε α} (h : g.FailsWith x fault) :
      Stops g q tolerance x (.error (.objective x fault))
  | mismatch {v e : α} (hvalue : g.HasValue x v) (henergy : q.energy x.bytes = .ok e)
      (h : tolerance.accepts v e = false) : Stops g q tolerance x (.ok ⟨x, v, e⟩)

omit [Cause ε] in
/-- Against a square model of its size, a function passes on a string unless something stops it
there. -/
theorem passes_iff_not_stops (hrows : q.matrix.rows = g.arity) (hcols : q.matrix.cols = g.arity) :
    Passes g q tolerance x ↔ ∀ r, ¬ Stops g q tolerance x r := by
  constructor
  · rintro ⟨v, e, hvalue, henergy, haccepts⟩ r hstops
    cases hstops with
    | length h => exact h hvalue.length_eq
    | fault h => cases h.evaluate_eq.symm.trans hvalue.evaluate_eq
    | mismatch hvalue' henergy' hdiffers =>
      obtain rfl := Except.ok.inj (hvalue.evaluate_eq.symm.trans hvalue'.evaluate_eq)
      obtain rfl := Except.ok.inj (henergy.symm.trans henergy')
      cases haccepts.symm.trans hdiffers
  · intro hnone
    rcases g.evaluate_outcomes x with ⟨hlength, -⟩ | ⟨fault, hfault, -⟩ | ⟨v, hvalue, -⟩
    · exact absurd (.length hlength) (hnone _)
    · exact absurd (.fault hfault) (hnone _)
    · have henergy := Qubo.energy_eq_ok (q := q) (hrows.trans hvalue.length_eq.symm)
        (hcols.trans hvalue.length_eq.symm)
      refine ⟨v, _, hvalue, henergy, ?_⟩
      by_contra haccepts
      exact hnone _ (.mismatch hvalue henergy (by simpa using haccepts))

/-! ## One string after another -/

variable {m : Memo α}

variable (q tolerance) in
/-- A walk ends, or it comes to the first string that was not evaluated before. -/
theorem walk_next (hm : m.Settled g.evaluate) (hok : ∀ y ∈ m.started, ∃ v, g.evaluate y = .ok v)
    (supply : Supply BitString) (checked : Nat) :
    (newIn m.started supply.toList = [] ∧
      walk g q tolerance supply checked m = (.ok ⟨checked, none⟩, m)) ∨
    ∃ x rest, newIn m.started supply.toList = x :: newIn (x :: m.started) (rest ()).toList ∧
      x ∉ m.started ∧
      walk g q tolerance supply checked m = walk g q tolerance (.item x rest) checked m := by
  -- what is passed over is not new, so nothing changes until the first new string
  induction supply with
  | exhausted => exact .inl ⟨rfl, rfl⟩
  | item x rest ih =>
    rw [Supply.toList_item]
    by_cases hx : x ∈ m.started
    · rw [newIn_cons_of_mem hx, walk_known hm hok hx]
      exact ih ()
    · exact .inr ⟨x, rest, newIn_cons_of_notMem hx _, hx, rfl⟩

/-- A new string that passes is counted, and the walk goes on. -/
theorem walk_pass (hm : m.Settled g.evaluate) (hok : ∀ y ∈ m.started, ∃ v, g.evaluate y = .ok v)
    (hx : x ∉ m.started) (hpasses : Passes g q tolerance x) (rest : Unit → Supply BitString)
    (checked : Nat) :
    (∀ y ∈ (m.look g.evaluate x).2.started, ∃ v, g.evaluate y = .ok v) ∧
      walk g q tolerance (.item x rest) checked m =
        walk g q tolerance (rest ()) (checked + 1) (m.look g.evaluate x).2 := by
  obtain ⟨v, e, hvalue, henergy, haccepts⟩ := hpasses
  refine ⟨exists_value_look hm hok hx hvalue.evaluate_eq, ?_⟩
  rw [walk_new hm hok hx, hvalue.evaluate_eq, henergy]
  exact if_pos haccepts

/-- A new string that stops the walk is the last that is evaluated. -/
theorem walk_stop (hm : m.Settled g.evaluate) (hok : ∀ y ∈ m.started, ∃ v, g.evaluate y = .ok v)
    (hx : x ∉ m.started) {r : Except (Failure ε α) (Mismatch α)}
    (hstops : Stops g q tolerance x r) (rest : Unit → Supply BitString) (checked : Nat) :
    walk g q tolerance (.item x rest) checked m =
      (r.map fun d => ⟨checked + 1, some d⟩, (m.look g.evaluate x).2) := by
  rw [walk_new hm hok hx]
  cases hstops with
  | length h =>
    rw [PseudoBoolean.evaluate_of_length h]
    rfl
  | fault h =>
    rw [h.evaluate_eq]
    rfl
  | mismatch hvalue henergy h =>
    rw [hvalue.evaluate_eq, henergy]
    exact if_neg (by rw [h]; exact Bool.false_ne_true)

/-- Behind new strings that pass, the walk goes on with them counted and evaluated. -/
theorem walk_passes (hm : m.Settled g.evaluate)
    (hok : ∀ y ∈ m.started, ∃ v, g.evaluate y = .ok v) {supply : Supply BitString}
    {before after : List BitString} (hnew : newIn m.started supply.toList = before ++ after)
    (hbefore : ∀ y ∈ before, Passes g q tolerance y) (checked : Nat) :
    ∃ (supply' : Supply BitString) (m' : Memo α),
      m'.Settled g.evaluate ∧ (∀ y ∈ m'.started, ∃ v, g.evaluate y = .ok v) ∧
      m'.started = before.reverse ++ m.started ∧ newIn m'.started supply'.toList = after ∧
      walk g q tolerance supply checked m =
        walk g q tolerance supply' (checked + before.length) m' := by
  -- the walk is in step with the list of new strings: the next one is at the head of it, and
  -- what is new after that one is the rest of it
  induction before generalizing m supply checked with
  | nil => exact ⟨supply, m, hm, hok, rfl, hnew, rfl⟩
  | cons x before ih =>
    rcases walk_next q tolerance hm hok supply checked with
      ⟨hnone, -⟩ | ⟨y, rest, hnext, hy, hwalk⟩
    · -- a new string is left, so the walk has not ended
      cases hnone.symm.trans hnew
    · obtain ⟨rfl, hrest⟩ := List.cons.inj (hnext.symm.trans hnew)
      obtain ⟨hok', hstep⟩ := walk_pass hm hok hy (hbefore y List.mem_cons_self) rest checked
      have hstarted := (Memo.look_new hm hy).2
      rw [← hstarted] at hrest
      obtain ⟨supply', m', hm', hall, hstarted', hafter, hrun⟩ :=
        ih (hm.look y) hok' hrest (fun z hz => hbefore z (List.mem_cons_of_mem y hz)) (checked + 1)
      refine ⟨supply', m', hm', hall, ?_, hafter, ?_⟩
      · rw [hstarted', hstarted, List.reverse_cons, List.append_assoc, List.singleton_append]
      · rw [hwalk, hstep, hrun, List.length_cons, Nat.add_assoc, Nat.add_comm 1]

/-! ## The whole walk -/

/-- A walk that nothing stops compares all new strings. -/
theorem walk_all (hm : m.Settled g.evaluate) (hok : ∀ y ∈ m.started, ∃ v, g.evaluate y = .ok v)
    {supply : Supply BitString}
    (hpasses : ∀ y ∈ newIn m.started supply.toList, Passes g q tolerance y) (checked : Nat) :
    (walk g q tolerance supply checked m).1 =
        .ok ⟨checked + (newIn m.started supply.toList).length, none⟩ ∧
      (walk g q tolerance supply checked m).2.started =
        (newIn m.started supply.toList).reverse ++ m.started := by
  obtain ⟨supply', m', hm', hok', hstarted, hafter, hrun⟩ :=
    walk_passes hm hok (List.append_nil _).symm hpasses checked
  -- nothing new is left behind them
  rcases walk_next q tolerance hm' hok' supply'
    (checked + (newIn m.started supply.toList).length) with ⟨-, hend⟩ | ⟨x, rest, hnext, -⟩
  · rw [hrun, hend]
    exact ⟨rfl, hstarted⟩
  · cases hafter.symm.trans hnext

/-- A walk is decided by the first new string that stops it. -/
theorem walk_first (hm : m.Settled g.evaluate) (hok : ∀ y ∈ m.started, ∃ v, g.evaluate y = .ok v)
    {supply : Supply BitString} {before after : List BitString}
    (hnew : newIn m.started supply.toList = before ++ x :: after)
    (hbefore : ∀ y ∈ before, Passes g q tolerance y) {r : Except (Failure ε α) (Mismatch α)}
    (hstops : Stops g q tolerance x r) (checked : Nat) :
    (walk g q tolerance supply checked m).1 =
        r.map (fun d => ⟨checked + before.length + 1, some d⟩) ∧
      (walk g q tolerance supply checked m).2.started = x :: (before.reverse ++ m.started) := by
  obtain ⟨supply', m', hm', hok', hstarted, hafter, hrun⟩ := walk_passes hm hok hnew hbefore checked
  rcases walk_next q tolerance hm' hok' supply' (checked + before.length) with
    ⟨hnone, -⟩ | ⟨y, rest, hnext, hy, hwalk⟩
  · cases hnone.symm.trans hafter
  · obtain rfl : y = x := (List.cons.inj (hnext.symm.trans hafter)).1
    rw [hrun, hwalk, walk_stop hm' hok' hy hstops]
    refine ⟨rfl, ?_⟩
    rw [(Memo.look_new hm' hy).2, hstarted]

/-- The bit strings that a validation tries, each where it comes first. -/
def distinctTrials (effort : Effort α) (n : Nat) (samples : Option (List BitString)) :
    List BitString :=
  (trials effort n samples).toList.eraseDups

end Validate

variable {ε α : Type} [Zero α] [Add α] [Sub α] [Mul α] [BEq α] [Cause ε] [Scalar α]

/-- A validation of a model of another size evaluates nothing.  Any other goes through the bit
strings that it tries, without repetitions, and the first that stops it decides: it is the last
that is evaluated, and a difference is reported with its place.  Otherwise all of them are
evaluated and compared.  The objective is asked once about each of them that has the right
length, and about nothing else. -/
theorem validate_first_event (s : Settings α) (f : Objective ε α) (q : Qubo α) (l : Layout)
    (samples : Option (List BitString)) :
    (q.size ≠ l.size →
      (validate s f q l samples).result =
        .error (.dimension ⟨q.matrix.rows, q.matrix.cols, l.size⟩) ∧
      (validate s f q l samples).evaluated = []) ∧
    (q.matrix.rows = l.size → q.matrix.cols = l.size →
      (Validate.distinctTrials s.validation l.size samples).Nodup ∧
      (∀ x, Validate.Passes ⟨f, l⟩ q s.validation.tolerance x ↔
        ∀ r, ¬ Validate.Stops ⟨f, l⟩ q s.validation.tolerance x r) ∧
      ((∀ x ∈ Validate.distinctTrials s.validation l.size samples,
          Validate.Passes ⟨f, l⟩ q s.validation.tolerance x) →
        (validate s f q l samples).result =
          .ok ⟨(Validate.distinctTrials s.validation l.size samples).length, none⟩ ∧
        (validate s f q l samples).evaluated =
          Validate.distinctTrials s.validation l.size samples) ∧
      ∀ before x after r,
        Validate.distinctTrials s.validation l.size samples = before ++ x :: after →
        (∀ y ∈ before, Validate.Passes ⟨f, l⟩ q s.validation.tolerance y) →
        Validate.Stops ⟨f, l⟩ q s.validation.tolerance x r →
        (validate s f q l samples).result =
          r.map (fun d => ⟨before.length + 1, some d⟩) ∧
        (validate s f q l samples).evaluated = before ++ [x]) ∧
    (PseudoBoolean.questions ⟨f, l⟩ (validate s f q l samples).evaluated).map Except.ok =
      ((validate s f q l samples).evaluated.filter fun x => x.length == l.size).map
        fun x => l.decode x.bytes := by
  -- a validation starts with a memo that holds nothing, so all that it tries is new
  have hsettled : (Memo.empty : Memo α).Settled (PseudoBoolean.evaluate ⟨f, l⟩) := .empty
  have hok : ∀ y ∈ (Memo.empty : Memo α).started, ∃ v,
      PseudoBoolean.evaluate ⟨f, l⟩ y = .ok v := fun y hy => absurd hy List.not_mem_nil
  have hnew : newIn (Memo.empty : Memo α).started
      (Validate.trials s.validation l.size samples).toList =
      Validate.distinctTrials s.validation l.size samples := newIn_nil _
  refine ⟨fun hsize => ?_, fun hrows hcols => ⟨?_, fun x => ?_, fun hpasses => ?_,
    fun before x after r hsplit hbefore hstops => ?_⟩, PseudoBoolean.map_ok_questions ⟨f, l⟩ _⟩
  · rw [validate, Validate.along, if_pos hsize]
    exact ⟨rfl, rfl⟩
  · rw [← hnew]
    exact (nodup_newIn _ _).1
  · exact Validate.passes_iff_not_stops hrows hcols
  · obtain ⟨hresult, hevaluated⟩ := Validate.along_of_size (f := f) hrows
      (Validate.trials s.validation l.size samples) s.validation.tolerance
    obtain ⟨hreport, hstarted⟩ := Validate.walk_all hsettled hok (hnew ▸ hpasses) 0
    rw [hnew] at hreport hstarted
    rw [validate, hresult, hreport, hevaluated, hstarted, Nat.zero_add]
    exact ⟨rfl, by rw [List.reverse_append, List.reverse_reverse]; rfl⟩
  · obtain ⟨hresult, hevaluated⟩ := Validate.along_of_size (f := f) hrows
      (Validate.trials s.validation l.size samples) s.validation.tolerance
    obtain ⟨hreport, hstarted⟩ :=
      Validate.walk_first hsettled hok (hnew.trans hsplit) hbefore hstops 0
    rw [validate, hresult, hreport, hevaluated, hstarted, Nat.zero_add, List.reverse_cons,
      List.reverse_append, List.reverse_reverse]
    exact ⟨rfl, rfl⟩

/-- The model of the square of a number of two bits.  A model of another size is refused; strings
that were tried before are passed over; the byte 2 is a one for the model but not for the
encoding, which shows as a difference; and a string of one bit ends the validation. -/
theorem validate_first_event_square :
    let l : Layout := ⟨[⟨"x", .unsigned, 2, 0⟩], 2⟩
    let f : Objective CodingError ℚ := fun a => (a.int "x").map fun v => (v.toInt : ℚ) ^ 2
    let q : Qubo ℚ := ⟨⟨2, 2, #[1, 4, 0, 4], rfl⟩, 0⟩
    let s : Settings ℚ := ⟨false, 0, ⟨1000, 0, 12, .exact⟩⟩
    (validate s f (.zeros 1) l none).result = .error (.dimension ⟨1, 1, 2⟩) ∧
    (validate s f q l (some [⟨[1, 0]⟩, ⟨[1, 0]⟩])).result = .ok ⟨4, none⟩ ∧
    (validate s f q l (some [⟨[2, 0]⟩, ⟨[1]⟩])).result = .ok ⟨5, some ⟨⟨[2, 0]⟩, 0, 1⟩⟩ ∧
    (validate s f q l (some [⟨[1, 0]⟩, ⟨[1]⟩])).result =
      .error (.probe ⟨[1]⟩ (.lengthMismatch 2 1)) := by
  intro l f q s
  have hprobes : ∀ x ∈ Probes.vectors 2, Validate.Passes ⟨f, l⟩ q .exact x := by decide +kernel
  have hagain : Validate.distinctTrials s.validation l.size (some [⟨[1, 0]⟩, ⟨[1, 0]⟩]) =
      Probes.vectors 2 := by decide
  have hvalue : PseudoBoolean.HasValue ⟨f, l⟩ ⟨[2, 0]⟩ 0 := ⟨_, rfl, by decide +kernel, rfl⟩
  have henergy : q.energy [2, 0] = .ok 1 := by decide +kernel
  refine ⟨?_, ?_, ?_, ?_⟩
  · exact ((validate_first_event s f (.zeros 1) l none).1 (by decide)).1
  · have hall := (((validate_first_event s f q l _).2.1 rfl rfl).2.2.1 (hagain ▸ hprobes)).1
    rwa [hagain] at hall
  · exact (((validate_first_event s f q l _).2.1 rfl rfl).2.2.2 (Probes.vectors 2) _ [⟨[1]⟩] _
      (by decide) hprobes (.mismatch hvalue henergy (by decide +kernel))).1
  · exact (((validate_first_event s f q l _).2.1 rfl rfl).2.2.2 (Probes.vectors 2) _ [] _
      (by decide) hprobes (.length (by decide))).1

end QuboProbe
