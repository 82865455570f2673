/-
  QuboProbe.Proofs.Compile.Trace

  What a serial compilation evaluates, in order: the probes as they are listed,
  up to the first on which the objective fails (`compile_serial`).  Each place
  has one probe of its own, and the others that its coefficient asks for are
  those of places before it (`Probes.known_before`); so the places in turn
  bring up the probes in turn, and everything else is answered from the memo.
-/
import QuboProbe.Proofs.Compile.Canonical
import QuboProbe.Proofs.Compile.Failures
import QuboProbe.Proofs.Evaluation
import QuboProbe.Proofs.Layout.RoundTrip
import QuboProbe.Proofs.Memo.Trace

namespace QuboProbe

theorem Probes.tally_eq (n : Nat) :
    (tally n).misses = 1 + n + n * (n - 1) / 2 ∧
      (tally n).hits + (tally n).misses = 1 + 2 * n + 2 * n * (n - 1) := by
  have hvectors := length_vectors n
  have hpairs := two_mul_length_pairs n
  have hprobes := length_flatMap_ofPlace n
  refine ⟨hvectors, ?_⟩
  have hproduct : 2 * n * (n - 1) = 4 * (pairs n).length := by
    rw [Nat.mul_assoc, ← hpairs]
    omega
  simp only [tally]
  omega

/-! ## Coefficients in turn -/

namespace PseudoBoolean

variable {ε α : Type} [Add α] [Sub α] [Cause ε] [Scalar α] {g : PseudoBoolean ε α}
  {m : Memo α}

omit [Cause ε] in
/-- The coefficient of a place asks for the probes of the place in turn. -/
theorem coefficient_follows (g : PseudoBoolean ε α) (p : Place) :
    (g.coefficient p).Follows g.evaluate (Probes.ofPlace g.arity p) := by
  obtain ⟨i, j⟩ := p
  by_cases hij : i = j
  · rw [Probes.ofPlace, if_pos hij, coefficient]
    simp only [if_pos hij]
    exact .lookup_andThen fun zero => .lookup_andThen fun gi => .value _
  · rw [Probes.ofPlace, if_neg hij, coefficient]
    simp only [if_neg hij]
    exact .lookup_andThen fun zero => .lookup_andThen fun gi =>
      .lookup_andThen fun gj => .lookup_andThen fun gij => .value _

/-- Places in turn bring up their own probes in turn, if the others that each of them reads are
known by then. -/
theorem inOrder_evaluates {places : List Place} (hm : m.Settled g.evaluate)
    (hok : m.Unfailing g.evaluate)
    (hknown : ∀ before p after, places = before ++ p :: after →
      ∀ x ∈ Probes.known g.arity p, x ∈ before.map (Probes.own g.arity) ∨ x ∈ m.started)
    (hnodup : (places.map (Probes.own g.arity) ++ m.started).Nodup) :
    m.Evaluates g.evaluate (g.inOrder places m).2 (places.map (Probes.own g.arity))
      (g.inOrder places m).1 := by
  -- what is known grows by the own probe of each place, so the memo of the induction stands for
  -- all places before
  induction places generalizing m with
  | nil => exact .all (fun x hx => absurd hx List.not_mem_nil) hm hok rfl []
  | cons p places ih =>
    rw [List.map_cons, List.cons_append, List.nodup_cons, List.mem_append, not_or] at hnodup
    have hfollows := coefficient_follows g p
    rw [Probes.ofPlace_eq] at hfollows
    have hfirst := hfollows.evaluates hm hok
      (fun x hx => (hknown [] p places rfl x hx).resolve_left List.not_mem_nil) hnodup.1.2
    rw [inOrder]
    obtain ⟨r, m', hrun⟩ : ∃ r m', (g.coefficient p).run m = (r, m') := ⟨_, _, rfl⟩
    rw [hrun] at hfirst ⊢
    rw [List.map_cons, ← List.singleton_append]
    cases r with
    | error e =>
      -- the places behind are not asked for
      exact hfirst.stop _
    | ok v =>
      obtain ⟨hsettled, hunfailing, hstarted⟩ := hfirst.of_ok
      rw [List.reverse_singleton, List.singleton_append] at hstarted
      have hrest := ih hsettled hunfailing
        (fun before q after hplaces x hx => by
          -- this place is now among those before
          have hbefore := hknown (p :: before) q after (by rw [hplaces, List.cons_append]) x hx
          rw [List.map_cons, List.mem_cons] at hbefore
          rw [hstarted, List.mem_cons]
          tauto)
        (by
          rw [hstarted]
          exact List.nodup_middle.2 (List.nodup_cons.2
            ⟨by rw [List.mem_append, not_or]; exact hnodup.1, hnodup.2⟩))
      have hall := hfirst.append hrest
      dsimp only
      cases hplaces : g.inOrder places m' with
      | mk r m'' =>
        rw [hplaces] at hall
        cases r with
        | error e => exact hall
        | ok vs => exact hall.map fun vs => (p, v) :: vs

/-! ## The whole compilation -/

variable [Zero α]

omit [Add α] [Sub α] in
theorem offset_evaluates {offset : α} (h : g.evaluate (.zeros g.arity) = .ok offset) :
    (Memo.empty : Memo α).Evaluates g.evaluate g.offsetMemo [.zeros g.arity]
      (.ok offset : Except (Failure ε α) α) :=
  .single h (settled_offsetMemo g) (unfailing_offsetMemo h) (started_offsetMemo g) offset

/-- A serial compilation evaluates the probes in turn. -/
theorem compileWith_evaluates {s : Settings α} (hserial : s.parallel = false ∨ g.arity ≤ 1) :
    (Memo.empty : Memo α).Evaluates g.evaluate (g.compileWith s).2 (Probes.vectors g.arity)
      (g.compileWith s).1 := by
  rw [Probes.vectors_eq_cons, ← List.singleton_append, compileWith, run_offset]
  cases hzero : g.evaluate (.zeros g.arity) with
  | error e =>
    exact .first hzero (started_offsetMemo g) _
  | ok offset =>
    -- the places are shared out among workers only if there is more than one bit
    have hone : ¬ (s.parallel = true ∧ 1 < g.arity) := by
      rintro ⟨hparallel, hsize⟩
      rcases hserial with hserial | hserial
      · cases hparallel.symm.trans hserial
      · omega
    have hvectors := Probes.nodup_vectors g.arity
    rw [Probes.vectors_eq_cons] at hvectors
    have hcells := inOrder_evaluates (settled_offsetMemo g) (unfailing_offsetMemo hzero)
      (fun before p after hplaces x hx => by
        rw [started_offsetMemo, List.mem_singleton]
        exact Probes.known_before hplaces x hx)
      (by
        rw [started_offsetMemo]
        exact (List.perm_append_singleton _ _).nodup_iff.2 hvectors)
    have hall := (offset_evaluates hzero).append hcells
    dsimp only
    rw [coefficients, if_neg hone]
    cases hplaces : g.inOrder (Probes.cells g.arity) g.offsetMemo with
    | mk r m' =>
      rw [hplaces] at hall
      have hmodel := hall.map fun vs => (⟨assemble g.arity offset vs, m'.tally⟩ : Compilation α)
      cases r <;> exact hmodel

end PseudoBoolean

variable {ε α : Type} [Zero α] [Add α] [Sub α] [Cause ε] [Scalar α]

omit [Zero α] [Add α] [Sub α] [Cause ε] [Scalar α] in
/-- Over a layout of the library's own encodings, the objective is asked about different values on
different bits. -/
theorem pairwise_questions (f : Objective ε α) {l : Layout}
    (hl : l.Built fun e _ => e.BuiltIn) {xs : List BitString} (hxs : xs.Nodup)
    (hbinary : ∀ x ∈ xs, x.Binary l.size) :
    (PseudoBoolean.questions ⟨f, l⟩ xs).Pairwise fun a b => (a == b) = false := by
  have hlawful : l.Lawful := fun v hv => (hl.of_mem hv).1.lawful (hl.of_mem hv).2
  rw [PseudoBoolean.questions, List.pairwise_filterMap]
  refine hxs.imp_of_mem fun {x y} hx hy hne a ha b hb => ?_
  have hdecode {z : BitString} {c : Valuation} (h : (l.decode z.bytes).toOption = some c) :
      l.decode z.bytes = .ok c := by
    cases hz : l.decode z.bytes with
    | error e =>
      rw [hz] at h
      cases h
    | ok c' =>
      rw [hz] at h
      exact congrArg Except.ok (Option.some.inj h)
  have hxa := hdecode ha
  have hyb := hdecode hb
  rw [← Bool.not_eq_true]
  intro hagrees
  -- what agrees is encoded alike, and each string is the encoding of what is decoded from it
  have hget := (Valuation.beq_iff (Layout.nodup_names_decode hxa)
    (Layout.nodup_names_decode hyb)).1 hagrees
  have hfields := Layout.encodeFields_decoded hl.wellFormed.contiguous hlawful (hbinary x hx)
    fun v hv => Layout.get?_decode hl.wellFormed (hbinary x hx).length_eq hxa hv
  have hfields' := Layout.encodeFields_decoded (a := a) hl.wellFormed.contiguous hlawful
    (hbinary y hy) fun v hv =>
      (hget v.name).trans (Layout.get?_decode hl.wellFormed (hbinary y hy).length_eq hyb hv)
  exact hne (congrArg BitString.mk (Except.ok.inj (hfields.symm.trans hfields')))

/-- A serial compilation evaluates the probes in the order in which they are listed, each once and
each with one question to the objective.  If the objective fails on none, all of them are
evaluated, and each of the other look-ups is a hit; over a layout of the library's own encodings
the questions are all different.  Otherwise the first probe on which it fails is the last that is
evaluated, and the result is that failure with what the objective itself was at fault with. -/
theorem compile_serial (s : Settings α) (f : Objective ε α) (l : Layout)
    (hserial : s.parallel = false ∨ l.size ≤ 1) :
    (compile s f l).evaluated <+: Probes.vectors l.size ∧
    (compile s f l).evaluated.Nodup ∧
    (PseudoBoolean.questions ⟨f, l⟩ (compile s f l).evaluated).map Except.ok =
      (compile s f l).evaluated.map (fun x => l.decode x.bytes) ∧
    ((∀ x ∈ Probes.vectors l.size, ¬ PseudoBoolean.FailsOn ⟨f, l⟩ x) →
      (compile s f l).evaluated = Probes.vectors l.size ∧
      (∃ c, (compile s f l).result = .ok c ∧
        c.tally.misses = 1 + l.size + l.size * (l.size - 1) / 2 ∧
        c.tally.hits + c.tally.misses = 1 + 2 * l.size + 2 * l.size * (l.size - 1)) ∧
      ((l.Built fun e _ => e.BuiltIn) →
        (PseudoBoolean.questions ⟨f, l⟩ (compile s f l).evaluated).Pairwise
          fun a b => (a == b) = false)) ∧
    ∀ before x after, Probes.vectors l.size = before ++ x :: after →
      (∀ y ∈ before, ¬ PseudoBoolean.FailsOn ⟨f, l⟩ y) → PseudoBoolean.FailsOn ⟨f, l⟩ x →
      (compile s f l).evaluated = before ++ [x] ∧
      ∃ fault, PseudoBoolean.FailsWith ⟨f, l⟩ x fault ∧
        (compile s f l).result = .error (.objective x fault) := by
  have htrace := PseudoBoolean.compileWith_evaluates (g := ⟨f, l⟩) hserial
  have hevaluated : (compile s f l).evaluated =
    (PseudoBoolean.compileWith ⟨f, l⟩ s).2.started.reverse := rfl
  have hbeginning : (compile s f l).evaluated <+: Probes.vectors l.size := htrace.started_prefix
  have hvalue {x : BitString} (hx : x ∈ Probes.vectors l.size)
      (hok : ¬ PseudoBoolean.FailsOn ⟨f, l⟩ x) : ∃ v, PseudoBoolean.evaluate ⟨f, l⟩ x = .ok v :=
    (PseudoBoolean.exists_value_iff (g := ⟨f, l⟩) (Probes.length_of_mem_vectors hx)).2 hok
  have hnodup := (Probes.nodup_vectors l.size).sublist hbeginning.sublist
  refine ⟨hbeginning, hnodup, ?_, fun hok => ⟨?_, ?_, fun hl => ?_⟩,
    fun before x after hsplit hbefore hx => ?_⟩
  · rw [PseudoBoolean.map_ok_questions, List.filter_eq_self.2 fun x hx => ?_]
    exact beq_iff_eq.2 (Probes.length_of_mem_vectors (hbeginning.subset hx))
  · exact htrace.started_of_values fun x hx => hvalue hx (hok x hx)
  · exact ⟨_, PseudoBoolean.compileWith_value (g := ⟨f, l⟩) hok s, Probes.tally_eq l.size⟩
  · refine pairwise_questions f hl hnodup fun x hx => ?_
    obtain ⟨t, -, -, rfl⟩ := Probes.mem_vectors.1 (hbeginning.subset hx)
    exact BitString.binary_ofSet l.size t
  · obtain ⟨fault, hfault⟩ := PseudoBoolean.failsOn_iff.1 hx
    have harity : Probes.vectors (PseudoBoolean.arity ⟨f, l⟩) = before ++ x :: after := hsplit
    rw [harity] at htrace
    obtain ⟨hstarted, hresult⟩ := htrace.started_of_failure
      (fun y hy => hvalue (hsplit ▸ List.mem_append_left _ hy) (hbefore y hy)) hfault.evaluate_eq
    exact ⟨hstarted, fault, hfault, hresult⟩

/-- The square of a number of two bits takes nine look-ups, four of which evaluate.  An objective
that asks for a name that is not there once its number is two fails on the third probe, and the
fourth is not evaluated. -/
theorem compile_serial_square :
    let l : Layout := ⟨[⟨"x", .unsigned, 2, 0⟩], 2⟩
    let square : Objective CodingError ℚ := fun a => (a.int "x").map fun v => (v.toInt : ℚ) ^ 2
    let guarded : Objective CodingError ℚ := fun a =>
      (a.int "x").bind fun v => if v.toInt = 2 then (a.int "c").map fun _ => 0 else .ok 0
    ((∃ c, (compile (.serial 0) square l).result = .ok c ∧ c.tally.misses = 4 ∧
        c.tally.hits + c.tally.misses = 9) ∧
      (PseudoBoolean.questions ⟨square, l⟩ (compile (.serial 0) square l).evaluated).Pairwise
        fun a b => (a == b) = false) ∧
    (compile (.serial 0) guarded l).evaluated = [⟨[0, 0]⟩, ⟨[1, 0]⟩, ⟨[0, 1]⟩] ∧
      ∃ fault, PseudoBoolean.FailsWith ⟨guarded, l⟩ ⟨[0, 1]⟩ fault ∧
        (compile (.serial 0) guarded l).result = .error (.objective ⟨[0, 1]⟩ fault) := by
  intro l square guarded
  have hvalue {g : PseudoBoolean CodingError ℚ} {x : BitString} (hx : x.length = g.arity)
      (h : (g.evaluate x).toBool = true) : ¬ g.FailsOn x := by
    refine (PseudoBoolean.exists_value_iff hx).1 ?_
    cases hev : g.evaluate x with
    | ok v => exact ⟨v, rfl⟩
    | error e =>
      rw [hev] at h
      cases h
  have hadd : Layout.empty.add "x" .unsigned 2 = .ok l := rfl
  have hbuilt : l.Built fun e _ => e.BuiltIn := .add .empty .unsigned hadd
  refine ⟨?_, ?_⟩
  · have hsquare : ∀ x ∈ Probes.vectors l.size, ¬ PseudoBoolean.FailsOn ⟨square, l⟩ x := by
      have hall : ∀ x ∈ Probes.vectors l.size,
          (PseudoBoolean.evaluate ⟨square, l⟩ x).toBool = true := by decide +kernel
      exact fun x hx => hvalue (Probes.length_of_mem_vectors hx) (hall x hx)
    obtain ⟨-, ⟨c, hc, hmisses, hlookups⟩, hquestions⟩ :=
      (compile_serial (.serial 0) square l (.inl rfl)).2.2.2.1 hsquare
    exact ⟨⟨c, hc, by simpa [l] using hmisses, by simpa [l] using hlookups⟩, hquestions hbuilt⟩
  · refine (compile_serial (.serial 0) guarded l (.inl rfl)).2.2.2.2 [⟨[0, 0]⟩, ⟨[1, 0]⟩]
      ⟨[0, 1]⟩ [⟨[1, 1]⟩] (by decide) (fun y hy => ?_) ?_
    · have hall : ∀ y ∈ ([⟨[0, 0]⟩, ⟨[1, 0]⟩] : List BitString), y.length = 2 ∧
          (PseudoBoolean.evaluate ⟨guarded, l⟩ y).toBool = true := by decide +kernel
      exact hvalue (hall y hy).1 (hall y hy).2
    · exact ⟨_, rfl, .inl ⟨_, rfl⟩⟩

end QuboProbe
