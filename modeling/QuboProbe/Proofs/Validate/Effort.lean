/-
  QuboProbe.Proofs.Validate.Effort

  More effort hides nothing.  A walk that stops is not affected by what it
  would have tried next (`Validate.walk_append`), and more random strings or
  more samples only come behind those that were tried before
  (`Validate.prefix_trialsFrom_drawing`).  The other way round, a walk that nothing
  stopped has passed everything that it came to (`Validate.passes_of_walk`),
  and after all strings of zeros and ones there is nothing left to find.

  The coins come from any source here (`validateFrom`); the library's own
  source is one of them.
-/
import QuboProbe.Proofs.Validate.Exhaustive
import QuboProbe.Proofs.Validate.FirstEvent

namespace QuboProbe

/-! ## Supplies that begin alike -/

theorem Supply.eq_append_of_prefix {β : Type} {s s' : Supply β} (h : s.toList <+: s'.toList) :
    ∃ more : Supply β, s' = s.append fun _ => more := by
  obtain ⟨rest, hrest⟩ := h
  refine ⟨.ofList rest, ?_⟩
  rw [← ofList_toList s', ← ofList_toList (s.append fun _ => .ofList rest), toList_append,
    toList_ofList, hrest]

/-! ## Coins from any source -/

namespace Coins

variable {σ : Type}

theorem binary_bits (next : σ → Bool × σ) (n : Nat) (s : σ) :
    (⟨(bits next n s).1⟩ : BitString).Binary n := by
  induction n generalizing s with
  | zero => exact ⟨rfl, fun b hb => absurd hb List.not_mem_nil⟩
  | succ n ih =>
    obtain ⟨hlength, hbit⟩ := ih (next s).2
    refine ⟨congrArg (· + 1) hlength, fun b hb => ?_⟩
    rcases List.mem_cons.1 hb with rfl | hb
    · cases (next s).1
      · exact .inl rfl
      · exact .inr rfl
    · exact hbit b hb

theorem binary_of_mem_strings {next : σ → Bool × σ} {n k : Nat} {s : σ} {x : BitString}
    (hx : x ∈ strings next n k s) : x.Binary n := by
  induction k generalizing s with
  | zero => exact absurd hx List.not_mem_nil
  | succ k ih =>
    rcases List.mem_cons.1 hx with rfl | hx
    · exact binary_bits next n s
    · exact ih hx

end Coins

/-- The settings with another number of random bit strings. -/
def Settings.drawing {α : Type} (s : Settings α) (count : Nat) : Settings α :=
  { s with validation := { s.validation with randomSamples := count } }

namespace Validate

section

variable {α σ : Type}

/-- More random strings come behind the others. -/
theorem prefix_trialsFrom_drawing (next : σ → Bool × σ) (start : UInt64 → σ) (s : Settings α)
    {k k' : Nat} (hk : k ≤ k') (n : Nat) :
    (trialsFrom next start (s.drawing k).validation n none).toList <+:
      (trialsFrom next start (s.drawing k').validation n none).toList := by
  rw [toList_trialsFrom, toList_trialsFrom]
  refine (List.prefix_append_right_inj _).2 ?_
  -- whether all strings are tried does not depend on the number
  have hmode : isExhaustive (s.drawing k').validation n =
    isExhaustive (s.drawing k).validation n := rfl
  rw [further, further, hmode]
  by_cases h : isExhaustive (s.drawing k).validation n
  · rw [if_pos h, if_pos h]
  · rw [if_neg h, if_neg h, Coins.toList_draws, Coins.toList_draws]
    exact Coins.strings_prefix_strings next n hk _

/-- More samples come behind the others. -/
theorem prefix_trialsFrom_append (next : σ → Bool × σ) (start : UInt64 → σ) (effort : Effort α)
    (n : Nat) (xs ys : List BitString) :
    (trialsFrom next start effort n (some xs)).toList <+:
      (trialsFrom next start effort n (some (xs ++ ys))).toList := by
  rw [toList_trialsFrom, toList_trialsFrom, further, further, Supply.toList_ofList,
    Supply.toList_ofList, ← List.append_assoc]
  exact List.prefix_append _ ys

/-- Unless a sample is something else, only strings of zeros and ones are tried. -/
theorem binary_of_mem_trialsFrom {next : σ → Bool × σ} {start : UInt64 → σ} {effort : Effort α}
    {n : Nat} {samples : Option (List BitString)}
    (hsamples : ∀ xs, samples = some xs → ∀ x ∈ xs, x.Binary n) {x : BitString}
    (hx : x ∈ (trialsFrom next start effort n samples).toList) : x.Binary n := by
  rw [toList_trialsFrom, List.mem_append] at hx
  rcases hx with hx | hx
  · obtain ⟨t, -, -, rfl⟩ := Probes.mem_vectors.1 hx
    exact BitString.binary_ofSet n t
  · cases samples with
    | some xs =>
      rw [further, Supply.toList_ofList] at hx
      exact hsamples xs rfl x hx
    | none =>
      rw [further] at hx
      split at hx
      · exact mem_everyString.1 hx
      · rw [Coins.toList_draws] at hx
        exact Coins.binary_of_mem_strings hx

/-- Below the limit, every string of zeros and ones is tried. -/
theorem mem_trialsFrom_of_binary (next : σ → Bool × σ) (start : UInt64 → σ) {effort : Effort α}
    {n : Nat} (hlimit : n ≤ effort.exhaustiveLimit) (hsize : n < 64) {x : BitString}
    (hx : x.Binary n) : x ∈ (trialsFrom next start effort n none).toList := by
  have hexhaustive : isExhaustive effort n = true := by simp [isExhaustive, hlimit, hsize]
  rw [toList_trialsFrom, further, if_pos hexhaustive]
  exact List.mem_append_right _ (mem_everyString.2 hx)

end

/-! ## Walks that stop and walks that do not -/

variable {ε α : Type} [Zero α] [Add α] [Sub α] [Mul α] [BEq α] [Cause ε] [Scalar α]
  {g : PseudoBoolean ε α} {q : Qubo α} {tolerance : Tolerance α} {m : Memo α}

/-- What comes behind matters only to a walk that nothing stops before. -/
theorem walk_append (supply : Supply BitString) (more : Unit → Supply BitString) (checked : Nat)
    (m : Memo α) (hstops : ∀ k, (walk g q tolerance supply checked m).1 ≠ .ok ⟨k, none⟩) :
    walk g q tolerance (supply.append more) checked m = walk g q tolerance supply checked m := by
  -- the walk is in the same state at every string until it stops
  induction supply generalizing checked m with
  | exhausted => exact absurd rfl (hstops checked)
  | item x rest ih =>
    rw [Supply.append, walk, walk]
    rw [walk] at hstops
    split
    · rename_i hknown
      rw [if_pos hknown] at hstops
      exact ih () checked m hstops
    · rename_i hnew
      rw [if_neg hnew] at hstops
      split
      · rfl
      · rename_i expected m' hrun
        rw [hrun] at hstops
        split
        · rfl
        · rename_i actual henergy
          rw [henergy] at hstops
          split
          · rename_i haccepts
            dsimp only at hstops
            rw [if_pos haccepts] at hstops
            exact ih () (checked + 1) m' hstops
          · rfl

/-- On whatever a walk came to that nothing stopped, value and energy count as equal. -/
theorem passes_of_walk (hrows : q.matrix.rows = g.arity) (hcols : q.matrix.cols = g.arity)
    (hm : m.Settled g.evaluate) (hok : ∀ y ∈ m.started, ∃ v, g.evaluate y = .ok v)
    {supply : Supply BitString} {checked k : Nat}
    (hwalk : (walk g q tolerance supply checked m).1 = .ok ⟨k, none⟩) :
    ∀ y ∈ supply.toList, y ∉ m.started → Passes g q tolerance y := by
  induction supply generalizing m checked with
  | exhausted => exact fun y hy => absurd hy List.not_mem_nil
  | item x rest ih =>
    intro y hy hnew
    rw [Supply.toList_item] at hy
    by_cases hx : x ∈ m.started
    · rw [walk_known hm hok hx] at hwalk
      have hne : y ≠ x := fun h => hnew (h ▸ hx)
      exact ih () hm hok hwalk y ((List.mem_cons.1 hy).resolve_left hne) hnew
    · have hpasses : Passes g q tolerance x := by
        refine (passes_iff_not_stops hrows hcols).2 fun r hstops => ?_
        rw [walk_stop hm hok hx hstops] at hwalk
        cases r <;> cases hwalk
      obtain ⟨hok', hnext⟩ := walk_pass hm hok hx hpasses rest checked
      rw [hnext] at hwalk
      by_cases hyx : y = x
      · exact hyx ▸ hpasses
      · refine ih () (hm.look x) hok' hwalk y ((List.mem_cons.1 hy).resolve_left hyx) ?_
        rw [(Memo.look_new hm hx).2]
        exact List.not_mem_cons_of_ne_of_not_mem hyx hnew

variable {f : Objective ε α} {l : Layout}

/-- A validation ends with an error or with a difference. -/
def Fails (run : Run α (Except (Failure ε α) (Report α))) : Prop :=
  (∃ e, run.result = .error e) ∨ ∃ k d, run.result = .ok ⟨k, some d⟩

/-- Trying more behind them does not change a validation that fails. -/
theorem along_eq_of_prefix {supply supply' : Supply BitString}
    (hbegins : supply.toList <+: supply'.toList)
    (hfails : Fails (along supply tolerance f q l)) :
    along supply' tolerance f q l = along supply tolerance f q l := by
  obtain ⟨more, rfl⟩ := Supply.eq_append_of_prefix hbegins
  refine along_eq_of_walk fun hsize => walk_append supply _ 0 .empty fun k hwalk => ?_
  rw [← (along_of_size hsize supply tolerance).1] at hwalk
  rcases hfails with ⟨e, he⟩ | ⟨k', d, hd⟩
  · cases he.symm.trans hwalk
  · cases hd.symm.trans hwalk

/-- A validation that nothing stops has compared each string once. -/
theorem along_of_passes (hsize : q.size = l.size) {supply : Supply BitString}
    (hpasses : ∀ y ∈ supply.toList, Passes ⟨f, l⟩ q tolerance y) :
    (along supply tolerance f q l).result = .ok ⟨supply.toList.eraseDups.length, none⟩ := by
  -- a validation starts with a memo that holds nothing, so all that it tries is new
  have hnew : newIn (Memo.empty : Memo α).started supply.toList = supply.toList.eraseDups :=
    newIn_nil _
  have hall : ∀ y ∈ newIn (Memo.empty : Memo α).started supply.toList,
      Passes ⟨f, l⟩ q tolerance y := fun y hy => by
    rw [hnew, List.mem_eraseDups] at hy
    exact hpasses y hy
  have hreport := (walk_all (Memo.Settled.empty) (fun y hy => absurd hy List.not_mem_nil) hall 0).1
  rw [hnew, Nat.zero_add] at hreport
  exact (along_of_size hsize supply tolerance).1.trans hreport

/-- A validation is decided by the first string that stops it. -/
theorem along_of_stops (hsize : q.size = l.size) {supply : Supply BitString}
    {before after : List BitString} {x : BitString}
    (hsplit : supply.toList.eraseDups = before ++ x :: after)
    (hbefore : ∀ y ∈ before, Passes ⟨f, l⟩ q tolerance y)
    {r : Except (Failure ε α) (Mismatch α)} (hstops : Stops ⟨f, l⟩ q tolerance x r) :
    (along supply tolerance f q l).result = r.map fun d => ⟨before.length + 1, some d⟩ := by
  have hnew : newIn (Memo.empty : Memo α).started supply.toList = before ++ x :: after :=
    (newIn_nil _).trans hsplit
  have hreport := (walk_first (Memo.Settled.empty) (fun y hy => absurd hy List.not_mem_nil) hnew
    hbefore hstops 0).1
  rw [Nat.zero_add] at hreport
  exact (along_of_size hsize supply tolerance).1.trans hreport

/-- A validation of a model of the right size that finds no difference does not find any among
strings that it has tried. -/
theorem along_ok_of_subset (hrows : q.matrix.rows = l.size) (hcols : q.matrix.cols = l.size)
    {supply supply' : Supply BitString} (hsubset : supply'.toList ⊆ supply.toList) {k : Nat}
    (hresult : (along supply tolerance f q l).result = .ok ⟨k, none⟩) :
    (along supply' tolerance f q l).result = .ok ⟨supply'.toList.eraseDups.length, none⟩ := by
  have hsize : q.size = l.size := hrows
  rw [(along_of_size hsize supply tolerance).1] at hresult
  refine along_of_passes hsize fun y hy => ?_
  exact passes_of_walk hrows hcols Memo.Settled.empty (fun y hy => absurd hy List.not_mem_nil)
    hresult y (hsubset hy) List.not_mem_nil

end Validate

/-! ## More effort -/

variable {ε α : Type} [Zero α] [Add α] [Sub α] [Mul α] [BEq α] [Cause ε] [Scalar α]

/-- `validate`, with coins from any source that a seed starts. -/
def validateFrom {σ : Type} (next : σ → Bool × σ) (start : UInt64 → σ) (s : Settings α)
    (f : Objective ε α) (q : Qubo α) (l : Layout) (samples : Option (List BitString)) :
    Run α (Except (Failure ε α) (Report α)) :=
  Validate.along (Validate.trialsFrom next start s.validation l.size samples)
    s.validation.tolerance f q l

theorem validate_eq_validateFrom (s : Settings α) (f : Objective ε α) (q : Qubo α) (l : Layout)
    (samples : Option (List BitString)) :
    validate s f q l samples = validateFrom Coins.Stream.next Coins.ofSeed s f q l samples := rfl

/-- More effort hides nothing, whatever the source of the coins.  A validation that ends with an
error or a difference is the same with more random strings, and with more samples behind the
others.  One that has tried every string of zeros and ones and found no difference finds none with
any such samples, nor with any number of random strings from any seed. -/
theorem validate_more_effort (f : Objective ε α) (q : Qubo α) (l : Layout)
    (hrows : q.matrix.rows = l.size) (hcols : q.matrix.cols = l.size) :
    (∀ s samples, validate s f q l samples =
      validateFrom Coins.Stream.next Coins.ofSeed s f q l samples) ∧
    ∀ {σ : Type} (next : σ → Bool × σ) (start : UInt64 → σ) (s : Settings α),
      (∀ k k', k ≤ k' →
        Validate.Fails (validateFrom next start (s.drawing k) f q l none) →
        validateFrom next start (s.drawing k') f q l none =
          validateFrom next start (s.drawing k) f q l none) ∧
      (∀ xs ys, Validate.Fails (validateFrom next start s f q l (some xs)) →
        validateFrom next start s f q l (some (xs ++ ys)) =
          validateFrom next start s f q l (some xs)) ∧
      (l.size ≤ s.validation.exhaustiveLimit → l.size < 64 →
        ∀ k, (validateFrom next start s f q l none).result = .ok ⟨k, none⟩ →
        ∀ {τ : Type} (next' : τ → Bool × τ) (start' : UInt64 → τ) (s' : Settings α)
          (samples : Option (List BitString)),
          s'.validation.tolerance = s.validation.tolerance →
          (∀ xs, samples = some xs → ∀ x ∈ xs, x.Binary l.size) →
          (validateFrom next' start' s' f q l samples).result =
            .ok ⟨(Validate.trialsFrom next' start' s'.validation l.size
              samples).toList.eraseDups.length, none⟩) := by
  refine ⟨fun s samples => validate_eq_validateFrom s f q l samples, fun next start s =>
    ⟨fun k k' hk hfails => ?_, fun xs ys hfails => ?_,
      fun hlimit hsize k hresult τ next' start' s' samples htolerance hsamples => ?_⟩⟩
  · exact Validate.along_eq_of_prefix
      (Validate.prefix_trialsFrom_drawing next start s hk l.size) hfails
  · exact Validate.along_eq_of_prefix
      (Validate.prefix_trialsFrom_append next start s.validation l.size xs ys) hfails
  · rw [validateFrom, htolerance]
    refine Validate.along_ok_of_subset hrows hcols (fun x hx => ?_) hresult
    exact Validate.mem_trialsFrom_of_binary next start hlimit hsize
      (Validate.binary_of_mem_trialsFrom hsamples hx)

/-- The product of three bits and the model that is zero everywhere: they differ on three ones
alone, which a coin that always shows heads draws at once, so that nothing changes with a thousand
more strings or with a sample behind it that does not decode.  The model of the number itself has
passed all strings, and so it passes every sample and every draw. -/
theorem validate_more_effort_product :
    let l : Layout := ⟨[⟨"x", .unsigned, 3, 0⟩], 3⟩
    let f : Objective CodingError ℚ := fun a => (a.int "x").map fun v => if v = 7 then 1 else 0
    let f' : Objective CodingError ℚ := fun a => (a.int "x").map fun v => (v.toInt : ℚ)
    let q : Qubo ℚ := .zeros 3
    let q' : Qubo ℚ := ⟨⟨3, 3, #[1, 0, 0, 0, 2, 0, 0, 0, 4], rfl⟩, 0⟩
    let s : Settings ℚ := ⟨false, 0, ⟨1, 0, 0, .exact⟩⟩
    let s' : Settings ℚ := ⟨false, 0, ⟨1, 0, 12, .exact⟩⟩
    let heads : Unit → Bool × Unit := fun u => (true, u)
    let start : UInt64 → Unit := fun _ => ()
    (validateFrom heads start (s.drawing 1001) f q l none).result =
        .ok ⟨8, some ⟨⟨[1, 1, 1]⟩, 1, 0⟩⟩ ∧
      (validateFrom heads start s f q l (some [⟨[1, 1, 1]⟩, ⟨[1]⟩])).result =
        .ok ⟨8, some ⟨⟨[1, 1, 1]⟩, 1, 0⟩⟩ ∧
      (validateFrom heads start s' f' q' l none).result = .ok ⟨8, none⟩ ∧
      (∃ k, (validateFrom heads start s f' q' l (some [⟨[1, 1, 1]⟩])).result = .ok ⟨k, none⟩) ∧
      ∃ k, (validate (s.drawing 1000) f' q' l none).result = .ok ⟨k, none⟩ := by
  intro l f f' q q' s s' heads start
  obtain ⟨-, heffort⟩ := validate_more_effort f q l rfl rfl
  obtain ⟨hsame, heffort'⟩ := validate_more_effort f' q' l rfl rfl
  obtain ⟨hdrawn, hsampled, -⟩ := heffort heads start s
  obtain ⟨-, -, hall⟩ := heffort' heads start s'
  have hprobes : ∀ x ∈ Probes.vectors 3, Validate.Passes ⟨f, l⟩ q .exact x := by decide +kernel
  have hstops : Validate.Stops ⟨f, l⟩ q .exact ⟨[1, 1, 1]⟩ (.ok ⟨⟨[1, 1, 1]⟩, 1, 0⟩) := by
    refine .mismatch ⟨_, rfl, ?_, rfl⟩ ?_ ?_ <;> decide +kernel
  have hdrawnOne : (Validate.trialsFrom heads start (s.drawing 1).validation l.size
      none).toList.eraseDups = Probes.vectors 3 ++ [⟨[1, 1, 1]⟩] := by decide
  have hsampledOne : (Validate.trialsFrom heads start s.validation l.size
      (some [⟨[1, 1, 1]⟩])).toList.eraseDups = Probes.vectors 3 ++ [⟨[1, 1, 1]⟩] := by decide
  have hone : (validateFrom heads start (s.drawing 1) f q l none).result =
      .ok ⟨8, some ⟨⟨[1, 1, 1]⟩, 1, 0⟩⟩ := Validate.along_of_stops rfl hdrawnOne hprobes hstops
  have hsample : (validateFrom heads start s f q l (some [⟨[1, 1, 1]⟩])).result =
      .ok ⟨8, some ⟨⟨[1, 1, 1]⟩, 1, 0⟩⟩ := Validate.along_of_stops rfl hsampledOne hprobes hstops
  have hevery : (validateFrom heads start s' f' q' l none).result = .ok ⟨8, none⟩ :=
    Validate.along_of_passes rfl (by decide +kernel)
  refine ⟨?_, ?_, hevery, ?_, ?_⟩
  · rw [hdrawn 1 1001 (by decide) (.inr ⟨_, _, hone⟩), hone]
  · rw [← List.singleton_append, hsampled [⟨[1, 1, 1]⟩] [⟨[1]⟩] (.inr ⟨_, _, hsample⟩), hsample]
  · refine ⟨_, hall (by decide) (by decide) 8 hevery heads start s _ rfl fun xs hxs => ?_⟩
    obtain rfl := Option.some.inj hxs
    decide
  · rw [hsame]
    exact ⟨_, hall (by decide) (by decide) 8 hevery Coins.Stream.next Coins.ofSeed
      (s.drawing 1000) none rfl nofun⟩

end QuboProbe
