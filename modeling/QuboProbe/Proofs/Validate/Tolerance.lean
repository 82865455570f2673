/-
  QuboProbe.Proofs.Validate.Tolerance

  The same validation under two tolerances.  A walk that finds no difference
  goes the same way under any tolerance that accepts more
  (`Validate.walk_of_accepts`), and every tolerance accepts what is the same
  number.  A walk is not affected by how a tolerance judges strings that it
  does not come to (`Validate.walk_congr`).
-/
import QuboProbe.Proofs.ExactInteger
import QuboProbe.Proofs.Validate.Effort

namespace QuboProbe

/-- The settings with another tolerance. -/
def Settings.tolerating {α : Type} (s : Settings α) (t : Tolerance α) : Settings α :=
  { s with validation := { s.validation with tolerance := t } }

namespace Validate

variable {ε α : Type} [Zero α] [Add α] [Sub α] [Mul α] [BEq α] [Cause ε] [Scalar α]
  {g : PseudoBoolean ε α} {q : Qubo α} {t t' : Tolerance α} {m : Memo α} {x : BitString}

/-! ## Tolerances that accept more -/

theorem walk_of_accepts (hmore : ∀ v e, t.accepts v e = true → t'.accepts v e = true)
    (supply : Supply BitString) (checked : Nat) (m : Memo α) {k : Nat}
    (hpasses : (walk g q t supply checked m).1 = .ok ⟨k, none⟩) :
    walk g q t' supply checked m = walk g q t supply checked m := by
  -- both walks have counted and evaluated the same at every string
  induction supply generalizing checked m with
  | exhausted => rfl
  | item x rest ih =>
    rw [walk] at hpasses
    rw [walk, walk]
    split
    · rename_i hknown
      rw [if_pos hknown] at hpasses
      exact ih () checked m hpasses
    · rename_i hnew
      rw [if_neg hnew] at hpasses
      split
      · rfl
      · rename_i expected m' hrun
        rw [hrun] at hpasses
        split
        · rfl
        · rename_i actual henergy
          rw [henergy] at hpasses
          dsimp only at hpasses
          by_cases haccepts : t.accepts expected actual = true
          · rw [if_pos haccepts] at hpasses
            rw [if_pos haccepts, if_pos (hmore expected actual haccepts)]
            exact ih () (checked + 1) m' hpasses
          · -- a difference would have been reported
            rw [if_neg haccepts] at hpasses
            cases hpasses

/-! ## Tolerances that judge alike -/

/-- What the evaluation of a new string leaves behind stays, if the walk goes on in that way. -/
theorem look_subset_walk (hm : m.Settled g.evaluate)
    (hok : ∀ y ∈ m.started, ∃ v, g.evaluate y = .ok v) (hx : x ∉ m.started)
    (rest : Unit → Supply BitString) (checked : Nat)
    (hrest : ∀ (m' : Memo α) (checked' : Nat), m'.Settled g.evaluate →
      (∀ y ∈ m'.started, ∃ v, g.evaluate y = .ok v) →
      m'.started ⊆ (walk g q t (rest ()) checked' m').2.started) :
    (m.look g.evaluate x).2.started ⊆ (walk g q t (.item x rest) checked m).2.started := by
  rw [walk_new hm hok hx]
  split
  · exact List.Subset.refl _
  · rename_i v hvalue
    split
    · exact List.Subset.refl _
    · split
      · exact hrest _ (checked + 1) (hm.look x) (exists_value_look hm hok hx hvalue)
      · exact List.Subset.refl _

/-- What has been evaluated stays evaluated. -/
theorem started_subset_walk (hm : m.Settled g.evaluate)
    (hok : ∀ y ∈ m.started, ∃ v, g.evaluate y = .ok v) (supply : Supply BitString)
    (checked : Nat) : m.started ⊆ (walk g q t supply checked m).2.started := by
  induction supply generalizing m checked with
  | exhausted => exact List.Subset.refl m.started
  | item x rest ih =>
    by_cases hx : x ∈ m.started
    · rw [walk_known hm hok hx]
      exact ih () hm hok checked
    · have hlook : m.started ⊆ (m.look g.evaluate x).2.started := by
        rw [(Memo.look_new hm hx).2]
        exact List.subset_cons_self x m.started
      refine List.Subset.trans hlook (look_subset_walk hm hok hx rest checked ?_)
      exact fun m' checked' hm' hok' => ih () hm' hok' checked'

/-- The string that a walk is at is evaluated. -/
theorem mem_started_walk (hm : m.Settled g.evaluate)
    (hok : ∀ y ∈ m.started, ∃ v, g.evaluate y = .ok v) (x : BitString)
    (rest : Unit → Supply BitString) (checked : Nat) :
    x ∈ (walk g q t (.item x rest) checked m).2.started := by
  by_cases hx : x ∈ m.started
  · exact started_subset_walk hm hok (.item x rest) checked hx
  · have hlook : x ∈ (m.look g.evaluate x).2.started := by
      rw [(Memo.look_new hm hx).2]
      exact List.mem_cons_self
    refine look_subset_walk hm hok hx rest checked ?_ hlook
    exact fun m' checked' hm' hok' => started_subset_walk hm' hok' (rest ()) checked'

variable (g q t t') in
/-- On this string both tolerances accept the value with the energy, or neither does. -/
def JudgeAlike (x : BitString) : Prop :=
  ∀ v e, g.HasValue x v → q.energy x.bytes = .ok e → t'.accepts v e = t.accepts v e

/-- Only what a walk evaluates matters to it. -/
theorem walk_congr (hm : m.Settled g.evaluate) (hok : ∀ y ∈ m.started, ∃ v, g.evaluate y = .ok v)
    (supply : Supply BitString) (checked : Nat)
    (halike : ∀ y ∈ (walk g q t supply checked m).2.started, JudgeAlike g q t t' y) :
    walk g q t' supply checked m = walk g q t supply checked m := by
  induction supply generalizing m checked with
  | exhausted => rfl
  | item x rest ih =>
    by_cases hx : x ∈ m.started
    · rw [walk_known hm hok hx] at halike
      rw [walk_known hm hok hx, walk_known hm hok hx]
      exact ih () hm hok checked halike
    · -- whatever comes of it, the string is evaluated, so the tolerances judge it alike
      have hjudge := halike x (mem_started_walk hm hok x rest checked)
      rw [walk_new hm hok hx] at halike
      rw [walk_new hm hok hx, walk_new hm hok hx]
      split
      · rfl
      · rename_i v hvalue
        rw [hvalue] at halike
        split
        · rfl
        · rename_i e henergy
          rw [henergy] at halike
          dsimp only at halike
          rw [hjudge v e (PseudoBoolean.hasValue_iff.2 hvalue) henergy]
          by_cases haccepts : t.accepts v e = true
          · rw [if_pos haccepts] at halike
            rw [if_pos haccepts, if_pos haccepts]
            exact ih () (hm.look x) (exists_value_look hm hok hx hvalue) (checked + 1) halike
          · rw [if_neg haccepts, if_neg haccepts]

/-! ## Whole validations -/

variable {f : Objective ε α} {l : Layout} {supply : Supply BitString}

theorem along_of_accepts (hmore : ∀ v e, t.accepts v e = true → t'.accepts v e = true) {k : Nat}
    (hpasses : (along supply t f q l).result = .ok ⟨k, none⟩) :
    along supply t' f q l = along supply t f q l := by
  refine along_eq_of_walk fun hsize => ?_
  rw [(along_of_size hsize supply t).1] at hpasses
  exact walk_of_accepts hmore supply 0 .empty hpasses

theorem along_congr
    (halike : ∀ x ∈ (along supply t f q l).evaluated, JudgeAlike ⟨f, l⟩ q t t' x) :
    along supply t' f q l = along supply t f q l := by
  refine along_eq_of_walk fun hsize => ?_
  rw [(along_of_size hsize supply t).2] at halike
  exact walk_congr Memo.Settled.empty (fun y hy => absurd hy List.not_mem_nil) supply 0
    fun x hx => halike x (List.mem_reverse.2 hx)

end Validate

/-! ## Floating point -/

variable {ε : Type} [Cause ε]

/-- The strings to try do not depend on the tolerance. -/
theorem validate_tolerating {α : Type} [Zero α] [Add α] [Sub α] [Mul α] [BEq α] [Scalar α]
    (s : Settings α) (t : Tolerance α) (f : Objective ε α) (q : Qubo α) (l : Layout)
    (samples : Option (List BitString)) : validate (s.tolerating t) f q l samples =
      Validate.along (Validate.trials s.validation l.size samples) t f q l := rfl

/-- From exact to lenient comparison.  A validation that finds no difference when values and
energies must be the same numbers goes the same way under every tolerance.  If all that it
evaluates is an integer below `2^52`, on both sides, then whatever it finds, the automatic
tolerance finds the same. -/
theorem validate_tolerances (s : Settings Binary64) (f : Objective ε Binary64) (q : Qubo Binary64)
    (l : Layout) (samples : Option (List BitString)) :
    (∀ k, (validate (s.tolerating .exact) f q l samples).result = .ok ⟨k, none⟩ →
      ∀ t, validate (s.tolerating t) f q l samples =
        validate (s.tolerating .exact) f q l samples) ∧
    ((∀ x ∈ (validate (s.tolerating .exact) f q l samples).evaluated, ∀ v e,
        PseudoBoolean.HasValue ⟨f, l⟩ x v → q.energy x.bytes = .ok e →
        v.IsSmallInteger ∧ e.IsSmallInteger) →
      validate (s.tolerating .auto) f q l samples =
        validate (s.tolerating .exact) f q l samples) := by
  simp only [validate_tolerating]
  refine ⟨fun k hpasses t => ?_, fun hsmall => ?_⟩
  · exact Validate.along_of_accepts (fun v e h => Tolerance.accepts_of_exact h t) hpasses
  · refine Validate.along_congr fun x hx v e hvalue henergy => ?_
    obtain ⟨hv, he⟩ := hsmall x hx v e hvalue henergy
    exact Tolerance.accepts_auto (Binary64.isExactInteger_iff.2 hv)
      (Binary64.isExactInteger_iff.2 he)

/-- A number of two bits.  Its model passes under any slack, however absurd; a model that is off by
one on its high bit is found out by the automatic tolerance at the same string. -/
theorem validate_tolerances_number :
    let l : Layout := ⟨[⟨"x", .unsigned, 2, 0⟩], 2⟩
    let two : Binary64 := ⟨0x4000000000000000⟩
    let three : Binary64 := ⟨0x4008000000000000⟩
    let f : Objective CodingError Binary64 := fun a =>
      (a.int "x").map fun v => [0, 1, two, three].getD v.toInt.toNat 0
    let q : Qubo Binary64 := ⟨⟨2, 2, #[1, 0, 0, two], rfl⟩, 0⟩
    let q' : Qubo Binary64 := ⟨⟨2, 2, #[1, 0, 0, three], rfl⟩, 0⟩
    let s : Settings Binary64 := ⟨false, 0, ⟨1000, 0, 12, .auto⟩⟩
    (∀ epsilon maxRelative, (validate (s.tolerating (.approx epsilon maxRelative)) f q l
      none).result = .ok ⟨4, none⟩) ∧
    (validate (s.tolerating .auto) f q' l none).result = .ok ⟨3, some ⟨⟨[0, 1]⟩, two, three⟩⟩ := by
  intro l two three f q q' s
  have hpasses : (validate (s.tolerating .exact) f q l none).result = .ok ⟨4, none⟩ := by
    have hall : ∀ x ∈ (Validate.trials s.validation l.size none).toList,
        Validate.Passes ⟨f, l⟩ q .exact x := by decide +kernel
    exact Validate.along_of_passes rfl hall
  have hdiffers : (validate (s.tolerating .exact) f q' l none).result =
      .ok ⟨3, some ⟨⟨[0, 1]⟩, two, three⟩⟩ := by
    have hsplit : (Validate.trials s.validation l.size none).toList.eraseDups =
      [⟨[0, 0]⟩, ⟨[1, 0]⟩] ++ ⟨[0, 1]⟩ :: [⟨[1, 1]⟩] := by decide
    have hstops : Validate.Stops ⟨f, l⟩ q' .exact ⟨[0, 1]⟩ (.ok ⟨⟨[0, 1]⟩, two, three⟩) := by
      refine .mismatch ⟨_, rfl, ?_, ?_⟩ ?_ ?_ <;> decide +kernel
    exact Validate.along_of_stops rfl hsplit (by decide +kernel) hstops
  have hsmall : ∀ x ∈ (validate (s.tolerating .exact) f q' l none).evaluated,
      (PseudoBoolean.evaluate ⟨f, l⟩ x).toOption.all Binary64.isExactInteger = true ∧
      (q'.energy x.bytes).toOption.all Binary64.isExactInteger = true := by decide +kernel
  refine ⟨fun epsilon maxRelative => ?_, ?_⟩
  · rw [(validate_tolerances s f q l none).1 4 hpasses]
    exact hpasses
  · rw [(validate_tolerances s f q' l none).2, hdiffers]
    intro x hx v e hvalue henergy
    obtain ⟨hv, he⟩ := hsmall x hx
    rw [hvalue.evaluate_eq] at hv
    rw [henergy] at he
    exact ⟨Binary64.isExactInteger_iff.1 hv, Binary64.isExactInteger_iff.1 he⟩

end QuboProbe
