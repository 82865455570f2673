/-
  QuboProbe.Proofs.Layout.Outcomes

  What a layout makes of any valuation.  `Layout.Outcome` lists the outcomes in
  the order in which they take precedence: a name that is no variable's, the
  first of them in the order of the valuation; then a variable that is not
  bound or whose encoding refuses its value, the first of them in the order of
  the layout; and otherwise the fields one after another.  Encoding has exactly
  these outcomes (`Layout.encode_outcomes`).

  The order of the entries of a valuation therefore shows in one place alone:
  which of several unknown names is reported.
-/
import QuboProbe.Proofs.Layout.Codec
import QuboProbe.Proofs.Valuation
import Mathlib.Data.List.Forall2

namespace QuboProbe

/-! ## Outcomes of one variable -/

/-- The variable is bound to a value that its encoding takes, with these bits. -/
def Variable.Takes (v : Variable) (a : Valuation) (bits : List UInt8) : Prop :=
  ∃ value, a.get? v.name = some value ∧ v.encoding.encode value v.width = .ok bits

/-- The error of a variable that is not bound, or whose encoding refuses its value.  A fault of the
value is marked with the name of the variable, and all other errors are passed on as they are. -/
inductive Variable.Refuses (v : Variable) (a : Valuation) : CodingError → Prop where
  | missing (hget : a.get? v.name = none) : Refuses v a (.missingVariable v.name)
  | value {value : Value} {scheme : String} {fault : DomainFault}
      (hget : a.get? v.name = some value)
      (hencode : v.encoding.encode value v.width = .error (.domain scheme fault)) :
      Refuses v a (.domain scheme (.variable v.name fault))
  | other {value : Value} {error : CodingError} (hget : a.get? v.name = some value)
      (hencode : v.encoding.encode value v.width = .error error)
      (hother : ∀ scheme fault, error ≠ .domain scheme fault) : Refuses v a error

namespace Layout

variable {a b : Valuation} {vars : List Variable} {l : Layout}

theorem encodeField_eq_error {v : Variable} {error : CodingError} :
    encodeField a v = .error error ↔ v.Refuses a error := by
  rw [encodeField]
  constructor
  · intro h
    cases hget : a.get? v.name with
    | none =>
      rw [hget] at h
      cases h
      exact .missing hget
    | some value =>
      rw [hget] at h
      dsimp only at h
      cases hencode : v.encoding.encode value v.width with
      | ok bits =>
        rw [hencode] at h
        cases h
      | error cause =>
        rw [hencode] at h
        obtain rfl := Except.error.inj h
        -- only the faults of values are marked
        cases cause with
        | domain scheme fault => exact .value hget hencode
        | _ => exact .other hget hencode fun scheme fault => by simp [named]
  · intro h
    cases h with
    | missing hget => rw [hget]
    | value hget hencode =>
      rw [hget]
      dsimp only
      rw [hencode]
      rfl
    | other hget hencode hother =>
      rw [hget]
      dsimp only
      rw [hencode]
      cases error with
      | domain scheme fault => exact absurd rfl (hother scheme fault)
      | _ => rfl

/-! ## Outcomes of variables in turn -/

/-- The fields stand in the order of the variables. -/
theorem encodeFields_eq_ok {bits : List UInt8} :
    encodeFields a vars = .ok bits ↔
      ∃ fields, List.Forall₂ (fun v field => v.Takes a field) vars fields ∧
        fields.flatten = bits := by
  induction vars generalizing bits with
  | nil =>
    rw [encodeFields, Except.ok.injEq]
    constructor
    · rintro rfl
      exact ⟨[], .nil, rfl⟩
    · rintro ⟨fields, hfields, rfl⟩
      cases hfields
      rfl
  | cons v vars ih =>
    rw [encodeFields_cons]
    constructor
    · rintro ⟨field, more, hfield, hmore, rfl⟩
      obtain ⟨fields, hfields, rfl⟩ := ih.1 hmore
      exact ⟨field :: fields, .cons (encodeField_eq_ok.1 hfield) hfields, rfl⟩
    · rintro ⟨fields, hfields, rfl⟩
      obtain ⟨field, more, hfield, hmore, rfl⟩ := List.forall₂_cons_left_iff.1 hfields
      exact ⟨field, more.flatten, encodeField_eq_ok.2 hfield, ih.2 ⟨more, hmore, rfl⟩, rfl⟩

/-- All variables have fields if each of them has one. -/
theorem exists_encodeFields_iff :
    (∃ bits, encodeFields a vars = .ok bits) ↔ ∀ v ∈ vars, ∃ field, v.Takes a field := by
  induction vars with
  | nil => exact ⟨fun _ v hv => absurd hv List.not_mem_nil, fun _ => ⟨[], rfl⟩⟩
  | cons v vars ih =>
    rw [List.forall_mem_cons, ← ih]
    constructor
    · rintro ⟨bits, hbits⟩
      obtain ⟨field, more, hfield, hmore, -⟩ := encodeFields_cons.1 hbits
      exact ⟨⟨field, encodeField_eq_ok.1 hfield⟩, more, hmore⟩
    · rintro ⟨⟨field, hfield⟩, more, hmore⟩
      exact ⟨_, encodeFields_cons.2 ⟨field, more, encodeField_eq_ok.2 hfield, hmore, rfl⟩⟩

/-- The error is that of the first variable that has one. -/
theorem encodeFields_eq_error {error : CodingError} :
    encodeFields a vars = .error error ↔
      ∃ before v after, vars = before ++ v :: after ∧
        (∀ u ∈ before, ∃ field, u.Takes a field) ∧ v.Refuses a error := by
  induction vars with
  | nil =>
    rw [encodeFields]
    simp
  | cons v vars ih =>
    cases hfield : encodeField a v with
    | error cause =>
      have hcause := encodeField_eq_error.1 hfield
      rw [encodeFields, hfield]
      constructor
      · intro h
        obtain rfl := Except.error.inj h
        exact ⟨[], v, vars, rfl, fun u hu => absurd hu List.not_mem_nil, hcause⟩
      · rintro ⟨before, u, after, hsplit, hbefore, hu⟩
        -- no variable before the one at fault has an error, so it is the first one
        cases before with
        | nil =>
          obtain ⟨rfl, rfl⟩ := List.cons.inj hsplit
          rw [← hfield, encodeField_eq_error.2 hu]
        | cons w before =>
          obtain ⟨rfl, rfl⟩ := List.cons.inj hsplit
          obtain ⟨field, htakes⟩ := hbefore v List.mem_cons_self
          rw [encodeField_eq_ok.2 htakes] at hfield
          cases hfield
    | ok field =>
      have htakes := encodeField_eq_ok.1 hfield
      have hrest : encodeFields a (v :: vars) = .error error ↔
          encodeFields a vars = .error error := by
        rw [encodeFields, hfield]
        cases encodeFields a vars <;> simp
      refine hrest.trans (ih.trans ⟨?_, ?_⟩)
      · rintro ⟨before, u, after, rfl, hbefore, hu⟩
        refine ⟨v :: before, u, after, rfl, ?_, hu⟩
        exact List.forall_mem_cons.2 ⟨⟨field, htakes⟩, hbefore⟩
      · rintro ⟨before, u, after, hsplit, hbefore, hu⟩
        cases before with
        | nil =>
          obtain ⟨rfl, rfl⟩ := List.cons.inj hsplit
          rw [encodeField_eq_error.2 hu] at hfield
          cases hfield
        | cons w before =>
          obtain ⟨rfl, rfl⟩ := List.cons.inj hsplit
          exact ⟨before, u, after, rfl, (List.forall_mem_cons.1 hbefore).2, hu⟩

/-- Fields are encoded from what look-up finds. -/
theorem encodeFields_congr (h : ∀ n, a.get? n = b.get? n) :
    encodeFields a vars = encodeFields b vars := by
  have hfield (v : Variable) : encodeField a v = encodeField b v := by
    rw [encodeField, encodeField, h]
  induction vars with
  | nil => rfl
  | cons v vars ih => rw [encodeFields, encodeFields, hfield, ih]

/-! ## Outcomes of a valuation -/

/-- The first name that is no variable's. -/
def FirstUnknown (l : Layout) (a : Valuation) (n : String) : Prop :=
  ∃ before after, a.names = before ++ n :: after ∧
    (∀ m ∈ before, m ∈ l.vars.map Variable.name) ∧ n ∉ l.vars.map Variable.name

/-- What encoding comes to. -/
inductive Outcome (l : Layout) (a : Valuation) : Except CodingError BitString → Prop where
  | unknown {n : String} (hn : l.FirstUnknown a n) : Outcome l a (.error (.unknownVariable n))
  | refused {before after : List Variable} {v : Variable} {error : CodingError}
      (hnames : ∀ n ∈ a.names, n ∈ l.vars.map Variable.name)
      (hsplit : l.vars = before ++ v :: after)
      (hbefore : ∀ u ∈ before, ∃ field, u.Takes a field) (hv : v.Refuses a error) :
      Outcome l a (.error error)
  | encoded {fields : List (List UInt8)}
      (hnames : ∀ n ∈ a.names, n ∈ l.vars.map Variable.name)
      (hfields : List.Forall₂ (fun v field => v.Takes a field) l.vars fields) :
      Outcome l a (.ok ⟨fields.flatten.map fun b => if b = 0 then 0 else 1⟩)

theorem find?_unknown {n : String} :
    (a.names.find? fun n => (l.find? n).isNone) = some n ↔ l.FirstUnknown a n := by
  have hknown (m : String) : (!(l.find? m).isNone) = true ↔ m ∈ l.vars.map Variable.name := by
    rw [Option.not_isNone, find?_isSome]
  rw [List.find?_eq_some_iff_append, Option.isNone_iff_eq_none, find?_eq_none, FirstUnknown]
  simp only [hknown]
  constructor
  · rintro ⟨hn, before, after, hnames, hbefore⟩
    exact ⟨before, after, hnames, hbefore, hn⟩
  · rintro ⟨before, after, hnames, hbefore, hn⟩
    exact ⟨hn, before, after, hnames, hbefore⟩

theorem find?_unknown_eq_none :
    (a.names.find? fun n => (l.find? n).isNone) = none ↔
      ∀ n ∈ a.names, n ∈ l.vars.map Variable.name := by
  rw [List.find?_eq_none]
  simp only [Option.isNone_iff_eq_none, find?_eq_none, not_not]

theorem encode_of_unknown {n : String} (hn : l.FirstUnknown a n) :
    l.encode a = .error (.unknownVariable n) := by
  rw [encode, find?_unknown.2 hn]

/-- Where every name is a variable's, the fields decide. -/
theorem encode_of_known (hnames : ∀ n ∈ a.names, n ∈ l.vars.map Variable.name) :
    l.encode a = (encodeFields a l.vars).map BitString.ofBytes := by
  rw [encode, find?_unknown_eq_none.2 hnames]
  cases encodeFields a l.vars <;> rfl

theorem outcome_encode (l : Layout) (a : Valuation) : l.Outcome a (l.encode a) := by
  cases hfind : a.names.find? fun n => (l.find? n).isNone with
  | some n =>
    have hn := find?_unknown.1 hfind
    rw [encode_of_unknown hn]
    exact .unknown hn
  | none =>
    have hnames := find?_unknown_eq_none.1 hfind
    rw [encode_of_known hnames]
    cases hfields : encodeFields a l.vars with
    | error error =>
      obtain ⟨before, v, after, hsplit, hbefore, hv⟩ := encodeFields_eq_error.1 hfields
      exact .refused hnames hsplit hbefore hv
    | ok bits =>
      obtain ⟨fields, htakes, rfl⟩ := encodeFields_eq_ok.1 hfields
      exact .encoded hnames htakes

theorem encode_eq_iff {r : Except CodingError BitString} : l.encode a = r ↔ l.Outcome a r := by
  constructor
  · rintro rfl
    exact outcome_encode l a
  · intro h
    cases h with
    | unknown hn => exact encode_of_unknown hn
    | refused hnames hsplit hbefore hv =>
      rw [encode_of_known hnames, encodeFields_eq_error.2 ⟨_, _, _, hsplit, hbefore, hv⟩]
      rfl
    | encoded hnames hfields =>
      rw [encode_of_known hnames, encodeFields_eq_ok.2 ⟨_, hfields, rfl⟩]
      rfl

/-- A valuation is encoded exactly if it binds the variables and nothing else, to values that their
encodings take. -/
theorem exists_encode_iff :
    (∃ x, l.encode a = .ok x) ↔
      (∀ n, n ∈ a.names ↔ n ∈ l.vars.map Variable.name) ∧
        ∀ v ∈ l.vars, ∀ value, a.get? v.name = some value →
          ∃ field, v.encoding.encode value v.width = .ok field := by
  constructor
  · rintro ⟨x, hx⟩
    obtain ⟨hnames, bits, hbits, -⟩ := encode_eq_ok.1 hx
    have htakes := exists_encodeFields_iff.1 ⟨bits, hbits⟩
    refine ⟨fun n => ⟨hnames n, fun hn => ?_⟩, fun v hv value hvalue => ?_⟩
    · obtain ⟨v, hv, rfl⟩ := List.mem_map.1 hn
      obtain ⟨field, value, hvalue, -⟩ := htakes v hv
      exact Valuation.get?_isSome.1 (Option.isSome_of_eq_some hvalue)
    · obtain ⟨field, value', hvalue', hfield⟩ := htakes v hv
      obtain rfl := Option.some.inj (hvalue.symm.trans hvalue')
      exact ⟨field, hfield⟩
  · rintro ⟨hnames, haccepts⟩
    have htakes (v : Variable) (hv : v ∈ l.vars) : ∃ field, v.Takes a field := by
      -- the variable is bound, since all names of the layout are
      have hbound := (hnames v.name).2 (List.mem_map_of_mem hv)
      obtain ⟨value, hvalue⟩ := Option.isSome_iff_exists.1 (Valuation.get?_isSome.2 hbound)
      obtain ⟨field, hfield⟩ := haccepts v hv value hvalue
      exact ⟨field, value, hvalue, hfield⟩
    obtain ⟨bits, hbits⟩ := exists_encodeFields_iff.2 htakes
    exact ⟨_, encode_eq_ok.2 ⟨fun n hn => (hnames n).1 hn, bits, hbits, rfl⟩⟩

/-- Valuations that bind the same names to the same values are encoded alike, or have an unknown
name each. -/
theorem encode_congr (h : ∀ n, a.get? n = b.get? n) :
    l.encode a = l.encode b ∨
      (∃ n, l.encode a = .error (.unknownVariable n)) ∧
        ∃ n, l.encode b = .error (.unknownVariable n) := by
  have hmem (n : String) : n ∈ a.names ↔ n ∈ b.names := by
    rw [← Valuation.get?_isSome, ← Valuation.get?_isSome, h]
  have hunknown (c : Valuation) (hc : ¬∀ n ∈ c.names, n ∈ l.vars.map Variable.name) :
      ∃ n, l.encode c = .error (.unknownVariable n) := by
    cases hfind : c.names.find? fun n => (l.find? n).isNone with
    | none => exact absurd (find?_unknown_eq_none.1 hfind) hc
    | some n => exact ⟨n, encode_of_unknown (find?_unknown.1 hfind)⟩
  by_cases hnames : ∀ n ∈ a.names, n ∈ l.vars.map Variable.name
  · have hnames' : ∀ n ∈ b.names, n ∈ l.vars.map Variable.name := fun n hn =>
      hnames n ((hmem n).2 hn)
    exact .inl (by rw [encode_of_known hnames, encode_of_known hnames', encodeFields_congr h])
  · refine .inr ⟨hunknown a hnames, hunknown b fun hnames' => hnames fun n hn => ?_⟩
    exact hnames' n ((hmem n).1 hn)

/-- Encoding a valuation over any layout has the outcomes of `Layout.Outcome` and no others: a name
that is no variable's comes before everything else, then the variables decide in their order, and
otherwise the fields stand one after another.  So it succeeds exactly if the names that are bound
are those of the variables and every encoding takes its value.  Valuations that agree are encoded
as the same bits or fail with the same error, unless a name is unknown. -/
theorem encode_outcomes (l : Layout) (a : Valuation) :
    (∀ r, l.encode a = r ↔ l.Outcome a r) ∧
    (∀ name fault, (DomainFault.variable name fault).message = name ++ ": " ++ fault.message) ∧
    ((∃ x, l.encode a = .ok x) ↔
      (∀ n, n ∈ a.names ↔ n ∈ l.vars.map Variable.name) ∧
        ∀ v ∈ l.vars, ∀ value, a.get? v.name = some value →
          ∃ field, v.encoding.encode value v.width = .ok field) ∧
    (a.names.Nodup → ∀ b, (a == b) = true →
      (∃ x, l.encode a = .ok x ∧ l.encode b = .ok x) ∨
      (∃ error, l.encode a = .error error ∧ l.encode b = .error error) ∨
      ∃ n n', l.encode a = .error (.unknownVariable n) ∧
        l.encode b = .error (.unknownVariable n')) := by
  refine ⟨fun r => encode_eq_iff, fun _ _ => rfl, exists_encode_iff, fun ha b hab => ?_⟩
  obtain ⟨hb, -⟩ := Valuation.beq_symm ha hab
  have hget := (Valuation.beq_iff ha hb).1 hab
  rcases encode_congr (l := l) hget with heq | ⟨⟨n, hn⟩, n', hn'⟩
  · rcases hencode : l.encode a with error | x
    · exact .inr (.inl ⟨error, rfl, heq ▸ hencode⟩)
    · exact .inl ⟨x, rfl, heq ▸ hencode⟩
  · exact .inr (.inr ⟨n, n', hn, hn'⟩)

/-- Two values that are refused: the variable that was laid out first is reported, in whatever order
the values are bound. -/
theorem encode_outcomes_swapped :
    let l : Layout := ⟨[⟨"x", .unsigned, 2, 0⟩, ⟨"s", .spin, 1, 2⟩], 3⟩
    let a : Valuation := ⟨[("x", .int 4), ("s", .int 0)]⟩
    let b : Valuation := ⟨[("s", .int 0), ("x", .int 4)]⟩
    let error : CodingError := .domain "uint" (.variable "x" (.tooLarge 4 2))
    a.names.Nodup ∧ (a == b) = true ∧ l.Outcome a (.error error) ∧ l.encode b = .error error := by
  intro l a b error
  have ha : a.names.Nodup := by decide
  have hab : (a == b) = true := by decide
  have hencode : l.encode a = .error error := by decide
  obtain ⟨houtcome, -, -, hagree⟩ := encode_outcomes l a
  refine ⟨ha, hab, (houtcome _).1 hencode, ?_⟩
  rcases hagree ha b hab with ⟨x, hx, -⟩ | ⟨e, he, hb⟩ | ⟨n, n', hn, -⟩
  · cases hencode.symm.trans hx
  · rw [hb, ← he, hencode]
  · exact absurd (Except.error.inj (hencode.symm.trans hn)) (by simp [error])

end Layout

end QuboProbe
