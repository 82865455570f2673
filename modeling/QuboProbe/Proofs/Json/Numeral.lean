/-
  QuboProbe.Proofs.Json.Numeral

  Number literals are read back as they were written, provided that what
  follows them cannot be part of a number (`Json.numeral?_chars`).  Reading
  takes one part of a literal after the other, the sign, the whole digits, the
  fraction and the exponent, and there is one lemma for each part.
-/
import QuboProbe.Json.Reader

namespace QuboProbe

/-! ## Digits -/

theorem isDigit_digitsOf {n : Nat} {c : Char} (hc : c ∈ digitsOf n) : c.isDigit = true :=
  Nat.isDigit_of_mem_toDigits (by decide) (Nat.le_refl 10) hc

/-- The digits of a number have its value. -/
theorem valueOfDigits_digitsOf (n : Nat) : valueOfDigits (digitsOf n) = n := by
  induction n using Nat.strongRecOn with
  | ind n ih =>
    have hdigit {d : Nat} (hd : d < 10) : digitValue d.digitChar = d := by
      have hnat := Nat.toNat_digitChar_of_lt_ten hd
      have hmem : d.digitChar ∈ digitsOf d := by
        rw [digitsOf, Nat.toDigits_of_lt_base hd]
        exact List.mem_singleton_self _
      rw [digitValue, if_pos (isDigit_digitsOf hmem)]
      omega
    by_cases hn : n < 10
    · rw [digitsOf, Nat.toDigits_of_lt_base hn]
      show 10 * 0 + digitValue n.digitChar = n
      rw [hdigit hn, Nat.mul_zero, Nat.zero_add]
    · -- the last digit is the remainder, and the ones before it are the quotient's
      have hcut : digitsOf n = digitsOf (n / 10) ++ [(n % 10).digitChar] :=
        Nat.toDigits_of_base_le (by decide) (by omega)
      rw [hcut, valueOfDigits_append_singleton, ih (n / 10) (by omega), hdigit (by omega)]
      omega

/-- Zero alone is written with a leading zero. -/
theorem head?_digitsOf {n : Nat} (h : (digitsOf n).head? = some '0') : digitsOf n = ['0'] := by
  induction n using Nat.strongRecOn with
  | ind n ih =>
    by_cases hn : n < 10
    · rw [digitsOf, Nat.toDigits_of_lt_base hn] at h ⊢
      rw [List.head?_cons, Option.some.injEq] at h
      rw [h]
    · have hcut : digitsOf n = digitsOf (n / 10) ++ [(n % 10).digitChar] :=
        Nat.toDigits_of_base_le (by decide) (by omega)
      have hne : Nat.toDigits 10 (n / 10) ≠ [] := Nat.toDigits_ne_nil
      obtain ⟨d, ds, hds⟩ := List.exists_cons_of_ne_nil hne
      have hhead : (digitsOf (n / 10)).head? = some '0' := by
        rw [hcut, digitsOf, hds, List.cons_append, List.head?_cons] at h
        rw [digitsOf, hds, List.head?_cons, h]
      have hzero := congrArg valueOfDigits (ih (n / 10) (by omega) hhead)
      have hvalue : valueOfDigits ['0'] = 0 := rfl
      rw [valueOfDigits_digitsOf, hvalue] at hzero
      omega

/-! ## Literals of the format -/

namespace Numeral

/-- A literal that the format allows: there are whole digits, and they start with a zero only if
that is all of them. -/
structure Standard (n : Numeral) : Prop where
  whole : ∀ c ∈ n.whole, c.isDigit = true
  fraction : ∀ c ∈ n.fraction, c.isDigit = true
  whole_ne_nil : n.whole ≠ []
  lead : n.whole.head? = some '0' → n.whole = ['0']

theorem standard_ofInt (i : Int) : (ofInt i).Standard where
  whole _ hc := isDigit_digitsOf hc
  fraction _ hc := absurd hc List.not_mem_nil
  whole_ne_nil := Nat.toDigits_ne_nil
  lead := head?_digitsOf

/-- The literal of an integer denotes it. -/
theorem integer?_ofInt (i : Int) : (ofInt i).integer? = some i := by
  rw [integer?, if_pos ⟨rfl, rfl⟩]
  show (if decide (i < 0) = true then
    (if valueOfDigits (digitsOf i.natAbs) = 0 then none
      else some (-(valueOfDigits (digitsOf i.natAbs) : Int)))
    else some (valueOfDigits (digitsOf i.natAbs) : Int)) = some i
  rw [valueOfDigits_digitsOf]
  by_cases hi : i < 0
  · -- a negative number is not the zero that takes no sign
    rw [if_pos (decide_eq_true hi), if_neg (by omega)]
    exact congrArg some (by omega)
  · rw [if_neg (by simpa using hi)]
    exact congrArg some (by omega)

end Numeral

/-! ## Reading literals -/

namespace Json

/-- What can stand behind a value in a text: nothing, or a character that ends the value. -/
def Ends (rest : List Char) : Prop := ∀ c ∈ rest.head?, c = ',' ∨ c = ']' ∨ c = '}'

theorem Ends.nil : Ends [] := by simp [Ends]

theorem Ends.cons {c : Char} (rest : List Char) (hc : c = ',' ∨ c = ']' ∨ c = '}') :
    Ends (c :: rest) := by
  simpa [Ends] using hc

variable {ds rest : List Char}

/-- A run of digits is read up to the first character that is no digit. -/
theorem digits_append (hds : ∀ c ∈ ds, c.isDigit = true)
    (hrest : ∀ c ∈ rest.head?, c.isDigit = false) : digits (ds ++ rest) = (ds, rest) := by
  have hstop : rest.takeWhile Char.isDigit = [] ∧ rest.dropWhile Char.isDigit = rest := by
    cases rest with
    | nil => exact ⟨rfl, rfl⟩
    | cons c rest =>
      have hc := hrest c rfl
      simp [hc]
  rw [digits, List.takeWhile_append_of_pos hds, List.dropWhile_append_of_pos hds, hstop.1, hstop.2,
    List.append_nil]

theorem whole?_append {n : Numeral} (hn : n.Standard)
    (hrest : ∀ c ∈ rest.head?, c.isDigit = false) :
    whole? (n.whole ++ rest) = some (n.whole, rest) := by
  cases hw : n.whole with
  | nil => exact absurd hw hn.whole_ne_nil
  | cons c cs =>
    by_cases hc : c = '0'
    · subst hc
      have hlead := hn.lead (by rw [hw, List.head?_cons])
      rw [hw] at hlead
      rw [hlead]
      rfl
    · have hdigit : c.isDigit = true := hn.whole c (by rw [hw]; exact List.mem_cons_self)
      rw [List.cons_append, whole?]
      · rw [if_pos hdigit, ← List.cons_append, ← hw, digits_append hn.whole hrest]
      · exact hc

theorem fraction?_append (hds : ∀ c ∈ ds, c.isDigit = true)
    (hrest : ∀ c ∈ rest.head?, c ≠ '.' ∧ c.isDigit = false) :
    fraction? ((if ds = [] then [] else '.' :: ds) ++ rest) = some (ds, rest) := by
  cases ds with
  | nil =>
    rw [if_pos rfl, List.nil_append]
    cases rest with
    | nil => rfl
    | cons c rest =>
      rw [fraction?]
      intro _ heq
      exact (hrest c rfl).1 (List.cons.inj heq).1
  | cons d ds =>
    rw [if_neg (List.cons_ne_nil d ds), List.cons_append, fraction?,
      digits_append hds fun c hc => (hrest c hc).2]

/-- The digits of an exponent behind its sign. -/
theorem exponentDigits?_append (negative : Bool) (k : Nat)
    (hrest : ∀ c ∈ rest.head?, c.isDigit = false) :
    exponentDigits? negative (digitsOf k ++ rest) =
      some (some (if negative then -(k : Int) else k), rest) := by
  have hvalue := valueOfDigits_digitsOf k
  rw [exponentDigits?, digits_append (fun c => isDigit_digitsOf) hrest]
  cases hk : digitsOf k with
  | nil => exact absurd hk Nat.toDigits_ne_nil
  | cons d ds =>
    rw [hk] at hvalue
    simp only [hvalue]

theorem exponent?_append (e : Option Int) (hrest : Ends rest) :
    exponent? (Numeral.exponentText e ++ rest) = some (e, rest) := by
  have hdigit : ∀ c ∈ rest.head?, c.isDigit = false := fun c hc => by
    rcases hrest c hc with rfl | rfl | rfl <;> rfl
  cases e with
  | none =>
    show exponent? rest = some (none, rest)
    cases rest with
    | nil => rfl
    | cons c rest =>
      have hc : ¬ (c = 'e' ∨ c = 'E') := by
        rcases hrest c rfl with rfl | rfl | rfl <;> decide
      exact if_neg hc
  | some e =>
    by_cases he : e < 0
    · have htext : Numeral.exponentText (some e) = 'e' :: '-' :: digitsOf e.natAbs := by
        rw [Numeral.exponentText, if_pos he]
      rw [htext]
      show exponentDigits? true (digitsOf e.natAbs ++ rest) = _
      rw [exponentDigits?_append true e.natAbs hdigit, if_pos rfl]
      simp only [Option.some.injEq, Prod.mk.injEq, and_true]
      omega
    · have htext : Numeral.exponentText (some e) = 'e' :: '+' :: digitsOf e.natAbs := by
        rw [Numeral.exponentText, if_neg he]
      rw [htext]
      show exponentDigits? false (digitsOf e.natAbs ++ rest) = _
      rw [exponentDigits?_append false e.natAbs hdigit, if_neg Bool.false_ne_true]
      simp only [Option.some.injEq, Prod.mk.injEq, and_true]
      omega

/-- The whole digits do not start with a sign. -/
theorem whole_ne_sign {n : Numeral} (hn : n.Standard) (tail cs : List Char) :
    n.whole ++ tail ≠ '-' :: cs := by
  intro heq
  cases hw : n.whole with
  | nil => exact hn.whole_ne_nil hw
  | cons c ds =>
    rw [hw, List.cons_append] at heq
    have hc : c.isDigit = true := hn.whole c (by simp [hw])
    rw [(List.cons.inj heq).1] at hc
    exact absurd hc (by decide)

/-- A literal of the format is read back in front of whatever ends a value. -/
theorem numeral?_chars {n : Numeral} (hn : n.Standard) (hrest : Ends rest) :
    numeral? (n.chars ++ rest) = some (n, rest) := by
  obtain ⟨negative, whole, fraction, exponent⟩ := n
  -- what each part is followed by
  have hexp : ∀ c ∈ (Numeral.exponentText exponent ++ rest).head?, c ≠ '.' ∧ c.isDigit = false := by
    intro c hc
    cases exponent with
    | none => rcases hrest c hc with rfl | rfl | rfl <;> exact ⟨by decide, rfl⟩
    | some e =>
      obtain rfl : 'e' = c := Option.some.inj hc
      exact ⟨by decide, rfl⟩
  have hfrac : ∀ c ∈ ((if fraction = [] then [] else '.' :: fraction) ++
      (Numeral.exponentText exponent ++ rest)).head?, c.isDigit = false := by
    intro c hc
    cases fraction with
    | nil => exact (hexp c hc).2
    | cons d ds =>
      obtain rfl : '.' = c := Option.some.inj hc
      rfl
  -- the parts in turn
  have hwhole := whole?_append hn hfrac
  have hfraction := fraction?_append hn.fraction hexp
  have hexponent := exponent?_append exponent hrest
  have hchars : (⟨negative, whole, fraction, exponent⟩ : Numeral).chars ++ rest =
      (if negative then ['-'] else []) ++ (whole ++
        ((if fraction = [] then [] else '.' :: fraction) ++
          (Numeral.exponentText exponent ++ rest))) := by
    simp only [Numeral.chars, List.append_assoc]
  rw [hchars]
  cases negative with
  | true =>
    rw [if_pos rfl, List.singleton_append, numeral?]
    simp only [hwhole, hfraction, hexponent, Option.bind_eq_bind, Option.bind_some, Option.pure_def]
  | false =>
    rw [if_neg Bool.false_ne_true, List.nil_append, numeral?]
    · simp only [hwhole, hfraction, hexponent, Option.bind_eq_bind, Option.bind_some,
        Option.pure_def]
    · exact fun _ => whole_ne_sign hn _ _

end Json

end QuboProbe
