/-
  QuboProbe.Proofs.Json.Reading

  Reading the text of a value gives the value back (`Json.parse_text`).  The
  reader bounds its recursion, and so the induction is on the bound: what is
  read with one bound is read from parts that are read with a smaller one.  A
  bound suffices when it exceeds the length of the text, because every call
  that lowers it has consumed a character.
-/
import QuboProbe.Json.Shape
import QuboProbe.Proofs.Json.Numeral

namespace QuboProbe.Json

/-- A value that its text determines: the literals are those of the format, and the texts and names
are texts. -/
inductive Written : Json → Prop where
  | null : Written .null
  | bool (b : Bool) : Written (.bool b)
  | number {n : Numeral} (hn : n.Standard) : Written (.number n)
  | string (s : String) : Written (.string (some s))
  | array {items : List Json} (h : ∀ v ∈ items, Written v) : Written (.array items)
  | object {members : List (Option String × Json)} (hname : ∀ m ∈ members, m.1.isSome = true)
      (hvalue : ∀ m ∈ members, Written m.2) : Written (.object members)

theorem written_ofInt (i : Int) : (ofInt i).Written := .number (Numeral.standard_ofInt i)

theorem written_ofNat (n : Nat) : (ofNat n).Written := written_ofInt n

theorem written_ofString (s : String) : (ofString s).Written := .string s

theorem written_ofList {β : Type} {item : β → Json} {xs : List β}
    (h : ∀ x ∈ xs, (item x).Written) : (ofList item xs).Written := by
  refine .array fun v hv => ?_
  obtain ⟨x, hx, rfl⟩ := List.mem_map.1 hv
  exact h x hx

theorem written_record {members : List (String × Json)} (h : ∀ m ∈ members, m.2.Written) :
    (record members).Written := by
  refine .object (fun m hm => ?_) fun m hm => ?_
  · obtain ⟨⟨k, v⟩, -, rfl⟩ := List.mem_map.1 hm
    rfl
  · obtain ⟨⟨k, v⟩, hkv, rfl⟩ := List.mem_map.1 hm
    exact h (k, v) hkv

/-! ## Beginnings -/

theorem skipBlank_cons {c : Char} {cs : List Char} (hc : isBlank c = false) :
    skipBlank (c :: cs) = c :: cs := by
  rw [skipBlank, List.dropWhile_cons, hc, if_neg Bool.false_ne_true]

/-- A number starts with a sign or a digit. -/
theorem exists_numeral_head {n : Numeral} (hn : n.Standard) :
    ∃ c cs, n.chars = c :: cs ∧ (c = '-' ∨ c.isDigit = true) := by
  obtain ⟨d, ds, hwhole⟩ := List.exists_cons_of_ne_nil hn.whole_ne_nil
  rw [Numeral.chars]
  by_cases hsign : n.negative = true
  · exact ⟨'-', _, by rw [if_pos hsign]; rfl, .inl rfl⟩
  · refine ⟨d, _, by rw [if_neg hsign, hwhole]; rfl, .inr (hn.whole d ?_)⟩
    rw [hwhole]
    exact List.mem_cons_self

/-- The text of a value is not empty, and starts with no blank and no closing bracket. -/
theorem Written.exists_head {v : Json} (hv : v.Written) :
    ∃ c cs, v.chars = c :: cs ∧ isBlank c = false ∧ c ≠ ']' := by
  cases hv with
  | null => exact ⟨'n', _, by rw [chars], rfl, by decide⟩
  | bool b =>
    cases b with
    | true => exact ⟨'t', _, by rw [chars], rfl, by decide⟩
    | false => exact ⟨'f', _, by rw [chars], rfl, by decide⟩
  | @number n hn =>
    obtain ⟨c, cs, hcs, hc⟩ := exists_numeral_head hn
    refine ⟨c, cs, by rw [chars, hcs], ?_⟩
    rcases hc with rfl | hc
    · exact ⟨rfl, by decide⟩
    · refine ⟨?_, fun h => absurd (h ▸ hc) (by decide)⟩
      cases hblank : isBlank c with
      | false => rfl
      | true =>
        simp only [isBlank, Bool.or_eq_true, beq_iff_eq] at hblank
        rcases hblank with ((rfl | rfl) | rfl) | rfl <;> exact absurd hc (by decide)
  | string s => exact ⟨'\"', _, by rw [chars, quoted]; rfl, rfl, by decide⟩
  | array h => exact ⟨'[', _, by rw [chars]; rfl, rfl, by decide⟩
  | object hname hvalue => exact ⟨'{', _, by rw [chars]; rfl, rfl, by decide⟩

/-! ## Values of every kind -/

/-- A text behind its opening quote. -/
theorem quoted?_encode (s : String) (rest : List Char) :
    quoted? (Quoted.encode s.toList ++ '\"' :: rest) = some (some s, rest) := by
  obtain ⟨ps, hps, hjoin⟩ := Quoted.join_pieces_encode s.toList rest
  rw [quoted?, hps, Option.map_some]
  show some ((Quoted.join ps).map String.ofList, rest) = some (some s, rest)
  rw [hjoin, Option.map_some, String.ofList_toList]

theorem value?_string (bound : Nat) (s : String) (rest : List Char) :
    value? (bound + 1) ((Json.string (some s)).chars ++ rest) = some (.string (some s), rest) := by
  have htext : (Json.string (some s)).chars ++ rest =
      '\"' :: (Quoted.encode s.toList ++ '\"' :: rest) := by
    simp only [chars, quoted, Option.getD_some, List.cons_append, List.append_assoc,
      List.nil_append]
  rw [htext, value?, skipBlank_cons rfl]
  show (quoted? (Quoted.encode s.toList ++ '\"' :: rest)).map _ = _
  rw [quoted?_encode]
  rfl

theorem value?_number (bound : Nat) {n : Numeral} (hn : n.Standard) {rest : List Char}
    (hrest : Ends rest) : value? (bound + 1) (n.chars ++ rest) = some (.number n, rest) := by
  have hread := numeral?_chars hn hrest
  obtain ⟨c, cs, hcs, hc⟩ := exists_numeral_head hn
  rw [hcs, List.cons_append] at hread ⊢
  -- no other kind of value starts with a sign or a digit
  have hne {d : Char} (hd : d ≠ '-' ∧ d.isDigit = false) : c ≠ d := by
    rintro rfl
    rcases hc with hc | hc
    · exact hd.1 hc
    · exact Bool.false_ne_true (hd.2.symm.trans hc)
  have hblank : isBlank c = false := by
    simp only [isBlank, Bool.or_eq_false_iff, beq_eq_false_iff_ne]
    exact ⟨⟨⟨hne (by decide), hne (by decide)⟩, hne (by decide)⟩, hne (by decide)⟩
  rw [value?, skipBlank_cons hblank]
  split
  case h_7 => rw [hread, Option.map_some]
  all_goals exact absurd (List.cons.inj ‹_›).1 (hne (by decide))

theorem value?_array {bound : Nat} {c : Char} {cs : List Char} (hblank : isBlank c = false)
    (hc : c ≠ ']') :
    value? (bound + 1) ('[' :: c :: cs) =
      (items? bound (c :: cs)).map fun p => (.array p.1, p.2) := by
  rw [value?, skipBlank_cons rfl]
  simp only [skipBlank_cons hblank]
  split
  · exact absurd (List.cons.inj ‹_›).1 hc
  · rfl

theorem value?_object {bound : Nat} (cs : List Char) :
    value? (bound + 1) ('{' :: '\"' :: cs) =
      (members? bound ('\"' :: cs)).map fun p => (.object p.1, p.2) := by
  rw [value?, skipBlank_cons rfl]
  rfl

/-- With this bound, every value that is short enough is read back from its text. -/
def ReadsValues (bound : Nat) : Prop :=
  ∀ v rest, Written v → Ends rest → v.chars.length < bound →
    value? bound (v.chars ++ rest) = some (v, rest)

/-- With this bound, the items of an array that is short enough are read back up to its end. -/
def ReadsItems (bound : Nat) : Prop :=
  ∀ v vs rest, (∀ w ∈ v :: vs, Written w) → (itemsChars (v :: vs)).length + 1 < bound →
    items? bound (itemsChars (v :: vs) ++ ']' :: rest) = some (v :: vs, rest)

/-- With this bound, the members of an object that is short enough are read back up to its end. -/
def ReadsMembers (bound : Nat) : Prop :=
  ∀ m ms rest, (∀ m' ∈ m :: ms, m'.1.isSome = true ∧ Written m'.2) →
    (membersChars (m :: ms)).length + 1 < bound →
    members? bound (membersChars (m :: ms) ++ '}' :: rest) = some (m :: ms, rest)

variable {bound : Nat}

/-- An array whose items are read back is read back itself. -/
theorem ReadsItems.value?_chars (hitems : ReadsItems bound) {items : List Json}
    (h : ∀ v ∈ items, Written v) (hlength : (itemsChars items).length + 1 < bound)
    (rest : List Char) :
    value? (bound + 1) ((Json.array items).chars ++ rest) = some (.array items, rest) := by
  have htext : (Json.array items).chars ++ rest = '[' :: (itemsChars items ++ ']' :: rest) := by
    simp only [chars, List.cons_append, List.append_assoc, List.nil_append]
  rw [htext]
  cases items with
  | nil => rfl
  | cons v vs =>
    -- the first item does not close the array
    obtain ⟨c, cs, hcs, hblank, hclosed⟩ := (h v List.mem_cons_self).exists_head
    obtain ⟨tail, htail⟩ : ∃ tail, itemsChars (v :: vs) = c :: tail := by
      cases vs with
      | nil => exact ⟨cs, by rw [itemsChars, hcs]⟩
      | cons w vs => exact ⟨_, by rw [itemsChars, hcs]; rfl⟩
    have hread := hitems v vs rest h hlength
    rw [htail, List.cons_append] at hread ⊢
    rw [value?_array hblank hclosed, hread]
    rfl

/-- An object whose members are read back is read back itself. -/
theorem ReadsMembers.value?_chars (hmembers : ReadsMembers bound)
    {members : List (Option String × Json)}
    (h : ∀ m ∈ members, m.1.isSome = true ∧ Written m.2)
    (hlength : (membersChars members).length + 1 < bound) (rest : List Char) :
    value? (bound + 1) ((Json.object members).chars ++ rest) = some (.object members, rest) := by
  have htext : (Json.object members).chars ++ rest =
      '{' :: (membersChars members ++ '}' :: rest) := by
    simp only [chars, List.cons_append, List.append_assoc, List.nil_append]
  rw [htext]
  cases members with
  | nil => rfl
  | cons m ms =>
    obtain ⟨tail, htail⟩ : ∃ tail, membersChars (m :: ms) = '\"' :: tail := by
      cases ms with
      | nil => exact ⟨_, by rw [membersChars, quoted]; rfl⟩
      | cons w ms => exact ⟨_, by rw [membersChars, quoted]; rfl⟩
    have hread := hmembers m ms rest h hlength
    rw [htail, List.cons_append] at hread ⊢
    rw [value?_object, hread]
    rfl

theorem ReadsValues.succ (hitems : ReadsItems bound) (hmembers : ReadsMembers bound) :
    ReadsValues (bound + 1) := by
  intro v rest hv hrest hlength
  cases hv with
  | null =>
    rw [chars, value?, List.cons_append, skipBlank_cons rfl]
    rfl
  | bool b =>
    cases b with
    | true =>
      rw [chars, value?, List.cons_append, skipBlank_cons rfl]
      rfl
    | false =>
      rw [chars, value?, List.cons_append, skipBlank_cons rfl]
      rfl
  | number hn =>
    rw [chars]
    exact value?_number bound hn hrest
  | string s => exact value?_string bound s rest
  | array h =>
    simp only [chars, List.length_cons, List.length_append] at hlength
    exact hitems.value?_chars h (by omega) rest
  | object hname hvalue =>
    simp only [chars, List.length_cons, List.length_append] at hlength
    exact hmembers.value?_chars (fun m hm => ⟨hname m hm, hvalue m hm⟩) (by omega) rest

theorem ReadsItems.succ (hvalues : ReadsValues bound) (hitems : ReadsItems bound) :
    ReadsItems (bound + 1) := by
  intro v vs rest hwritten hlength
  have hv := hwritten v List.mem_cons_self
  cases vs with
  | nil =>
    rw [itemsChars] at hlength ⊢
    have hread := hvalues v (']' :: rest) hv (.cons rest (.inr (.inl rfl))) (by omega)
    simp only [items?, hread, skipBlank_cons (c := ']') rfl]
  | cons w vs =>
    simp only [itemsChars, List.length_append, List.length_cons] at hlength
    have hread := hvalues v (',' :: (itemsChars (w :: vs) ++ ']' :: rest)) hv
      (.cons _ (.inl rfl)) (by omega)
    have hrest := hitems w vs rest (fun u hu => hwritten u (List.mem_cons_of_mem v hu)) (by omega)
    rw [itemsChars, List.append_assoc, List.cons_append]
    simp only [items?, hread, skipBlank_cons (c := ',') rfl, hrest, Option.map_some]

theorem ReadsMembers.succ (hvalues : ReadsValues bound) (hmembers : ReadsMembers bound) :
    ReadsMembers (bound + 1) := by
  rintro ⟨k, v⟩ ms rest hwritten hlength
  obtain ⟨hk, hv⟩ := hwritten (k, v) List.mem_cons_self
  obtain ⟨s, rfl⟩ := Option.isSome_iff_exists.1 hk
  -- the name, and then the value behind its colon
  have hname (tail : List Char) : quoted (some s) ++ ':' :: tail =
      '\"' :: (Quoted.encode s.toList ++ '\"' :: ':' :: tail) := by
    simp only [quoted, Option.getD_some, List.cons_append, List.append_assoc, List.nil_append]
  cases ms with
  | nil =>
    simp only [membersChars, List.length_append, List.length_cons] at hlength
    have hread := hvalues v ('}' :: rest) hv (.cons rest (.inr (.inr rfl))) (by omega)
    rw [membersChars, List.append_assoc, List.cons_append, hname]
    simp only [members?, skipBlank_cons (c := '\"') rfl, quoted?_encode,
      skipBlank_cons (c := ':') rfl, hread, skipBlank_cons (c := '}') rfl]
  | cons m ms =>
    simp only [membersChars, List.length_append, List.length_cons] at hlength
    have hread := hvalues v (',' :: (membersChars (m :: ms) ++ '}' :: rest)) hv
      (.cons _ (.inl rfl)) (by omega)
    have hrest := hmembers m ms rest (fun m' hm' => hwritten m' (List.mem_cons_of_mem _ hm'))
      (by omega)
    rw [membersChars, List.append_assoc, List.cons_append, List.append_assoc, List.cons_append,
      hname]
    simp only [members?, skipBlank_cons (c := '\"') rfl, quoted?_encode,
      skipBlank_cons (c := ':') rfl, hread, skipBlank_cons (c := ',') rfl, hrest, Option.map_some]

theorem reads (bound : Nat) : ReadsValues bound ∧ ReadsItems bound ∧ ReadsMembers bound := by
  induction bound with
  | zero => exact ⟨fun _ _ _ _ h => absurd h (by omega), fun _ _ _ _ h => absurd h (by omega),
      fun _ _ _ _ h => absurd h (by omega)⟩
  | succ bound ih =>
    obtain ⟨hvalues, hitems, hmembers⟩ := ih
    exact ⟨.succ hitems hmembers, .succ hvalues hitems, .succ hvalues hmembers⟩

/-- Reading the text of a value gives the value back. -/
theorem parse_text {v : Json} (hv : v.Written) : parse v.text = some v := by
  have hread := (reads (v.chars.length + 1)).1 v [] hv .nil (by omega)
  rw [List.append_nil] at hread
  rw [parse, text, String.toList_ofList, hread]
  rfl

end QuboProbe.Json
