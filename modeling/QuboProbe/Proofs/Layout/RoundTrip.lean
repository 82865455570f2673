/-
  QuboProbe.Proofs.Layout.RoundTrip

  A layout whose encodings lose nothing loses nothing itself.  Valuations that
  bind each name once agree exactly if look-up finds the same values in both
  (`Valuation.beq_iff`), whatever the order of their entries; so what is
  encoded is decoded to a valuation that agrees with it, and every string of
  zeros and ones is the encoding of what is decoded from it
  (`Layout.roundTrip`).
-/
import QuboProbe.Proofs.Layout.Codec
import Mathlib.Data.List.Perm.Subperm

namespace QuboProbe

/-! ## Valuations that bind each name once -/

namespace Valuation

variable {a b : Valuation} {n : String} {value : Value}

/-- Look-up finds an entry, if it is the only one of its name. -/
theorem get?_eq_some_iff (ha : a.names.Nodup) :
    a.get? n = some value ↔ (n, value) ∈ a.entries := by
  obtain ⟨entries⟩ := a
  rw [names] at ha
  rw [get?]
  induction entries with
  | nil => simp
  | cons e rest ih =>
    obtain ⟨k, v⟩ := e
    rw [List.map_cons, List.nodup_cons] at ha
    by_cases hk : n = k
    · subst hk
      -- the name is not bound again further on
      have hrest : (n, value) ∉ rest := fun h => ha.1 (List.mem_map.2 ⟨_, h, rfl⟩)
      have hfirst : ((n, v) :: rest).lookup n = some v := by rw [List.lookup_cons, beq_self_eq_true]
      rw [hfirst, List.mem_cons, Option.some.injEq, Prod.mk.injEq]
      constructor
      · intro h
        exact .inl ⟨rfl, h.symm⟩
      · rintro (⟨-, h⟩ | h)
        · exact h.symm
        · exact absurd h hrest
    · have hother : ((k, v) :: rest).lookup n = rest.lookup n := by
        rw [List.lookup_cons, beq_false_of_ne hk]
      rw [hother, ih ha.2, List.mem_cons, Prod.mk.injEq]
      constructor
      · exact .inr
      · rintro (⟨h, -⟩ | h)
        · exact absurd h hk
        · exact h

theorem nodup_entries (ha : a.names.Nodup) : a.entries.Nodup := ha.of_map Prod.fst

theorem beq_eq_true : (a == b) = true ↔
    a.entries.length = b.entries.length ∧ ∀ e ∈ a.entries, b.get? e.1 = some e.2 := by
  have hdef : (a == b) = agrees a b := rfl
  rw [hdef, agrees, Bool.and_eq_true, beq_iff_eq, List.all_eq_true]
  simp only [size, beq_iff_eq]

/-- Equality of valuations is equality of what look-up finds. -/
theorem beq_iff (ha : a.names.Nodup) (hb : b.names.Nodup) :
    (a == b) = true ↔ ∀ n, a.get? n = b.get? n := by
  have hmem {n : String} {value : Value} : a.get? n = some value ↔ (n, value) ∈ a.entries :=
    get?_eq_some_iff ha
  have hmem' {n : String} {value : Value} : b.get? n = some value ↔ (n, value) ∈ b.entries :=
    get?_eq_some_iff hb
  rw [beq_eq_true]
  constructor
  · rintro ⟨hlength, hall⟩ n
    have hsub : a.entries ⊆ b.entries := fun e he => hmem'.1 (hall e he)
    -- as many entries, all of them among the others, are the others
    have hperm : a.entries.Perm b.entries :=
      (List.subperm_of_subset (nodup_entries ha) hsub).perm_of_length_le (Nat.le_of_eq hlength.symm)
    apply Option.ext
    intro value
    rw [hmem, hmem', hperm.mem_iff]
  · intro h
    have hiff (e : String × Value) : e ∈ a.entries ↔ e ∈ b.entries := by
      rw [← hmem, ← hmem', h]
    have hperm : a.entries.Perm b.entries :=
      (List.perm_ext_iff_of_nodup (nodup_entries ha) (nodup_entries hb)).2 hiff
    refine ⟨hperm.length_eq, fun e he => ?_⟩
    rw [← h]
    exact hmem.2 he

/-- Inserting keeps it so that each name is bound once. -/
theorem nodup_names_insertEntry {entries : List (String × Value)} (name : String)
    (h : (entries.map Prod.fst).Nodup) : ((insertEntry name value entries).map Prod.fst).Nodup := by
  induction entries with
  | nil => exact List.nodup_singleton name
  | cons e rest ih =>
    obtain ⟨k, v⟩ := e
    rw [List.map_cons, List.nodup_cons] at h
    rw [insertEntry]
    by_cases hk : k = name
    · rw [if_pos hk, List.map_cons, List.nodup_cons, ← hk]
      exact h
    · rw [if_neg hk, List.map_cons, List.nodup_cons, mem_names_insertEntry]
      refine ⟨?_, ih h.2⟩
      rintro (hname | hrest)
      · exact hk hname
      · exact h.1 hrest

theorem nodup_names_ofList (bindings : List (String × Value)) : (ofList bindings).names.Nodup := by
  have hfold (a : Valuation) (ha : a.names.Nodup) :
      (bindings.foldl (fun a b => a.insert b.1 b.2) a).names.Nodup := by
    induction bindings generalizing a with
    | nil => exact ha
    | cons b bindings ih => exact ih _ (nodup_names_insertEntry b.1 ha)
  exact hfold empty List.nodup_nil

end Valuation

/-! ## Round trips -/

namespace Layout

variable {l : Layout}

/-- A decoded valuation binds each name once. -/
theorem nodup_names_decode {bits : List UInt8} {b : Valuation} (hb : l.decode bits = .ok b) :
    b.names.Nodup := by
  rw [decode] at hb
  split at hb
  · cases hb
  · cases hb
    exact Valuation.nodup_names_ofList _

/-- A layout built of encodings that are lawful at their widths loses nothing.  What a valuation is
encoded as is as many zeros and ones as the layout has bits and is decoded to a valuation that
agrees with it; and all zeros and ones are decoded to a valuation that is encoded as these.  The
library's own encodings are lawful at every width that they take. -/
theorem roundTrip (hl : l.Built fun e width => e.Lawful width) :
    (∀ a x, a.names.Nodup → l.encode a = .ok x →
      x.length = l.size ∧ (∀ b ∈ x.bytes, b = 0 ∨ b = 1) ∧
        ∃ a', l.decode x.bytes = .ok a' ∧ (a' == a) = true) ∧
    (∀ x : BitString, x.length = l.size → (∀ b ∈ x.bytes, b = 0 ∨ b = 1) →
      ∃ a, l.decode x.bytes = .ok a ∧ l.encode a = .ok x) ∧
    ∀ e : Encoding, e.BuiltIn → ∀ width, e.checkWidth width = .ok () → e.Lawful width := by
  have hlawful : l.Lawful := fun v hv => (hl.of_mem hv).1
  refine ⟨fun a x ha henc => ?_, fun x hlength hbit => ?_, fun e he width => he.lawful⟩
  · obtain ⟨hx, a', ha', hget⟩ := decode_encode hl.wellFormed hlawful henc
    refine ⟨hx.length_eq, hx.bit, a', ha', ?_⟩
    exact (Valuation.beq_iff (nodup_names_decode ha') ha).2 hget
  · exact encode_decode hl.wellFormed hlawful ⟨hlength, hbit⟩

end Layout

/-! ### A caller's encoding -/

/-- One bit for the two numbers one and minus one: an encoding that is not the library's own. -/
def Encoding.spin : Encoding where
  name := "spin"
  describe := "Spin"
  checkWidth width := if width = 1 then .ok () else .error (.width "spin" width (.atMost 1))
  encode value _ :=
    if value = .int 1 then .ok [1]
    else if value = .int (-1) then .ok [0]
    else .error (.domain "spin" (.other "not a spin"))
  decode bits := if bits = [1] then .int 1 else .int (-1)

theorem Encoding.spin_lawful : Encoding.spin.Lawful 1 := by
  have henc {value : Value} {width : Nat} {bits : List UInt8} :
      spin.encode value width = .ok bits ↔
        value = .int 1 ∧ bits = [1] ∨ value = .int (-1) ∧ bits = [0] := by
    simp only [spin]
    by_cases hup : value = .int 1
    · simp [hup, eq_comm]
    · by_cases hdown : value = .int (-1)
      · simp [hdown, eq_comm]
      · simp [hup, hdown]
  refine ⟨fun value bits h => ?_, fun value bits h => ?_, fun bits h => ?_⟩
  · rcases henc.1 h with ⟨-, rfl⟩ | ⟨-, rfl⟩ <;> decide
  · rcases henc.1 h with ⟨rfl, rfl⟩ | ⟨rfl, rfl⟩ <;> rfl
  · obtain ⟨b, rfl⟩ := List.length_eq_one_iff.1 h.length_eq
    rcases h.bit b List.mem_cons_self with rfl | rfl <;> rfl

/-- A spin, an integer and a vector of entries of no bits, bound in another order than that of the
layout. -/
theorem Layout.roundTrip_spin :
    let l : Layout :=
      ⟨[⟨"s", .spin, 1, 0⟩, ⟨"n", .offsetBinary, 3, 1⟩, ⟨"v", .packed 2 0, 0, 4⟩], 4⟩
    let a : Valuation := ⟨[("v", .vector [0, 0]), ("n", .int (-2)), ("s", .int 1)]⟩
    (l.Built fun e width => e.Lawful width) ∧ a.names.Nodup ∧ l.encode a = .ok ⟨[1, 0, 1, 0]⟩ ∧
      ∃ a', l.decode [1, 0, 1, 0] = .ok a' ∧ (a' == a) = true := by
  intro l a
  have hl : l.Built fun e width => e.Lawful width := by
    have h1 : Layout.empty.add "s" .spin 1 = .ok ⟨[⟨"s", .spin, 1, 0⟩], 1⟩ := rfl
    have h2 : Layout.add ⟨[⟨"s", .spin, 1, 0⟩], 1⟩ "n" .offsetBinary 3 =
        .ok ⟨[⟨"s", .spin, 1, 0⟩, ⟨"n", .offsetBinary, 3, 1⟩], 4⟩ := rfl
    have h3 : Layout.add ⟨[⟨"s", .spin, 1, 0⟩, ⟨"n", .offsetBinary, 3, 1⟩], 4⟩ "v"
        (.packed 2 0) 0 = .ok l := rfl
    exact .add (.add (.add .empty Encoding.spin_lawful h1) (Encoding.offsetBinary_lawful rfl) h2)
      (Encoding.packed_lawful rfl) h3
  have ha : a.names.Nodup := by decide
  have henc : l.encode a = .ok ⟨[1, 0, 1, 0]⟩ := by decide
  obtain ⟨-, -, a', ha', hagrees⟩ := (Layout.roundTrip hl).1 a _ ha henc
  exact ⟨hl, ha, henc, a', ha', hagrees⟩

end QuboProbe
