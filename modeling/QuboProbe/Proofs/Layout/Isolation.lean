/-
  QuboProbe.Proofs.Layout.Isolation

  Variables that leave one another alone.  A variable is decoded from the bits
  of its own field (`Variable.field_eq_iff`), and what is decoded is listed in
  the order of the variables (`Layout.entries_decode`), since no name is taken
  twice.  Where every encoding gives as many bits as its field has, the fields
  of an encoded valuation stand at their places whatever the other values are
  (`Layout.field_encode`), so that another value of one variable changes the
  bits of its field alone (`Layout.encode_frame`).
-/
import QuboProbe.Proofs.Layout.Outcomes
import QuboProbe.Proofs.Layout.Registration

namespace QuboProbe

/-! ## Bits of a field -/

namespace Variable

variable {v : Variable} {x y : List UInt8}

theorem field_eq_iff : v.field x = v.field y ↔ ∀ k, v.Owns k → x[k]? = y[k]? := by
  constructor
  · intro h k hk
    obtain ⟨d, rfl⟩ := Nat.exists_eq_add_of_le hk.1
    have hd : d < v.width := Nat.lt_of_add_lt_add_left hk.2
    rw [← v.getElem?_field x hd, h, v.getElem?_field y hd]
  · exact fun h => field_ext rfl fun k hk => h _ ⟨Nat.le_add_right _ _, Nat.add_lt_add_left hk _⟩

theorem field_ofBytes (v : Variable) (bits : List UInt8) :
    v.field (BitString.ofBytes bits).bytes = (BitString.ofBytes (v.field bits)).bytes := by
  rw [field, field, BitString.ofBytes, BitString.ofBytes, List.map_take, List.map_drop]

/-- In its field the string has the bits that the encoding of the variable gives for its value. -/
def WrittenIn (v : Variable) (a : Valuation) (x : BitString) : Prop :=
  ∃ value bits, a.get? v.name = some value ∧ v.encoding.encode value v.width = .ok bits ∧
    v.field x.bytes = (BitString.ofBytes bits).bytes ∧
    ((∀ b ∈ bits, b = 0 ∨ b = 1) → v.field x.bytes = bits)

end Variable

/-! ## Bindings in their order -/

namespace Valuation

theorem insertEntry_of_notMem {name : String} {entries : List (String × Value)}
    (h : name ∉ entries.map Prod.fst) (value : Value) :
    insertEntry name value entries = entries ++ [(name, value)] := by
  induction entries with
  | nil => rfl
  | cons e rest ih =>
    obtain ⟨k, v⟩ := e
    rw [List.map_cons, List.mem_cons, not_or] at h
    rw [insertEntry, if_neg (Ne.symm h.1), ih h.2, List.cons_append]

/-- Bindings of different names are kept as they come. -/
theorem entries_ofList {bindings : List (String × Value)}
    (hnodup : (bindings.map Prod.fst).Nodup) : (ofList bindings).entries = bindings := by
  induction bindings using List.reverseRecOn with
  | nil => rfl
  | append_singleton bindings b ih =>
    rw [List.map_append, List.map_singleton, List.nodup_append] at hnodup
    have hnew : b.1 ∉ bindings.map Prod.fst := fun h =>
      hnodup.2.2 b.1 h b.1 (List.mem_singleton_self _) rfl
    have hlast : ofList (bindings ++ [b]) = (ofList bindings).insert b.1 b.2 := List.foldl_concat ..
    rw [hlast, insert, ih hnodup.1, insertEntry_of_notMem hnew]

end Valuation

namespace Layout

variable {l : Layout} {a b : Valuation} {x y : BitString}

/-! ## Decoding -/

/-- The names of the variables with their values, in the order of the layout. -/
theorem entries_decode (hl : l.WellFormed) {bits : List UInt8} (hbits : bits.length = l.size) :
    ∃ a values, l.decode bits = .ok a ∧ l.decodeValues bits = .ok values ∧
      values.length = l.vars.length ∧ a.entries = (l.vars.map Variable.name).zip values := by
  refine ⟨_, _, decode_eq_ok (x := ⟨bits⟩) hbits, if_neg (not_not_intro hbits),
    List.length_map .., ?_⟩
  rw [Valuation.entries_ofList, List.zip_map']
  rw [List.map_map]
  exact hl.nodup

theorem get?_decode_congr (hl : l.WellFormed) {x y : List UInt8} (hx : x.length = l.size)
    (hy : y.length = l.size) {v : Variable} (hv : v ∈ l.vars)
    (hsame : ∀ k, v.Owns k → x[k]? = y[k]?) :
    ∃ a b value, l.decode x = .ok a ∧ l.decode y = .ok b ∧ a.get? v.name = some value ∧
      b.get? v.name = some value := by
  have ha := decode_eq_ok (x := ⟨x⟩) hx
  have hb := decode_eq_ok (x := ⟨y⟩) hy
  refine ⟨_, _, _, ha, hb, get?_decode hl hx ha hv, ?_⟩
  rw [get?_decode hl hy hb hv, Variable.field_eq_iff.2 hsame]

/-! ## Encoding -/

/-- What is encoded has in each field what the encoding of the variable gives for its value. -/
theorem field_encode (hl : l.WellFormed) (hfills : ∀ v ∈ l.vars, v.encoding.Fills v.width)
    (h : l.encode a = .ok x) :
    x.length = l.size ∧ ∀ v ∈ l.vars, ∃ bits, v.Takes a bits ∧
      v.field x.bytes = (BitString.ofBytes bits).bytes := by
  obtain ⟨-, bits, hbits, rfl⟩ := encode_eq_ok.1 h
  obtain ⟨hstop, hslices⟩ := encodeFields_slices hl.contiguous hfills hbits
  refine ⟨?_, fun v hv => ⟨v.field bits, encodeField_eq_ok.1 (hslices v hv), v.field_ofBytes bits⟩⟩
  rw [BitString.length, BitString.ofBytes, List.length_map, ← hstop, Nat.zero_add]

theorem writtenIn_encode (hl : l.WellFormed) (hfills : ∀ v ∈ l.vars, v.encoding.Fills v.width)
    (h : l.encode a = .ok x) {v : Variable} (hv : v ∈ l.vars) : v.WrittenIn a x := by
  obtain ⟨bits, ⟨value, hget, hencode⟩, hfield⟩ := (field_encode hl hfills h).2 v hv
  refine ⟨value, bits, hget, hencode, hfield, fun hbits => ?_⟩
  rw [hfield, ofBytes_of_binary ⟨hfills v hv value bits hencode, hbits⟩]

/-- Bits outside of a field do not depend on the value of its variable. -/
theorem encode_frame (hl : l.WellFormed) (hfills : ∀ v ∈ l.vars, v.encoding.Fills v.width)
    (ha : l.encode a = .ok x) (hb : l.encode b = .ok y) {v : Variable} (hv : v ∈ l.vars)
    (hsame : ∀ n, n ≠ v.name → a.get? n = b.get? n) {k : Nat} (hk : ¬ v.Owns k) :
    x.bytes[k]? = y.bytes[k]? := by
  obtain ⟨hx, hfields⟩ := field_encode hl hfills ha
  obtain ⟨hy, hfields'⟩ := field_encode hl hfills hb
  rw [BitString.length] at hx hy
  by_cases hsize : k < l.size
  · -- the bit belongs to another variable, which has the same value in both
    obtain ⟨u, hu, howns⟩ := hl.exists_owner hsize
    have hne : u.name ≠ v.name := fun hname => by
      obtain rfl := List.inj_on_of_nodup_map hl.nodup hu hv hname
      exact hk howns
    obtain ⟨bits, ⟨value, hget, hencode⟩, hfield⟩ := hfields u hu
    obtain ⟨bits', ⟨value', hget', hencode'⟩, hfield'⟩ := hfields' u hu
    obtain rfl : value = value' := Option.some.inj (hget.symm.trans ((hsame _ hne).trans hget'))
    obtain rfl : bits = bits' := Except.ok.inj (hencode.symm.trans hencode')
    exact Variable.field_eq_iff.1 (hfield.trans hfield'.symm) k howns
  · rw [List.getElem?_eq_none (by omega), List.getElem?_eq_none (by omega)]

/-- After any registrations, a variable is decoded from the bits of its field and from nothing
else, and decoding lists the variables in the order of registration with their values.  Where every
encoding gives as many bits as its field has, valuations that are encoded and differ in the value of
one variable are encoded as strings that differ in its field alone, which has the bits that its
encoding gives for the value. -/
theorem fields_isolated (vs : List (String × Encoding × Nat)) :
    let l := afterAll vs
    (∀ v ∈ l.vars, ∀ x y : List UInt8, x.length = l.size → y.length = l.size →
      (∀ k, v.offset ≤ k → k < v.offset + v.width → x[k]? = y[k]?) →
      ∃ a b value, l.decode x = .ok a ∧ l.decode y = .ok b ∧ a.get? v.name = some value ∧
        b.get? v.name = some value) ∧
    (∀ bits : List UInt8, l.decodeDict bits = l.decode bits ∧
      (bits.length = l.size → ∃ a values, l.decode bits = .ok a ∧
        l.decodeValues bits = .ok values ∧ values.length = l.vars.length ∧
        a.entries = (l.vars.map Variable.name).zip values)) ∧
    ((∀ v ∈ l.vars, ∀ value bits, v.encoding.encode value v.width = .ok bits →
        bits.length = v.width) →
      ∀ v ∈ l.vars, ∀ a b x y, l.encode a = .ok x → l.encode b = .ok y →
        (∀ n, n ≠ v.name → a.get? n = b.get? n) →
        x.length = l.size ∧ y.length = l.size ∧
        (∀ k, ¬(v.offset ≤ k ∧ k < v.offset + v.width) → x.bytes[k]? = y.bytes[k]?) ∧
        v.WrittenIn a x ∧ v.WrittenIn b y) := by
  intro l
  have hl : l.WellFormed := wellFormed_afterAll vs
  refine ⟨fun v hv x y hx hy hsame => ?_, fun bits => ⟨rfl, entries_decode hl⟩,
    fun hfills v hv a b x y ha hb hsame => ?_⟩
  · exact get?_decode_congr hl hx hy hv fun k hk => hsame k hk.1 hk.2
  · exact ⟨(field_encode hl hfills ha).1, (field_encode hl hfills hb).1,
      fun k hk => encode_frame hl hfills ha hb hv hsame hk, writtenIn_encode hl hfills ha hv,
      writtenIn_encode hl hfills hb hv⟩

/-- A name that is refused the second time, a field of no bits, and valuations in two orders that
differ in a spin. -/
theorem fields_isolated_spin :
    let vs : List (String × Encoding × Nat) :=
      [("n", .unsigned, 2), ("e", .packed 2 0, 0), ("n", .spin, 1), ("s", .spin, 1)]
    let l := afterAll vs
    let s : Variable := ⟨"s", .spin, 1, 2⟩
    let a : Valuation := ⟨[("n", .int 2), ("e", .vector [0, 0]), ("s", .int 1)]⟩
    let b : Valuation := ⟨[("s", .int (-1)), ("e", .vector [0, 0]), ("n", .int 2)]⟩
    s ∈ l.vars ∧ l.encode a = .ok ⟨[0, 1, 1]⟩ ∧ l.encode b = .ok ⟨[0, 1, 0]⟩ ∧
      (∀ n, n ≠ s.name → a.get? n = b.get? n) ∧ s.WrittenIn a ⟨[0, 1, 1]⟩ ∧
      s.WrittenIn b ⟨[0, 1, 0]⟩ ∧
      (∃ c d value, l.decode [0, 1, 1] = .ok c ∧ l.decode [1, 1, 1] = .ok d ∧
        c.get? "s" = some value ∧ d.get? "s" = some value) ∧
      ∃ c values, l.decode [0, 1, 1] = .ok c ∧ l.decodeValues [0, 1, 1] = .ok values ∧
        c.entries = ["n", "e", "s"].zip values := by
  intro vs l s a b
  obtain ⟨hdecode, hlist, hencode⟩ := fields_isolated vs
  have hvars : l.vars = [⟨"n", .unsigned, 2, 0⟩, ⟨"e", .packed 2 0, 0, 2⟩, s] := rfl
  have hs : s ∈ l.vars := by simp [hvars]
  have hfills : ∀ v ∈ l.vars, v.encoding.Fills v.width := by
    rw [hvars]
    simp only [List.forall_mem_cons]
    exact ⟨(Encoding.unsigned_lawful rfl).fills, (Encoding.packed_lawful rfl).fills,
      Encoding.spin_lawful.fills, fun v hv => absurd hv List.not_mem_nil⟩
  have ha : l.encode a = .ok ⟨[0, 1, 1]⟩ := by decide
  have hb : l.encode b = .ok ⟨[0, 1, 0]⟩ := by decide
  have hsame : ∀ n, n ≠ s.name → a.get? n = b.get? n := by
    intro n hn
    have hn : n ≠ "s" := hn
    by_cases h : n = "n"
    · subst h
      rfl
    · by_cases h' : n = "e"
      · subst h'
        rfl
      · simp [a, b, Valuation.get?, List.lookup_cons, beq_false_of_ne hn, beq_false_of_ne h,
          beq_false_of_ne h']
  obtain ⟨-, -, -, hwritten, hwritten'⟩ := hencode hfills s hs a b _ _ ha hb hsame
  obtain ⟨c, values, hc, hvalues, -, hentries⟩ := (hlist [0, 1, 1]).2 rfl
  refine ⟨hs, ha, hb, hsame, hwritten, hwritten', ?_, c, values, hc, hvalues, hentries⟩
  refine hdecode s hs [0, 1, 1] [1, 1, 1] rfl rfl fun k hstart hstop => ?_
  obtain rfl : k = 2 := by
    simp only [s] at hstart hstop
    omega
  rfl

end Layout

end QuboProbe
