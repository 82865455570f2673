/-
  QuboProbe.Proofs.Layout.Codec

  Encoding and decoding of whole valuations.  Over a well-formed layout whose
  encodings are lawful, every string of zeros and ones is the encoding of what
  is decoded from it (`Layout.encode_decode`), and what is encoded is decoded
  to a valuation that binds the same names to the same values
  (`Layout.decode_encode`).
-/
import QuboProbe.Proofs.Encoding.Lawful
import QuboProbe.Proofs.Layout.Invariant

namespace QuboProbe

/-! ## Bindings that are inserted -/

namespace Valuation

theorem mem_names_insertEntry {name n : String} {value : Value} {entries : List (String × Value)} :
    n ∈ (insertEntry name value entries).map Prod.fst ↔ n = name ∨ n ∈ entries.map Prod.fst := by
  induction entries with
  | nil => simp [insertEntry]
  | cons e rest ih =>
    obtain ⟨k, v⟩ := e
    rw [insertEntry]
    by_cases hk : k = name
    · rw [if_pos hk, List.map_cons, List.map_cons, List.mem_cons, List.mem_cons, hk]
      tauto
    · rw [if_neg hk, List.map_cons, List.map_cons, List.mem_cons, List.mem_cons, ih]
      tauto

theorem mem_names_ofList {bindings : List (String × Value)} {n : String} :
    n ∈ (ofList bindings).names ↔ n ∈ bindings.map Prod.fst := by
  have h (a : Valuation) : n ∈ (bindings.foldl (fun a b => a.insert b.1 b.2) a).names ↔
      n ∈ a.names ∨ n ∈ bindings.map Prod.fst := by
    induction bindings generalizing a with
    | nil => simp
    | cons b bindings ih =>
      have hinsert : n ∈ (a.insert b.1 b.2).names ↔ n = b.1 ∨ n ∈ a.names := mem_names_insertEntry
      rw [List.foldl_cons, ih, hinsert, List.map_cons, List.mem_cons]
      tauto
  rw [ofList, h]
  simp [names, empty]

theorem get?_foldl_insert_of_notMem {bindings : List (String × Value)} {n : String}
    (hn : n ∉ bindings.map Prod.fst) (a : Valuation) :
    (bindings.foldl (fun a b => a.insert b.1 b.2) a).get? n = a.get? n := by
  induction bindings generalizing a with
  | nil => rfl
  | cons b bindings ih =>
    rw [List.map_cons, List.mem_cons, not_or] at hn
    rw [List.foldl_cons, ih hn.2, get?_insert, if_neg hn.1]

theorem get?_foldl_insert {bindings : List (String × Value)}
    (hnodup : (bindings.map Prod.fst).Nodup) {n : String} {value : Value}
    (hmem : (n, value) ∈ bindings) (a : Valuation) :
    (bindings.foldl (fun a b => a.insert b.1 b.2) a).get? n = some value := by
  induction bindings generalizing a with
  | nil => exact absurd hmem List.not_mem_nil
  | cons b bindings ih =>
    rw [List.map_cons, List.nodup_cons] at hnodup
    rw [List.foldl_cons]
    rcases List.mem_cons.1 hmem with rfl | hmem
    · rw [get?_foldl_insert_of_notMem hnodup.1, get?_insert, if_pos rfl]
    · exact ih hnodup.2 hmem _

/-- A name is bound to the value that it is inserted with, if it is inserted once. -/
theorem get?_ofList {bindings : List (String × Value)} (hnodup : (bindings.map Prod.fst).Nodup)
    {n : String} {value : Value} (hmem : (n, value) ∈ bindings) :
    (ofList bindings).get? n = some value := get?_foldl_insert hnodup hmem empty

theorem get?_isSome {a : Valuation} {n : String} : (a.get? n).isSome ↔ n ∈ a.names := by
  obtain ⟨entries⟩ := a
  rw [get?, names]
  induction entries with
  | nil => simp
  | cons e rest ih =>
    obtain ⟨k, v⟩ := e
    rw [List.map_cons, List.mem_cons, ← ih]
    by_cases hk : n = k
    · simp [hk]
    · simp [List.lookup_cons, beq_false_of_ne hk, hk]

end Valuation

/-! ## Fields of variables -/

namespace Layout

/-- Every variable has an encoding that is lawful at its width. -/
def Lawful (l : Layout) : Prop := ∀ v ∈ l.vars, v.encoding.Lawful v.width

variable {vars : List Variable} {start stop : Nat} {a : Valuation}

theorem encodeField_eq_ok {v : Variable} {bits : List UInt8} :
    encodeField a v = .ok bits ↔
      ∃ value, a.get? v.name = some value ∧ v.encoding.encode value v.width = .ok bits := by
  rw [encodeField]
  cases a.get? v.name with
  | none => simp
  | some value =>
    cases h : v.encoding.encode value v.width with
    | error e => simp [h]
    | ok bits => simp [h]

theorem encodeFields_cons {v : Variable} {bits : List UInt8} :
    encodeFields a (v :: vars) = .ok bits ↔
      ∃ field more, encodeField a v = .ok field ∧ encodeFields a vars = .ok more ∧
        field ++ more = bits := by
  rw [encodeFields]
  cases encodeField a v with
  | error e => simp
  | ok field =>
    cases encodeFields a vars with
    | error e => simp
    | ok more => simp

/-- Every bit that is encoded is one of a field. -/
theorem exists_field_of_mem {bits : List UInt8} (h : encodeFields a vars = .ok bits) {b : UInt8}
    (hb : b ∈ bits) : ∃ v ∈ vars, ∃ field, encodeField a v = .ok field ∧ b ∈ field := by
  induction vars generalizing bits with
  | nil =>
    obtain rfl : [] = bits := by simpa [encodeFields] using h
    exact absurd hb List.not_mem_nil
  | cons v vars ih =>
    obtain ⟨field, more, hfield, hmore, rfl⟩ := encodeFields_cons.1 h
    rcases List.mem_append.1 hb with hb | hb
    · exact ⟨v, List.mem_cons_self, field, hfield, hb⟩
    · obtain ⟨u, hu, hrest⟩ := ih hmore hb
      exact ⟨u, List.mem_cons_of_mem v hu, hrest⟩

/-- Where every encoding gives as many bits as the field has, each field is found at its place. -/
theorem encodeFields_slices (hvars : Variable.Contiguous start vars stop)
    (hfills : ∀ v ∈ vars, v.encoding.Fills v.width) {bits : List UInt8}
    (h : encodeFields a vars = .ok bits) :
    start + bits.length = stop ∧ ∀ v ∈ vars,
      encodeField a v = .ok ((bits.drop (v.offset - start)).take v.width) := by
  -- the fields follow one another, so each is cut off in front of the rest
  induction hvars generalizing bits with
  | nil n =>
    obtain rfl : [] = bits := by simpa [encodeFields] using h
    exact ⟨rfl, by simp⟩
  | @cons v vars stop hrest ih =>
    obtain ⟨field, more, hfield, hmore, rfl⟩ := encodeFields_cons.1 h
    obtain ⟨value, -, henc⟩ := encodeField_eq_ok.1 hfield
    have hlength : field.length = v.width := hfills v List.mem_cons_self value field henc
    obtain ⟨hstop, hslices⟩ := ih (fun u hu => hfills u (List.mem_cons_of_mem v hu)) hmore
    refine ⟨?_, fun u hu => ?_⟩
    · rw [List.length_append, hlength, ← Nat.add_assoc]
      exact hstop
    · rcases List.mem_cons.1 hu with rfl | hu
      · rw [Nat.sub_self, List.drop_zero, List.take_left' hlength, hfield]
      · -- the other fields start behind this one
        have hbehind := (hrest.bounds hu).1
        have hdrop : (field ++ more).drop (u.offset - v.offset) =
            more.drop (u.offset - v.stop) := by
          rw [List.drop_append, List.drop_eq_nil_of_le, List.nil_append, hlength]
          · congr 1
            simp only [Variable.stop] at hbehind ⊢
            omega
          · simp only [Variable.stop] at hbehind
            omega
        rw [hdrop]
        exact hslices u hu

/-- The fields that are encoded are zeros and ones, and each value is read back from its place. -/
theorem encodeFields_spec (hvars : Variable.Contiguous start vars stop)
    (hlawful : ∀ v ∈ vars, v.encoding.Lawful v.width) {bits : List UInt8}
    (h : encodeFields a vars = .ok bits) :
    (⟨bits⟩ : BitString).Binary (stop - start) ∧ ∀ v ∈ vars,
      a.get? v.name = some (v.encoding.decode ((bits.drop (v.offset - start)).take v.width)) := by
  obtain ⟨hstop, hslices⟩ := encodeFields_slices hvars (fun v hv => (hlawful v hv).fills) h
  refine ⟨⟨?_, fun b hb => ?_⟩, fun v hv => ?_⟩
  · show bits.length = stop - start
    omega
  · obtain ⟨v, hv, field, hfield, hb⟩ := exists_field_of_mem h hb
    obtain ⟨value, -, henc⟩ := encodeField_eq_ok.1 hfield
    exact ((hlawful v hv).binary value field henc).bit b hb
  · obtain ⟨value, hget, henc⟩ := encodeField_eq_ok.1 (hslices v hv)
    rw [hget, (hlawful v hv).decode_encode value _ henc]

/-- Values that are read from zeros and ones are encoded as these. -/
theorem encodeFields_decoded {bits : List UInt8} (hvars : Variable.Contiguous start vars stop)
    (hlawful : ∀ v ∈ vars, v.encoding.Lawful v.width) (hbits : (⟨bits⟩ : BitString).Binary stop)
    (ha : ∀ v ∈ vars, a.get? v.name = some (v.encoding.decode (v.field bits))) :
    encodeFields a vars = .ok (bits.drop start) := by
  induction hvars with
  | nil n =>
    have hlength : bits.length = n := hbits.length_eq
    rw [encodeFields, List.drop_eq_nil_of_le (Nat.le_of_eq hlength)]
  | @cons v vars stop hrest ih =>
    have hv := hlawful v List.mem_cons_self
    have hrestFields := ih (fun u hu => hlawful u (List.mem_cons_of_mem v hu)) hbits
      fun u hu => ha u (List.mem_cons_of_mem v hu)
    have hfield : (⟨v.field bits⟩ : BitString).Binary v.width := hbits.slice hrest.le
    refine encodeFields_cons.2 ⟨v.field bits, bits.drop v.stop, ?_, hrestFields, ?_⟩
    · exact encodeField_eq_ok.2 ⟨_, ha v List.mem_cons_self, hv.encode_decode _ hfield⟩
    · rw [Variable.field, Variable.stop, ← List.drop_drop, List.take_append_drop]

/-! ## Whole strings -/

variable {l : Layout} {x : BitString}

theorem decode_eq_ok (hx : x.length = l.size) :
    l.decode x.bytes =
      .ok (.ofList (l.vars.map fun v => (v.name, v.encoding.decode (v.field x.bytes)))) := by
  have hlength : x.bytes.length = l.size := hx
  rw [decode, if_neg (not_not_intro hlength)]

/-- A variable alone is bound to what all bits stand for. -/
theorem decode_single {name : String} {e : Encoding} {width : Nat} (hx : x.length = width) :
    (⟨[⟨name, e, width, 0⟩], width⟩ : Layout).decode x.bytes =
      .ok ⟨[(name, e.decode x.bytes)]⟩ := by
  have hfield : (x.bytes.drop 0).take width = x.bytes := List.take_of_length_le (Nat.le_of_eq hx)
  rw [decode_eq_ok hx, List.map_singleton, Variable.field, hfield]
  rfl

theorem ofBytes_of_binary {n : Nat} {bits : List UInt8} (h : (⟨bits⟩ : BitString).Binary n) :
    BitString.ofBytes bits = ⟨bits⟩ := by
  refine congrArg BitString.mk ((List.map_congr_left fun b hb => ?_).trans (List.map_id bits))
  rcases h.bit b hb with rfl | rfl <;> rfl

/-- A decoded valuation binds every variable to what its field stands for. -/
theorem get?_decode (hl : l.WellFormed) (hx : x.length = l.size) {b : Valuation}
    (hb : l.decode x.bytes = .ok b) {v : Variable} (hv : v ∈ l.vars) :
    b.get? v.name = some (v.encoding.decode (v.field x.bytes)) := by
  obtain rfl := Except.ok.inj ((decode_eq_ok hx).symm.trans hb)
  refine Valuation.get?_ofList ?_ (List.mem_map_of_mem hv)
  rw [List.map_map]
  exact hl.nodup

theorem names_decode (hx : x.length = l.size) {b : Valuation} (hb : l.decode x.bytes = .ok b)
    {n : String} : n ∈ b.names ↔ n ∈ l.vars.map Variable.name := by
  obtain rfl := Except.ok.inj ((decode_eq_ok hx).symm.trans hb)
  rw [Valuation.mem_names_ofList, List.map_map]
  rfl

/-- Encoding needs that every name is a variable's, and then it encodes the fields. -/
theorem encode_eq_ok :
    l.encode a = .ok x ↔
      (∀ n ∈ a.names, n ∈ l.vars.map Variable.name) ∧
        ∃ bits, encodeFields a l.vars = .ok bits ∧ .ofBytes bits = x := by
  rw [encode]
  have hnames : (a.names.find? fun n => (l.find? n).isNone) = none ↔
      ∀ n ∈ a.names, n ∈ l.vars.map Variable.name := by
    rw [List.find?_eq_none]
    simp only [Option.isNone_iff_eq_none, find?_eq_none, not_not]
  cases hfind : a.names.find? fun n => (l.find? n).isNone with
  | some n =>
    rw [hfind] at hnames
    simp only [reduceCtorEq, false_iff] at hnames
    simp only [reduceCtorEq, hnames, false_and]
  | none =>
    have hall := hnames.1 hfind
    cases encodeFields a l.vars with
    | error e => simp
    | ok bits =>
      simp only [Except.ok.injEq, exists_eq_left']
      exact ⟨fun h => ⟨hall, h⟩, fun h => h.2⟩

/-- Zeros and ones are the encoding of what is decoded from them. -/
theorem encode_decode (hl : l.WellFormed) (hlawful : l.Lawful) (hx : x.Binary l.size) :
    ∃ b, l.decode x.bytes = .ok b ∧ l.encode b = .ok x := by
  refine ⟨_, decode_eq_ok hx.length_eq, ?_⟩
  have hb := decode_eq_ok (l := l) hx.length_eq
  refine encode_eq_ok.2 ⟨fun n hn => (names_decode hx.length_eq hb).1 hn, x.bytes, ?_,
    ofBytes_of_binary hx⟩
  rw [encodeFields_decoded hl.contiguous hlawful hx fun v hv => get?_decode hl hx.length_eq hb hv,
    List.drop_zero]

/-- What is encoded is decoded to the same values of the same names. -/
theorem decode_encode (hl : l.WellFormed) (hlawful : l.Lawful) (h : l.encode a = .ok x) :
    x.Binary l.size ∧ ∃ b, l.decode x.bytes = .ok b ∧ ∀ n, b.get? n = a.get? n := by
  obtain ⟨hnames, bits, hfields, rfl⟩ := encode_eq_ok.1 h
  obtain ⟨hbinary, hget⟩ := encodeFields_spec hl.contiguous hlawful hfields
  rw [Nat.sub_zero] at hbinary
  rw [ofBytes_of_binary hbinary]
  have hb := decode_eq_ok (l := l) hbinary.length_eq
  refine ⟨hbinary, _, hb, fun n => ?_⟩
  by_cases hn : n ∈ l.vars.map Variable.name
  · obtain ⟨v, hv, rfl⟩ := List.mem_map.1 hn
    rw [get?_decode hl hbinary.length_eq hb hv, hget v hv, Nat.sub_zero]
    rfl
  · -- neither binds a name that is not a variable's
    have hb' : ¬ (Valuation.get? _ n).isSome := fun h =>
      hn ((names_decode hbinary.length_eq hb).1 (Valuation.get?_isSome.1 h))
    have ha' : ¬ (a.get? n).isSome := fun h => hn (hnames n (Valuation.get?_isSome.1 h))
    rw [Option.not_isSome_iff_eq_none] at hb' ha'
    rw [hb', ha']

end Layout

end QuboProbe
