/-
  QuboProbe.Proofs.Layout.Registration

  Layouts after any registrations, some of which may have failed.  A
  registration adds one variable behind the others or leaves the layout as it
  was (`Layout.run_register`), so every layout that registrations lead to is
  well-formed.  In a well-formed layout the fields of the variables divide the
  bits among themselves, each bit belonging to one field
  (`Layout.WellFormed.existsUnique_owner`), and decoding finds every field
  within the bits (`Layout.registrations_partition`).
-/
import QuboProbe.Encoding.Unsigned
import QuboProbe.Encoding.Packed
import QuboProbe.Proofs.Layout.RoundTrip

namespace QuboProbe

/-! ## Neighbouring fields -/

namespace Variable

/-- A bit of the field of a variable. -/
def Owns (v : Variable) (k : Nat) : Prop := v.offset ≤ k ∧ k < v.stop

instance (v : Variable) (k : Nat) : Decidable (v.Owns k) :=
  inferInstanceAs (Decidable (v.offset ≤ k ∧ k < v.stop))

/-- The field's bits stand in the string from where the field starts. -/
theorem getElem?_field (v : Variable) (bits : List UInt8) {k : Nat} (hk : k < v.width) :
    (v.field bits)[k]? = bits[v.offset + k]? := by
  rw [field, List.getElem?_take_of_lt hk, List.getElem?_drop]

theorem field_ext {v w : Variable} {x y : List UInt8} (hwidth : v.width = w.width)
    (h : ∀ k < v.width, x[v.offset + k]? = y[w.offset + k]?) : v.field x = w.field y := by
  apply List.ext_getElem?
  intro k
  by_cases hk : k < v.width
  · rw [v.getElem?_field x hk, w.getElem?_field y (hwidth ▸ hk), h k hk]
  · rw [field, field, List.getElem?_take_eq_none (by omega), List.getElem?_take_eq_none (by omega)]

namespace Contiguous

variable {start stop : Nat} {vars : List Variable}

/-- The fields take up the widths of all variables. -/
theorem stop_eq (h : Contiguous start vars stop) :
    stop = start + (vars.map Variable.width).sum := by
  induction h with
  | nil n => simp
  | cons v _ ih =>
    rw [ih, Variable.stop, List.map_cons, List.sum_cons, Nat.add_assoc]

theorem offset_head (h : Contiguous start vars stop) {v : Variable} (hv : vars[0]? = some v) :
    v.offset = start := by
  cases h with
  | nil n => simp at hv
  | cons u h =>
    obtain rfl : u = v := by simpa using hv
    rfl

/-- Each field starts where the one before it stops. -/
theorem offset_succ (h : Contiguous start vars stop) {i : Nat} {v w : Variable}
    (hv : vars[i]? = some v) (hw : vars[i + 1]? = some w) : w.offset = v.offset + v.width := by
  induction h generalizing i with
  | nil n => simp at hv
  | cons u hrest ih =>
    rw [List.getElem?_cons_succ] at hw
    cases i with
    | zero =>
      obtain rfl : u = v := by simpa using hv
      exact hrest.offset_head hw
    | succ i =>
      rw [List.getElem?_cons_succ] at hv
      exact ih hv hw

/-- Fields that come later start later. -/
theorem pairwise (h : Contiguous start vars stop) :
    vars.Pairwise fun v w => v.stop ≤ w.offset := by
  induction h with
  | nil n => exact List.Pairwise.nil
  | cons v hrest ih => exact List.Pairwise.cons (fun w hw => (hrest.bounds hw).1) ih

theorem exists_owner (h : Contiguous start vars stop) {k : Nat} (hstart : start ≤ k)
    (hstop : k < stop) : ∃ (i : Nat) (v : Variable), vars[i]? = some v ∧ v.Owns k := by
  induction h with
  | nil n => omega
  | cons v hrest ih =>
    by_cases hk : k < v.stop
    · exact ⟨0, v, rfl, hstart, hk⟩
    · obtain ⟨i, w, hw, hown⟩ := ih (by omega) hstop
      exact ⟨i + 1, w, by rwa [List.getElem?_cons_succ], hown⟩

/-- No bit belongs to two fields. -/
theorem index_eq (h : Contiguous start vars stop) {i j k : Nat} {v w : Variable}
    (hv : vars[i]? = some v) (hw : vars[j]? = some w) (hvk : v.Owns k) (hwk : w.Owns k) :
    i = j := by
  obtain ⟨hi, rfl⟩ := List.getElem?_eq_some_iff.1 hv
  obtain ⟨hj, rfl⟩ := List.getElem?_eq_some_iff.1 hw
  have hpairs := List.pairwise_iff_getElem.1 h.pairwise
  have hvk' := hvk.2
  have hwk' := hwk.2
  -- of two fields the later one starts where the earlier one has stopped
  rcases Nat.lt_trichotomy i j with hlt | heq | hgt
  · have := hpairs i j hi hj hlt
    have := hwk.1
    omega
  · exact heq
  · have := hpairs j i hj hi hgt
    have := hvk.1
    omega

end Contiguous

end Variable

/-! ## Fields of a layout -/

namespace Layout

variable {l l' : Layout} {name : String} {e : Encoding} {width : Nat}

namespace WellFormed

/-- Each bit belongs to the field of one variable. -/
theorem existsUnique_owner (hl : l.WellFormed) {k : Nat} (hk : k < l.size) :
    ∃! i : Nat, ∃ v : Variable, l.vars[i]? = some v ∧ v.Owns k := by
  obtain ⟨i, v, hv, hown⟩ := hl.contiguous.exists_owner (Nat.zero_le k) hk
  refine ⟨i, ⟨v, hv, hown⟩, ?_⟩
  rintro j ⟨w, hw, hown'⟩
  exact hl.contiguous.index_eq hw hv hown' hown

theorem exists_owner (hl : l.WellFormed) {k : Nat} (hk : k < l.size) :
    ∃ v ∈ l.vars, v.Owns k := by
  obtain ⟨i, v, hv, hown⟩ := hl.contiguous.exists_owner (Nat.zero_le k) hk
  exact ⟨v, List.mem_of_getElem? hv, hown⟩

theorem owner_unique (hl : l.WellFormed) {k : Nat} {v w : Variable} (hv : v ∈ l.vars)
    (hw : w ∈ l.vars) (hvk : v.Owns k) (hwk : w.Owns k) : v = w := by
  obtain ⟨i, hi⟩ := List.mem_iff_getElem?.1 hv
  obtain ⟨j, hj⟩ := List.mem_iff_getElem?.1 hw
  obtain rfl := hl.contiguous.index_eq hi hj hvk hwk
  exact Option.some.inj (hi.symm.trans hj)

theorem size_eq (hl : l.WellFormed) : l.size = (l.vars.map Variable.width).sum :=
  hl.contiguous.stop_eq.trans (Nat.zero_add _)

/-- In as many bits as the layout has, every field is found whole. -/
theorem length_field (hl : l.WellFormed) {bits : List UInt8} (hbits : bits.length = l.size)
    {v : Variable} (hv : v ∈ l.vars) :
    v.stop ≤ bits.length ∧ (v.field bits).length = v.width := by
  have hstop := (hl.contiguous.bounds hv).2
  rw [← hbits] at hstop
  refine ⟨hstop, ?_⟩
  rw [Variable.field, List.length_take, List.length_drop]
  rw [Variable.stop] at hstop
  omega

end WellFormed

/-! ## Registrations -/

/-- A registration succeeds as an addition does, and an error leaves the layout as it was. -/
theorem run_register (l : Layout) (name : String) (e : Encoding) (width : Nat) :
    (register name e width).run l =
      match l.add name e width with
      | .ok l' => (.ok (), l')
      | .error fault => (.error fault, l) := by
  have hget (next : Layout → ExceptT CodingError (StateM Layout) Unit) :
      (get >>= next).run l = (next l).run l := rfl
  rw [register, hget, add]
  -- the changes come after both checks, so an error finds `l` as it was
  by_cases htaken : (l.find? name).isSome
  · rw [if_pos htaken, if_pos htaken]
    rfl
  · rw [if_neg htaken, if_neg htaken]
    cases e.checkWidth width with
    | error fault => rfl
    | ok u => rfl

theorem run_register_of_taken (htaken : name ∈ l.vars.map Variable.name) :
    (register name e width).run l = (.error (.duplicateName name), l) := by
  rw [run_register, add, if_pos (find?_isSome.2 htaken)]

theorem run_register_of_width (hfree : name ∉ l.vars.map Variable.name) {fault : CodingError}
    (hwidth : e.checkWidth width = .error fault) :
    (register name e width).run l = (.error fault, l) := by
  rw [run_register, add, if_neg fun h => hfree (find?_isSome.1 h), hwidth]

theorem run_register_of_ok (hfree : name ∉ l.vars.map Variable.name)
    (hwidth : e.checkWidth width = .ok ()) :
    (register name e width).run l =
      (.ok (), ⟨l.vars ++ [⟨name, e, width, l.size⟩], l.size + width⟩) := by
  rw [run_register, add_eq_ok.2 ⟨hfree, hwidth, rfl⟩]

/-- The layout after a registration, which may have failed. -/
def after (l : Layout) (v : String × Encoding × Nat) : Layout :=
  Prod.snd ((register v.1 v.2.1 v.2.2).run l)

theorem WellFormed.after (hl : l.WellFormed) (v : String × Encoding × Nat) :
    (l.after v).WellFormed := by
  rw [Layout.after, run_register]
  cases h : l.add v.1 v.2.1 v.2.2 with
  | error fault => exact hl
  | ok l' => exact hl.add h

/-- The layout after registrations in turn, from no variables on. -/
def afterAll (vs : List (String × Encoding × Nat)) : Layout := vs.foldl after empty

theorem wellFormed_afterAll (vs : List (String × Encoding × Nat)) : (afterAll vs).WellFormed := by
  have hfold (l : Layout) (hl : l.WellFormed) : (vs.foldl Layout.after l).WellFormed := by
    induction vs generalizing l with
    | nil => exact hl
    | cons v vs ih => exact ih _ (hl.after v)
  exact hfold empty ⟨List.nodup_nil, .nil 0⟩

/-! ## Decoding -/

/-- Decoding asks for nothing but the right number of bits. -/
theorem decode_of_length {bits : List UInt8} (hbits : bits.length = l.size) :
    (∃ a, l.decode bits = .ok a) ∧ ∃ values, l.decodeValues bits = .ok values := by
  rw [decode, decodeValues, if_neg (not_not_intro hbits), if_neg (not_not_intro hbits)]
  exact ⟨⟨_, rfl⟩, ⟨_, rfl⟩⟩

theorem decode_of_length_ne {bits : List UInt8} (hbits : bits.length ≠ l.size) :
    l.decode bits = .error (.lengthMismatch l.size bits.length) ∧
      l.decodeValues bits = .error (.lengthMismatch l.size bits.length) := by
  rw [decode, decodeValues, if_pos hbits, if_pos hbits]
  exact ⟨rfl, rfl⟩

/-- After any registrations, whether they succeeded or not, no name is taken twice and the fields
of the variables divide the bits among themselves in the order of registration.  One more
registration refuses a name that is taken before it looks at the width, leaves the layout as it was
when it fails, and otherwise adds one variable behind the others.  Decoding finds every field
within as many bits as the layout has, and it fails on any other number of bits and on no other
ground. -/
theorem registrations_partition (vs : List (String × Encoding × Nat)) :
    let l := afterAll vs
    (l.vars.map Variable.name).Nodup ∧
    (∀ v, l.vars[0]? = some v → v.offset = 0) ∧
    (∀ (i : Nat) v w, l.vars[i]? = some v → l.vars[i + 1]? = some w → w.offset = v.offset + v.width) ∧
    l.size = (l.vars.map Variable.width).sum ∧
    (∀ k, k < l.size → ∃! i : Nat, ∃ v : Variable, l.vars[i]? = some v ∧ v.Owns k) ∧
    (∀ name e width,
      (name ∈ l.vars.map Variable.name →
        (register name e width).run l = (.error (.duplicateName name), l)) ∧
      (name ∉ l.vars.map Variable.name → ∀ fault, e.checkWidth width = .error fault →
        (register name e width).run l = (.error fault, l)) ∧
      (name ∉ l.vars.map Variable.name → e.checkWidth width = .ok () →
        (register name e width).run l =
          (.ok (), ⟨l.vars ++ [⟨name, e, width, l.size⟩], l.size + width⟩))) ∧
    ∀ bits : List UInt8,
      (bits.length = l.size →
        (∀ v ∈ l.vars, v.stop ≤ bits.length ∧ (v.field bits).length = v.width) ∧
        (∃ a, l.decode bits = .ok a) ∧ ∃ values, l.decodeValues bits = .ok values) ∧
      (bits.length ≠ l.size →
        l.decode bits = .error (.lengthMismatch l.size bits.length) ∧
          l.decodeValues bits = .error (.lengthMismatch l.size bits.length)) := by
  intro l
  have hl : l.WellFormed := wellFormed_afterAll vs
  refine ⟨hl.nodup, fun v hv => hl.contiguous.offset_head hv,
    fun i v w hv hw => hl.contiguous.offset_succ hv hw, hl.size_eq,
    fun k hk => hl.existsUnique_owner hk, fun name e width => ?_, fun bits => ?_⟩
  · exact ⟨run_register_of_taken, fun hfree fault => run_register_of_width hfree,
      run_register_of_ok⟩
  · exact ⟨fun hbits => ⟨fun v hv => hl.length_field hbits hv, decode_of_length hbits⟩,
      decode_of_length_ne⟩

/-- A name that is taken, a width that is refused and a caller's encoding among the
registrations. -/
theorem registrations_partition_refused :
    let vs : List (String × Encoding × Nat) :=
      [("a", .unsigned, 3), ("a", .unsigned, 63), ("b", .unsigned, 63), ("s", .spin, 1),
        ("e", .packed 2 0, 0), ("b", .packed 2 2, 4)]
    let l := afterAll vs
    l.vars.map (fun v => (v.name, v.offset, v.width)) =
        [("a", 0, 3), ("s", 3, 1), ("e", 4, 0), ("b", 4, 4)] ∧
      l.size = (l.vars.map Variable.width).sum ∧ "s" ∈ l.vars.map Variable.name ∧
      (register "s" .unsigned 70).run l = (.error (.duplicateName "s"), l) ∧
      ([1, 0, 1, 1, 0, 1, 1, 0] : List UInt8).length = l.size ∧
      ∃ a, l.decode [1, 0, 1, 1, 0, 1, 1, 0] = .ok a := by
  intro vs l
  obtain ⟨-, -, -, hsize, -, hregister, hdecode⟩ := registrations_partition vs
  have htaken : "s" ∈ l.vars.map Variable.name := by decide
  have hlength : ([1, 0, 1, 1, 0, 1, 1, 0] : List UInt8).length = l.size := by decide
  exact ⟨by decide, hsize, htaken, (hregister "s" .unsigned 70).1 htaken, hlength,
    ((hdecode _).1 hlength).2.1⟩

end Layout

end QuboProbe
