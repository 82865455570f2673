/-
  QuboProbe.Proofs.Layout.Rearrangement

  Layouts of the same variables in different orders.  `Layout.relocate` says
  where a bit of one layout stands in the other: at the same place of the field
  of the same variable.  It is one to one on the bits
  (`Layout.Rearranges.bijOn`), and strings that agree along it are decoded to
  the same values of the same names (`Layout.Rearranges.get?_decode`).
-/
import QuboProbe.Proofs.Layout.Registration
import Mathlib.Data.Set.Function
import Mathlib.Order.Interval.Set.Defs

namespace QuboProbe

/-- What a variable is registered with. -/
def Variable.spec (v : Variable) : String × Encoding × Nat := (v.name, v.encoding, v.width)

namespace Layout

variable {l l' : Layout}

/-! ## Registered variables -/

/-- The variables of a layout are those that were registered, in their order. -/
theorem ofList_spec {vs : List (String × Encoding × Nat)} (h : ofList vs = .ok l) :
    l.WellFormed ∧ l.vars.map Variable.spec = vs := by
  have hfold (vs : List (String × Encoding × Nat)) (l₀ : Layout) (hl₀ : l₀.WellFormed)
      (h : vs.foldlM (fun l v => l.add v.1 v.2.1 v.2.2) l₀ = .ok l) :
      l.WellFormed ∧ l.vars.map Variable.spec = l₀.vars.map Variable.spec ++ vs := by
    induction vs generalizing l₀ with
    | nil =>
      obtain rfl : l₀ = l := Except.ok.inj h
      exact ⟨hl₀, (List.append_nil _).symm⟩
    | cons v vs ih =>
      rw [List.foldlM_cons] at h
      cases hadd : l₀.add v.1 v.2.1 v.2.2 with
      | error e =>
        rw [hadd] at h
        cases h
      | ok l₁ =>
        rw [hadd] at h
        obtain ⟨hl, hspec⟩ := ih l₁ (hl₀.add hadd) h
        obtain ⟨-, -, rfl⟩ := add_eq_ok.1 hadd
        refine ⟨hl, hspec.trans ?_⟩
        rw [List.map_append, List.append_assoc]
        rfl
  exact hfold vs empty ⟨List.nodup_nil, .nil 0⟩ h

/-- A variable is found by its name. -/
theorem WellFormed.find?_name (hl : l.WellFormed) {v : Variable} (hv : v ∈ l.vars) :
    l.find? v.name = some v := by
  obtain ⟨w, hw⟩ := Option.isSome_iff_exists.1 (find?_isSome.2 (List.mem_map_of_mem hv))
  have hname : w.name = v.name := by simpa using List.find?_some hw
  rw [hw, List.inj_on_of_nodup_map hl.nodup (List.mem_of_find?_eq_some hw) hv hname]

/-- The owner of a bit is found by the bit: no other field has it. -/
theorem WellFormed.find?_owner (hl : l.WellFormed) {v : Variable} (hv : v ∈ l.vars) {k : Nat}
    (hk : k < v.width) : (l.vars.find? fun u => decide (u.Owns (v.offset + k))) = some v := by
  have howns : v.Owns (v.offset + k) := ⟨Nat.le_add_right _ _, Nat.add_lt_add_left hk _⟩
  cases hfind : l.vars.find? fun u => decide (u.Owns (v.offset + k)) with
  | none => exact absurd (decide_eq_true howns) (List.find?_eq_none.1 hfind v hv)
  | some w =>
    have hwk : w.Owns (v.offset + k) := by simpa using List.find?_some hfind
    rw [hl.owner_unique (List.mem_of_find?_eq_some hfind) hv hwk howns]

/-- The place in another layout of a bit: the same place of the field of the same variable. -/
def relocate (l l' : Layout) (k : Nat) : Nat :=
  match l.vars.find? fun v => decide (v.Owns k) with
  | none => k
  | some v =>
    match l'.find? v.name with
    | none => k
    | some v' => v'.offset + (k - v.offset)

/-- Two layouts of the same variables, perhaps in different orders. -/
structure Rearranges (l l' : Layout) : Prop where
  left : l.WellFormed
  right : l'.WellFormed
  perm : (l.vars.map Variable.spec).Perm (l'.vars.map Variable.spec)

namespace Rearranges

theorem of_ofList {vs vs' : List (String × Encoding × Nat)} (hl : ofList vs = .ok l)
    (hl' : ofList vs' = .ok l') (hperm : vs.Perm vs') : l.Rearranges l' := by
  obtain ⟨hwell, hspec⟩ := ofList_spec hl
  obtain ⟨hwell', hspec'⟩ := ofList_spec hl'
  exact ⟨hwell, hwell', by rwa [hspec, hspec']⟩

theorem symm (h : l.Rearranges l') : l'.Rearranges l := ⟨h.right, h.left, h.perm.symm⟩

theorem size_eq (h : l.Rearranges l') : l'.size = l.size := by
  have hwidths (l : Layout) :
      l.vars.map Variable.width = (l.vars.map Variable.spec).map fun s => s.2.2 := by
    rw [List.map_map]
    rfl
  rw [h.left.size_eq, h.right.size_eq, hwidths l, hwidths l']
  exact (h.perm.map _).symm.sum_eq

/-- Every variable stands in the other layout as well. -/
theorem exists_twin (h : l.Rearranges l') {v : Variable} (hv : v ∈ l.vars) :
    ∃ v' ∈ l'.vars, v'.spec = v.spec := by
  have hspec := h.perm.mem_iff.1 (List.mem_map_of_mem (f := Variable.spec) hv)
  obtain ⟨v', hv', heq⟩ := List.mem_map.1 hspec
  exact ⟨v', hv', heq⟩

theorem spec_eq (h : l.Rearranges l') {v v' : Variable} (hv : v ∈ l.vars) (hv' : v' ∈ l'.vars)
    (hname : v'.name = v.name) : v'.spec = v.spec := by
  obtain ⟨w, hw, hspec⟩ := h.exists_twin hv
  have hnames : w.name = v'.name := (congrArg Prod.fst hspec).trans hname.symm
  rw [← List.inj_on_of_nodup_map h.right.nodup hw hv' hnames, hspec]

/-- A bit keeps its place in the field of its variable. -/
theorem relocate_offset (h : l.Rearranges l') {v v' : Variable} (hv : v ∈ l.vars)
    (hv' : v' ∈ l'.vars) (hname : v'.name = v.name) {k : Nat} (hk : k < v.width) :
    relocate l l' (v.offset + k) = v'.offset + k := by
  rw [relocate, h.left.find?_owner hv hk]
  dsimp only
  rw [← hname, h.right.find?_name hv']
  dsimp only
  rw [Nat.add_sub_cancel_left]

/-- Every bit belongs to a variable, at whose twin it is found again. -/
theorem exists_place (h : l.Rearranges l') {i : Nat} (hi : i < l.size) :
    ∃ v ∈ l.vars, ∃ v' ∈ l'.vars, v'.name = v.name ∧ v'.width = v.width ∧
      ∃ k < v.width, i = v.offset + k ∧ relocate l l' i = v'.offset + k := by
  obtain ⟨v, hv, howns⟩ := h.left.exists_owner hi
  obtain ⟨v', hv', hspec⟩ := h.exists_twin hv
  have hname : v'.name = v.name := congrArg Prod.fst hspec
  have hwidth : v'.width = v.width := congrArg (fun s => s.2.2) hspec
  obtain ⟨k, rfl⟩ := Nat.exists_eq_add_of_le howns.1
  have hk : k < v.width := by
    have := howns.2
    rw [Variable.stop] at this
    omega
  exact ⟨v, hv, v', hv', hname, hwidth, k, hk, rfl, h.relocate_offset hv hv' hname hk⟩

theorem relocate_lt (h : l.Rearranges l') {i : Nat} (hi : i < l.size) :
    relocate l l' i < l.size := by
  obtain ⟨v, -, v', hv', -, hwidth, k, hk, -, hplace⟩ := h.exists_place hi
  have hstop := (h.right.contiguous.bounds hv').2
  rw [Variable.stop, h.size_eq] at hstop
  omega

theorem relocate_relocate (h : l.Rearranges l') {i : Nat} (hi : i < l.size) :
    relocate l' l (relocate l l' i) = i := by
  obtain ⟨v, hv, v', hv', hname, hwidth, k, hk, rfl, hplace⟩ := h.exists_place hi
  rw [hplace, h.symm.relocate_offset hv' hv hname.symm (hwidth ▸ hk)]

/-- The bits of the two layouts correspond one to one. -/
theorem bijOn (h : l.Rearranges l') :
    Set.BijOn (relocate l l') (Set.Iio l.size) (Set.Iio l.size) := by
  have hback : Set.MapsTo (relocate l' l) (Set.Iio l.size) (Set.Iio l.size) := fun i hi => by
    have hlt := h.symm.relocate_lt (h.size_eq.symm ▸ hi)
    rwa [h.size_eq] at hlt
  have hinv : Set.InvOn (relocate l' l) (relocate l l') (Set.Iio l.size) (Set.Iio l.size) :=
    ⟨fun i hi => h.relocate_relocate hi,
      fun i hi => h.symm.relocate_relocate (h.size_eq.symm ▸ hi)⟩
  exact hinv.bijOn (fun i hi => h.relocate_lt hi) hback

/-! ## Decoding -/

variable {x x' : BitString}

/-- Strings that agree along the places have the same fields. -/
theorem field_eq (h : l.Rearranges l')
    (hx : ∀ i < l.size, x'.bytes[relocate l l' i]? = x.bytes[i]?) {v v' : Variable}
    (hv : v ∈ l.vars) (hv' : v' ∈ l'.vars) (hname : v'.name = v.name) :
    v'.field x'.bytes = v.field x.bytes := by
  have hwidth : v'.width = v.width := congrArg (fun s => s.2.2) (h.spec_eq hv hv' hname)
  refine Variable.field_ext hwidth fun k hk => ?_
  rw [hwidth] at hk
  have hstop := (h.left.contiguous.bounds hv).2
  rw [Variable.stop] at hstop
  rw [← hx (v.offset + k) (by omega), h.relocate_offset hv hv' hname hk]

/-- Such strings are decoded to the same values of the same names. -/
theorem get?_decode (h : l.Rearranges l')
    (hx : ∀ i < l.size, x'.bytes[relocate l l' i]? = x.bytes[i]?) (hlength : x.length = l.size)
    (hlength' : x'.length = l'.size) {a a' : Valuation} (ha : l.decode x.bytes = .ok a)
    (ha' : l'.decode x'.bytes = .ok a') (n : String) : a'.get? n = a.get? n := by
  by_cases hn : n ∈ l.vars.map Variable.name
  · obtain ⟨v, hv, rfl⟩ := List.mem_map.1 hn
    obtain ⟨v', hv', hspec⟩ := h.exists_twin hv
    have hname : v'.name = v.name := congrArg Prod.fst hspec
    have hencoding : v'.encoding = v.encoding := congrArg (fun s => s.2.1) hspec
    rw [Layout.get?_decode h.left hlength ha hv, ← hname,
      Layout.get?_decode h.right hlength' ha' hv', hencoding, h.field_eq hx hv hv' hname]
  · -- a name that is not a variable's is bound in neither
    have hn' : n ∉ l'.vars.map Variable.name := by
      intro hmem
      obtain ⟨v', hv', rfl⟩ := List.mem_map.1 hmem
      obtain ⟨v, hv, hspec⟩ := h.symm.exists_twin hv'
      exact hn (List.mem_map.2 ⟨v, hv, congrArg Prod.fst hspec⟩)
    have hnone : a.get? n = none := by
      rwa [← Option.not_isSome_iff_eq_none, Valuation.get?_isSome, names_decode hlength ha]
    have hnone' : a'.get? n = none := by
      rwa [← Option.not_isSome_iff_eq_none, Valuation.get?_isSome, names_decode hlength' ha']
    rw [hnone, hnone']

/-- Such strings are decoded to valuations that agree. -/
theorem beq_decode (h : l.Rearranges l')
    (hx : ∀ i < l.size, x'.bytes[relocate l l' i]? = x.bytes[i]?) (hlength : x.length = l.size)
    (hlength' : x'.length = l'.size) : ∃ a a', l.decode x.bytes = .ok a ∧
      l'.decode x'.bytes = .ok a' ∧ a.names.Nodup ∧ a'.names.Nodup ∧ (a == a') = true := by
  have ha := decode_eq_ok hlength
  have ha' := decode_eq_ok hlength'
  have hnodup := nodup_names_decode ha
  have hnodup' := nodup_names_decode ha'
  refine ⟨_, _, ha, ha', hnodup, hnodup', ?_⟩
  rw [Valuation.beq_iff hnodup hnodup']
  exact fun n => (h.get?_decode hx hlength hlength' ha ha' n).symm

end Rearranges

end Layout

end QuboProbe
