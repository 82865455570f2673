/-
  QuboProbe.Proofs.Layout.Joining

  Two layouts one after the other.  Registering the variables of one layout and
  then those of another lays out the fields of the second as they were, behind
  those of the first (`Layout.ofList_append`).  One string after another is
  then decoded to what either is decoded to by itself (`Layout.get?_decode_left`,
  `Layout.get?_decode_right`).
-/
import QuboProbe.Proofs.Layout.Rearrangement

namespace QuboProbe

/-! ## Strings one after the other -/

namespace BitString

def append (x y : BitString) : BitString := ⟨x.bytes ++ y.bytes⟩

/-- The string with one more position set. -/
def mark (x : BitString) (i : Nat) : BitString := ⟨x.bytes.set i 1⟩

variable {x : BitString} {m i j : Nat}

@[simp] theorem length_append (x y : BitString) : (x.append y).length = x.length + y.length :=
  List.length_append

@[simp] theorem length_mark (x : BitString) (i : Nat) : (x.mark i).length = x.length :=
  List.length_set

theorem mark_append (hi : i < x.length) (y : BitString) :
    (x.mark i).append y = (x.append y).mark i :=
  congrArg BitString.mk (List.set_append_left i 1 hi).symm

theorem append_mark (x y : BitString) (i : Nat) :
    x.append (y.mark i) = (x.append y).mark (x.length + i) := by
  have h := List.set_append_right (s := x.bytes) (t := y.bytes) (x.length + i) 1
    (Nat.le_add_right _ _)
  rw [length, Nat.add_sub_cancel_left] at h
  exact congrArg BitString.mk h.symm

/-! The probes of a joined string, as probes of its two parts. -/

theorem unit_eq_mark (n i : Nat) : unit n i = (zeros n).mark i := rfl

theorem pair_eq_mark (n i j : Nat) : pair n i j = ((zeros n).mark i).mark j := rfl

theorem zeros_add (m n : Nat) : zeros (m + n) = (zeros m).append (zeros n) :=
  congrArg BitString.mk (List.replicate_add m n 0)

theorem unit_left (hi : i < m) (n : Nat) : unit (m + n) i = (unit m i).append (zeros n) := by
  rw [unit_eq_mark, unit_eq_mark, zeros_add, mark_append (by simpa using hi)]

theorem unit_right (m n i : Nat) : unit (m + n) (m + i) = (zeros m).append (unit n i) := by
  rw [unit_eq_mark, unit_eq_mark, zeros_add, append_mark, length_zeros]

theorem pair_left (hi : i < m) (hj : j < m) (n : Nat) :
    pair (m + n) i j = (pair m i j).append (zeros n) := by
  rw [pair_eq_mark, pair_eq_mark, zeros_add, mark_append (by simpa using hj),
    mark_append (by simpa using hi)]

theorem pair_right (m n i j : Nat) :
    pair (m + n) (m + i) (m + j) = (zeros m).append (pair n i j) := by
  rw [pair_eq_mark, pair_eq_mark, zeros_add, append_mark, append_mark, length_zeros]

theorem pair_across (hi : i < m) (n j : Nat) :
    pair (m + n) i (m + j) = (unit m i).append (unit n j) := by
  rw [pair_eq_mark, unit_eq_mark, unit_eq_mark, zeros_add, append_mark,
    mark_append (by simpa using hi), length_mark, length_zeros]

end BitString

/-! ## Fields that are moved -/

/-- The variable whose field starts so much further on. -/
def Variable.shift (k : Nat) (v : Variable) : Variable := { v with offset := k + v.offset }

namespace Layout

/-- The fields of one layout and then those of another. -/
def join (l l' : Layout) : Layout :=
  ⟨l.vars ++ l'.vars.map (Variable.shift l.size), l.size + l'.size⟩

variable {l l₁ l₂ : Layout}

theorem names_join (l l' : Layout) : (l.join l').vars.map Variable.name =
    l.vars.map Variable.name ++ l'.vars.map Variable.name := by
  rw [join, List.map_append, List.map_map]
  rfl

/-- A variable that is added to the second layout is added to both. -/
theorem add_join {l' l'' : Layout} {name : String} {e : Encoding} {width : Nat}
    (hname : name ∉ l.vars.map Variable.name) (h : l'.add name e width = .ok l'') :
    (l.join l').add name e width = .ok (l.join l'') := by
  obtain ⟨hfree, hwidth, rfl⟩ := add_eq_ok.1 h
  refine add_eq_ok.2 ⟨?_, hwidth, ?_⟩
  · rw [names_join, List.mem_append, not_or]
    exact ⟨hname, hfree⟩
  · rw [join, join, List.map_append, List.append_assoc, Nat.add_assoc]
    rfl

/-- Variables that are registered after those of a layout have their fields behind it. -/
theorem ofList_append {vs₁ vs₂ : List (String × Encoding × Nat)} (h₁ : ofList vs₁ = .ok l₁)
    (h₂ : ofList vs₂ = .ok l₂) (hnames : ∀ v ∈ vs₁, ∀ w ∈ vs₂, v.1 ≠ w.1) :
    ofList (vs₁ ++ vs₂) = .ok (l₁.join l₂) := by
  have hfree : ∀ w ∈ vs₂, w.1 ∉ l₁.vars.map Variable.name := by
    intro w hw hmem
    obtain ⟨v, hv, hname⟩ := List.mem_map.1 hmem
    obtain ⟨-, hspec⟩ := ofList_spec h₁
    exact hnames v.spec (hspec ▸ List.mem_map_of_mem hv) w hw hname
  have hfold (vs : List (String × Encoding × Nat)) (l : Layout)
      (hvs : ∀ w ∈ vs, w.1 ∉ l₁.vars.map Variable.name)
      (h : vs.foldlM (fun l v => l.add v.1 v.2.1 v.2.2) l = .ok l₂) :
      vs.foldlM (fun l v => l.add v.1 v.2.1 v.2.2) (l₁.join l) = .ok (l₁.join l₂) := by
    induction vs generalizing l with
    | nil =>
      obtain rfl : l = l₂ := Except.ok.inj h
      rfl
    | cons v vs ih =>
      rw [List.foldlM_cons] at h ⊢
      cases hadd : l.add v.1 v.2.1 v.2.2 with
      | error e =>
        rw [hadd] at h
        cases h
      | ok l' =>
        rw [hadd] at h
        rw [add_join (hvs v List.mem_cons_self) hadd]
        exact ih l' (fun w hw => hvs w (List.mem_cons_of_mem v hw)) h
  have hempty : l₁.join empty = l₁ := by
    rw [join, empty, List.map_nil, List.append_nil, Nat.add_zero]
  have hjoined := hfold vs₂ empty hfree h₂
  rw [hempty] at hjoined
  rw [ofList] at h₁ ⊢
  rw [List.foldlM_append, h₁]
  exact hjoined

/-! ## Decoding one string after the other -/

variable {x y : BitString} {a b : Valuation}

theorem length_join (hx : x.length = l₁.size) (hy : y.length = l₂.size) :
    (x.append y).length = (l₁.join l₂).size := by
  rw [BitString.length_append, hx, hy, join]

/-- The variables of the first layout are read from the first string. -/
theorem get?_decode_left (hl : (l₁.join l₂).WellFormed) (hl₁ : l₁.WellFormed)
    (hx : x.length = l₁.size) (hy : y.length = l₂.size)
    (hb : (l₁.join l₂).decode (x.append y).bytes = .ok b) (ha : l₁.decode x.bytes = .ok a)
    {n : String} (hn : n ∈ l₁.vars.map Variable.name) : b.get? n = a.get? n := by
  obtain ⟨v, hv, rfl⟩ := List.mem_map.1 hn
  -- the field ends within the first string
  have hfield : v.field (x.append y).bytes = v.field x.bytes := by
    have hstop : v.offset + v.width ≤ x.bytes.length := by
      rw [show x.bytes.length = l₁.size from hx]
      exact (hl₁.contiguous.bounds hv).2
    rw [Variable.field, Variable.field, BitString.append, List.drop_append_of_le_length (by omega),
      List.take_append_of_le_length (by rw [List.length_drop]; omega)]
  rw [get?_decode hl (length_join hx hy) hb (List.mem_append_left _ hv), get?_decode hl₁ hx ha hv,
    hfield]

/-- The variables of the second layout are read from the second string. -/
theorem get?_decode_right (hl : (l₁.join l₂).WellFormed) (hl₂ : l₂.WellFormed)
    (hx : x.length = l₁.size) (hy : y.length = l₂.size)
    (hb : (l₁.join l₂).decode (x.append y).bytes = .ok b) (ha : l₂.decode y.bytes = .ok a)
    {n : String} (hn : n ∈ l₂.vars.map Variable.name) : b.get? n = a.get? n := by
  obtain ⟨v, hv, rfl⟩ := List.mem_map.1 hn
  -- the field starts behind the first string
  have hfield : (v.shift l₁.size).field (x.append y).bytes = v.field y.bytes := by
    have hlength : x.bytes.length = l₁.size := hx
    have hbehind : x.bytes.length ≤ x.bytes.length + v.offset := Nat.le_add_right _ _
    rw [Variable.field, Variable.field, BitString.append, Variable.shift, ← hlength,
      List.drop_append, List.drop_eq_nil_of_le hbehind, Nat.add_sub_cancel_left, List.nil_append]
  have hv' : v.shift l₁.size ∈ (l₁.join l₂).vars :=
    List.mem_append_right _ (List.mem_map_of_mem hv)
  have hget := get?_decode hl (length_join hx hy) hb hv'
  rw [hfield] at hget
  exact hget.trans (get?_decode hl₂ hy ha hv).symm

end Layout

end QuboProbe
