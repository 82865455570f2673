/-
  QuboProbe.Proofs.Compile.Separable

  Objectives that fall into parts.  A sum of two objectives, each of which
  looks at the variables of one layout alone, is compiled over both layouts
  into the models of the two side by side: on joined probes its values are the
  sums of theirs, and everything across the two cancels
  (`PseudoBoolean.blocks_modelOf`).  A linear objective of integer variables
  falls into its bits, so that its model is a diagonal of weights
  (`PseudoBoolean.entry_linear`).
-/
import QuboProbe.Proofs.Compile.Polynomial
import QuboProbe.Proofs.Layout.Joining

namespace QuboProbe

/-! ## Probes of joined strings -/

namespace Probes

theorem mem_vectors_iff {n : Nat} {x : BitString} :
    x ∈ vectors n ↔ x = .zeros n ∨ (∃ i < n, x = .unit n i) ∨
      ∃ i j, i < j ∧ j < n ∧ x = .pair n i j := by
  simp only [vectors, List.cons_append, List.mem_cons, List.mem_append, List.mem_map,
    List.mem_range, Prod.exists, mem_pairs, and_assoc, eq_comm]

theorem zeros_mem (n : Nat) : BitString.zeros n ∈ vectors n := mem_vectors_iff.2 (.inl rfl)

theorem unit_mem {n i : Nat} (hi : i < n) : BitString.unit n i ∈ vectors n :=
  mem_vectors_iff.2 (.inr (.inl ⟨i, hi, rfl⟩))

theorem pair_mem {n i j : Nat} (hij : i < j) (hj : j < n) : BitString.pair n i j ∈ vectors n :=
  mem_vectors_iff.2 (.inr (.inr ⟨i, j, hij, hj, rfl⟩))

/-- A probe of a joined string is made of probes of its two parts. -/
theorem exists_append {m n : Nat} {z : BitString} (hz : z ∈ vectors (m + n)) :
    ∃ x ∈ vectors m, ∃ y ∈ vectors n, z = x.append y := by
  rcases mem_vectors_iff.1 hz with rfl | ⟨i, hi, rfl⟩ | ⟨i, j, hij, hj, rfl⟩
  · exact ⟨_, zeros_mem m, _, zeros_mem n, BitString.zeros_add m n⟩
  · by_cases him : i < m
    · exact ⟨_, unit_mem him, _, zeros_mem n, BitString.unit_left him n⟩
    · obtain ⟨i, rfl⟩ := Nat.exists_eq_add_of_le (Nat.le_of_not_lt him)
      exact ⟨_, zeros_mem m, _, unit_mem (by omega), BitString.unit_right m n i⟩
  · by_cases hjm : j < m
    · exact ⟨_, pair_mem hij hjm, _, zeros_mem n, BitString.pair_left (by omega) hjm n⟩
    · obtain ⟨j, rfl⟩ := Nat.exists_eq_add_of_le (Nat.le_of_not_lt hjm)
      by_cases him : i < m
      · exact ⟨_, unit_mem him, _, unit_mem (by omega), BitString.pair_across him n j⟩
      · obtain ⟨i, rfl⟩ := Nat.exists_eq_add_of_le (Nat.le_of_not_lt him)
        exact ⟨_, zeros_mem m, _, pair_mem (by omega) (by omega), BitString.pair_right m n i j⟩

end Probes

/-! ## Models side by side -/

/-- The model is that of two others side by side: the first `m` bits are those of the one, the `n`
bits behind them those of the other, and nothing stands across. -/
structure Qubo.Blocks (q q₁ q₂ : Qubo ℚ) (m n : Nat) : Prop where
  shape : q.matrix.UpperTriangular (m + n)
  offset : q.offset = q₁.offset + q₂.offset
  first : ∀ i < m, ∀ j < m, q.matrix.get? i j = q₁.matrix.get? i j
  second : ∀ i < n, ∀ j < n, q.matrix.get? (m + i) (m + j) = q₂.matrix.get? i j
  across : ∀ i < m, ∀ j < n, q.matrix.entry i (m + j) = 0 ∧ q.matrix.entry (m + j) i = 0

namespace PseudoBoolean

variable {value value₁ value₂ : BitString → ℚ} {m n i j : Nat}

/-- On joined probes the values are the sums of those on the parts. -/
def Splits (value value₁ value₂ : BitString → ℚ) (m n : Nat) : Prop :=
  ∀ x ∈ Probes.vectors m, ∀ y ∈ Probes.vectors n, value (x.append y) = value₁ x + value₂ y

variable (h : Splits value value₁ value₂ m n)
include h

theorem Splits.zeros : value (.zeros (m + n)) = value₁ (.zeros m) + value₂ (.zeros n) := by
  rw [BitString.zeros_add]
  exact h _ (Probes.zeros_mem m) _ (Probes.zeros_mem n)

theorem Splits.unit_left (hi : i < m) :
    value (.unit (m + n) i) = value₁ (.unit m i) + value₂ (.zeros n) := by
  rw [BitString.unit_left hi]
  exact h _ (Probes.unit_mem hi) _ (Probes.zeros_mem n)

theorem Splits.unit_right (hi : i < n) :
    value (.unit (m + n) (m + i)) = value₁ (.zeros m) + value₂ (.unit n i) := by
  rw [BitString.unit_right]
  exact h _ (Probes.zeros_mem m) _ (Probes.unit_mem hi)

/-- The coefficients of the first part are those of its values: what the other part adds is the
same on all probes, and cancels. -/
theorem Splits.coefficientOf_left (hij : i ≤ j) (hj : j < m) :
    coefficientOf value (m + n) (i, j) = coefficientOf value₁ m (i, j) := by
  have hi : i < m := Nat.lt_of_le_of_lt hij hj
  rcases Nat.eq_or_lt_of_le hij with rfl | hlt
  · rw [coefficientOf, coefficientOf, if_pos rfl, if_pos rfl, h.unit_left hi, h.zeros]
    ring
  · have hpair : value (.pair (m + n) i j) = value₁ (.pair m i j) + value₂ (.zeros n) := by
      rw [BitString.pair_left hi hj]
      exact h _ (Probes.pair_mem hlt hj) _ (Probes.zeros_mem n)
    have hne := Nat.ne_of_lt hlt
    rw [coefficientOf, coefficientOf, if_neg hne, if_neg hne, hpair, h.unit_left hi,
      h.unit_left hj, h.zeros]
    ring

theorem Splits.coefficientOf_right (hij : i ≤ j) (hj : j < n) :
    coefficientOf value (m + n) (m + i, m + j) = coefficientOf value₂ n (i, j) := by
  have hi : i < n := Nat.lt_of_le_of_lt hij hj
  rcases Nat.eq_or_lt_of_le hij with rfl | hlt
  · rw [coefficientOf, coefficientOf, if_pos rfl, if_pos rfl, h.unit_right hi, h.zeros]
    ring
  · have hpair : value (.pair (m + n) (m + i) (m + j)) =
        value₁ (.zeros m) + value₂ (.pair n i j) := by
      rw [BitString.pair_right]
      exact h _ (Probes.zeros_mem m) _ (Probes.pair_mem hlt hj)
    have hne : i ≠ j := Nat.ne_of_lt hlt
    have hne' : m + i ≠ m + j := by omega
    rw [coefficientOf, coefficientOf, if_neg hne', if_neg hne, hpair, h.unit_right hi,
      h.unit_right hj, h.zeros]
    ring

/-- A position of either part has no coefficient with one of the other. -/
theorem Splits.coefficientOf_across (hi : i < m) (hj : j < n) :
    coefficientOf value (m + n) (i, m + j) = 0 := by
  have hpair : value (.pair (m + n) i (m + j)) = value₁ (.unit m i) + value₂ (.unit n j) := by
    rw [BitString.pair_across hi]
    exact h _ (Probes.unit_mem hi) _ (Probes.unit_mem hj)
  have hne : i ≠ m + j := by omega
  rw [coefficientOf, if_neg hne, hpair, h.unit_left hi, h.unit_right hj, h.zeros]
  ring

omit h in
/-- Every place of a square model holds its entry. -/
theorem get?_modelOf_entry (value : BitString → ℚ) (hi : i < n) (hj : j < n) :
    (modelOf value n).matrix.get? i j = some ((modelOf value n).matrix.entry i j) := by
  have hshape := upperTriangular_modelOf value n
  obtain ⟨v, hv⟩ := Option.isSome_iff_exists.1 (((modelOf value n).matrix.get?_isSome_iff i j).2
    ⟨hshape.rows.symm ▸ hi, hshape.cols.symm ▸ hj⟩)
  rw [Matrix.entry, hv, Option.getD_some]

theorem Splits.blocks_modelOf :
    (modelOf value (m + n)).Blocks (modelOf value₁ m) (modelOf value₂ n) m n where
  shape := upperTriangular_modelOf value (m + n)
  offset := h.zeros
  first i hi j hj := by
    rw [get?_modelOf_entry value (by omega) (by omega), get?_modelOf_entry value₁ hi hj,
      entry_modelOf, entry_modelOf]
    by_cases hij : i ≤ j
    · rw [if_pos ⟨hij, by omega⟩, if_pos ⟨hij, hj⟩, h.coefficientOf_left hij hj]
    · rw [if_neg fun hle => hij hle.1, if_neg fun hle => hij hle.1]
  second i hi j hj := by
    rw [get?_modelOf_entry value (by omega) (by omega), get?_modelOf_entry value₂ hi hj,
      entry_modelOf, entry_modelOf]
    by_cases hij : i ≤ j
    · rw [if_pos ⟨by omega, by omega⟩, if_pos ⟨hij, hj⟩, h.coefficientOf_right hij hj]
    · rw [if_neg (by omega), if_neg fun hle => hij hle.1]
  across i hi j hj := by
    rw [entry_modelOf, entry_modelOf, if_pos ⟨by omega, by omega⟩, if_neg (by omega)]
    exact ⟨h.coefficientOf_across hi hj, rfl⟩

end PseudoBoolean

/-! ## Sums of objectives -/

/-- The objective looks at the variables of the layout alone. -/
def Objective.DependsOn {ε α : Type} (f : Objective ε α) (l : Layout) : Prop :=
  ∀ a b : Valuation, (∀ v ∈ l.vars, a.get? v.name = b.get? v.name) → f a = f b

namespace PseudoBoolean

variable {ε : Type} {f f₁ f₂ : Objective ε ℚ} {l₁ l₂ : Layout}

theorem objective_of_evaluate {g : PseudoBoolean ε ℚ} {x : BitString} {v : ℚ}
    (h : g.evaluate x = .ok v) : ∃ a, g.layout.decode x.bytes = .ok a ∧ g.objective a = .ok v := by
  cases ha : g.layout.decode x.bytes with
  | error e =>
    simp only [evaluate, ha] at h
    cases h
  | ok a =>
    cases hf : g.objective a with
    | error e =>
      simp only [evaluate, ha, hf] at h
      cases h
    | ok w =>
      rw [evaluate_eq_ok ha hf] at h
      exact ⟨a, rfl, hf.trans (congrArg Except.ok (Except.ok.inj h))⟩

/-- On one probe after another the sum has the sum of the values. -/
theorem evaluate_append (hl : (l₁.join l₂).WellFormed) (hl₁ : l₁.WellFormed)
    (hl₂ : l₂.WellFormed) (hf₁ : f₁.DependsOn l₁) (hf₂ : f₂.DependsOn l₂)
    (hf : ∀ a v w, f₁ a = .ok v → f₂ a = .ok w → f a = .ok (v + w)) {x y : BitString}
    (hx : x.length = l₁.size) (hy : y.length = l₂.size) (hxok : ¬ FailsOn ⟨f₁, l₁⟩ x)
    (hyok : ¬ FailsOn ⟨f₂, l₂⟩ y) :
    evaluate ⟨f, l₁.join l₂⟩ (x.append y) = .ok (value ⟨f₁, l₁⟩ x + value ⟨f₂, l₂⟩ y) := by
  -- each part has a value on its own probe, and reads the same values from the joined string
  obtain ⟨a, ha, hv⟩ := objective_of_evaluate (evaluate_eq_value (g := ⟨f₁, l₁⟩) hx hxok)
  obtain ⟨a', ha', hw⟩ := objective_of_evaluate (evaluate_eq_value (g := ⟨f₂, l₂⟩) hy hyok)
  have hb := Layout.decode_eq_ok (l := l₁.join l₂) (Layout.length_join hx hy)
  refine evaluate_eq_ok hb (hf _ _ _ ?_ ?_)
  · refine (hf₁ _ a fun u hu => ?_).trans hv
    exact Layout.get?_decode_left hl hl₁ hx hy hb ha (List.mem_map_of_mem hu)
  · refine (hf₂ _ a' fun u hu => ?_).trans hw
    exact Layout.get?_decode_right hl hl₂ hx hy hb ha' (List.mem_map_of_mem hu)

/-- Two compiled objectives and their sum, compiled over both layouts one after the other. -/
theorem compile_blocks [Cause ε] (hl : (l₁.join l₂).WellFormed) (hl₁ : l₁.WellFormed)
    (hl₂ : l₂.WellFormed) (hf₁ : f₁.DependsOn l₁) (hf₂ : f₂.DependsOn l₂)
    (hf : ∀ a v w, f₁ a = .ok v → f₂ a = .ok w → f a = .ok (v + w))
    (hok₁ : ∀ x ∈ Probes.vectors l₁.size, ¬ FailsOn ⟨f₁, l₁⟩ x)
    (hok₂ : ∀ x ∈ Probes.vectors l₂.size, ¬ FailsOn ⟨f₂, l₂⟩ x) (s s₁ s₂ : Settings ℚ) :
    ∃ c c₁ c₂, (compile s f (l₁.join l₂)).result = .ok c ∧ (compile s₁ f₁ l₁).result = .ok c₁ ∧
      (compile s₂ f₂ l₂).result = .ok c₂ ∧ c.qubo.Blocks c₁.qubo c₂.qubo l₁.size l₂.size := by
  have hvalue (x : BitString) (hx : x ∈ Probes.vectors l₁.size) (y : BitString)
      (hy : y ∈ Probes.vectors l₂.size) :
      evaluate ⟨f, l₁.join l₂⟩ (x.append y) = .ok (value ⟨f₁, l₁⟩ x + value ⟨f₂, l₂⟩ y) :=
    evaluate_append hl hl₁ hl₂ hf₁ hf₂ hf (Probes.length_of_mem_vectors hx)
      (Probes.length_of_mem_vectors hy) (hok₁ x hx) (hok₂ y hy)
  -- no other probes are asked for than joined ones
  have hok : ∀ z ∈ Probes.vectors (l₁.join l₂).size, ¬ FailsOn ⟨f, l₁.join l₂⟩ z := by
    intro z hz
    obtain ⟨x, hx, y, hy, rfl⟩ := Probes.exists_append hz
    exact (exists_value_iff (Probes.length_of_mem_vectors hz)).1 ⟨_, hvalue x hx y hy⟩
  have hsplits : Splits (value ⟨f, l₁.join l₂⟩) (value ⟨f₁, l₁⟩) (value ⟨f₂, l₂⟩) l₁.size
      l₂.size := by
    intro x hx y hy
    rw [value, hvalue x hx y hy]
  exact ⟨_, _, _, compile_eq_ok_iff.2 ⟨hok, rfl⟩, compile_eq_ok_iff.2 ⟨hok₁, rfl⟩,
    compile_eq_ok_iff.2 ⟨hok₂, rfl⟩, hsplits.blocks_modelOf⟩

end PseudoBoolean

/-! ## Linear objectives -/

namespace Layout

variable {l : Layout} {c : String → ℚ}

/-- The weight of a bit: that of its place in the field of its variable, times the coefficient of
the variable. -/
def weight (l : Layout) (c : String → ℚ) (i : Nat) : ℚ :=
  match l.vars.find? fun v => decide (v.Owns i) with
  | none => 0
  | some v => c v.name * 2 ^ (i - v.offset)

theorem WellFormed.weight_offset (hl : l.WellFormed) (c : String → ℚ) {v : Variable}
    (hv : v ∈ l.vars) {k : Nat} (hk : k < v.width) :
    l.weight c (v.offset + k) = c v.name * 2 ^ k := by
  rw [weight, hl.find?_owner hv hk]
  dsimp only
  rw [Nat.add_sub_cancel_left]

/-- A sum over the fields of variables is a sum over the bits. -/
theorem sum_fields {vars : List Variable} {start stop : Nat} {w : Nat → ℚ}
    (h : Variable.Contiguous start vars stop)
    (hw : ∀ v ∈ vars, ∀ k < v.width, w (v.offset + k) = c v.name * 2 ^ k) (p : Nat → ℚ) :
    (vars.map fun v => c v.name * ∑ k ∈ Finset.range v.width, 2 ^ k * p (v.offset + k)).sum =
      ∑ i ∈ Finset.Ico start stop, w i * p i := by
  induction h with
  | nil n => simp
  | @cons v vars stop hrest ih =>
    -- the first field, and then the fields behind it
    have hfirst : c v.name * ∑ k ∈ Finset.range v.width, 2 ^ k * p (v.offset + k) =
        ∑ i ∈ Finset.Ico v.offset v.stop, w i * p i := by
      rw [Finset.mul_sum, Finset.sum_Ico_eq_sum_range, Variable.stop, Nat.add_sub_cancel_left]
      refine Finset.sum_congr rfl fun k hk => ?_
      rw [hw v List.mem_cons_self k (Finset.mem_range.1 hk), mul_assoc]
    have hle : v.offset ≤ v.stop := Nat.le_add_right _ _
    rw [List.map_cons, List.sum_cons, hfirst, ih fun u hu => hw u (List.mem_cons_of_mem v hu),
      Finset.sum_Ico_consecutive _ hle hrest.le]

/-- A linear form of the integers of a decoded valuation is one of the bits. -/
theorem exists_linear (hl : l.Built fun e _ => e.Positional) (c : String → ℚ) :
    ∃ d : ℚ, ∀ x : BitString, x.Binary l.size → ∀ a, l.decode x.bytes = .ok a →
      (l.vars.map fun v => c v.name * a.number ⟨v.name, none⟩).sum =
        d + ∑ i ∈ Finset.range l.size, l.weight c i * x.point i := by
  have hwell := hl.wellFormed
  have hnumber (v : Variable) (hv : v ∈ l.vars) : ∃ d : ℚ, ∀ x : BitString, x.Binary l.size →
      ∀ a, l.decode x.bytes = .ok a → a.number ⟨v.name, none⟩ =
        d + ∑ k ∈ Finset.range v.width, 2 ^ k * x.point (v.offset + k) := by
    obtain ⟨he, hwidth⟩ := hl.of_mem hv
    obtain ⟨d, hd⟩ := he.number hwidth
    refine ⟨d, fun x hx a ha => ?_⟩
    have hfield : (⟨v.field x.bytes⟩ : BitString).Binary v.width :=
      hx.slice (hwell.contiguous.bounds hv).2
    rw [Valuation.number, get?_decode hwell hx.length_eq ha hv, Option.map_some, Option.getD_some,
      hd _ hfield]
    congr 1
    refine Finset.sum_congr rfl fun k hk => ?_
    rw [Variable.field, BitString.point_slice _ _ (Finset.mem_range.1 hk)]
  -- the constants of the variables add up to one, the bits of the fields to all bits
  choose! d hd using hnumber
  refine ⟨(l.vars.map fun v => c v.name * d v).sum, fun x hx a ha => ?_⟩
  have hsum := sum_fields hwell.contiguous (fun v hv k => hwell.weight_offset c hv) x.point
  rw [Finset.range_eq_Ico, ← hsum, ← List.sum_map_add]
  refine congrArg List.sum (List.map_congr_left fun v hv => ?_)
  rw [hd v hv x hx a ha, mul_add]

end Layout

namespace PseudoBoolean

/-- Values that add up weights of the set positions have these for coefficients, and none across
two positions. -/
theorem coefficientOf_linear {value : BitString → ℚ} {n : Nat} {d : ℚ} {w : Nat → ℚ}
    (h : ∀ t ⊆ Finset.range n, value (.ofSet n t) = d + ∑ i ∈ t, w i) {i j : Nat} (hij : i ≤ j)
    (hj : j < n) : coefficientOf value n (i, j) = if i = j then w i else 0 := by
  have hi : i < n := Nat.lt_of_le_of_lt hij hj
  have hzeros : value (.zeros n) = d := by
    rw [BitString.zeros_eq_ofSet, h ∅ (Finset.empty_subset _), Finset.sum_empty, add_zero]
  have hunit {k : Nat} (hk : k < n) : value (.unit n k) = d + w k := by
    rw [BitString.unit_eq_ofSet, h {k} (by simpa using hk), Finset.sum_singleton]
  by_cases heq : i = j
  · rw [coefficientOf, if_pos heq, if_pos heq, hunit hi, hzeros]
    ring
  · have hpair : value (.pair n i j) = d + (w i + w j) := by
      rw [BitString.pair_eq_ofSet, h {i, j}, Finset.sum_pair heq]
      exact Finset.insert_subset (by simpa using hi) (by simpa using hj)
    rw [coefficientOf, if_neg heq, if_neg heq, hunit hi, hunit hj, hpair, hzeros]
    ring

end PseudoBoolean

variable {ε : Type} [Cause ε]

/-- A linear objective of integer variables is compiled into a diagonal: the entry of a bit is the
coefficient of its variable times the weight of its place. -/
theorem compile_linear (s : Settings ℚ) {l : Layout} (hl : l.Built fun e _ => e.Positional)
    (c : String → ℚ) (d : ℚ) (f : Objective ε ℚ)
    (hf : ∀ x : BitString, x.Binary l.size → ∀ a, l.decode x.bytes = .ok a →
      f a = .ok (d + (l.vars.map fun v => c v.name * a.number ⟨v.name, none⟩).sum)) :
    ∃ r, (compile s f l).result = .ok r ∧ r.qubo.matrix.UpperTriangular l.size ∧
      (∀ i j, i ≠ j → r.qubo.matrix.entry i j = 0) ∧
      ∀ v ∈ l.vars, ∀ k < v.width,
        r.qubo.matrix.get? (v.offset + k) (v.offset + k) = some (c v.name * 2 ^ k) := by
  have hwell := hl.wellFormed
  obtain ⟨d', hd'⟩ := Layout.exists_linear hl c
  let g (x : BitString) : ℚ := d + d' + ∑ i ∈ Finset.range l.size, l.weight c i * x.point i
  have hg (x : BitString) (hx : x.Binary l.size) :
      ∃ a, l.decode x.bytes = .ok a ∧ f a = .ok (g x) := by
    have ha := Layout.decode_eq_ok (l := l) hx.length_eq
    refine ⟨_, ha, ?_⟩
    rw [hf x hx _ ha, hd' x hx _ ha, ← add_assoc]
  have hset (t : Finset Nat) (ht : t ⊆ Finset.range l.size) :
      g (.ofSet l.size t) = d + d' + ∑ i ∈ t, l.weight c i := by
    simp only [g, BitString.point, BitString.support_ofSet_of_subset ht, setPoint, mul_ite, mul_one,
      mul_zero]
    rw [Finset.sum_ite_mem, Finset.inter_eq_right.2 ht]
  have hshape := PseudoBoolean.upperTriangular_modelOf g l.size
  refine ⟨_, compile_of_values hg s, hshape, fun i j hij => ?_, fun v hv k hk => ?_⟩
  · rw [PseudoBoolean.entry_modelOf]
    split
    · rename_i h
      rw [PseudoBoolean.coefficientOf_linear hset h.1 h.2, if_neg hij]
    · rfl
  · have hlt : v.offset + k < l.size := by
      have hstop := (hwell.contiguous.bounds hv).2
      rw [Variable.stop] at hstop
      omega
    rw [PseudoBoolean.get?_modelOf g (Nat.le_refl _) hlt,
      PseudoBoolean.coefficientOf_linear hset (Nat.le_refl _) hlt, if_pos rfl,
      hwell.weight_offset c hv hk]

/-- Two objectives, each of which looks at the variables of one layout alone and fails on no probe
of it, and an objective that has the sum of their values where both have one.  Registering the
variables of the one layout and then those of the other succeeds, and the sum is compiled into the
models of the two side by side: the offsets add up, the tables stand along the diagonal, and nothing
stands across.  A linear objective of integers in binary digits is compiled into a diagonal, whose
entry for a bit is the coefficient of its variable times the weight of its place. -/
theorem compile_separable (s s₁ s₂ : Settings ℚ) :
    (∀ (vs₁ vs₂ : List (String × Encoding × Nat)) (l₁ l₂ : Layout) (f f₁ f₂ : Objective ε ℚ),
      Layout.ofList vs₁ = .ok l₁ → Layout.ofList vs₂ = .ok l₂ →
      (∀ v ∈ vs₁, ∀ w ∈ vs₂, v.1 ≠ w.1) → f₁.DependsOn l₁ → f₂.DependsOn l₂ →
      (∀ a v w, f₁ a = .ok v → f₂ a = .ok w → f a = .ok (v + w)) →
      (∀ x ∈ Probes.vectors l₁.size, ¬ PseudoBoolean.FailsOn ⟨f₁, l₁⟩ x) →
      (∀ x ∈ Probes.vectors l₂.size, ¬ PseudoBoolean.FailsOn ⟨f₂, l₂⟩ x) →
      ∃ l c c₁ c₂, Layout.ofList (vs₁ ++ vs₂) = .ok l ∧ l.size = l₁.size + l₂.size ∧
        (compile s f l).result = .ok c ∧ (compile s₁ f₁ l₁).result = .ok c₁ ∧
        (compile s₂ f₂ l₂).result = .ok c₂ ∧ c.qubo.Blocks c₁.qubo c₂.qubo l₁.size l₂.size) ∧
    ∀ (l : Layout) (c : String → ℚ) (d : ℚ) (f : Objective ε ℚ),
      (l.Built fun e _ => e.Positional) →
      (∀ x : BitString, x.Binary l.size → ∀ a, l.decode x.bytes = .ok a →
        f a = .ok (d + (l.vars.map fun v => c v.name * a.number ⟨v.name, none⟩).sum)) →
      ∃ r, (compile s f l).result = .ok r ∧ r.qubo.matrix.UpperTriangular l.size ∧
        (∀ i j, i ≠ j → r.qubo.matrix.entry i j = 0) ∧
        ∀ v ∈ l.vars, ∀ k < v.width,
          r.qubo.matrix.get? (v.offset + k) (v.offset + k) = some (c v.name * 2 ^ k) := by
  refine ⟨?_, fun l c d f hl hf => compile_linear s hl c d f hf⟩
  intro vs₁ vs₂ l₁ l₂ f f₁ f₂ h₁ h₂ hnames hf₁ hf₂ hf hok₁ hok₂
  have hjoin := Layout.ofList_append h₁ h₂ hnames
  obtain ⟨c, c₁, c₂, hc, hc₁, hc₂, hblocks⟩ := PseudoBoolean.compile_blocks
    (Layout.ofList_spec hjoin).1 (Layout.ofList_spec h₁).1 (Layout.ofList_spec h₂).1 hf₁ hf₂ hf
    hok₁ hok₂ s s₁ s₂
  exact ⟨l₁.join l₂, c, c₁, c₂, hjoin, rfl, hc, hc₁, hc₂, hblocks⟩

/-- The cube of one number and the square of another side by side, and a linear objective of the
two. -/
theorem compile_separable_cube :
    let vs₁ : List (String × Encoding × Nat) := [("x", .unsigned, 3)]
    let vs₂ : List (String × Encoding × Nat) := [("y", .offsetBinary, 2)]
    let l₁ : Layout := ⟨[⟨"x", .unsigned, 3, 0⟩], 3⟩
    let l₂ : Layout := ⟨[⟨"y", .offsetBinary, 2, 0⟩], 2⟩
    let l : Layout := ⟨[⟨"x", .unsigned, 3, 0⟩, ⟨"y", .offsetBinary, 2, 3⟩], 5⟩
    let f₁ : Objective CodingError ℚ := fun a => (a.int "x").map fun v => (v.toInt : ℚ) ^ 3
    let f₂ : Objective CodingError ℚ := fun a => (a.int "y").map fun v => 1 - (v.toInt : ℚ) ^ 2
    let f : Objective CodingError ℚ := fun a => do
      let x ← f₁ a
      let y ← f₂ a
      .ok (x + y)
    let g : Objective CodingError ℚ := fun a => do
      let x ← a.int "x"
      let y ← a.int "y"
      .ok (5 + (2 * (x.toInt : ℚ) - 3 * y.toInt))
    Layout.ofList (vs₁ ++ vs₂) = .ok l ∧
      (∃ c c₁ c₂, (compile (.standard 4) f l).result = .ok c ∧
        (compile (.serial 0) f₁ l₁).result = .ok c₁ ∧
        (compile (.serial 0) f₂ l₂).result = .ok c₂ ∧ c.qubo.Blocks c₁.qubo c₂.qubo 3 2) ∧
      ∃ r, (compile (.standard 4) g l).result = .ok r ∧
        r.qubo.matrix.get? 4 4 = some (-3 * 2 ^ 1) := by
  intro vs₁ vs₂ l₁ l₂ l f₁ f₂ f g
  obtain ⟨hblocks, hlinear⟩ :=
    compile_separable (ε := CodingError) (.standard 4) (.serial 0) (.serial 0)
  refine ⟨rfl, ?_, ?_⟩
  · have hok₁ : ∀ x ∈ Probes.vectors l₁.size, ¬ PseudoBoolean.FailsOn ⟨f₁, l₁⟩ x := fun x hx => by
      have hlength := Probes.length_of_mem_vectors hx
      exact (PseudoBoolean.exists_value_iff (g := ⟨f₁, l₁⟩) hlength).1
        ⟨_, PseudoBoolean.evaluate_eq_ok (Layout.decode_single hlength) rfl⟩
    have hok₂ : ∀ x ∈ Probes.vectors l₂.size, ¬ PseudoBoolean.FailsOn ⟨f₂, l₂⟩ x := fun x hx => by
      have hlength := Probes.length_of_mem_vectors hx
      exact (PseudoBoolean.exists_value_iff (g := ⟨f₂, l₂⟩) hlength).1
        ⟨_, PseudoBoolean.evaluate_eq_ok (Layout.decode_single hlength) rfl⟩
    have hf₁ : f₁.DependsOn l₁ := fun a b h => by
      have hx : a.get? "x" = b.get? "x" := h _ List.mem_cons_self
      simp only [f₁, Valuation.int, hx]
    have hf₂ : f₂.DependsOn l₂ := fun a b h => by
      have hy : a.get? "y" = b.get? "y" := h _ List.mem_cons_self
      simp only [f₂, Valuation.int, hy]
    have hf (a : Valuation) (v w : ℚ) (hv : f₁ a = .ok v) (hw : f₂ a = .ok w) :
        f a = .ok (v + w) := by
      simp only [f, hv, hw]
      rfl
    obtain ⟨l', c, c₁, c₂, hl', -, hc, hc₁, hc₂, hmodel⟩ := hblocks vs₁ vs₂ l₁ l₂ f f₁ f₂ rfl rfl
      (by decide) hf₁ hf₂ hf hok₁ hok₂
    obtain rfl : l = l' := Except.ok.inj hl'
    exact ⟨c, c₁, c₂, hc, hc₁, hc₂, hmodel⟩
  · have hl : l.Built fun e _ => e.Positional := by
      have hfirst : Layout.empty.add "x" .unsigned 3 = .ok l₁ := rfl
      have hsecond : l₁.add "y" .offsetBinary 2 = .ok l := rfl
      exact .add (.add .empty .unsigned hfirst) .offsetBinary hsecond
    have hg (x : BitString) (hx : x.Binary l.size) (a : Valuation)
        (ha : l.decode x.bytes = .ok a) :
        g a = .ok (5 + (l.vars.map fun v =>
          (if v.name = "x" then 2 else -3) * a.number ⟨v.name, none⟩).sum) := by
      have hvalue : g a = .ok (5 + (2 * a.number ⟨"x", none⟩ - 3 * a.number ⟨"y", none⟩)) := by
        obtain rfl := Except.ok.inj ((Layout.decode_eq_ok hx.length_eq).symm.trans ha)
        rfl
      rw [hvalue]
      simp [l, sub_eq_add_neg]
    obtain ⟨r, hr, -, -, hdiagonal⟩ :=
      hlinear l (fun n => if n = "x" then 2 else -3) 5 g hl hg
    exact ⟨r, hr, hdiagonal ⟨"y", .offsetBinary, 2, 3⟩ (by simp [l]) 1 (by decide)⟩

end QuboProbe
