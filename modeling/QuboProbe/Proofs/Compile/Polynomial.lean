/-
  QuboProbe.Proofs.Compile.Polynomial

  Quadratic objectives over layouts of the library's own encodings are
  compiled exactly.  Every number that an objective can refer to is affine in
  the bits of a string (`Layout.exists_affine`), so a polynomial of degree two
  in the numbers is one in the bits, of which the model is no mere part but the
  whole (`compile_polynomial`).
-/
import QuboProbe.Proofs.Compile.QuadraticPart
import QuboProbe.Proofs.Encoding.Affine
import QuboProbe.Proofs.Layout.Codec

namespace QuboProbe

/-- A number that an objective can refer to: the value of an integer variable, or an entry of a
vector variable. -/
structure Ref where
  name : String
  entry : Option Nat

/-- The number that a valuation holds for a reference, zero if it holds none. -/
def Valuation.number (a : Valuation) (r : Ref) : ℚ :=
  ((a.get? r.name).map fun v => v.number r.entry).getD 0

theorem Valuation.number_congr {a b : Valuation} (h : ∀ n, a.get? n = b.get? n) :
    a.number = b.number := by
  funext r
  rw [number, number, h]

/-! ## Polynomials of affine polynomials -/

/-- Putting polynomials of degree at most one for the variables does not raise the degree. -/
theorem totalDegree_bind₁_le {σ τ : Type} {q : σ → MvPolynomial τ ℚ}
    (hq : ∀ i, (q i).totalDegree ≤ 1) (p : MvPolynomial σ ℚ) :
    (MvPolynomial.bind₁ q p).totalDegree ≤ p.totalDegree := by
  rw [← MvPolynomial.aeval_eq_bind₁, MvPolynomial.aeval_def, MvPolynomial.eval₂_eq]
  apply MvPolynomial.totalDegree_finsetSum_le
  intro m hm
  calc (MvPolynomial.C (p.coeff m) * ∏ i ∈ m.support, q i ^ m i).totalDegree
      ≤ (MvPolynomial.C (p.coeff m)).totalDegree + (∏ i ∈ m.support, q i ^ m i).totalDegree :=
        MvPolynomial.totalDegree_mul _ _
    _ ≤ 0 + ∑ i ∈ m.support, (q i ^ m i).totalDegree := by
        rw [MvPolynomial.totalDegree_C]
        exact Nat.add_le_add_left (MvPolynomial.totalDegree_finsetProd _ _) 0
    _ ≤ m.sum fun _ e => e := by
        rw [Nat.zero_add, Finsupp.sum]
        refine Finset.sum_le_sum fun i _ => (MvPolynomial.totalDegree_pow _ _).trans ?_
        exact (Nat.mul_le_mul_left (m i) (hq i)).trans (Nat.mul_one _).le
    _ ≤ p.totalDegree := MvPolynomial.le_totalDegree hm

theorem eval_bind₁ {σ τ : Type} (q : σ → MvPolynomial τ ℚ) (at_ : τ → ℚ) (p : MvPolynomial σ ℚ) :
    MvPolynomial.eval at_ (MvPolynomial.bind₁ q p) =
      MvPolynomial.eval (fun i => MvPolynomial.eval at_ (q i)) p :=
  MvPolynomial.eval₂Hom_bind₁ (RingHom.id ℚ) at_ q p

/-- A constant plus a sum of variables with weights. -/
noncomputable def affinePolynomial (c₀ : ℚ) (c : Nat → ℚ) (offset width : Nat) :
    MvPolynomial Nat ℚ :=
  MvPolynomial.C c₀ +
    ∑ k ∈ Finset.range width, MvPolynomial.C (c k) * MvPolynomial.X (offset + k)

theorem totalDegree_affinePolynomial_le (c₀ : ℚ) (c : Nat → ℚ) (offset width : Nat) :
    (affinePolynomial c₀ c offset width).totalDegree ≤ 1 := by
  refine (MvPolynomial.totalDegree_add _ _).trans (max_le ?_ ?_)
  · rw [MvPolynomial.totalDegree_C]
    exact Nat.zero_le 1
  · apply MvPolynomial.totalDegree_finsetSum_le
    intro k _
    refine (MvPolynomial.totalDegree_mul _ _).trans ?_
    rw [MvPolynomial.totalDegree_C, MvPolynomial.totalDegree_X]

theorem eval_affinePolynomial (at_ : Nat → ℚ) (c₀ : ℚ) (c : Nat → ℚ) (offset width : Nat) :
    MvPolynomial.eval at_ (affinePolynomial c₀ c offset width) =
      c₀ + ∑ k ∈ Finset.range width, c k * at_ (offset + k) := by
  simp [affinePolynomial]

/-! ## Numbers as functions of the bits -/

namespace Layout

variable {l : Layout}

/-- The fields of the library's own encodings are lawful. -/
theorem Built.lawful (hl : l.Built fun e _ => e.BuiltIn) : l.Lawful := fun _ hv =>
  (hl.of_mem hv).1.lawful (hl.of_mem hv).2

/-- Every number of a decoded valuation is affine in the bits. -/
theorem exists_affine (hl : l.Built fun e _ => e.BuiltIn) (r : Ref) :
    ∃ q : MvPolynomial Nat ℚ, q.totalDegree ≤ 1 ∧ ∀ x : BitString, x.Binary l.size →
      ∀ b, l.decode x.bytes = .ok b → MvPolynomial.eval x.point q = b.number r := by
  by_cases hr : r.name ∈ l.vars.map Variable.name
  · obtain ⟨v, hv, hname⟩ := List.mem_map.1 hr
    obtain ⟨he, hwidth⟩ := hl.of_mem hv
    obtain ⟨c₀, c, hc⟩ := he.affine hwidth r.entry
    refine ⟨affinePolynomial c₀ c v.offset v.width, totalDegree_affinePolynomial_le .., ?_⟩
    intro x hx b hb
    have hfield : (⟨v.field x.bytes⟩ : BitString).Binary v.width :=
      hx.slice (hl.wellFormed.contiguous.bounds hv).2
    rw [Valuation.number, ← hname, get?_decode hl.wellFormed hx.length_eq hb hv, Option.map_some,
      Option.getD_some, hc _ hfield, eval_affinePolynomial]
    -- the bits of the field are bits of the string
    congr 1
    apply Finset.sum_congr rfl
    intro k hk
    rw [Variable.field, BitString.point_slice _ _ (Finset.mem_range.1 hk)]
  · -- what is not a variable is not bound
    refine ⟨0, by simp, fun x hx b hb => ?_⟩
    have hnone : b.get? r.name = none := by
      rw [← Option.not_isSome_iff_eq_none, Valuation.get?_isSome, names_decode hx.length_eq hb]
      exact hr
    rw [Valuation.number, hnone, map_zero]
    rfl

end Layout

variable {ε : Type} [Cause ε]

/-- An objective that is a polynomial of degree at most two in the numbers of a valuation is
compiled exactly over every layout of the library's own encodings: the energy of what a valuation
is encoded as is the value of the objective, and so is the energy of every string of zeros and ones
that of what it is decoded to. -/
theorem compile_polynomial (s : Settings ℚ) {l : Layout} (hl : l.Built fun e _ => e.BuiltIn)
    (f : Objective ε ℚ) (p : MvPolynomial Ref ℚ) (hp : p.totalDegree ≤ 2)
    (hf : ∀ a x, l.encode a = .ok x → f a = .ok (MvPolynomial.eval a.number p)) :
    ∃ c, (compile s f l).result = .ok c ∧
      (∀ a x, l.encode a = .ok x → ∃ v, f a = .ok v ∧ c.qubo.energy x.bytes = .ok v) ∧
      ∀ x : BitString, x.Binary l.size →
        ∃ a v, l.decode x.bytes = .ok a ∧ f a = .ok v ∧ c.qubo.energy x.bytes = .ok v := by
  -- put for every number the affine polynomial in the bits that it is
  choose q hdegree hnumber using fun r => Layout.exists_affine hl r
  have hvalue (x : BitString) (hx : x.Binary l.size) (b : Valuation)
      (hb : l.decode x.bytes = .ok b) :
      MvPolynomial.eval x.point (MvPolynomial.bind₁ q p) = MvPolynomial.eval b.number p := by
    rw [eval_bind₁]
    congr 2
    funext r
    exact hnumber r x hx b hb
  have hg (x : BitString) (hx : x.Binary l.size) : ∃ a, l.decode x.bytes = .ok a ∧
      f a = .ok (MvPolynomial.eval x.point (MvPolynomial.bind₁ q p)) := by
    obtain ⟨b, hb, henc⟩ := Layout.encode_decode hl.wellFormed hl.lawful hx
    exact ⟨b, hb, by rw [hf b x henc, hvalue x hx b hb]⟩
  -- the degree stays at two, so no larger set of bits has a coefficient
  have henergy := (PseudoBoolean.energy_modelOf_eq_iff
    (fun x => MvPolynomial.eval x.point (MvPolynomial.bind₁ q p)) l.size).2 fun t ht hcard => by
      refine moebius_eq_zero_of_totalDegree ((totalDegree_bind₁_le hdegree p).trans hp)
        (fun s hs => ?_) ht hcard
      rw [BitString.point, BitString.support_ofSet_of_subset hs]
  refine ⟨_, compile_of_values hg s, fun a x henc => ?_, fun x hx => ?_⟩
  · -- the encoded valuation is read back with the same numbers, perhaps in another order
    obtain ⟨hx, b, hb, hget⟩ := Layout.decode_encode hl.wellFormed hl.lawful henc
    refine ⟨_, hf a x henc, ?_⟩
    rw [henergy x hx, hvalue x hx b hb, Valuation.number_congr hget]
  · obtain ⟨a, ha, hv⟩ := hg x hx
    exact ⟨a, _, ha, hv, henergy x hx⟩

/-- A product of a number with an entry of a vector, and a square, over a layout of three
encodings. -/
theorem compile_polynomial_product :
    let l : Layout :=
      ⟨[⟨"a", .unsigned, 3, 0⟩, ⟨"b", .offsetBinary, 2, 3⟩, ⟨"v", .packed 2 2, 4, 5⟩], 9⟩
    let p : MvPolynomial Ref ℚ := .X ⟨"a", none⟩ * .X ⟨"v", some 1⟩ + .X ⟨"b", none⟩ ^ 2
    let f : Objective CodingError ℚ := fun a => .ok (MvPolynomial.eval a.number p)
    (l.Built fun e _ => e.BuiltIn) ∧ p.totalDegree ≤ 2 ∧
      ∃ c, (compile (.standard 4) f l).result = .ok c ∧
        ∀ x : BitString, x.Binary l.size →
          ∃ a v, l.decode x.bytes = .ok a ∧ f a = .ok v ∧ c.qubo.energy x.bytes = .ok v := by
  intro l p f
  have hl : l.Built fun e _ => e.BuiltIn := by
    have h1 : Layout.empty.add "a" .unsigned 3 = .ok ⟨[⟨"a", .unsigned, 3, 0⟩], 3⟩ := rfl
    have h2 : Layout.add ⟨[⟨"a", .unsigned, 3, 0⟩], 3⟩ "b" .offsetBinary 2 =
        .ok ⟨[⟨"a", .unsigned, 3, 0⟩, ⟨"b", .offsetBinary, 2, 3⟩], 5⟩ := rfl
    have h3 : Layout.add ⟨[⟨"a", .unsigned, 3, 0⟩, ⟨"b", .offsetBinary, 2, 3⟩], 5⟩ "v"
        (.packed 2 2) 4 = .ok l := rfl
    exact .add (.add (.add .empty .unsigned h1) .offsetBinary h2) (.packed 2 2) h3
  have hp : p.totalDegree ≤ 2 := by
    refine (MvPolynomial.totalDegree_add _ _).trans (max_le ?_ ?_)
    · refine (MvPolynomial.totalDegree_mul _ _).trans ?_
      rw [MvPolynomial.totalDegree_X, MvPolynomial.totalDegree_X]
    · rw [MvPolynomial.totalDegree_X_pow]
  obtain ⟨c, hc, -, hdecode⟩ := compile_polynomial (.standard 4) hl f p hp fun a x _ => rfl
  exact ⟨hl, hp, c, hc, hdecode⟩

end QuboProbe
