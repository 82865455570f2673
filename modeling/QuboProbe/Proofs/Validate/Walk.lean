/-
  QuboProbe.Proofs.Validate.Walk

  One step of a validation at a time.  A bit string that was evaluated before
  is passed over (`Validate.walk_known`), and any other is evaluated and
  compared (`Validate.walk_new`).  Where the function and the energy have
  values, the walk ends at a bit string on which they differ, or it has
  compared every bit string once (`Validate.walk_values`).  A validation is a
  walk, unless the model has another size than the layout
  (`Validate.along_of_size`).
-/
import QuboProbe.Proofs.Memo.Lookups
import QuboProbe.Validate
import Mathlib.Data.Finset.Dedup
import Mathlib.Data.Finset.Card
import Mathlib.Data.Finset.SDiff

namespace QuboProbe

/-- A square model has an energy on every string of its size, whatever the bytes are. -/
theorem Qubo.energy_eq_ok {α : Type} [Zero α] [Add α] {q : Qubo α} {x : BitString}
    (hrows : q.matrix.rows = x.length) (hcols : q.matrix.cols = x.length) :
    q.energy x.bytes = .ok (q.matrix.addActive q.offset (BitString.active x.bytes)) := by
  have hshape : ¬ (q.matrix.rows ≠ q.matrix.cols ∨ x.bytes.length ≠ q.matrix.rows) := by
    rw [hrows, hcols]
    simp [BitString.length]
  rw [energy, Matrix.energy, if_neg hshape]

namespace Validate

variable {ε α : Type} [Zero α] [Add α] [Sub α] [Mul α] [BEq α] [Cause ε] [Scalar α]
  {g : PseudoBoolean ε α} {q : Qubo α} {tolerance : Tolerance α} {m : Memo α} {x : BitString}

/-! ## One bit string -/

theorem walk_known (hm : m.Settled g.evaluate)
    (hok : ∀ y ∈ m.started, ∃ v, g.evaluate y = .ok v) (hx : x ∈ m.started)
    (rest : Unit → Supply BitString) (checked : Nat) :
    walk g q tolerance (.item x rest) checked m = walk g q tolerance (rest ()) checked m := by
  rw [walk, if_pos ((Memo.get?_isSome hm hok).2 hx)]

theorem walk_new (hm : m.Settled g.evaluate)
    (hok : ∀ y ∈ m.started, ∃ v, g.evaluate y = .ok v) (hx : x ∉ m.started)
    (rest : Unit → Supply BitString) (checked : Nat) :
    walk g q tolerance (.item x rest) checked m =
      match g.evaluate x with
      | .error e => (.error e, (m.look g.evaluate x).2)
      | .ok expected =>
        match q.energy x.bytes with
        | .error e => (.error (.dimension e), (m.look g.evaluate x).2)
        | .ok actual =>
          if tolerance.accepts expected actual then
            walk g q tolerance (rest ()) (checked + 1) (m.look g.evaluate x).2
          else (.ok ⟨checked + 1, some ⟨x, expected, actual⟩⟩, (m.look g.evaluate x).2) := by
  have hunknown : ¬ (m.get? x).isSome := fun h => hx ((Memo.get?_isSome hm hok).1 h)
  have hlook : m.look g.evaluate x = (g.evaluate x, (m.look g.evaluate x).2) :=
    Prod.ext (Memo.look_new hm hx).1 rfl
  rw [walk, if_neg hunknown, Script.run_lookup, hlook]
  cases g.evaluate x <;> rfl

omit [Zero α] [Add α] [Sub α] [Mul α] [BEq α] in
theorem exists_value_look (hm : m.Settled g.evaluate)
    (hok : ∀ y ∈ m.started, ∃ v, g.evaluate y = .ok v) (hx : x ∉ m.started) {v : α}
    (hvalue : g.evaluate x = .ok v) :
    ∀ y ∈ (m.look g.evaluate x).2.started, ∃ v, g.evaluate y = .ok v := by
  intro y hy
  rw [(Memo.look_new hm hx).2] at hy
  rcases List.mem_cons.1 hy with rfl | hy
  · exact ⟨v, hvalue⟩
  · exact hok y hy

/-! ## All bit strings -/

/-- The bit strings of a list that have yet to be compared. -/
def fresh (m : Memo α) (l : List BitString) : Finset BitString :=
  l.toFinset \ m.started.toFinset

omit [Zero α] [Add α] [Sub α] [Mul α] [BEq α] [Scalar α] in
theorem fresh_cons_known (hx : x ∈ m.started) (l : List BitString) :
    fresh m (x :: l) = fresh m l := by
  rw [fresh, fresh, List.toFinset_cons, Finset.insert_sdiff_of_mem _ (List.mem_toFinset.2 hx)]

omit [Zero α] [Add α] [Sub α] [Mul α] [BEq α] [Scalar α] in
/-- Comparing a bit string leaves one less. -/
theorem card_fresh_cons_new {m' : Memo α} (hx : x ∉ m.started)
    (hstarted : m'.started = x :: m.started) (l : List BitString) :
    (fresh m (x :: l)).card = (fresh m' l).card + 1 := by
  have hnotin : x ∉ fresh m' l := by simp [fresh, hstarted]
  have hinsert : fresh m (x :: l) = insert x (fresh m' l) := by
    ext y
    simp only [fresh, hstarted, Finset.mem_sdiff, Finset.mem_insert, List.mem_toFinset,
      List.mem_cons]
    by_cases hyx : y = x
    · simp [hyx, hx]
    · simp [hyx]
  rw [hinsert, Finset.card_insert_of_notMem hnotin]

/-- Where the function and the energy have values, the walk ends at a bit string on which they
differ; without one it compares each bit string once that was not evaluated before. -/
theorem walk_values (tolerance : Tolerance α) {value energy : BitString → α}
    (hm : m.Settled g.evaluate) (hok : ∀ y ∈ m.started, ∃ v, g.evaluate y = .ok v)
    (supply : Supply BitString) (hvalue : ∀ y ∈ supply.toList, g.evaluate y = .ok (value y))
    (henergy : ∀ y ∈ supply.toList, q.energy y.bytes = .ok (energy y)) (checked : Nat) :
    (∃ y ∈ supply.toList, tolerance.accepts (value y) (energy y) = false ∧
      ∃ k, (walk g q tolerance supply checked m).1 = .ok ⟨k, some ⟨y, value y, energy y⟩⟩) ∨
    ((∀ y ∈ supply.toList, y ∉ m.started → tolerance.accepts (value y) (energy y) = true) ∧
      (walk g q tolerance supply checked m).1 =
        .ok ⟨checked + (fresh m supply.toList).card, none⟩) := by
  induction supply generalizing m checked with
  | exhausted => exact .inr ⟨by simp, by simp [walk, fresh]⟩
  | item x rest ih =>
    rw [Supply.toList_item] at hvalue henergy ⊢
    have hvalue' : ∀ y ∈ (rest ()).toList, g.evaluate y = .ok (value y) := fun y hy =>
      hvalue y (List.mem_cons_of_mem x hy)
    have henergy' : ∀ y ∈ (rest ()).toList, q.energy y.bytes = .ok (energy y) := fun y hy =>
      henergy y (List.mem_cons_of_mem x hy)
    by_cases hx : x ∈ m.started
    · -- what is passed over was compared before, or the memo held it from the start
      rw [walk_known hm hok hx, fresh_cons_known hx]
      rcases ih () hm hok hvalue' henergy' checked with ⟨y, hy, h⟩ | ⟨hall, hrun⟩
      · exact .inl ⟨y, List.mem_cons_of_mem x hy, h⟩
      · refine .inr ⟨fun y hy hnew => hall y ((List.mem_cons.1 hy).resolve_left ?_) hnew, hrun⟩
        rintro rfl
        exact hnew hx
    · -- from now on the string counts as compared
      obtain ⟨-, hstarted⟩ := Memo.look_new hm hx
      have hok' := exists_value_look hm hok hx (hvalue x List.mem_cons_self)
      rw [walk_new hm hok hx, hvalue x List.mem_cons_self, henergy x List.mem_cons_self,
        card_fresh_cons_new hx hstarted]
      dsimp only
      by_cases haccepts : tolerance.accepts (value x) (energy x) = true
      · rw [if_pos haccepts]
        rcases ih () (hm.look x) hok' hvalue' henergy' (checked + 1) with ⟨y, hy, h⟩ | ⟨hall, hrun⟩
        · exact .inl ⟨y, List.mem_cons_of_mem x hy, h⟩
        · refine .inr ⟨fun y hy hnew => ?_, by rw [hrun, Nat.add_right_comm, Nat.add_assoc]⟩
          by_cases hyx : y = x
          · rw [hyx]
            exact haccepts
          · rw [hstarted] at hall
            refine hall y ((List.mem_cons.1 hy).resolve_left hyx) ?_
            exact List.not_mem_cons_of_ne_of_not_mem hyx hnew
      · rw [if_neg haccepts]
        exact .inl ⟨x, List.mem_cons_self, by simpa using haccepts, _, rfl⟩

/-! ## Whole validations -/

variable {f : Objective ε α} {l : Layout}

/-- A validation of a model of the right size is a walk on a memo that holds nothing. -/
theorem along_of_size (hsize : q.size = l.size) (supply : Supply BitString)
    (tolerance : Tolerance α) :
    (along supply tolerance f q l).result = (walk ⟨f, l⟩ q tolerance supply 0 .empty).1 ∧
      (along supply tolerance f q l).evaluated =
        (walk ⟨f, l⟩ q tolerance supply 0 .empty).2.started.reverse := by
  rw [along, if_neg (not_not_intro hsize)]
  exact ⟨rfl, rfl⟩

/-- Validations are the same if their walks are; a model of another size is refused before. -/
theorem along_eq_of_walk {supply supply' : Supply BitString} {tolerance' : Tolerance α}
    (hwalk : q.size = l.size → walk ⟨f, l⟩ q tolerance' supply' 0 .empty =
      walk ⟨f, l⟩ q tolerance supply 0 .empty) :
    along supply' tolerance' f q l = along supply tolerance f q l := by
  by_cases hsize : q.size = l.size
  · rw [along, along, if_neg (not_not_intro hsize), if_neg (not_not_intro hsize), hwalk hsize]
  · rw [along, along, if_pos hsize, if_pos hsize]

end Validate

end QuboProbe
