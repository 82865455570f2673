/-
  QuboProbe.Proofs.Valuation

  Valuations whatever their entries are.  A text may bind a name several times,
  and what is read from it keeps every entry: look-up then finds the first
  binding of a name, and the map by name keeps the last
  (`Valuation.getElem?_toMap`).  Agreement is transitive all the same, but a
  valuation agrees with itself only if look-up finds each of its entries
  (`Valuation.beq_self_iff`).  Where each name is bound once, agreement is an
  equivalence and the map tells what look-up finds (`Valuation.read_alike`).
-/
import QuboProbe.Proofs.Exchange.Values
import QuboProbe.Proofs.Layout.RoundTrip

namespace QuboProbe.Valuation

variable {a b c : Valuation}

/-! ## The map by name -/

/-- The map keeps the last binding of a name. -/
theorem getElem?_toMap (a : Valuation) (n : String) :
    a.toMap[n]? = a.entries.reverse.lookup n := by
  have hfold (es : List (String × Value)) (m : Std.TreeMap String Value) :
      (es.foldl (fun m e => m.insert e.1 e.2) m)[n]? = (es.reverse.lookup n).or m[n]? := by
    induction es generalizing m with
    | nil => rfl
    | cons e es ih =>
      obtain ⟨k, v⟩ := e
      rw [List.foldl_cons, ih, List.reverse_cons, List.lookup_append, Option.or_assoc,
        Std.TreeMap.getElem?_insert]
      -- the entry in front counts where none behind it has its name
      congr 1
      by_cases hk : k = n
      · subst hk
        rw [if_pos Std.ReflCmp.compare_self]
        simp
      · rw [if_neg fun h => hk (Std.LawfulEqOrd.eq_of_compare h)]
        simp [List.lookup_cons, beq_false_of_ne (Ne.symm hk)]
  rw [toMap, hfold]
  simp

/-- The map tells what look-up finds, if each name is bound once. -/
theorem getElem?_toMap_of_nodup (ha : a.names.Nodup) (n : String) : a.toMap[n]? = a.get? n := by
  have hreverse : (⟨a.entries.reverse⟩ : Valuation).names.Nodup := by
    rw [names, List.map_reverse]
    exact List.nodup_reverse.2 ha
  rw [getElem?_toMap]
  apply Option.ext
  intro value
  rw [show a.entries.reverse.lookup n = (⟨a.entries.reverse⟩ : Valuation).get? n from rfl,
    get?_eq_some_iff hreverse, get?_eq_some_iff ha, List.mem_reverse]

/-! ## Agreement -/

/-- A valuation agrees with itself exactly if look-up finds each of its entries. -/
theorem beq_self_iff : (a == a) = true ↔ ∀ e ∈ a.entries, a.get? e.1 = some e.2 := by
  rw [beq_eq_true]
  exact and_iff_right rfl

theorem mem_of_get? {n : String} {value : Value} (h : a.get? n = some value) :
    (n, value) ∈ a.entries := by
  obtain ⟨before, after, hentries, -⟩ := List.lookup_eq_some_iff.1 h
  rw [hentries]
  exact List.mem_append_right _ List.mem_cons_self

/-- Agreement is transitive, also where names are bound several times: what look-up finds is an
entry, and the next valuation binds every entry. -/
theorem beq_trans (hab : (a == b) = true) (hbc : (b == c) = true) : (a == c) = true := by
  rw [beq_eq_true] at hab hbc ⊢
  obtain ⟨hlength, hall⟩ := hab
  obtain ⟨hlength', hall'⟩ := hbc
  refine ⟨hlength.trans hlength', fun e he => ?_⟩
  exact hall' e (mem_of_get? (hall e he))

/-- What agrees with a valuation that binds each name once does so too, and the valuation agrees
with it. -/
theorem beq_symm (ha : a.names.Nodup) (h : (a == b) = true) :
    b.names.Nodup ∧ (b == a) = true := by
  obtain ⟨hlength, hall⟩ := beq_eq_true.1 h
  -- as many entries, all of them found in the other, are the other's entries
  have hsub : a.entries ⊆ b.entries := fun e he => mem_of_get? (hall e he)
  have hperm : a.entries.Perm b.entries :=
    (List.subperm_of_subset (nodup_entries ha) hsub).perm_of_length_le (Nat.le_of_eq hlength.symm)
  have hb : b.names.Nodup := (hperm.map Prod.fst).nodup_iff.1 ha
  refine ⟨hb, (beq_iff hb ha).2 fun n => ?_⟩
  exact ((beq_iff ha hb).1 h n).symm

/-! ## What is read -/

/-- Every valuation is read from the text written for it, whatever names its entries bind.
Agreement of such valuations is transitive; one of them agrees with itself exactly if look-up finds
each of its entries, and its map keeps the last binding of each name.  If it binds each name once,
then it agrees with itself, what it agrees with binds each name once and agrees with it in turn, and
its map tells what look-up finds. -/
theorem read_alike (a b c : Valuation) :
    Json.read? ofJson? a.toJson.text = some a ∧
    ((a == b) = true → (b == c) = true → (a == c) = true) ∧
    ((a == a) = true ↔ ∀ e ∈ a.entries, a.get? e.1 = some e.2) ∧
    (∀ n, a.toMap[n]? = a.entries.reverse.lookup n) ∧
    (a.names.Nodup →
      (a == a) = true ∧ ((a == b) = true → b.names.Nodup ∧ (b == a) = true) ∧
        ∀ n, a.toMap[n]? = a.get? n) := by
  refine ⟨Json.read?_text a.written_toJson a.ofJson?_toJson, beq_trans, beq_self_iff,
    getElem?_toMap a, fun ha => ⟨?_, beq_symm ha, getElem?_toMap_of_nodup ha⟩⟩
  exact (beq_iff ha ha).2 fun n => rfl

/-- Two names bound in either order. -/
theorem read_alike_swapped :
    let a : Valuation := ⟨[("x", .int 1), ("y", .vector [2, 3])]⟩
    let b : Valuation := ⟨[("y", .vector [2, 3]), ("x", .int 1)]⟩
    a.names.Nodup ∧ (a == b) = true ∧ (b == a) = true ∧ a.toMap["y"]? = a.get? "y" := by
  intro a b
  have ha : a.names.Nodup := by decide
  have hab : (a == b) = true := by decide
  obtain ⟨-, -, -, -, honce⟩ := read_alike a b a
  exact ⟨ha, hab, ((honce ha).2.1 hab).2, (honce ha).2.2 "y"⟩

/-- Names bound twice, in texts that are read: a valuation that does not agree with itself and whose
map tells another value than look-up, and two valuations of which only one agrees with the
other. -/
theorem bound_twice_apart :
    let a : Valuation := ⟨[("x", .int 1), ("x", .int 2)]⟩
    let b : Valuation := ⟨[("x", .int 1), ("x", .int 1)]⟩
    let c : Valuation := ⟨[("x", .int 1), ("y", .int 2)]⟩
    (∀ v ∈ [a, b, c], Json.read? ofJson? v.toJson.text = some v) ∧
      (a == a) = false ∧ a.get? "x" = some (.int 1) ∧ a.toMap["x"]? = some (.int 2) ∧
      (b == c) = true ∧ (c == b) = false := by
  intro a b c
  refine ⟨fun v _ => Json.read?_text v.written_toJson v.ofJson?_toJson, by decide, rfl, ?_,
    by decide, by decide⟩
  rw [getElem?_toMap]
  rfl

end QuboProbe.Valuation
