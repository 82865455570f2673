/-
  QuboProbe.Proofs.Insertion

  Valuations as they are built: bindings are inserted one after another, or a
  new valuation is made of a list of them.  What was inserted since then, in
  turn, tells all about the valuation (`Valuation.Holds`): its names stand in
  the order in which they were first inserted, and look-up finds what was
  inserted last under a name.  An insertion keeps this
  (`Valuation.Holds.insert`), and so does every sequence of steps
  (`Valuation.holds_run`).

  Such a valuation is therefore a finite map with an order of its names, and
  agreement is equality of the maps (`Valuation.built_map`).
-/
import QuboProbe.Proofs.Valuation

namespace QuboProbe.Valuation

variable {a b : Valuation} {h h' : List (String × Value)}

/-! ## Steps -/

/-- A step in building a valuation: a binding is inserted into the one at hand, or a new one is
made of bindings. -/
inductive Step where
  | insert (name : String) (value : Value)
  | collect (bindings : List (String × Value))

/-- The valuation after a step. -/
def Step.apply (a : Valuation) : Step → Valuation
  | .insert name value => a.insert name value
  | .collect bindings => ofList bindings

/-- The bindings that were inserted into the valuation at hand, the last one at the end. -/
def Step.record (h : List (String × Value)) : Step → List (String × Value)
  | .insert name value => h ++ [(name, value)]
  | .collect bindings => bindings

/-- The valuation that steps build. -/
def run (steps : List Step) : Valuation := steps.foldl Step.apply empty

/-- What was inserted into the valuation that steps build. -/
def inserted (steps : List Step) : List (String × Value) := steps.foldl Step.record []

/-! ## What a valuation holds -/

/-- The valuation is what the insertion of these bindings, in turn, leads to: its names are in the
order in which they first came, and each is bound to the value that it came with last. -/
structure Holds (a : Valuation) (h : List (String × Value)) : Prop where
  names : a.names = (h.map Prod.fst).eraseDups
  nodup : a.names.Nodup
  get? : ∀ n, a.get? n = h.reverse.lookup n

/-- A new name is added at the end. -/
theorem names_insert (a : Valuation) (name : String) (value : Value) :
    (a.insert name value).names = if name ∈ a.names then a.names else a.names ++ [name] := by
  obtain ⟨entries⟩ := a
  show (insertEntry name value entries).map Prod.fst =
    if name ∈ entries.map Prod.fst then entries.map Prod.fst else entries.map Prod.fst ++ [name]
  induction entries with
  | nil => rfl
  | cons e rest ih =>
    obtain ⟨k, v⟩ := e
    rw [insertEntry, List.map_cons]
    by_cases hk : k = name
    · rw [if_pos hk, if_pos (hk ▸ List.mem_cons_self), List.map_cons, hk]
    · have hmem : name ∈ k :: rest.map Prod.fst ↔ name ∈ rest.map Prod.fst := by
        rw [List.mem_cons]
        exact or_iff_right (Ne.symm hk)
      rw [if_neg hk, List.map_cons, ih]
      simp only [hmem]
      split <;> rfl

theorem nodup_names_insert (ha : a.names.Nodup) (name : String) (value : Value) :
    (a.insert name value).names.Nodup := nodup_names_insertEntry name ha

theorem Holds.empty : Holds empty [] := ⟨rfl, List.nodup_nil, fun _ => rfl⟩

/-- An insertion is recorded at the end. -/
theorem Holds.insert (ha : a.Holds h) (name : String) (value : Value) :
    (a.insert name value).Holds (h ++ [(name, value)]) where
  names := by
    rw [names_insert, ha.names, List.map_append, List.map_singleton, List.eraseDups_append]
    by_cases hmem : name ∈ h.map Prod.fst
    · have hold : [name].removeAll (h.map Prod.fst) = [] := by simpa [List.removeAll] using hmem
      rw [if_pos (List.mem_eraseDups.2 hmem), hold, List.eraseDups_nil, List.append_nil]
    · have hnew : [name].removeAll (h.map Prod.fst) = [name] := by
        simpa [List.removeAll] using hmem
      rw [if_neg fun h => hmem (List.mem_eraseDups.1 h), hnew]
      rfl
  nodup := nodup_names_insert ha.nodup name value
  get? n := by
    rw [get?_insert, ha.get?, List.reverse_append, List.reverse_singleton, List.singleton_append]
    by_cases hn : n = name
    · rw [if_pos hn, hn, List.lookup_cons_self]
    · rw [if_neg hn, List.lookup_cons, beq_false_of_ne hn]

theorem holds_ofList (bindings : List (String × Value)) : (ofList bindings).Holds bindings := by
  induction bindings using List.reverseRecOn with
  | nil => exact .empty
  | append_singleton bindings b ih =>
    have hlast : ofList (bindings ++ [b]) = (ofList bindings).insert b.1 b.2 :=
      List.foldl_concat ..
    rw [hlast]
    exact ih.insert b.1 b.2

theorem Holds.step (ha : a.Holds h) (s : Step) : (s.apply a).Holds (s.record h) := by
  cases s with
  | insert name value => exact ha.insert name value
  | collect bindings => exact holds_ofList bindings

/-- What steps build holds what they inserted. -/
theorem holds_run (steps : List Step) : (run steps).Holds (inserted steps) := by
  have hrun (a : Valuation) (h : List (String × Value)) (ha : a.Holds h) :
      (steps.foldl Step.apply a).Holds (steps.foldl Step.record h) := by
    induction steps generalizing a h with
    | nil => exact ha
    | cons s steps ih => exact ih _ _ (ha.step s)
  exact hrun empty [] .empty

/-! ## The map -/

theorem int_eq (a : Valuation) (n : String) :
    a.int n = match a.get? n with
      | none => .error (.unknownVariable n)
      | some (.int v) => .ok v
      | some (.vector _) => .error (.domain "int" (.boundTo n "vector")) := by
  rw [int]
  rcases a.get? n with _ | (v | vs) <;> rfl

theorem vector_eq (a : Valuation) (n : String) :
    a.vector n = match a.get? n with
      | none => .error (.unknownVariable n)
      | some (.int _) => .error (.domain "vector" (.boundTo n "int"))
      | some (.vector vs) => .ok vs := by
  rw [vector]
  rcases a.get? n with _ | (v | vs) <;> rfl

/-- The map of a valuation that binds each name once has its entries. -/
theorem toList_toMap_perm (ha : a.names.Nodup) : a.toMap.toList.Perm a.entries := by
  have hnodup : a.toMap.toList.Nodup :=
    Std.TreeMap.distinct_keys_toList.imp fun {e e'} hne (heq : e = e') =>
      hne (by rw [heq]; exact Std.ReflCmp.compare_self)
  refine (List.perm_ext_iff_of_nodup hnodup (nodup_entries ha)).2 fun ⟨n, value⟩ => ?_
  rw [Std.TreeMap.mem_toList_iff_getElem?_eq_some, getElem?_toMap_of_nodup ha,
    get?_eq_some_iff ha]

/-- Agreement of valuations that bind each name once is equality of their maps. -/
theorem beq_iff_toList_toMap (ha : a.names.Nodup) (hb : b.names.Nodup) :
    (a == b) = true ↔ a.toMap.toList = b.toMap.toList := by
  rw [beq_iff ha hb, ← Std.TreeMap.equiv_iff_toList_eq]
  constructor
  · intro heq
    have hentries : a.entries.Perm b.entries := by
      refine (List.perm_ext_iff_of_nodup (nodup_entries ha) (nodup_entries hb)).2
        fun ⟨n, value⟩ => ?_
      rw [← get?_eq_some_iff ha, ← get?_eq_some_iff hb, heq]
    exact .of_toList_perm
      ((toList_toMap_perm ha).trans (hentries.trans (toList_toMap_perm hb).symm))
  · intro hmap n
    rw [← getElem?_toMap_of_nodup ha, ← getElem?_toMap_of_nodup hb, hmap.getElem?_eq]

namespace Holds

theorem mem_names (ha : a.Holds h) {n : String} : n ∈ a.names ↔ n ∈ h.map Prod.fst := by
  rw [ha.names, List.mem_eraseDups]

theorem contains_iff (ha : a.Holds h) {n : String} :
    a.contains n = true ↔ n ∈ h.map Prod.fst := by
  rw [contains, get?_isSome, ha.mem_names]

/-- There are as many entries as names were inserted. -/
theorem size_eq (ha : a.Holds h) : a.size = (h.map Prod.fst).toFinset.card := by
  have hnames : a.names.toFinset = (h.map Prod.fst).toFinset := by
    ext n
    rw [List.mem_toFinset, List.mem_toFinset, ha.mem_names]
  rw [← hnames, List.toFinset_card_of_nodup ha.nodup, Valuation.names, List.length_map, size]

/-- An entry is what was inserted last under its name. -/
theorem mem_entries_iff (ha : a.Holds h) {n : String} {value : Value} :
    (n, value) ∈ a.entries ↔ h.reverse.lookup n = some value := by
  rw [← get?_eq_some_iff ha.nodup, ha.get?]

end Holds

/-- Insertions of different names commute, up to the order of the entries. -/
theorem insert_comm (ha : a.names.Nodup) {n n' : String} (hne : n ≠ n') (value value' : Value) :
    ((a.insert n value).insert n' value' == (a.insert n' value').insert n value) = true := by
  have hleft := nodup_names_insert (nodup_names_insert ha n value) n' value'
  have hright := nodup_names_insert (nodup_names_insert ha n' value') n value
  refine (beq_iff hleft hright).2 fun k => ?_
  rw [get?_insert, get?_insert, get?_insert, get?_insert]
  by_cases hk : k = n
  · rw [if_neg (hk ▸ hne), if_pos hk, if_pos hk]
  · rw [if_neg hk, if_neg hk]

/-- A valuation that steps build is a finite map with an order of its names.  Its names are
distinct and in the order in which they were first inserted, and each is bound to what was inserted
last under it; whatever reads the valuation reads this map, and the map by name has its entries.
Valuations that are built agree exactly if their maps are equal, whatever the order was, so that
agreement is an equivalence, and insertions of different names commute. -/
theorem built_map (steps : List Step) :
    let a := run steps
    let last (n : String) : Option Value := (inserted steps).reverse.lookup n
    (a.names.Nodup ∧ a.names = ((inserted steps).map Prod.fst).eraseDups) ∧
    (∀ n value, (n, value) ∈ a.entries ↔ last n = some value) ∧
    (∀ n, a.get? n = last n) ∧
    (∀ n, a.contains n = true ↔ n ∈ (inserted steps).map Prod.fst) ∧
    (∀ n, a.int n = match last n with
      | none => .error (.unknownVariable n)
      | some (.int v) => .ok v
      | some (.vector _) => .error (.domain "int" (.boundTo n "vector"))) ∧
    (∀ n, a.vector n = match last n with
      | none => .error (.unknownVariable n)
      | some (.int _) => .error (.domain "vector" (.boundTo n "int"))
      | some (.vector vs) => .ok vs) ∧
    a.size = ((inserted steps).map Prod.fst).toFinset.card ∧
    (∀ n, a.toMap[n]? = last n) ∧
    a.toMap.toList.Perm a.entries ∧
    (a == a) = true ∧
    (∀ steps', let b := run steps'
      ((a == b) = true ↔ a.toMap.toList = b.toMap.toList) ∧
      ((a == b) = true → (b == a) = true) ∧
      ∀ steps'', (a == b) = true → (b == run steps'') = true → (a == run steps'') = true) ∧
    ∀ n n' value value', n ≠ n' →
      ((a.insert n value).insert n' value' == (a.insert n' value').insert n value) = true := by
  intro a last
  have ha : a.Holds (inserted steps) := holds_run steps
  refine ⟨⟨ha.nodup, ha.names⟩, fun n value => ha.mem_entries_iff, ha.get?,
    fun n => ha.contains_iff, fun n => ?_, fun n => ?_, ha.size_eq, fun n => ?_,
    toList_toMap_perm ha.nodup, (beq_iff ha.nodup ha.nodup).2 fun _ => rfl,
    fun steps' => ⟨?_, fun hab => (beq_symm ha.nodup hab).2, fun _ => beq_trans⟩,
    fun n n' value value' hne => insert_comm ha.nodup hne value value'⟩
  · rw [int_eq, ha.get?]
  · rw [vector_eq, ha.get?]
  · rw [getElem?_toMap_of_nodup ha.nodup, ha.get?]
  · exact beq_iff_toList_toMap ha.nodup (holds_run steps').nodup

/-- A name that was bound twice before the valuation was extended, and the same bindings built in
another order. -/
theorem built_map_rebound :
    let steps : List Step :=
      [.insert "old" (.int 0), .collect [("x", .int 1), ("y", .vector [2]), ("x", .int 3)],
        .insert "z" (.int 4), .insert "y" (.int 5)]
    let steps' : List Step := [.insert "z" (.int 4), .insert "y" (.int 5), .insert "x" (.int 3)]
    (run steps).names = ["x", "y", "z"] ∧ (run steps).get? "y" = some (.int 5) ∧
      (run steps == run steps') = true ∧ (run steps' == run steps) = true ∧
      (run steps == run steps) = true ∧
      (run steps).toMap.toList = (run steps').toMap.toList ∧ "x" ≠ "z" ∧
      (((run steps).insert "x" (.int 7)).insert "z" (.int 8) ==
        ((run steps).insert "z" (.int 8)).insert "x" (.int 7)) = true := by
  intro steps steps'
  have hab : (run steps == run steps') = true := by decide
  have hne : "x" ≠ "z" := by decide
  obtain ⟨⟨-, hnames⟩, -, hget, -, -, -, -, -, -, -, hagree, hcomm⟩ := built_map steps
  obtain ⟨hmap, hsymm, htrans⟩ := hagree steps'
  refine ⟨hnames.trans ?_, (hget "y").trans rfl, hab, hsymm hab, htrans steps hab (hsymm hab),
    hmap.1 hab, hne, hcomm "x" "z" (.int 7) (.int 8) hne⟩
  decide

end QuboProbe.Valuation
