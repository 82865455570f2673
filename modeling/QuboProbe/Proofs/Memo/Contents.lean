/-
  QuboProbe.Proofs.Memo.Contents

  What a memo holds, counted.  `Memo.size` and `Memo.failures` go over the
  cells, while everything else is said of bit strings; the two fit together
  when every cell stands at the key of its bit string (`Memo.Keyed`), which all
  steps keep.  Then a count is the size of the set of the bit strings whose
  outcomes pass the test (`Memo.count_eq_card`).
-/
import QuboProbe.Memo.Script
import Mathlib.Data.Finset.Card
import Mathlib.Data.Finset.Dedup

namespace QuboProbe

variable {ε α : Type}

/-- Whether a cell holds an outcome that passes a test. -/
def Cell.passes (test : Except String α → Bool) : Cell α → Bool
  | .settled o => test o
  | _ => false

namespace Memo

/-! ## Outcomes -/

theorem toBool_outcomeOf [Cause ε] [Scalar α] (r : Except (Failure ε α) α) :
    (outcomeOf r).toBool = r.toBool := by
  cases r <;> rfl

theorem outcomeOf_eq_ok_iff [Cause ε] [Scalar α] (r : Except (Failure ε α) α) (v : α) :
    outcomeOf r = .ok v ↔ r = .ok v := by
  cases r with
  | ok w => simp [outcomeOf]
  | error e => simp [outcomeOf]

theorem get?_eq_some_iff (m : Memo α) (k : BitString) (v : α) :
    m.get? k = some v ↔ m.outcome? k = some (.ok v) := by
  unfold get?
  split
  · rename_i w ho
    rw [ho]
    simp
  · rename_i hno
    exact iff_of_false nofun (hno v)

/-! ## Cells at the keys of their bit strings -/

/-- Every cell stands at the key of its bit string. -/
def Keyed (m : Memo α) : Prop := ∀ k c, m.cells[k]? = some c → k = Key.of k.bits

variable {m : Memo α}

theorem Keyed.empty : (empty : Memo α).Keyed := by
  intro k c h
  simp [Memo.empty] at h

theorem Keyed.setCell (hm : m.Keyed) (key : BitString) (c : Cell α) : (m.setCell key c).Keyed := by
  intro k c' h
  rw [Memo.setCell, Std.TreeMap.getElem?_insert] at h
  by_cases hk : compare (Key.of key) k = .eq
  · have hkey : Key.of key = k := Std.LawfulEqOrd.eq_of_compare hk
    rw [← hkey]
    rfl
  · rw [if_neg hk] at h
    exact hm k c' h

theorem Keyed.enter (hm : m.Keyed) (key : BitString) : (m.enter key).Keyed := by
  unfold Memo.enter
  split
  · exact hm
  · exact hm.setCell key .vacant

theorem Keyed.start (hm : m.Keyed) (key : BitString) : (m.start key).Keyed := hm.setCell key .busy

theorem Keyed.settle [Cause ε] [Scalar α] (hm : m.Keyed) (key : BitString)
    (r : Except (Failure ε α) α) : (m.settle key r).Keyed := hm.setCell key _

theorem Keyed.hit (hm : m.Keyed) : m.hit.Keyed := hm

theorem Keyed.miss (hm : m.Keyed) : m.miss.Keyed := hm

/-! ## Counting -/

theorem count_eq_countP (m : Memo α) (test : Except String α → Bool) :
    m.count test = m.cells.toList.countP fun c => c.2.passes test := by
  rw [count]
  apply List.countP_congr
  intro c _
  cases c.2 <;> rfl

/-- A count is the size of the set of the bit strings whose outcomes pass the test. -/
theorem count_eq_card (hm : m.Keyed) {test : Except String α → Bool} {s : Finset BitString}
    (hs : ∀ x, x ∈ s ↔ ∃ o, m.outcome? x = some o ∧ test o = true) : m.count test = s.card := by
  let passing := m.cells.toList.filter fun c => c.2.passes test
  have hmem {k : Key} {c : Cell α} : (k, c) ∈ m.cells.toList ↔ m.cells[k]? = some c :=
    Std.TreeMap.mem_toList_iff_getElem?_eq_some
  -- different cells stand at different keys, so they are those of different bit strings
  have hnodup : (passing.map fun c => c.1.bits).Nodup := by
    rw [List.Nodup, List.pairwise_map]
    have hkeys := (Std.TreeMap.distinct_keys_toList (t := m.cells)).filter
      fun c => c.2.passes test
    refine hkeys.imp_of_mem fun {a b} ha hb hne hbits => hne ?_
    have ha' : a.1 = Key.of a.1.bits := hm a.1 a.2 (hmem.1 (List.mem_filter.1 ha).1)
    have hb' : b.1 = Key.of b.1.bits := hm b.1 b.2 (hmem.1 (List.mem_filter.1 hb).1)
    rw [ha', hb', hbits]
    exact Std.ReflCmp.compare_self
  have hset : (passing.map fun c => c.1.bits).toFinset = s := by
    ext x
    rw [List.mem_toFinset, List.mem_map, hs]
    constructor
    · rintro ⟨⟨k, c⟩, hc, rfl⟩
      obtain ⟨hin, hpasses⟩ := List.mem_filter.1 hc
      have hcell : m.cells[k]? = some c := hmem.1 hin
      cases c with
      | vacant | busy => cases hpasses
      | settled o =>
        refine ⟨o, ?_, hpasses⟩
        rw [outcome?, cell?, ← hm k _ hcell, hcell]
    · rintro ⟨o, ho, htest⟩
      have hcell : m.cells[Key.of x]? = some (.settled o) := by
        rw [outcome?, cell?] at ho
        split at ho
        · rename_i o' hcell
          rw [hcell, Option.some.inj ho]
        · cases ho
      exact ⟨(Key.of x, .settled o), List.mem_filter.2 ⟨hmem.2 hcell, htest⟩, rfl⟩
  rw [count_eq_countP, List.countP_eq_length_filter, ← hset, List.toFinset_card_of_nodup hnodup,
    List.length_map]

/-- Every outcome is a value or a failure. -/
theorem size_add_failures (m : Memo α) : m.size + m.failures = m.count fun _ => true := by
  simp only [size, failures, count_eq_countP]
  induction m.cells.toList with
  | nil => rfl
  | cons c rest ih =>
    simp only [List.countP_cons]
    have hc : (if c.2.passes (fun o => o.toBool) = true then 1 else 0) +
        (if c.2.passes (fun o => !o.toBool) = true then 1 else 0) =
        (if c.2.passes (fun _ => true) = true then 1 else 0) := by
      cases c.2 with
      | vacant | busy => rfl
      | settled o => cases o <;> rfl
    omega

end Memo

end QuboProbe
