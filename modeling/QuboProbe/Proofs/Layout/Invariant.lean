/-
  QuboProbe.Proofs.Layout.Invariant

  What is true of every layout that was built by adding variables: no name is
  taken twice, and the fields follow one another without gaps from the first
  bit to the last (`Layout.Built.wellFormed`).  Each variable has the width that
  its encoding took when it was added (`Layout.Built.of_mem`).
-/
import QuboProbe.Layout.Basic
import Mathlib.Data.List.Nodup

namespace QuboProbe

/-! ## Layouts that are built -/

/-- The fields of variables follow one another, from where the first starts to where the last
ends. -/
inductive Variable.Contiguous : Nat → List Variable → Nat → Prop where
  | nil (n : Nat) : Contiguous n [] n
  | cons (v : Variable) {vars : List Variable} {stop : Nat} (h : Contiguous v.stop vars stop) :
      Contiguous v.offset (v :: vars) stop

namespace Layout

/-- Layouts made by adding variables one after another, each with an encoding and a width of which
something is known. -/
inductive Built (P : Encoding → Nat → Prop) : Layout → Prop where
  | empty : Built P empty
  | add {l l' : Layout} {name : String} {e : Encoding} {width : Nat} (hl : Built P l)
      (hP : P e width) (h : l.add name e width = .ok l') : Built P l'

/-- No name is taken twice, and the fields make up the bits. -/
structure WellFormed (l : Layout) : Prop where
  nodup : (l.vars.map Variable.name).Nodup
  contiguous : Variable.Contiguous 0 l.vars l.size

end Layout

namespace Variable.Contiguous

variable {start mid stop : Nat} {vars more : List Variable}

theorem append (h : Contiguous start vars mid) (h' : Contiguous mid more stop) :
    Contiguous start (vars ++ more) stop := by
  induction h with
  | nil => exact h'
  | cons v _ ih => exact .cons v (ih h')

theorem le (h : Contiguous start vars stop) : start ≤ stop := by
  induction h with
  | nil => exact Nat.le_refl _
  | cons v _ ih => exact Nat.le_trans (Nat.le_add_right _ _) ih

/-- Each field lies between the start and the stop. -/
theorem bounds (h : Contiguous start vars stop) {v : Variable} (hv : v ∈ vars) :
    start ≤ v.offset ∧ v.stop ≤ stop := by
  induction h with
  | nil => exact absurd hv List.not_mem_nil
  | cons u hrest ih =>
    rcases List.mem_cons.1 hv with rfl | hv
    · exact ⟨Nat.le_refl _, hrest.le⟩
    · obtain ⟨hstart, hstop⟩ := ih hv
      exact ⟨Nat.le_trans (Nat.le_add_right _ _) hstart, hstop⟩

end Variable.Contiguous

namespace Layout

variable {l l' : Layout} {name : String} {e : Encoding} {width : Nat}

theorem find?_eq_none : l.find? name = none ↔ name ∉ l.vars.map Variable.name := by
  simp [find?]

theorem find?_isSome : (l.find? name).isSome ↔ name ∈ l.vars.map Variable.name := by
  rw [Option.isSome_iff_ne_none, ne_eq, find?_eq_none, not_not]

/-- What a successful addition needs, and what it gives. -/
theorem add_eq_ok :
    l.add name e width = .ok l' ↔
      name ∉ l.vars.map Variable.name ∧ e.checkWidth width = .ok () ∧
        l' = ⟨l.vars ++ [⟨name, e, width, l.size⟩], l.size + width⟩ := by
  unfold add
  by_cases htaken : (l.find? name).isSome
  · rw [if_pos htaken]
    simp [find?_isSome.1 htaken]
  · rw [if_neg htaken]
    have hfree : name ∉ l.vars.map Variable.name := fun h => htaken (find?_isSome.2 h)
    cases e.checkWidth width with
    | error fault => simp
    | ok u => simp only [hfree, not_false_iff, true_and, Except.ok.injEq, eq_comm]

theorem WellFormed.add (hl : l.WellFormed) (h : l.add name e width = .ok l') : l'.WellFormed := by
  obtain ⟨hfree, -, rfl⟩ := add_eq_ok.1 h
  constructor
  · rw [List.map_append]
    refine hl.nodup.append (List.nodup_singleton _) fun n hn hn' => hfree ?_
    obtain rfl : n = name := List.mem_singleton.1 hn'
    exact hn
  · exact hl.contiguous.append (.cons ⟨name, e, width, l.size⟩ (.nil _))

theorem Built.wellFormed {P : Encoding → Nat → Prop} (h : l.Built P) : l.WellFormed := by
  induction h with
  | empty => exact ⟨List.nodup_nil, .nil 0⟩
  | add _ _ h ih => exact ih.add h

theorem Built.of_mem {P : Encoding → Nat → Prop} (h : l.Built P) {v : Variable}
    (hv : v ∈ l.vars) : P v.encoding v.width ∧ v.encoding.checkWidth v.width = .ok () := by
  induction h with
  | empty => exact absurd hv List.not_mem_nil
  | add _ hP h ih =>
    obtain ⟨-, hwidth, rfl⟩ := add_eq_ok.1 h
    rcases List.mem_append.1 hv with hv | hv
    · exact ih hv
    · rw [List.mem_singleton.1 hv]
      exact ⟨hP, hwidth⟩

end Layout

end QuboProbe
