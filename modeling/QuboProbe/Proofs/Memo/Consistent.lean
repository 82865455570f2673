/-
  QuboProbe.Proofs.Memo.Consistent

  What holds of a pool at every moment of every interleaving, whatever its
  computations are: the evaluations under way are those of the busy cells, no
  key is evaluated twice, and every evaluation that has begun is counted as a
  miss or still to be counted (`Pool.Consistent`, `Pool.Consistent.run`).

  `Memo.Matches` is the same for a memo alone, with the keys under evaluation
  and the number of uncounted outcomes; it has one lemma for each step on a memo.
-/
import QuboProbe.Proofs.Memo.Turns
import Mathlib

namespace QuboProbe

variable {τ ε α : Type}

/-! ## A memo and the evaluations under way -/

/-- The memo fits workers that are evaluating `openKeys` and have yet to count `owed` outcomes. -/
structure Memo.Matches (m : Memo α) (openKeys : List BitString) (owed : Nat) : Prop where
  started_nodup : m.started.Nodup
  mem_started : ∀ k, k ∈ m.started ↔ m.Begun k
  open_nodup : openKeys.Nodup
  mem_open : ∀ k, k ∈ openKeys ↔ m.cell? k = some .busy
  misses : m.tally.misses + openKeys.length + owed = m.started.length

namespace Memo.Matches

variable {m : Memo α} {key : BitString} {ks : List BitString} {owed : Nat}

theorem empty : (Memo.empty : Memo α).Matches [] 0 where
  started_nodup := List.nodup_nil
  mem_started k := by simp [Memo.empty, Begun, cell?]
  open_nodup := List.nodup_nil
  mem_open k := by simp [Memo.empty, cell?]
  misses := rfl

theorem perm {ks' : List BitString} (h : m.Matches ks owed) (hp : ks.Perm ks') :
    m.Matches ks' owed where
  started_nodup := h.started_nodup
  mem_started := h.mem_started
  open_nodup := hp.nodup_iff.1 h.open_nodup
  mem_open k := hp.mem_iff.symm.trans (h.mem_open k)
  misses := by
    rw [← hp.length_eq]
    exact h.misses

theorem enter (h : m.Matches ks owed) (key : BitString) : (m.enter key).Matches ks owed where
  started_nodup := by
    rw [started_enter]
    exact h.started_nodup
  mem_started k := by
    rw [started_enter, h.mem_started]
    simp only [Begun, cell?_enter]
    by_cases hk : k = key ∧ m.cell? key = none
    · simp [hk.1, hk.2]
    · rw [if_neg hk]
  open_nodup := h.open_nodup
  mem_open k := by
    rw [h.mem_open, cell?_enter]
    by_cases hk : k = key ∧ m.cell? key = none
    · simp [hk.1, hk.2]
    · rw [if_neg hk]
  misses := by
    rw [started_enter, tally_enter]
    exact h.misses

theorem start (h : m.Matches ks owed) (hfree : ¬ m.Begun key) :
    (m.start key).Matches (key :: ks) owed where
  started_nodup := List.nodup_cons.2 ⟨fun hin => hfree ((h.mem_started key).1 hin), h.started_nodup⟩
  mem_started k := by
    change k ∈ key :: m.started ↔ _
    rw [List.mem_cons, h.mem_started]
    simp only [Begun, cell?_start]
    by_cases hk : k = key <;> simp [hk]
  open_nodup := by
    refine List.nodup_cons.2 ⟨fun hin => hfree ⟨.busy, (h.mem_open key).1 hin, ?_⟩, h.open_nodup⟩
    simp
  mem_open k := by
    rw [List.mem_cons, h.mem_open, cell?_start]
    by_cases hk : k = key <;> simp [hk]
  misses := by
    have := h.misses
    simp only [Memo.start, setCell, List.length_cons]
    omega

theorem settle [Cause ε] [Scalar α] (h : m.Matches (key :: ks) owed)
    (r : Except (Failure ε α) α) : (m.settle key r).Matches ks (owed + 1) where
  started_nodup := h.started_nodup
  mem_started k := by
    change k ∈ m.started ↔ _
    have hbusy : m.cell? key = some .busy := (h.mem_open key).1 List.mem_cons_self
    rw [h.mem_started]
    simp only [Begun, cell?_settle]
    by_cases hk : k = key <;> simp [hk, hbusy]
  open_nodup := (List.nodup_cons.1 h.open_nodup).2
  mem_open k := by
    rw [cell?_settle]
    by_cases hk : k = key
    · rw [if_pos hk, hk]
      exact iff_of_false (List.nodup_cons.1 h.open_nodup).1 (by simp)
    · rw [if_neg hk, ← h.mem_open, List.mem_cons]
      simp [hk]
  misses := by
    have := h.misses
    simp only [Memo.settle, setCell, List.length_cons] at this ⊢
    omega

theorem hit (h : m.Matches ks owed) : m.hit.Matches ks owed :=
  ⟨h.started_nodup, h.mem_started, h.open_nodup, h.mem_open, h.misses⟩

theorem miss (h : m.Matches ks (owed + 1)) : m.miss.Matches ks owed where
  started_nodup := h.started_nodup
  mem_started := h.mem_started
  open_nodup := h.open_nodup
  mem_open := h.mem_open
  misses := by
    have := h.misses
    simp only [Memo.miss]
    omega

end Memo.Matches

/-! ## Jobs and workers -/

/-- The keys that a job is evaluating, innermost first. -/
def Job.openKeys (job : Job τ ε α) : List BitString := job.frames.map Frame.key

/-- Whether a job has evaluated a key and not yet counted it. -/
def Job.owed (job : Job τ ε α) : Nat :=
  match job.phase with
  | .missing _ _ => 1
  | _ => 0

def Worker.openKeys (w : Worker τ ε α) : List BitString := (w.job.map Job.openKeys).getD []

def Worker.owed (w : Worker τ ε α) : Nat := (w.job.map Job.owed).getD 0

/-- A turn of one job keeps the memo in step with that job and all others. -/
theorem Job.Turn.matches [Cause ε] [Scalar α] {m m' : Memo α} {job job' : Job τ ε α}
    {ks : List BitString} {owed : Nat} (h : Job.Turn m job m' job')
    (hm : m.Matches (job.openKeys ++ ks) (owed + job.owed)) :
    m'.Matches (job'.openKeys ++ ks) (owed + job'.owed) := by
  cases h with
  | ask => exact hm.enter _
  | settle tag r f frames => exact Memo.Matches.settle hm r
  | seen | unseen | shared | wait => exact hm
  | begin _ _ _ _ hvacant => exact hm.start (Memo.not_begun_of_vacant hvacant)
  | hit => exact hm.hit
  | miss => exact hm.miss

theorem Worker.Turn.matches [Cause ε] [Scalar α] {m m' : Memo α} {w w' : Worker τ ε α}
    {new : List (τ × Except (Failure ε α) α)} {ks : List BitString} {owed : Nat}
    (h : Worker.Turn m w m' w' new) (hm : m.Matches (w.openKeys ++ ks) (owed + w.owed)) :
    m'.Matches (w'.openKeys ++ ks) (owed + w'.owed) := by
  cases h with
  | advance queue hjob => exact hjob.matches hm
  | take | finish => exact hm

/-! ## Pools -/

namespace Pool

/-- The keys under evaluation. -/
def openKeys (p : Pool τ ε α) : List BitString := p.workers.flatMap Worker.openKeys

/-- How many outcomes are still to be counted. -/
def owed (p : Pool τ ε α) : Nat := (p.workers.map Worker.owed).sum

def Consistent (p : Pool τ ε α) : Prop := p.memo.Matches p.openKeys p.owed

/-- What one worker contributes to a list over all workers, set apart from what the others do. -/
theorem flatMap_split {σ : Type} (f : Worker τ ε α → List σ) (before after : List (Worker τ ε α))
    (w : Worker τ ε α) :
    ((before ++ w :: after).flatMap f).Perm (f w ++ (before ++ after).flatMap f) := by
  simp only [List.flatMap_append, List.flatMap_cons]
  exact List.perm_append_comm_assoc _ _ _

theorem sum_split (f : Worker τ ε α → Nat) (before after : List (Worker τ ε α))
    (w : Worker τ ε α) :
    ((before ++ w :: after).map f).sum = ((before ++ after).map f).sum + f w := by
  simp only [List.map_append, List.map_cons, List.sum_append, List.sum_cons]
  omega

theorem sum_eq_zero {f : Worker τ ε α → Nat} {workers : List (Worker τ ε α)}
    (h : ∀ w ∈ workers, f w = 0) : (workers.map f).sum = 0 := by
  apply List.sum_eq_zero
  intro x hx
  obtain ⟨w, hw, rfl⟩ := List.mem_map.1 hx
  exact h w hw

/-- Workers without jobs have nothing under evaluation. -/
theorem nothing_open {p : Pool τ ε α} (h : ∀ w ∈ p.workers, w.job = none) :
    p.openKeys = [] ∧ p.owed = 0 := by
  refine ⟨List.flatMap_eq_nil_iff.2 fun w hw => ?_, sum_eq_zero fun w hw => ?_⟩
  · rw [Worker.openKeys, h w hw]
    rfl
  · rw [Worker.owed, h w hw]
    rfl

theorem consistent_split {m : Memo α} {before after : List (Worker τ ε α)} {w : Worker τ ε α}
    {results : List (τ × Except (Failure ε α) α)} :
    (⟨m, before ++ w :: after, results⟩ : Pool τ ε α).Consistent ↔
      m.Matches (w.openKeys ++ (before ++ after).flatMap Worker.openKeys)
        (((before ++ after).map Worker.owed).sum + w.owed) := by
  have hkeys := flatMap_split Worker.openKeys before after w
  simp only [Consistent, openKeys, owed, sum_split Worker.owed before after w]
  exact ⟨fun h => h.perm hkeys, fun h => h.perm hkeys.symm⟩

variable [Cause ε] [Scalar α]

theorem Consistent.turn (p p' : Pool τ ε α) (h : Turn p p') (hp : p.Consistent) :
    p'.Consistent := by
  cases h with
  | step before after results hw =>
    rw [consistent_split] at hp ⊢
    exact hw.matches hp
  | quit =>
    rw [consistent_split] at hp ⊢
    exact hp

/-- A pool stays consistent in every interleaving. -/
theorem Consistent.run {p : Pool τ ε α} (hp : p.Consistent) (moves : List Move) :
    (p.run moves).Consistent := run_induction Consistent.turn hp moves

end Pool

end QuboProbe
