/-
  QuboProbe.Proofs.Memo.Cells

  A key has a cell before a job looks at it, and no cell ever disappears
  (`Job.Turn.cell?_ne_none`).  So in every interleaving of workers the key of a
  job that claims one has a cell (`Pool.exists_cell_of_claiming`), which is
  vacant, busy or settled, and no job is ever lost (`Worker.Housed.not_lost`).
-/
import QuboProbe.Proofs.Memo.Turns

namespace QuboProbe

variable {τ ε α : Type}

theorem Memo.cell?_setCell_ne_none {m : Memo α} {k : BitString} (hk : m.cell? k ≠ none)
    (key : BitString) (c : Cell α) : (m.setCell key c).cell? k ≠ none := by
  rw [cell?_setCell]
  split
  · exact Option.some_ne_none c
  · exact hk

/-- The key that a job has entered, or is about to claim, has a cell. -/
def Job.Housed (m : Memo α) (job : Job τ ε α) : Prop :=
  match job.phase with
  | .entered key _ _ => m.cell? key ≠ none
  | .claiming key _ _ => m.cell? key ≠ none
  | _ => True

def Worker.Housed (m : Memo α) (w : Worker τ ε α) : Prop :=
  ∀ job, w.job = some job → job.Housed m

def Pool.Housed (p : Pool τ ε α) : Prop := ∀ w ∈ p.workers, w.Housed p.memo

theorem Worker.Housed.not_lost {m : Memo α} {w : Worker τ ε α} (hw : w.Housed m) :
    ¬ w.Lost m := by
  rintro ⟨⟨tag, phase, frames⟩, hjob, key, evaluation, next, rfl, hnone⟩
  exact hw _ hjob hnone

/-- A worker that stays as it is stays housed when no cell disappears. -/
theorem Worker.Housed.mono {m m' : Memo α} {w : Worker τ ε α} (hw : w.Housed m)
    (hcells : ∀ k, m.cell? k ≠ none → m'.cell? k ≠ none) : w.Housed m' := by
  intro job hjob
  have hhoused := hw job hjob
  obtain ⟨tag, phase, frames⟩ := job
  cases phase with
  | entered key | claiming key => exact hcells key hhoused
  | running | hitting | missing => trivial

namespace Pool

theorem housed_split {m : Memo α} {before after : List (Worker τ ε α)} {w : Worker τ ε α}
    {results : List (τ × Except (Failure ε α) α)} :
    (⟨m, before ++ w :: after, results⟩ : Pool τ ε α).Housed ↔
      (∀ u ∈ before, u.Housed m) ∧ w.Housed m ∧ ∀ u ∈ after, u.Housed m := by
  rw [Housed, List.forall_mem_append, List.forall_mem_cons]

theorem housed_ofQueues (m : Memo α) (queues : List (List (τ × Script ε α))) :
    (ofQueues m queues : Pool τ ε α).Housed := by
  intro w hw
  obtain ⟨queue, -, rfl⟩ := List.mem_map.1 hw
  exact nofun

end Pool

variable [Cause ε] [Scalar α]

/-! ## One step -/

/-- No cell disappears. -/
theorem Job.Turn.cell?_ne_none {m m' : Memo α} {job job' : Job τ ε α} (h : Job.Turn m job m' job')
    {k : BitString} (hk : m.cell? k ≠ none) : m'.cell? k ≠ none := by
  cases h with
  | ask tag key =>
    unfold Memo.enter
    split
    · exact hk
    · exact Memo.cell?_setCell_ne_none hk key .vacant
  | settle tag r f => exact Memo.cell?_setCell_ne_none hk f.key _
  | begin => exact Memo.cell?_setCell_ne_none hk _ .busy
  | seen | unseen | shared | wait | hit | miss => exact hk

/-- A key is entered before it is looked at. -/
theorem Job.Turn.housed {m m' : Memo α} {job job' : Job τ ε α} (h : Job.Turn m job m' job')
    (hjob : job.Housed m) : job'.Housed m' := by
  cases h with
  | ask tag key =>
    change (m.enter key).cell? key ≠ none
    rw [Memo.cell?_enter]
    by_cases hnone : m.cell? key = none
    · rw [if_pos ⟨rfl, hnone⟩]
      exact Option.some_ne_none _
    · rwa [if_neg (fun h => hnone h.2)]
  | unseen | wait => exact hjob
  | settle | seen | shared | begin | hit | miss => trivial

theorem Worker.Turn.cell?_ne_none {m m' : Memo α} {w w' : Worker τ ε α}
    {new : List (τ × Except (Failure ε α) α)} (h : Worker.Turn m w m' w' new)
    {k : BitString} (hk : m.cell? k ≠ none) : m'.cell? k ≠ none := by
  cases h with
  | advance queue hjob => exact hjob.cell?_ne_none hk
  | take | finish => exact hk

theorem Worker.Turn.housed {m m' : Memo α} {w w' : Worker τ ε α}
    {new : List (τ × Except (Failure ε α) α)} (h : Worker.Turn m w m' w' new)
    (hw : w.Housed m) : w'.Housed m' := by
  cases h with
  | take =>
    rintro job ⟨⟩
    trivial
  | advance queue hjob =>
    rintro job ⟨⟩
    exact hjob.housed (hw _ rfl)
  | finish => exact nofun

/-! ## Every interleaving -/

namespace Pool

theorem Housed.turn (p p' : Pool τ ε α) (h : Turn p p') (hp : p.Housed) : p'.Housed := by
  cases h with
  | step before after results hw =>
    obtain ⟨hbefore, hworker, hafter⟩ := housed_split.1 hp
    exact housed_split.2 ⟨fun u hu => (hbefore u hu).mono fun _ => hw.cell?_ne_none,
      hw.housed hworker, fun u hu => (hafter u hu).mono fun _ => hw.cell?_ne_none⟩
  | quit =>
    rw [housed_split] at hp ⊢
    exact hp

theorem Housed.run {p : Pool τ ε α} (hp : p.Housed) (moves : List Move) : (p.run moves).Housed :=
  run_induction Housed.turn hp moves

/-- In every interleaving, the key that a job claims has a cell. -/
theorem exists_cell_of_claiming (m : Memo α) (queues : List (List (τ × Script ε α)))
    (moves : List Move) {w : Worker τ ε α} (hw : w ∈ ((ofQueues m queues).run moves).workers)
    {job : Job τ ε α} (hjob : w.job = some job) {key : BitString}
    {evaluation : Unit → Script ε α} {next : Except (Failure ε α) α → Script ε α}
    (hphase : job.phase = .claiming key evaluation next) :
    ∃ c, ((ofQueues m queues).run moves).memo.cell? key = some c := by
  have hhoused := (housed_ofQueues m queues).run moves w hw job hjob
  rw [Job.Housed, hphase] at hhoused
  exact Option.ne_none_iff_exists'.1 hhoused

/-- So a worker with something to do takes a turn when it moves. -/
theorem Housed.move_step {m : Memo α} {before after : List (Worker τ ε α)} {w : Worker τ ε α}
    {results : List (τ × Except (Failure ε α) α)}
    (hp : (⟨m, before ++ w :: after, results⟩ : Pool τ ε α).Housed)
    (hw : w.job ≠ none ∨ w.queue ≠ []) :
    ∃ m' w' new, Worker.Turn m w m' w' new ∧
      (⟨m, before ++ w :: after, results⟩ : Pool τ ε α).move (.step before.length) =
        ⟨m', before ++ w' :: after, new ++ results⟩ := by
  rcases Pool.move_step m before after w results hw with hturn | ⟨hlost, -⟩
  · exact hturn
  · exact absurd hlost (housed_split.1 hp).2.1.not_lost

end Pool

end QuboProbe
