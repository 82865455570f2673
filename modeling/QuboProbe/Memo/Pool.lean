/-
  QuboProbe.Memo.Pool

  Workers that share one memo.  Each has a queue of jobs and works on one at a
  time; a `Move` lets one worker take one step, so a list of moves is an
  interleaving.  A worker that finds its key under evaluation waits.  Once a
  job has failed, a worker may drop the jobs that it has not begun.

  `Pool.inTurn` is one interleaving among them: one worker after another.
-/
import QuboProbe.Memo.Script

namespace QuboProbe

/-- Where a worker stands in its computation. -/
inductive Phase (ε α : Type) where
  /-- About to do what the computation asks for. -/
  | running (script : Script ε α)
  /-- The key has a cell, at which the worker is about to look. -/
  | entered (key : BitString) (evaluation : Unit → Script ε α)
      (next : Except (Failure ε α) α → Script ε α)
  /-- No outcome was seen: the worker is about to evaluate, or to wait for who does. -/
  | claiming (key : BitString) (evaluation : Unit → Script ε α)
      (next : Except (Failure ε α) α → Script ε α)
  /-- About to count a hit. -/
  | hitting (answer : Except (Failure ε α) α) (next : Except (Failure ε α) α → Script ε α)
  /-- About to count a miss. -/
  | missing (answer : Except (Failure ε α) α) (next : Except (Failure ε α) α → Script ε α)

/-- An evaluation that a worker is inside of, and what it does afterwards. -/
structure Frame (ε α : Type) where
  key : BitString
  next : Except (Failure ε α) α → Script ε α

/-- A job in progress, with the evaluations that it is inside of, innermost first. -/
structure Job (τ ε α : Type) where
  tag : τ
  phase : Phase ε α
  frames : List (Frame ε α)

structure Worker (τ ε α : Type) where
  job : Option (Job τ ε α)
  queue : List (τ × Script ε α)

structure Pool (τ ε α : Type) where
  memo : Memo α
  workers : List (Worker τ ε α)
  /-- The results of the jobs that are over, newest first. -/
  results : List (τ × Except (Failure ε α) α)

/-- What happens next: a worker takes a step, or drops its queue. -/
inductive Move where
  | step (worker : Nat)
  | quit (worker : Nat)

variable {τ ε α : Type} [Cause ε] [Scalar α]

/-! ## One step of a job -/

/-- A step gives the memo and the job that goes on, or the result of the job. -/
def Job.step (m : Memo α) (job : Job τ ε α) : Memo α × (Job τ ε α ⊕ Except (Failure ε α) α) :=
  match job.phase with
  | .running (.ask key evaluation next) =>
    (m.enter key, .inl { job with phase := .entered key evaluation next })
  | .running (.done r) =>
    match job.frames with
    | [] => (m, .inr r)
    | f :: rest =>
      (m.settle f.key r, .inl { job with phase := .missing r f.next, frames := rest })
  | .entered key evaluation next =>
    match m.outcome? key with
    | some outcome => (m, .inl { job with phase := .hitting (Memo.replay key outcome) next })
    | none => (m, .inl { job with phase := .claiming key evaluation next })
  | .claiming key evaluation next =>
    match m.cell? key with
    | some (.settled outcome) =>
      (m, .inl { job with phase := .hitting (Memo.replay key outcome) next })
    | some .busy => (m, .inl job)
    | some .vacant =>
      (m.start key,
        .inl { job with phase := .running (evaluation ()), frames := ⟨key, next⟩ :: job.frames })
    -- only a key that has a cell can be claimed
    | none => (m, .inl job)
  | .hitting answer next => (m.hit, .inl { job with phase := .running (next answer) })
  | .missing answer next => (m.miss, .inl { job with phase := .running (next answer) })

namespace Pool

/-- Workers with their queues, before the first step. -/
def ofQueues (m : Memo α) (queues : List (List (τ × Script ε α))) : Pool τ ε α :=
  ⟨m, queues.map fun q => ⟨none, q⟩, []⟩

/-- Whether some job has failed. -/
def failed (p : Pool τ ε α) : Bool := p.results.any fun r => !r.2.toBool

/-- A step of a worker: takes the next job, or a step of the one that it has. -/
def stepWorker (p : Pool τ ε α) (i : Nat) (w : Worker τ ε α) : Pool τ ε α :=
  match w.job with
  | none =>
    match w.queue with
    | [] => p
    | (tag, script) :: rest =>
      { p with workers := p.workers.set i ⟨some ⟨tag, .running script, []⟩, rest⟩ }
  | some job =>
    match job.step p.memo with
    | (memo, .inl job) => { p with memo, workers := p.workers.set i { w with job := some job } }
    | (memo, .inr r) =>
      { memo, workers := p.workers.set i { w with job := none },
        results := (job.tag, r) :: p.results }

/-- What a move does.  A worker that the pool does not have does nothing. -/
def move (p : Pool τ ε α) : Move → Pool τ ε α
  | .step i =>
    match p.workers[i]? with
    | none => p
    | some w => p.stepWorker i w
  | .quit i =>
    match p.workers[i]? with
    | none => p
    | some w => if p.failed then { p with workers := p.workers.set i { w with queue := [] } } else p

def run (p : Pool τ ε α) (moves : List Move) : Pool τ ε α := moves.foldl move p

/-- Nobody has anything left to do. -/
def idle (p : Pool τ ε α) : Bool := p.workers.all fun w => w.job.isNone && w.queue.isEmpty

/-- The values of all jobs, or the failure of the job that failed first. -/
def collect (p : Pool τ ε α) : Except (Failure ε α) (List (τ × α)) :=
  p.results.reverse.mapM fun r => r.2.map fun v => (r.1, v)

/-! ## One worker after another -/

/-- The moves in which each worker takes its number of steps before the next one starts. -/
def inTurn (steps : List Nat) : List Move :=
  steps.zipIdx.flatMap fun (k, i) => List.replicate k (.step i)

end Pool

end QuboProbe
