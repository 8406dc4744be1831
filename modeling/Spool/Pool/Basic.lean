import Spool.HostError

/-!
# The background pool

Workers that run jobs of a type `J`. A job is queued at the least loaded worker, or at a new one while the
load is high; an idle worker takes the first job of its own queue, or steals the last job of another. Each
definition below is one step that no other step can interrupt; a step that does not apply changes nothing.
-/

namespace Spool

/-!
## Settings

When another worker is started, when a worker retires, and how many there may be.
-/

structure PoolSettings where
  /-- A worker is started once the average load per worker reaches this. -/
  backlog : Nat := 1
  /-- Milliseconds after which an idle worker retires. -/
  retireAfter : Nat := 2000
  maxWorkers : Nat := 8
  deriving DecidableEq, Repr, Inhabited

structure PoolRequest where
  backlog : Option Nat := none
  retireAfter : Option Nat := none
  maxWorkers : Option Nat := none
  deriving DecidableEq, Repr, Inhabited

namespace PoolRequest

def settings (r : PoolRequest) : Except HostError PoolSettings :=
  let base : PoolSettings := {}
  let chosen : PoolSettings :=
    { backlog := r.backlog.getD base.backlog
      retireAfter := r.retireAfter.getD base.retireAfter
      maxWorkers := r.maxWorkers.getD base.maxWorkers }
  if chosen.maxWorkers = 0 then .error (.settings .noWorkers) else .ok chosen

end PoolRequest

/-! ## Workers -/

structure WorkerId where
  number : Nat
  deriving DecidableEq, Repr, Inhabited

/-- What a worker is doing. -/
inductive Activity (J : Type) where
  | idle
  /-- Looks for a job to steal from the workers that were in the pool a moment ago. -/
  | searching (others : List WorkerId)
  /-- Has taken a job from a queue. -/
  | holding (job : J)
  | running (job : J)
  | gone
  deriving Repr, Inhabited

structure Worker (J : Type) where
  /-- Jobs to do, the next one first. -/
  queue : List J := []
  activity : Activity J := .idle
  /-- Has been told to stop. -/
  stopping : Bool := false
  deriving Repr, Inhabited

structure Pool (J : Type) where
  settings : PoolSettings := {}
  /-- Every worker there has been, by number. -/
  workers : Array (Worker J) := #[]
  /-- The workers that take part. -/
  members : List WorkerId := []
  /-- Jobs that have been started and have not ended. -/
  running : Nat := 0
  /-- Jobs that have ended. -/
  done : List J := []
  deriving Repr, Inhabited

namespace Worker

variable {J : Type}

def isBusy (w : Worker J) : Bool :=
  match w.activity with
  | .running _ => true
  | _ => false

/-- The queued jobs and the one that runs. -/
def load (w : Worker J) : Nat := w.queue.length + if w.isBusy then 1 else 0

end Worker

namespace Pool

variable {J : Type}

def workerAt (p : Pool J) (w : WorkerId) : Worker J := p.workers.getD w.number {}

def modifyWorker (p : Pool J) (w : WorkerId) (f : Worker J → Worker J) : Pool J :=
  { p with workers := p.workers.modify w.number f }

def load (p : Pool J) (w : WorkerId) : Nat := (p.workerAt w).load

/-! ## Submitting -/

def hire (p : Pool J) : WorkerId × Pool J :=
  let w : WorkerId := ⟨p.workers.size⟩
  (w, { p with workers := p.workers.push {}, members := p.members ++ [w] })

/-- Of the workers with the least load, the first. -/
def leastLoaded (p : Pool J) (first : WorkerId) (rest : List WorkerId) : WorkerId :=
  rest.foldl (fun best w => if p.load w < p.load best then w else best) first

def totalLoad (p : Pool J) : Nat := p.members.foldr (fun w n => p.load w + n) 0

/-- The average load has reached the mark and there may be more workers. -/
def wantsWorker (p : Pool J) : Bool :=
  p.totalLoad / p.members.length ≥ p.settings.backlog
    && p.members.length < p.settings.maxWorkers

def choose (p : Pool J) : WorkerId × Pool J :=
  match p.members with
  | [] => p.hire
  | first :: rest => if p.wantsWorker then p.hire else (p.leastLoaded first rest, p)

def submit (p : Pool J) (job : J) : Pool J :=
  let (w, p) := p.choose
  p.modifyWorker w fun worker => { worker with queue := worker.queue ++ [job] }

/-! ## What a worker does -/

/-- Takes the first job of the worker's own queue. -/
def take (p : Pool J) (w : WorkerId) : Pool J :=
  let worker := p.workerAt w
  match worker.activity, worker.queue with
  | .idle, job :: queue => p.modifyWorker w fun worker => { worker with queue, activity := .holding job }
  | _, _ => p

/-- Notes who else is in the pool. A job may have been queued at the worker since it has found its own queue
empty. -/
def search (p : Pool J) (w : WorkerId) : Pool J :=
  match (p.workerAt w).activity with
  | .idle =>
    let others := p.members.filter (· ≠ w)
    p.modifyWorker w fun worker => { worker with activity := .searching others }
  | _ => p

/-- Takes the last job of the first of the noted workers; one without jobs is passed over. -/
def steal (p : Pool J) (w : WorkerId) : Pool J :=
  match (p.workerAt w).activity with
  | .searching [] => p.modifyWorker w fun worker => { worker with activity := .idle }
  | .searching (victim :: others) =>
    match (p.workerAt victim).queue.reverse with
    | [] => p.modifyWorker w fun worker => { worker with activity := .searching others }
    | job :: queue =>
      let p := p.modifyWorker victim fun worker => { worker with queue := queue.reverse }
      p.modifyWorker w fun worker => { worker with activity := .holding job }
  | _ => p

def start (p : Pool J) (w : WorkerId) : Pool J :=
  match (p.workerAt w).activity with
  | .holding job =>
    let p := p.modifyWorker w fun worker => { worker with activity := .running job }
    { p with running := p.running + 1 }
  | _ => p

/-- Ends a job, whether it has returned or broken down. -/
def finish (p : Pool J) (w : WorkerId) : Pool J :=
  match (p.workerAt w).activity with
  | .running job =>
    let p := p.modifyWorker w fun worker => { worker with activity := .idle }
    { p with running := p.running - 1, done := p.done ++ [job] }
  | _ => p

/-- Takes a worker out if it takes part; the last one moves to its place. -/
def removeMember (members : List WorkerId) (w : WorkerId) : List WorkerId :=
  match members.reverse with
  | [] => []
  | last :: others =>
    if last = w then others.reverse
    else if w ∈ others then others.reverse.map fun m => if m = w then last else m
    else members

/-- A worker that has been idle for long leaves, unless a job has been queued at it meanwhile. -/
def retire (p : Pool J) (w : WorkerId) : Pool J :=
  let worker := p.workerAt w
  match worker.activity, worker.queue with
  | .idle, [] =>
    let p := p.modifyWorker w fun worker => { worker with activity := .gone }
    { p with members := removeMember p.members w }
  | _, _ => p

/-! ## Shutting down -/

/-- Tells all workers to stop. A worker that has not heard of it yet may still take a job. -/
def shutdown (p : Pool J) : Pool J :=
  let p := p.members.foldl (fun p w => p.modifyWorker w fun worker => { worker with stopping := true }) p
  { p with members := [] }

/-- An idle worker that has been told to stop leaves. -/
def leave (p : Pool J) (w : WorkerId) : Pool J :=
  let worker := p.workerAt w
  match worker.activity with
  | .idle => if worker.stopping then p.modifyWorker w fun worker => { worker with activity := .gone } else p
  | _ => p

/-! ## Draining: a fixed order of the steps under which all queued jobs are run -/

/-- What a worker does to get a job: first its own queue, then those of the others. -/
def engage (p : Pool J) (w : WorkerId) : Pool J :=
  let p := (p.take w).search w
  let p := p.members.foldl (fun p _ => p.steal w) p
  p.start w

/-- Every worker runs one job if it can get one. -/
def workRound (p : Pool J) : Pool J := p.members.foldl (fun p w => (p.engage w).finish w) p

def queued (p : Pool J) : Nat :=
  p.members.foldr (fun w n => (p.workerAt w).queue.length + n) 0

/-- Rounds of work, as many as there are jobs, each of which runs at least one. -/
def drain (p : Pool J) : Pool J := p.queued.repeat workRound p

/-- All idle workers retire. -/
def retireAll (p : Pool J) : Pool J := p.members.foldl retire p

end Pool

end Spool
