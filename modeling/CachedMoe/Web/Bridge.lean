import CachedMoe.Framework.System
import Mathlib.Logic.Function.Basic

/-! # The turn queue and its cancels

    `Bridge` of `tools/web/server.py` over the inbox of `cli/serve.cpp`. Handler threads submit
    jobs and cancel them, one worker runs the queue's first job, and the engine's stdin thread
    numbers the generate requests it reads; a cancel line names no turn and is kept as the number
    of generates read before it, `cancel_upto`.

    `Bridge.cancel` decides under `jobs_lock` which job runs and writes its line after it has
    released the lock; `cancel_job` writes while it holds the lock; `_run` writes one when it finds
    its job cancelled after the generate request. -/

namespace CachedMoe.Web

open LTS

/-! ### State -/

structure Job where
  session : String
  cancelled : Bool := false
  started : Bool := false
  deriving Repr, DecidableEq

/-- Where `_worker` is. -/
inductive Turn where
  | waiting
  /-- In `_run`, before the generate request. -/
  | started (job : Nat)
  /-- The request is written; `job.cancelled` is read next. -/
  | sent (job : Nat)
  /-- In the loop over the turn's events. -/
  | reading (job : Nat)
  /-- Out of `_run`; the job is taken off next. -/
  | returned (job : Nat)
  deriving Repr, DecidableEq

def Turn.job : Turn → Option Nat
  | waiting => none
  | started j => some j
  | sent j => some j
  | reading j => some j
  | returned j => some j

/-- A handler thread inside `Bridge.cancel`, or before it. -/
inductive Handler where
  /-- The client of the job is gone and the job is marked; `cancel` is called next. -/
  | left (job : Nat)
  /-- `cancel` found the job running and released the lock; `serve.cancel()` is next. -/
  | found (job : Nat)
  deriving Repr, DecidableEq

/-- What a turn ends with: `finish` of its done event, or an error event. -/
inductive Finish where
  | stop
  | length
  | context
  | cancel
  | error
  deriving Repr, DecidableEq

/-- A line to the engine. The text of a cancel is the same whatever it is for: its job, and the
    number of generates written before it, are marks for the statements. -/
inductive Line where
  | generate (job : Nat)
  | cancel (job before : Nat)
  deriving Repr, DecidableEq

def Line.generate? : Line → Option Nat
  | generate j => some j
  | cancel _ _ => none

structure Bridge where
  /-- The jobs by number, in the order they were submitted. -/
  job : Nat → Job := fun _ => { session := "" }
  submitted : Nat := 0
  jobs : List Nat := []
  /-- A `cancel_job` that holds `jobs_lock` and writes its line next. -/
  lock : Option Nat := none
  worker : Turn := .waiting
  handlers : List Handler := []
  stdin : List Line := []
  generates_read : Nat := 0
  cancel_upto : Nat := 0
  /-- The engine's queue: the job of a generate request and its `seq`. -/
  inbox : List (Nat × Nat) := []
  running : Option (Nat × Nat) := none
  ended : List (Nat × Finish) := []
  /-- Jobs that got `done` with `queued_drop`. -/
  dropped : List Nat := []
  /-- The cancel events: the job a cancel was for and the `upto` it set. -/
  acks : List (Nat × Nat) := []
  /-- The started jobs that a `cancel` or `cancel_job` found. -/
  found : List Nat := []

/-! ### Steps -/

inductive BridgeAct where
  | submit (session : String)
  | cancel (session : String)
  /-- The client of a job goes: `job.cancelled = True`, without the lock. -/
  | leave (job : Nat)
  /-- The `Bridge.cancel` after that. -/
  | cancel_left (job : Nat)
  /-- `serve.cancel()` of a `Bridge.cancel`. -/
  | send_cancel (job : Nat)
  | cancel_job (job : Nat)
  /-- `serve.cancel()` of a `cancel_job`. -/
  | send_locked
  | start
  /-- `_run` returns before its request is written. -/
  | refuse
  | send_generate
  | check_cancelled
  /-- `_run` takes the last event of its turn. -/
  | finish
  /-- `_run` takes an error that is not its turn's. -/
  | stray
  | pop_job
  /-- The engine's inbox reads a line. -/
  | read
  /-- The main loop takes a generate request, which it may refuse. -/
  | serve (refused : Bool)
  /-- The generation ends by itself. -/
  | complete (f : Finish)
  /-- It polls `req.cancel` and is cancelled. -/
  | poll
  deriving Repr, DecidableEq

namespace Bridge

/-- The generate requests that were read and have not ended. -/
def items (s : Bridge) : List (Nat × Nat) := s.running.toList ++ s.inbox

/-- The generate requests written, in order. -/
def generates (s : Bridge) : List Nat :=
  s.ended.map Prod.fst ++ (s.items.map Prod.fst ++ s.stdin.filterMap Line.generate?)

/-- `serve.cancel()` for a job. -/
def write_cancel (s : Bridge) (j : Nat) : Bridge :=
  { s with stdin := s.stdin ++ [.cancel j s.generates.length] }

def mark (s : Bridge) (j : Nat) : Bridge :=
  { s with job := Function.update s.job j { s.job j with cancelled := true } }

/-- A job that has not started leaves the queue. -/
def drop (s : Bridge) (j : Nat) : Bridge :=
  { s with jobs := s.jobs.erase j, dropped := s.dropped ++ [j] }

/-- The body of the loop of `cancel`, for one job. -/
def cancel_one (session : String) (s : Bridge) (j : Nat) : Bridge :=
  if (s.job j).session ≠ session then s
  else if (s.job j).started then s.mark j
  else (s.mark j).drop j

/-- `self.jobs[0]` if it is started. -/
def running_job (s : Bridge) : Option Nat :=
  s.jobs.head?.filter fun j => (s.job j).started

/-- What `cancel` does last under the lock: is the running job one of the session? -/
def find_running (session : String) (s : Bridge) : Bridge :=
  match s.running_job with
  | some r =>
    if (s.job r).session = session then
      { s with handlers := s.handlers ++ [.found r], found := s.found ++ [r] }
    else s
  | none => s

/-- `cancel` up to the release of the lock. -/
def cancel (s : Bridge) (session : String) : Bridge :=
  find_running session (s.jobs.foldl (cancel_one session) s)

/-- `cancel_job` up to its `serve.cancel()`. -/
def cancel_job (s : Bridge) (j : Nat) : Bridge :=
  if j ∉ s.jobs then s
  else if (s.job j).started then { s.mark j with lock := some j, found := s.found ++ [j] }
  else (s.mark j).drop j

def submit (s : Bridge) (session : String) : Bridge :=
  { s with
    job := Function.update s.job s.submitted { session }
    submitted := s.submitted + 1
    jobs := s.jobs ++ [s.submitted] }

/-- `Inbox::run` on a line. -/
def read (s : Bridge) : Line → Bridge
  | .generate j =>
    { s with
      generates_read := s.generates_read + 1
      inbox := s.inbox ++ [(j, s.generates_read + 1)] }
  | .cancel j _ =>
    { s with
      cancel_upto := s.generates_read
      acks := s.acks ++ [(j, s.generates_read)] }

def end_turn (s : Bridge) (j : Nat) (f : Finish) : Bridge :=
  { s with running := none, ended := s.ended ++ [(j, f)] }

def next (s : Bridge) : BridgeAct → Option Bridge
  | .submit session => if s.lock = none then some (s.submit session) else none
  | .cancel session => if s.lock = none then some (s.cancel session) else none
  | .leave j =>
    if j < s.submitted then some { s.mark j with handlers := s.handlers ++ [.left j] } else none
  | .cancel_left j =>
    if s.lock = none ∧ .left j ∈ s.handlers then
      some ({ s with handlers := s.handlers.erase (.left j) }.cancel (s.job j).session)
    else none
  | .send_cancel j =>
    if .found j ∈ s.handlers then
      some ({ s with handlers := s.handlers.erase (.found j) }.write_cancel j)
    else none
  | .cancel_job j => if s.lock = none ∧ j < s.submitted then some (s.cancel_job j) else none
  | .send_locked => s.lock.map fun j => { s with lock := none }.write_cancel j
  | .start =>
    match s.worker, s.lock, s.jobs with
    | .waiting, none, j :: _ =>
      some { s with
        job := Function.update s.job j { s.job j with started := true }
        worker := .started j }
    | _, _, _ => none
  | .refuse =>
    match s.worker with
    | .started j => some { s with worker := .returned j }
    | _ => none
  | .send_generate =>
    match s.worker with
    | .started j => some { s with stdin := s.stdin ++ [.generate j], worker := .sent j }
    | _ => none
  | .check_cancelled =>
    match s.worker with
    | .sent j =>
      some { (if (s.job j).cancelled then s.write_cancel j else s) with worker := .reading j }
    | _ => none
  | .finish =>
    match s.worker with
    | .reading j =>
      if j ∈ s.ended.map Prod.fst then some { s with worker := .returned j } else none
    | _ => none
  | .stray =>
    match s.worker with
    | .reading j => some { s with worker := .returned j }
    | _ => none
  | .pop_job =>
    match s.worker, s.lock with
    | .returned j, none =>
      some { s with
        jobs := if s.jobs.head? = some j then s.jobs.tail else s.jobs
        worker := .waiting }
    | _, _ => none
  | .read =>
    match s.stdin with
    | line :: rest => some ({ s with stdin := rest }.read line)
    | [] => none
  | .serve refused =>
    match s.running, s.inbox with
    | none, (j, seq) :: rest =>
      let s := { s with inbox := rest }
      some (if refused then s.end_turn j .error
        else if s.cancel_upto ≥ seq then s.end_turn j .cancel
        else { s with running := some (j, seq) })
    | _, _ => none
  | .complete f =>
    match s.running with
    | some (j, _) => if f = .cancel then none else some (s.end_turn j f)
    | none => none
  | .poll =>
    match s.running with
    | some (j, seq) => if s.cancel_upto ≥ seq then some (s.end_turn j .cancel) else none
    | none => none

end Bridge

def bridge_system : System Bridge BridgeAct := .ofNext (fun s => s = {}) Bridge.next

end CachedMoe.Web
