import CachedMoe.Framework.System
import Mathlib.Logic.Function.Basic

/-! # The engine behind the web server

    `Serve` of `tools/web/server.py`: one process of `cachedmoe serve`, written to and read from
    by several threads.

    * any thread may make an `rpc`: one at a time, a request and the next event of `rpc_q`;
    * the worker of the turn queue runs the turns: `begin_turn`, the generate request, the events
      of the turn's own queue up to `done` or `error`, `detokenize`, `end_turn`;
    * `_reader` takes the engine's lines one by one and gives each to the queue of the turn in
      flight or to `rpc_q`, by its kind and by whether a turn is open;
    * the main loop of `cli/serve.cpp` serves the requests in order; its inbox acknowledges a
      cancel as soon as it reads it.

    A line of the engine says its kind, not the request it answers. -/

namespace CachedMoe.Web

open LTS

/-! ### Events -/

/-- `ev["event"]`; the answers of the ops are one kind, `reply`. -/
inductive Kind where
  | token
  | prefill
  | done
  | session
  | cancel
  | error
  | reply
  deriving Repr, DecidableEq

/-- An event with the request it belongs to, which only the statements below look at. -/
inductive Event where
  | token (turn : Nat)
  | prefill (turn : Nat)
  | done (turn : Nat)
  | turn_error (turn : Nat)
  | session
  | cancel
  | reply (rpc : Nat)
  | rpc_error (rpc : Nat)
  /-- The reader's own, for `rpc_q`, when the engine has exited. -/
  | exit_error
  deriving Repr, DecidableEq

namespace Event

def kind : Event → Kind
  | token _ => .token
  | prefill _ => .prefill
  | done _ => .done
  | turn_error _ => .error
  | session => .session
  | cancel => .cancel
  | reply _ => .reply
  | rpc_error _ => .error
  | exit_error => .error

/-- The turn whose token, prefill, done or error event this is. -/
def of_turn : Event → Option Nat
  | token t => some t
  | prefill t => some t
  | done t => some t
  | turn_error t => some t
  | _ => none

/-- The rpc this is the engine's reply to. -/
def answers : Event → Option Nat
  | reply n => some n
  | rpc_error n => some n
  | _ => none

end Event

/-- `token`, `prefill`, `done` and `error`. -/
def Kind.of_turns (k : Kind) : Bool :=
  k = .token || k = .prefill || k = .done || k = .error

/-- The kinds `_run` returns at. -/
def Kind.ends (k : Kind) : Bool :=
  k = .done || k = .error

/-- A request line; a cancel is not queued by the engine's inbox. -/
inductive Request where
  | rpc (id : Nat)
  | generate (turn : Nat)
  deriving Repr, DecidableEq

namespace Request

def rpc? : Request → Option Nat
  | rpc n => some n
  | generate _ => none

def generate? : Request → Option Nat
  | rpc _ => none
  | generate t => some t

end Request

/-! ### State -/

/-- Where the worker is inside `Bridge._run`. -/
inductive Worker where
  | idle
  /-- After `begin_turn`. -/
  | begun (turn : Nat)
  /-- The generate request is written; `job.cancelled` is read next. -/
  | sent (turn : Nat)
  /-- In the loop, with so many events taken from the turn's queue. -/
  | reading (turn taken : Nat)
  /-- `done` was taken. -/
  | finished (turn : Nat)
  /-- Inside the `rpc` of `detokenize`. -/
  | detokenizing (turn : Nat)
  /-- On the way to the `finally`. -/
  | leaving (turn : Nat)
  deriving Repr, DecidableEq

namespace Worker

def turn : Worker → Option Nat
  | idle => none
  | begun t => some t
  | sent t => some t
  | reading t _ => some t
  | finished t => some t
  | detokenizing t => some t
  | leaving t => some t

/-- The turn whose generate request the worker waits for. -/
def active : Worker → Option Nat
  | sent t => some t
  | reading t _ => some t
  | _ => none

/-- After an `rpc`, which the worker was in or not. -/
def resume : Worker → Worker
  | detokenizing t => leaving t
  | w => w

end Worker

/-- The queue the reader puts a line into. -/
inductive Sink where
  | turn (turn : Nat)
  | rpc
  deriving Repr, DecidableEq

structure Serve where
  closing : Bool := false
  dead : Bool := false
  /-- The number of the rpc whose caller holds `rpc_lock` and waits. -/
  rpc_lock : Option Nat := none
  rpc_q : List Event := []
  /-- The turn whose queue `stream_q` is. -/
  stream_q : Option Nat := none
  /-- All that was ever put into a turn's queue. -/
  queue : Nat → List Event := fun _ => []
  worker : Worker := .idle
  /-- The reader between its look at `stream_q` and its `put`. -/
  reader : Option (Event × Sink) := none
  /-- What the engine has not answered, the request it is at first. -/
  stdin : List Request := []
  /-- Cancels the engine's inbox has not acknowledged. -/
  cancels : Nat := 0
  stdout : List Event := []
  rpcs : Nat := 0
  turns : Nat := 0
  /-- What each finished `rpc` returned or raised. -/
  outcomes : List (Nat × Event) := []
  /-- The token, prefill, done and error events of each turn. -/
  emitted : Nat → List Event := fun _ => []

/-! ### The threads -/

inductive Act where
  /-- A thread enters `rpc`. -/
  | call
  /-- `rpc_q.get` returns. -/
  | get
  /-- `rpc_q.get` raises `queue.Empty`. -/
  | timeout
  | begin_turn
  | send_generate
  | check_cancel (cancelled : Bool)
  /-- `q.get` in the loop of `_run`. -/
  | take
  | detokenize
  | end_turn
  /-- Another thread's `cancel`. -/
  | cancel
  | close
  /-- The reader takes a line and looks at `stream_q`. -/
  | lookup
  | put
  /-- The reader finds that the engine has exited. -/
  | exits
  /-- The engine's session event of the request it is at. -/
  | switched
  | prefill
  | token
  | finish (ok : Bool)
  | answer (ok : Bool)
  /-- The engine's inbox acknowledges a cancel. -/
  | ack
  deriving Repr, DecidableEq

namespace Serve

/-- `send`, unless it raises. -/
def sends (s : Serve) : Bool := !s.closing && !s.dead

/-- `rpc` up to its `get`. -/
def rpc (s : Serve) : Serve :=
  { s with
    rpc_lock := some s.rpcs
    stdin := s.stdin ++ [.rpc s.rpcs]
    rpcs := s.rpcs + 1 }

def begin_turn (s : Serve) : Serve :=
  { s with
    stream_q := some s.turns
    worker := .begun s.turns
    turns := s.turns + 1 }

/-- The reader's choice; `none` for a line that nothing waits on. -/
def sink (s : Serve) (kind : Kind) : Option Sink :=
  let turn_events : List Kind := [.token, .prefill, .done, .session, .cancel]
  match s.stream_q with
  | some q => if kind ∈ turn_events ∨ kind = .error then some (.turn q) else some .rpc
  | none => if kind = .cancel ∨ kind = .session then none else some .rpc

def put (s : Serve) (ev : Event) : Sink → Serve
  | .turn t => { s with queue := Function.update s.queue t (s.queue t ++ [ev]) }
  | .rpc => { s with rpc_q := s.rpc_q ++ [ev] }

/-- The engine's `emit`. -/
def emit (s : Serve) (ev : Event) : Serve :=
  { s with stdout := s.stdout ++ [ev] }

/-- `emit` of a turn's event. -/
def emit_turn (s : Serve) (t : Nat) (ev : Event) : Serve :=
  { s.emit ev with emitted := Function.update s.emitted t (s.emitted t ++ [ev]) }

/-- The reader's last acts: an error for the turn in flight, then one for `rpc_q`. One step here;
    `_reader` sets `dead` first and takes `stream_lock` after, and a `begin_turn` can come
    between. -/
def exits (s : Serve) : Serve :=
  let s := { s with dead := true, reader := some (.exit_error, .rpc) }
  match s.stream_q with
  | some t =>
    { s.put (.turn_error t) (.turn t) with
      emitted := Function.update s.emitted t (s.emitted t ++ [.turn_error t]) }
  | none => s

/-- What `_run` does at an event of its queue. -/
def after (t taken : Nat) : Kind → Worker
  | .error => .leaving t
  | .done => .finished t
  | _ => .reading t (taken + 1)

/-- A turn's end: out of `_run` by a return or by an exception that came after `done`. -/
def may_end : Worker → Bool
  | .finished _ => true
  | .leaving _ => true
  | _ => false

/-- The engine runs and is at this request. -/
def serving (s : Serve) : Option Request :=
  if s.dead then none else s.stdin.head?

def next (s : Serve) : Act → Option Serve
  | .call =>
    if s.rpc_lock = none then some (if s.sends then s.rpc else s) else none
  | .get =>
    match s.rpc_lock, s.rpc_q with
    | some n, ev :: rest =>
      some { s with
        rpc_lock := none
        rpc_q := rest
        worker := s.worker.resume
        outcomes := s.outcomes ++ [(n, ev)] }
    | _, _ => none
  | .timeout =>
    match s.rpc_lock, s.rpc_q with
    | some _, [] => some { s with rpc_lock := none, worker := s.worker.resume }
    | _, _ => none
  | .begin_turn => if s.worker = .idle then some s.begin_turn else none
  | .send_generate =>
    match s.worker with
    | .begun t =>
      if s.sends then
        some { s with stdin := s.stdin ++ [.generate t], worker := .sent t }
      else some { s with worker := .leaving t }
    | _ => none
  | .check_cancel cancelled =>
    match s.worker with
    | .sent t =>
      if cancelled && !s.sends then some { s with worker := .leaving t }
      else
        some { s with
          cancels := if cancelled then s.cancels + 1 else s.cancels
          worker := .reading t 0 }
    | _ => none
  | .take =>
    match s.worker with
    | .reading t taken =>
      ((s.queue t)[taken]?).map fun ev => { s with worker := after t taken ev.kind }
    | _ => none
  | .detokenize =>
    match s.worker with
    | .finished t =>
      if s.rpc_lock = none then
        some (if s.sends then { s.rpc with worker := .detokenizing t }
          else { s with worker := .leaving t })
      else none
    | _ => none
  | .end_turn =>
    if may_end s.worker then some { s with stream_q := none, worker := .idle } else none
  | .cancel => some (if s.sends then { s with cancels := s.cancels + 1 } else s)
  | .close =>
    some (if s.closing then s else { s with closing := true, cancels := s.cancels + 1 })
  | .lookup =>
    match s.reader, s.dead, s.stdout with
    | none, false, ev :: rest =>
      some { s with
        stdout := rest
        reader := (s.sink ev.kind).map fun q => (ev, q) }
    | _, _, _ => none
  | .put =>
    match s.reader with
    | some (ev, q) => some { s.put ev q with reader := none }
    | none => none
  | .exits =>
    -- every rpc request was answered before
    if s.reader = none ∧ s.dead = false ∧ s.stdout = [] ∧ s.stdin.filterMap Request.rpc? = [] then
      some s.exits
    else none
  | .switched => s.serving.map fun _ => s.emit .session
  | .prefill =>
    match s.serving with
    | some (.generate t) => some (s.emit_turn t (.prefill t))
    | _ => none
  | .token =>
    match s.serving with
    | some (.generate t) => some (s.emit_turn t (.token t))
    | _ => none
  | .finish ok =>
    match s.serving with
    | some (.generate t) =>
      some { s.emit_turn t (if ok then .done t else .turn_error t) with stdin := s.stdin.tail }
    | _ => none
  | .answer ok =>
    match s.serving with
    | some (.rpc n) =>
      some { s.emit (if ok then .reply n else .rpc_error n) with stdin := s.stdin.tail }
    | _ => none
  | .ack =>
    if s.dead = false ∧ 0 < s.cancels then some { s.emit .cancel with cancels := s.cancels - 1 }
    else none

end Serve

/-- A server just started, its engine ready. -/
def serve_system : System Serve Act := .ofNext (fun s => s = {}) Serve.next

end CachedMoe.Web
