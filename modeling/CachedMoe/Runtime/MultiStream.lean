import CachedMoe.Framework.Outline
import CachedMoe.Store.Guard

/-! # The interleaved decode step

    `Engine::decode_step_multi` of `runtime/engine.cpp` as the store's eviction guard sees it: the
    commands of the streams, in the order of the three schedules, while the GPU completes submitted
    buffers and the store is used by the planner and its fetchers.

    What a layer does at its gate depends on the routing and on residency; here it is a plan that
    is given for each stream and layer. A step that fails stops where it is. Recording, residency
    timelines, stamps and timings are left out; a guard number does not wrap. -/

namespace CachedMoe.Runtime.MultiStream

open CachedMoe Store

/-! ### Data model -/

/-- The members of `Stream` that commands and guards use. -/
structure Stream where
  /-- The value of `fence_`: the submits that have completed. -/
  fence : Nat := 0
  fence_value : Nat := 0
  tok_open : Bool := false
  layer_guard : Nat := 0
  layer_guard_pending : Bool := false
  open_guard : Nat := 0
  inflight_guard : Nat := 0
  /-- `lc_.gate_fence`. -/
  gate_fence : Nat := 0
  deriving Repr, DecidableEq

structure Engine (n : Nat) where
  streams : Fin n → Stream
  guard_clock : Nat := 0
  store : ExpertStore

/-- How far the last buffer that reads a layer's slots has come. -/
inductive Reader where
  | unrecorded
  | recorded
  | submitted (fence : Nat)
  deriving Repr, DecidableEq

/-- The layer that a guard number was assigned to. -/
structure Reading (n : Nat) where
  stream : Fin n
  reader : Reader

/-- A Resident slot that was given a guard. -/
structure Held where
  guard : Nat
  slot : Nat
  key : ExpertKey

/-- The engine with the history of its guards. -/
structure State (n : Nat) where
  engine : Engine n
  readings : Nat → Option (Reading n) := fun _ => none
  held : List Held := []

variable {n : Nat}

/-! ### Commands -/

namespace Engine

def set_stream (e : Engine n) (j : Fin n) (s : Stream) : Engine n :=
  { e with streams := Function.update e.streams j s }

def cmd_open (e : Engine n) (j : Fin n) : Engine n :=
  let s := e.streams j
  if s.tok_open then e else e.set_stream j { s with tok_open := true }

def submitted (s : Stream) : Stream :=
  { s with
    tok_open := false
    fence_value := s.fence_value + 1
    inflight_guard := if s.open_guard ≠ 0 then s.open_guard else s.inflight_guard
    open_guard := 0 }

def cmd_submit (e : Engine n) (j : Fin n) : Engine n :=
  let s := e.streams j
  if ¬ s.tok_open then e else e.set_stream j (submitted s)

/-- `clamp(v)`. -/
def clamp (safe v : Nat) : Nat := if v ≠ 0 ∧ v - 1 < safe then v - 1 else safe

/-- `safe` after the loop over the streams. -/
def safe_guard (e : Engine n) (me : Fin n) (mine : Nat) : Nat :=
  (List.finRange n).foldl
    (fun safe j =>
      if j = me then safe
      else clamp (clamp safe (e.streams j).open_guard) (e.streams j).inflight_guard) mine

def advance_store_guard (e : Engine n) (me : Fin n) (mine : Nat) : Engine n :=
  if mine = 0 then e
  else { e with store := e.store.set_completed_timeline (e.safe_guard me mine) }

/-- Blocked until the fence has reached the target; 0 is the last submit. -/
def cmd_wait (e : Engine n) (j : Fin n) (target : Nat) : Option (Engine n) :=
  let s := e.streams j
  let want := if target ≠ 0 then target else s.fence_value
  if s.fence < want then none
  else if s.inflight_guard ≠ 0 then
    some ((e.set_stream j { s with inflight_guard := 0 }).advance_store_guard j s.inflight_guard)
  else some e

/-- The number a layer gets: the first of its guards takes a new one. -/
def number_layer (e : Engine n) (j : Fin n) : Engine n :=
  let s := e.streams j
  if s.layer_guard_pending then e
  else
    { e.set_stream j { s with layer_guard := e.guard_clock + 1, layer_guard_pending := true } with
      guard_clock := e.guard_clock + 1 }

/-- `if (auto slot = store_.slot_of(key)) store_.set_guard(*slot, guard)`. -/
def guard_slot (st : ExpertStore) (guard : Nat) (key : ExpertKey) : ExpertStore :=
  match st.index key with
  | some slot => (st.set_guard slot guard).2
  | none => st

def guard_layer (e : Engine n) (j : Fin n) (keys : List ExpertKey) : Engine n :=
  let e := e.number_layer j
  { e with store := keys.foldl (fun st key => guard_slot st (e.streams j).layer_guard key) e.store }

/-- The lookups of `plan_layer` with `guard_hits`. -/
def guard_hits (e : Engine n) (j : Fin n) (token : Nat) (keys : List ExpertKey) : Engine n :=
  { e with store := keys.foldl (fun st key =>
      (st.lookup key token (e.streams j).layer_guard).2) e.store }

end Engine

/-! ### Actions

    Each action is a command with what it adds to the history. -/

inductive Act where
  /-- A buffer left open by a step that failed is dropped. -/
  | prologue
  /-- `lc = LayerCtx{}`. -/
  | layer_ctx
  | cmd_open
  | cmd_submit
  /-- `lc.gate_fence = fence_value_`. -/
  | note_gate
  | wait_gate
  | cmd_wait
  /-- `layer_guard_pending_ = false`. -/
  | no_guard
  | guard_layer (keys : List ExpertKey)
  | guard_hits (token : Nat) (keys : List ExpertKey)
  /-- The dispatch that reads the layer's slots last. -/
  | record_moe
  /-- `open_guard_ = layer_guard_`. -/
  | open_guard
  deriving Repr, DecidableEq

namespace State

def stream (s : State n) (j : Fin n) : Stream := s.engine.streams j

def set_stream (s : State n) (j : Fin n) (v : Stream) : State n :=
  { s with engine := s.engine.set_stream j v }

/-- The recorded buffer of stream `j` goes out with fence `f`. -/
def sent (readings : Nat → Option (Reading n)) (j : Fin n) (f : Nat) (g : Nat) :
    Option (Reading n) :=
  (readings g).map fun r =>
    if r.stream = j ∧ r.reader = .recorded then { r with reader := .submitted f } else r

/-- The Resident slots of `keys`, held under `guard`. -/
def holds (st : ExpertStore) (guard : Nat) (keys : List ExpertKey) : List Held :=
  keys.filterMap fun key =>
    match st.index key with
    | some slot => if (st.slots slot).state = .Resident then some ⟨guard, slot, key⟩ else none
    | none => none

def act (s : State n) (j : Fin n) : Act → Option (State n)
  | .prologue => some (s.set_stream j { s.stream j with tok_open := false })
  | .layer_ctx => some (s.set_stream j { s.stream j with gate_fence := 0 })
  | .cmd_open => some { s with engine := s.engine.cmd_open j }
  | .cmd_submit =>
    let readings := if (s.stream j).tok_open then sent s.readings j ((s.stream j).fence_value + 1)
      else s.readings
    some { s with engine := s.engine.cmd_submit j, readings }
  | .note_gate => some (s.set_stream j { s.stream j with gate_fence := (s.stream j).fence_value })
  | .wait_gate => (s.engine.cmd_wait j (s.stream j).gate_fence).map fun e => { s with engine := e }
  | .cmd_wait => (s.engine.cmd_wait j 0).map fun e => { s with engine := e }
  | .no_guard => some (s.set_stream j { s.stream j with layer_guard_pending := false })
  | .guard_layer keys =>
    let e := s.engine.guard_layer j keys
    let guard := (e.streams j).layer_guard
    let readings := if (s.stream j).layer_guard_pending then s.readings
      else Function.update s.readings guard (some ⟨j, .unrecorded⟩)
    some { engine := e, readings, held := s.held ++ holds s.engine.store guard keys }
  | .guard_hits token keys =>
    let guard := (s.stream j).layer_guard
    some { s with
      engine := s.engine.guard_hits j token keys
      held := s.held ++ holds s.engine.store guard keys }
  | .record_moe =>
    some { s with
      readings := Function.update s.readings (s.stream j).layer_guard (some ⟨j, .recorded⟩) }
  | .open_guard =>
    some (s.set_stream j { s.stream j with open_guard := (s.stream j).layer_guard })

end State

/-- What happens besides: the GPU completes a submit, or the planner and its fetchers use the
    store. Only the engine moves the store's timeline. -/
inductive Event (n : Nat) where
  | gpu (j : Fin n)
  | store (op : Op)

/-- An operation of the planner and its fetchers. -/
def fetches : Op → Bool
  | .set_completed_timeline _ => false
  | op => op.keeps_contents

def State.env (s : State n) : Event n → Option (State n)
  | .gpu j =>
    if (s.stream j).fence < (s.stream j).fence_value then
      some (s.set_stream j { s.stream j with fence := (s.stream j).fence + 1 })
    else none
  | .store op =>
    if fetches op then some { s with engine := { s.engine with store := s.engine.store.apply op } }
    else none

def machine (n : Nat) : LTS.Machine (State n) (Fin n × Act) (Event n) where
  act := fun s a => s.act a.1 a.2
  env := State.env

/-! ### A layer in three phases -/

/-- How a layer is served. -/
inductive Routing where
  /-- Only the hits of the plan, and the fills worth waiting for. -/
  | mask (token : Nat) (hits candidates used : List ExpertKey)
  /-- The resident slots before the wait for the others. -/
  | split (early late : List ExpertKey)
  | whole (used : List ExpertKey)
  deriving Repr, DecidableEq

structure LayerPlan where
  engram : Bool := false
  shared_early : Bool := false
  shared_early_check : Bool := false
  routing : Routing
  deriving Repr, DecidableEq

def layer_begin (p : LayerPlan) : List Act :=
  [.layer_ctx] ++ (if p.engram then [.cmd_open] else []) ++ [.cmd_open, .cmd_submit, .note_gate] ++
    if p.shared_early then [.cmd_open, .cmd_submit] else []

def layer_gate (p : LayerPlan) : List Act :=
  [.wait_gate, .no_guard] ++
    match p.routing with
    | .mask token hits candidates _ =>
      [.guard_layer [], .open_guard, .guard_hits token hits, .guard_layer candidates]
    | .split early _ =>
      [.guard_layer early] ++
        -- nothing to dispatch when every expert is late and the shared one is out already
        if early = [] ∧ p.shared_early then [] else [.cmd_open, .cmd_submit]
    | .whole _ => []

def layer_moe (eager : Bool) (p : LayerPlan) : List Act :=
  (match p.routing with
    | .split _ late => [.cmd_wait, .guard_layer late]
    | .mask _ _ _ used | .whole used =>
      [.guard_layer used] ++ if p.shared_early ∧ p.shared_early_check then [.cmd_wait] else []) ++
    [.cmd_open, .record_moe, .open_guard] ++ if eager then [.cmd_submit] else []

/-- `collapse_and_sample`: the tail goes out behind the last layer and is waited for. -/
def step_epilogue : List Act := [.cmd_open, .cmd_submit, .cmd_wait]

/-! ### The schedules -/

inductive MsSched where
  | Pipeline | Interleave | PingPong
  deriving Repr, DecidableEq

/-- A call of `decode_step_multi`. -/
structure Call (n : Nat) where
  steps : List (Fin n)
  sched : MsSched
  layers : Nat
  eager_moe : Bool
  plans : Fin n → Nat → LayerPlan

namespace Call

variable (c : Call n)

/-- The MoE gets a submit of its own. -/
def eager : Bool := 1 < n && c.sched ≠ .PingPong && c.eager_moe

def on (j : Fin n) (acts : List Act) : List (Fin n × Act) := acts.map fun a => (j, a)

def begin_at (j : Fin n) (L : Nat) : List (Fin n × Act) := on j (layer_begin (c.plans j L))

def gate_at (j : Fin n) (L : Nat) : List (Fin n × Act) := on j (layer_gate (c.plans j L))

def moe_at (j : Fin n) (L : Nat) : List (Fin n × Act) := on j (layer_moe c.eager (c.plans j L))

def run_layer (j : Fin n) (L : Nat) : List (Fin n × Act) :=
  c.begin_at j L ++ c.gate_at j L ++ c.moe_at j L

def decode_step (j : Fin n) : List (Fin n × Act) :=
  on j [.prologue] ++ (List.range c.layers).flatMap (c.run_layer j) ++ on j step_epilogue

/-- Layer `L` of every stream, phase by phase. -/
def interleave_layer (L : Nat) : List (Fin n × Act) :=
  c.steps.flatMap (c.begin_at · L) ++ c.steps.flatMap (c.gate_at · L) ++
    c.steps.flatMap (c.moe_at · L)

/-- Layer `L` of the streams left; before a stream waits for its experts, the next unit of work is
    submitted. -/
def pipeline_layer (first : Fin n) (L : Nat) : List (Fin n) → List (Fin n × Act)
  | [] => []
  | [j] =>
    c.gate_at j L ++ (if L + 1 < c.layers then c.begin_at first (L + 1) else []) ++ c.moe_at j L
  | j :: k :: rest =>
    c.gate_at j L ++ c.begin_at k L ++ c.moe_at j L ++ pipeline_layer first L (k :: rest)

def layer_loop : List (Fin n × Act) :=
  match c.sched, c.steps with
  | .Interleave, _ => (List.range c.layers).flatMap c.interleave_layer
  | _, [] => []
  | _, first :: _ =>
    c.begin_at first 0 ++ (List.range c.layers).flatMap fun L => c.pipeline_layer first L c.steps

/-- The actions of a call that is not refused. -/
def decode_step_multi : List (Fin n × Act) :=
  if c.layers = 0 ∨ c.steps = [] ∨ ¬ c.steps.Nodup then []
  else if c.steps.length = 1 ∨ c.sched = .PingPong then c.steps.flatMap c.decode_step
  else
    c.steps.flatMap (fun j => on j [.prologue]) ++ c.layer_loop ++
      c.steps.flatMap fun j => on j step_epilogue

end Call

/-- The runs over a sequence of calls. -/
def decoding (start : State n → Prop) (calls : List (Call n)) :
    LTS.System (List (Fin n × Act) × State n) (Option (Event n)) :=
  (machine n).running start (calls.flatMap Call.decode_step_multi)

end CachedMoe.Runtime.MultiStream
