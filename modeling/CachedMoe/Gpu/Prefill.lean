import CachedMoe.Framework.Attempt
import CachedMoe.Store.Stream
import Mathlib.Data.List.Sort
import Mathlib.Logic.Function.Basic

/-! # The GPU prefill's expert reads

    `Prefill::run` of `gpu/vulkan/prefill_kernels.cpp` and `Engine::gpu_prefill` around it
    (`runtime/engine.cpp`), as far as the routed experts' weights are concerned: the reads
    that go out for them, the futures they are waited for with, and the slots of the decode
    cache that are reserved for them.

    The experts of a layer are computed in batches, in shard order, through a ring of
    transit segments. Before a layer's routing is known `read_ahead` fills the first
    segments blindly; `run_moe` then issues the reads of batch `i + 1` before it computes
    batch `i`. An expert is read into its transit slot, or into the slot of the decode
    cache that the sink of `gpu_prefill` reserved for it. -/

namespace CachedMoe.Gpu

open CachedMoe CachedMoe.Store Attempt

/-! ### Errors -/

def err_name : Err → String
  | .Ok => "ok"
  | .Unimplemented => "unimplemented"
  | .InvalidArgument => "invalid-argument"
  | .OutOfRange => "out-of-range"
  | .NotFound => "not-found"
  | .AlreadyExists => "already-exists"
  | .ResourceExhausted => "resource-exhausted"
  | .FailedPrecondition => "failed-precondition"
  | .Io => "io"
  | .Unavailable => "unavailable"
  | .Corrupt => "corrupt"
  | .Cancelled => "cancelled"
  | .Internal => "internal"

/-- `Status::str`. -/
def status_str (s : Status) : String :=
  err_name s.code ++ (if s.message = "" then "" else ": " ++ s.message) ++
    if s.os_code = 0 then "" else " (os " ++ toString s.os_code ++ ")"

/-! ### What a prefill is given -/

def kPfTransitSegmentsMax : Nat := 8

/-- The fields of `PrefillConfig` the expert reads depend on. -/
structure PrefillConfig where
  transit_slots : Nat := 64
  transit_segments : Nat := 2
  read_ahead_min_rows : Nat := 1024
  read_ahead_tail : Bool := true
  replay : Nat
  coopmat_min_rows : Nat := 16
  transit_slots_pos : 0 < transit_slots

/-- One read of an expert: the `run`-th of its runs. -/
structure ReadKey where
  layer : Nat
  expert : Nat
  run : Nat
  deriving Repr, DecidableEq

/-- The places of a prefill where something other than an expert's read can fail: what
    `gpu_prefill` does before `run`, the embedding, the two stretches of a layer before its
    experts (the routing is known after the second), the shared expert, an expert's copy
    from the transit, the two dispatches of a batch, the rest of the layer, and the head. -/
inductive Stage where
  | create | embed | front (layer : Nat) | attn (layer : Nat) | shared (layer : Nat)
  | copy (layer expert : Nat) | compute (layer batch : Nat) | compute_coop (layer batch : Nat)
  | post (layer : Nat) | head
  deriving Repr, DecidableEq

/-- A prefill, with what the components around it answer in its course. -/
structure Input where
  prompt_size : Nat
  num_hidden_layers : Nat
  n_routed_experts : Nat
  pcfg : PrefillConfig
  /-- `CACHEDMOE_PREFILL_HANDOFF`. -/
  handoff : Bool := true
  /-- The routing of a layer: the chosen experts, row after row. -/
  ids : Nat → List Nat
  /-- `Manifest::require_expert`. -/
  require_expert : Nat → Nat → Result ExpertEntry
  /-- `ShardSet::require` of the read's file. -/
  require_file : ReadKey → Result Unit
  /-- `IoEngine::submit_future`. -/
  submit_future : ReadKey → Result Unit
  /-- The status the read's future comes back with. -/
  result : ReadKey → Result Unit
  /-- `ExpertStore::resident` when the layer's read-ahead asks. -/
  resident : Nat → Nat → Bool
  /-- `Planner::admit_streamed`. -/
  admit_streamed : Nat → Nat → Result StreamAdmit
  /-- The depth of a layer's read-ahead, as the layers before it have left it. -/
  ahead_segments : Nat → Nat
  op : Stage → Result Unit

/-- `std::clamp`. -/
def clamp (v lo hi : Nat) : Nat := max lo (min v hi)

namespace Input

variable (inp : Input)

/-- An expert's runs, once the manifest has given its entry. -/
def runs (L e : Nat) : List Run :=
  match inp.require_expert L e with
  | .ok ent => ent.runs
  | .error _ => []

/-- The reads of one expert. -/
def keys (L e : Nat) : List ReadKey :=
  (List.range (inp.runs L e).length).map (ReadKey.mk L e)

def first_run (L e : Nat) : Run := (inp.runs L e).headD ⟨0, 0, 0, 0⟩

/-- The order of the experts' first runs on the drive. -/
def shard_order (L a b : Nat) : Bool :=
  let ra := inp.first_run L a
  let rb := inp.first_run L b
  if ra.file ≠ rb.file then ra.file < rb.file else ra.aligned_off < rb.aligned_off

/-- `std::sort` by `shard_order`. -/
def shard_sort (L : Nat) (es : List Nat) : List Nat :=
  es.insertionSort fun a b => inp.shard_order L b a = false

/-- Rows the bounded replay runs from layer 20 on. -/
def replay_rows : Nat := min inp.prompt_size inp.pcfg.replay

def replays : Prop := inp.replay_rows < inp.prompt_size

instance : Decidable inp.replays := Nat.decLt _ _

/-- The rows that enter a layer, and the rows its experts run over. -/
def front_rows (L : Nat) : Nat :=
  if inp.replays ∧ L > 20 then inp.replay_rows else inp.prompt_size

def rows (L : Nat) : Nat :=
  if inp.replays ∧ L ≥ 20 then inp.replay_rows else inp.front_rows L

/-- Ring segments of the transit. -/
def ring : Nat := clamp inp.pcfg.transit_segments 2 kPfTransitSegmentsMax

/-- Assignments of a layer's rows to an expert. -/
def count (L e : Nat) : Nat := (inp.ids L).count e

/-- `sink.cached`. -/
def cached (L e : Nat) : Bool := inp.handoff && inp.resident L e

end Input

/-! ### State -/

/-- Where a read lands. -/
inductive Dst where
  | transit (slot : Nat)
  | cache (slot : Nat)
  deriving Repr, DecidableEq

/-- The future of the `id`-th read that went out. -/
structure Fut where
  id : Nat
  key : ReadKey
  deriving Repr, DecidableEq

/-- The owner of a list of futures: a slot's range of the read-ahead, or a batch. -/
inductive Futs where
  | ahead (slot : Nat)
  | batch (i : Nat)
  deriving Repr, DecidableEq

/-- `PfExpertSink::Kind`. -/
inductive Kind where
  | Drop | Fill | Resident
  deriving Repr, DecidableEq

/-- `PfExpertSink::Dest`; `slot` is the cache slot its addresses point to. -/
structure Dest where
  kind : Kind := .Drop
  slot : Nat := 0
  cookie : Nat := 0
  deriving Repr, DecidableEq

/-- A reservation the sink holds. -/
structure Held where
  a : StreamAdmit
  is_open : Bool := true
  deriving Repr, DecidableEq

/-- A prefill in progress: the members of `Prefill`, the locals of `run_moe` (`landed`,
    `dest` and the batches' futures) and those of `gpu_prefill` (`held`). `reads` has every
    read that went out, `joined` those whose future was waited for, `settled` the cookies
    given to `finish_streamed`, and `freed` the slots that went back to the free list. -/
structure State where
  reads : List Dst := []
  joined : List Nat := []
  futs : Futs → List Fut := fun _ => []
  ahead_layer : Option Nat := none
  ahead_slot : Nat → Option Nat := fun _ => none
  ahead_range : Nat := 0
  landed : Nat → Bool := fun _ => false
  dest : Nat → Dest := fun _ => {}
  held : List Held := []
  settled : List Nat := []
  freed : List Nat := []
  transit_freed : Bool := false

namespace State

/-- A read goes out. -/
def push (s : State) (key : ReadKey) (dst : Dst) (k : Futs) : State :=
  { s with
    reads := s.reads ++ [dst]
    futs := Function.update s.futs k (s.futs k ++ [⟨s.reads.length, key⟩]) }

/-- Futures are waited for. -/
def wait (s : State) (fs : List Fut) : State :=
  { s with joined := s.joined ++ fs.map Fut.id }

/-- The futures of the read-ahead, slot after slot. -/
def ahead_futs (s : State) : List Fut :=
  (List.range s.ahead_range).flatMap fun slot => s.futs (.ahead slot)

def wait_ahead (s : State) : State := s.wait s.ahead_futs

/-- `ahead_ = {}`. -/
def drop_ahead (s : State) : State :=
  { s with
    futs := fun k =>
      match k with
      | .ahead _ => []
      | .batch i => s.futs (.batch i)
    ahead_layer := none
    ahead_slot := fun _ => none
    ahead_range := 0 }

/-- The read-ahead of a layer starts, with room for `n` slots. -/
def start_ahead (s : State) (L n : Nat) : State :=
  { s.drop_ahead with ahead_layer := some L, ahead_range := n }

/-- The locals of `run_moe`. -/
def start_moe (s : State) : State :=
  { s with
    futs := fun k =>
      match k with
      | .ahead slot => s.futs (.ahead slot)
      | .batch _ => []
    landed := fun _ => false
    dest := fun _ => {} }

/-- `land`: the reads of a read-ahead slot, waited for at most once. -/
def land (inp : Input) (slot : Nat) (s : State) : Bool × State :=
  if slot < s.ahead_range ∧ s.landed slot = false then
    ((s.futs (.ahead slot)).all fun f => (inp.result f.key).isOk,
      { s.wait (s.futs (.ahead slot)) with landed := Function.update s.landed slot true })
  else (true, s)

def land_all (inp : Input) : List Nat → State → Bool × State
  | [], s => (true, s)
  | slot :: slots, s =>
    let r := s.land inp slot
    let r' := land_all inp slots r.2
    (r.1 && r'.1, r'.2)

/-- The body of `sink.release`, and of the loop over what a failed prefill leaves open:
    `finish_streamed` gives a Fill whose read failed back to the free list. -/
def settle (s : State) (cookie : Nat) (ok : Bool) : State :=
  match s.held[cookie]? with
  | none => s
  | some hd =>
    if hd.is_open = true then
      { s with
        held := s.held.set cookie { hd with is_open := false }
        settled := s.settled ++ [cookie]
        freed := if hd.a.kind = .Fill ∧ ok = false then s.freed ++ [hd.a.slot] else s.freed }
    else s

/-- The releases at the end of a batch. -/
def release (s : State) (experts : List Nat) (ok : Bool) : State :=
  experts.foldl (fun s e => if (s.dest e).kind = .Drop then s else s.settle (s.dest e).cookie ok) s

/-- What `gpu_prefill` does with the reservations still open after `run`. -/
def settle_open (s : State) : State :=
  (List.range s.held.length).foldl (fun s cookie => s.settle cookie false) s

/-- `Prefill::destroy`. -/
def destroy (s : State) : State := { s.wait_ahead.drop_ahead with transit_freed := true }

end State

/-! ### Reads -/

abbrev Prefill (α : Type) := EStateM Status State α

/-- An expert's runs into `dst`. -/
def read_expert (inp : Input) (L e : Nat) (dst : Dst) (k : Futs) : Prefill Unit :=
  (inp.keys L e).forM fun key => do
    ofExcept (inp.require_file key)
    ofExcept (inp.submit_future key)
    modify fun s => s.push key dst k

namespace Input

variable (inp : Input)

/-- The experts the cache does not hold. -/
def uncached (L : Nat) : List Nat :=
  (List.range inp.n_routed_experts).filter fun e => !inp.cached L e

/-- The experts the read-ahead of a layer takes, in the order of their slots. -/
def ahead_order (L : Nat) : List Nat :=
  (inp.shard_sort L (inp.uncached L)).take
    (clamp (inp.ahead_segments L) 2 inp.ring * inp.pcfg.transit_slots)

end Input

/-- `require_expert`, for its error. -/
def require (inp : Input) (L e : Nat) : Prefill Unit :=
  ofExcept ((inp.require_expert L e).map fun _ => ())

def read_ahead (inp : Input) (L : Nat) : Prefill Unit := do
  (inp.uncached L).forM (require inp L)
  modify fun s => s.start_ahead L (inp.ahead_order L).length
  (inp.ahead_order L).zipIdx.forM fun (e, i) => do
    read_expert inp L e (.transit i) (.ahead i)
    modify fun s => { s with ahead_slot := Function.update s.ahead_slot e (some i) }

/-! ### Batches -/

/-- Experts computed together, and their transit segment. -/
structure Batch where
  experts : List Nat
  seg : Nat
  deriving Repr, DecidableEq

/-- The batches of the read-ahead experts: cut where the segment changes. -/
def ahead_batches (seg : Nat → Nat) : List Nat → List Batch
  | [] => []
  | e :: es =>
    match ahead_batches seg es with
    | [] => [⟨[e], seg e⟩]
    | b :: bs => if b.seg = seg e then ⟨e :: b.experts, seg e⟩ :: bs else ⟨[e], seg e⟩ :: b :: bs

/-- The batches of the others: `K` at a time round a ring of `R` segments. -/
def rest_batches (K R : Nat) : Nat → Nat → List Nat → List Batch
  | 0, _, _ => []
  | _ + 1, _, [] => []
  | fuel + 1, seg, e :: es =>
    ⟨(e :: es).take K, seg⟩ :: rest_batches K R fuel ((seg + 1) % R) ((e :: es).drop K)

namespace Input

variable (inp : Input)

def used (L : Nat) : List Nat :=
  (List.range inp.n_routed_experts).filter fun e => inp.count L e ≠ 0

/-- The experts read ahead that the routing did not choose. -/
def blind_unused (L : Nat) (ahead : Nat → Option Nat) : List Nat :=
  (List.range inp.n_routed_experts).filter fun e => inp.count L e = 0 ∧ (ahead e).isSome

def used_ahead (L : Nat) (ahead : Nat → Option Nat) : List Nat :=
  (inp.shard_sort L (inp.used L)).filter fun e => (ahead e).isSome

def used_rest (L : Nat) (ahead : Nat → Option Nat) : List Nat :=
  (inp.shard_sort L (inp.used L)).filter fun e => !(ahead e).isSome

/-- The read-ahead experts are the first batches, one per transit segment they sit in; the
    rest follow round the ring. -/
def batches (L : Nat) (ahead : Nat → Option Nat) : List Batch :=
  let K := inp.pcfg.transit_slots
  let first := ahead_batches (fun e => (ahead e).getD 0 / K) (inp.used_ahead L ahead)
  let rest := inp.used_rest L ahead
  let seg :=
    match first.getLast? with
    | none => 0
    | some b => (b.seg + 1) % inp.ring
  first ++ rest_batches K inp.ring rest.length seg rest

end Input

/-! ### The sink -/

/-- `sink.reserve`. -/
def reserve (inp : Input) (L e : Nat) (s : State) : Dest × State :=
  if inp.handoff = false then ({}, s)
  else
    match inp.admit_streamed L e with
    | .error _ => ({}, s)
    | .ok a =>
      if a.kind = .Drop then ({}, s)
      else
        ({ kind := if a.kind = .Fill then .Fill else .Resident, slot := a.slot,
           cookie := s.held.length },
          { s with held := s.held ++ [{ a := a }] })

/-- `dest[e] = reserve(..)`. -/
def State.reserve (inp : Input) (L e : Nat) (s : State) : State :=
  let r := Gpu.reserve inp L e s
  { r.2 with dest := Function.update r.2.dest e r.1 }

/-! ### `run_moe` -/

/-- `issue`: the reservations and the reads of a batch. -/
def issue (inp : Input) (L : Nat) (ahead : Nat → Option Nat) (i : Nat) (bt : Batch) :
    Prefill Unit := do
  -- a batch that refills its segment waits for the blind reads still on their way there
  whenever (∃ e ∈ bt.experts.head?, ahead e = none) <|
    modify fun s =>
      (s.land_all inp (List.range' (bt.seg * inp.pcfg.transit_slots) inp.pcfg.transit_slots)).2
  bt.experts.zipIdx.forM fun (e, j) => do
    modify fun s => s.reserve inp L e
    let s ← get
    whenever ((s.dest e).kind ≠ .Resident ∧ ahead e = none) <|
      read_expert inp L e
        (if (s.dest e).kind = .Fill then .cache (s.dest e).slot
         else .transit (bt.seg * inp.pcfg.transit_slots + j))
        (.batch i)

/-- The message of a read that failed: the last one's. -/
def why (inp : Input) (fs : List Fut) : String :=
  fs.foldl (fun why f => match inp.result f.key with
    | .ok _ => why
    | .error e => status_str e) ""

/-- The first half of `run_batch`: wait for the batch's reads. -/
def collect (inp : Input) (ahead : Nat → Option Nat) (i : Nat) (bt : Batch) (s : State) :
    Bool × State :=
  let r := s.land_all inp (bt.experts.filterMap ahead)
  let futs := r.2.futs (.batch i)
  (r.1 && futs.all fun f => (inp.result f.key).isOk, r.2.wait futs)

/-- The second half of `run_batch`: what runs on the GPU. -/
def dispatch (inp : Input) (L : Nat) (ahead : Nat → Option Nat) (i : Nat) (bt : Batch) :
    Prefill Unit := do
  -- a Fill the read-ahead brought in moves from the transit into its cache slot
  bt.experts.forM fun e => do
    let s ← get
    whenever ((ahead e).isSome ∧ (s.dest e).kind = .Fill) (ofExcept (inp.op (.copy L e)))
  whenever (0 < (bt.experts.filter fun e => inp.count L e < inp.pcfg.coopmat_min_rows).length)
    (ofExcept (inp.op (.compute L i)))
  whenever ((bt.experts.filter fun e => inp.count L e < inp.pcfg.coopmat_min_rows).length <
      bt.experts.length)
    (ofExcept (inp.op (.compute_coop L i)))

def run_batch (inp : Input) (L : Nat) (ahead : Nat → Option Nat) (i : Nat) (bt : Batch) :
    Prefill Unit := do
  let read_ok ← modifyGet (collect inp ahead i bt)
  whenever (read_ok = false) do
    modify fun s => s.release bt.experts false
    let s ← get
    throw { code := .Io, message := "expert read failed: " ++ why inp (s.futs (.batch i)) }
  dispatch inp L ahead i bt
  modify fun s => s.release bt.experts true

/-- The loop over the batches: `batches[i]` is issued, then `batches[i - 1]` computed. -/
def batch_loop (inp : Input) (L : Nat) (ahead : Nat → Option Nat) :
    Nat → Option Batch → List Batch → Prefill Unit
  | _, none, [] => pure ()
  | i, some prev, [] => run_batch inp L ahead (i - 1) prev
  | i, none, bt :: bts => do
    issue inp L ahead i bt
    batch_loop inp L ahead (i + 1) (some bt) bts
  | i, some prev, bt :: bts => do
    issue inp L ahead i bt
    run_batch inp L ahead (i - 1) prev
    batch_loop inp L ahead (i + 1) (some bt) bts

def run_moe (inp : Input) (L : Nat) : Prefill Unit := do
  ofExcept (inp.op (.shared L))
  let s ← get
  let ahead := if s.ahead_layer = some L then s.ahead_slot else fun _ => none
  (inp.used L).forM (require inp L)
  (inp.blind_unused L ahead).forM (require inp L)
  modify State.start_moe
  batch_loop inp L ahead 0 none (inp.batches L ahead)
  -- the blind reads the routing did not choose land before the transit is reused
  modify fun s => s.wait_ahead.drop_ahead

/-! ### The prefill -/

/-- The rows from which a layer is worth reading ahead; 0 turns it off. -/
def Input.reads_ahead (inp : Input) (rows : Nat) : Prop :=
  inp.pcfg.read_ahead_min_rows ≠ 0 ∧ rows ≥ inp.pcfg.read_ahead_min_rows

instance (inp : Input) (rows : Nat) : Decidable (inp.reads_ahead rows) :=
  inferInstanceAs (Decidable (_ ∧ _))

def run_layer (inp : Input) (L : Nat) : Prefill Unit := do
  ofExcept (inp.op (.front L))
  let s ← get
  whenever (inp.reads_ahead (inp.rows L) ∧ s.ahead_layer ≠ some L) (read_ahead inp L)
  ofExcept (inp.op (.attn L))
  run_moe inp L
  -- the next layer's rows
  let A1 := if inp.replays ∧ L + 1 ≥ 20 then inp.replay_rows else inp.prompt_size
  whenever (inp.pcfg.read_ahead_tail = true ∧ L + 1 < inp.num_hidden_layers ∧ inp.reads_ahead A1)
    (read_ahead inp (L + 1))
  ofExcept (inp.op (.post L))

def layer_error (L : Nat) (e : Status) : Status :=
  { code := e.code, message := "layer " ++ toString L ++ ": " ++ e.message }

/-- `Prefill::run`. -/
def run (inp : Input) : Prefill Unit := do
  ofExcept (inp.op .embed)
  (List.range inp.num_hidden_layers).forM fun L =>
    EStateM.adaptExcept (layer_error L) (run_layer inp L)
  ofExcept (inp.op .head)

/-- `Engine::gpu_prefill`, up to the seeding of the decode state: the answer, and what is
    left of the prefill once `pf` is destroyed. -/
def gpu_prefill (inp : Input) : Result Unit × State :=
  if inp.prompt_size = 0 then (fail .InvalidArgument "the prompt is empty", {})
  else
    match inp.op .create with
    | .error e => (.error e, ({} : State).destroy)
    | .ok () =>
      match run inp {} with
      | .ok () s => (.ok (), s.settle_open.destroy)
      | .error e s => (.error e, s.settle_open.destroy)

end CachedMoe.Gpu
