import Mathlib.Logic.Function.Basic
import CachedMoe.Framework.System
import CachedMoe.Storage.Chunks

/-! # The I/O engine

    `storage/io_engine.cpp` and `storage/source_router.h` as a system of steps. Its threads:

    * callers of `submit`, which route a request, check and plan it, and queue it;
    * callers of `cancel`, which take a request out of its queue, give its charges back and
      call it back;
    * the dispatcher, which issues chunks, takes their completions and finishes requests,
      with the submitter threads and the backend behind it.

    A step is one critical section, or one stretch of code that other threads can observe
    (`finish` resets a request it retries without the lock). What the dispatcher does to
    state only it looks at is part of the neighbouring step. Requests are named by the order
    in which their `submit` began; the engine's id serves only to find one in `cancel`.
    Clocks and statistics are left out. -/

namespace CachedMoe.Storage

open CachedMoe

def kMaxIoSources : Nat := 4
def kEngramWaitChunks : Nat := 96

/-- A bit per source. -/
abbrev Mask := Nat → Bool

def popcount (mask : Mask) : Nat := ((List.range kMaxIoSources).filter mask).length

def any_source (mask : Mask) : Bool := (List.range kMaxIoSources).any mask

/-- Bits other than the primary's. -/
def any_mirror (mask : Mask) : Bool :=
  (List.range kMaxIoSources).any fun s => s != 0 && mask s

/-! ### Source health -/

/-- `SourceHealth`: consecutive errors per source, and the sources dropped for them. -/
structure SourceHealth where
  budget : Nat := 3
  consecutive : Nat → Nat := fun _ => 0
  dropped : Mask := fun _ => false

namespace SourceHealth

def note_error (h : SourceHealth) (s : Nat) : SourceHealth :=
  if s = 0 ∨ kMaxIoSources ≤ s ∨ h.dropped s then h
  else
    let n := h.consecutive s + 1
    { h with
      consecutive := Function.update h.consecutive s n
      dropped := if h.budget ≤ n then Function.update h.dropped s true else h.dropped }

def note_success (h : SourceHealth) (s : Nat) : SourceHealth :=
  if 0 < s ∧ s < kMaxIoSources then
    { h with consecutive := Function.update h.consecutive s 0 }
  else h

def note_result (h : SourceHealth) (s : Nat) (ok : Bool) : SourceHealth :=
  if ok then h.note_success s else h.note_error s

def drop (h : SourceHealth) (s : Nat) : SourceHealth :=
  if 0 < s ∧ s < kMaxIoSources then { h with dropped := Function.update h.dropped s true } else h

def readmit (h : SourceHealth) (s : Nat) : SourceHealth :=
  if 0 < s ∧ s < kMaxIoSources then
    { h with
      consecutive := Function.update h.consecutive s 0
      dropped := Function.update h.dropped s false }
  else h

def live_mask (h : SourceHealth) (candidates : Mask) : Mask :=
  fun s => candidates s && !h.dropped s

end SourceHealth

/-- `ThermalGate`: a hot mirror rests until it has cooled. -/
structure ThermalGate where
  hot_c : Int := 80
  cool_c : Int := 72
  resting : Mask := fun _ => false

namespace ThermalGate

def update (g : ThermalGate) (s : Nat) (temp_c : Int) : ThermalGate :=
  if s = 0 ∨ kMaxIoSources ≤ s then g
  else if ¬ g.resting s ∧ g.hot_c ≤ temp_c then
    { g with resting := Function.update g.resting s true }
  else if g.resting s ∧ temp_c ≤ g.cool_c then
    { g with resting := Function.update g.resting s false }
  else g

def live_mask (g : ThermalGate) (candidates : Mask) : Mask :=
  fun s => candidates s && !g.resting s

end ThermalGate

/-! ### Configuration -/

/-- The depths and byte ceilings of the priority classes. -/
structure Tuning where
  bg_cap_busy : Nat := 1
  throttle_engram : Bool := false
  p0_qd : Nat := 8
  p0_inflight_bytes : Nat := 32 * 2 ^ 20
  bg_qd : Nat := 8
  bg_inflight_bytes : Nat := 32 * 2 ^ 20
  engram_qd : Nat := 8

/-- What is fixed before the first `submit`: the open files, the mirror table and the routing
    rule. Choosing a source is floating-point arithmetic over the weights; nothing depends on
    its outcome, so it is a function of what it looks at. -/
structure Config where
  files : Nat → File
  /-- `alts_`: for a primary handle, the handle of each source that holds the shard. -/
  alts : Nat → Option (Nat → Option Nat) := fun _ => none
  mirrors_on : Bool := false
  stripe : Bool := false
  static_split : Bool := false
  route_classes : IoPriority → Bool := fun p => p == .BlockingMiss || p == .Backfill
  pick_source : (Nat → Nat) → Mask → Nat → Nat := fun _ _ _ => 0
  pick_static : (Nat → Nat) → Mask → Nat → Nat := fun _ _ _ => 0
  alignment : Nat := 4096
  p0_chunk_bytes : Nat := 4 * 2 ^ 20
  bg_chunk_bytes : Nat := 4 * 2 ^ 20
  p0_chunk_pos : p0_chunk_bytes ≠ 0
  bg_chunk_pos : bg_chunk_bytes ≠ 0
  /-- Source 0 of a mirrored shard is the primary itself. -/
  alts_primary : ∀ f row, alts f = some row → row 0 = some f
  /-- Mirrors are byte-identical copies. -/
  alts_size : ∀ f row s alt, alts f = some row → row s = some alt →
    (files alt).size = (files f).size
  alts_content : ∀ f row s alt, alts f = some row → row s = some alt →
    (files alt).content = (files f).content

/-! ### Requests -/

/-- A null file is a handle that is not open, a null destination is address 0. -/
structure IoRequest where
  key : ExpertKey := {}
  priority : IoPriority := .Backfill
  file : Nat := 0
  file_off : Nat := 0
  bytes : Nat := 0
  dst : Nat := 0
  deriving Repr, DecidableEq

def Status.success : Status := { code := .Ok, message := "" }

structure IoResult where
  key : ExpertKey := {}
  bytes_moved : Nat := 0
  status : Status := Status.success
  deriving Repr, DecidableEq

def IoResult.ok (r : IoResult) : Bool := r.status.code == .Ok

/-- Whose hands a request is in. -/
inductive Phase where
  /-- `submit` has routed it. -/
  | routed
  /-- `submit` has checked it and planned its chunks. -/
  | planned
  /-- `submit` returned an error. -/
  | rejected
  /-- Accepted: in its queue, or with chunks in flight. -/
  | queued
  /-- All chunks are in; `finish` has it. -/
  | finishing
  /-- `cancel` took it out of its queue. -/
  | cancelled
  /-- Called back. -/
  | done
  deriving Repr, DecidableEq

def Phase.accepted : Phase → Bool
  | .routed | .planned | .rejected => false
  | .queued | .finishing | .cancelled | .done => true

/-- `IoEngine::Pending`, with the locals of the `submit` that makes it. -/
structure Pending where
  req : IoRequest
  phase : Phase := .routed
  /-- The caller's file. -/
  origin : Nat := 0
  /-- The sources a striped request may use; `none` when it is not striped. -/
  stripe_mask : Option Mask := none
  chunks : List Chunk := []
  required_bytes : Nat := 0
  next_chunk : Nat := 0
  issued_chunks : Nat := 0
  done_chunks : Nat := 0
  bytes_moved : Nat := 0
  source : Nat := 0
  routed : Bool := false
  primary : Option Nat := none
  chunk_src : List Nat := []
  src_file : Nat → Option Nat := fun _ => none
  src_charged : Nat → Nat := fun _ => 0
  src_used : Mask := fun _ => false
  src_err : Mask := fun _ => false
  status : Status := Status.success
  failed : Bool := false
  /-- The destination, from `req.dst` on. -/
  buffer : Nat → UInt8 := fun _ => 0
  /-- The sources whose `src_inflight_` counts the request. -/
  started : Mask := fun _ => false
  /-- A read of the caller's own file failed. -/
  primary_failed : Bool := false
  retries : Nat := 0
  /-- The results `finish` called back with. -/
  results : List IoResult := []
  /-- How often `cancel` called back. -/
  cancels : Nat := 0
  /-- A `cancel` took the request while `finish` was about to requeue it. -/
  raced : Bool := false

namespace Pending

/-- How often the request was called back. -/
def calls (p : Pending) : Nat := p.results.length + p.cancels

/-- `done_chunks == issued_chunks` and every chunk handed out: `finish` is called. -/
def complete (p : Pending) : Bool :=
  p.done_chunks == p.issued_chunks && p.next_chunk == p.chunks.length

/-- The result `finish` makes of a complete request. -/
def result (p : Pending) : IoResult where
  key := p.req.key
  bytes_moved := p.bytes_moved
  status :=
    if !p.failed && p.bytes_moved < p.required_bytes then
      { code := .Io
        message := s!"short read: {p.bytes_moved} of {p.req.bytes} bytes " ++
          s!"(needed {p.required_bytes})" }
    else p.status

/-- `finish` reads the request again from the primary. -/
def fails_over (p : Pending) : Bool :=
  p.primary.isSome && !p.result.ok && (p.chunk_src.isEmpty || any_mirror p.src_err)

/-- The retry: the whole request from the primary, unstriped. -/
def retry (p : Pending) : Pending :=
  { p with
    chunk_src := []
    src_used := fun _ => false
    src_err := fun _ => false
    req := { p.req with file := p.primary.getD p.req.file }
    primary := none
    source := 0
    routed := false
    next_chunk := 0
    issued_chunks := 0
    done_chunks := 0
    bytes_moved := 0
    failed := false
    status := Status.success
    retries := p.retries + 1 }

end Pending

/-! ### Chunks in flight -/

/-- What is handed to the backend; `dst` counts from the request's destination. -/
structure ChunkRequest where
  chunk_id : Nat
  file : Nat
  file_off : Nat
  bytes : Nat
  min_bytes : Nat
  dst : Nat
  deriving Repr, DecidableEq

/-- Where a chunk is on its way. -/
inductive Stage where
  /-- With the submitters. -/
  | picked
  /-- With the backend. -/
  | accepted
  /-- In `failed_q_`: the backend refused it. -/
  | refused (status : Status)
  deriving Repr, DecidableEq

/-- A chunk policy has committed to, until its completion is handled. `src` is the source of a
    striped chunk, `index` its place among the request's chunks. -/
structure PickedChunk where
  owner : Nat
  index : Nat
  src : Option Nat
  req : ChunkRequest
  deriving Repr, DecidableEq

/-- An entry of `chunk_owner_`. -/
structure InflightChunk where
  owner : Nat
  bytes : Nat
  src : Option Nat
  deriving Repr, DecidableEq

/-- The entry made for a chunk when it is picked. -/
def PickedChunk.inflight (w : PickedChunk) : InflightChunk :=
  { owner := w.owner, bytes := w.req.bytes, src := w.src }

/-! ### State -/

/-- The parts of `finish`, by what comes next. -/
inductive FinishStep where
  /-- The charges are given back. -/
  | release
  /-- The fields of a request to be retried are reset, without the lock. -/
  | reset
  /-- It is put at the front of its queue. -/
  | requeue
  /-- Its callback runs. -/
  | deliver (r : IoResult)
  /-- It stops counting as outstanding. -/
  | settle
  deriving Repr, DecidableEq

structure Engine where
  /-- Requests `0 .. count - 1` have entered `submit`. -/
  reqs : Nat → Pending
  count : Nat := 0
  queues : IoPriority → List Nat := fun _ => []
  chunk_owner : Nat → Option InflightChunk := fun _ => none
  /-- The chunks with the submitters, the backend or in `failed_q_`, and where each is. -/
  wire : List PickedChunk := []
  stage : Nat → Stage := fun _ => .picked
  next_chunk_id : Nat := 1
  outstanding_requests : Int := 0
  p0_outstanding : Nat := 0
  src_outstanding : Nat → Nat := fun _ => 0
  src_inflight : Nat → Nat := fun _ => 0
  static_split_bytes : Nat → Nat := fun _ => 0
  src_health : SourceHealth := {}
  thermal : ThermalGate := {}
  inflight_ops : Nat := 0
  inflight_bytes : Nat := 0
  inflight_class : IoPriority → Nat := fun _ => 0
  tune : Tuning := {}
  p0_qd_tuned : Nat := 8
  p0_inflight_tuned : Nat := 32 * 2 ^ 20
  /-- The request the dispatcher is in `finish` with. -/
  finishing : Option (Nat × FinishStep) := none
  /-- The calls of `cancel` under way: the request, and whether its charges are given back. -/
  cancel_calls : List (Nat × Bool) := []

namespace Engine

def set_req (s : Engine) (p : Nat) (r : Pending) : Engine :=
  { s with reqs := Function.update s.reqs p r }

/-! ### submit -/

/-- The sources that hold the shard, are open, not dropped and not resting. -/
def candidates (cfg : Config) (s : Engine) (row : Nat → Option Nat) : Mask :=
  s.thermal.live_mask (s.src_health.live_mask fun i =>
    decide (i < kMaxIoSources) && (row i).any fun f => (cfg.files f).is_open)

/-- The outcome of routing. -/
inductive Route where
  | unrouted
  | whole (source file : Nat)
  | striped (mask : Mask) (row : Nat → Option Nat)

def route (cfg : Config) (s : Engine) (req : IoRequest) : Route :=
  if cfg.mirrors_on && cfg.route_classes req.priority then
    match cfg.alts req.file with
    | none => .unrouted
    | some row =>
      let mask := s.candidates cfg row
      let statik := cfg.static_split && req.priority == .BlockingMiss
      if cfg.stripe && req.priority == .BlockingMiss && 1 < popcount mask then .striped mask row
      else
        let pick :=
          if statik then cfg.pick_static s.static_split_bytes mask req.bytes
          else cfg.pick_source s.src_outstanding mask req.bytes
        if pick < kMaxIoSources then
          match row pick with
          | some file => .whole pick file
          | none => .unrouted
        else .unrouted
  else .unrouted

def bump (f : Nat → Nat) (s n : Nat) : Nat → Nat := Function.update f s (f s + n)

/-- The first section of `submit`: the request enters, charged to the source it is routed to. -/
def enter (cfg : Config) (s : Engine) (req : IoRequest) : Engine :=
  let fresh : Pending := { req, origin := req.file }
  match s.route cfg req with
  | .unrouted => { s.set_req s.count fresh with count := s.count + 1 }
  | .striped mask row =>
    { s.set_req s.count { fresh with stripe_mask := some mask, src_file := row } with
      count := s.count + 1 }
  | .whole source file =>
    let r :=
      { fresh with
        req := { req with file }
        source
        routed := true
        primary := if source ≠ 0 then some req.file else none
        started := fun i => i == source }
    { s.set_req s.count r with
      count := s.count + 1
      src_outstanding := bump s.src_outstanding source req.bytes
      static_split_bytes := bump s.static_split_bytes source req.bytes
      src_inflight := bump s.src_inflight source 1 }

/-- The two checks before the guard over the routed bytes is armed. -/
def check_early (req : IoRequest) : Result Unit :=
  if req.dst = 0 then fail .InvalidArgument "IoRequest has no destination"
  else if req.bytes = 0 then fail .InvalidArgument "IoRequest has zero length"
  else .ok ()

/-- The checks the guard covers. -/
def check_guarded (cfg : Config) (req : IoRequest) : Result Unit :=
  let a := cfg.alignment
  let f := cfg.files req.file
  if f.unbuffered && !is_aligned req.file_off a then
    fail .InvalidArgument s!"unbuffered read offset {req.file_off} is not {a}-aligned"
  else if f.unbuffered && !is_aligned req.dst a then
    fail .InvalidArgument "unbuffered read destination is not sector-aligned"
  else if f.unbuffered && !is_aligned req.bytes a then
    fail .InvalidArgument s!"unbuffered read length {req.bytes} is not {a}-aligned"
  else if min req.bytes (f.size - req.file_off) = 0 then
    fail .OutOfRange (s!"read at {req.file_off} is entirely past the end of " ++
      s!"'{f.path}' ({f.size} B)")
  else .ok ()

/-- `RouteGuard`: the routed bytes go back. -/
def give_back_route (s : Engine) (r : Pending) : Engine :=
  if r.routed then
    { s with
      src_outstanding := Function.update s.src_outstanding r.source
        (s.src_outstanding r.source - r.req.bytes)
      src_inflight := Function.update s.src_inflight r.source (s.src_inflight r.source - 1) }
  else s

/-- What routing the chunks of a striped request one by one writes. -/
structure Striping where
  outstanding : Nat → Nat
  inflight : Nat → Nat
  chunk_src : List Nat := []
  charged : Nat → Nat := fun _ => 0
  used : Mask := fun _ => false

/-- The source of the next chunk; the primary when the pick does not hold the shard. -/
def stripe_source (cfg : Config) (mask : Mask) (row : Nat → Option Nat) (t : Striping)
    (c : Chunk) : Nat :=
  let pick := cfg.pick_source t.outstanding mask c.bytes
  if pick < kMaxIoSources ∧ (row pick).isSome then pick else 0

def stripe_chunk (cfg : Config) (mask : Mask) (row : Nat → Option Nat) (t : Striping)
    (c : Chunk) : Striping :=
  let src := stripe_source cfg mask row t c
  { outstanding := bump t.outstanding src c.bytes
    inflight := if t.used src then t.inflight else bump t.inflight src 1
    chunk_src := t.chunk_src ++ [src]
    charged := bump t.charged src c.bytes
    used := Function.update t.used src true }

/-- The request with its chunks planned. -/
def planned (cfg : Config) (r : Pending) : Pending :=
  let chunk := if r.req.priority = .BlockingMiss then cfg.p0_chunk_bytes else cfg.bg_chunk_bytes
  { r with
    phase := .planned
    chunks := plan_chunks r.req.file_off r.req.bytes chunk cfg.alignment
    required_bytes := min r.req.bytes ((cfg.files r.req.file).size - r.req.file_off) }

/-- The chunks of a striped request, charged to their sources. -/
def stripe (cfg : Config) (s : Engine) (r : Pending) (mask : Mask) : Striping :=
  r.chunks.foldl (stripe_chunk cfg mask r.src_file)
    { outstanding := s.src_outstanding, inflight := s.src_inflight }

/-- The striped request; a share on a mirror makes it eligible for the retry. -/
def striped (r : Pending) (t : Striping) : Pending :=
  { r with
    chunk_src := t.chunk_src
    src_charged := t.charged
    src_used := t.used
    started := t.used
    primary := if any_mirror t.used then some r.origin else r.primary }

/-- The checks of `submit`, the plan and the striping. -/
def plan (cfg : Config) (s : Engine) (p : Nat) : Engine :=
  let r := s.reqs p
  match check_early r.req with
  | .error _ => s.set_req p { r with phase := .rejected }
  | .ok _ =>
    match check_guarded cfg r.req with
    | .error _ =>
      (s.give_back_route r).set_req p { r with phase := .rejected, started := fun _ => false }
    | .ok _ =>
      let r := planned cfg r
      match r.stripe_mask with
      | none => s.set_req p r
      | some mask =>
        let t := s.stripe cfg r mask
        { s.set_req p (striped r t) with
          src_outstanding := t.outstanding
          src_inflight := t.inflight }

/-- The request is in its queue: `submit` returns its id. -/
def enqueue (s : Engine) (p : Nat) : Engine :=
  let r := s.reqs p
  let pr := r.req.priority
  { s.set_req p { r with phase := .queued } with
    queues := Function.update s.queues pr (s.queues pr ++ [p])
    p0_outstanding := if pr = .BlockingMiss then s.p0_outstanding + 1 else s.p0_outstanding
    outstanding_requests := s.outstanding_requests + 1 }

/-! ### cancel -/

def priorities : List IoPriority := [.BlockingMiss, .Lookahead, .Engram, .Backfill]

/-- The request `cancel` has taken. -/
def taken (r : Pending) (raced : Bool) : Pending :=
  { r with phase := .cancelled, raced := r.raced || raced }

/-- The locked section of `cancel`. -/
def cancel (s : Engine) (p : Nat) : Result Unit × Engine :=
  match priorities.find? fun pr => decide (p ∈ s.queues pr) with
  | none => (fail .NotFound s!"no queued request {p}", s)
  | some pr =>
    let r := s.reqs p
    if r.next_chunk ≠ 0 then (fail .FailedPrecondition "request is already in flight", s)
    else
      let raced := s.finishing == some (p, .requeue)
      (.ok (), { s.set_req p (taken r raced) with
        queues := Function.update s.queues pr ((s.queues pr).erase p)
        outstanding_requests := s.outstanding_requests - 1
        cancel_calls := (p, false) :: s.cancel_calls })

/-- Charges of a striped request given back, source by source. -/
def give_back_stripe (s : Engine) (r : Pending) : Engine :=
  { s with
    src_outstanding := fun i =>
      if i < kMaxIoSources ∧ r.src_used i then s.src_outstanding i - r.src_charged i
      else s.src_outstanding i
    src_inflight := fun i =>
      if i < kMaxIoSources ∧ r.src_used i then s.src_inflight i - 1 else s.src_inflight i }

/-- No charge of a striped request is left, and no source counts it. -/
def unstriped (r : Pending) : Pending :=
  { r with
    src_charged := fun i => if i < kMaxIoSources ∧ r.src_used i then 0 else r.src_charged i
    started := fun i => if i < kMaxIoSources ∧ r.src_used i then false else r.started i }

/-- `cancel` after the lock: the charges of a striped request go back. -/
def uncharge (s : Engine) (p : Nat) : Engine :=
  let r := s.reqs p
  let s := { s with cancel_calls := (p, true) :: s.cancel_calls.erase (p, false) }
  if any_source r.src_used then (s.give_back_stripe r).set_req p (unstriped r) else s

/-- `cancel` calls the request back. -/
def call_cancelled (s : Engine) (p : Nat) : Engine :=
  let r := s.reqs p
  { s.set_req p { r with phase := .done, cancels := r.cancels + 1 } with
    cancel_calls := s.cancel_calls.erase (p, true) }

/-! ### Issuing chunks -/

def exhausted (r : Pending) : Bool := r.chunks.length ≤ r.next_chunk

/-- Fully issued requests leave their queue when they are at its front. -/
def pop_issued (s : Engine) : Engine :=
  { s with queues := fun pr => (s.queues pr).dropWhile fun p => exhausted (s.reqs p) }

def rescue_qd (s : Engine) : Nat := min s.tune.engram_qd (s.tune.p0_qd + kEngramWaitChunks)

/-- A waiter for engram rows lets the front of P2 pass a P0 backlog. -/
def rescue (s : Engine) (waiters : Nat) : Option Nat :=
  match s.queues .Engram with
  | p :: _ =>
    if waiters ≠ 0 ∧ s.queues .BlockingMiss ≠ [] ∧ (s.reqs p).req.bytes ≤ 2 * kPageSize ∧
        s.inflight_ops < s.rescue_qd ∧ s.inflight_class .Engram < kEngramWaitChunks ∧
        s.inflight_bytes < s.tune.bg_inflight_bytes then some p
    else none
  | [] => none

/-- The front of the highest class with one. -/
def first_queued (s : Engine) : Option Nat :=
  (priorities.find? fun pr => !(s.queues pr).isEmpty).bind fun pr => (s.queues pr).head?

/-- The ceilings of the class being issued; `recent` says whether P0 work is recent. -/
def capped (s : Engine) (p : Nat) (rescued recent : Bool) : Bool :=
  let cls := (s.reqs p).req.priority
  let qd_cap :=
    if rescued then s.rescue_qd
    else if cls = .BlockingMiss then s.tune.p0_qd
    else if cls = .Engram then s.tune.engram_qd
    else s.tune.bg_qd
  let byte_cap := if cls = .BlockingMiss then s.tune.p0_inflight_bytes else s.tune.bg_inflight_bytes
  let background := cls == .Lookahead || cls == .Backfill || (s.tune.throttle_engram && cls == .Engram)
  let bg := s.inflight_class .Lookahead + s.inflight_class .Backfill +
    if s.tune.throttle_engram then s.inflight_class .Engram else 0
  decide (qd_cap ≤ s.inflight_ops) || decide (byte_cap ≤ s.inflight_bytes) ||
    (background && recent && decide (s.tune.bg_cap_busy ≤ bg))

/-- The request to the backend for one chunk. -/
def chunk_request (cfg : Config) (r : Pending) (cid : Nat) (src : Option Nat) (c : Chunk) :
    ChunkRequest where
  chunk_id := cid
  file := match src with
    | none => r.req.file
    | some i => (r.src_file i).getD r.req.file
  file_off := c.off
  bytes := c.bytes
  min_bytes := c.in_file (cfg.files r.req.file).size
  dst := c.off - r.req.file_off

/-- The next chunk of a request, as it is picked. -/
def picked (cfg : Config) (r : Pending) (p cid : Nat) (c : Chunk) : PickedChunk where
  owner := p
  index := r.next_chunk
  src := r.chunk_src[r.next_chunk]?
  req := chunk_request cfg r cid r.chunk_src[r.next_chunk]? c

def issued (r : Pending) : Pending :=
  { r with next_chunk := r.next_chunk + 1, issued_chunks := r.issued_chunks + 1 }

/-- The next chunk of `p` goes out. -/
def issue_chunk (cfg : Config) (s : Engine) (p : Nat) : Engine :=
  let r := s.reqs p
  match r.chunks[r.next_chunk]? with
  | none => s
  | some c =>
    let cid := s.next_chunk_id
    let w := picked cfg r p cid c
    { s.set_req p (issued r) with
      next_chunk_id := cid + 1
      chunk_owner := Function.update s.chunk_owner cid (some w.inflight)
      wire := w :: s.wire
      stage := Function.update s.stage cid .picked
      inflight_ops := s.inflight_ops + 1
      inflight_bytes := s.inflight_bytes + c.bytes
      inflight_class := Function.update s.inflight_class r.req.priority
        (s.inflight_class r.req.priority + 1) }

/-- The request an iteration of `issue_ready_chunks` takes, and whether it is rescued. -/
def select (s : Engine) (waiters : Nat) : Option (Nat × Bool) :=
  match s.rescue waiters with
  | some p => some (p, true)
  | none => s.first_queued.map fun p => (p, false)

/-- One iteration of `issue_ready_chunks`. -/
def issue (cfg : Config) (s : Engine) (waiters : Nat) (recent : Bool) : Engine :=
  let s := s.pop_issued
  match s.select waiters with
  | none => s
  | some (p, rescued) => if s.capped p rescued recent then s else s.issue_chunk cfg p

/-! ### Completions -/

/-- The bytes a transfer leaves in the destination: what it moved of a chunk that succeeded,
    anything in the rest of the chunk's range. -/
def transferred (cfg : Config) (r : Pending) (w : PickedChunk) (moved : Nat) (ok : Bool)
    (junk : Nat → UInt8) : Nat → UInt8 := fun i =>
  if w.req.dst ≤ i ∧ i < w.req.dst + w.req.bytes then
    if ok ∧ i - w.req.dst < moved then
      (cfg.files w.req.file).content (w.req.file_off + (i - w.req.dst))
    else junk i
  else r.buffer i

/-- The request whose chunk the backend is done with. -/
def landed (cfg : Config) (r : Pending) (w : PickedChunk) (moved : Nat) (status : Status)
    (junk : Nat → UInt8) : Pending :=
  let ok := status.code == .Ok
  { r with
    buffer := transferred cfg r w moved ok junk
    primary_failed := r.primary_failed || (!ok && w.req.file == r.origin) }

def land (cfg : Config) (s : Engine) (w : PickedChunk) (moved : Nat) (status : Status)
    (junk : Nat → UInt8) : Engine :=
  { s.set_req w.owner (landed cfg (s.reqs w.owner) w moved status junk) with
    wire := s.wire.erase w }

/-- The request after one completion. -/
def counted (r : Pending) (moved : Nat) (status : Status) : Pending :=
  let r := { r with done_chunks := r.done_chunks + 1, bytes_moved := r.bytes_moved + moved }
  if status.code != .Ok && !r.failed then
    { r with failed := true, status, next_chunk := r.chunks.length }
  else r

/-- A striped chunk stops counting against its drive, in the router ... -/
def discharge (outstanding : Nat → Nat) (r : Pending) (c : InflightChunk) : Nat → Nat :=
  match c.src with
  | none => outstanding
  | some i => Function.update outstanding i (outstanding i - min c.bytes (r.src_charged i))

/-- ... and in the request. -/
def discharged (r : Pending) (c : InflightChunk) (ok : Bool) : Pending :=
  match c.src with
  | none => r
  | some i =>
    { r with
      src_charged := Function.update r.src_charged i (r.src_charged i - min c.bytes (r.src_charged i))
      src_err := if ok then r.src_err else Function.update r.src_err i true }

/-- A request whose last chunk is in goes to `finish`. -/
def completed (r : Pending) : Pending :=
  if r.complete then { r with phase := .finishing } else r

def handle_completion (s : Engine) (cid moved : Nat) (status : Status) : Engine :=
  match s.chunk_owner cid with
  | none => s
  | some c =>
    let cls := (s.reqs c.owner).req.priority
    let r := counted (s.reqs c.owner) moved status
    let r' := discharged r c (status.code == .Ok)
    { s.set_req c.owner (completed r') with
      chunk_owner := Function.update s.chunk_owner cid none
      inflight_ops := s.inflight_ops - 1
      inflight_bytes := s.inflight_bytes - c.bytes
      inflight_class := Function.update s.inflight_class cls (s.inflight_class cls - 1)
      src_outstanding := discharge s.src_outstanding r c
      finishing := if r'.complete then some (c.owner, .release) else s.finishing }

/-! ### finish -/

/-- Every source that carried a share is told how it went. -/
def note_stripe (h : SourceHealth) (r : Pending) : SourceHealth :=
  (List.range kMaxIoSources).foldl
    (fun h i => if r.src_used i then h.note_result i (!r.src_err i) else h) h

/-- The charges of a request that is through. -/
def give_back (s : Engine) (r : Pending) : Engine :=
  if r.routed then
    { s.give_back_route r with src_health := s.src_health.note_result r.source r.result.ok }
  else if any_source r.src_used then
    { s.give_back_stripe r with src_health := note_stripe s.src_health r }
  else s

def released (r : Pending) : Pending :=
  if r.routed then { r with started := fun _ => false }
  else if any_source r.src_used then unstriped r
  else r

/-- The charges go back, and the request is retried or called back. -/
def release (s : Engine) (p : Nat) : Engine :=
  let r := s.reqs p
  { (s.give_back r).set_req p (released r) with
    finishing := some (p, if r.fails_over then .reset else .deliver r.result) }

/-- The fields of a retried request, written without the lock. -/
def reset (s : Engine) (p : Nat) : Engine :=
  { s.set_req p (s.reqs p).retry with finishing := some (p, .requeue) }

/-- To the front of its queue; it may still be in it. -/
def requeue (s : Engine) (p : Nat) : Engine :=
  let r := s.reqs p
  let pr := r.req.priority
  { s.set_req p { r with phase := .queued } with
    queues := Function.update s.queues pr (p :: (s.queues pr).filter fun q => q != p)
    finishing := none }

def deliver (s : Engine) (p : Nat) (res : IoResult) : Engine :=
  let r := s.reqs p
  { s.set_req p { r with phase := .done, results := r.results ++ [res] } with
    finishing := some (p, .settle) }

def settle (s : Engine) (p : Nat) : Engine :=
  { s with
    outstanding_requests := s.outstanding_requests - 1
    p0_outstanding :=
      if (s.reqs p).req.priority = .BlockingMiss then s.p0_outstanding - 1 else s.p0_outstanding
    finishing := none }

def set_p0_depth (s : Engine) (max_queue_depth qd bytes : Nat) : Engine :=
  let qd := if qd ≠ 0 then qd else s.p0_qd_tuned
  { s with tune := { s.tune with
      p0_qd := min qd max_queue_depth
      p0_inflight_bytes := if bytes ≠ 0 then bytes else s.p0_inflight_tuned } }

/-! ### Steps -/

/-- Actions of the threads. -/
inductive Action where
  /-- `submit` as far as routing; a file that is not open is refused. -/
  | submit (req : IoRequest)
  | plan (p : Nat)
  | enqueue (p : Nat)
  | cancel (p : Nat)
  | uncharge (p : Nat)
  | call_cancelled (p : Nat)
  | issue (waiters : Nat) (recent : Bool)
  /-- `Backend::submit` of a chunk, accepted or refused. -/
  | do_submit (cid : Nat) (answer : Result Unit)
  /-- A completion reaped from the backend. -/
  | poll (cid moved : Nat) (status : Status) (junk : Nat → UInt8)
  /-- A refusal drained from `failed_q_`. -/
  | refusal (cid : Nat)
  /-- The next part of `finish`. -/
  | finish
  | drop_source (src : Nat)
  | readmit_source (src : Nat)
  | thermal (src : Nat) (temp_c : Int)
  | set_p0_depth (max_queue_depth qd bytes : Nat)

/-- The next part of `finish`. -/
def finish (s : Engine) : Option Engine :=
  match s.finishing with
  | none => none
  | some (p, .release) => some (s.release p)
  | some (p, .reset) => some (s.reset p)
  | some (p, .requeue) => some (s.requeue p)
  | some (p, .deliver r) => some (s.deliver p r)
  | some (p, .settle) => some (s.settle p)

/-- The chunk in flight under an id. -/
def find_chunk (s : Engine) (cid : Nat) : Option PickedChunk :=
  s.wire.find? fun w => w.req.chunk_id == cid

def step (cfg : Config) (s : Engine) : Action → Option Engine
  | .submit req => if (cfg.files req.file).is_open then some (s.enter cfg req) else some s
  | .plan p => if p < s.count ∧ (s.reqs p).phase = .routed then some (s.plan cfg p) else none
  | .enqueue p => if p < s.count ∧ (s.reqs p).phase = .planned then some (s.enqueue p) else none
  | .cancel p => some (s.cancel p).2
  | .uncharge p => if (p, false) ∈ s.cancel_calls then some (s.uncharge p) else none
  | .call_cancelled p => if (p, true) ∈ s.cancel_calls then some (s.call_cancelled p) else none
  | .issue waiters recent =>
    if s.finishing = none then some (s.issue cfg waiters recent) else none
  | .do_submit cid answer =>
    if s.stage cid = .picked then
      let stage := match answer with
        | .ok _ => .accepted
        | .error e => .refused e
      some { s with stage := Function.update s.stage cid stage }
    else none
  | .poll cid moved status junk =>
    match s.find_chunk cid with
    | some w =>
      if s.finishing = none ∧ s.stage cid = .accepted then
        some ((s.land cfg w moved status junk).handle_completion cid moved status)
      else none
    | none => none
  | .refusal cid =>
    match s.find_chunk cid, s.stage cid with
    | some w, .refused status =>
      if s.finishing = none then
        some ((s.land cfg w 0 status (s.reqs w.owner).buffer).handle_completion cid 0 status)
      else none
    | _, _ => none
  | .finish => s.finish
  | .drop_source src => some { s with src_health := s.src_health.drop src }
  | .readmit_source src =>
    if s.src_health.dropped src ∧ s.src_inflight src = 0 then
      some { s with src_health := s.src_health.readmit src }
    else none
  | .thermal src temp_c => some { s with thermal := s.thermal.update src temp_c }
  | .set_p0_depth max_queue_depth qd bytes => some (s.set_p0_depth max_queue_depth qd bytes)

end Engine

/-- Runs start with a started engine and its sources declared; no request has come in. -/
def engine_system (cfg : Config) : LTS.System Engine Engine.Action :=
  .ofNext
    (fun s => s.count = 0 ∧ s.queues = (fun _ => []) ∧ s.chunk_owner = (fun _ => none) ∧
      s.wire = [] ∧ s.outstanding_requests = 0 ∧ s.p0_outstanding = 0 ∧
      s.src_outstanding = (fun _ => 0) ∧ s.src_inflight = (fun _ => 0) ∧ s.finishing = none ∧
      s.cancel_calls = [])
    (Engine.step cfg)

end CachedMoe.Storage
