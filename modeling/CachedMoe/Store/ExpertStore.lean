import Mathlib.Data.Rat.Defs
import Mathlib.Algebra.Order.Ring.Rat
import Mathlib.Logic.Function.Basic
import CachedMoe.Store.Slab

/-! # Expert store

    `store/expert_store.h`, `store/expert_store.cpp`: where every weight block is, and
    the Free → Filling → Resident state machine over the slab pool.

    One mutex guards the tables and every public method holds it for its whole body, so
    an operation is one function from the store to its result and the next store. The
    exception is `evict_key`, which drops the lock between finding the slot and
    `evict(slot)`; since `evict` is an operation of its own, with any slot, the
    interleavings of its two halves are runs of the model as well.

    Event counters and token stamps are natural numbers; the four occupancy counters
    wrap as `uint32_t`, addresses as `uint64_t`. Heat is exact. -/

namespace CachedMoe.Store

open CachedMoe

/-! ### Data model -/

/-- One sector-aligned read of the manifest. -/
structure Run where
  file : Nat
  aligned_off : Nat
  aligned_bytes : Nat
  slot_offset : Nat
  deriving Repr, DecidableEq

/-- The manifest's record of one expert. The part offsets are slot-relative: the last
    field is the manifest's promise that each part starts inside the slot. -/
structure ExpertEntry where
  runs : List Run
  slot_bytes : Nat
  part_offset : ExpertPart → Nat
  part_bytes : ExpertPart → Nat
  part_in_slot : ∀ p, part_offset p < slot_bytes

/-- A read that has to land in a slot before it is Resident. -/
structure FillRun where
  file : Nat := 0
  file_off : Nat := 0
  bytes : Nat := 0
  dst : Nat := 0
  dev_dst : Nat := kNoDeviceAddress
  deriving Repr, DecidableEq

structure ExpertSlot where
  key : ExpertKey := {}
  state : SlotState := .Free
  tier : Tier := .Cached
  slab : Nat := 0
  slot : Nat := 0
  host_ptr : Nat := 0
  dev_addr : Nat := kNoDeviceAddress
  last_use_token : Nat := 0
  heat : ℚ := 0
  /-- Must be at most the GPU's completed value before eviction. -/
  guard_timeline : Nat := 0
  runs_total : Nat := 0
  runs_done : Nat := 0
  run_failed : Bool := false
  part_offset : ExpertPart → Nat := fun _ => 0
  part_bytes : ExpertPart → Nat := fun _ => 0

structure ExpertStoreStats where
  lookups : Nat := 0
  hits : Nat := 0
  misses : Nat := 0
  fills_started : Nat := 0
  fills_ok : Nat := 0
  fills_failed : Nat := 0
  runs_started : Nat := 0
  runs_done : Nat := 0
  evictions : Nat := 0
  eviction_blocked_by_guard : Nat := 0
  resident : Nat := 0
  filling : Nat := 0
  free : Nat := 0
  pinned : Nat := 0
  hits_path_a : Nat := 0
  hits_path_b : Nat := 0
  fills_path_a : Nat := 0
  fills_path_b : Nat := 0
  deriving Repr, DecidableEq

namespace ExpertStoreStats

/-- The counters of a fill that starts. -/
def fill_started (stats : ExpertStoreStats) : ExpertStoreStats :=
  { stats with
    free := dec32 stats.free
    filling := inc32 stats.filling
    fills_started := stats.fills_started + 1 }

/-- The counters of a fill that ended well; `on_b` is the path the slot lives on. -/
def fill_ok (stats : ExpertStoreStats) (on_b pinned : Bool) : ExpertStoreStats :=
  { stats with
    filling := dec32 stats.filling
    resident := inc32 stats.resident
    fills_ok := stats.fills_ok + 1
    fills_path_b := if on_b then stats.fills_path_b + 1 else stats.fills_path_b
    fills_path_a := if on_b then stats.fills_path_a else stats.fills_path_a + 1
    pinned := if pinned then inc32 stats.pinned else stats.pinned }

/-- The counters of a failed fill, the free slot apart. -/
def fill_failed (stats : ExpertStoreStats) : ExpertStoreStats :=
  { stats with
    filling := dec32 stats.filling
    fills_failed := stats.fills_failed + 1 }

/-- The counters of an eviction, the free slot apart. -/
def evicted (stats : ExpertStoreStats) : ExpertStoreStats :=
  { stats with
    resident := dec32 stats.resident
    evictions := stats.evictions + 1 }

end ExpertStoreStats

/-- Which memory path `evict_lru` looks at first. -/
inductive EvictPath where
  | Off | PreferA | PreferB
  deriving Repr, DecidableEq

structure CacheConfig where
  slots_per_slab : UInt32 := 100
  budget_bytes : Nat := 2 * 2 ^ 30
  deriving Repr, DecidableEq

/-- `UINT32_MAX`: no slab is on path B. -/
def kAllPathA : Nat := 2 ^ 32 - 1

/-- The members of `ExpertStore`. -/
structure ExpertStore where
  pool : SlabPool := {}
  layers : Nat := 0
  experts_per_layer : Nat := 0
  path_b_first_slab : Nat := kAllPathA
  evict_path : EvictPath := .Off
  fixed_cache : Bool := false
  cache_frozen : Bool := false
  /-- `slots_.size()`. -/
  slots_size : Nat := 0
  slots : Nat → ExpertSlot := fun _ => {}
  /-- The back of the vector is the head of the list. -/
  free_list : List Nat := []
  index : ExpertKey → Option Nat := fun _ => none
  /-- The flat `[layer][expert][part]` pointer table. -/
  table : Nat → Nat := fun _ => kNoDeviceAddress
  completed_timeline : Nat := 0
  stats : ExpertStoreStats := {}

/-- What `begin_fill` hands to its caller. -/
structure Reservation where
  slot : Nat
  addr : SlotAddress
  run_count : Nat := 0
  runs : List FillRun := []
  deriving Repr, DecidableEq

namespace ExpertStore

/-! ### Tables -/

def table_index (st : ExpertStore) (k : ExpertKey) (p : ExpertPart) : Nat :=
  (k.layer.toNat * st.experts_per_layer + k.expert.toNat) * kExpertPartCount + p.toNat

def key_in_range (st : ExpertStore) (k : ExpertKey) : Bool :=
  k.layer.toNat < st.layers && k.expert.toNat < st.experts_per_layer

/-- Writes a slot and, with it, the statistics. -/
def set_slot (st : ExpertStore) (slot : Nat) (s : ExpertSlot)
    (stats : ExpertStoreStats := st.stats) : ExpertStore :=
  { st with slots := Function.update st.slots slot s, stats := stats }

/-- Whether a slot lives on memory path B. -/
def on_path_b (st : ExpertStore) (s : ExpertSlot) : Bool :=
  st.path_b_first_slab ≤ s.slab

/-- The device address, or the host pointer of a host-only backing. -/
def slot_base (s : ExpertSlot) : Nat :=
  if s.dev_addr ≠ 0 then s.dev_addr else s.host_ptr

/-- Writes `v p` over the six entries of a key's row. -/
def write_row (st : ExpertStore) (k : ExpertKey) (v : ExpertPart → Nat) : Nat → Nat :=
  ExpertPart.all.foldl (fun t p => Function.update t (st.table_index k p) (v p)) st.table

def publish_locked (st : ExpertStore) (slot : Nat) : ExpertStore :=
  let s := st.slots slot
  let base := slot_base s
  { st with table := st.write_row s.key fun p =>
      if base ≠ 0 then add64 base (s.part_offset p) else kNoDeviceAddress }

def unpublish_locked (st : ExpertStore) (slot : Nat) : ExpertStore :=
  { st with table := st.write_row (st.slots slot).key fun _ => kNoDeviceAddress }

/-! ### Lifetime -/

/-- The slot `init` builds for index `i`. `address` cannot fail there
    (`SlabPool.address_ok`). -/
def fresh_slot (pool : SlabPool) (i : Nat) : ExpertSlot :=
  match pool.address i with
  | .error _ => {}
  | .ok a =>
    { slot := i, slab := (pool.decompose i).1, host_ptr := a.host_ptr, dev_addr := a.dev_addr,
      state := .Free }

def init (st : ExpertStore) (backing : Option SlabBacking) (cache : CacheConfig)
    (layers experts_per_layer : Nat) : Result Unit × ExpertStore :=
  if layers = 0 ∨ experts_per_layer = 0 then
    (fail .InvalidArgument "ExpertStore needs a non-empty (layer, expert) space", st)
  else
    let sc : SlabConfig :=
      { slots_per_slab := cache.slots_per_slab
        slot_bytes := layout.kExpertSlotBytes
        budget_bytes := cache.budget_bytes }
    match st.pool.init backing sc with
    | (.error e, pool) => (.error e, { st with pool := pool })
    | (.ok (), pool) =>
      (.ok (), { st with
        pool := pool
        layers := layers
        experts_per_layer := experts_per_layer
        slots_size := pool.slot_count
        slots := fresh_slot pool
        free_list := List.range pool.slot_count
        index := fun _ => none
        table := fun _ => kNoDeviceAddress
        stats := { free := pool.slot_count }
        fixed_cache := false
        cache_frozen := false })

def reset (st : ExpertStore) : ExpertStore :=
  { st with
    slots_size := 0
    slots := fun _ => {}
    free_list := []
    index := fun _ => none
    table := fun _ => kNoDeviceAddress
    layers := 0
    experts_per_layer := 0
    completed_timeline := 0
    stats := {}
    fixed_cache := false
    cache_frozen := false
    pool := st.pool.reset }

def set_fixed_cache (st : ExpertStore) (enabled : Bool) : ExpertStore :=
  { st with
    fixed_cache := enabled
    cache_frozen := enabled && st.slots_size != 0 && st.stats.resident == st.slots_size }

/-! ### Hot path -/

def resident (st : ExpertStore) (key : ExpertKey) : Bool :=
  match st.index key with
  | none => false
  | some i => (st.slots i).state = .Resident

def lookup (st : ExpertStore) (key : ExpertKey) (token guard : Nat) :
    Option SlotAddress × ExpertStore :=
  let st := { st with stats := { st.stats with lookups := st.stats.lookups + 1 } }
  let miss := { st with stats := { st.stats with misses := st.stats.misses + 1 } }
  match st.index key with
  | none => (none, miss)
  | some i =>
    let s := st.slots i
    if s.state ≠ .Resident then (none, miss)
    else
      let s := { s with
        last_use_token := if st.fixed_cache then s.last_use_token else token
        guard_timeline := max s.guard_timeline guard }
      (some ⟨s.host_ptr, s.dev_addr⟩, st.set_slot i s { st.stats with
        hits := st.stats.hits + 1
        hits_path_b := if st.on_path_b s then st.stats.hits_path_b + 1 else st.stats.hits_path_b
        hits_path_a := if st.on_path_b s then st.stats.hits_path_a else st.stats.hits_path_a + 1 })

/-! ### Fill path -/

/-- A slot's contents once it is taken for `key`. A new occupant does not inherit the
    LRU stamp of the evicted one. -/
def reserved_slot (s : ExpertSlot) (key : ExpertKey) (tier : Tier) : ExpertSlot :=
  { s with
    key := key
    state := .Filling
    last_use_token := 0
    tier := tier
    guard_timeline := 0
    runs_done := 0
    run_failed := false }

/-- Takes a free slot for `key` and moves it to Filling. -/
def reserve_locked (st : ExpertStore) (key : ExpertKey) (tier : Tier) :
    Result Reservation × ExpertStore :=
  if st.cache_frozen then (fail .ResourceExhausted "initial mask cache is frozen", st)
  else if ¬ st.key_in_range key then
    (fail .OutOfRange s!"expert ({key.layer}, {key.expert}) is outside the table", st)
  else
    match st.index key with
    | some i =>
      let name := slot_state_name (st.slots i).state
      (fail .AlreadyExists s!"expert ({key.layer}, {key.expert}) is already {name}", st)
    | none =>
      match st.free_list with
      | [] => (fail .ResourceExhausted "no free slot; evict before filling", st)
      | slot :: rest =>
        let s := reserved_slot (st.slots slot) key tier
        (.ok { slot := slot, addr := ⟨s.host_ptr, s.dev_addr⟩ },
          { st.set_slot slot s st.stats.fill_started with
            free_list := rest
            index := Function.update st.index key (some slot) })

/-- A reserved slot with the number of its reads and the places of its parts. -/
def laid_out (s : ExpertSlot) (runs_total : Nat) (part_offset part_bytes : ExpertPart → Nat) :
    ExpertSlot :=
  { s with runs_total := runs_total, part_offset := part_offset, part_bytes := part_bytes }

/-- The reads of a manifest entry with their destinations resolved. -/
def fill_run (s : ExpertSlot) (run : Run) : FillRun :=
  { file := run.file
    file_off := run.aligned_off
    bytes := run.aligned_bytes
    dst := if s.host_ptr ≠ 0 then add64 s.host_ptr run.slot_offset else 0
    dev_dst := if s.dev_addr ≠ 0 then add64 s.dev_addr run.slot_offset else kNoDeviceAddress }

/-- `begin_fill` over a manifest entry: one `IoRequest` per run is the caller's job. -/
def begin_fill (st : ExpertStore) (key : ExpertKey) (entry : ExpertEntry) (tier : Tier) :
    Result Reservation × ExpertStore :=
  let count := entry.runs.length
  if count = 0 then
    (fail .InvalidArgument
      s!"expert ({key.layer}, {key.expert}) has no runs in the manifest", st)
  else if count > layout.kMaxExpertRuns then
    (fail .InvalidArgument (s!"expert ({key.layer}, {key.expert}) has {count} runs, " ++
      s!"more than kMaxExpertRuns {layout.kMaxExpertRuns}"), st)
  else if entry.slot_bytes > st.pool.cfg.slot_bytes then
    (fail .InvalidArgument (s!"expert ({key.layer}, {key.expert}) needs {entry.slot_bytes} B " ++
      s!"but a slot is {st.pool.cfg.slot_bytes} B"), st)
  else
    match st.reserve_locked key tier with
    | (.error e, st) => (.error e, st)
    | (.ok res, st) =>
      let s := laid_out (st.slots res.slot) count entry.part_offset entry.part_bytes
      (.ok { res with run_count := count, runs := entry.runs.map (fill_run s) },
        st.set_slot res.slot s { st.stats with runs_started := st.stats.runs_started + count })

/-- The planar layout of a synthetic fill: `w1 | w1.scale | w2 | w2.scale | w3 | w3.scale`. -/
def planar_bytes (p : ExpertPart) : Nat :=
  if p.toNat % 2 ≠ 0 then layout.kExpertScaleBytesPerMat else layout.kExpertWeightBytesPerMat

def planar_offset (p : ExpertPart) : Nat :=
  ((ExpertPart.all.take p.toNat).map planar_bytes).sum

/-- `begin_fill` without a manifest: a single run covering the whole slot. -/
def begin_fill_synthetic (st : ExpertStore) (key : ExpertKey) (tier : Tier) :
    Result Reservation × ExpertStore :=
  match st.reserve_locked key tier with
  | (.error e, st) => (.error e, st)
  | (.ok res, st) =>
    let s := laid_out (st.slots res.slot) 1 planar_offset planar_bytes
    let run : FillRun :=
      { file := 0, file_off := 0, bytes := st.pool.cfg.slot_bytes, dst := s.host_ptr,
        dev_dst := s.dev_addr }
    (.ok { res with run_count := 1, runs := [run] },
      st.set_slot res.slot s { st.stats with runs_started := st.stats.runs_started + 1 })

/-- A slot given back; the tier and the LRU stamp stay as they were. -/
def released_slot (s : ExpertSlot) : ExpertSlot :=
  { s with
    key := {}
    state := .Free
    heat := 0
    guard_timeline := 0
    runs_total := 0
    runs_done := 0
    run_failed := false
    part_offset := fun _ => 0
    part_bytes := fun _ => 0 }

def release_locked (st : ExpertStore) (slot : Nat) : ExpertStore :=
  let s := st.slots slot
  { st.set_slot slot (released_slot s) { st.stats with free := inc32 st.stats.free } with
    index := Function.update st.index s.key none
    free_list := slot :: st.free_list }

/-- A slot all of whose runs landed; a stamp given while it was filling is kept. -/
def settled_slot (s : ExpertSlot) (token : Nat) : ExpertSlot :=
  { s with state := .Resident, last_use_token := max s.last_use_token token }

def settle_locked (st : ExpertStore) (slot : Nat) (ok : Bool) (token : Nat) : ExpertStore :=
  if ok then
    let s := settled_slot (st.slots slot) token
    let stats := st.stats.fill_ok (st.on_path_b s) (s.tier = .Pinned)
    { (st.set_slot slot s stats).publish_locked slot with
      cache_frozen := st.cache_frozen || (st.fixed_cache && stats.resident == st.slots_size) }
  else
    { st with stats := st.stats.fill_failed }.release_locked slot

/-- One run has landed; `true` when that was the last outstanding one. -/
def finish_run (st : ExpertStore) (slot : Nat) (ok : Bool) (token : Nat) :
    Result Bool × ExpertStore :=
  if slot ≥ st.slots_size then (fail .OutOfRange s!"slot {slot} out of range", st)
  else
    let s := st.slots slot
    if s.state ≠ .Filling then
      let name := slot_state_name s.state
      (fail .FailedPrecondition s!"slot {slot} is {name}, not filling", st)
    else if s.runs_done ≥ s.runs_total then
      (fail .FailedPrecondition s!"slot {slot} already has all {s.runs_total} runs reported", st)
    else
      let s := { s with runs_done := s.runs_done + 1, run_failed := s.run_failed || !ok }
      let st := st.set_slot slot s { st.stats with runs_done := st.stats.runs_done + 1 }
      if s.runs_done < s.runs_total then (.ok false, st)
      else (.ok true, st.settle_locked slot (!s.run_failed) token)

/-- Completes the whole fill at once, whatever is still outstanding. -/
def finish_fill (st : ExpertStore) (slot : Nat) (ok : Bool) (token : Nat) :
    Result Unit × ExpertStore :=
  if slot ≥ st.slots_size then (fail .OutOfRange s!"slot {slot} out of range", st)
  else
    let s := st.slots slot
    if s.state ≠ .Filling then
      let name := slot_state_name s.state
      (fail .FailedPrecondition s!"slot {slot} is {name}, not filling", st)
    else
      let st := st.set_slot slot { s with runs_done := s.runs_total }
        { st.stats with runs_done := st.stats.runs_done + (s.runs_total - s.runs_done) }
      (.ok (), st.settle_locked slot (ok && !s.run_failed) token)

/-! ### Eviction -/

/-- The common tail of `evict` and `evict_lru`. -/
def recycle (st : ExpertStore) (slot : Nat) : ExpertStore :=
  ({ st with stats := st.stats.evicted }.unpublish_locked slot).release_locked slot

def evict (st : ExpertStore) (slot : Nat) : Result Unit × ExpertStore :=
  if st.fixed_cache then (fail .FailedPrecondition "fixed mask cache forbids eviction", st)
  else if slot ≥ st.slots_size then (fail .OutOfRange s!"slot {slot} out of range", st)
  else
    let s := st.slots slot
    if s.state ≠ .Resident then
      let name := slot_state_name s.state
      (fail .FailedPrecondition s!"slot {slot} is {name}, not resident", st)
    else if s.tier = .Pinned then (fail .FailedPrecondition s!"slot {slot} is pinned", st)
    else if s.guard_timeline > st.completed_timeline then
      (fail .FailedPrecondition (s!"slot {slot} is guarded by timeline {s.guard_timeline} " ++
          s!"(completed {st.completed_timeline})"),
        { st with stats := { st.stats with
            eviction_blocked_by_guard := st.stats.eviction_blocked_by_guard + 1 } })
    else (.ok (), st.recycle slot)

def evict_key (st : ExpertStore) (key : ExpertKey) : Result Unit × ExpertStore :=
  match st.index key with
  | none => (fail .NotFound s!"expert ({key.layer}, {key.expert}) is not held", st)
  | some slot => st.evict slot

/-- Resident, not pinned and not guarded. -/
def is_evictable (st : ExpertStore) (s : ExpertSlot) : Bool :=
  s.state = .Resident && s.tier ≠ .Pinned && s.guard_timeline ≤ st.completed_timeline

/-- The scan of `evict_lru` over slots `0 .. n-1`: the evictable slot with the smallest
    stamp, the lowest index among equals. `restrict_to` is the path the scan is limited
    to: `none`, `some false` for path A, `some true` for path B. -/
def scan (st : ExpertStore) (restrict_to : Option Bool) : (n : Nat) → Option Nat
  | 0 => none
  | n + 1 =>
    let best := scan st restrict_to n
    let s := st.slots n
    if ¬ st.is_evictable s then best
    else if restrict_to.any (· != st.on_path_b s) then best
    else
      match best with
      | none => some n
      | some b => if s.last_use_token < (st.slots b).last_use_token then some n else some b

/-- The slot `evict_lru` takes: the preferred path first, then both. -/
def lru_victim (st : ExpertStore) : Option Nat :=
  let preferred :=
    match st.evict_path with
    | .Off => none
    | .PreferA => st.scan (some false) st.slots_size
    | .PreferB => st.scan (some true) st.slots_size
  preferred.or (st.scan none st.slots_size)

def evict_lru (st : ExpertStore) : Result Nat × ExpertStore :=
  if st.fixed_cache then (fail .FailedPrecondition "fixed mask cache forbids LRU", st)
  else
    match st.lru_victim with
    | none => (fail .NotFound "no evictable slot", st)
    | some best => (.ok best, st.recycle best)

/-! ### Guards -/

def set_completed_timeline (st : ExpertStore) (v : Nat) : ExpertStore :=
  if v > st.completed_timeline then { st with completed_timeline := v } else st

/-- A copy of the pointer table, with the guard installed on every Resident slot. -/
def guarded_snapshot (st : ExpertStore) (guard : Nat) : Result (Nat → Nat) × ExpertStore :=
  if guard ≤ st.completed_timeline then
    (fail .InvalidArgument "snapshot guard is already completed", st)
  else
    (.ok st.table, { st with slots := fun i =>
      let s := st.slots i
      if s.state = .Resident then { s with guard_timeline := max s.guard_timeline guard } else s })

def set_guard (st : ExpertStore) (slot v : Nat) : Result Unit × ExpertStore :=
  if slot ≥ st.slots_size then (fail .OutOfRange s!"slot {slot} out of range", st)
  else
    let s := st.slots slot
    if v > s.guard_timeline then (.ok (), st.set_slot slot { s with guard_timeline := v })
    else (.ok (), st)

/-! ### Policy metadata -/

def note_heat (st : ExpertStore) (key : ExpertKey) (score alpha : ℚ) : ExpertStore :=
  if st.fixed_cache then st
  else
    match st.index key with
    | none => st
    | some i =>
      let s := st.slots i
      st.set_slot i { s with heat := (1 - alpha) * s.heat + alpha * score }

/-- The largest heat over the slots, 0 when all are at most 0. -/
def heat_max (st : ExpertStore) : ℚ :=
  (List.range st.slots_size).foldl
    (fun top i => if (st.slots i).heat > top then (st.slots i).heat else top) 0

/-- The factor only decides whether anything happens: the hot end is rescaled to 1. -/
def decay_heat (st : ExpertStore) (factor : ℚ) : ExpertStore :=
  if factor ≥ 1 then st
  else if st.heat_max ≤ 0 then st
  else { st with slots := fun i =>
    { st.slots i with heat := (st.slots i).heat * (1 / st.heat_max) } }

def pin (st : ExpertStore) (key : ExpertKey) : Result Unit × ExpertStore :=
  match st.index key with
  | none => (fail .NotFound "cannot pin an absent expert", st)
  | some i =>
    let s := st.slots i
    if s.state ≠ .Resident then (fail .FailedPrecondition "cannot pin an unsettled expert", st)
    else if s.tier ≠ .Pinned then
      (.ok (), st.set_slot i { s with tier := .Pinned }
        { st.stats with pinned := inc32 st.stats.pinned })
    else (.ok (), st)

def touch (st : ExpertStore) (key : ExpertKey) (stamp : Nat) (include_filling : Bool) :
    Bool × ExpertStore :=
  match st.index key with
  | none => (false, st)
  | some i =>
    let s := st.slots i
    if s.state ≠ .Resident ∧ ¬ (include_filling ∧ s.state = .Filling) then (false, st)
    else if ¬ st.fixed_cache ∧ stamp > s.last_use_token then
      (true, st.set_slot i { s with last_use_token := stamp })
    else (true, st)

def reset_stats (st : ExpertStore) : ExpertStore :=
  { st with stats :=
    { resident := st.stats.resident
      filling := st.stats.filling
      pinned := st.stats.pinned
      free := st.free_list.length % 2 ^ 32 } }

end ExpertStore

end CachedMoe.Store
