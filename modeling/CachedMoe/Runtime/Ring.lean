import CachedMoe.Runtime.KvUnpack

/-! # The window ring

    The ring half of `runtime/kvstore.h` and `runtime/kvstore.cpp`: which position a slot holds,
    snapshots of slots and their restore, and the seeds a prefill leaves. A row of the ring is the
    latent of one layer at one slot with its scales.

    The conversions of a seed from `float` are left out: a seed has the bits that are stored. -/

namespace CachedMoe.Runtime

open CachedMoe

namespace KvStoreConfig

def window_scales (c : KvStoreConfig) : Nat := c.latent_dim / c.scale_block

/-- The index of a ring row: `[layer][window]`. -/
def ring_row (c : KvStoreConfig) (l slot : Nat) : Nat := l * c.window + slot

end KvStoreConfig

namespace KvStore

/-! ### What a slot holds -/

/-- The last position below `n` in the residue class of the slot, or `-1`. -/
def ring_slot_position (s n window : Nat) : Int :=
  if window = 0 ∨ n ≤ s then -1 else s + ((n - 1 - s) / window * window : Nat)

/-- The position of a slot once a seed is known to come from a context of `n` tokens. -/
def resolved (window n s : Nat) (p : Int) : Int :=
  if p ≠ kSlotUnknown then p
  else if ring_slot_position s n window < 0 then kSlotEmpty else ring_slot_position s n window

def resolve_ring (kv : KvStore) (n : Nat) : KvStore :=
  { kv with slot_pos := fun s => resolved kv.cfg.window n s (kv.slot_pos s) }

def mark_ring_written (kv : KvStore) (first count : Nat) : KvStore :=
  { kv with
    slot_pos := (List.range count).foldl
      (fun slots j => Function.update slots ((first + j) % kv.cfg.window) (first + j : Nat))
      kv.slot_pos }

/-! ### Snapshots -/

structure RingSnapshot where
  latent_dim : Nat := 0
  slot : List Nat := []
  layer : List Nat := []
  position : List Int := []
  /-- `[layer][slot]` rows of values and of scales. -/
  val : List UInt8 := []
  scale : List UInt8 := []
  deriving Repr, DecidableEq

def snapshot_ring (kv : KvStore) (slots layers : List Nat) : Result RingSnapshot :=
  let c := kv.cfg
  if ¬ kv.valid then fail .FailedPrecondition "KV store is not created"
  else if slots = [] then fail .InvalidArgument "snapshot_ring: no slots"
  else if layers = [] then fail .InvalidArgument "snapshot_ring: no layers"
  else
    match layers.find? (c.layers ≤ ·) with
    | some l => fail .OutOfRange s!"layer {l} of {c.layers}"
    | none =>
      match slots.find? (c.window ≤ ·) with
      | some sl => fail .OutOfRange s!"ring slot {sl} of {c.window}"
      | none => .ok {
          latent_dim := c.latent_dim
          slot := slots
          layer := layers
          position := slots.map kv.slot_pos
          val := layers.flatMap fun l => slots.flatMap fun sl =>
            Region.read kv.win_val (c.ring_row l sl * c.latent_dim) c.latent_dim
          scale := layers.flatMap fun l => slots.flatMap fun sl =>
            Region.read kv.win_scale (c.ring_row l sl * c.window_scales) c.window_scales }

/-- Row `o` of a snapshot, with `row` elements a row. -/
def snapshot_row (bytes : List UInt8) (o row : Nat) : List UInt8 := (bytes.drop (o * row)).take row

/-- The ring rows of a snapshot with their index in it. -/
def snapshot_rows (s : RingSnapshot) : List ((Nat × Nat) × Nat) :=
  s.layer.zipIdx.flatMap fun l => s.slot.zipIdx.map fun sl =>
    ((l.1, sl.1), l.2 * s.slot.length + sl.2)

/-- A restore for some of the layers leaves slots that no generation owns. -/
def restored_positions (c : KvStoreConfig) (s : RingSnapshot) : List (Nat × Int) :=
  let all_layers := (List.range c.layers).all fun l => s.layer.contains l
  (s.slot.zip s.position).map fun sp => (sp.1, if all_layers then sp.2 else kSlotEmpty)

def restore_ring (kv : KvStore) (s : RingSnapshot) : Result Unit × KvStore :=
  let c := kv.cfg
  let other : Result Unit × KvStore := (fail .InvalidArgument "ring snapshot of another store", kv)
  if ¬ kv.valid then (fail .FailedPrecondition "KV store is not created", kv)
  else if s.latent_dim ≠ c.latent_dim ∨ (s.position ≠ [] ∧ s.position.length ≠ s.slot.length) then
    other
  else if s.layer.any (c.layers ≤ ·) then other
  else if s.slot.any (c.window ≤ ·) then other
  else
    (.ok (), { kv with
      win_val := (snapshot_rows s).foldl (fun m r => Region.write m
        (c.ring_row r.1.1 r.1.2 * c.latent_dim) (snapshot_row s.val r.2 c.latent_dim)) kv.win_val
      win_scale := (snapshot_rows s).foldl (fun m r => Region.write m
        (c.ring_row r.1.1 r.1.2 * c.window_scales) (snapshot_row s.scale r.2 c.window_scales))
        kv.win_scale
      slot_pos := (restored_positions c s).foldl
        (fun slots sp => Function.update slots sp.1 sp.2) kv.slot_pos })

/-! ### The ring of a prompt -/

/-- `prompt_ring_` and `prompt_slot_pos_`. -/
structure PromptRing where
  ring : RingSnapshot
  slot_pos : Nat → Int

/-- The store resolves its ring; positions below the window floor are not kept. -/
def retain_prompt_ring (kv : KvStore) (positions : Nat) : Result PromptRing × KvStore :=
  let kv := kv.resolve_ring positions
  match kv.snapshot_ring (List.range kv.cfg.window) (List.range kv.cfg.layers) with
  | .error e => (.error e, kv)
  | .ok ring =>
    (.ok { ring, slot_pos := fun s =>
      if 0 ≤ kv.slot_pos s ∧ kv.slot_pos s < kv.win_lo then kSlotEmpty else kv.slot_pos s }, kv)

def PromptRing.truncate (p : PromptRing) (keep : Nat) : PromptRing :=
  { p with slot_pos := fun s => if p.slot_pos s ≥ keep then kSlotEmpty else p.slot_pos s }

/-- The slot of a position of the prompt, if the ring that was retained holds it there. -/
def retained_slot (c : KvStoreConfig) (p : PromptRing) (position : Nat) : Option Nat :=
  if p.slot_pos (position % c.window) = position then some (position % c.window) else none

/-- The rows of a slot in every layer. -/
def recover_slot (p : PromptRing) (kv : KvStore) (position slot : Nat) : KvStore :=
  let c := kv.cfg
  { kv with
    win_val := (List.range c.layers).foldl (fun m l => Region.write m
      (c.ring_row l slot * c.latent_dim) (snapshot_row p.ring.val (c.ring_row l slot) c.latent_dim))
      kv.win_val
    win_scale := (List.range c.layers).foldl (fun m l => Region.write m
      (c.ring_row l slot * c.window_scales)
      (snapshot_row p.ring.scale (c.ring_row l slot) c.window_scales)) kv.win_scale
    slot_pos := Function.update kv.slot_pos slot position }

def recover_prompt_ring (kv : KvStore) (p : Option PromptRing) (keep : Nat) : KvStore :=
  match p with
  | none => kv
  | some p =>
    let lo := if keep ≥ kv.cfg.window then keep - kv.cfg.window + 1 else 0
    let kept := (List.range' lo (keep - lo)).filterMap fun position =>
      (retained_slot kv.cfg p position).map fun slot => (position, slot)
    let kv := kept.foldl (fun kv ps => recover_slot p kv ps.1 ps.2) kv
    if kept = [] then kv else { kv with win_lo := min kv.win_lo lo }

end KvStore

end CachedMoe.Runtime
