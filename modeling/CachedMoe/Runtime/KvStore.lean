import Mathlib.Data.List.Nodup
import Mathlib.Data.List.Range
import Mathlib.Logic.Function.Basic
import CachedMoe.Core.Types
import CachedMoe.Framework.Region

/-! # KV store

    `runtime/kvstore.h`, `runtime/kvstore.cpp`: the decode-time KV storage. Each region of
    the layout (window ring, top-k lists, carried compressor state, one compressed plane
    and one index-key plane per owner) is a flat region of its own; that the layout keeps
    the regions apart is a statement about `layout_for` alone.

    Elements are bit patterns: `UInt16` for bf16, `UInt32` for fp32. -/

namespace CachedMoe.Runtime

open CachedMoe

/-! ### Configuration -/

/-- `plane_of` has `none` for `kNoPlane`, which no layer id equals. -/
structure KvStoreConfig where
  layers : Nat := 40
  window : Nat := 128
  latent_dim : Nat := 512
  index_dim : Nat := 128
  max_context : Nat := 1024
  scale_block : Nat := 32
  max_ratio : Nat := 8
  index_topk : Nat := 512
  initial_context : Nat := 0
  plane_of : List (Option Nat) := []
  ratio : List Nat := []
  /-- A ring needs a slot. -/
  window_pos : 0 < window := by decide

namespace KvStoreConfig

/-- The ring of the small stores further on. -/
theorem small_window_pos : 0 < 4 := by decide

def per_source (c : KvStoreConfig) : Bool := !c.plane_of.isEmpty

/-- Whose planes layer `l` uses; `none` for a window-only layer. -/
def owner (c : KvStoreConfig) (l : Nat) : Option Nat :=
  if l ≥ c.layers then none
  else if c.per_source then c.plane_of.getD l none else some l

/-- The ratio the rows of an owner's planes are counted at. -/
def plane_ratio (c : KvStoreConfig) (o : Nat) : Nat :=
  if ¬ c.per_source ∨ o ≥ c.ratio.length then 1 else max 1 (c.ratio.getD o 0)

/-- The layers that own planes, in ascending order. -/
def owners (c : KvStoreConfig) : List Nat :=
  (List.range c.layers).filter fun l => c.owner l = some l

/-- The ratio of the planes at index `oi` of the owners. -/
def owner_ratio (c : KvStoreConfig) (oi : Nat) : Nat := c.plane_ratio (c.owners.getD oi 0)

def rows_for (c : KvStoreConfig) (o positions : Nat) : Nat :=
  (positions + c.plane_ratio o - 1) / c.plane_ratio o

def topk_rows (c : KvStoreConfig) : Nat := c.window + min c.index_topk c.max_context

/-- Floats of carried state per owner, in each of the two halves. -/
def state_stride (c : KvStoreConfig) : Nat := c.max_ratio * c.latent_dim

/-- Where the second half of the state region, `score_state`, starts. -/
def score_base (c : KvStoreConfig) : Nat := c.owners.length * c.state_stride

theorem plane_ratio_pos (c : KvStoreConfig) (o : Nat) : 0 < c.plane_ratio o := by
  unfold plane_ratio
  split
  · omega
  · omega

theorem owner_ratio_pos (c : KvStoreConfig) (oi : Nat) : 0 < c.owner_ratio oi :=
  c.plane_ratio_pos _

end KvStoreConfig

/-! ### The store -/

/-- A slot that holds nothing. -/
def kSlotEmpty : Int := -1
/-- A seeded slot whose position `resolve_ring` has not settled yet. -/
def kSlotUnknown : Int := -2

/-- The members of `KvStore`, with the regions its offsets address. -/
structure KvStore where
  cfg : KvStoreConfig := {}
  /-- `!bufs_.empty()`: `create` has run. -/
  valid : Bool := false
  /-- The allocator's answer when the store asks for the slabs of `n` positions. -/
  allocate_slabs : Nat → Result Unit := fun _ => .ok ()
  cap : Nat := 0
  rows_hw : Nat → Nat := fun _ => 0
  n_cmp : Nat → Nat := fun _ => 0
  n_kv : Nat → Nat := fun _ => 0
  /-- The window floor. -/
  win_lo : Nat := 0
  /-- The position each ring slot holds. -/
  slot_pos : Nat → Int := fun _ => kSlotEmpty
  /-- `[layer][window][latent_dim]` and `[layer][window][latent_dim / scale_block]`. -/
  win_val : Nat → UInt8 := fun _ => 0
  win_scale : Nat → UInt8 := fun _ => 0
  /-- Per layer, the concatenated list `sparse_attn` walks. -/
  top : Nat → Nat → Int := fun _ _ => 0
  /-- Per owner index: compressed rows and index keys. -/
  cmp : Nat → Nat → UInt16 := fun _ _ => 0
  key : Nat → Nat → UInt16 := fun _ _ => 0
  /-- `kv_state` of every owner, then `score_state` of every owner. -/
  state : Nat → UInt32 := fun _ => 0

namespace KvStore

/-- Index into `owners_`, or `none` for a layer without planes. -/
def owner_index (kv : KvStore) (l : Nat) : Option Nat :=
  (kv.cfg.owner l).bind fun o => kv.cfg.owners.idxOf? o

/-! ### Growth and counts -/

/-- Grows to hold `positions`. The new slabs are zero; what is live is copied over. -/
def reserve (kv : KvStore) (positions : Nat) : Result Unit × KvStore :=
  if ¬ kv.valid then (fail .FailedPrecondition "KV store is not created", kv)
  else if positions ≤ kv.cap then (.ok (), kv)
  else if positions > kv.cfg.max_context then
    (fail .ResourceExhausted
      s!"{positions} positions against a KV store limited to {kv.cfg.max_context}", kv)
  else
    let doubled := if kv.cap > kv.cfg.max_context / 2 then kv.cfg.max_context else kv.cap * 2
    let nc := min kv.cfg.max_context (max positions doubled)
    match kv.allocate_slabs nc with
    | .error e => (.error e, kv)
    | .ok () =>
      (.ok (), { kv with
        cmp := fun oi j => if j < kv.rows_hw oi * kv.cfg.latent_dim then kv.cmp oi j else 0
        key := fun oi j => if j < kv.rows_hw oi * kv.cfg.index_dim then kv.key oi j else 0
        cap := nc })

def set_counts (kv : KvStore) (layer n_cmp n_kv : Nat) : Result Unit × KvStore :=
  if layer ≥ kv.cfg.layers then (fail .OutOfRange s!"layer {layer} of {kv.cfg.layers}", kv)
  else
    let oi := kv.owner_index layer
    let ratio := match oi with
      | none => 1
      | some oi => kv.cfg.owner_ratio oi
    if n_cmp * ratio > kv.cfg.max_context ∨ n_kv > kv.cfg.topk_rows then
      (fail .InvalidArgument (s!"layer {layer} wants {n_cmp} compressed / {n_kv} total KV " ++
        s!"entries, above the {kv.cfg.max_context} positions / {kv.cfg.topk_rows} list entries " ++
        "the store was sized for"), kv)
    else
      let (r, kv) : Result Unit × KvStore := match oi with
        | none => (.ok (), kv)
        | some oi =>
          match kv.reserve (n_cmp * ratio) with
          | (.error e, kv) => (.error e, kv)
          | (.ok (), kv) =>
            (.ok (), { kv with
              rows_hw := Function.update kv.rows_hw oi (max (kv.rows_hw oi) n_cmp) })
      match r with
      | .error e => (.error e, kv)
      | .ok () =>
        (.ok (), { kv with
          n_cmp := Function.update kv.n_cmp layer n_cmp
          n_kv := Function.update kv.n_kv layer n_kv })

/-! ### The window ring -/

/-- The ring slot of a position. -/
def ring_slot (kv : KvStore) (position : Nat) : Nat := position % kv.cfg.window

def set_window_floor (kv : KvStore) (position : Nat) : KvStore := { kv with win_lo := position }

/-- Whether the position's slot holds it and the floor admits it. -/
def ring_holds (kv : KvStore) (position : Nat) : Bool :=
  kv.valid && kv.win_lo ≤ position && kv.slot_pos (kv.ring_slot position) == position

/-- The window half of the list for a query at `position`: entry `i` stands for position
    `position - (win - 1 - i)`, and is `-1` below 0 or below the window floor. -/
def window_entry (kv : KvStore) (position i : Nat) : Int :=
  let win := kv.cfg.window
  let slot := (position % win + 1 + i) % win
  let pos : Int := position - (win - 1 - i : Int)
  if pos < 0 ∨ pos < kv.win_lo then -1 else slot

def set_decode_topk (kv : KvStore) (layer position n_cmp n_sel : Nat) : Result Unit × KvStore :=
  if n_sel > n_cmp then
    (fail .InvalidArgument s!"{n_sel} picks of {n_cmp} compressed positions", kv)
  else
    match kv.reserve (position + 1) with
    | (.error e, kv) => (.error e, kv)
    | (.ok (), kv) =>
      match kv.set_counts layer n_cmp (kv.cfg.window + n_sel) with
      | (.error e, kv) => (.error e, kv)
      | (.ok (), kv) =>
        (.ok (), { kv with
          slot_pos := Function.update kv.slot_pos (kv.ring_slot position) position
          top := Function.update kv.top layer fun i =>
            if i < kv.cfg.window then kv.window_entry position i else kv.top layer i })

/-! ### Backups of rows and carry -/

/-- One plane of a `KvRowBackup`. -/
structure BackupPlane where
  layer : Nat
  ratio : Nat
  first_row : Nat
  rows : Nat
  cmp : List UInt16
  key : List UInt16
  carry_kv : List UInt32
  carry_score : List UInt32
  deriving Repr, DecidableEq

/-- Copies of the rows a range of positions completes, and of the carried state. -/
structure KvRowBackup where
  first_pos : Nat
  end_pos : Nat
  planes : List BackupPlane
  deriving Repr, DecidableEq

/-- The backup of one plane: rows `[first_pos / ratio, end_pos / ratio)` and the carry. -/
def backup_plane (kv : KvStore) (first_pos end_pos oi : Nat) : BackupPlane :=
  let c := kv.cfg
  let first_row := first_pos / c.owner_ratio oi
  let rows := end_pos / c.owner_ratio oi - first_row
  { layer := c.owners.getD oi 0
    ratio := c.owner_ratio oi
    first_row := first_row
    rows := rows
    cmp := Region.read (kv.cmp oi) (first_row * c.latent_dim) (rows * c.latent_dim)
    key := Region.read (kv.key oi) (first_row * c.index_dim) (rows * c.index_dim)
    carry_kv := Region.read kv.state (oi * c.state_stride) c.state_stride
    carry_score := Region.read kv.state (c.score_base + oi * c.state_stride) c.state_stride }

/-- The loop of `backup_rows` over owner indices. -/
def backup_planes (kv : KvStore) (first_pos end_pos : Nat) : List Nat → Result (List BackupPlane)
  | [] => .ok []
  | oi :: rest =>
    let p := kv.backup_plane first_pos end_pos oi
    if p.first_row + p.rows > kv.rows_hw oi then
      let last := p.first_row + p.rows
      fail .FailedPrecondition (s!"backing up rows {p.first_row}..{last} of layer {p.layer}; " ++
        s!"{kv.rows_hw oi} were ever written")
    else
      match kv.backup_planes first_pos end_pos rest with
      | .error e => .error e
      | .ok planes => .ok (p :: planes)

def backup_rows (kv : KvStore) (first_pos end_pos : Nat) : Result KvRowBackup :=
  if ¬ kv.valid then fail .FailedPrecondition "KV store is not created"
  else
    match kv.backup_planes first_pos end_pos (List.range kv.cfg.owners.length) with
    | .error e => .error e
    | .ok planes => .ok { first_pos := first_pos, end_pos := end_pos, planes := planes }

/-- Copies row `r` of a backup over the owner's planes. -/
def put_row (kv : KvStore) (p : BackupPlane) (oi r : Nat) : KvStore :=
  let c := kv.cfg
  let k := r - p.first_row
  { kv with
    cmp := Function.update kv.cmp oi (Region.write (kv.cmp oi) (r * c.latent_dim)
      ((p.cmp.drop (k * c.latent_dim)).take c.latent_dim))
    key := Function.update kv.key oi (Region.write (kv.key oi) (r * c.index_dim)
      ((p.key.drop (k * c.index_dim)).take c.index_dim)) }

/-- The loop of `restore_rows` over the planes of a backup. -/
def restore_plane_rows (position : Nat) : List BackupPlane → KvStore → Result Unit × KvStore
  | [], kv => (.ok (), kv)
  | p :: rest, kv =>
    if (position + 1) % p.ratio ≠ 0 then restore_plane_rows position rest kv
    else
      let r := (position + 1) / p.ratio - 1
      if r < p.first_row ∨ r ≥ p.first_row + p.rows then restore_plane_rows position rest kv
      else
        match kv.owner_index p.layer with
        | none => (fail .InvalidArgument "backup of another store", kv)
        | some oi => restore_plane_rows position rest (kv.put_row p oi r)

/-- Writes back the rows that the step at `position` completes, if the backup holds them. -/
def restore_rows (kv : KvStore) (b : KvRowBackup) (position : Nat) : Result Unit × KvStore :=
  if ¬ kv.valid then (fail .FailedPrecondition "KV store is not created", kv)
  else restore_plane_rows position b.planes kv

/-- Copies the carried state of a backup over the owner's. -/
def put_carry (kv : KvStore) (p : BackupPlane) (oi : Nat) : KvStore :=
  let c := kv.cfg
  let state := Region.write kv.state (oi * c.state_stride) p.carry_kv
  { kv with state := Region.write state (c.score_base + oi * c.state_stride) p.carry_score }

def restore_plane_carry : List BackupPlane → KvStore → Result Unit × KvStore
  | [], kv => (.ok (), kv)
  | p :: rest, kv =>
    match kv.owner_index p.layer with
    | none => (fail .InvalidArgument "backup of another store", kv)
    | some oi => restore_plane_carry rest (kv.put_carry p oi)

def restore_carry (kv : KvStore) (b : KvRowBackup) : Result Unit × KvStore :=
  if ¬ kv.valid then (fail .FailedPrecondition "KV store is not created", kv)
  else restore_plane_carry b.planes kv

end KvStore

/-! ### Owners -/

namespace KvStoreConfig

theorem nodup_owners (c : KvStoreConfig) : c.owners.Nodup :=
  List.Nodup.filter _ List.nodup_range

theorem owner_of_mem_owners {c : KvStoreConfig} {l : Nat} (h : l ∈ c.owners) :
    c.owner l = some l := by
  simpa [owners] using (List.mem_filter.mp h).2

end KvStoreConfig

theorem owner_index_owner (kv : KvStore) {oi : Nat} (h : oi < kv.cfg.owners.length) :
    kv.owner_index (kv.cfg.owners.getD oi 0) = some oi := by
  have hget : kv.cfg.owners.getD oi 0 = kv.cfg.owners[oi] := by simp [h]
  have hmem : kv.cfg.owners[oi] ∈ kv.cfg.owners := List.getElem_mem h
  rw [hget, KvStore.owner_index, KvStoreConfig.owner_of_mem_owners hmem]
  show kv.cfg.owners.idxOf? kv.cfg.owners[oi] = some oi
  refine List.idxOf?_eq_some_iff.mpr ⟨h, rfl, fun j hj heq => ?_⟩
  exact absurd (kv.cfg.nodup_owners.getElem_inj_iff.mp heq) (Nat.ne_of_lt hj)

end CachedMoe.Runtime
