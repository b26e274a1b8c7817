import CachedMoe.Runtime.Ring
import CachedMoe.Framework.Packing
import CachedMoe.Framework.System

/-! # The layout of the KV store

    `KvStore::layout_for`, `Layout::slab_of`, `create`, `clear` and `reserve` of
    `runtime/kvstore.cpp`, with the bytes of the slabs. The slab limit of the
    configuration is a value of its own; sizes and offsets are exact. -/

namespace CachedMoe.Runtime

open CachedMoe LTS

/-! ### Layout -/

/-- Offsets are in one flat space that the slabs tile in order. -/
structure Layout where
  cap : Nat := 0
  off_win_val : Nat := 0
  off_win_scale : Nat := 0
  off_top : Nat := 0
  off_state : Nat := 0
  total : Nat := 0
  /-- Per owner. -/
  off_cmp : List Nat := []
  off_idx : List Nat := []
  /-- Flat base and size of each slab. -/
  slab_at : List Nat := []
  slab_size : List Nat := []
  deriving Repr, DecidableEq

namespace Layout

/-- The loop of `slab_of`, from slab `i - 1` down. -/
def slab_below (l : Layout) (off : Nat) : Nat → Nat
  | 0 => 0
  | i + 1 => if off ≥ l.slab_at.getD i 0 then i else l.slab_below off i

def slab_of (l : Layout) (off : Nat) : Nat := l.slab_below off l.slab_at.length

/-- `KvStore::at`: the slab of a flat offset and the offset in it. -/
def locate (l : Layout) (off : Nat) : Nat × Nat :=
  let s := l.slab_of off
  (s, off - l.slab_at.getD s 0)

end Layout

def kRegionAlign : Nat := 256
def kSlabAlign : Nat := 4096

/-- The variables `place` of `layout_for` updates. -/
structure Placing where
  off : Nat := 0
  slab_at : List Nat := [0]
  slab_size : List Nat := []
  deriving Repr, DecidableEq

namespace Placing

def place (limit : Nat) (l : Placing) (bytes : Nat) : Nat × Placing :=
  let first := Packing.align_up l.off kRegionAlign
  let back := l.slab_at.getLastD 0
  if bytes ≠ 0 ∧ first + bytes - back > limit ∧ first > back then
    -- Close this slab and open the next.
    let size := Packing.align_up first kSlabAlign - back
    let next := back + size
    (next, { off := next + bytes, slab_at := l.slab_at ++ [next],
             slab_size := l.slab_size ++ [size] })
  else (first, { l with off := first + bytes })

/-- A loop of `place`. -/
def place_all (limit : Nat) : Placing → List Nat → List Nat × Placing
  | l, [] => ([], l)
  | l, bytes :: rest =>
    let (off, l) := l.place limit bytes
    let (offs, l) := place_all limit l rest
    (off :: offs, l)

end Placing

namespace KvStoreConfig

def topk_bytes (c : KvStoreConfig) : Nat := c.layers * c.topk_rows * 4

/-- The regions of a slab are placed in this order, so that the -inf fill of `score_state`
    is one contiguous range. `slab_bytes` 0 is no limit. -/
def layout_for (c : KvStoreConfig) (slab_bytes cap : Nat) : Layout :=
  let limit := if slab_bytes ≠ 0 then slab_bytes else 2 ^ 64 - 1
  let (off_win_val, l) := Placing.place limit {} (c.layers * c.window * c.latent_dim)
  let (off_win_scale, l) := l.place limit (c.layers * c.window * c.window_scales)
  let (off_top, l) := l.place limit c.topk_bytes
  let (off_state, l) := l.place limit (c.owners.length * c.max_ratio * c.latent_dim * 4 * 2)
  let (off_cmp, l) := l.place_all limit
    (c.owners.map fun o => c.rows_for o cap * c.latent_dim * 2)
  let (off_idx, l) := l.place_all limit
    (c.owners.map fun o => c.rows_for o cap * c.index_dim * 2)
  let total := Packing.align_up l.off kSlabAlign
  { cap, off_win_val, off_win_scale, off_top, off_state, total, off_cmp, off_idx
    slab_at := l.slab_at
    slab_size := l.slab_size ++ [total - l.slab_at.getLastD 0] }

end KvStoreConfig

/-! ### Regions -/

/-- The regions of a layout; the planes by index of their owner. -/
inductive KvRegion where
  | win_val | win_scale | top | state
  | cmp (oi : Nat)
  | idx (oi : Nat)
  deriving Repr, DecidableEq

namespace KvRegion

def offset (l : Layout) : KvRegion → Nat
  | win_val => l.off_win_val
  | win_scale => l.off_win_scale
  | top => l.off_top
  | state => l.off_state
  | cmp oi => l.off_cmp.getD oi 0
  | idx oi => l.off_idx.getD oi 0

/-- The bytes of a region whose planes have `rows oi` rows. -/
def bytes (c : KvStoreConfig) (rows : Nat → Nat) : KvRegion → Nat
  | win_val => c.layers * c.window * c.latent_dim
  | win_scale => c.layers * c.window * c.window_scales
  | top => c.topk_bytes
  | state => c.owners.length * c.max_ratio * c.latent_dim * 4 * 2
  | cmp oi => rows oi * c.latent_dim * 2
  | idx oi => rows oi * c.index_dim * 2

theorem bytes_mono (c : KvStoreConfig) {rows rows' : Nat → Nat} (r : KvRegion)
    (h : ∀ oi, rows oi ≤ rows' oi) : r.bytes c rows ≤ r.bytes c rows' := by
  cases r with
  | cmp oi => exact Nat.mul_le_mul_right 2 (Nat.mul_le_mul_right _ (h oi))
  | idx oi => exact Nat.mul_le_mul_right 2 (Nat.mul_le_mul_right _ (h oi))
  | _ => exact le_rfl

end KvRegion

namespace KvStoreConfig

/-- The rows a layout of `cap` positions has room for, by owner index. -/
def plane_rows (c : KvStoreConfig) (cap oi : Nat) : Nat := c.rows_for (c.owners.getD oi 0) cap

/-- The regions, in the order they are placed. -/
def regions (c : KvStoreConfig) : List KvRegion :=
  [.win_val, .win_scale, .top, .state] ++
    ((List.range c.owners.length).map .cmp ++ (List.range c.owners.length).map .idx)

end KvStoreConfig

/-! ### The store -/

/-- The bytes of the slabs, by slab and offset. -/
abbrev Slabs := Nat → Nat → UInt8

def zeroed : Slabs := fun _ _ => 0

/-- The members of `KvStore` that the slabs depend on. -/
structure SlabStore where
  cfg : KvStoreConfig := {}
  slab_bytes : Nat := 2 ^ 31
  /-- `!bufs_.empty()`. -/
  valid : Bool := false
  bufs : Slabs := zeroed
  lay : Layout := {}
  cap : Nat := 0
  /-- Per owner: rows that may hold data. -/
  rows_hw : Nat → Nat := fun _ => 0

namespace SlabStore

/-- The byte at a flat offset. -/
def byte (st : SlabStore) (off : Nat) : UInt8 :=
  st.bufs (st.lay.locate off).1 (st.lay.locate off).2

/-- The checks of `create`. -/
def check (c : KvStoreConfig) : Result Unit :=
  if c.latent_dim % c.scale_block ≠ 0 ∨ c.latent_dim % 16 ≠ 0 ∨ c.index_dim % 32 ≠ 0 then
    fail .InvalidArgument "latent_dim / index_dim do not divide into scale blocks"
  else if c.per_source ∧ (c.plane_of.length ≠ c.layers ∨ c.ratio.length ≠ c.layers) then
    fail .InvalidArgument "plane_of / ratio must have one entry per layer"
  else if c.max_context = 0 then fail .InvalidArgument "max_context is 0"
  else
    match (List.range c.layers).find? fun l => (c.owner l).any fun o => o ∉ c.owners with
    | none => .ok ()
    | some l =>
      fail .InvalidArgument
        s!"layer {l} reads layer {(c.owner l).getD 0}'s planes, which owns none"

/-- The loop of `create` over the tries that are left: a driver that refuses the size gets
    a layout of slabs half as large. -/
def try_slabs (c : KvStoreConfig) (cap : Nat) (allocate_slabs : Layout → Result Unit) :
    Nat → Nat → Status → Except Status Nat
  | 0, _, last => .error last
  | tries + 1, slab_bytes, _ =>
    match allocate_slabs (c.layout_for slab_bytes cap) with
    | .ok () => .ok slab_bytes
    | .error e =>
      if e.code ≠ .InvalidArgument ∨ slab_bytes ≤ 64 * 2 ^ 20 then .error e
      else try_slabs c cap allocate_slabs tries (slab_bytes / 2) e

/-- `memset` of `n` bytes at a flat offset. -/
def fill (lay : Layout) (m : Slabs) (off n : Nat) (b : UInt8) : Slabs :=
  Packing.copy m (lay.locate off) (fun _ _ => b) (0, 0) n

/-- The `n` bytes of -inf floats at a flat offset. -/
def fill_ninf (lay : Layout) (m : Slabs) (off n : Nat) : Slabs :=
  Packing.copy m (lay.locate off) (fun _ o => [0x00, 0x00, 0x80, 0xFF].getD (o % 4) 0) (0, 0) n

/-- The parts of `clear` that concern the slabs. -/
def clear (st : SlabStore) : SlabStore :=
  if ¬ st.valid then st
  else
    let c := st.cfg
    let l := st.lay
    let n := c.owners.length * c.max_ratio * c.latent_dim
    let m := fill l st.bufs l.off_win_val (c.layers * c.window * c.latent_dim) 0
    let m := fill l m l.off_win_scale (c.layers * c.window * c.window_scales) 0
    let m := fill l m l.off_top c.topk_bytes 0
    let m := fill l m l.off_state (n * 4) 0
    let m := fill_ninf l m (l.off_state + n * 4) (n * 4)
    let m := (List.range c.owners.length).foldl (fun m oi =>
      let m := fill l m (l.off_cmp.getD oi 0) (st.rows_hw oi * c.latent_dim * 2) 0
      fill l m (l.off_idx.getD oi 0) (st.rows_hw oi * c.index_dim * 2) 0) m
    { st with bufs := m, rows_hw := fun _ => 0 }

def create (c : KvStoreConfig) (slab_bytes : Nat) (allocate_slabs : Layout → Result Unit) :
    Result Unit × SlabStore :=
  match check c with
  | .error e => (.error e, {})
  | .ok () =>
    let cap := if c.initial_context ≠ 0 then min c.initial_context c.max_context else c.max_context
    match try_slabs c cap allocate_slabs 8 slab_bytes { code := .Ok, message := "" } with
    | .error e => (.error e, {})
    | .ok slab_bytes =>
      (.ok (), clear { cfg := c, slab_bytes := slab_bytes, valid := true
                       lay := c.layout_for slab_bytes cap, cap := cap })

/-- The regions in the order `reserve` copies them. -/
def copied (c : KvStoreConfig) : List KvRegion :=
  [.win_val, .win_scale, .top, .state] ++
    (List.range c.owners.length).flatMap fun oi => [.cmp oi, .idx oi]

/-- The store over new, zeroed slabs of `nc` positions: what is live is copied region by
    region, as the two layouts may cut their slabs differently. -/
def grow (st : SlabStore) (nc : Nat) : SlabStore :=
  let nl := st.cfg.layout_for st.slab_bytes nc
  { st with
    bufs := (copied st.cfg).foldl (fun m r => Packing.copy m (nl.locate (r.offset nl))
      st.bufs (st.lay.locate (r.offset st.lay)) (r.bytes st.cfg st.rows_hw)) zeroed
    lay := nl
    cap := nc }

/-- Grows to hold `positions`. -/
def reserve (st : SlabStore) (allocate_slabs : Layout → Result Unit) (positions : Nat) :
    Result Unit × SlabStore :=
  if ¬ st.valid then (fail .FailedPrecondition "KV store is not created", st)
  else if positions ≤ st.cap then (.ok (), st)
  else if positions > st.cfg.max_context then
    (fail .ResourceExhausted
      s!"{positions} positions against a KV store limited to {st.cfg.max_context}", st)
  else
    let doubled := if st.cap > st.cfg.max_context / 2 then st.cfg.max_context else st.cap * 2
    let nc := min st.cfg.max_context (max positions doubled)
    match allocate_slabs (st.cfg.layout_for st.slab_bytes nc) with
    | .error e => (.error e, st)
    | .ok () => (.ok (), st.grow nc)

/-- What `set_counts`, the seeding calls and an unpack do to a plane: room for `positions`,
    then `n` rows of owner `oi` that they cover may hold data. -/
def raise_rows (st : SlabStore) (allocate_slabs : Layout → Result Unit) (oi n positions : Nat) :
    Result Unit × SlabStore :=
  match st.reserve allocate_slabs positions with
  | (.error e, st) => (.error e, st)
  | (.ok (), st) =>
    (.ok (), { st with rows_hw := Function.update st.rows_hw oi (max (st.rows_hw oi) n) })

/-- `restore_exact_rows`: every plane holds the rows of `positions`. -/
def exact_rows (st : SlabStore) (allocate_slabs : Layout → Result Unit) (positions : Nat) :
    Result Unit × SlabStore :=
  match st.reserve allocate_slabs positions with
  | (.error e, st) => (.error e, st)
  | (.ok (), st) => (.ok (), { st with rows_hw := fun oi => positions / st.cfg.owner_ratio oi })

/-- What happens to a store. Allocations answer by layout; `poke` is a byte written through
    a host pointer or by a kernel. -/
inductive Action where
  | create (c : KvStoreConfig) (slab_bytes : Nat) (allocate_slabs : Layout → Result Unit)
  | reserve (allocate_slabs : Layout → Result Unit) (positions : Nat)
  | raise_rows (allocate_slabs : Layout → Result Unit) (oi n positions : Nat)
  | exact_rows (allocate_slabs : Layout → Result Unit) (positions : Nat)
  | clear
  | poke (slab off : Nat) (b : UInt8)
  | destroy

def next (st : SlabStore) : Action → Option SlabStore
  | .create c slab_bytes allocate => some (create c slab_bytes allocate).2
  | .reserve allocate positions => some (st.reserve allocate positions).2
  | .raise_rows allocate oi n positions =>
    if n * st.cfg.owner_ratio oi ≤ positions then
      some (st.raise_rows allocate oi n positions).2
    else none
  | .exact_rows allocate positions => some (st.exact_rows allocate positions).2
  | .clear => some st.clear
  | .poke slab off b =>
    some { st with bufs := fun s o => if s = slab ∧ o = off then b else st.bufs s o }
  | .destroy => some {}

/-- A store over its life, from before `create`. -/
def life : System SlabStore Action := System.ofNext (fun st => st.valid = false) next

end SlabStore

/-! ### The layout packs its regions -/

/-- The grids of the two alignments. -/
def kv_grid : Packing.Grid where
  align := kRegionAlign
  page := kSlabAlign
  align_pos := by decide
  page_pos := by decide
  align_dvd := ⟨16, rfl⟩

namespace Placing

/-- The state of the packing. -/
def packing (l : Placing) : Packing.State := { sizes := l.slab_size, off := l.off }

/-- The recorded bases are where the slabs start. -/
def Tiled (l : Placing) : Prop :=
  l.slab_at = (List.range (l.slab_size.length + 1)).map (Packing.start l.slab_size)

theorem tiled_empty : Tiled {} := rfl

variable {l : Placing}

theorem Tiled.back (h : l.Tiled) : l.slab_at.getLastD 0 = l.packing.base := by
  rw [h, List.range_succ, List.map_append, List.map_singleton, List.getLastD_concat,
    Packing.start_length]
  rfl

theorem Tiled.concat (h : l.Tiled) (size off : Nat) :
    Tiled { off := off, slab_at := l.slab_at ++ [l.packing.base + size],
            slab_size := l.slab_size ++ [size] } := by
  have hstarts : ∀ i ∈ List.range (l.slab_size.length + 1),
      Packing.start (l.slab_size ++ [size]) i = Packing.start l.slab_size i := by
    intro i hi
    apply Packing.start_append
    have := List.mem_range.mp hi
    omega
  have hlast : Packing.start (l.slab_size ++ [size]) (l.slab_size.length + 1) =
      l.packing.base + size := by
    have := Packing.start_length (l.slab_size ++ [size])
    rw [List.length_append, List.length_singleton, List.sum_append, List.sum_singleton] at this
    exact this
  show l.slab_at ++ [l.packing.base + size] = _
  rw [List.length_append, List.length_singleton, List.range_succ, List.map_append,
    List.map_singleton, List.map_congr_left hstarts, hlast, ← h]

/-- `place` is the packing's, and keeps the bases right. -/
theorem Tiled.place (h : l.Tiled) (limit bytes : Nat) :
    (l.place limit bytes).1 = (l.packing.place kv_grid limit bytes).1.off ∧
    (l.place limit bytes).2.packing = (l.packing.place kv_grid limit bytes).2 ∧
    (l.place limit bytes).2.Tiled := by
  have hbase : l.slab_at.getLastD 0 = (l.packing.pad kv_grid).base := h.back
  have hoff : Packing.align_up l.off kRegionAlign = (l.packing.pad kv_grid).off := rfl
  simp only [Placing.place, Packing.State.place, Packing.State.ready, hbase, hoff]
  split
  · next hnext =>
    have hle : (l.packing.pad kv_grid).base ≤
        Packing.align_up (l.packing.pad kv_grid).off kSlabAlign :=
      hnext.2.2.le.trans (Packing.le_align_up kv_grid.page_pos)
    have hclose : (l.packing.pad kv_grid).base +
        (Packing.align_up (l.packing.pad kv_grid).off kSlabAlign - (l.packing.pad kv_grid).base) =
        ((l.packing.pad kv_grid).close kv_grid).off := Nat.add_sub_cancel' hle
    refine ⟨hclose, ?_, h.concat _ _⟩
    exact congrArg (Packing.State.mk _) (congrArg (· + bytes) hclose)
  · exact ⟨rfl, rfl, h⟩

theorem Tiled.place_all (h : l.Tiled) (limit : Nat) (sizes : List Nat) :
    (l.place_all limit sizes).1 =
      (l.packing.place_all kv_grid limit sizes).1.map Packing.Region.off ∧
    (l.place_all limit sizes).2.packing = (l.packing.place_all kv_grid limit sizes).2 ∧
    (l.place_all limit sizes).2.Tiled := by
  induction sizes generalizing l with
  | nil => exact ⟨rfl, rfl, h⟩
  | cons bytes sizes ih =>
    obtain ⟨hoff, hpacking, htiled⟩ := h.place limit bytes
    obtain ⟨hoffs, hpackings, htileds⟩ := ih htiled
    simp only [Placing.place_all, Packing.State.place_all, List.map_cons]
    rw [hpacking] at hoffs hpackings
    exact ⟨congrArg₂ List.cons hoff hoffs, hpackings, htileds⟩

theorem place_all_append (l : Placing) (limit : Nat) (sizes more : List Nat) :
    l.place_all limit (sizes ++ more) =
      ((l.place_all limit sizes).1 ++ ((l.place_all limit sizes).2.place_all limit more).1,
        ((l.place_all limit sizes).2.place_all limit more).2) := by
  induction sizes generalizing l with
  | nil => rfl
  | cons bytes sizes ih => simp only [List.cons_append, place_all, ih]

theorem length_place_all (l : Placing) (limit : Nat) (sizes : List Nat) :
    (l.place_all limit sizes).1.length = sizes.length := by
  induction sizes generalizing l with
  | nil => rfl
  | cons bytes sizes ih => simp only [place_all, List.length_cons, ih]

end Placing

namespace KvStoreConfig

/-- The sizes of the regions, in order. -/
def region_sizes (c : KvStoreConfig) (cap : Nat) : List Nat :=
  c.regions.map (KvRegion.bytes c (c.plane_rows cap))

/-- The limit `layout_for` cuts at. -/
def slab_limit (slab_bytes : Nat) : Nat := if slab_bytes ≠ 0 then slab_bytes else 2 ^ 64 - 1

/-- What `layout_for` has placed at its end. -/
def placed (c : KvStoreConfig) (slab_bytes cap : Nat) : List Nat × Placing :=
  Placing.place_all (slab_limit slab_bytes) {} (c.region_sizes cap)

theorem region_sizes_eq (c : KvStoreConfig) (cap : Nat) :
    c.region_sizes cap =
      [c.layers * c.window * c.latent_dim, c.layers * c.window * c.window_scales, c.topk_bytes,
        c.owners.length * c.max_ratio * c.latent_dim * 4 * 2] ++
      (c.owners.map (fun o => c.rows_for o cap * c.latent_dim * 2) ++
        c.owners.map (fun o => c.rows_for o cap * c.index_dim * 2)) := by
  have hplanes (d : Nat) : c.owners.map (fun o => c.rows_for o cap * d * 2) =
      (List.range c.owners.length).map fun oi => c.plane_rows cap oi * d * 2 := by
    conv_lhs => rw [← Region.map_getD_range c.owners 0, List.map_map]
    rfl
  rw [region_sizes, regions, List.map_append, List.map_append, List.map_map, List.map_map,
    hplanes, hplanes]
  rfl

theorem layout_for_slabs (c : KvStoreConfig) (slab_bytes cap : Nat) :
    (c.layout_for slab_bytes cap).slab_at = (c.placed slab_bytes cap).2.slab_at ∧
    (c.layout_for slab_bytes cap).slab_size = (c.placed slab_bytes cap).2.slab_size ++
      [Packing.align_up (c.placed slab_bytes cap).2.off kSlabAlign -
        (c.placed slab_bytes cap).2.slab_at.getLastD 0] := by
  rw [placed, region_sizes_eq, Placing.place_all_append, Placing.place_all_append]
  exact ⟨rfl, rfl⟩

theorem layout_for_offsets (c : KvStoreConfig) (slab_bytes cap : Nat) :
    c.regions.map (KvRegion.offset (c.layout_for slab_bytes cap)) =
      (c.placed slab_bytes cap).1 := by
  have hcmp : (c.layout_for slab_bytes cap).off_cmp.length = c.owners.length :=
    (Placing.length_place_all _ _ _).trans (List.length_map _)
  have hidx : (c.layout_for slab_bytes cap).off_idx.length = c.owners.length :=
    (Placing.length_place_all _ _ _).trans (List.length_map _)
  have hcmps := Region.map_getD_range (c.layout_for slab_bytes cap).off_cmp 0
  have hidxs := Region.map_getD_range (c.layout_for slab_bytes cap).off_idx 0
  rw [hcmp] at hcmps
  rw [hidx] at hidxs
  rw [placed, region_sizes_eq, Placing.place_all_append, Placing.place_all_append, regions,
    List.map_append, List.map_append, List.map_map, List.map_map]
  exact congrArg₂ _ rfl (congrArg₂ _ hcmps hidxs)

end KvStoreConfig

/-- The flat space a region of a layout of `cap` positions takes. -/
def KvRegion.span (c : KvStoreConfig) (slab_bytes cap : Nat) (r : KvRegion) : Packing.Region where
  off := r.offset (c.layout_for slab_bytes cap)
  bytes := r.bytes c (c.plane_rows cap)

namespace KvStoreConfig

variable (c : KvStoreConfig) (slab_bytes cap : Nat)

theorem placed_tiled : (c.placed slab_bytes cap).2.Tiled :=
  (Placing.tiled_empty.place_all _ _).2.2

theorem layout_sizes : (c.layout_for slab_bytes cap).slab_size =
    ((c.placed slab_bytes cap).2.packing.close kv_grid).sizes := by
  rw [(c.layout_for_slabs slab_bytes cap).2, (c.placed_tiled slab_bytes cap).back]
  rfl

theorem length_layout_sizes : (c.layout_for slab_bytes cap).slab_size.length =
    (c.placed slab_bytes cap).2.slab_size.length + 1 := by
  rw [layout_sizes]
  exact List.length_append

/-- The slabs are laid end to end. -/
theorem layout_starts : (c.layout_for slab_bytes cap).slab_at =
    (List.range (c.layout_for slab_bytes cap).slab_size.length).map
      (Packing.start (c.layout_for slab_bytes cap).slab_size) := by
  rw [(c.layout_for_slabs slab_bytes cap).1, c.placed_tiled slab_bytes cap, length_layout_sizes]
  apply List.map_congr_left
  intro i hi
  rw [layout_sizes]
  exact (Packing.start_append (Nat.le_of_lt_succ (List.mem_range.mp hi)) _).symm

theorem slab_at_getD {s : Nat} (h : s < (c.layout_for slab_bytes cap).slab_size.length) :
    (c.layout_for slab_bytes cap).slab_at.getD s 0 =
      Packing.start (c.layout_for slab_bytes cap).slab_size s := by
  rw [layout_starts, List.getD_eq_getElem _ _ (by rwa [List.length_map, List.length_range]),
    List.getElem_map, List.getElem_range]

/-- What `layout_for` has placed before it closes the last slab. -/
theorem placed_packed : Packing.Packed kv_grid (slab_limit slab_bytes)
    (c.placed slab_bytes cap).2.packing (c.regions.map (KvRegion.span c slab_bytes cap)) := by
  obtain ⟨hoffs, hpacking, -⟩ :=
    Placing.tiled_empty.place_all (slab_limit slab_bytes) (c.region_sizes cap)
  have hregions : (Packing.State.place_all kv_grid (slab_limit slab_bytes) {}
      (c.region_sizes cap)).1 = c.regions.map (KvRegion.span c slab_bytes cap) := by
    apply Packing.eq_map_region
    · exact hoffs.symm.trans (c.layout_for_offsets slab_bytes cap).symm
    · exact Packing.bytes_place_all _ _ _ _
  have hpacked := (Packing.Packed.empty kv_grid (slab_limit slab_bytes)).place_all
    (c.region_sizes cap)
  rw [List.nil_append, hregions] at hpacked
  rw [placed, hpacking]
  exact hpacked

theorem layout_packed : Packing.Packed kv_grid (slab_limit slab_bytes)
    { sizes := (c.layout_for slab_bytes cap).slab_size
      off := ((c.placed slab_bytes cap).2.packing.close kv_grid).off }
    (c.regions.map (KvRegion.span c slab_bytes cap)) := by
  rw [layout_sizes]
  exact (c.placed_packed slab_bytes cap).close

theorem layout_inside {r : KvRegion} (hr : r ∈ c.regions) :
    ∃ i, Packing.Inside (c.layout_for slab_bytes cap).slab_size (r.span c slab_bytes cap) i := by
  rw [layout_sizes]
  exact (c.placed_packed slab_bytes cap).inside_close (List.mem_map_of_mem hr)

end KvStoreConfig

/-! ### The slab of an offset -/

/-- The search from the last slab down finds the slab an offset lies in. -/
theorem slab_below_eq {l : Layout} {off i n : Nat} (hi : i < n)
    (hstart : l.slab_at.getD i 0 ≤ off) (hnext : ∀ j, i < j → j < n → off < l.slab_at.getD j 0) :
    l.slab_below off n = i := by
  induction n with
  | zero => exact absurd hi (Nat.not_lt_zero i)
  | succ n ih =>
    rw [Layout.slab_below]
    split
    · next hge =>
      by_contra hne
      have := hnext n (by omega) (by omega)
      omega
    · next hlt =>
      have hin : i < n := by
        by_contra hout
        have heq : i = n := by omega
        exact hlt (heq ▸ hstart)
      exact ih hin fun j hj hjn => hnext j hj (by omega)

namespace KvStoreConfig

variable {c : KvStoreConfig} {slab_bytes cap : Nat}

theorem slab_of_eq {i x : Nat} (hi : i < (c.layout_for slab_bytes cap).slab_size.length)
    (hstart : Packing.start (c.layout_for slab_bytes cap).slab_size i ≤ x)
    (hnext : x < Packing.start (c.layout_for slab_bytes cap).slab_size (i + 1)) :
    (c.layout_for slab_bytes cap).slab_of x = i := by
  have hlen : (c.layout_for slab_bytes cap).slab_at.length =
      (c.layout_for slab_bytes cap).slab_size.length := by
    rw [layout_starts, List.length_map, List.length_range]
  apply slab_below_eq
  · rwa [hlen]
  · rwa [c.slab_at_getD slab_bytes cap hi]
  · intro j hij hj
    rw [c.slab_at_getD slab_bytes cap (by rwa [← hlen])]
    exact hnext.trans_le (Packing.start_mono _ hij)

end KvStoreConfig

/-! ### Soundness of a layout -/

/-- A flat offset lies in region `r` of a layout of `cap` positions. -/
def KvRegion.Holds (c : KvStoreConfig) (slab_bytes cap : Nat) (r : KvRegion) (x : Nat) : Prop :=
  r.offset (c.layout_for slab_bytes cap) ≤ x ∧
    x < r.offset (c.layout_for slab_bytes cap) + r.bytes c (c.plane_rows cap)

theorem KvRegion.holds_add {c : KvStoreConfig} {cap j : Nat} (r : KvRegion) (slab_bytes : Nat)
    (hj : j < r.bytes c (c.plane_rows cap)) :
    r.Holds c slab_bytes cap (r.offset (c.layout_for slab_bytes cap) + j) :=
  ⟨Nat.le_add_right _ _, Nat.add_lt_add_left hj _⟩

/-- Slab `s` of a layout holds the flat offsets from `lo` up to `hi`. -/
def Layout.InSlab (l : Layout) (s lo hi : Nat) : Prop :=
  s < l.slab_size.length ∧ l.slab_at.getD s 0 ≤ lo ∧
    hi ≤ l.slab_at.getD s 0 + l.slab_size.getD s 0

structure LayoutSound (c : KvStoreConfig) (slab_bytes cap : Nat) (l : Layout) : Prop where
  /-- An offset lies in one region at most. -/
  disjoint : ∀ r ∈ c.regions, ∀ r' ∈ c.regions, ∀ x,
    r.Holds c slab_bytes cap x → r'.Holds c slab_bytes cap x → r = r'
  aligned : ∀ r ∈ c.regions, kRegionAlign ∣ r.offset l
  /-- A region lies in one slab, which `slab_of` finds for each of its bytes. -/
  inside : ∀ r ∈ c.regions, ∃ s,
    l.InSlab s (r.offset l) (r.offset l + r.bytes c (c.plane_rows cap)) ∧
    ∀ x, r.Holds c slab_bytes cap x → l.slab_of x = s
  /-- A slab above the limit is the span of one region that is. -/
  limit : slab_bytes ≠ 0 → kSlabAlign ∣ slab_bytes → ∀ s < l.slab_size.length,
    l.slab_size.getD s 0 ≤ slab_bytes ∨
    ∃ r ∈ c.regions, r.offset l = l.slab_at.getD s 0 ∧
      slab_bytes < r.bytes c (c.plane_rows cap) ∧
      l.slab_size.getD s 0 = Packing.align_up (r.bytes c (c.plane_rows cap)) kSlabAlign

/-- One of two regions ends before the other starts. -/
def Apart (c : KvStoreConfig) (slab_bytes cap : Nat) (r r' : KvRegion) : Prop :=
  (r.span c slab_bytes cap).stop ≤ (r'.span c slab_bytes cap).off ∨
    (r'.span c slab_bytes cap).stop ≤ (r.span c slab_bytes cap).off

instance (c : KvStoreConfig) (slab_bytes cap : Nat) : Std.Symm (Apart c slab_bytes cap) where
  symm := fun _ _ h => h.symm

theorem layout_sound (c : KvStoreConfig) (slab_bytes cap : Nat) :
    LayoutSound c slab_bytes cap (c.layout_for slab_bytes cap) where
  disjoint := by
    intro r hr r' hr' x hx hx'
    by_contra hne
    have hsorted := List.pairwise_map.mp (c.layout_packed slab_bytes cap).sorted
    have hpair : c.regions.Pairwise (Apart c slab_bytes cap) := hsorted.imp Or.inl
    have hapart := hpair.forall hr hr' hne
    rcases hapart with hlt | hlt
    · exact absurd hx.2 (Nat.not_lt.mpr (hlt.trans hx'.1))
    · exact absurd hx'.2 (Nat.not_lt.mpr (hlt.trans hx.1))
  aligned := fun r hr => (c.layout_packed slab_bytes cap).aligned _ (List.mem_map_of_mem hr)
  inside := by
    intro r hr
    obtain ⟨i, hi, hstart, hstop⟩ := c.layout_inside slab_bytes cap hr
    refine ⟨i, ⟨hi, ?_, ?_⟩, ?_⟩
    · rw [c.slab_at_getD slab_bytes cap hi]
      exact hstart
    · rw [c.slab_at_getD slab_bytes cap hi, List.getD_eq_getElem _ _ hi,
        ← Packing.start_succ hi]
      exact hstop
    · intro x hx
      exact KvStoreConfig.slab_of_eq hi (hstart.trans hx.1) (hx.2.trans_le hstop)
  limit := by
    intro hne hdvd s hs
    have hlimit : KvStoreConfig.slab_limit slab_bytes = slab_bytes := if_pos hne
    have hfits := (c.layout_packed slab_bytes cap).closed_fits s hs
    rw [c.slab_at_getD slab_bytes cap hs, List.getD_eq_getElem _ _ hs]
    rw [hlimit] at hfits
    rcases hfits with hsmall | ⟨_, hr, hoff, hbig, hsize⟩
    · exact .inl (hsmall hdvd)
    · obtain ⟨r, hmem, rfl⟩ := List.mem_map.mp hr
      exact .inr ⟨r, hmem, hoff, hbig, hsize⟩

/-! ### Growing a live store -/

namespace SlabStore

/-- What holds of a store that is created. -/
structure Live (st : SlabStore) : Prop where
  lay : st.lay = st.cfg.layout_for st.slab_bytes st.cap
  rows : ∀ oi, st.rows_hw oi ≤ st.cfg.plane_rows st.cap oi

/-- `st'` has the live rows of `st`, byte for byte. -/
structure Keeps (st st' : SlabStore) : Prop where
  cfg : st'.cfg = st.cfg
  rows : st'.rows_hw = st.rows_hw
  bytes : ∀ r ∈ st.cfg.regions, ∀ j < r.bytes st.cfg st.rows_hw,
    st'.byte (r.offset st'.lay + j) = st.byte (r.offset st.lay + j)

theorem mem_copied {c : KvStoreConfig} {r : KvRegion} : r ∈ copied c ↔ r ∈ c.regions := by
  cases r with
  | cmp oi => simp [copied, KvStoreConfig.regions]
  | idx oi => simp [copied, KvStoreConfig.regions]
  | _ => simp [copied, KvStoreConfig.regions]

section Locate

variable {c : KvStoreConfig} {cap : Nat} {r r' : KvRegion} {x x' j : Nat} (slab_bytes : Nat)

/-- Walking from the start of a region stays in its slab. -/
theorem locate_add (hr : r ∈ c.regions) (hj : j < r.bytes c (c.plane_rows cap)) :
    (c.layout_for slab_bytes cap).locate (r.offset (c.layout_for slab_bytes cap) + j) =
      (((c.layout_for slab_bytes cap).locate (r.offset (c.layout_for slab_bytes cap))).1,
       ((c.layout_for slab_bytes cap).locate (r.offset (c.layout_for slab_bytes cap))).2 + j) := by
  obtain ⟨s, ⟨-, hbase, -⟩, hslab⟩ := (layout_sound c slab_bytes cap).inside r hr
  have hfirst := hslab _ (r.holds_add slab_bytes (Nat.zero_lt_of_lt hj))
  have hlater := hslab _ (r.holds_add slab_bytes hj)
  rw [Nat.add_zero] at hfirst
  simp only [Layout.locate, hfirst, hlater, Prod.mk.injEq, true_and]
  omega

/-- Two bytes of regions at one place are one byte. -/
theorem locate_inj (hr : r ∈ c.regions) (hr' : r' ∈ c.regions)
    (hx : r.Holds c slab_bytes cap x) (hx' : r'.Holds c slab_bytes cap x')
    (h : (c.layout_for slab_bytes cap).locate x = (c.layout_for slab_bytes cap).locate x') :
    x = x' := by
  obtain ⟨s, ⟨-, hbase, -⟩, hslab⟩ := (layout_sound c slab_bytes cap).inside r hr
  obtain ⟨s', ⟨-, hbase', -⟩, hslab'⟩ := (layout_sound c slab_bytes cap).inside r' hr'
  simp only [Layout.locate, hslab x hx, hslab' x' hx', Prod.mk.injEq] at h
  obtain ⟨rfl, hoff⟩ := h
  have hle := hbase.trans hx.1
  have hle' := hbase'.trans hx'.1
  omega

/-- No byte of a region is among those copied from the start of another. -/
theorem not_covers_of_ne {n : Nat} (hr : r ∈ c.regions) (hr' : r' ∈ c.regions) (hne : r' ≠ r)
    (hj : j < r.bytes c (c.plane_rows cap)) (hn : n ≤ r'.bytes c (c.plane_rows cap)) :
    ¬ Packing.Covers
      ((c.layout_for slab_bytes cap).locate (r'.offset (c.layout_for slab_bytes cap))) n
      ((c.layout_for slab_bytes cap).locate (r.offset (c.layout_for slab_bytes cap))).1
      (((c.layout_for slab_bytes cap).locate (r.offset (c.layout_for slab_bytes cap))).2 + j) := by
  rintro ⟨hslab, hle, hlt⟩
  obtain ⟨k, hk⟩ := Nat.exists_eq_add_of_le hle
  have hk' : k < r'.bytes c (c.plane_rows cap) := by omega
  have hholds := r.holds_add slab_bytes hj
  have hholds' := r'.holds_add slab_bytes hk'
  have hsame : r.offset (c.layout_for slab_bytes cap) + j =
      r'.offset (c.layout_for slab_bytes cap) + k := by
    apply locate_inj slab_bytes hr hr' hholds hholds'
    rw [locate_add slab_bytes hr hj, locate_add slab_bytes hr' hk']
    exact Prod.ext hslab hk
  rw [← hsame] at hholds'
  exact hne ((layout_sound c slab_bytes cap).disjoint r' hr' r hr _ hholds' hholds)

end Locate

theorem lay_grow (st : SlabStore) (nc : Nat) :
    (st.grow nc).lay = (st.grow nc).cfg.layout_for (st.grow nc).slab_bytes (st.grow nc).cap := by
  unfold grow
  rfl

/-- Copying region by region keeps the live bytes: no copy reaches another's region. -/
theorem Live.grow {st : SlabStore} (h : st.Live) {nc : Nat}
    (hrows : ∀ oi, st.rows_hw oi ≤ st.cfg.plane_rows nc oi) : st.Keeps (st.grow nc) where
  cfg := rfl
  rows := rfl
  bytes := by
    intro r hr j hj
    have hfrom := locate_add st.slab_bytes hr
      (hj.trans_le (r.bytes_mono st.cfg h.rows))
    have hto := locate_add st.slab_bytes hr
      (hj.trans_le (r.bytes_mono st.cfg hrows))
    rw [← h.lay] at hfrom
    have hcopy := Packing.foldl_copy_of_mem
      (fun r => (st.cfg.layout_for st.slab_bytes nc).locate
        (r.offset (st.cfg.layout_for st.slab_bytes nc)))
      (fun r => st.lay.locate (r.offset st.lay)) (fun r => r.bytes st.cfg st.rows_hw)
      zeroed st.bufs (mem_copied.mpr hr) ⟨rfl, Nat.le_add_right _ _, Nat.add_lt_add_left hj _⟩
      (fun r' hr' hne => not_covers_of_ne st.slab_bytes hr (mem_copied.mp hr') hne
        (hj.trans_le (r.bytes_mono st.cfg hrows)) (r'.bytes_mono st.cfg hrows))
    rw [Nat.add_sub_cancel_left] at hcopy
    rw [byte, byte, hfrom, ← hcopy]
    exact congrArg (fun p => (st.grow nc).bufs p.1 p.2) hto

theorem reserve_cases {st st' : SlabStore} {allocate : Layout → Result Unit} {positions : Nat}
    {res : Result Unit} (h : st.reserve allocate positions = (res, st')) :
    (st' = st ∧ (res = .ok () → positions ≤ st.cap)) ∨
    (st.valid = true ∧ res = .ok () ∧ ∃ nc, st.cap ≤ nc ∧ positions ≤ nc ∧ st' = st.grow nc) := by
  unfold reserve at h
  split at h
  · obtain ⟨rfl, rfl⟩ := h
    exact .inl ⟨rfl, fun h => (by cases h)⟩
  · next hvalid =>
    split at h
    · next hle =>
      obtain ⟨rfl, rfl⟩ := h
      exact .inl ⟨rfl, fun _ => hle⟩
    · next hgt =>
      split at h
      · obtain ⟨rfl, rfl⟩ := h
        exact .inl ⟨rfl, fun h => (by cases h)⟩
      · next hmax =>
        simp only at h
        split at h
        · obtain ⟨rfl, rfl⟩ := h
          exact .inl ⟨rfl, fun h => (by cases h)⟩
        · obtain ⟨rfl, rfl⟩ := h
          right
          refine ⟨by simpa using hvalid, rfl, _, ?_, ?_, rfl⟩
          · omega
          · omega

/-! ### Every store that is created is live -/

theorem le_plane_rows {c : KvStoreConfig} {n oi cap : Nat} (h : n * c.owner_ratio oi ≤ cap) :
    n ≤ c.plane_rows cap oi := by
  have hpos := c.owner_ratio_pos oi
  apply (Nat.le_div_iff_mul_le hpos).mpr
  change n * c.owner_ratio oi ≤ cap + c.owner_ratio oi - 1
  omega

theorem plane_rows_mono (c : KvStoreConfig) {cap cap' : Nat} (h : cap ≤ cap') (oi : Nat) :
    c.plane_rows cap oi ≤ c.plane_rows cap' oi := by
  apply Nat.div_le_div_right
  omega

/-- Other rows of planes with room for them. -/
theorem Live.with_rows {st : SlabStore} (h : st.Live) {rows : Nat → Nat} {bufs : Slabs}
    (hrows : ∀ oi, rows oi ≤ st.cfg.plane_rows st.cap oi) :
    Live { st with rows_hw := rows, bufs := bufs } where
  lay := h.lay
  rows := hrows

theorem Live.clear {st : SlabStore} (h : st.Live) : st.clear.Live := by
  unfold SlabStore.clear
  split
  · exact h
  · exact h.with_rows fun _ => Nat.zero_le _

theorem Live.reserve {st : SlabStore} (h : st.Live) (allocate : Layout → Result Unit)
    (positions : Nat) :
    (st.reserve allocate positions).2.Live ∧
    ((st.reserve allocate positions).1 = .ok () →
      positions ≤ (st.reserve allocate positions).2.cap) := by
  rcases reserve_cases (Prod.mk.eta (p := st.reserve allocate positions)).symm with
    ⟨hsame, hroom⟩ | ⟨-, -, nc, hcap, hpos, hgrow⟩
  · rw [hsame]
    exact ⟨h, hroom⟩
  · rw [hgrow]
    refine ⟨⟨lay_grow st nc, fun oi => ?_⟩, fun _ => hpos⟩
    exact (h.rows oi).trans (plane_rows_mono st.cfg hcap oi)

theorem reserve_cfg (st : SlabStore) (allocate : Layout → Result Unit) (positions : Nat) :
    (st.reserve allocate positions).2.cfg = st.cfg ∧
    (st.reserve allocate positions).2.valid = st.valid := by
  rcases reserve_cases (Prod.mk.eta (p := st.reserve allocate positions)).symm with
    ⟨hsame, -⟩ | ⟨-, -, nc, -, -, hgrow⟩
  · rw [hsame]
    exact ⟨rfl, rfl⟩
  · rw [hgrow]
    exact ⟨rfl, rfl⟩

theorem create_live (c : KvStoreConfig) (slab_bytes : Nat) (allocate : Layout → Result Unit)
    (h : (create c slab_bytes allocate).2.valid = true) :
    (create c slab_bytes allocate).2.Live := by
  unfold create at h ⊢
  split at h
  · exact absurd h Bool.false_ne_true
  · simp only at h ⊢
    split at h
    · exact absurd h Bool.false_ne_true
    · dsimp only
      apply Live.clear
      exact ⟨rfl, fun _ => Nat.zero_le _⟩

theorem Live.raise_rows {st : SlabStore} (h : st.Live) (allocate : Layout → Result Unit)
    {oi n positions : Nat} (hn : n * st.cfg.owner_ratio oi ≤ positions) :
    (st.raise_rows allocate oi n positions).2.Live := by
  obtain ⟨hlive, hroom⟩ := h.reserve allocate positions
  obtain ⟨hcfg, -⟩ := st.reserve_cfg allocate positions
  unfold SlabStore.raise_rows
  split
  · next heq =>
    rw [heq] at hlive
    exact hlive
  · next st' heq =>
    rw [heq] at hlive hroom hcfg
    apply hlive.with_rows
    intro i
    by_cases hi : i = oi
    · subst hi
      rw [Function.update_self]
      apply Nat.max_le.mpr ⟨hlive.rows i, le_plane_rows _⟩
      rw [hcfg]
      exact hn.trans (hroom rfl)
    · rw [Function.update_of_ne hi]
      exact hlive.rows i

theorem Live.exact_rows {st : SlabStore} (h : st.Live) (allocate : Layout → Result Unit)
    (positions : Nat) : (st.exact_rows allocate positions).2.Live := by
  obtain ⟨hlive, hroom⟩ := h.reserve allocate positions
  unfold SlabStore.exact_rows
  split
  · next heq =>
    rw [heq] at hlive
    exact hlive
  · next st' heq =>
    rw [heq] at hlive hroom
    apply hlive.with_rows
    intro i
    exact le_plane_rows ((Nat.div_mul_le_self _ _).trans (hroom rfl))

theorem valid_raise_rows (st : SlabStore) (allocate : Layout → Result Unit) (oi n positions : Nat) :
    (st.raise_rows allocate oi n positions).2.valid = st.valid := by
  have hvalid := (st.reserve_cfg allocate positions).2
  unfold SlabStore.raise_rows
  split
  · next heq =>
    rw [heq] at hvalid
    exact hvalid
  · next heq =>
    rw [heq] at hvalid
    exact hvalid

theorem valid_exact_rows (st : SlabStore) (allocate : Layout → Result Unit) (positions : Nat) :
    (st.exact_rows allocate positions).2.valid = st.valid := by
  have hvalid := (st.reserve_cfg allocate positions).2
  unfold SlabStore.exact_rows
  split
  · next heq =>
    rw [heq] at hvalid
    exact hvalid
  · next heq =>
    rw [heq] at hvalid
    exact hvalid

theorem valid_clear (st : SlabStore) : st.clear.valid = st.valid := by
  unfold SlabStore.clear
  split
  · rfl
  · rfl

/-- One action keeps a created store live. -/
theorem next_live {st st' : SlabStore} {a : Action} (h : st.valid = true → st.Live)
    (hstep : next st a = some st') : st'.valid = true → st'.Live := by
  intro hvalid
  cases a with
  | create c slab_bytes allocate =>
    obtain rfl := Option.some.inj hstep
    exact create_live c slab_bytes allocate hvalid
  | reserve allocate positions =>
    obtain rfl := Option.some.inj hstep
    rw [(st.reserve_cfg allocate positions).2] at hvalid
    exact ((h hvalid).reserve allocate positions).1
  | raise_rows allocate oi n positions =>
    simp only [next] at hstep
    split at hstep
    · next hn =>
      obtain rfl := Option.some.inj hstep
      rw [valid_raise_rows] at hvalid
      exact (h hvalid).raise_rows allocate hn
    · cases hstep
  | exact_rows allocate positions =>
    obtain rfl := Option.some.inj hstep
    rw [valid_exact_rows] at hvalid
    exact (h hvalid).exact_rows allocate positions
  | clear =>
    obtain rfl := Option.some.inj hstep
    rw [valid_clear] at hvalid
    exact (h hvalid).clear
  | poke slab off b =>
    obtain rfl := Option.some.inj hstep
    exact (h hvalid).with_rows (h hvalid).rows
  | destroy =>
    obtain rfl := Option.some.inj hstep
    exact absurd hvalid Bool.false_ne_true

theorem reachable_live {st : SlabStore} (h : Reachable life st) (hvalid : st.valid = true) :
    st.Live := by
  refine h.invariant (P := fun st => st.valid = true → st.Live) ?_ ?_ hvalid
  · intro st hinit hvalid
    exact absurd (hinit.symm.trans hvalid) Bool.false_ne_true
  · intro st a st' hlive hstep
    exact next_live hlive hstep

theorem Keeps.refl (st : SlabStore) : st.Keeps st where
  cfg := rfl
  rows := rfl
  bytes := fun _ _ _ _ => rfl

/-- Every layout is sound, and growing a live store with `reserve` keeps the bytes of every
    live region. -/
theorem kv_layout_sound :
    (∀ c slab_bytes cap, LayoutSound c slab_bytes cap (c.layout_for slab_bytes cap)) ∧
    ∀ st, Reachable life st → ∀ allocate positions st',
      st.reserve allocate positions = (.ok (), st') → st.Keeps st' ∧ positions ≤ st'.cap := by
  refine ⟨layout_sound, ?_⟩
  intro st hreach allocate positions st' hreserve
  rcases reserve_cases hreserve with ⟨rfl, hroom⟩ | ⟨hvalid, -, nc, hcap, hpos, rfl⟩
  · exact ⟨Keeps.refl _, hroom rfl⟩
  · have hlive := reachable_live hreach hvalid
    refine ⟨hlive.grow fun oi => ?_, hpos⟩
    exact (hlive.rows oi).trans (plane_rows_mono st.cfg hcap oi)

/-- One layer with slabs of 4 KiB, created for 64 positions. -/
def small_config : KvStoreConfig where
  layers := 1
  window := 4
  latent_dim := 32
  index_dim := 32
  max_context := 128
  max_ratio := 2
  index_topk := 4
  initial_context := 64
  window_pos := KvStoreConfig.small_window_pos

/-- The driver grants every slab. -/
def granted (_ : Layout) : Result Unit := .ok ()

/-- A row written in slab 1 is found behind the slabs of 128 positions. -/
theorem kv_layout_grows_small : ∃ st st', Reachable life st ∧
    st.reserve granted 128 = (.ok (), st') ∧
    st.byte (KvRegion.offset st.lay (.cmp 0) + 5) = 7 ∧
    st'.byte (KvRegion.offset st'.lay (.cmp 0) + 5) = 7 := by
  have hinit : life.init {} := rfl
  obtain ⟨st, hreach, hst⟩ := Reachable.of_execute next
    [.create small_config 4096 granted, .raise_rows granted 0 1 1, .poke 1 5 7]
    (fun st => decide (KvRegion.cmp 0 ∈ st.cfg.regions ∧
      5 < (KvRegion.cmp 0).bytes st.cfg st.rows_hw ∧
      st.byte (KvRegion.offset st.lay (.cmp 0) + 5) = 7 ∧
      (st.reserve granted 128).1.isOk = true)) hinit (by decide)
  obtain ⟨hmem, hlive, hbyte, hok⟩ := of_decide_eq_true hst
  have hres : st.reserve granted 128 = (.ok (), (st.reserve granted 128).2) := by
    apply Prod.ext
    · cases hanswer : (st.reserve granted 128).1 with
      | ok u => rfl
      | error e =>
        rw [hanswer] at hok
        exact absurd hok Bool.false_ne_true
    · rfl
  have hkeeps := (kv_layout_sound.2 st hreach granted 128 _ hres).1
  exact ⟨st, _, hreach, hres, hbyte, (hkeeps.bytes (.cmp 0) hmem 5 hlive).trans hbyte⟩

end SlabStore

end CachedMoe.Runtime
