import CachedMoe.Framework.Update
import CachedMoe.Runtime.KvStore
import CachedMoe.Runtime.Fp4

/-! # Packing whole contexts

    `KvStore::pack` and `KvStore::unpack` of `runtime/kvstore.cpp`: the non-window state of a
    context as fp4 rows, the rows that are not on the grid as bf16, and the carried state.
    Unpacking what was packed restores every bit of it, and touches nothing else. -/

namespace CachedMoe.Runtime

open CachedMoe

/-! ### The packed form -/

structure KvPackedPlane where
  layer : Nat := 0
  ratio : Nat := 1
  rows : Nat := 0
  /-- `[rows][latent/2]`, `[rows][latent/16]` E4M3. -/
  cmp_fp4 : List UInt8 := []
  cmp_scale : List UInt8 := []
  /-- `[rows][index/2]`, `[rows][index/32]` E8M0. -/
  key_fp4 : List UInt8 := []
  key_scale : List UInt8 := []
  /-- Rows kept as bf16, and their values. -/
  raw_rows : List Nat := []
  raw_cmp : List UInt16 := []
  raw_key : List UInt16 := []
  /-- `[ratio][latent]`, only for a ratio above 1. -/
  carry_kv : List UInt32 := []
  carry_score : List UInt32 := []
  deriving Repr, DecidableEq

/-- The non-window state of a context of `positions` tokens. -/
structure KvPacked where
  positions : Nat := 0
  planes : List KvPackedPlane := []
  deriving Repr, DecidableEq

namespace KvStore

/-! ### pack -/

/-- Row `r` of an owner's compressed plane, and of its index-key plane. -/
def cmp_row (kv : KvStore) (oi r : Nat) : List UInt16 :=
  Region.read (kv.cmp oi) (r * kv.cfg.latent_dim) kv.cfg.latent_dim

def key_row (kv : KvStore) (oi r : Nat) : List UInt16 :=
  Region.read (kv.key oi) (r * kv.cfg.index_dim) kv.cfg.index_dim

def pack_cmp_row (kv : KvStore) (oi r : Nat) : Fp4Row := pack_fp4_row (kv.cmp_row oi r) 16 false
def pack_key_row (kv : KvStore) (oi r : Nat) : Fp4Row := pack_fp4_row (kv.key_row oi r) 32 true

/-- The rows one of whose two halves is off the grid. -/
def raw_rows (kv : KvStore) (oi rows : Nat) : List Nat :=
  (List.range rows).filter fun r => !((kv.pack_cmp_row oi r).ok && (kv.pack_key_row oi r).ok)

/-- How many floats of carried state a plane of this ratio has. -/
def carry_length (c : KvStoreConfig) (ratio : Nat) : Nat :=
  if ratio > 1 then ratio * c.latent_dim else 0

/-- The packed plane at index `oi` of the owners. -/
def pack_plane (kv : KvStore) (positions oi : Nat) : KvPackedPlane :=
  let c := kv.cfg
  let ratio := c.owner_ratio oi
  let rows := positions / ratio
  let carry := carry_length c ratio
  { layer := c.owners.getD oi 0
    ratio := ratio
    rows := rows
    cmp_fp4 := (List.range rows).flatMap fun r => (kv.pack_cmp_row oi r).nibbles
    cmp_scale := (List.range rows).flatMap fun r => (kv.pack_cmp_row oi r).scales
    key_fp4 := (List.range rows).flatMap fun r => (kv.pack_key_row oi r).nibbles
    key_scale := (List.range rows).flatMap fun r => (kv.pack_key_row oi r).scales
    raw_rows := kv.raw_rows oi rows
    raw_cmp := (kv.raw_rows oi rows).flatMap (kv.cmp_row oi)
    raw_key := (kv.raw_rows oi rows).flatMap (kv.key_row oi)
    carry_kv := Region.read kv.state (oi * c.state_stride) carry
    carry_score := Region.read kv.state (c.score_base + oi * c.state_stride) carry }

/-- The loop of `pack` over owner indices. -/
def pack_planes (kv : KvStore) (positions : Nat) : List Nat → Result (List KvPackedPlane)
  | [] => .ok []
  | oi :: rest =>
    let layer := kv.cfg.owners.getD oi 0
    let rows := positions / kv.cfg.owner_ratio oi
    if rows > kv.rows_hw oi ∨ rows > kv.cfg.rows_for layer kv.cap then
      fail .FailedPrecondition (s!"packing {positions} positions needs {rows} rows of layer " ++
        s!"{layer}'s plane; {kv.rows_hw oi} were ever written")
    else
      match kv.pack_planes positions rest with
      | .error e => .error e
      | .ok planes => .ok (kv.pack_plane positions oi :: planes)

def pack (kv : KvStore) (positions : Nat) : Result KvPacked :=
  if ¬ kv.valid then fail .FailedPrecondition "KV store is not created"
  else
    match kv.pack_planes positions (List.range kv.cfg.owners.length) with
    | .error e => .error e
    | .ok planes => .ok { positions := positions, planes := planes }

/-! ### unpack -/

/-- The first loop of `unpack`: every row decoded, the raw ones to whatever their codes say. -/
def decode_rows (d block : Nat) (e8m0 : Bool) (rows : Nat) (nibbles scales : List UInt8) :
    Nat → UInt16 :=
  (List.range rows).foldl (fun buf r =>
    Region.write buf (r * d)
      (unpack_fp4_row (nibbles.drop (r * d / 2)) (scales.drop (r * d / block)) d block e8m0))
    fun _ => 0

/-- The second loop: the raw rows over the decoded ones. -/
def overlay_raw (d : Nat) (raw_rows : List Nat) (raw : List UInt16) (buf : Nat → UInt16) :
    Nat → UInt16 :=
  raw_rows.zipIdx.foldl (fun buf ri => Region.write buf (ri.1 * d) ((raw.drop (ri.2 * d)).take d))
    buf

/-- The rows of one half of a packed plane, as the copy into the store takes them. -/
def plane_rows (d block : Nat) (e8m0 : Bool) (rows : Nat) (nibbles scales : List UInt8)
    (raw_rows : List Nat) (raw : List UInt16) : List UInt16 :=
  Region.read (overlay_raw d raw_rows raw (decode_rows d block e8m0 rows nibbles scales))
    0 (rows * d)

/-- The carried state of a packed plane, copied when it has the size of the ratio. -/
def put_packed_carry (c : KvStoreConfig) (p : KvPackedPlane) (oi : Nat) (state : Nat → UInt32) :
    Nat → UInt32 :=
  if p.ratio > 1 ∧ p.carry_kv.length = p.ratio * c.latent_dim then
    Region.write (Region.write state (oi * c.state_stride) p.carry_kv)
      (c.score_base + oi * c.state_stride) p.carry_score
  else state

/-- Copies a packed plane over the owner's. -/
def put_plane (kv : KvStore) (p : KvPackedPlane) (oi : Nat) : KvStore :=
  let c := kv.cfg
  { kv with
    cmp := Function.update kv.cmp oi (Region.write (kv.cmp oi) 0
      (plane_rows c.latent_dim 16 false p.rows p.cmp_fp4 p.cmp_scale p.raw_rows p.raw_cmp))
    key := Function.update kv.key oi (Region.write (kv.key oi) 0
      (plane_rows c.index_dim 32 true p.rows p.key_fp4 p.key_scale p.raw_rows p.raw_key))
    rows_hw := Function.update kv.rows_hw oi (max (kv.rows_hw oi) p.rows)
    state := put_packed_carry c p oi kv.state }

/-- The loop of `unpack` over the packed planes. -/
def unpack_planes : List KvPackedPlane → KvStore → Result Unit × KvStore
  | [], kv => (.ok (), kv)
  | p :: rest, kv =>
    let mismatch : Result Unit × KvStore :=
      (fail .InvalidArgument
        s!"packed plane of layer {p.layer} at ratio {p.ratio} does not match this store", kv)
    match kv.owner_index p.layer with
    | none => mismatch
    | some oi =>
      if kv.cfg.owners.getD oi 0 ≠ p.layer ∨ kv.cfg.plane_ratio p.layer ≠ p.ratio then mismatch
      else unpack_planes rest (kv.put_plane p oi)

/-- The row count of every layer at a context of `positions` tokens. -/
def packed_counts (kv : KvStore) (positions l : Nat) : Nat :=
  if l < kv.cfg.layers then
    match kv.owner_index l with
    | none => 0
    | some oi => positions / kv.cfg.owner_ratio oi
  else kv.n_cmp l

def unpack (kv : KvStore) (pk : KvPacked) : Result Unit × KvStore :=
  if ¬ kv.valid then (fail .FailedPrecondition "KV store is not created", kv)
  else
    match kv.reserve (max pk.positions 1) with
    | (.error e, kv) => (.error e, kv)
    | (.ok (), kv) =>
      match unpack_planes pk.planes kv with
      | (.error e, kv) => (.error e, kv)
      | (.ok (), kv) => (.ok (), { kv with n_cmp := kv.packed_counts pk.positions })

end KvStore

/-! ### One plane -/

open KvStore

theorem decode_rows_row {d block rows : Nat} {e8m0 : Bool} {nibbles scales : List UInt8} {r : Nat}
    (hr : r < rows) :
    Region.read (decode_rows d block e8m0 rows nibbles scales) (r * d) d =
      unpack_fp4_row (nibbles.drop (r * d / 2)) (scales.drop (r * d / block)) d block e8m0 := by
  have hrows := Region.read_foldl_write_row (l := List.range rows) (f := id) (d := d)
    (v := fun r => unpack_fp4_row (nibbles.drop (r * d / 2)) (scales.drop (r * d / block)) d
      block e8m0) (fun r _ => by simp [unpack_fp4_row]) fun _ => 0
  exact (congrFun hrows r).trans
    (PointUpdate.foldl_update_of_mem Function.injective_id _ _ (List.mem_range.mpr hr))

theorem overlay_raw_row {src buf : Nat → UInt16} {d : Nat} {raw_rows : List Nat}
    {raw : List UInt16} (hraw : raw = raw_rows.flatMap fun r => Region.read src (r * d) d)
    (r : Nat) :
    Region.read (overlay_raw d raw_rows raw buf) (r * d) d =
      if r ∈ raw_rows then Region.read src (r * d) d else Region.read buf (r * d) d := by
  have hlen : ∀ r ∈ raw_rows, (Region.read src (r * d) d).length = d := fun r _ =>
    Region.length_read src _ _
  have htake : ∀ ri ∈ raw_rows.zipIdx,
      (raw.drop (ri.2 * d)).take d = Region.read src (ri.1 * d) d := by
    intro ri hri
    rw [hraw]
    exact Region.take_drop_flatMap_row hlen (List.mem_zipIdx_iff_getElem?.mp hri)
  have hrows := Region.read_foldl_write_row (f := Prod.fst) (d := d)
    (v := fun ri => (raw.drop (ri.2 * d)).take d)
    (fun ri hri => by rw [htake ri hri, Region.length_read]) buf
  refine (congrFun hrows r).trans ?_
  by_cases hmem : r ∈ raw_rows
  · obtain ⟨i, hi⟩ := List.getElem?_of_mem hmem
    have hri : (r, i) ∈ raw_rows.zipIdx := List.mem_zipIdx_iff_getElem?.mpr hi
    rw [if_pos hmem]
    exact PointUpdate.foldl_update_of_agree (f := Prod.fst)
      (g := fun r => Region.read src (r * d) d) _ hri htake
  · have hskip : ∀ ri ∈ raw_rows.zipIdx, ri.1 ≠ r := by
      intro ri hri heq
      exact hmem (heq ▸ List.mem_of_getElem? (List.mem_zipIdx_iff_getElem?.mp hri))
    rw [if_neg hmem]
    exact PointUpdate.foldl_update_of_ne Prod.fst _ _ hskip

/-- The rows of one half of a plane come back: a row either was coded, or is a raw one. -/
theorem plane_rows_eq {src : Nat → UInt16} {d block rows : Nat} {e8m0 : Bool}
    {nibbles scales : List UInt8} {raw_rows : List Nat} {raw : List UInt16}
    (hraw : raw = raw_rows.flatMap fun r => Region.read src (r * d) d)
    (hcoded : ∀ r, r < rows → r ∉ raw_rows →
      unpack_fp4_row (nibbles.drop (r * d / 2)) (scales.drop (r * d / block)) d block e8m0 =
        Region.read src (r * d) d) :
    plane_rows d block e8m0 rows nibbles scales raw_rows raw = Region.read src 0 (rows * d) := by
  apply Region.read_eq_of_rows
  intro r hr
  rw [overlay_raw_row hraw r]
  split
  · rfl
  next hmem => rw [decode_rows_row hr, hcoded r hr hmem]

/-- An element of row `r`'s part of a concatenation of equally long parts. -/
theorem getD_drop_flatMap {part : Nat → List UInt8} {rows w r j : Nat}
    (hlen : ∀ r, (part r).length = w) (hr : r < rows) (hj : j < w) :
    (((List.range rows).flatMap part).drop (r * w)).getD j 0 = (part r).getD j 0 := by
  simp only [List.getD, List.getElem?_drop]
  rw [Region.getElem?_flatMap_row (fun r _ => hlen r) hj, List.getElem?_range hr]
  rfl

/-- A coded row is decoded to itself, out of the concatenation of all the rows' codes. -/
theorem unpack_row_of_planes {rows d block : Nat} {e8m0 : Bool} (row : Nat → List UInt16) {r : Nat}
    (hlen : ∀ r, (row r).length = d) (hr : r < rows)
    (hok : (pack_fp4_row (row r) block e8m0).ok = true) :
    unpack_fp4_row
      (((List.range rows).flatMap fun r => (pack_fp4_row (row r) block e8m0).nibbles).drop
        (r * d / 2))
      (((List.range rows).flatMap fun r => (pack_fp4_row (row r) block e8m0).scales).drop
        (r * d / block)) d block e8m0 = row r := by
  obtain ⟨_, hblock, heven⟩ := pack_fp4_row_shape hok
  rw [hlen] at hblock heven
  rw [Nat.mul_div_assoc r (Nat.dvd_of_mod_eq_zero heven),
    Nat.mul_div_assoc r (Nat.dvd_of_mod_eq_zero hblock)]
  nth_rewrite 3 [← hlen r]
  apply unpack_fp4_row_pack hok
  · intro j hj
    rw [hlen] at hj
    exact getD_drop_flatMap (fun r => by rw [(length_pack_fp4_row _ _ _).1, hlen]) hr hj
  · intro j hj
    rw [hlen] at hj
    exact getD_drop_flatMap (fun r => by rw [(length_pack_fp4_row _ _ _).2, hlen]) hr hj

theorem pack_plane_rows (kv : KvStore) (positions oi : Nat) :
    let p := kv.pack_plane positions oi
    plane_rows kv.cfg.latent_dim 16 false p.rows p.cmp_fp4 p.cmp_scale p.raw_rows p.raw_cmp =
      Region.read (kv.cmp oi) 0 (p.rows * kv.cfg.latent_dim) ∧
    plane_rows kv.cfg.index_dim 32 true p.rows p.key_fp4 p.key_scale p.raw_rows p.raw_key =
      Region.read (kv.key oi) 0 (p.rows * kv.cfg.index_dim) := by
  intro p
  -- a row that is not raw has both of its halves coded
  have hcoded : ∀ r, r < p.rows → r ∉ p.raw_rows →
      (kv.pack_cmp_row oi r).ok = true ∧ (kv.pack_key_row oi r).ok = true := by
    intro r hr hraw
    by_contra hbad
    apply hraw
    refine List.mem_filter.mpr ⟨List.mem_range.mpr hr, ?_⟩
    rwa [Bool.not_eq_true', ← Bool.not_eq_true, Bool.and_eq_true]
  refine ⟨?_, ?_⟩
  · apply plane_rows_eq rfl
    intro r hr hraw
    exact unpack_row_of_planes (kv.cmp_row oi) (fun r => Region.length_read _ _ _) hr
      (hcoded r hr hraw).1
  · apply plane_rows_eq rfl
    intro r hr hraw
    exact unpack_row_of_planes (kv.key_row oi) (fun r => Region.length_read _ _ _) hr
      (hcoded r hr hraw).2

/-! ### Restoring a list of planes -/

/-- How many rows of an owner's planes a context of `positions` tokens has. -/
def packed_rows (c : KvStoreConfig) (positions oi : Nat) : Nat := positions / c.owner_ratio oi

/-- Offset `x` of the state region is carried by one of the owners `ois`. -/
def InCarry (c : KvStoreConfig) (ois : List Nat) (x : Nat) : Prop :=
  ∃ oi ∈ ois, ∃ j < carry_length c (c.owner_ratio oi),
    x = oi * c.state_stride + j ∨ x = c.score_base + oi * c.state_stride + j

/-- What packing leaves out: nothing of it is touched. -/
structure SameWindow (kv kv' : KvStore) : Prop where
  cfg : kv'.cfg = kv.cfg
  valid : kv'.valid = kv.valid
  win_lo : kv'.win_lo = kv.win_lo
  slot_pos : kv'.slot_pos = kv.slot_pos
  win_val : kv'.win_val = kv.win_val
  win_scale : kv'.win_scale = kv.win_scale
  top : kv'.top = kv.top
  n_kv : kv'.n_kv = kv.n_kv

/-- `kv'` is `kv` with the planes of `ois` restored from `src`, and nothing else changed. -/
structure Restored (src kv kv' : KvStore) (positions : Nat) (ois : List Nat) : Prop where
  window : SameWindow kv kv'
  cmp : ∀ oi ∈ ois, ∀ j < packed_rows kv.cfg positions oi * kv.cfg.latent_dim,
    kv'.cmp oi j = src.cmp oi j
  cmp_outside : ∀ oi j,
    (oi ∈ ois → packed_rows kv.cfg positions oi * kv.cfg.latent_dim ≤ j) →
    kv'.cmp oi j = kv.cmp oi j
  key : ∀ oi ∈ ois, ∀ j < packed_rows kv.cfg positions oi * kv.cfg.index_dim,
    kv'.key oi j = src.key oi j
  key_outside : ∀ oi j,
    (oi ∈ ois → packed_rows kv.cfg positions oi * kv.cfg.index_dim ≤ j) →
    kv'.key oi j = kv.key oi j
  carry : ∀ x, InCarry kv.cfg ois x → kv'.state x = src.state x
  carry_outside : ∀ x, ¬ InCarry kv.cfg ois x → kv'.state x = kv.state x

/-- Writing `n` elements of one region over another at offset 0, for one owner. -/
theorem update_write_read {f : Nat → Nat → UInt16} (m : Nat → UInt16) (oi n : Nat)
    (oi' j : Nat) :
    Function.update f oi (Region.write (f oi) 0 (Region.read m 0 n)) oi' j =
      if oi' = oi ∧ j < n then m j else f oi' j := by
  by_cases h : oi' = oi
  · subst h
    rw [Function.update_self, Region.write_read]
    simp
  · rw [Function.update_of_ne h, if_neg (fun hc => h hc.1)]

theorem put_packed_carry_eq (src : KvStore) (positions oi : Nat) (state : Nat → UInt32) (x : Nat) :
    (InCarry src.cfg [oi] x →
      put_packed_carry src.cfg (src.pack_plane positions oi) oi state x = src.state x) ∧
    (¬ InCarry src.cfg [oi] x →
      put_packed_carry src.cfg (src.pack_plane positions oi) oi state x = state x) := by
  have hin : InCarry src.cfg [oi] x ↔ ∃ j < carry_length src.cfg (src.cfg.owner_ratio oi),
      x = oi * src.cfg.state_stride + j ∨
      x = src.cfg.score_base + oi * src.cfg.state_stride + j := by
    simp [InCarry]
  rw [hin]
  unfold put_packed_carry
  have hratio : (src.pack_plane positions oi).ratio = src.cfg.owner_ratio oi := rfl
  have hlen : (src.pack_plane positions oi).carry_kv.length =
      carry_length src.cfg (src.cfg.owner_ratio oi) := Region.length_read _ _ _
  rw [hratio, hlen]
  split
  next hcarry =>
    show (_ → Region.write (Region.write state _ (Region.read src.state _ _)) _
        (Region.read src.state _ _) x = _) ∧
      (_ → Region.write (Region.write state _ (Region.read src.state _ _)) _
        (Region.read src.state _ _) x = _)
    rw [Region.write_read, Region.write_read]
    refine ⟨?_, ?_⟩
    · intro hx
      obtain ⟨j, hj, hx | hx⟩ := hx
      · split
        · rfl
        · rw [if_pos (by omega)]
      · rw [if_pos (by omega)]
    · intro hx
      have hscore : ¬ (src.cfg.score_base + oi * src.cfg.state_stride ≤ x ∧
          x < src.cfg.score_base + oi * src.cfg.state_stride +
            carry_length src.cfg (src.cfg.owner_ratio oi)) := fun h =>
        hx ⟨x - (src.cfg.score_base + oi * src.cfg.state_stride), by omega, Or.inr (by omega)⟩
      have hkv : ¬ (oi * src.cfg.state_stride ≤ x ∧
          x < oi * src.cfg.state_stride + carry_length src.cfg (src.cfg.owner_ratio oi)) := fun h =>
        hx ⟨x - oi * src.cfg.state_stride, by omega, Or.inl (by omega)⟩
      rw [if_neg hscore, if_neg hkv]
  next hcarry =>
    -- a ratio of 1 carries nothing
    have hzero : carry_length src.cfg (src.cfg.owner_ratio oi) = 0 := by
      unfold carry_length at hcarry ⊢
      split
      · next hgt => simp [hgt] at hcarry
      · rfl
    rw [hzero]
    exact ⟨fun ⟨j, hj, _⟩ => absurd hj (Nat.not_lt_zero j), fun _ => rfl⟩

theorem put_plane_restored {src kv : KvStore} (hcfg : kv.cfg = src.cfg) (positions oi : Nat) :
    Restored src kv (kv.put_plane (src.pack_plane positions oi) oi) positions [oi] := by
  obtain ⟨hcmp, hkey⟩ := pack_plane_rows src positions oi
  have hrows : (src.pack_plane positions oi).rows = packed_rows kv.cfg positions oi := by
    rw [hcfg]
    rfl
  rw [← hcfg, hrows] at hcmp hkey
  -- a plane writes the packed rows of its own owner only
  have hcmp' : ∀ oi' j, (kv.put_plane (src.pack_plane positions oi) oi).cmp oi' j =
      if oi' = oi ∧ j < packed_rows kv.cfg positions oi * kv.cfg.latent_dim then src.cmp oi j
      else kv.cmp oi' j := by
    intro oi' j
    simp only [put_plane]
    rw [hrows, hcmp]
    exact update_write_read (src.cmp oi) oi _ oi' j
  have hkey' : ∀ oi' j, (kv.put_plane (src.pack_plane positions oi) oi).key oi' j =
      if oi' = oi ∧ j < packed_rows kv.cfg positions oi * kv.cfg.index_dim then src.key oi j
      else kv.key oi' j := by
    intro oi' j
    simp only [put_plane]
    rw [hrows, hkey]
    exact update_write_read (src.key oi) oi _ oi' j
  have hstate : ∀ x, (kv.put_plane (src.pack_plane positions oi) oi).state x =
      put_packed_carry src.cfg (src.pack_plane positions oi) oi kv.state x := by
    intro x
    rw [← hcfg]
    rfl
  refine ⟨⟨rfl, rfl, rfl, rfl, rfl, rfl, rfl, rfl⟩, ?_, ?_, ?_, ?_, ?_, ?_⟩
  · intro oi' hoi j hj
    obtain rfl := List.mem_singleton.mp hoi
    rw [hcmp', if_pos ⟨rfl, hj⟩]
  · intro oi' j hout
    rw [hcmp', if_neg]
    intro hin
    obtain ⟨rfl, hj⟩ := hin
    exact absurd (hout List.mem_cons_self) (Nat.not_le.mpr hj)
  · intro oi' hoi j hj
    obtain rfl := List.mem_singleton.mp hoi
    rw [hkey', if_pos ⟨rfl, hj⟩]
  · intro oi' j hout
    rw [hkey', if_neg]
    intro hin
    obtain ⟨rfl, hj⟩ := hin
    exact absurd (hout List.mem_cons_self) (Nat.not_le.mpr hj)
  · intro x hx
    rw [hcfg] at hx
    rw [hstate, (put_packed_carry_eq src positions oi kv.state x).1 hx]
  · intro x hx
    rw [hcfg] at hx
    rw [hstate, (put_packed_carry_eq src positions oi kv.state x).2 hx]

theorem SameWindow.trans {kv₁ kv₂ kv₃ : KvStore} (h : SameWindow kv₁ kv₂)
    (h' : SameWindow kv₂ kv₃) : SameWindow kv₁ kv₃ :=
  ⟨h'.cfg.trans h.cfg, h'.valid.trans h.valid, h'.win_lo.trans h.win_lo,
    h'.slot_pos.trans h.slot_pos, h'.win_val.trans h.win_val, h'.win_scale.trans h.win_scale,
    h'.top.trans h.top, h'.n_kv.trans h.n_kv⟩

theorem inCarry_cons {c : KvStoreConfig} {oi : Nat} {ois : List Nat} {x : Nat} :
    InCarry c (oi :: ois) x ↔ InCarry c [oi] x ∨ InCarry c ois x := by
  simp [InCarry]

/-- First one plane, then the others. -/
theorem Restored.cons {src kv₁ kv₂ kv₃ : KvStore} {positions oi : Nat} {ois : List Nat}
    (h : Restored src kv₁ kv₂ positions [oi]) (h' : Restored src kv₂ kv₃ positions ois) :
    Restored src kv₁ kv₃ positions (oi :: ois) := by
  have hcfg := h.window.cfg
  have hcmp := h'.cmp
  have hcmp_out := h'.cmp_outside
  have hkey := h'.key
  have hkey_out := h'.key_outside
  have hcarry := h'.carry
  have hcarry_out := h'.carry_outside
  rw [hcfg] at hcmp hcmp_out hkey hkey_out hcarry hcarry_out
  refine ⟨h.window.trans h'.window, ?_, ?_, ?_, ?_, ?_, ?_⟩
  · intro oi' hoi j hj
    by_cases hlater : oi' ∈ ois
    · exact hcmp oi' hlater j hj
    · rw [hcmp_out oi' j fun hmem => absurd hmem hlater]
      exact h.cmp oi' (List.mem_singleton.mpr ((List.mem_cons.mp hoi).resolve_right hlater)) j hj
  · intro oi' j hout
    rw [hcmp_out oi' j fun hmem => hout (List.mem_cons_of_mem _ hmem)]
    exact h.cmp_outside oi' j fun hmem => hout (List.mem_singleton.mp hmem ▸ List.mem_cons_self)
  · intro oi' hoi j hj
    by_cases hlater : oi' ∈ ois
    · exact hkey oi' hlater j hj
    · rw [hkey_out oi' j fun hmem => absurd hmem hlater]
      exact h.key oi' (List.mem_singleton.mpr ((List.mem_cons.mp hoi).resolve_right hlater)) j hj
  · intro oi' j hout
    rw [hkey_out oi' j fun hmem => hout (List.mem_cons_of_mem _ hmem)]
    exact h.key_outside oi' j fun hmem => hout (List.mem_singleton.mp hmem ▸ List.mem_cons_self)
  · intro x hx
    by_cases hlater : InCarry kv₁.cfg ois x
    · exact hcarry x hlater
    · rw [hcarry_out x hlater]
      exact h.carry x ((inCarry_cons.mp hx).resolve_right hlater)
  · intro x hx
    rw [inCarry_cons, not_or] at hx
    rw [hcarry_out x hx.2, h.carry_outside x hx.1]

theorem Restored.nil (src kv : KvStore) (positions : Nat) : Restored src kv kv positions [] := by
  refine ⟨⟨rfl, rfl, rfl, rfl, rfl, rfl, rfl, rfl⟩, ?_, fun _ _ _ => rfl, ?_, fun _ _ _ => rfl, ?_,
    fun _ _ => rfl⟩
  · intro oi hoi
    cases hoi
  · intro oi hoi
    cases hoi
  · intro x hx
    obtain ⟨oi, hoi, _⟩ := hx
    cases hoi

theorem pack_planes_eq {kv : KvStore} {positions : Nat} {ois : List Nat}
    {planes : List KvPackedPlane} (h : kv.pack_planes positions ois = .ok planes) :
    planes = ois.map (kv.pack_plane positions) := by
  induction ois generalizing planes with
  | nil =>
    cases h
    rfl
  | cons oi ois ih =>
    unfold pack_planes at h
    dsimp only at h
    split at h
    · cases h
    split at h
    · cases h
    next planes' hrest =>
    cases h
    rw [List.map_cons, ih hrest]

/-- The loop of `unpack` takes every plane of a store of the same shape, and restores it. -/
theorem unpack_planes_restored {src kv : KvStore} (hcfg : kv.cfg = src.cfg) (positions : Nat)
    {ois : List Nat} (hois : ∀ oi ∈ ois, oi < src.cfg.owners.length) :
    ∃ kv', unpack_planes (ois.map (src.pack_plane positions)) kv = (.ok (), kv') ∧
      kv'.cap = kv.cap ∧ Restored src kv kv' positions ois := by
  induction ois generalizing kv with
  | nil => exact ⟨kv, rfl, rfl, Restored.nil src kv positions⟩
  | cons oi ois ih =>
    have hoi := hois oi List.mem_cons_self
    have hindex : kv.owner_index (src.pack_plane positions oi).layer = some oi := by
      have h : kv.owner_index (kv.cfg.owners.getD oi 0) = some oi :=
        owner_index_owner kv (hcfg ▸ hoi)
      rwa [hcfg] at h
    have hlayer : kv.cfg.owners.getD oi 0 = (src.pack_plane positions oi).layer := by
      rw [hcfg]
      rfl
    have hratio : kv.cfg.plane_ratio (src.pack_plane positions oi).layer =
        (src.pack_plane positions oi).ratio := by
      rw [hcfg]
      rfl
    have hone := put_plane_restored hcfg positions oi
    obtain ⟨kv', hrun, hcap, hrest⟩ := ih (hone.window.cfg.trans hcfg) fun oi' hoi' =>
      hois oi' (List.mem_cons_of_mem _ hoi')
    refine ⟨kv', ?_, hcap, hone.cons hrest⟩
    rw [List.map_cons, unpack_planes, hindex]
    dsimp only
    rw [if_neg (by rw [hlayer, hratio]; simp), hrun]

/-! ### Whole contexts -/

/-- What growing the store keeps: everything but the rows above those ever written, and those
    too when it does not grow. -/
theorem reserve_keeps {kv kv' : KvStore} {n : Nat} (h : kv.reserve n = (.ok (), kv')) :
    SameWindow kv kv' ∧ kv'.state = kv.state ∧
    (∀ oi j, j < kv.rows_hw oi * kv.cfg.latent_dim ∨ n ≤ kv.cap → kv'.cmp oi j = kv.cmp oi j) ∧
    (∀ oi j, j < kv.rows_hw oi * kv.cfg.index_dim ∨ n ≤ kv.cap → kv'.key oi j = kv.key oi j) := by
  unfold reserve at h
  split at h
  · cases h
  split at h
  · cases h
    exact ⟨⟨rfl, rfl, rfl, rfl, rfl, rfl, rfl, rfl⟩, rfl, fun _ _ _ => rfl, fun _ _ _ => rfl⟩
  next hcap =>
  split at h
  · cases h
  dsimp only at h
  split at h
  · cases h
  cases h
  refine ⟨⟨rfl, rfl, rfl, rfl, rfl, rfl, rfl, rfl⟩, rfl, ?_, ?_⟩
  · intro oi j hj
    exact if_pos (hj.resolve_right hcap)
  · intro oi j hj
    exact if_pos (hj.resolve_right hcap)

/-- `dst'` is `dst` after taking the packed context of `positions` tokens of `src`: every
    packed row, key and carry has the bits of `src`, everything else those of `dst`. -/
structure UnpackExact (src dst dst' : KvStore) (positions : Nat) : Prop where
  window : SameWindow dst dst'
  cmp : ∀ oi < src.cfg.owners.length, ∀ j < packed_rows src.cfg positions oi * src.cfg.latent_dim,
    dst'.cmp oi j = src.cmp oi j
  key : ∀ oi < src.cfg.owners.length, ∀ j < packed_rows src.cfg positions oi * src.cfg.index_dim,
    dst'.key oi j = src.key oi j
  carry : ∀ oi < src.cfg.owners.length, ∀ j < carry_length src.cfg (src.cfg.owner_ratio oi),
    dst'.state (oi * src.cfg.state_stride + j) = src.state (oi * src.cfg.state_stride + j) ∧
    dst'.state (src.cfg.score_base + oi * src.cfg.state_stride + j) =
      src.state (src.cfg.score_base + oi * src.cfg.state_stride + j)
  cmp_outside : ∀ oi j,
    (oi < src.cfg.owners.length → packed_rows src.cfg positions oi * src.cfg.latent_dim ≤ j) →
    j < dst.rows_hw oi * dst.cfg.latent_dim ∨ max positions 1 ≤ dst.cap →
    dst'.cmp oi j = dst.cmp oi j
  key_outside : ∀ oi j,
    (oi < src.cfg.owners.length → packed_rows src.cfg positions oi * src.cfg.index_dim ≤ j) →
    j < dst.rows_hw oi * dst.cfg.index_dim ∨ max positions 1 ≤ dst.cap →
    dst'.key oi j = dst.key oi j
  carry_outside : ∀ x, ¬ InCarry src.cfg (List.range src.cfg.owners.length) x →
    dst'.state x = dst.state x

theorem pack_eq {kv : KvStore} {positions : Nat} {pk : KvPacked}
    (h : kv.pack positions = .ok pk) :
    pk = { positions := positions,
           planes := (List.range kv.cfg.owners.length).map (kv.pack_plane positions) } := by
  unfold pack at h
  split at h
  · cases h
  split at h
  · cases h
  next planes hplanes =>
  cases h
  rw [pack_planes_eq hplanes]

/-- Packing is bit exact. For every store and every context length it can pack, whatever its
    rows, keys and carried state hold, unpacking the result into any store of the same shape
    gives back every packed row, index key and carry value, and leaves alone what lies outside
    them; and the unpacking succeeds whenever the target can hold the positions. -/
theorem unpack_pack_exact {src dst : KvStore} (hcfg : dst.cfg = src.cfg) {positions : Nat}
    {pk : KvPacked} (hpack : src.pack positions = .ok pk) :
    (∀ dst', dst.unpack pk = (.ok (), dst') → UnpackExact src dst dst' positions) ∧
    (dst.valid = true → (dst.reserve (max positions 1)).1 = .ok () →
      ∃ dst', dst.unpack pk = (.ok (), dst')) := by
  rw [pack_eq hpack]
  have hois : ∀ oi ∈ List.range src.cfg.owners.length, oi < src.cfg.owners.length := fun oi hoi =>
    List.mem_range.mp hoi
  refine ⟨?_, ?_⟩
  · intro dst' h
    unfold unpack at h
    split at h
    · cases h
    dsimp only at h
    split at h
    · cases h
    next kv₁ hreserve =>
    obtain ⟨hwin, hstate, hcmp, hkey⟩ := reserve_keeps hreserve
    have hcfg₁ : kv₁.cfg = src.cfg := hwin.cfg.trans hcfg
    obtain ⟨kv₂, hrun, _, hres⟩ := unpack_planes_restored hcfg₁ positions hois
    rw [hrun] at h
    cases h
    have hmem : ∀ oi, oi ∈ List.range src.cfg.owners.length ↔ oi < src.cfg.owners.length := fun _ =>
      List.mem_range
    have hwindow := hwin.trans hres.window
    refine ⟨⟨hwindow.cfg, hwindow.valid, hwindow.win_lo, hwindow.slot_pos, hwindow.win_val,
      hwindow.win_scale, hwindow.top, hwindow.n_kv⟩, ?_, ?_, ?_, ?_, ?_, ?_⟩
    · intro oi hoi j hj
      exact hres.cmp oi ((hmem oi).mpr hoi) j (by rwa [hcfg₁])
    · intro oi hoi j hj
      exact hres.key oi ((hmem oi).mpr hoi) j (by rwa [hcfg₁])
    · intro oi hoi j hj
      rw [← hcfg₁] at hj ⊢
      exact ⟨hres.carry _ ⟨oi, (hmem oi).mpr hoi, j, hj, Or.inl rfl⟩,
        hres.carry _ ⟨oi, (hmem oi).mpr hoi, j, hj, Or.inr rfl⟩⟩
    · intro oi j hout hlive
      rw [← hcmp oi j hlive]
      exact hres.cmp_outside oi j fun hoi => by rw [hcfg₁]; exact hout ((hmem oi).mp hoi)
    · intro oi j hout hlive
      rw [← hkey oi j hlive]
      exact hres.key_outside oi j fun hoi => by rw [hcfg₁]; exact hout ((hmem oi).mp hoi)
    · intro x hx
      rw [← hstate]
      exact hres.carry_outside x (by rwa [hcfg₁])
  · intro hvalid hroom
    -- with room for the positions no plane is refused
    unfold unpack
    rw [if_neg (by simp [hvalid])]
    cases hreserve : dst.reserve (max positions 1) with
    | mk r kv₁ =>
      rw [hreserve] at hroom
      change r = .ok () at hroom
      subst hroom
      have hcfg₁ : kv₁.cfg = src.cfg := (reserve_keeps hreserve).1.cfg.trans hcfg
      obtain ⟨kv₂, hrun, _, _⟩ := unpack_planes_restored hcfg₁ positions hois
      dsimp only
      rw [hrun]
      exact ⟨_, rfl⟩

/-! #### A context with a row off the grid -/

/-- Two layers, of which the first owns a plane at ratio 2. Row 0 is on the fp4 grid, row 1
    holds a NaN, an infinity and a negative zero. -/
def mixed_store : KvStore where
  cfg := { layers := 2, window := 4, window_pos := KvStoreConfig.small_window_pos,
           latent_dim := 16, index_dim := 32, max_context := 8,
           plane_of := [some 0, some 0], ratio := [2, 1] }
  valid := true
  cap := 8
  rows_hw := fun _ => 2
  cmp := fun _ j => if j < 16 then 0x3F80 else if j = 16 then 0x7FC1 else 0xFF80
  key := fun _ j => if j < 32 then 0xC0C0 else 0x8000
  state := fun x => x.toUInt32

/-- The same store after `clear`. -/
def cleared_store : KvStore :=
  { mixed_store with cmp := fun _ _ => 0, key := fun _ _ => 0, state := fun _ => 0 }

theorem unpack_pack_exact_mixed :
    ∃ pk kv', mixed_store.pack 4 = .ok pk ∧ cleared_store.unpack pk = (.ok (), kv') ∧
      kv'.cmp 0 0 = 0x3F80 ∧ kv'.cmp 0 16 = 0x7FC1 ∧ kv'.cmp 0 32 = 0 := by
  obtain ⟨pk, hpk⟩ : ∃ pk, mixed_store.pack 4 = .ok pk := ⟨_, rfl⟩
  have hcfg : cleared_store.cfg = mixed_store.cfg := rfl
  have hexact := unpack_pack_exact hcfg hpk
  obtain ⟨kv', hkv'⟩ := hexact.2 rfl rfl
  have hspec := hexact.1 kv' hkv'
  refine ⟨pk, kv', hpk, hkv', ?_, ?_, ?_⟩
  · rw [hspec.cmp 0 (by decide) 0 (by decide)]
    rfl
  · rw [hspec.cmp 0 (by decide) 16 (by decide)]
    rfl
  · rw [hspec.cmp_outside 0 32 (by decide) (Or.inr (by decide))]
    rfl

end CachedMoe.Runtime
