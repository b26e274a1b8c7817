import CachedMoe.Framework.Checked
import CachedMoe.Runtime.KvFile
import CachedMoe.Runtime.Replay

/-! # Unpacking what a file holds

    `KvStore::unpack` again, with every access to a vector of the packed context and to a
    region of the store checked against its bounds, and what the engine does with a context
    loaded from disk: `restore_context`, `restore_or_cold` and `restore_active_from_disk` of
    `runtime/session.cpp`.

    The loader bounds the vectors of a file one by one and never compares them with the row
    counts, row indices and ratios that stand beside them; neither does `unpack`. -/

namespace CachedMoe.Runtime

open CachedMoe Region

/-! ### Checked accesses -/

/-- The nibbles and the scales of a row start at `at_nibble` and `at_scale`. -/
def unpack_fp4_row_checked (nibbles scales : List UInt8) (at_nibble at_scale n block : Nat)
    (e8m0 : Bool) : Option (List UInt16) :=
  (List.range n).mapM fun k =>
    nibbles[at_nibble + k / 2]?.bind fun byte =>
      scales[at_scale + k / block]?.map fun scale =>
        unpack_value (scale_of scale e8m0) (if k % 2 = 1 then byte >>> 4 else byte &&& 0x0F)

namespace KvStore

/-- The first loop of `unpack`, into a vector of `rows * d` elements. -/
def decode_rows_checked (d block : Nat) (e8m0 : Bool) (rows : Nat) (nibbles scales : List UInt8) :
    Option (Nat → UInt16) :=
  (List.range rows).foldlM (fun buf r =>
    (unpack_fp4_row_checked nibbles scales (r * d / 2) (r * d / block) d block e8m0).bind
      fun row => write_within 0 (rows * d) buf (r * d) row) fun _ => 0

/-- The second loop: row `ri.1` of the vector from row `ri.2` of the raw values. -/
def overlay_raw_checked (d rows : Nat) (raw_rows : List Nat) (raw : List UInt16)
    (buf : Nat → UInt16) : Option (Nat → UInt16) :=
  raw_rows.zipIdx.foldlM (fun buf ri =>
    (slice raw (ri.2 * d) d).bind fun row => write_within 0 (rows * d) buf (ri.1 * d) row) buf

def plane_rows_checked (d block : Nat) (e8m0 : Bool) (rows : Nat) (nibbles scales : List UInt8)
    (raw_rows : List Nat) (raw : List UInt16) : Option (List UInt16) :=
  (decode_rows_checked d block e8m0 rows nibbles scales).bind fun buf =>
    (overlay_raw_checked d rows raw_rows raw buf).map fun buf => Region.read buf 0 (rows * d)

/-- Each half of the state region has a slot of `state_stride` floats for every owner. -/
def put_packed_carry_checked (c : KvStoreConfig) (p : KvPackedPlane) (oi : Nat)
    (state : Nat → UInt32) : Option (Nat → UInt32) :=
  let kv_at := oi * c.state_stride
  let score_at := c.score_base + oi * c.state_stride
  if p.ratio > 1 ∧ p.carry_kv.length = p.ratio * c.latent_dim then
    (write_within kv_at (kv_at + c.state_stride) state kv_at p.carry_kv).bind fun state =>
      write_within score_at (score_at + c.state_stride) state score_at p.carry_score
  else some state

/-- The planes of an owner have the rows that `layout_for` gave them. -/
def put_plane_checked (kv : KvStore) (p : KvPackedPlane) (oi : Nat) : Option KvStore :=
  let c := kv.cfg
  let rows := c.rows_for (c.owners.getD oi 0) kv.cap
  (plane_rows_checked c.latent_dim 16 false p.rows p.cmp_fp4 p.cmp_scale p.raw_rows p.raw_cmp).bind
    fun cmp =>
  (plane_rows_checked c.index_dim 32 true p.rows p.key_fp4 p.key_scale p.raw_rows p.raw_key).bind
    fun key =>
  (write_within 0 (rows * c.latent_dim) (kv.cmp oi) 0 cmp).bind fun cmp =>
  (write_within 0 (rows * c.index_dim) (kv.key oi) 0 key).bind fun key =>
  (put_packed_carry_checked c p oi kv.state).map fun state =>
  { kv with
    cmp := Function.update kv.cmp oi cmp
    key := Function.update kv.key oi key
    rows_hw := Function.update kv.rows_hw oi (max (kv.rows_hw oi) p.rows)
    state := state }

def unpack_planes_checked : List KvPackedPlane → KvStore → Option (Result Unit × KvStore)
  | [], kv => some (.ok (), kv)
  | p :: rest, kv =>
    let mismatch : Result Unit × KvStore :=
      (fail .InvalidArgument
        s!"packed plane of layer {p.layer} at ratio {p.ratio} does not match this store", kv)
    match kv.owner_index p.layer with
    | none => some mismatch
    | some oi =>
      if kv.cfg.owners.getD oi 0 ≠ p.layer ∨ kv.cfg.plane_ratio p.layer ≠ p.ratio then some mismatch
      else (kv.put_plane_checked p oi).bind (unpack_planes_checked rest)

/-- `unpack`; `none` when it leaves a vector or a region before it returns. -/
def unpack_checked (kv : KvStore) (pk : KvPacked) : Option (Result Unit × KvStore) :=
  if ¬ kv.valid then some (fail .FailedPrecondition "KV store is not created", kv)
  else
    match kv.reserve (max pk.positions 1) with
    | (.error e, kv) => some (.error e, kv)
    | (.ok (), kv) =>
      (unpack_planes_checked pk.planes kv).map fun
        | (.error e, kv) => (.error e, kv)
        | (.ok (), kv) => (.ok (), { kv with n_cmp := kv.packed_counts pk.positions })

end KvStore

/-! ### What the accesses need -/

section Rows

variable {d block rows : Nat} {e8m0 : Bool} {nibbles scales : List UInt8}

theorem checked_unpack_fp4_row (at_nibble at_scale : Nat) :
    Checked (unpack_fp4_row_checked nibbles scales at_nibble at_scale d block e8m0)
      (∀ k ∈ List.range d, at_nibble + k / 2 < nibbles.length ∧
        at_scale + k / block < scales.length)
      (unpack_fp4_row (nibbles.drop at_nibble) (scales.drop at_scale) d block e8m0) := by
  apply Checked.mapM
  intro k _
  have hbyte := Checked.getElem? nibbles (at_nibble + k / 2) 0
  have hscale := Checked.getElem? scales (at_scale + k / block) 0
  have hvalue : unpack_value (scale_of ((scales.drop at_scale).getD (k / block) 0) e8m0)
      (nibble_at (nibbles.drop at_nibble) k) =
      unpack_value (scale_of (scales.getD (at_scale + k / block) 0) e8m0)
        (if k % 2 = 1 then nibbles.getD (at_nibble + k / 2) 0 >>> 4
          else nibbles.getD (at_nibble + k / 2) 0 &&& 0x0F) := by
    simp only [nibble_at, List.getD, List.getElem?_drop]
  rw [hvalue]
  exact hbyte.bind hscale.map

/-- The last element of the last row decides: a row of `d` elements reads `d / w` entries of a
    vector with one entry for `w` elements. -/
theorem row_reads_iff {w n : Nat} (hw : 0 < w) (hd : w ∣ d) :
    (∀ r ∈ List.range rows, ∀ k ∈ List.range d, r * d / w + k / w < n) ↔ rows * d / w ≤ n := by
  obtain ⟨m, rfl⟩ := hd
  have hrow : ∀ r, r * (w * m) / w = r * m := fun r => by
    rw [Nat.mul_left_comm, Nat.mul_div_cancel_left _ hw]
  simp only [List.mem_range, hrow]
  constructor
  · intro h
    rcases Nat.eq_zero_or_pos rows with rfl | hrows
    · simp
    rcases Nat.eq_zero_or_pos m with rfl | hm
    · simp
    have hlast := h (rows - 1) (by omega) (w * (m - 1)) (Nat.mul_lt_mul_of_pos_left (by omega) hw)
    rw [Nat.mul_div_cancel_left _ hw] at hlast
    have hsplit : rows * m = (rows - 1) * m + m := by
      rw [← Nat.succ_mul, Nat.succ_eq_add_one, Nat.sub_add_cancel hrows]
    omega
  · intro h r hr k hk
    have hentry : k / w < m := Nat.div_lt_of_lt_mul hk
    have hsplit : (r + 1) * m ≤ rows * m := Nat.mul_le_mul_right m hr
    rw [Nat.succ_mul] at hsplit
    omega

/-- Decoding stays within the codes exactly when they have the size of the rows. -/
theorem checked_decode_rows (hd : 2 ∣ d) (hblock : 0 < block) (hdvd : block ∣ d) :
    Checked (KvStore.decode_rows_checked d block e8m0 rows nibbles scales)
      (rows * d / 2 ≤ nibbles.length ∧ rows * d / block ≤ scales.length)
      (KvStore.decode_rows d block e8m0 rows nibbles scales) := by
  have hloop := Checked.foldlM (l := List.range rows) (fun _ => 0) fun buf r _ =>
    (@checked_unpack_fp4_row d block e8m0 nibbles scales (r * d / 2) (r * d / block)).bind
      (checked_write_within 0 (rows * d) buf (r * d) _)
  refine hloop.congr ?_
  rw [← @row_reads_iff d rows 2 nibbles.length (by decide) hd,
    ← @row_reads_iff d rows block scales.length hblock hdvd]
  constructor
  · intro h
    exact ⟨fun r hr k hk => ((h r hr).1 k hk).1, fun r hr k hk => ((h r hr).1 k hk).2⟩
  · intro ⟨hnibbles, hscales⟩ r hr
    -- the decoded row always fits the vector it goes to
    have hfits : r * d + (unpack_fp4_row (nibbles.drop (r * d / 2)) (scales.drop (r * d / block))
        d block e8m0).length ≤ rows * d := by
      have hlast : (r + 1) * d ≤ rows * d := Nat.mul_le_mul_right d (List.mem_range.mp hr)
      rw [Nat.succ_mul] at hlast
      simpa [unpack_fp4_row] using hlast
    exact ⟨fun k hk => ⟨hnibbles r hr k hk, hscales r hr k hk⟩, Nat.zero_le _, hfits⟩

/-- The raw rows fit exactly when there are values for all of them and each is one of the rows. -/
theorem checked_overlay_raw (raw_rows : List Nat) (raw : List UInt16) (buf : Nat → UInt16) :
    Checked (KvStore.overlay_raw_checked d rows raw_rows raw buf)
      (raw_rows.length * d ≤ raw.length ∧ ∀ r ∈ raw_rows, (r + 1) * d ≤ rows * d)
      (KvStore.overlay_raw d raw_rows raw buf) := by
  have hloop := Checked.foldlM (l := raw_rows.zipIdx) buf fun buf ri _ =>
    (checked_slice raw (ri.2 * d) d).bind (checked_write_within 0 (rows * d) buf (ri.1 * d) _)
  refine hloop.congr ?_
  constructor
  · intro h
    refine ⟨?_, ?_⟩
    · rcases Nat.eq_zero_or_pos raw_rows.length with hnil | hpos
      · rw [hnil]
        omega
      have hlt : raw_rows.length - 1 < raw_rows.length := by omega
      have hmem : (raw_rows[raw_rows.length - 1], raw_rows.length - 1) ∈ raw_rows.zipIdx :=
        List.mem_zipIdx_iff_getElem?.mpr (List.getElem?_eq_getElem hlt)
      have hlast := (h _ hmem).1
      have hsplit : raw_rows.length * d = (raw_rows.length - 1) * d + d := by
        rw [← Nat.succ_mul, Nat.succ_eq_add_one, Nat.sub_add_cancel hpos]
      dsimp only at hlast
      omega
    · intro r hr
      obtain ⟨i, hi⟩ := List.getElem?_of_mem hr
      obtain ⟨hslice, -, hwrite⟩ := h (r, i) (List.mem_zipIdx_iff_getElem?.mpr hi)
      rw [List.length_take, List.length_drop, Nat.min_eq_left (by omega)] at hwrite
      rwa [Nat.succ_mul]
  · intro ⟨hraw, hrows⟩ ri hri
    have hi := List.mem_zipIdx_iff_getElem?.mp hri
    have hrow := hrows ri.1 (List.mem_of_getElem? hi)
    have hlt : ri.2 < raw_rows.length := (List.getElem?_eq_some_iff.mp hi).1
    have hslice : (ri.2 + 1) * d ≤ raw_rows.length * d := Nat.mul_le_mul_right d hlt
    rw [Nat.succ_mul] at hrow hslice
    refine ⟨by omega, Nat.zero_le _, ?_⟩
    rw [List.length_take, List.length_drop, Nat.min_eq_left (by omega)]
    exact hrow

theorem checked_plane_rows (hd : 2 ∣ d) (hblock : 0 < block) (hdvd : block ∣ d)
    (raw_rows : List Nat) (raw : List UInt16) :
    Checked (KvStore.plane_rows_checked d block e8m0 rows nibbles scales raw_rows raw)
      ((rows * d / 2 ≤ nibbles.length ∧ rows * d / block ≤ scales.length) ∧
        raw_rows.length * d ≤ raw.length ∧ ∀ r ∈ raw_rows, (r + 1) * d ≤ rows * d)
      (KvStore.plane_rows d block e8m0 rows nibbles scales raw_rows raw) :=
  (checked_decode_rows hd hblock hdvd).bind (checked_overlay_raw raw_rows raw _).map

end Rows

/-! ### Planes -/

/-- What unpacking a plane needs of it, in a store with room for `cap` positions. -/
structure KvPackedPlane.Safe (c : KvStoreConfig) (cap : Nat) (p : KvPackedPlane) : Prop where
  cmp_fp4 : p.rows * c.latent_dim / 2 ≤ p.cmp_fp4.length
  cmp_scale : p.rows * c.latent_dim / 16 ≤ p.cmp_scale.length
  key_fp4 : p.rows * c.index_dim / 2 ≤ p.key_fp4.length
  key_scale : p.rows * c.index_dim / 32 ≤ p.key_scale.length
  raw_cmp : p.raw_rows.length * c.latent_dim ≤ p.raw_cmp.length
  raw_key : p.raw_rows.length * c.index_dim ≤ p.raw_key.length
  raw_rows : ∀ r ∈ p.raw_rows, (r + 1) * c.latent_dim ≤ p.rows * c.latent_dim ∧
    (r + 1) * c.index_dim ≤ p.rows * c.index_dim
  rows : p.rows * c.latent_dim ≤ c.rows_for p.layer cap * c.latent_dim ∧
    p.rows * c.index_dim ≤ c.rows_for p.layer cap * c.index_dim
  carry : p.ratio > 1 ∧ p.carry_kv.length = p.ratio * c.latent_dim →
    p.carry_kv.length ≤ c.state_stride ∧ p.carry_score.length ≤ c.state_stride

/-- What `create` checks of the dimensions. -/
def KvStoreConfig.DimsDivide (c : KvStoreConfig) : Prop := 16 ∣ c.latent_dim ∧ 32 ∣ c.index_dim

namespace KvStore

/-- The check in front of the copies: the plane of one of the owners, at the owner's ratio. -/
def plane_matches (kv : KvStore) (p : KvPackedPlane) : Bool :=
  match kv.owner_index p.layer with
  | none => false
  | some oi => kv.cfg.owners.getD oi 0 = p.layer && kv.cfg.plane_ratio p.layer = p.ratio

/-- `reserve` has no room for `n` positions and gets none. -/
def refuses (kv : KvStore) (n : Nat) : Prop :=
  n > kv.cap ∧ (n > kv.cfg.max_context ∨
    ∃ e, kv.allocate_slabs (min kv.cfg.max_context (max n
      (if kv.cap > kv.cfg.max_context / 2 then kv.cfg.max_context else kv.cap * 2))) = .error e)

/-- The positions there is room for once `reserve n` has succeeded. -/
def reserved_cap (kv : KvStore) (n : Nat) : Nat :=
  if n ≤ kv.cap then kv.cap
  else min kv.cfg.max_context (max n
    (if kv.cap > kv.cfg.max_context / 2 then kv.cfg.max_context else kv.cap * 2))

/-- In a created store with room for the context, every plane up to the first that is not one
    of the store's has the sizes its row counts, row indices and ratio ask for. -/
def UnpackSafe (kv : KvStore) (pk : KvPacked) : Prop :=
  kv.valid = true → ¬ kv.refuses (max pk.positions 1) →
    ∀ p ∈ pk.planes.takeWhile kv.plane_matches,
      p.Safe kv.cfg (kv.reserved_cap (max pk.positions 1))

end KvStore

section Planes

open KvStore

variable {kv : KvStore} {p : KvPackedPlane} {oi : Nat}

theorem checked_put_packed_carry (c : KvStoreConfig) (state : Nat → UInt32) :
    Checked (put_packed_carry_checked c p oi state)
      (p.ratio > 1 ∧ p.carry_kv.length = p.ratio * c.latent_dim →
        p.carry_kv.length ≤ c.state_stride ∧ p.carry_score.length ≤ c.state_stride)
      (put_packed_carry c p oi state) := by
  have hsizes : Checked ((write_within (oi * c.state_stride)
      (oi * c.state_stride + c.state_stride) state (oi * c.state_stride) p.carry_kv).bind
      fun state => write_within (c.score_base + oi * c.state_stride)
        (c.score_base + oi * c.state_stride + c.state_stride) state
        (c.score_base + oi * c.state_stride) p.carry_score)
      (p.carry_kv.length ≤ c.state_stride ∧ p.carry_score.length ≤ c.state_stride) _ :=
    ((checked_write_within _ _ _ _ _).bind (checked_write_within _ _ _ _ _)).congr (by omega)
  exact hsizes.ite

/-- A plane of the store is copied within bounds exactly when it is safe. -/
theorem checked_put_plane (hdims : kv.cfg.DimsDivide) (hlayer : kv.cfg.owners.getD oi 0 = p.layer) :
    Checked (kv.put_plane_checked p oi) (p.Safe kv.cfg kv.cap) (kv.put_plane p oi) := by
  obtain ⟨hlatent, hindex⟩ := hdims
  have hcmp := fun nibbles scales => @checked_plane_rows kv.cfg.latent_dim 16 p.rows false nibbles
    scales (Nat.dvd_trans (by decide) hlatent) (by decide) hlatent p.raw_rows p.raw_cmp
  have hkey := fun nibbles scales => @checked_plane_rows kv.cfg.index_dim 32 p.rows true nibbles
    scales (Nat.dvd_trans (by decide) hindex) (by decide) hindex p.raw_rows p.raw_key
  unfold put_plane_checked put_plane
  refine Checked.congr ((hcmp _ _).bind ((hkey _ _).bind ((checked_write_within _ _ _ _ _).bind
    ((checked_write_within _ _ _ _ _).bind (checked_put_packed_carry _ _).map)))) ?_
  rw [hlayer]
  simp only [plane_rows, length_read, Nat.zero_add, Nat.zero_le, true_and]
  constructor
  · intro ⟨⟨⟨h1, h2⟩, h3, h4⟩, ⟨⟨h5, h6⟩, h7, h8⟩, h9, h10, h11⟩
    exact ⟨h1, h2, h5, h6, h3, h7, fun r hr => ⟨h4 r hr, h8 r hr⟩, ⟨h9, h10⟩, h11⟩
  · intro h
    exact ⟨⟨⟨h.cmp_fp4, h.cmp_scale⟩, h.raw_cmp, fun r hr => (h.raw_rows r hr).1⟩,
      ⟨⟨h.key_fp4, h.key_scale⟩, h.raw_key, fun r hr => (h.raw_rows r hr).2⟩,
      h.rows.1, h.rows.2, h.carry⟩

/-- The planes are copied one after the other until one does not match. -/
theorem checked_unpack_planes (planes : List KvPackedPlane) (hdims : kv.cfg.DimsDivide) :
    Checked (unpack_planes_checked planes kv)
      (∀ p ∈ planes.takeWhile kv.plane_matches, p.Safe kv.cfg kv.cap) (unpack_planes planes kv) := by
  induction planes generalizing kv with
  | nil => exact (Checked.pure _).congr (by simp)
  | cons p rest ih =>
    cases hoi : kv.owner_index p.layer with
    | none =>
      have hmatch : kv.plane_matches p = false := by simp [plane_matches, hoi]
      simp only [unpack_planes_checked, unpack_planes, hoi]
      exact (Checked.pure _).congr (by simp [hmatch])
    | some oi =>
      by_cases hbad : kv.cfg.owners.getD oi 0 ≠ p.layer ∨ kv.cfg.plane_ratio p.layer ≠ p.ratio
      · have hmatch : kv.plane_matches p = false := by
          rw [plane_matches, hoi, Bool.and_eq_false_iff, decide_eq_false_iff_not,
            decide_eq_false_iff_not]
          exact hbad
        simp only [unpack_planes_checked, unpack_planes, hoi, if_pos hbad]
        exact (Checked.pure _).congr (by simp [hmatch])
      · have hgood := not_or.mp hbad
        rw [not_not, not_not] at hgood
        have hmatch : kv.plane_matches p = true := by
          simp only [plane_matches, hoi, hgood.1, hgood.2, decide_true, Bool.and_self]
        simp only [unpack_planes_checked, unpack_planes, hoi, if_neg hbad]
        -- the later planes meet the configuration and the capacity of the store as it was
        have hrest : Checked (unpack_planes_checked rest (kv.put_plane p oi))
            (∀ q ∈ rest.takeWhile kv.plane_matches, q.Safe kv.cfg kv.cap)
            (unpack_planes rest (kv.put_plane p oi)) := ih hdims
        refine ((checked_put_plane hdims hgood.1).bind hrest).congr ?_
        rw [List.takeWhile_cons_of_pos hmatch]
        simp

/-- What `reserve` leaves: the configuration, and room as planned. -/
theorem reserve_eq (hvalid : kv.valid = true) (n : Nat) :
    (kv.refuses n → ∃ e, kv.reserve n = (.error e, kv)) ∧
    (¬ kv.refuses n → ∃ kv', kv.reserve n = (.ok (), kv') ∧ kv'.cfg = kv.cfg ∧
      kv'.cap = kv.reserved_cap n) := by
  have hcreated : ¬ ¬ kv.valid = true := not_not.mpr hvalid
  constructor
  · intro ⟨hcap, hrefused⟩
    rw [reserve, if_neg hcreated, if_neg (by omega)]
    by_cases hmax : n > kv.cfg.max_context
    · exact ⟨_, if_pos hmax⟩
    · rw [if_neg hmax]
      obtain ⟨e, he⟩ := hrefused.resolve_left hmax
      exact ⟨e, by simp only [he]⟩
  · intro hroom
    by_cases hcap : n ≤ kv.cap
    · exact ⟨kv, by rw [reserve, if_neg hcreated, if_pos hcap], rfl, (if_pos hcap).symm⟩
    · have hgrow := mt (And.intro (a := n > kv.cap) (by omega)) hroom
      obtain ⟨hmax, halloc⟩ := not_or.mp hgrow
      rw [reserve, if_neg hcreated, if_neg hcap, if_neg hmax, reserved_cap, if_neg hcap]
      dsimp only
      split
      next e he => exact absurd ⟨e, he⟩ halloc
      next he => exact ⟨_, rfl, rfl, rfl⟩

/-- Unpacking stays within bounds exactly when it is safe to unpack, and is then `unpack`. -/
theorem checked_unpack (pk : KvPacked) (hdims : kv.cfg.DimsDivide) :
    Checked (kv.unpack_checked pk) (kv.UnpackSafe pk) (kv.unpack pk) := by
  by_cases hvalid : kv.valid = true
  · have hcreated : ¬ ¬ kv.valid = true := not_not.mpr hvalid
    obtain ⟨hfull, hgrown⟩ := reserve_eq hvalid (max pk.positions 1)
    rw [unpack_checked, unpack, if_neg hcreated, if_neg hcreated]
    by_cases hrefused : kv.refuses (max pk.positions 1)
    · obtain ⟨e, he⟩ := hfull hrefused
      rw [he]
      exact (Checked.pure _).congr ⟨fun _ _ hroom => absurd hrefused hroom, fun _ => trivial⟩
    · obtain ⟨kv', hreserve, hcfg, hcap⟩ := hgrown hrefused
      rw [hreserve]
      have hmatch : kv'.plane_matches = kv.plane_matches := by
        funext p
        simp only [plane_matches, owner_index, hcfg]
      have hplanes := checked_unpack_planes pk.planes (hcfg.symm ▸ hdims)
      rw [hmatch, hcfg, hcap] at hplanes
      refine hplanes.map.congr ?_
      exact ⟨fun h _ _ => h, fun h => h hvalid hrefused⟩
  · rw [unpack_checked, unpack, if_pos hvalid, if_pos hvalid]
    exact (Checked.pure _).congr ⟨fun _ h => absurd h hvalid, fun _ => trivial⟩

end Planes

/-! ### The engine's context -/

namespace KvStore

/-- The bits of `-inf`, what `score_state` starts at. -/
def neg_inf : UInt32 := 0xFF800000

def clear (kv : KvStore) : KvStore :=
  if ¬ kv.valid then kv
  else
    let c := kv.cfg
    let window_bytes := c.layers * c.window * c.latent_dim
    let scale_bytes := c.layers * c.window * (c.latent_dim / c.scale_block)
    { kv with
      win_val := fun x => if x < window_bytes then 0 else kv.win_val x
      win_scale := fun x => if x < scale_bytes then 0 else kv.win_scale x
      top := fun l i => if l < c.layers ∧ i < c.topk_rows then 0 else kv.top l i
      state := fun x => if x < c.score_base then 0
        else if x < c.score_base + c.score_base then neg_inf else kv.state x
      cmp := fun oi x => if x < kv.rows_hw oi * c.latent_dim then 0 else kv.cmp oi x
      key := fun oi x => if x < kv.rows_hw oi * c.index_dim then 0 else kv.key oi x
      rows_hw := fun _ => 0
      n_cmp := fun _ => 0
      n_kv := fun _ => 0
      win_lo := 0
      slot_pos := fun _ => kSlotEmpty }

end KvStore

/-- What `restore_context` needs of the engine besides its context. -/
structure EngineParts (Rest : Type) where
  decode_step : DecodeStep Rest
  gpu_ready : Rest → Bool
  /-- `kMaxIndexPositions`. -/
  index_positions : Nat
  /-- `reset_context` on the rest of the engine: draft and prompt state. -/
  reset_rest : Rest → Rest
  /-- `set_context_tokens` on the rest, when so many of the old tokens stay. -/
  truncate_prompt : Rest → Nat → Rest

/-- The replayed plan; the refusal when the context was reset instead. -/
structure ReplayStats where
  plan : ReplayPlan := {}
  cold_fallback : Bool := false
  cold_reason : Option Status := none
  deriving DecidableEq

section Context

variable {Rest : Type} (parts : EngineParts Rest)

def reset_context (e : Engine Rest) : Engine Rest :=
  { kv := e.kv.clear, history := [], rest := parts.reset_rest e.rest }

/-- How many tokens two sequences have in common at the start. -/
def common_prefix : List Nat → List Nat → Nat
  | a :: as, b :: bs => if a = b then common_prefix as bs + 1 else 0
  | _, _ => 0

def set_context_tokens (e : Engine Rest) (tokens : List Nat) : Result Unit × Engine Rest :=
  let max_context := min e.kv.cfg.max_context parts.index_positions
  if ¬ parts.gpu_ready e.rest then (fail .FailedPrecondition "call init_gpu() first", e)
  else if tokens.length > max_context then
    (fail .ResourceExhausted
      s!"{tokens.length} tokens against a {max_context}-position context", e)
  else
    let common := common_prefix tokens e.history
    (.ok (), { e with history := tokens, rest := parts.truncate_prompt e.rest common })

def restore_context (e : Engine Rest) (p : ParkedContext) (replay_max : Nat) :
    Result ReplayStats × Engine Rest :=
  if p.kv.positions ≠ p.tokens.length then
    (fail .InvalidArgument (s!"parked state for {p.kv.positions} positions with " ++
      s!"{p.tokens.length} token ids"), e)
  else
    let e := reset_context parts e
    if p.tokens = [] then (.ok {}, e)
    else
      match e.kv.unpack p.kv with
      | (.error err, kv) => (.error err, { e with kv := kv })
      | (.ok (), kv) =>
        match set_context_tokens parts { e with kv := kv } (p.tokens.map UInt32.toNat) with
        | (.error err, e) => (.error err, e)
        | (.ok (), e) =>
          let plan := plan_ring e.kv p.tokens.length replay_max
          match run_replay parts.decode_step e plan with
          | (.error err, e) => (.error err, e)
          | (.ok (), e) => (.ok { plan := plan }, e)

def restore_or_cold (restore : Engine Rest → Result ReplayStats × Engine Rest)
    (cold : Engine Rest → Engine Rest) (e : Engine Rest) : ReplayStats × Engine Rest :=
  match restore e with
  | (.ok st, e) => (st, e)
  | (.error err, e) => ({ cold_fallback := true, cold_reason := some err }, cold e)

/-- With the writer idle; `active` is the active session. -/
def restore_active_from_disk (opt : KvDiskOptions) (active : Bytes) (replay : Nat)
    (e : Engine Rest) (dir : KvDir) : Result ReplayStats × Engine Rest × KvDir :=
  if opt.dir = [] then (fail .InvalidArgument "kv disk dir is empty", e, dir)
  else if e.history.length > 0 then (.ok {}, e, dir)
  else
    match load_parked_context opt active dir with
    | .error err =>
      if err.code = .NotFound then (.error err, e, dir)
      else
        (.ok { cold_fallback := true, cold_reason := some err }, reset_context parts e,
          (drop_parked_context opt active dir).2)
    | .ok loaded =>
      let (st, e) := restore_or_cold (fun e => restore_context parts e loaded replay)
        (reset_context parts) e
      if st.cold_fallback then (.ok st, e, (drop_parked_context opt active dir).2)
      else (.ok st, e, dir)

end Context

/-! ### An empty context -/

/-- No token, no row of any plane, nothing carried and nothing in the ring. -/
structure EmptyContext {Rest : Type} (e : Engine Rest) : Prop where
  history : e.history = []
  rows : e.kv.valid = true → ∀ oi, e.kv.rows_hw oi = 0
  counts : e.kv.valid = true → ∀ l, e.kv.n_cmp l = 0 ∧ e.kv.n_kv l = 0
  ring : e.kv.valid = true → ∀ position, e.kv.ring_holds position = false
  carry : e.kv.valid = true → ∀ x, (x < e.kv.cfg.score_base → e.kv.state x = 0) ∧
    (e.kv.cfg.score_base ≤ x → x < e.kv.cfg.score_base + e.kv.cfg.score_base →
      e.kv.state x = KvStore.neg_inf)

section Fallback

variable {Rest : Type} (parts : EngineParts Rest)

@[simp] theorem clear_valid (kv : KvStore) : kv.clear.valid = kv.valid := by
  unfold KvStore.clear
  split <;> rfl

@[simp] theorem clear_cfg (kv : KvStore) : kv.clear.cfg = kv.cfg := by
  unfold KvStore.clear
  split <;> rfl

theorem reset_context_empty (e : Engine Rest) : EmptyContext (reset_context parts e) := by
  have hclear : (reset_context parts e).kv = e.kv.clear := rfl
  by_cases hvalid : e.kv.valid = true
  · have hcreated : ¬ ¬ e.kv.valid = true := not_not.mpr hvalid
    have hkv : (reset_context parts e).kv = _ := hclear.trans (if_neg hcreated)
    refine ⟨rfl, ?_, ?_, ?_, ?_⟩
    · intro _ oi
      rw [hkv]
    · intro _ l
      rw [hkv]
      exact ⟨rfl, rfl⟩
    · intro _ position
      -- no slot holds a position
      have hslot : ∀ s, (reset_context parts e).kv.slot_pos s = kSlotEmpty := by
        intro s
        rw [hkv]
      have hne : (kSlotEmpty == (position : Int)) = false := by
        rw [beq_eq_false_iff_ne]
        unfold kSlotEmpty
        omega
      rw [KvStore.ring_holds, hslot, hne, Bool.and_false]
    · intro _ x
      rw [hkv]
      dsimp only
      refine ⟨fun hlow => if_pos hlow, fun hhigh hlt => ?_⟩
      rw [if_neg (by omega), if_pos hlt]
  · have hnot : (reset_context parts e).kv.valid ≠ true := by rwa [hclear, clear_valid]
    exact ⟨rfl, fun h => absurd h hnot, fun h => absurd h hnot, fun h => absurd h hnot,
      fun h => absurd h hnot⟩

theorem restore_context_error {e : Engine Rest} {p : ParkedContext} {replay_max : Nat}
    {err : Status} (hpos : p.kv.positions = p.tokens.length) (hne : p.tokens ≠ [])
    (herr : (e.kv.clear.unpack p.kv).1 = .error err) :
    (restore_context parts e p replay_max).1 = .error err := by
  rw [restore_context, if_neg (not_not.mpr hpos)]
  dsimp only
  rw [if_neg hne]
  show (match e.kv.clear.unpack p.kv with
    | (.error err, kv) => (_ : Result ReplayStats × Engine Rest)
    | (.ok (), kv) => _).1 = _
  split
  next err' kv heq =>
    rw [heq] at herr
    obtain rfl : err' = err := Except.error.inj herr
    rfl
  next kv heq =>
    rw [heq] at herr
    cases herr

/-- What the engine does with the loaded context `p` of the session `name`. -/
structure ColdOnError (opt : KvDiskOptions) (name : Bytes) (replay : Nat) (p : ParkedContext)
    (e : Engine Rest) (dir : KvDir) : Prop where
  /-- What `unpack` reports, `restore_context` reports. -/
  reported : ∀ err, p.kv.positions = p.tokens.length → p.tokens ≠ [] →
    (e.kv.clear.unpack p.kv).1 = .error err → (restore_context parts e p replay).1 = .error err
  /-- Whatever `restore_context` reports, the context is empty, and the file is given up. -/
  cold : ∀ err, e.history = [] → (restore_context parts e p replay).1 = .error err →
    ∃ e', restore_active_from_disk parts opt name replay e dir =
      (.ok { cold_fallback := true, cold_reason := some err }, e',
        (drop_parked_context opt name dir).2) ∧ EmptyContext e'

theorem cold_on_error {opt : KvDiskOptions} {name : Bytes} {p : ParkedContext} {dir : KvDir}
    (hload : load_parked_context opt name dir = .ok p) (replay : Nat) (e : Engine Rest) :
    ColdOnError parts opt name replay p e dir where
  reported := fun _ hpos hne herr => restore_context_error parts hpos hne herr
  cold := by
    intro err hfresh herr
    have hdir : opt.dir ≠ [] := by
      intro hnil
      simp [load_parked_context, hnil, fail] at hload
    obtain ⟨e₁, hrestore⟩ : ∃ e₁, restore_context parts e p replay = (.error err, e₁) :=
      ⟨_, Prod.ext herr rfl⟩
    refine ⟨reset_context parts e₁, ?_, reset_context_empty parts e₁⟩
    rw [restore_active_from_disk, if_neg hdir, if_neg (by simp [hfresh]), hload]
    simp only [restore_or_cold, hrestore, if_true]

end Fallback

/-! ### Loaded contexts -/

section Loaded

variable {Rest : Type} (parts : EngineParts Rest)

/-- A context that was loaded is unpacked within its vectors and within the layout exactly when
    its planes have the sizes they claim; on an error the engine is left with an empty one. -/
theorem unpack_loaded_iff {opt : KvDiskOptions} {name : Bytes} {p : ParkedContext} {dir : KvDir}
    (hload : load_parked_context opt name dir = .ok p) (replay : Nat) (e : Engine Rest)
    (hdims : e.kv.cfg.DimsDivide) :
    (∃ out, e.kv.unpack_checked p.kv = some out ∧ out = e.kv.unpack p.kv) ∧
        ColdOnError parts opt name replay p e dir ↔
      e.kv.UnpackSafe p.kv := by
  have hchecked := checked_unpack p.kv hdims
  constructor
  · intro ⟨⟨out, hout, _⟩, _⟩
    exact hchecked.isSome_iff.mp (by rw [hout]; rfl)
  · intro hsafe
    exact ⟨⟨_, hchecked.ok hsafe, rfl⟩, cold_on_error parts hload replay e⟩

/-- One owner, with rows of 16 and of 32 elements, and room for 64 positions. -/
def one_plane_store : KvStore where
  cfg :=
    { layers := 1, window := 4, window_pos := KvStoreConfig.small_window_pos,
      latent_dim := 16, index_dim := 32, max_context := 64, plane_of := [some 0], ratio := [1] }
  valid := true
  cap := 64

def one_plane_engine : Engine Unit := { kv := one_plane_store, history := [], rest := () }

/-- Parts that decode without touching anything. -/
def idle_parts : EngineParts Unit where
  decode_step := fun e _ _ => (.ok (), e)
  gpu_ready := fun _ => true
  index_positions := 64
  reset_rest := id
  truncate_prompt := fun _ _ => ()

theorem one_plane_dims : one_plane_store.cfg.DimsDivide :=
  show 16 ∣ 16 ∧ 32 ∣ 32 from ⟨dvd_refl _, dvd_refl _⟩

/-- A context of one token, with one row in the plane of layer 0. -/
def one_row_context (cmp_fp4 cmp_scale key_fp4 key_scale : List UInt8) : ParkedContext where
  tokens := [7]
  kv := { positions := 1
          planes := [{ layer := 0, ratio := 1, rows := 1, cmp_fp4 := cmp_fp4, cmp_scale := cmp_scale,
                       key_fp4 := key_fp4, key_scale := key_scale }] }

/-- The directory with the file of that context. -/
def one_row_dir (p : ParkedContext) : KvDir :=
  KvDir.put [] (file_of (chars ['u']) 1 (parked_bytes unit_options.model_tag p))

theorem load_one_row (cmp_fp4 cmp_scale key_fp4 key_scale : List UInt8)
    (hsmall : cmp_fp4.length ≤ 64 ∧ cmp_scale.length ≤ 64 ∧ key_fp4.length ≤ 64 ∧
      key_scale.length ≤ 64) :
    load_parked_context unit_options (chars ['u'])
      (one_row_dir (one_row_context cmp_fp4 cmp_scale key_fp4 key_scale)) =
        .ok (one_row_context cmp_fp4 cmp_scale key_fp4 key_scale) := by
  obtain ⟨h1, h2, h3, h4⟩ := hsmall
  have hu8 : ∀ {v : List UInt8}, v.length ≤ 64 → VecFits .u8 v := by
    intro v hv
    refine ⟨?_, fun _ _ => trivial⟩
    show v.length * 1 ≤ 2 ^ 34
    omega
  have hnil : ∀ {α : Type} (w : Wire.Word α), VecFits w [] := by
    intro α w
    exact ⟨by simp [kKvVectorCap], by simp⟩
  have hfits : (one_row_context cmp_fp4 cmp_scale key_fp4 key_scale).Fits := by
    refine ⟨show 1 ≤ 2 ^ 24 by decide, show 1 < 2 ^ 32 by decide, show 1 ≤ 64 by decide, ?_⟩
    intro pl hpl
    obtain rfl := List.mem_singleton.mp hpl
    exact ⟨show 0 < 2 ^ 32 by decide, show 1 < 2 ^ 32 by decide, show 1 < 2 ^ 32 by decide, hu8 h1, hu8 h2, hu8 h3, hu8 h4, hnil _, hnil _, hnil _,
      hnil _, hnil _⟩
  have hreads := reads_parked hfits unit_options.model_tag
    (text (unit_options.path (chars ['u']))) []
  rw [List.append_nil] at hreads
  rw [load_file_of (by decide) (by rw [one_row_dir, KvDir.find_put]; exact if_pos rfl), hreads]
  rfl

/-- A row with all its codes is unpacked. -/
theorem unpack_loaded_iff_whole_row :
    let p := one_row_context (List.replicate 8 0x21) [56] (List.replicate 16 0x21) [127]
    load_parked_context unit_options (chars ['u']) (one_row_dir p) = .ok p ∧
      ∃ out, one_plane_store.unpack_checked p.kv = some out ∧ out = one_plane_store.unpack p.kv := by
  intro p
  have hload := load_one_row (List.replicate 8 0x21) [56] (List.replicate 16 0x21) [127] (by decide)
  refine ⟨hload, ((unpack_loaded_iff idle_parts hload 4 one_plane_engine one_plane_dims).mpr ?_).1⟩
  intro _ _ q hq
  obtain rfl := List.mem_singleton.mp ((List.takeWhile_prefix _).subset hq)
  refine ⟨by decide, by decide, by decide, by decide, by decide, by decide, by decide, by decide, ?_⟩
  intro hcarry
  exact absurd hcarry.1 (by decide)

/-- A file whose plane counts a row and has none of its codes is loaded, and unpacking it reads
    past the end of the vectors. -/
theorem empty_plane_overread :
    let p := one_row_context [] [] [] []
    load_parked_context unit_options (chars ['u']) (one_row_dir p) = .ok p ∧
      one_plane_store.valid = true ∧ one_plane_store.cfg.DimsDivide ∧
      ¬ ∃ out, one_plane_store.unpack_checked p.kv = some out := by
  intro p
  have hload := load_one_row [] [] [] [] (by decide)
  have hstuck : (one_plane_store.unpack_checked p.kv).isNone = true := by decide
  refine ⟨hload, rfl, one_plane_dims, ?_⟩
  intro ⟨out, hout⟩
  rw [hout] at hstuck
  cases hstuck

end Loaded

end CachedMoe.Runtime
