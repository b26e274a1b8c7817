import CachedMoe.Model.ManifestBounds
import CachedMoe.Runtime.EngramRows

/-! # The slots of the engram rows

    Each slot of `staging_` holds the bytes of its row, or has a read behind it whose window covers
    them. The reads of a row that a validated manifest names, a scale from memory and an entry of
    the cache all keep this, and so does a fetch that fails halfway. -/

namespace CachedMoe.Runtime

open CachedMoe.Model

/-! ### The rows of a checkpoint -/

theorem validate_engram {m : Manifest} (h : m.validate = .ok ()) {e : EngramEntry}
    (he : e ∈ m.engram) :
    e.value.row_bytes = kEngramValueRowBytes ∧ e.scale.row_bytes = kEngramScaleRowBytes := by
  have hbad := validate_ok h
  unfold Manifest.bad at hbad
  have hcheck := List.flatMap_eq_nil_iff.mp (List.append_eq_nil_iff.mp hbad).2 e he
  unfold Manifest.check_engram at hcheck
  simp only [List.append_eq_nil_iff] at hcheck
  exact ⟨not_not.mp (of_report hcheck.1.1.1), not_not.mp (of_report hcheck.1.1.2)⟩

theorem align_read_window {file off bytes : Nat} (h : off + bytes < 2 ^ 63) :
    (align_read file off bytes).aligned_off + (align_read file off bytes).skew = off ∧
      (align_read file off bytes).skew + bytes ≤ (align_read file off bytes).aligned_bytes := by
  unfold align_read align_up align_down sub64
  dsimp only
  have hpage : kPageSize = 4096 := rfl
  have hend : add64 off bytes = off + bytes := add64_eq (by omega)
  rw [hpage, hend, add64_eq (by omega)]
  omega

namespace Checkpoint

variable (cp : Checkpoint)

def HasRow (layer row : Nat) : Prop :=
  ∃ e, cp.manifest.engram_for_layer layer = some e ∧ row < e.rows

/-- A read that brings `bytes` if it succeeds. -/
structure Covers (file off n skew : Nat) (bytes : List UInt8) : Prop where
  inside : skew + bytes.length ≤ min n (cp.size file - off)
  found : Region.read (cp.files file) (off + skew) bytes.length = bytes

variable {cp} {layer row : Nat}

theorem plane_bytes_covered {p : EngramPlane} {row_bytes rows : Nat} (hp : p.row_bytes = row_bytes)
    (hinside : p.offset + rows * row_bytes ≤ cp.size p.file) (hrow : row < rows) :
    cp.Covers (Manifest.plane_row p row).file (Manifest.plane_row p row).aligned_off
      (Manifest.plane_row p row).aligned_bytes (Manifest.plane_row p row).skew
      (cp.plane_bytes p row_bytes row) := by
  have hsized := cp.sized p.file
  have hlast : (row + 1) * row_bytes ≤ rows * row_bytes := Nat.mul_le_mul_right _ hrow
  rw [Nat.succ_mul] at hlast
  have hoff : add64 p.offset (mul64 row p.row_bytes) = p.offset + row * row_bytes := by
    unfold mul64
    rw [hp, Nat.mod_eq_of_lt (by omega), add64_eq (by omega)]
  have hwindow := @align_read_window p.file (p.offset + row * row_bytes) row_bytes (by omega)
  unfold Manifest.plane_row
  rw [hoff, hp]
  refine ⟨?_, ?_⟩
  · rw [plane_bytes, Region.length_read]
    show _ ≤ min _ (cp.size p.file - _)
    omega
  · rw [hwindow.1, plane_bytes, Region.length_read]
    rfl

theorem length_value_row (h : cp.HasRow layer row) :
    (cp.value_row layer row).length = kEngramValueRowBytes := by
  obtain ⟨e, he, _⟩ := h
  rw [value_row, he]
  exact Region.length_read ..

theorem length_scale_row (h : cp.HasRow layer row) :
    (cp.scale_row layer row).length = kEngramScaleRowBytes := by
  obtain ⟨e, he, _⟩ := h
  rw [scale_row, he]
  exact Region.length_read ..

theorem engram_row_covers {plan : Manifest.EngramRowPlan}
    (h : cp.manifest.engram_row layer row = .ok plan) :
    cp.HasRow layer row ∧
      cp.Covers plan.value.file plan.value.aligned_off plan.value.aligned_bytes plan.value.skew
        (cp.value_row layer row) ∧
      cp.Covers plan.scale.file plan.scale.aligned_off plan.scale.aligned_bytes plan.scale.skew
        (cp.scale_row layer row) := by
  unfold Manifest.engram_row at h
  cases he : cp.manifest.engram_for_layer layer with
  | none =>
    rw [he] at h
    cases h
  | some e =>
    rw [he] at h
    dsimp only at h
    split at h
    · cases h
    next hrow =>
    cases h
    have hmem := List.mem_of_find?_eq_some he
    obtain ⟨hvalue, hscale⟩ := validate_engram cp.validated hmem
    obtain ⟨hvalue_in, hscale_in⟩ := cp.inside e hmem
    rw [value_row, scale_row, he]
    exact ⟨⟨e, he, by omega⟩, plane_bytes_covered hvalue hvalue_in (by omega),
      plane_bytes_covered hscale hscale_in (by omega)⟩

end Checkpoint

/-! ### Scale planes in memory -/

theorem scale_piece_loop_ok {file : Nat → UInt8} {answer : Nat → Nat → Result Nat}
    {layer offset bytes fuel done : Nat} {buf : Nat → UInt8} {plane plane' : List UInt8}
    (h : scale_piece_loop file answer layer offset bytes fuel done buf plane = .ok plane')
    (hsize : offset + bytes < 2 ^ 63) (hfuel : bytes ≤ done + fuel) (hdone : done ≤ bytes)
    (hplane : plane = Region.read file offset done) : plane' = Region.read file offset bytes := by
  induction fuel generalizing done buf plane with
  | zero =>
    cases h
    rw [hplane, Nat.le_antisymm hdone hfuel]
  | succ fuel ih =>
    rw [scale_piece_loop] at h
    by_cases hmore : done < bytes
    · rw [if_pos hmore, add64_eq (by omega)] at h
      dsimp only at h
      split at h
      · cases h
      next n _ =>
      split at h
      · cases h
      next hshort =>
      have hpiece : 0 < kPiece := by decide
      refine ih h (by omega) (by omega) ?_
      -- the piece in the buffer is that of the file
      have hback : align_down (offset + done) + (offset + done - align_down (offset + done)) =
          offset + done := by
        have hle : align_down (offset + done) ≤ offset + done := Nat.div_mul_le_self _ _
        omega
      have hbuf := Region.read_write_self buf 0 (Region.read file (align_down (offset + done)) n)
      rw [Region.length_read] at hbuf
      have hread := Region.read_part hbuf (a := offset + done - align_down (offset + done))
        (c := min kPiece (bytes - done)) (by omega)
      rw [Nat.zero_add, hback] at hread
      rw [hplane, hread, Region.read_append]
    · rw [if_neg hmore] at h
      cases h
      rw [hplane, show done = bytes by omega]

/-- The planes in memory are those of the checkpoint. -/
def PlanesSound (cp : Checkpoint) (planes : ScalePlanes) : Prop :=
  ∀ layer plane, planes.find layer = some plane → ∃ e,
    cp.manifest.engram_for_layer layer = some e ∧
      plane = Region.read (cp.files e.scale.file) e.scale.offset (e.rows * kEngramScaleRowBytes)

theorem load_scales_sound {cp : Checkpoint} {opened : Nat → Result Unit}
    {answer : Nat → Nat → Nat → Result Nat} {layers : List Nat} {planes planes' : ScalePlanes}
    (hplanes : PlanesSound cp planes)
    (h : load_scales cp.manifest cp.files opened answer layers planes = .ok planes') :
    PlanesSound cp planes' := by
  induction layers generalizing planes with
  | nil =>
    cases h
    exact hplanes
  | cons layer layers ih =>
    rw [load_scales] at h
    split at h
    · cases h
    next e he =>
    split at h
    · cases h
    dsimp only at h
    split at h
    · cases h
    next plane hplane =>
    refine ih ?_ h
    -- an emplaced plane is the layer's own, the others are the old ones
    intro layer' plane' hfind
    rw [Table.find_emplace] at hfind
    split at hfind
    next heq =>
      subst heq
      cases hold : planes.find layer' with
      | some old =>
        rw [hold] at hfind
        obtain rfl := Option.some.inj hfind
        exact hplanes _ _ hold
      | none =>
        rw [hold] at hfind
        obtain rfl := Option.some.inj hfind
        have hinside := (cp.inside e (List.mem_of_find?_eq_some he)).2
        have hsized := cp.sized e.scale.file
        have hbytes : mul64 e.rows kEngramScaleRowBytes = e.rows * kEngramScaleRowBytes :=
          Nat.mod_eq_of_lt (by omega)
        rw [hbytes] at hplane
        exact ⟨e, he, scale_piece_loop_ok hplane (by omega) (by omega) (by omega) rfl⟩
    · exact hplanes _ _ hfind

theorem resident_scale_row_eq {cfg : RowSetup} {layer row : Nat} {sc : List UInt8}
    (hrow : cfg.cp.HasRow layer row) (h : resident_scale_row cfg.scales layer row = some sc) :
    sc = cfg.cp.scale_row layer row := by
  obtain ⟨e, he, hlt⟩ := hrow
  unfold resident_scale_row at h
  obtain ⟨plane, hplane, rfl⟩ := Option.map_eq_some_iff.mp h
  obtain ⟨planes, hplanes, hfind⟩ := Option.bind_eq_some_iff.mp hplane
  obtain ⟨opened, answer, layers, hload⟩ := cfg.loaded planes hplanes
  have hempty : PlanesSound cfg.cp ([] : ScalePlanes) := fun _ _ hnone => by cases hnone
  obtain ⟨e', he', rfl⟩ := load_scales_sound hempty hload layer plane hfind
  obtain rfl : e = e' := Option.some.inj (he.symm.trans he')
  have hlast : (row + 1) * kEngramScaleRowBytes ≤ e.rows * kEngramScaleRowBytes :=
    Nat.mul_le_mul_right _ hlt
  rw [Nat.succ_mul] at hlast
  rw [Region.take_drop_read _ hlast, Checkpoint.scale_row, he]
  rfl

/-! ### Slots -/

/-- The row that slot `k` has to deliver. -/
def slot_row (cp : Checkpoint) (layer : Nat) (rows : List Nat) (k : Nat) : List UInt8 :=
  let row := rows.getD (k / 2) 0
  if k % 2 = 1 then cp.scale_row layer row else cp.value_row layer row

def slot_bytes (k : Nat) : Nat := if k % 2 = 1 then kEngramScaleRowBytes else kEngramValueRowBytes

/-- Slot `k` has the bytes, or will have them once its read has succeeded. -/
inductive Holds (cp : Checkpoint) (staging : Nat → UInt8) (k : Nat) (bytes : List UInt8) :
    PendingRead → Prop
  | staged {skew : Nat} (hsize : skew + bytes.length ≤ kStagingPerRead)
      (hbytes : Region.read staging (k * kStagingPerRead + skew) bytes.length = bytes) :
      Holds cp staging k bytes { read := none, skew }
  | reading {rd : RowRead} {skew : Nat} (hsize : rd.bytes ≤ kStagingPerRead)
      (hcovers : cp.Covers rd.file rd.file_off rd.bytes skew bytes)
      (hdone : ∀ status, rd.result = some status → status.code = .Ok →
        Region.read staging (k * kStagingPerRead) (cp.in_file rd) =
          Region.read (cp.files rd.file) rd.file_off (cp.in_file rd)) :
      Holds cp staging k bytes { read := some rd, skew }

/-- The read, if there is one, has succeeded. -/
def PendingRead.Done (p : PendingRead) : Prop :=
  ∀ rd, p.read = some rd → ∃ status, rd.result = some status ∧ status.code = .Ok

section Slots

variable {cp : Checkpoint} {staging staging' : Nat → UInt8} {k : Nat} {bytes : List UInt8}
  {p : PendingRead}

theorem length_slot_row {layer : Nat} {rows : List Nat}
    (h : cp.HasRow layer (rows.getD (k / 2) 0)) :
    (slot_row cp layer rows k).length = slot_bytes k := by
  unfold slot_row slot_bytes
  dsimp only
  split
  · exact Checkpoint.length_scale_row h
  · exact Checkpoint.length_value_row h

theorem slot_bytes_le : slot_bytes k ≤ kStagingPerRead := by
  unfold slot_bytes
  split <;> decide

/-- Only the bytes of the slot count. -/
theorem Holds.congr (h : Holds cp staging k bytes p)
    (hsame : ∀ j < kStagingPerRead,
      staging' (k * kStagingPerRead + j) = staging (k * kStagingPerRead + j)) :
    Holds cp staging' k bytes p := by
  cases h with
  | staged hsize hbytes =>
    refine .staged hsize (Eq.trans (Region.read_congr ?_) hbytes)
    intro i hi
    rw [Nat.add_assoc]
    exact hsame _ (by omega)
  | reading hsize hcovers hdone =>
    refine .reading hsize hcovers fun status hstatus hok => Eq.trans (Region.read_congr ?_)
      (hdone status hstatus hok)
    intro i hi
    unfold Checkpoint.in_file at hi
    exact hsame i (by omega)

/-- What a slot delivers once its read has succeeded. -/
theorem Holds.deliver (h : Holds cp staging k bytes p) (hp : p.Done) :
    Region.read staging (k * kStagingPerRead + p.skew) bytes.length = bytes := by
  cases h with
  | staged hsize hbytes => exact hbytes
  | @reading rd skew hsize hcovers hdone =>
    obtain ⟨status, hstatus, hok⟩ := hp rd rfl
    have hwindow := hdone status hstatus hok
    exact (Region.read_part hwindow hcovers.inside).trans hcovers.found

end Slots

/-! ### Planes -/

/-- Every slot in use has its row. -/
structure RowsHeld (cp : Checkpoint) (pl : Planes) : Prop where
  rows : pl.rows.length = kEngramRowsPerToken
  slots : ∀ k p, pl.pending[k]? = some p →
    cp.HasRow pl.layer (pl.rows.getD (k / 2) 0) ∧
      Holds cp pl.staging k (slot_row cp pl.layer pl.rows k) p

/-- The first `n` rows in `buf_` are those of the checkpoint. -/
def Delivered (cp : Checkpoint) (pl : Planes) (n : Nat) : Prop :=
  ∀ r < n,
    Region.read pl.rowval (r * kEngramValueRowBytes) kEngramValueRowBytes =
        cp.value_row pl.layer (pl.rows.getD r 0) ∧
      Region.read pl.rowsc (r * kEngramScaleRowBytes) kEngramScaleRowBytes =
        cp.scale_row pl.layer (pl.rows.getD r 0)

/-- A plane that has been fetched has all its rows, in flight or delivered. -/
structure PlaneSound (cp : Checkpoint) (pl : Planes) : Prop where
  staged : RowsHeld cp pl
  fetched : pl.fetched_position ≠ kNoPosition →
    pl.pending.length = 2 * kEngramRowsPerToken ∨
      (pl.pending = [] ∧ Delivered cp pl kEngramRowsPerToken)

namespace RowsHeld

variable {cp : Checkpoint} {pl : Planes}

/-- One more slot in use. -/
theorem push (h : RowsHeld cp pl) {staging : Nat → UInt8} {p : PendingRead}
    (hrow : cp.HasRow pl.layer (pl.rows.getD (pl.pending.length / 2) 0))
    (hsame : ∀ j < pl.pending.length * kStagingPerRead, staging j = pl.staging j)
    (hp : Holds cp staging pl.pending.length
      (slot_row cp pl.layer pl.rows pl.pending.length) p) :
    RowsHeld cp { pl with staging, pending := pl.pending ++ [p] } := by
  refine ⟨h.rows, ?_⟩
  intro k p' hget
  rcases Nat.lt_trichotomy k pl.pending.length with hk | rfl | hk
  · rw [List.getElem?_append_left hk] at hget
    obtain ⟨hhas, hheld⟩ := h.slots k p' hget
    refine ⟨hhas, hheld.congr ?_⟩
    intro j hj
    have hend : (k + 1) * kStagingPerRead ≤ pl.pending.length * kStagingPerRead :=
      Nat.mul_le_mul_right _ hk
    rw [Nat.succ_mul] at hend
    exact hsame _ (by omega)
  · rw [List.getElem?_concat_length] at hget
    obtain rfl := Option.some.inj hget
    exact ⟨hrow, hp⟩
  · rw [List.getElem?_eq_none (by rw [List.length_append, List.length_singleton]; omega)] at hget
    cases hget

theorem stage (h : RowsHeld cp pl) {bytes : List UInt8}
    (hrow : cp.HasRow pl.layer (pl.rows.getD (pl.pending.length / 2) 0))
    (hbytes : bytes = slot_row cp pl.layer pl.rows pl.pending.length) :
    RowsHeld cp (pl.stage bytes) := by
  have hlen := @length_slot_row cp pl.pending.length _ _ hrow
  have hle := @slot_bytes_le pl.pending.length
  refine h.push hrow (fun j hj => Region.write_of_outside (.inl hj)) ?_
  rw [← hbytes] at hlen ⊢
  refine .staged (by omega) ?_
  rw [Nat.add_zero]
  exact Region.read_write_self ..

theorem set_row (h : RowsHeld cp pl) {r : Nat} (hlen : pl.pending.length = 2 * r) (row : Nat) :
    RowsHeld cp { pl with rows := pl.rows.set r row } := by
  refine ⟨List.length_set.trans h.rows, ?_⟩
  intro k p hget
  have hk : k < pl.pending.length := (List.getElem?_eq_some_iff.mp hget).1
  have hsame : (pl.rows.set r row).getD (k / 2) 0 = pl.rows.getD (k / 2) 0 := by
    rw [List.getD_eq_getElem?_getD, List.getElem?_set_ne (by omega), ← List.getD_eq_getElem?_getD]
  have hslot := h.slots k p hget
  unfold slot_row at hslot ⊢
  dsimp only at hslot ⊢
  rw [hsame]
  exact hslot

end RowsHeld

theorem submit_cases (pl : Planes) (answer : Result Unit) (row : Nat) (a : AlignedRead) :
    (∃ e, pl.submit answer row a = (.error e, pl)) ∨
      a.aligned_bytes ≤ kStagingPerRead ∧ pl.submit answer row a =
        (.ok (), { pl with pending := pl.pending ++ [{
          read := some {
            file := a.file
            file_off := a.aligned_off
            bytes := a.aligned_bytes
            result := none }
          skew := a.skew }] }) := by
  unfold Planes.submit
  split
  · exact .inl ⟨_, rfl⟩
  next hsize =>
  cases answer with
  | error e => exact .inl ⟨e, rfl⟩
  | ok _ => exact .inr ⟨by omega, rfl⟩

/-! ### Fetching -/

/-- What a part of `fetch` makes of a plane: `n` more slots, unless it fails. -/
structure Fetching (cp : Checkpoint) (pl : Planes) (n : Nat) (out : Result Unit × Planes) :
    Prop where
  staged : RowsHeld cp out.2
  layer : out.2.layer = pl.layer
  position : out.2.fetched_position = pl.fetched_position
  full : out.1 = .ok () → out.2.pending.length = pl.pending.length + n

/-- The whole loop also notes all the rows. -/
structure Fetched (cp : Checkpoint) (rows : List Nat) (pl : Planes) (n : Nat)
    (out : Result Unit × Planes) : Prop extends Fetching cp pl n out where
  rows : out.1 = .ok () → out.2.rows = rows

section Fetch

variable {cfg : RowSetup} {pl : Planes}

theorem fetching_error (h : RowsHeld cfg.cp pl) (e : Status) (n : Nat) :
    Fetching cfg.cp pl n (.error e, pl) :=
  ⟨h, rfl, rfl, fun hok => by cases hok⟩

theorem fetching_submit (h : RowsHeld cfg.cp pl) {answer : Result Unit} {row : Nat} {a : AlignedRead}
    (hrow : cfg.cp.HasRow pl.layer (pl.rows.getD (pl.pending.length / 2) 0))
    (ha : cfg.cp.Covers a.file a.aligned_off a.aligned_bytes a.skew
      (slot_row cfg.cp pl.layer pl.rows pl.pending.length)) :
    Fetching cfg.cp pl 1 (pl.submit answer row a) ∧ (pl.submit answer row a).2.rows = pl.rows := by
  rcases submit_cases pl answer row a with ⟨e, he⟩ | ⟨hsize, hok⟩
  · rw [he]
    exact ⟨fetching_error h e 1, rfl⟩
  · rw [hok]
    refine ⟨⟨?_, rfl, rfl, fun _ => List.length_append⟩, rfl⟩
    exact h.push hrow (fun _ _ => rfl) (.reading hsize ha fun _ hnone => by cases hnone)

theorem slot_row_value {layer r : Nat} {rows : List Nat} :
    slot_row cfg.cp layer rows (2 * r) = cfg.cp.value_row layer (rows.getD r 0) := by
  unfold slot_row
  dsimp only
  rw [if_neg (by omega), show 2 * r / 2 = r by omega]

theorem slot_row_scale {layer r : Nat} {rows : List Nat} :
    slot_row cfg.cp layer rows (2 * r + 1) = cfg.cp.scale_row layer (rows.getD r 0) := by
  unfold slot_row
  dsimp only
  rw [if_pos (by omega), show (2 * r + 1) / 2 = r by omega]

theorem fetch_row_spec {answers : Nat → Result Unit} {r row : Nat} (h : RowsHeld cfg.cp pl)
    (hlen : pl.pending.length = 2 * r) (hrow : pl.rows.getD r 0 = row) :
    Fetching cfg.cp pl 2 (fetch_row cfg.cp.manifest cfg.scales answers row pl) ∧
      (fetch_row cfg.cp.manifest cfg.scales answers row pl).2.rows = pl.rows := by
  unfold fetch_row
  cases hplan : cfg.cp.manifest.engram_row pl.layer row with
  | error e => exact ⟨fetching_error h e 2, rfl⟩
  | ok plan =>
    obtain ⟨hhas, hvalue, hscale⟩ := Checkpoint.engram_row_covers hplan
    rw [← hrow] at hhas hvalue hscale
    have hfirst := @fetching_submit cfg pl h (answers pl.pending.length) row plan.value
      (by rw [hlen, Nat.mul_div_cancel_left r (by omega)]; exact hhas)
      (by rw [hlen, slot_row_value]; exact hvalue)
    dsimp only
    generalize pl.submit (answers pl.pending.length) row plan.value = first at hfirst ⊢
    obtain ⟨res, pl₁⟩ := first
    obtain ⟨⟨hstaged, hlayer, hposition, hfull⟩, hrows⟩ := hfirst
    dsimp only at hstaged hlayer hposition hfull hrows
    cases res with
    | error e => exact ⟨⟨hstaged, hlayer, hposition, fun hok => by cases hok⟩, hrows⟩
    | ok _ =>
      have hlen₁ : pl₁.pending.length = 2 * r + 1 := (hfull rfl).trans (by rw [hlen])
      have hhas₁ : cfg.cp.HasRow pl₁.layer (pl₁.rows.getD (pl₁.pending.length / 2) 0) := by
        rw [hlen₁, show (2 * r + 1) / 2 = r by omega, hlayer, hrows]
        exact hhas
      dsimp only
      cases hsc : resident_scale_row cfg.scales pl₁.layer row with
      | some sc =>
        rw [hlayer, ← hrow] at hsc
        refine ⟨⟨hstaged.stage hhas₁ ?_, hlayer, hposition, fun _ => ?_⟩, hrows⟩
        · rw [hlen₁, slot_row_scale, hlayer, hrows]
          exact resident_scale_row_eq hhas hsc
        · exact List.length_append.trans (by rw [hlen₁, hlen]; rfl)
      | none =>
        have hsecond := @fetching_submit cfg pl₁ hstaged (answers pl₁.pending.length) row
          plan.scale hhas₁ (by rw [hlen₁, slot_row_scale, hlayer, hrows]; exact hscale)
        obtain ⟨⟨hstaged₂, hlayer₂, hposition₂, hfull₂⟩, hrows₂⟩ := hsecond
        exact ⟨⟨hstaged₂, hlayer₂.trans hlayer, hposition₂.trans hposition, fun hok => by
          rw [hfull₂ hok, hlen₁, hlen]⟩, hrows₂.trans hrows⟩

/-- The entries of the row cache. -/
def EntriesSound (cp : Checkpoint) (row_cache : Table RowKey CachedRow) : Prop :=
  ∀ layer row c, row_cache.find (layer, row) = some c →
    cp.HasRow layer row ∧ c.value = cp.value_row layer row ∧ c.scale = cp.scale_row layer row

theorem fetching_cached {c : CachedRow} {r : Nat} (h : RowsHeld cfg.cp pl)
    (hlen : pl.pending.length = 2 * r) (hhas : cfg.cp.HasRow pl.layer (pl.rows.getD r 0))
    (hvalue : c.value = cfg.cp.value_row pl.layer (pl.rows.getD r 0))
    (hscale : c.scale = cfg.cp.scale_row pl.layer (pl.rows.getD r 0)) :
    RowsHeld cfg.cp ((pl.stage c.value).stage c.scale) := by
  have hlen₁ : (pl.stage c.value).pending.length = 2 * r + 1 :=
    List.length_append.trans (by rw [hlen]; rfl)
  have hfirst : RowsHeld cfg.cp (pl.stage c.value) := by
    refine h.stage ?_ ?_
    · rw [hlen, Nat.mul_div_cancel_left r (by omega)]
      exact hhas
    · rw [hlen, slot_row_value]
      exact hvalue
  refine hfirst.stage ?_ ?_
  · rw [hlen₁, show (2 * r + 1) / 2 = r by omega]
    exact hhas
  · rw [hlen₁, slot_row_scale]
    exact hscale

variable {row_cache : Table RowKey CachedRow} {answers : Nat → Result Unit} {rows : List Nat}

/-- The rows still to be fetched come behind those there. -/
theorem fetch_loop_spec {n r : Nat} (hcache : EntriesSound cfg.cp row_cache)
    (hrows : rows.length = kEngramRowsPerToken) (hr : r + n = kEngramRowsPerToken)
    (h : RowsHeld cfg.cp pl) (hlen : pl.pending.length = 2 * r)
    (hsame : pl.rows.take r = rows.take r) :
    Fetched cfg.cp rows pl (2 * n)
      (fetch_loop cfg.cp.manifest cfg.scales row_cache answers rows n r pl) := by
  induction n generalizing r pl with
  | zero =>
    refine ⟨⟨h, rfl, rfl, fun _ => rfl⟩, fun _ => ?_⟩
    have hpl := h.rows
    show pl.rows = rows
    rw [List.take_of_length_le (by omega), List.take_of_length_le (by omega)] at hsame
    exact hsame
  | succ n ih =>
    rw [fetch_loop]
    have hset := h.set_row hlen (rows.getD r 0)
    have hpl := h.rows
    have hget : (pl.rows.set r (rows.getD r 0)).getD r 0 = rows.getD r 0 := by
      rw [List.getD_eq_getElem?_getD, List.getElem?_set_self (by omega)]
      rfl
    have htake : (pl.rows.set r (rows.getD r 0)).take (r + 1) = rows.take (r + 1) := by
      rw [List.take_add_one, List.take_add_one, List.take_set_of_le (Nat.le_refl r), hsame,
        List.getElem?_set_self (by omega), List.getD_eq_getElem?_getD,
        List.getElem?_eq_getElem (show r < rows.length by omega)]
      rfl
    dsimp only
    generalize hpl₁ : ({ pl with rows := pl.rows.set r (rows.getD r 0) } : Planes) = pl₁ at hset ⊢
    have hlen₁ : pl₁.pending.length = 2 * r := by
      rw [← hpl₁]
      exact hlen
    have hrow₁ : pl₁.rows.getD r 0 = rows.getD r 0 := by
      rw [← hpl₁]
      exact hget
    have htake₁ : pl₁.rows.take (r + 1) = rows.take (r + 1) := by
      rw [← hpl₁]
      exact htake
    have hlayer₁ : pl₁.layer = pl.layer := by
      rw [← hpl₁]
    have hposition₁ : pl₁.fetched_position = pl.fetched_position := by
      rw [← hpl₁]
    -- the rest of the loop, after a row that took two slots
    have hrest : ∀ pl₂ : Planes, RowsHeld cfg.cp pl₂ → pl₂.layer = pl₁.layer →
        pl₂.fetched_position = pl₁.fetched_position → pl₂.rows = pl₁.rows →
        pl₂.pending.length = pl₁.pending.length + 2 →
        Fetched cfg.cp rows pl (2 * (n + 1))
          (fetch_loop cfg.cp.manifest cfg.scales row_cache answers rows n (r + 1) pl₂) := by
      intro pl₂ hstaged hlayer hposition hrows₂ hlen₂
      have htake₂ : pl₂.rows.take (r + 1) = rows.take (r + 1) := by
        rw [hrows₂]
        exact htake₁
      obtain ⟨⟨hs, hl, hp, hf⟩, hout⟩ := ih (by omega) hstaged (by omega) htake₂
      refine ⟨⟨hs, hl.trans (hlayer.trans hlayer₁), hp.trans (hposition.trans hposition₁), ?_⟩,
        hout⟩
      intro hok
      rw [hf hok]
      omega
    cases hfind : row_cache.find (pl.layer, rows.getD r 0) with
    | some c =>
      rw [← hlayer₁] at hfind
      obtain ⟨hhas, hvalue, hscale⟩ := hcache _ _ _ hfind
      rw [← hrow₁] at hhas hvalue hscale
      exact hrest _ (fetching_cached hset hlen₁ hhas hvalue hscale) rfl rfl rfl
        (by simp [Planes.stage])
    | none =>
      have hrow := @fetch_row_spec cfg pl₁ answers r _ hset hlen₁ hrow₁
      generalize fetch_row cfg.cp.manifest cfg.scales answers (rows.getD r 0) pl₁ = out at hrow ⊢
      obtain ⟨res, pl₂⟩ := out
      obtain ⟨⟨hs, hl, hp, hf⟩, hout⟩ := hrow
      cases res with
      | error e =>
        exact ⟨⟨hs, hl.trans hlayer₁, hp.trans hposition₁, fun hok => by cases hok⟩,
          fun hok => by cases hok⟩
      | ok _ => exact hrest pl₂ hs hl hp hout (hf rfl)

end Fetch

end CachedMoe.Runtime
