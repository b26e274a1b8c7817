import CachedMoe.Runtime.EngramSlots

/-! # The row cache of the engram tables

    A landing without a failure gathers, delivers and caches rows of the checkpoint; of a failed
    one nothing is kept. The cache never passes its limit, and its queue lists its keys. -/

namespace CachedMoe.Runtime

open LTS CachedMoe.Model

/-! ### Landing -/

/-- What has been gathered from slot `k`. -/
def Landing.slot (ld : Landing) (k : Nat) : List UInt8 :=
  if k % 2 = 1 then Region.read ld.scs (k / 2 * kEngramScaleRowBytes) kEngramScaleRowBytes
  else Region.read ld.vals (k / 2 * kEngramValueRowBytes) kEngramValueRowBytes

section Land

variable {staging : Nat → UInt8} {ld ld' : Landing}

theorem gather_slot (i : Nat) (p : PendingRead) (k : Nat) :
    (gather staging i p ld).slot k =
      if k = i then Region.read staging (i * kStagingPerRead + p.skew) (slot_bytes i)
      else ld.slot k := by
  unfold gather Landing.slot slot_bytes
  dsimp only
  by_cases hi : i % 2 = 1
  · rw [if_pos hi, if_pos hi]
    by_cases hk : k % 2 = 1
    · have hrow := congrFun (Region.read_write_row ld.scs (r := i / 2)
        (Region.length_read staging (i * kStagingPerRead + p.skew) kEngramScaleRowBytes)) (k / 2)
      rw [if_pos hk, if_pos hk]
      refine hrow.trans ?_
      rw [Function.update_apply]
      exact if_congr (by omega) rfl rfl
    · rw [if_neg hk, if_neg hk, if_neg (by omega)]
  · rw [if_neg hi, if_neg hi]
    by_cases hk : k % 2 = 1
    · rw [if_pos hk, if_pos hk, if_neg (by omega)]
    · have hrow := congrFun (Region.read_write_row ld.vals (r := i / 2)
        (Region.length_read staging (i * kStagingPerRead + p.skew) kEngramValueRowBytes)) (k / 2)
      rw [if_neg hk, if_neg hk]
      refine hrow.trans ?_
      rw [Function.update_apply]
      exact if_congr (by omega) rfl rfl

theorem gather_failed (i : Nat) (p : PendingRead) : (gather staging i p ld).failed = ld.failed := by
  unfold gather
  dsimp only
  split <;> rfl

theorem note_result_ok {p : PendingRead} (h : note_result p ld = some ld') :
    (∀ k, ld'.slot k = ld.slot k) ∧ (ld'.failed.code = .Ok → ld.failed.code = .Ok ∧ p.Done) := by
  obtain ⟨read, skew⟩ := p
  cases read with
  | none =>
    cases h
    exact ⟨fun _ => rfl, fun hok => ⟨hok, fun _ hnone => by cases hnone⟩⟩
  | some rd =>
    obtain ⟨status, hstatus, rfl⟩ := Option.map_eq_some_iff.mp h
    split
    next hfail => exact ⟨fun _ => rfl, fun hok => absurd hok hfail.1⟩
    next hkeep =>
      refine ⟨fun _ => rfl, fun hok => ⟨hok, ?_⟩⟩
      intro rd' hrd'
      cases hrd'
      exact ⟨status, hstatus, by_contra fun hbad => hkeep ⟨hbad, hok⟩⟩

/-- A landing without a failure: every read has succeeded, and every slot is gathered. -/
theorem land_loop_spec {pending : List PendingRead} {i : Nat}
    (h : land_loop staging pending i ld = some ld') (hok : ld'.failed.code = .Ok) :
    ld.failed.code = .Ok ∧ (∀ p ∈ pending, p.Done) ∧ (∀ k < i, ld'.slot k = ld.slot k) ∧
      ∀ k p, pending[k]? = some p → ld'.slot (i + k) =
        Region.read staging ((i + k) * kStagingPerRead + p.skew) (slot_bytes (i + k)) := by
  induction pending generalizing i ld with
  | nil =>
    cases h
    exact ⟨hok, fun p hp => absurd hp List.not_mem_nil, fun _ _ => rfl,
      fun k p hget => by cases hget⟩
  | cons p pending ih =>
    obtain ⟨ld₁, hnote, hrest⟩ := Option.bind_eq_some_iff.mp h
    obtain ⟨hslots, hfailed⟩ := note_result_ok hnote
    obtain ⟨hok₁, hdone, hbefore, hafter⟩ := ih hrest
    rw [gather_failed] at hok₁
    obtain ⟨hok₀, hp⟩ := hfailed hok₁
    refine ⟨hok₀, List.forall_mem_cons.mpr ⟨hp, hdone⟩, ?_, ?_⟩
    · intro k hk
      rw [hbefore k (by omega), gather_slot, if_neg (by omega), hslots]
    · intro k p' hget
      cases k with
      | zero =>
        cases hget
        rw [Nat.add_zero, hbefore i (by omega), gather_slot, if_pos rfl]
      | succ k =>
        have htail := hafter k p' hget
        rw [show i + 1 + k = i + (k + 1) by omega] at htail
        exact htail

/-- What is gathered from the slots of a plane without a failure. -/
theorem land_loop_rows {cp : Checkpoint} {pl : Planes} (hstaged : RowsHeld cp pl)
    (h : land_loop pl.staging pl.pending 0 {} = some ld) (hok : ld.failed.code = .Ok) {r : Nat}
    (hr : r < pl.pending.length / 2) :
    cp.HasRow pl.layer (pl.rows.getD r 0) ∧
      Region.read ld.vals (r * kEngramValueRowBytes) kEngramValueRowBytes =
        cp.value_row pl.layer (pl.rows.getD r 0) ∧
      Region.read ld.scs (r * kEngramScaleRowBytes) kEngramScaleRowBytes =
        cp.scale_row pl.layer (pl.rows.getD r 0) := by
  obtain ⟨_, hdone, _, hgathered⟩ := land_loop_spec h hok
  have hslot : ∀ k < pl.pending.length, cp.HasRow pl.layer (pl.rows.getD (k / 2) 0) ∧
      ld.slot k = slot_row cp pl.layer pl.rows k := by
    intro k hk
    have hget := List.getElem?_eq_getElem hk
    obtain ⟨hhas, hheld⟩ := hstaged.slots k _ hget
    have hdelivered := hheld.deliver (hdone _ (List.getElem_mem hk))
    rw [length_slot_row hhas] at hdelivered
    have hfrom := hgathered k _ hget
    rw [Nat.zero_add] at hfrom
    exact ⟨hhas, hfrom.trans hdelivered⟩
  obtain ⟨hhas, hvalue⟩ := hslot (2 * r) (by omega)
  obtain ⟨_, hscale⟩ := hslot (2 * r + 1) (by omega)
  unfold Landing.slot slot_row at hvalue hscale
  dsimp only at hvalue hscale
  rw [if_neg (by omega), if_neg (by omega)] at hvalue
  rw [if_pos (by omega), if_pos (by omega), show (2 * r + 1) / 2 = r by omega] at hscale
  rw [show 2 * r / 2 = r by omega] at hvalue hhas
  exact ⟨hhas, hvalue, hscale⟩

/-! ### The cache -/

/-- The row cache and its queue. -/
structure CacheSound (cp : Checkpoint) (c : Table RowKey CachedRow × List RowKey) : Prop where
  entries : EntriesSound cp c.1
  limit : c.1.length ≤ kRowCacheLimit
  listed : Table.Listed c.2 c.1

theorem CacheSound.make_room {cp : Checkpoint} {c : Table RowKey CachedRow × List RowKey}
    (h : CacheSound cp c) (hfull : c.1.length = kRowCacheLimit) :
    CacheSound cp (c.2.head?.elim c.1 fun oldest => c.1.erase oldest, c.2.tail) ∧
      (c.2.head?.elim c.1 fun oldest => c.1.erase oldest).length < kRowCacheLimit := by
  obtain ⟨t, order⟩ := c
  obtain ⟨hentries, hlimit, hlisted⟩ := h
  have hfull : t.length = kRowCacheLimit := hfull
  have hlen : order.length = t.length := hlisted.length_eq
  cases order with
  | nil =>
    rw [← hlen] at hfull
    cases hfull
  | cons oldest order =>
    have herased : Table.Listed order (t.erase oldest) := hlisted.erase_first
    have hless : (t.erase oldest).length < kRowCacheLimit := by
      rw [← herased.length_eq, ← hfull, ← hlen]
      exact Nat.lt_succ_self _
    refine ⟨⟨?_, hless.le, herased⟩, hless⟩
    intro layer row c hfind
    have hfind' : (t.erase oldest).find (layer, row) = some c := hfind
    rw [Table.find_erase] at hfind'
    split at hfind'
    · cases hfind'
    · exact hentries layer row c hfind'

theorem CacheSound.add {cp : Checkpoint} {c : Table RowKey CachedRow × List RowKey}
    (h : CacheSound cp c) (hroom : c.1.length < kRowCacheLimit) {layer row : Nat} {new : CachedRow}
    (hnew : c.1.find (layer, row) = none) (hhas : cp.HasRow layer row)
    (hvalue : new.value = cp.value_row layer row) (hscale : new.scale = cp.scale_row layer row) :
    CacheSound cp (c.1.emplace (layer, row) new, c.2 ++ [(layer, row)]) := by
  have hlisted := h.listed.emplace_last hnew new
  refine ⟨?_, ?_, hlisted⟩
  · intro layer' row' c' hfind
    have hfind' : (c.1.emplace (layer, row) new).find (layer', row') = some c' := hfind
    rw [Table.find_emplace] at hfind'
    split at hfind'
    next heq =>
      cases heq
      rw [hnew] at hfind'
      cases hfind'
      exact ⟨hhas, hvalue, hscale⟩
    · exact h.entries layer' row' c' hfind'
  · have hlen := hlisted.length_eq
    have hold := h.listed.length_eq
    rw [List.length_append, List.length_singleton] at hlen
    show (c.1.emplace (layer, row) new).length ≤ _
    omega

theorem cache_loop_sound {cp : Checkpoint} {layer n r : Nat} {rows : List Nat}
    {c : Table RowKey CachedRow × List RowKey} (h : CacheSound cp c)
    (hrows : ∀ r' < r + n, cp.HasRow layer (rows.getD r' 0) ∧
      Region.read ld.vals (r' * kEngramValueRowBytes) kEngramValueRowBytes =
        cp.value_row layer (rows.getD r' 0) ∧
      Region.read ld.scs (r' * kEngramScaleRowBytes) kEngramScaleRowBytes =
        cp.scale_row layer (rows.getD r' 0)) :
    CacheSound cp (cache_loop layer rows ld n r c) := by
  induction n generalizing r c with
  | zero => exact h
  | succ n ih =>
    rw [cache_loop]
    dsimp only
    have hnext : ∀ r' < r + 1 + n, _ := fun r' hr' => hrows r' (by omega)
    obtain ⟨hhas, hvalue, hscale⟩ := hrows r (by omega)
    by_cases hcached : (c.1.find (layer, rows.getD r 0)).isSome
    · rw [if_pos hcached]
      exact ih h hnext
    · rw [if_neg hcached]
      have hmiss := Option.not_isSome_iff_eq_none.mp hcached
      by_cases hfull : c.1.length = kRowCacheLimit
      · rw [if_pos hfull]
        obtain ⟨hroom, hless⟩ := h.make_room hfull
        refine ih (hroom.add hless ?_ hhas hvalue hscale) hnext
        cases hhead : c.2.head? with
        | none => exact hmiss
        | some oldest =>
          show (c.1.erase oldest).find _ = none
          rw [Table.find_erase, hmiss, ite_self]
      · rw [if_neg hfull]
        have hlimit := h.limit
        exact ih (h.add (by omega) hmiss hhas hvalue hscale) hnext

end Land

/-! ### Steps -/

/-- The cache and every plane. -/
structure RunnerSound (cp : Checkpoint) (s : EngramRunner) : Prop where
  cache : CacheSound cp (s.row_cache, s.row_fifo)
  planes : ∀ pl ∈ s.planes, PlaneSound cp pl

/-- A landing without a failure has delivered the rows of plane `pl` that were in flight, and all
    of them if the plane had been fetched. -/
structure Landed (cp : Checkpoint) (pl pl' : Planes) : Prop where
  layer : pl'.layer = pl.layer
  rows : pl'.rows = pl.rows
  whole : Delivered cp pl' (pl.pending.length / 2)
  all : pl.fetched_position ≠ kNoPosition → Delivered cp pl' kEngramRowsPerToken

section Steps

variable {cfg : RowSetup} {s s' : EngramRunner}

theorem set_planes {cp : Checkpoint} {planes : List Planes} (h : ∀ pl ∈ planes, PlaneSound cp pl)
    {i : Nat} {pl : Planes} (hpl : PlaneSound cp pl) :
    ∀ pl' ∈ planes.set i pl, PlaneSound cp pl' := by
  intro pl' hmem
  rcases List.mem_or_eq_of_mem_set hmem with hold | rfl
  · exact h pl' hold
  · exact hpl

theorem land_sound {cp : Checkpoint} {i : Nat} {pl : Planes} {res : Result Unit}
    (hs : RunnerSound cp s) (hpl : s.planes[i]? = some pl) (h : s.land i pl = some (res, s')) :
    RunnerSound cp s' ∧ ∃ pl', s'.planes[i]? = some pl' ∧ pl'.pending = [] ∧
      (res = .ok () → Landed cp pl pl') := by
  have hi : i < s.planes.length := (List.getElem?_eq_some_iff.mp hpl).1
  obtain ⟨hstaged, hfetched⟩ := hs.planes pl (List.mem_of_getElem? hpl)
  unfold EngramRunner.land at h
  by_cases hnone : pl.pending = []
  · rw [if_pos hnone] at h
    cases h
    refine ⟨hs, pl, hpl, hnone, fun _ => ⟨rfl, rfl, ?_, ?_⟩⟩
    · intro r hr
      rw [hnone] at hr
      exact absurd hr (Nat.not_lt_zero _)
    · intro hposition
      rcases hfetched hposition with hfull | ⟨_, hdelivered⟩
      · rw [hnone] at hfull
        cases hfull
      · exact hdelivered
  · rw [if_neg hnone] at h
    obtain ⟨ld, hld, hout⟩ := Option.map_eq_some_iff.mp h
    -- one failed read and no row of the staging counts
    by_cases hfail : ld.failed.code ≠ .Ok
    · rw [if_pos hfail] at hout
      cases hout
      refine ⟨⟨hs.cache, set_planes hs.planes ⟨⟨hstaged.rows, fun k p hget => by cases hget⟩, ?_⟩⟩,
        _, List.getElem?_set_self hi, rfl, fun hok => by cases hok⟩
      intro hposition
      exact absurd rfl hposition
    · rw [if_neg hfail] at hout
      cases hout
      have hrows := fun r hr => @land_loop_rows ld cp pl hstaged hld (not_not.mp hfail) r hr
      have hall : pl.fetched_position ≠ kNoPosition →
          pl.pending.length / 2 = kEngramRowsPerToken := by
        intro hposition
        rcases hfetched hposition with hfull | ⟨hempty, _⟩
        · rw [hfull]
          rfl
        · exact absurd hempty hnone
      refine ⟨⟨cache_loop_sound hs.cache ?_, set_planes hs.planes
        ⟨⟨hstaged.rows, fun k p hget => by cases hget⟩, ?_⟩⟩,
        _, List.getElem?_set_self hi, rfl, fun _ => ⟨rfl, rfl, ?_, ?_⟩⟩
      · rw [Nat.zero_add]
        exact hrows
      · intro hposition
        refine .inr ⟨rfl, fun r hr => (hrows r ?_).2⟩
        rw [hall hposition]
        exact hr
      · exact fun r hr => (hrows r hr).2
      · intro hposition r hr
        refine (hrows r ?_).2
        rw [hall hposition]
        exact hr

/-- What a fetch leaves; when it succeeds, all rows of the position are in flight. -/
theorem fetch_sound {layer position batch_row : Nat} {history : List Nat}
    {answers : Nat → Result Unit} {res : Result Unit} (hs : RunnerSound cfg.cp s)
    (h : s.fetch cfg.cp.manifest cfg.tables cfg.scales answers layer history position batch_row =
      some (res, s')) :
    RunnerSound cfg.cp s' ∧ (res = .ok () → ∃ i pl, s.planes_for layer batch_row = some i ∧
      s'.planes[i]? = some pl ∧ pl.fetched_position = position ∧
      cfg.tables.hash_rows layer history position kEngramRowsPerToken = some (.ok pl.rows)) := by
  unfold EngramRunner.fetch at h
  cases hfor : s.planes_for layer batch_row with
  | none =>
    rw [hfor] at h
    cases h
    exact ⟨hs, fun hok => by cases hok⟩
  | some i =>
    -- what is in flight lands first; when that fails nothing is asked for
    rw [hfor] at h
    obtain ⟨⟨landed, s₁⟩, hland, h⟩ := Option.bind_eq_some_iff.mp h
    obtain ⟨pl, hpl, hland⟩ := Option.bind_eq_some_iff.mp hland
    obtain ⟨hs₁, pl₁, hpl₁, hempty, _⟩ := land_sound hs hpl hland
    cases landed with
    | error e =>
      cases h
      exact ⟨hs₁, fun hok => by cases hok⟩
    | ok _ =>
      obtain ⟨hashed, hhash, h⟩ := Option.bind_eq_some_iff.mp h
      cases hashed with
      | error e =>
        cases h
        exact ⟨hs₁, fun hok => by cases hok⟩
      | ok rows =>
        obtain ⟨pl₂, hpl₂, hout⟩ := Option.map_eq_some_iff.mp h
        split at hpl₂
        case isFalse => cases hpl₂
        case isTrue hlen =>
        rw [hpl₁] at hpl₂
        obtain rfl := Option.some.inj hpl₂
        have hi : i < s₁.planes.length := (List.getElem?_eq_some_iff.mp hpl₁).1
        obtain ⟨hstaged, _⟩ := hs₁.planes pl₁ (List.mem_of_getElem? hpl₁)
        have hstart : RowsHeld cfg.cp { pl₁ with fetched_position := kNoPosition } :=
          ⟨hstaged.rows, hstaged.slots⟩
        have hloop := @fetch_loop_spec cfg { pl₁ with fetched_position := kNoPosition }
          s₁.row_cache answers rows kEngramRowsPerToken 0 hs₁.cache.entries hlen (Nat.zero_add _)
          hstart (by show pl₁.pending.length = _; rw [hempty]; rfl) rfl
        generalize fetch_loop cfg.cp.manifest cfg.scales s₁.row_cache answers rows
          kEngramRowsPerToken 0 { pl₁ with fetched_position := kNoPosition } = out at hloop hout
        obtain ⟨res', pl₃⟩ := out
        obtain ⟨⟨hs₃, _, hposition, hfull⟩, hrows⟩ := hloop
        cases res' with
        | error e =>
          cases hout
          refine ⟨⟨hs₁.cache, set_planes hs₁.planes ⟨hs₃, fun hne => absurd hposition hne⟩⟩,
            fun hok => by cases hok⟩
        | ok _ =>
          cases hout
          refine ⟨⟨hs₁.cache, set_planes hs₁.planes ⟨⟨hs₃.rows, hs₃.slots⟩, fun _ => .inl ?_⟩⟩,
            fun _ => ⟨i, _, rfl, List.getElem?_set_self hi, rfl, ?_⟩⟩
          · refine (hfull rfl).trans ?_
            show pl₁.pending.length + _ = _
            rw [hempty]
            rfl
          · have hsame : pl₃.rows = rows := hrows rfl
            rw [hhash]
            show _ = some (Except.ok pl₃.rows)
            rw [hsame]

/-- The read that a step of the device is about. -/
theorem in_flight_eq {pl : Planes} {slot : Nat} {f : PendingRead × RowRead}
    (h : in_flight pl slot = some f) :
    pl.pending[slot]? = some f.1 ∧ f.1.read = some f.2 ∧ f.2.result = none := by
  obtain ⟨p, hp, h⟩ := Option.bind_eq_some_iff.mp h
  obtain ⟨rd, hrd, h⟩ := Option.bind_eq_some_iff.mp h
  split at h
  next hresult =>
    cases h
    exact ⟨hp, hrd, hresult⟩
  · cases h

/-- A write of the device into the window of a read in flight. -/
theorem write_sound {cp : Checkpoint} {pl : Planes} {slot off : Nat} {bytes : List UInt8}
    {f : PendingRead × RowRead} (hpl : PlaneSound cp pl) (hf : in_flight pl slot = some f)
    (hinside : off + bytes.length ≤ f.2.bytes) :
    PlaneSound cp { pl with
      staging := Region.write pl.staging (slot * kStagingPerRead + off) bytes } := by
  obtain ⟨hget, hread, hresult⟩ := in_flight_eq hf
  obtain ⟨p, rd⟩ := f
  dsimp only at hget hread hresult hinside
  refine ⟨⟨hpl.staged.rows, ?_⟩, hpl.fetched⟩
  intro k p' hget'
  obtain ⟨hhas, hheld⟩ := hpl.staged.slots k p' hget'
  refine ⟨hhas, ?_⟩
  by_cases hk : k = slot
  · subst hk
    obtain rfl : p = p' := Option.some.inj (hget.symm.trans hget')
    cases hheld with
    | staged => cases hread
    | reading hsize hcovers hdone =>
      cases hread
      refine .reading hsize hcovers fun status hstatus => ?_
      rw [hresult] at hstatus
      cases hstatus
  · have hsize : rd.bytes ≤ kStagingPerRead := by
      have hslot := (hpl.staged.slots slot p hget).2
      cases hslot with
      | staged => cases hread
      | reading hsize => cases hread; exact hsize
    refine hheld.congr fun j hj => Region.write_of_outside ?_
    -- the slots do not overlap
    rcases Nat.lt_or_gt_of_ne hk with hlt | hlt
    · have hend : (k + 1) * kStagingPerRead ≤ slot * kStagingPerRead := Nat.mul_le_mul_right _ hlt
      rw [Nat.succ_mul] at hend
      exact .inl (by omega)
    · have hend : (slot + 1) * kStagingPerRead ≤ k * kStagingPerRead := Nat.mul_le_mul_right _ hlt
      rw [Nat.succ_mul] at hend
      exact .inr (by omega)

theorem done_sound {cp : Checkpoint} {pl : Planes} {slot : Nat} {result : Status}
    {f : PendingRead × RowRead} (hpl : PlaneSound cp pl) (hf : in_flight pl slot = some f)
    (hresult : result.code = .Ok →
      Region.read pl.staging (slot * kStagingPerRead) (cp.in_file f.2) =
        Region.read (cp.files f.2.file) f.2.file_off (cp.in_file f.2)) :
    PlaneSound cp { pl with
      pending := pl.pending.set slot { f.1 with read := some { f.2 with result := result } } } := by
  obtain ⟨hget, hread, _⟩ := in_flight_eq hf
  obtain ⟨p, rd⟩ := f
  dsimp only at hget hread hresult
  refine ⟨⟨hpl.staged.rows, ?_⟩, fun hposition => ?_⟩
  · intro k p' hget'
    by_cases hk : slot = k
    · subst hk
      have hslot : slot < pl.pending.length := (List.getElem?_eq_some_iff.mp hget).1
      dsimp only at hget'
      rw [List.getElem?_set_self hslot] at hget'
      obtain rfl := Option.some.inj hget'
      obtain ⟨hhas, hheld⟩ := hpl.staged.slots slot p hget
      refine ⟨hhas, ?_⟩
      cases hheld with
      | staged => cases hread
      | reading hsize hcovers =>
        cases hread
        refine .reading hsize hcovers fun status hstatus hok => ?_
        obtain rfl := Option.some.inj hstatus
        exact hresult hok
    · dsimp only at hget'
      rw [List.getElem?_set_ne hk] at hget'
      exact hpl.staged.slots k p' hget'
  · rcases hpl.fetched hposition with hfull | ⟨hempty, _⟩
    · exact .inl (List.length_set.trans hfull)
    · rw [hempty] at hget
      cases hget

theorem next_row_sound {l : RowStep} (hs : RunnerSound cfg.cp s) (h : next_row cfg s l = some s') :
    RunnerSound cfg.cp s' := by
  cases l with
  | fetch layer history position batch_row answers =>
    obtain ⟨⟨res, s₁⟩, hfetch, rfl⟩ := Option.map_eq_some_iff.mp h
    exact (fetch_sound hs hfetch).1
  | land layer batch_row =>
    obtain ⟨i, _, h⟩ := Option.bind_eq_some_iff.mp h
    obtain ⟨pl, hpl, h⟩ := Option.bind_eq_some_iff.mp h
    obtain ⟨⟨res, s₁⟩, hland, rfl⟩ := Option.map_eq_some_iff.mp h
    exact (land_sound hs hpl hland).1
  | write i slot off bytes =>
    obtain ⟨pl, hpl, h⟩ := Option.bind_eq_some_iff.mp h
    obtain ⟨f, hf, h⟩ := Option.bind_eq_some_iff.mp h
    dsimp only at h
    split at h
    · cases h
      exact ⟨hs.cache, set_planes hs.planes
        (write_sound (hs.planes pl (List.mem_of_getElem? hpl)) hf ‹_›)⟩
    · cases h
  | done i slot result =>
    obtain ⟨pl, hpl, h⟩ := Option.bind_eq_some_iff.mp h
    obtain ⟨f, hf, h⟩ := Option.bind_eq_some_iff.mp h
    dsimp only at h
    split at h
    · cases h
      exact ⟨hs.cache, set_planes hs.planes
        (done_sound (hs.planes pl (List.mem_of_getElem? hpl)) hf ‹_›)⟩
    · cases h

theorem reachable_sound (h : Reachable (engram_system cfg) s) : RunnerSound cfg.cp s := by
  refine h.invariant (P := RunnerSound cfg.cp) ?_ ?_
  · rintro s ⟨bindings, rfl⟩
    refine ⟨⟨fun _ _ _ hnone => (by cases hnone), Nat.zero_le _, Table.Listed.nil⟩, ?_⟩
    intro pl hmem
    obtain ⟨lt, _, hmem⟩ := List.mem_flatMap.mp hmem
    obtain ⟨batch_row, _, rfl⟩ := List.mem_map.mp hmem
    exact ⟨⟨List.length_replicate .., fun k p hget => by cases hget⟩, fun hne => absurd rfl hne⟩
  · intro s l s' hs hstep
    exact next_row_sound hs hstep

end Steps

/-- In every run, whatever reads fail: each entry of the row cache has the bytes of its row in the
    checkpoint, the cache stays within its limit, and its queue lists each key once. A landing
    without a failure delivers rows of the checkpoint, all of them after a fetch that succeeded;
    those are the rows that the tables name. -/
theorem engram_rows_sound (cfg : RowSetup) {s : EngramRunner}
    (h : Reachable (engram_system cfg) s) :
    CacheSound cfg.cp (s.row_cache, s.row_fifo) ∧
      (∀ i pl s', s.planes[i]? = some pl → s.land i pl = some (.ok (), s') →
        ∃ pl', s'.planes[i]? = some pl' ∧ Landed cfg.cp pl pl') ∧
      ∀ layer history position batch_row answers s',
        s.fetch cfg.cp.manifest cfg.tables cfg.scales answers layer history position batch_row =
          some (.ok (), s') →
        ∃ i pl, s.planes_for layer batch_row = some i ∧ s'.planes[i]? = some pl ∧
          pl.fetched_position = position ∧
          cfg.tables.hash_rows layer history position kEngramRowsPerToken = some (.ok pl.rows) := by
  have hs := reachable_sound h
  refine ⟨hs.cache, ?_, ?_⟩
  · intro i pl s' hpl hland
    obtain ⟨_, pl', hpl', _, hlanded⟩ := land_sound hs hpl hland
    exact ⟨pl', hpl', hlanded rfl⟩
  · intro layer history position batch_row answers s' hfetch
    exact (fetch_sound hs hfetch).2 rfl

/-- A table of one row, in a file with its scale behind it. -/
def one_row_manifest : Manifest where
  alignment := kPageSize
  files := [{ path := [] }]
  engram := [{
    layer := 1
    rows := 1
    value := { row_bytes := kEngramValueRowBytes }
    scale := { offset := 256, row_bytes := kEngramScaleRowBytes } }]

def one_row : RowSetup where
  cp := {
    manifest := one_row_manifest
    files := fun _ _ => 7
    size := fun _ => 264
    validated := by decide
    sized := fun _ => by decide
    inside := by decide }
  tables := {
    compressed_vocab_size := 1
    token_map := [0]
    layers := [{
      layer := 1
      num_embeddings := 1
      multipliers := [0, 0, 0, 0]
      primes := List.replicate kEngramRowsPerToken 1
      offsets := List.replicate kEngramRowsPerToken 0 }] }
  scales := none
  loaded := fun _ hnone => by cases hnone

/-- The first fetch fails behind its first row; the second finds that row in the cache. -/
theorem engram_rows_sound_one_row :
    ∃ s : EngramRunner, Reachable (engram_system one_row) s ∧ s.row_cache.length = 1 ∧
      s.planes.map (fun pl => pl.pending.length) = [48] ∧
      CacheSound one_row.cp (s.row_cache, s.row_fifo) := by
  let bytes : List UInt8 := List.replicate 264 7
  have hinit : (engram_system one_row).init { planes := [{ layer := 1, batch_row := 0 }] } :=
    ⟨1, rfl⟩
  obtain ⟨s, hs, hP⟩ := Reachable.of_execute (next_row one_row)
    [.fetch 1 [0] 0 0 (fun k => if k < 2 then .ok () else fail .Io ""),
      .write 0 0 0 bytes, .done 0 0 { code := .Ok, message := "" },
      .write 0 1 0 bytes, .done 0 1 { code := .Ok, message := "" },
      .fetch 1 [0] 0 0 (fun _ => fail .Io "")]
    (fun s => decide (s.row_cache.length = 1 ∧ s.planes.map (fun pl => pl.pending.length) = [48]))
    hinit (by decide +kernel)
  have hP := of_decide_eq_true hP
  exact ⟨s, hs, hP.1, hP.2, (engram_rows_sound one_row hs).1⟩

end CachedMoe.Runtime
