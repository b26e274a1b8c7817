import CachedMoe.Store.ExpertStore
import CachedMoe.Framework.System

/-! # The expert store as a transition system

    Every public operation that writes is an `Op`, and `apply` is what it does to the
    store. `init` and `reset` throw the contents away and leave an `Empty` store. What any
    other operation can do to the four tables is said once, in `apply_effect`: some
    bookkeeping that none of them depends on (`Keep`), followed by at most one `Move`. The
    invariants are proved from the moves and never unfold an operation again. -/

namespace CachedMoe.Store

open CachedMoe

/-! ### Operations -/

/-- The public operations that change the store, with their arguments. -/
inductive Op where
  | init (backing : Option SlabBacking) (cache : CacheConfig) (layers experts_per_layer : Nat)
  | reset
  | set_path_b_first_slab (slab : Nat)
  | set_evict_path (path : EvictPath)
  | set_fixed_cache (enabled : Bool)
  | lookup (key : ExpertKey) (token guard : Nat)
  | begin_fill (key : ExpertKey) (entry : ExpertEntry) (tier : Tier)
  | begin_fill_synthetic (key : ExpertKey) (tier : Tier)
  | finish_run (slot : Nat) (ok : Bool) (token : Nat)
  | finish_fill (slot : Nat) (ok : Bool) (token : Nat)
  | evict (slot : Nat)
  | evict_key (key : ExpertKey)
  | evict_lru
  | set_completed_timeline (v : Nat)
  | guarded_snapshot (guard : Nat)
  | set_guard (slot v : Nat)
  | note_heat (key : ExpertKey) (score alpha : ℚ)
  | decay_heat (factor : ℚ)
  | pin (key : ExpertKey)
  | touch (key : ExpertKey) (stamp : Nat) (include_filling : Bool)
  | reset_stats

/-- Every operation but the two that throw the store's contents away. -/
def Op.keeps_contents : Op → Bool
  | .init .. | .reset => false
  | _ => true

/-- The slot a report is about, for the two operations that report. -/
def Op.finishes : Op → Option Nat
  | .finish_run slot .. => some slot
  | .finish_fill slot .. => some slot
  | _ => none

/-- The key an operation asks a fill for. -/
def Op.begins : Op → Option ExpertKey
  | .begin_fill key .. => some key
  | .begin_fill_synthetic key _ => some key
  | _ => none

namespace ExpertStore

/-- The store after an operation, whatever the operation returned. -/
def apply (st : ExpertStore) : Op → ExpertStore
  | .init backing cache layers experts_per_layer =>
      (st.init backing cache layers experts_per_layer).2
  | .reset => st.reset
  | .set_path_b_first_slab slab => { st with path_b_first_slab := slab }
  | .set_evict_path path => { st with evict_path := path }
  | .set_fixed_cache enabled => st.set_fixed_cache enabled
  | .lookup key token guard => (st.lookup key token guard).2
  | .begin_fill key entry tier => (st.begin_fill key entry tier).2
  | .begin_fill_synthetic key tier => (st.begin_fill_synthetic key tier).2
  | .finish_run slot ok token => (st.finish_run slot ok token).2
  | .finish_fill slot ok token => (st.finish_fill slot ok token).2
  | .evict slot => (st.evict slot).2
  | .evict_key key => (st.evict_key key).2
  | .evict_lru => st.evict_lru.2
  | .set_completed_timeline v => st.set_completed_timeline v
  | .guarded_snapshot guard => (st.guarded_snapshot guard).2
  | .set_guard slot v => (st.set_guard slot v).2
  | .note_heat key score alpha => st.note_heat key score alpha
  | .decay_heat factor => st.decay_heat factor
  | .pin key => (st.pin key).2
  | .touch key stamp include_filling => (st.touch key stamp include_filling).2
  | .reset_stats => st.reset_stats

end ExpertStore

open ExpertStore

/-- The store as a system: runs start from what a successful `init` leaves, on any store. -/
def store_system : LTS.System ExpertStore Op :=
  .ofNext
    (fun st => ∃ st₀ backing cache layers experts_per_layer,
      ExpertStore.init st₀ backing cache layers experts_per_layer = (.ok (), st))
    (fun st op => some (st.apply op))

/-! ### Bookkeeping -/

/-- The occupancy counters `(resident, filling, free, pinned)`. -/
def ExpertStoreStats.occupancy (stats : ExpertStoreStats) : Nat × Nat × Nat × Nat :=
  (stats.resident, stats.filling, stats.free, stats.pinned)

/-- Two contents of a slot that the tables cannot tell apart; the guard may rise. -/
structure SameSlot (s s' : ExpertSlot) : Prop where
  key : s'.key = s.key
  state : s'.state = s.state
  tier : s'.tier = s.tier
  base : slot_base s' = slot_base s
  part_offset : s'.part_offset = s.part_offset
  guard : s.guard_timeline ≤ s'.guard_timeline

theorem SameSlot.refl (s : ExpertSlot) : SameSlot s s :=
  ⟨rfl, rfl, rfl, rfl, rfl, le_rfl⟩

/-- What only `init` and `reset` change. -/
structure SameGeometry (st st' : ExpertStore) : Prop where
  layers : st'.layers = st.layers
  experts_per_layer : st'.experts_per_layer = st.experts_per_layer
  slots_size : st'.slots_size = st.slots_size
  slot_bytes : st'.pool.cfg.slot_bytes = st.pool.cfg.slot_bytes
  completed : st.completed_timeline ≤ st'.completed_timeline

/-- A change the four tables and the occupancy counters do not depend on. -/
structure Keep (st st' : ExpertStore) : Prop extends SameGeometry st st' where
  slots : ∀ i, SameSlot (st.slots i) (st'.slots i)
  index : st'.index = st.index
  free_list : st'.free_list = st.free_list
  table : st'.table = st.table
  occupancy : st'.stats.occupancy = st.stats.occupancy

theorem Keep.refl (st : ExpertStore) : Keep st st where
  layers := rfl
  experts_per_layer := rfl
  slots_size := rfl
  slot_bytes := rfl
  completed := le_rfl
  slots := fun _ => .refl _
  index := rfl
  free_list := rfl
  table := rfl
  occupancy := rfl

theorem SameGeometry.refl (st : ExpertStore) : SameGeometry st st :=
  (Keep.refl st).toSameGeometry

theorem SameGeometry.trans {st st₁ st' : ExpertStore} (h : SameGeometry st st₁)
    (h' : SameGeometry st₁ st') : SameGeometry st st' where
  layers := h'.layers.trans h.layers
  experts_per_layer := h'.experts_per_layer.trans h.experts_per_layer
  slots_size := h'.slots_size.trans h.slots_size
  slot_bytes := h'.slot_bytes.trans h.slot_bytes
  completed := h.completed.trans h'.completed

theorem SameSlot.trans {s s₁ s₂ : ExpertSlot} (h : SameSlot s s₁) (h' : SameSlot s₁ s₂) :
    SameSlot s s₂ :=
  ⟨h'.key.trans h.key, h'.state.trans h.state, h'.tier.trans h.tier, h'.base.trans h.base,
    h'.part_offset.trans h.part_offset, h.guard.trans h'.guard⟩

theorem Keep.trans {st st₁ st' : ExpertStore} (h : Keep st st₁) (h' : Keep st₁ st') :
    Keep st st' where
  toSameGeometry := h.toSameGeometry.trans h'.toSameGeometry
  slots := fun i => (h.slots i).trans (h'.slots i)
  index := h'.index.trans h.index
  free_list := h'.free_list.trans h.free_list
  table := h'.table.trans h.table
  occupancy := h'.occupancy.trans h.occupancy

/-- One slot rewritten within `SameSlot`, and any of the event counters. -/
theorem Keep.of_set_slot {st : ExpertStore} {i : Nat} {s : ExpertSlot} {stats : ExpertStoreStats}
    (hs : SameSlot (st.slots i) s) (hstats : stats.occupancy = st.stats.occupancy) :
    Keep st (st.set_slot i s stats) where
  layers := rfl
  experts_per_layer := rfl
  slots_size := rfl
  slot_bytes := rfl
  completed := le_rfl
  slots := by
    intro j
    by_cases h : j = i
    · subst h
      simpa [set_slot] using hs
    · simpa [set_slot, Function.update_of_ne h] using SameSlot.refl _
  index := rfl
  free_list := rfl
  table := rfl
  occupancy := hstats

/-! ### Moves -/

/-- What a successful `init`, or `reset`, leaves: an empty store. -/
structure Empty (st : ExpertStore) : Prop where
  slot_bytes : st.pool.cfg.slot_bytes = layout.kExpertSlotBytes
  slots_size_lt : st.slots_size < 2 ^ 32
  free : ∀ i < st.slots_size, (st.slots i).state = .Free
  base : ∀ i < st.slots_size,
    0 < slot_base (st.slots i) ∧ slot_base (st.slots i) + layout.kExpertSlotBytes ≤ 2 ^ 64
  index : st.index = fun _ => none
  free_list : st.free_list = List.range st.slots_size
  table : st.table = fun _ => kNoDeviceAddress
  occupancy : st.stats.occupancy = (0, 0, st.slots_size, 0)

/-- A free slot is taken for the key `k`. -/
structure Fill (st st' : ExpertStore) (i : Nat) (k : ExpertKey) (s : ExpertSlot) : Prop
    extends SameGeometry st st' where
  in_range : st.key_in_range k
  absent : st.index k = none
  not_frozen : st.cache_frozen = false
  free_list : st.free_list = i :: st'.free_list
  slots : st'.slots = Function.update st.slots i s
  key : s.key = k
  state : s.state = .Filling
  base : slot_base s = slot_base (st.slots i)
  part_in_slot : ∀ p, s.part_offset p < st.pool.cfg.slot_bytes
  index : st'.index = Function.update st.index k (some i)
  table : st'.table = st.table
  occupancy : st'.stats.occupancy =
    (st.stats.resident, inc32 st.stats.filling, dec32 st.stats.free, st.stats.pinned)

/-- A fill ends well: the slot is published. -/
structure Publish (st st' : ExpertStore) (i : Nat) (s : ExpertSlot) : Prop
    extends SameGeometry st st' where
  lt : i < st.slots_size
  filling : (st.slots i).state = .Filling
  slots : st'.slots = Function.update st.slots i s
  key : s.key = (st.slots i).key
  state : s.state = .Resident
  tier : s.tier = (st.slots i).tier
  base : slot_base s = slot_base (st.slots i)
  part_offset : s.part_offset = (st.slots i).part_offset
  index : st'.index = st.index
  free_list : st'.free_list = st.free_list
  table : st'.table = st.write_row s.key fun p =>
    if slot_base s ≠ 0 then add64 (slot_base s) (s.part_offset p) else kNoDeviceAddress
  occupancy : st'.stats.occupancy =
    (inc32 st.stats.resident, dec32 st.stats.filling, st.stats.free,
      if s.tier = .Pinned then inc32 st.stats.pinned else st.stats.pinned)

/-- A slot goes back to Free: a failed fill, or an eviction, which the pin, the guard and
    the fixed cache forbid. -/
structure Drop (st st' : ExpertStore) (i : Nat) (s : ExpertSlot) : Prop
    extends SameGeometry st st' where
  lt : i < st.slots_size
  was : (st.slots i).state = .Filling ∨
    (st.slots i).state = .Resident ∧ (st.slots i).tier ≠ .Pinned ∧
      (st.slots i).guard_timeline ≤ st.completed_timeline ∧ st.fixed_cache = false
  slots : st'.slots = Function.update st.slots i s
  state : s.state = .Free
  base : slot_base s = slot_base (st.slots i)
  index : st'.index = Function.update st.index (st.slots i).key none
  free_list : st'.free_list = i :: st.free_list
  table : st'.table = if (st.slots i).state = .Resident
    then st.write_row (st.slots i).key fun _ => kNoDeviceAddress else st.table
  occupancy : st'.stats.occupancy =
    (if (st.slots i).state = .Resident then dec32 st.stats.resident else st.stats.resident,
      if (st.slots i).state = .Filling then dec32 st.stats.filling else st.stats.filling,
      inc32 st.stats.free, st.stats.pinned)

/-- A Resident slot becomes pinned. -/
structure Pin (st st' : ExpertStore) (i : Nat) (s : ExpertSlot) : Prop
    extends SameGeometry st st' where
  held : ∃ key, st.index key = some i
  resident : (st.slots i).state = .Resident
  unpinned : (st.slots i).tier ≠ .Pinned
  slots : st'.slots = Function.update st.slots i s
  key : s.key = (st.slots i).key
  state : s.state = .Resident
  tier : s.tier = .Pinned
  base : slot_base s = slot_base (st.slots i)
  part_offset : s.part_offset = (st.slots i).part_offset
  guard : s.guard_timeline = (st.slots i).guard_timeline
  index : st'.index = st.index
  free_list : st'.free_list = st.free_list
  table : st'.table = st.table
  occupancy : st'.stats.occupancy =
    (st.stats.resident, st.stats.filling, st.stats.free, inc32 st.stats.pinned)

/-- The effect of one operation on the four tables. -/
inductive Move (st st' : ExpertStore) : Prop where
  | stay (h : st' = st)
  | fill (i : Nat) (k : ExpertKey) (s : ExpertSlot) (h : Fill st st' i k s)
  | publish (i : Nat) (s : ExpertSlot) (h : Publish st st' i s)
  | drop (i : Nat) (s : ExpertSlot) (h : Drop st st' i s)
  | pin (i : Nat) (s : ExpertSlot) (h : Pin st st' i s)

/-- Bookkeeping and then at most one move. -/
def Effect (st st' : ExpertStore) : Prop := ∃ st₁, Keep st st₁ ∧ Move st₁ st'

theorem Effect.of_keep {st st' : ExpertStore} (h : Keep st st') : Effect st st' :=
  ⟨st', h, .stay rfl⟩

theorem Effect.of_move {st st' : ExpertStore} (h : Move st st') : Effect st st' :=
  ⟨st, .refl st, h⟩

/-! ### What each operation does -/

variable {st : ExpertStore}

theorem pool_init_slot_bytes {pool : SlabPool} (backing : Option SlabBacking) (cfg : SlabConfig)
    (hpool : pool.cfg.slot_bytes = layout.kExpertSlotBytes)
    (hcfg : cfg.slot_bytes = layout.kExpertSlotBytes) :
    (pool.init backing cfg).2.cfg.slot_bytes = layout.kExpertSlotBytes := by
  unfold SlabPool.init
  cases backing with
  | none => exact hpool
  | some backing =>
    dsimp only
    split
    · exact hpool
    split
    · exact hpool
    split
    · exact hcfg
    split
    · exact hcfg
    split
    · exact hcfg
    · exact hcfg

theorem init_empty (st : ExpertStore) (backing : Option SlabBacking) (cache : CacheConfig)
    (layers experts_per_layer : Nat)
    (h : (st.init backing cache layers experts_per_layer).1 = .ok ()) :
    Empty (st.init backing cache layers experts_per_layer).2 := by
  unfold ExpertStore.init at h ⊢
  split at h
  · cases h
  next hspace =>
  rw [if_neg hspace]
  dsimp only at h ⊢
  split at h
  · cases h
  next pool hpool =>
  have hready : pool.Ready := by
    have hok : (st.pool.init backing ⟨cache.slots_per_slab, layout.kExpertSlotBytes,
        cache.budget_bytes⟩).1 = .ok () := by rw [hpool]
    have hinit := SlabPool.init_ready st.pool backing rfl hok
    rwa [hpool] at hinit
  constructor
  case slot_bytes => exact hready.slot_bytes
  case slots_size_lt => exact hready.slot_count_lt
  case free =>
    intro i hi
    simp [fresh_slot, SlabPool.address_ok hi]
  case base =>
    intro i hi
    have hbase := hready.usable i hi
    simpa [fresh_slot, SlabPool.address_ok hi, slot_base, SlotAddress.Usable, SlotAddress.base]
      using hbase
  all_goals rfl

theorem init_cases (hbytes : st.pool.cfg.slot_bytes = layout.kExpertSlotBytes)
    (backing : Option SlabBacking) (cache : CacheConfig) (layers experts_per_layer : Nat) :
    Empty (st.init backing cache layers experts_per_layer).2 ∨
      Keep st (st.init backing cache layers experts_per_layer).2 := by
  cases hres : (st.init backing cache layers experts_per_layer).1 with
  | ok _ => exact .inl (init_empty st _ _ _ _ hres)
  | error e =>
    -- a failed `init` has touched the pool at most
    right
    unfold ExpertStore.init at hres ⊢
    split
    · exact .refl st
    next hspace =>
    rw [if_neg hspace] at hres
    dsimp only at hres ⊢
    split
    · next pool hpool =>
      have hkeep : pool.cfg.slot_bytes = st.pool.cfg.slot_bytes := by
        have hinit := pool_init_slot_bytes backing
          ⟨cache.slots_per_slab, layout.kExpertSlotBytes, cache.budget_bytes⟩ hbytes rfl
        rw [hpool] at hinit
        rw [hinit, hbytes]
      exact { Keep.refl st with slot_bytes := hkeep }
    · next pool hpool =>
      rw [hpool] at hres
      cases hres

theorem reset_empty (hbytes : st.pool.cfg.slot_bytes = layout.kExpertSlotBytes) :
    Empty st.reset where
  slot_bytes := hbytes
  slots_size_lt := by
    show 0 < 2 ^ 32
    decide
  free := fun _ hi => absurd hi (Nat.not_lt_zero _)
  base := fun _ hi => absurd hi (Nat.not_lt_zero _)
  index := rfl
  free_list := rfl
  table := rfl
  occupancy := rfl

theorem lookup_keep (st : ExpertStore) (key : ExpertKey) (token guard : Nat) :
    Keep st (st.lookup key token guard).2 := by
  unfold ExpertStore.lookup
  dsimp only
  split
  · exact { Keep.refl st with }
  · next i _ =>
    split
    · exact { Keep.refl st with }
    · exact Keep.of_set_slot ⟨rfl, rfl, rfl, rfl, rfl, le_max_left _ _⟩ rfl

/-- The store after `reserve_locked` took `slot` from the back of the free list. -/
def taken (st : ExpertStore) (key : ExpertKey) (tier : Tier) (slot : Nat) (rest : List Nat) :
    ExpertStore :=
  { st.set_slot slot (reserved_slot (st.slots slot) key tier) st.stats.fill_started with
    free_list := rest
    index := Function.update st.index key (some slot) }

theorem reserve_locked_cases (st : ExpertStore) (key : ExpertKey) (tier : Tier) :
    (∃ e, st.reserve_locked key tier = (.error e, st)) ∨
    ∃ slot rest addr, st.cache_frozen = false ∧ st.key_in_range key ∧ st.index key = none ∧
      st.free_list = slot :: rest ∧
      st.reserve_locked key tier =
        (.ok { slot := slot, addr := addr }, taken st key tier slot rest) := by
  unfold ExpertStore.reserve_locked
  split
  · exact .inl ⟨_, rfl⟩
  next hfrozen =>
  split
  · exact .inl ⟨_, rfl⟩
  next hrange =>
  split
  · exact .inl ⟨_, rfl⟩
  next habsent =>
  split
  · exact .inl ⟨_, rfl⟩
  · next slot rest hfree =>
    exact .inr ⟨slot, rest, _, by simpa using hfrozen, by simpa using hrange, habsent, hfree, rfl⟩

/-- A slot that is taken and then laid out, with its parts inside the slot. -/
theorem fill_move {key : ExpertKey} {slot : Nat} {rest : List Nat}
    (hfrozen : st.cache_frozen = false) (hrange : st.key_in_range key)
    (habsent : st.index key = none) (hfree : st.free_list = slot :: rest)
    {part_offset : ExpertPart → Nat} (hparts : ∀ p, part_offset p < st.pool.cfg.slot_bytes)
    (tier : Tier) (runs_total : Nat) (part_bytes : ExpertPart → Nat) (runs_started : Nat) :
    let st₁ := taken st key tier slot rest
    Move st (st₁.set_slot slot (laid_out (st₁.slots slot) runs_total part_offset part_bytes)
      { st₁.stats with runs_started := runs_started }) := by
  refine .fill slot key
    (laid_out (reserved_slot (st.slots slot) key tier) runs_total part_offset part_bytes) ?_
  exact {
    layers := rfl
    experts_per_layer := rfl
    slots_size := rfl
    slot_bytes := rfl
    completed := le_rfl
    in_range := hrange
    absent := habsent
    not_frozen := hfrozen
    free_list := hfree
    slots := by simp [taken, set_slot]
    key := rfl
    state := rfl
    base := rfl
    part_in_slot := hparts
    index := rfl
    table := rfl
    occupancy := rfl }

theorem begin_fill_effect (key : ExpertKey) (entry : ExpertEntry) (tier : Tier) :
    Effect st (st.begin_fill key entry tier).2 := by
  unfold ExpertStore.begin_fill
  dsimp only
  split
  · exact .of_keep (.refl st)
  split
  · exact .of_keep (.refl st)
  split
  · exact .of_keep (.refl st)
  next hbytes =>
  obtain ⟨e, he⟩ | ⟨slot, rest, addr, hfrozen, hrange, habsent, hfree, hres⟩ :=
    reserve_locked_cases st key tier
  · rw [he]
    exact .of_keep (.refl st)
  · rw [hres]
    have hparts : ∀ p, entry.part_offset p < st.pool.cfg.slot_bytes := fun p =>
      lt_of_lt_of_le (entry.part_in_slot p) (not_lt.mp hbytes)
    exact .of_move (fill_move hfrozen hrange habsent hfree hparts tier _ _ _)

theorem planar_offset_lt (p : ExpertPart) : planar_offset p < layout.kExpertSlotBytes := by
  cases p <;> decide

theorem begin_fill_synthetic_effect
    (hbytes : st.pool.cfg.slot_bytes = layout.kExpertSlotBytes) (key : ExpertKey) (tier : Tier) :
    Effect st (st.begin_fill_synthetic key tier).2 := by
  unfold ExpertStore.begin_fill_synthetic
  obtain ⟨e, he⟩ | ⟨slot, rest, addr, hfrozen, hrange, habsent, hfree, hres⟩ :=
    reserve_locked_cases st key tier
  · rw [he]
    exact .of_keep (.refl st)
  · rw [hres]
    have hparts : ∀ p, planar_offset p < st.pool.cfg.slot_bytes := fun p =>
      hbytes ▸ planar_offset_lt p
    exact .of_move (fill_move hfrozen hrange habsent hfree hparts tier _ _ _)

/-- Settling a Filling slot publishes it or gives it back. -/
theorem settle_locked_move (st : ExpertStore) {slot : Nat} (hlt : slot < st.slots_size)
    (hfilling : (st.slots slot).state = .Filling) (ok : Bool) (token : Nat) :
    Move st (st.settle_locked slot ok token) := by
  cases ok with
  | true =>
    refine .publish slot (settled_slot (st.slots slot) token) ?_
    constructor
    case toSameGeometry => exact ⟨rfl, rfl, rfl, rfl, le_rfl⟩
    case lt => exact hlt
    case filling => exact hfilling
    case table =>
      simp [settle_locked, publish_locked, set_slot, write_row, table_index]
    case occupancy =>
      simp [settle_locked, publish_locked, set_slot, ExpertStoreStats.fill_ok,
        ExpertStoreStats.occupancy]
    all_goals rfl
  | false =>
    refine .drop slot (released_slot (st.slots slot)) ?_
    constructor
    case toSameGeometry => exact ⟨rfl, rfl, rfl, rfl, le_rfl⟩
    case lt => exact hlt
    case was => exact .inl hfilling
    case table => simp [settle_locked, release_locked, set_slot, hfilling]
    case occupancy =>
      simp [settle_locked, release_locked, set_slot, hfilling, ExpertStoreStats.fill_failed,
        ExpertStoreStats.occupancy]
    all_goals rfl

/-- The report of a run is bookkeeping; the last one settles the slot. -/
theorem settle_effect {slot : Nat} {s : ExpertSlot} {stats : ExpertStoreStats}
    (hlt : slot < st.slots_size) (hs : SameSlot (st.slots slot) s) (hfilling : s.state = .Filling)
    (hstats : stats.occupancy = st.stats.occupancy) (ok : Bool) (token : Nat) :
    Effect st ((st.set_slot slot s stats).settle_locked slot ok token) := by
  have hslot : ((st.set_slot slot s stats).slots slot).state = .Filling := by
    simpa [set_slot] using hfilling
  refine ⟨st.set_slot slot s stats, Keep.of_set_slot hs hstats, ?_⟩
  exact settle_locked_move (st.set_slot slot s stats) hlt hslot ok token

theorem finish_run_effect (slot : Nat) (ok : Bool) (token : Nat) :
    Effect st (st.finish_run slot ok token).2 := by
  unfold ExpertStore.finish_run
  dsimp only
  split
  · exact .of_keep (.refl st)
  next hlt =>
  split
  · exact .of_keep (.refl st)
  next hfilling =>
  split
  · exact .of_keep (.refl st)
  split
  · exact .of_keep (Keep.of_set_slot ⟨rfl, rfl, rfl, rfl, rfl, le_rfl⟩ rfl)
  · refine settle_effect (not_le.mp hlt) ?_ ?_ ?_ _ _
    · exact ⟨rfl, rfl, rfl, rfl, rfl, le_rfl⟩
    · exact not_not.mp hfilling
    · rfl

theorem finish_fill_effect (slot : Nat) (ok : Bool) (token : Nat) :
    Effect st (st.finish_fill slot ok token).2 := by
  unfold ExpertStore.finish_fill
  dsimp only
  split
  · exact .of_keep (.refl st)
  next hlt =>
  split
  · exact .of_keep (.refl st)
  next hfilling =>
  refine settle_effect (not_le.mp hlt) ?_ ?_ ?_ _ _
  · exact ⟨rfl, rfl, rfl, rfl, rfl, le_rfl⟩
  · exact not_not.mp hfilling
  · rfl

/-- Recycling a slot that neither a pin, a guard nor the fixed cache protects. -/
theorem recycle_move {slot : Nat} (hlt : slot < st.slots_size)
    (hfixed : st.fixed_cache = false) (hevictable : st.is_evictable (st.slots slot)) :
    Move st (st.recycle slot) := by
  simp only [is_evictable, ne_eq, Bool.and_eq_true, decide_eq_true_eq] at hevictable
  obtain ⟨⟨hresident, hpin⟩, hguard⟩ := hevictable
  refine .drop slot (released_slot (st.slots slot)) ?_
  constructor
  case toSameGeometry => exact ⟨rfl, rfl, rfl, rfl, le_rfl⟩
  case lt => exact hlt
  case was => exact .inr ⟨hresident, by simpa using hpin, hguard, hfixed⟩
  case table =>
    simp [recycle, unpublish_locked, release_locked, set_slot, write_row, table_index, hresident]
  case occupancy =>
    simp [recycle, unpublish_locked, release_locked, set_slot, hresident,
      ExpertStoreStats.evicted, ExpertStoreStats.occupancy]
  all_goals rfl

theorem evict_effect (slot : Nat) : Effect st (st.evict slot).2 := by
  unfold ExpertStore.evict
  dsimp only
  split
  · exact .of_keep (.refl st)
  next hfixed =>
  split
  · exact .of_keep (.refl st)
  next hlt =>
  split
  · exact .of_keep (.refl st)
  next hresident =>
  split
  · exact .of_keep (.refl st)
  next hpin =>
  split
  · exact .of_keep { Keep.refl st with }
  next hguard =>
  refine .of_move (recycle_move (not_le.mp hlt) (by simpa using hfixed) ?_)
  have hstate : (st.slots slot).state = .Resident := not_not.mp hresident
  simp [is_evictable, hstate, hpin, not_lt.mp hguard]

theorem evict_key_effect (key : ExpertKey) : Effect st (st.evict_key key).2 := by
  unfold ExpertStore.evict_key
  split
  · exact .of_keep (.refl st)
  · exact evict_effect _

/-- The scan only ever returns an evictable slot. -/
theorem scan_evictable {restrict_to : Option Bool} {n best : Nat}
    (h : st.scan restrict_to n = some best) : best < n ∧ st.is_evictable (st.slots best) := by
  induction n generalizing best with
  | zero => cases h
  | succ n ih =>
    rw [scan] at h
    have hold : ∀ {b}, st.scan restrict_to n = some b →
        b < n + 1 ∧ st.is_evictable (st.slots b) := fun hb =>
      ⟨Nat.lt_succ_of_lt (ih hb).1, (ih hb).2⟩
    split at h
    · exact hold h
    next hev =>
    have hnew : n < n + 1 ∧ st.is_evictable (st.slots n) := ⟨n.lt_succ_self, not_not.mp hev⟩
    split at h
    · exact hold h
    · split at h
      · obtain rfl : n = best := by simpa using h
        exact hnew
      · next b hb =>
        split at h
        · obtain rfl : n = best := by simpa using h
          exact hnew
        · obtain rfl : b = best := by simpa using h
          exact hold hb

theorem lru_victim_evictable {best : Nat} (h : st.lru_victim = some best) :
    best < st.slots_size ∧ st.is_evictable (st.slots best) := by
  unfold lru_victim at h
  rw [Option.or_eq_some_iff] at h
  rcases h with hpref | ⟨_, hboth⟩
  · split at hpref
    · cases hpref
    · exact scan_evictable hpref
    · exact scan_evictable hpref
  · exact scan_evictable hboth

theorem evict_lru_effect : Effect st st.evict_lru.2 := by
  unfold ExpertStore.evict_lru
  split
  · exact .of_keep (.refl st)
  next hfixed =>
  split
  · exact .of_keep (.refl st)
  · next best hbest =>
    have hvictim := lru_victim_evictable hbest
    exact .of_move (recycle_move hvictim.1 (by simpa using hfixed) hvictim.2)

theorem set_completed_timeline_keep (v : Nat) : Keep st (st.set_completed_timeline v) := by
  unfold ExpertStore.set_completed_timeline
  split
  · next hv => exact { Keep.refl st with completed := le_of_lt hv }
  · exact .refl st

theorem guarded_snapshot_keep (st : ExpertStore) (guard : Nat) : Keep st (st.guarded_snapshot guard).2 := by
  unfold ExpertStore.guarded_snapshot
  split
  · exact .refl st
  · refine { Keep.refl st with slots := fun i => ?_ }
    dsimp only
    split
    · exact ⟨rfl, rfl, rfl, rfl, rfl, le_max_left _ _⟩
    · exact .refl _

theorem set_guard_keep (st : ExpertStore) (slot v : Nat) : Keep st (st.set_guard slot v).2 := by
  unfold ExpertStore.set_guard
  split
  · exact .refl st
  dsimp only
  split
  · next hv => exact Keep.of_set_slot ⟨rfl, rfl, rfl, rfl, rfl, le_of_lt hv⟩ rfl
  · exact .refl st

theorem note_heat_keep (key : ExpertKey) (score alpha : ℚ) :
    Keep st (st.note_heat key score alpha) := by
  unfold ExpertStore.note_heat
  split
  · exact .refl st
  split
  · exact .refl st
  · exact Keep.of_set_slot ⟨rfl, rfl, rfl, rfl, rfl, le_rfl⟩ rfl

theorem decay_heat_keep (factor : ℚ) : Keep st (st.decay_heat factor) := by
  unfold ExpertStore.decay_heat
  split
  · exact .refl st
  split
  · exact .refl st
  · exact { Keep.refl st with slots := fun _ => ⟨rfl, rfl, rfl, rfl, rfl, le_rfl⟩ }

theorem touch_keep (key : ExpertKey) (stamp : Nat) (include_filling : Bool) :
    Keep st (st.touch key stamp include_filling).2 := by
  unfold ExpertStore.touch
  split
  · exact .refl st
  dsimp only
  split
  · exact .refl st
  split
  · exact Keep.of_set_slot ⟨rfl, rfl, rfl, rfl, rfl, le_rfl⟩ rfl
  · exact .refl st

theorem pin_effect (key : ExpertKey) : Effect st (st.pin key).2 := by
  unfold ExpertStore.pin
  split
  · exact .of_keep (.refl st)
  next i hi =>
  dsimp only
  split
  · exact .of_keep (.refl st)
  next hresident =>
  split
  · next hunpinned =>
    refine .of_move (.pin i { st.slots i with tier := .Pinned } ?_)
    constructor
    case toSameGeometry => exact ⟨rfl, rfl, rfl, rfl, le_rfl⟩
    case held => exact ⟨key, hi⟩
    case resident => exact not_not.mp hresident
    case state => exact not_not.mp hresident
    case unpinned => exact hunpinned
    all_goals rfl
  · exact .of_keep (.refl st)

/-- What an operation that keeps the contents can do to the four tables. The two
    hypotheses are the part of the invariant that `begin_fill` and `reset_stats` rely on. -/
theorem apply_effect (hbytes : st.pool.cfg.slot_bytes = layout.kExpertSlotBytes)
    (hfree : st.stats.free = st.free_list.length % 2 ^ 32) {op : Op} (hop : op.keeps_contents) :
    Effect st (st.apply op) := by
  cases op with
  | init => cases hop
  | reset => cases hop
  | set_path_b_first_slab slab => exact .of_keep { Keep.refl st with }
  | set_evict_path path => exact .of_keep { Keep.refl st with }
  | set_fixed_cache enabled => exact .of_keep { Keep.refl st with }
  | lookup key token guard => exact .of_keep (lookup_keep st key token guard)
  | begin_fill key entry tier => exact begin_fill_effect key entry tier
  | begin_fill_synthetic key tier => exact begin_fill_synthetic_effect hbytes key tier
  | finish_run slot ok token => exact finish_run_effect slot ok token
  | finish_fill slot ok token => exact finish_fill_effect slot ok token
  | evict slot => exact evict_effect slot
  | evict_key key => exact evict_key_effect key
  | evict_lru => exact evict_lru_effect
  | set_completed_timeline v => exact .of_keep (set_completed_timeline_keep v)
  | guarded_snapshot guard => exact .of_keep (guarded_snapshot_keep st guard)
  | set_guard slot v => exact .of_keep (set_guard_keep st slot v)
  | note_heat key score alpha => exact .of_keep (note_heat_keep key score alpha)
  | decay_heat factor => exact .of_keep (decay_heat_keep factor)
  | pin key => exact pin_effect key
  | touch key stamp include_filling => exact .of_keep (touch_keep key stamp include_filling)
  | reset_stats =>
    refine .of_keep { Keep.refl st with occupancy := ?_ }
    simp only [apply, reset_stats, ExpertStoreStats.occupancy, ← hfree]

end CachedMoe.Store
