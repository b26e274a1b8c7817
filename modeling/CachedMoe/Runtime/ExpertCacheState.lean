import CachedMoe.Runtime.KvFile
import CachedMoe.Store.EvictionOrder
import CachedMoe.Store.Restore
import CachedMoe.Store.Stream

/-! # The expert cache across restarts

    `runtime/expert_cache_state.cpp`. A saved cache is a list of keys, the most recently used
    first; restoring it fills an empty store from the front of the list, with stamps that fall
    with the rank. Three orders have to fit together: that of the list, that of the stamps and
    that of `evict_lru`, equal stamps and all. -/

namespace CachedMoe.Runtime

open CachedMoe Store ExpertStore Wire

/-! ### The file -/

def kCacheMagic : Nat := 0x31444952454d4343
def kCacheVersion : Nat := 1
def kNumLayers : Nat := 40
def kRoutedExperts : Nat := 384
def kMaxKeys : Nat := kNumLayers * kRoutedExperts

def hash_bytes (s : Bytes) : Nat :=
  s.foldl (fun h b => (h ^^^ b.toNat) * 1099511628211 % 2 ^ 64) 1469598103934665603

/-- `(layer << 16) | expert`. -/
def packed (k : ExpertKey) : Nat := k.layer.toNat * 2 ^ 16 + k.expert.toNat

def unpack (v : Nat) : ExpertKey := ⟨UInt16.ofNat (v / 2 ^ 16), UInt16.ofNat (v % 2 ^ 16)⟩

def key_bytes (keys : List ExpertKey) : Bytes := uint32.array (keys.map packed)

def checksum (keys : List ExpertKey) : Nat := hash_bytes (key_bytes keys)

/-- The loop of `valid_keys`, with the indexes seen so far. -/
@[grind =] def valid_from (seen : List Nat) : List ExpertKey → Bool
  | [] => true
  | key :: rest =>
    if key.layer.toNat ≥ kNumLayers ∨ key.expert.toNat ≥ kRoutedExperts then false
    else
      let index := key.layer.toNat * kRoutedExperts + key.expert.toNat
      if seen.any (· == index) then false else valid_from (index :: seen) rest

def valid_keys (keys : List ExpertKey) (capacity : Nat) : Bool :=
  if keys = [] ∨ keys.length > capacity ∨ keys.length > kMaxKeys then false else valid_from [] keys

/-- What `write_expert_cache_state` puts into the file. -/
def cache_bytes (identity capacity : Nat) (keys : List ExpertKey) : Bytes :=
  wr_u64 kCacheMagic ++ (wr_u64 kCacheVersion ++ (wr_u64 identity ++ (wr_u64 capacity ++
    (wr_u64 keys.length ++ (wr_u64 (checksum keys) ++ key_bytes keys)))))

def write_expert_cache_state (identity capacity : Nat) (keys : List ExpertKey) : Result Bytes :=
  if valid_keys keys capacity then .ok (cache_bytes identity capacity keys)
  else fail .InvalidArgument "expert cache keys/capacity"

structure CacheHeader where
  magic : Nat
  version : Nat
  identity : Nat
  capacity : Nat
  count : Nat
  sum : Nat

def rd_cache_header : Reader Unit CacheHeader := do
  let magic ← rd_u64
  let version ← rd_u64
  let identity ← rd_u64
  let capacity ← rd_u64
  let count ← rd_u64
  let sum ← rd_u64
  pure { magic, version, identity, capacity, count, sum }

def read_expert_cache_state (file : Option Bytes) (identity capacity : Nat) :
    Result (List ExpertKey) :=
  match file with
  | none => fail .NotFound "expert cache state unavailable"
  | some bytes =>
    match rd_cache_header bytes with
    | .error _ => fail .Corrupt "expert cache header/identity/capacity"
    | .ok (header, rest) =>
      if header.magic ≠ kCacheMagic ∨ header.version ≠ kCacheVersion ∨
          header.identity ≠ identity ∨ header.capacity ≠ capacity ∨ header.count = 0 ∨
          header.count > capacity ∨ header.count > kMaxKeys then
        fail .Corrupt "expert cache header/identity/capacity"
      else
        match read (header.count * 4) rest with
        | .error _ => fail .Corrupt "expert cache checksum/length"
        | .ok (raw, rest) =>
          if rest ≠ [] ∨ hash_bytes raw ≠ header.sum then
            fail .Corrupt "expert cache checksum/length"
          else
            let keys := (uint32.values header.count raw).map unpack
            if valid_keys keys capacity then .ok keys
            else fail .Corrupt "expert cache duplicate/range"

theorem unpack_packed (k : ExpertKey) : unpack (packed k) = k := by
  have hlayer : packed k / 2 ^ 16 = k.layer.toNat := by
    have := k.expert.toNat_lt
    unfold packed
    omega
  have hexpert : packed k % 2 ^ 16 = k.expert.toNat := by
    have := k.expert.toNat_lt
    unfold packed
    omega
  rw [unpack, hlayer, hexpert, UInt16.ofNat_toNat, UInt16.ofNat_toNat]

theorem packed_lt (k : ExpertKey) : packed k < 2 ^ 32 := by
  have := k.layer.toNat_lt
  have := k.expert.toNat_lt
  unfold packed
  omega

theorem unpack_keys (keys : List ExpertKey) :
    (uint32.values keys.length (key_bytes keys)).map unpack = keys := by
  have hvalid : ∀ v ∈ keys.map packed, uint32.valid v := by
    intro v hv
    obtain ⟨k, _, rfl⟩ := List.mem_map.mp hv
    exact packed_lt k
  have hvalues := uint32.values_array hvalid
  rw [List.length_map] at hvalues
  rw [key_bytes, hvalues, List.map_map]
  refine (List.map_congr_left ?_).trans (List.map_id keys)
  intro k _
  exact unpack_packed k

/-- A header field is read back as the 64 bits of it. -/
theorem reads_field (v : Nat) : Reads rd_u64 (v % 2 ^ 64) (wr_u64 v) := by
  have h := (Reads.read (le 8 v) (length_le 8 v)).map of_le
  rwa [of_le_le, show (256 : Nat) ^ 8 = 2 ^ 64 from rfl] at h

theorem reads_cache_header (magic version identity capacity count sum : Nat) :
    Reads rd_cache_header
      { magic := magic % 2 ^ 64, version := version % 2 ^ 64, identity := identity % 2 ^ 64
        capacity := capacity % 2 ^ 64, count := count % 2 ^ 64, sum := sum % 2 ^ 64 }
      (wr_u64 magic ++ (wr_u64 version ++ (wr_u64 identity ++ (wr_u64 capacity ++
        (wr_u64 count ++ (wr_u64 sum ++ [])))))) := by
  refine (reads_field magic).bind ?_
  refine (reads_field version).bind ?_
  refine (reads_field identity).bind ?_
  refine (reads_field capacity).bind ?_
  refine (reads_field count).bind ?_
  refine (reads_field sum).bind ?_
  exact .pure _

/-- What is loaded once the header has been read, of a file with the keys right behind it. -/
theorem read_after_header {bytes : Bytes} {header : CacheHeader} {keys order : List ExpertKey}
    {identity capacity : Nat} (hheader : rd_cache_header bytes = .ok (header, key_bytes keys))
    (hcount : header.count = keys.length)
    (hload : read_expert_cache_state (some bytes) identity capacity = .ok order) :
    order = keys := by
  have hlength : (key_bytes keys).length = header.count * 4 := by
    rw [key_bytes, Word.length_array, List.length_map, hcount]
    rfl
  have hraw := Reads.read (key_bytes keys) hlength []
  rw [List.append_nil] at hraw
  simp only [read_expert_cache_state, hheader] at hload
  split at hload
  · cases hload
  simp only [hraw] at hload
  rw [hcount, unpack_keys] at hload
  split at hload
  · cases hload
  split at hload
  · exact (Except.ok.inj hload).symm
  · cases hload

/-- What is loaded from a written file is what was written, whatever the identity and the
    capacity asked for. -/
theorem read_written {identity capacity identity' capacity' : Nat} {keys order : List ExpertKey}
    (hmax : keys.length ≤ kMaxKeys)
    (hload : read_expert_cache_state (some (cache_bytes identity capacity keys)) identity' capacity' =
      .ok order) : order = keys := by
  have hheader := reads_cache_header kCacheMagic kCacheVersion identity capacity keys.length
    (checksum keys) (key_bytes keys)
  simp only [List.append_assoc, List.nil_append] at hheader
  refine read_after_header hheader ?_ hload
  exact Nat.mod_eq_of_lt (lt_of_le_of_lt hmax (by decide))

/-! ### Saving -/

/-- The comparison of `save_expert_cache`, as an order: the later stamp first, the higher slot
    first among equals. -/
def newer_first (a b : ExpertSlot) : Bool :=
  if a.last_use_token ≠ b.last_use_token then a.last_use_token > b.last_use_token
  else a.slot ≥ b.slot

/-- The slots `save_expert_cache` collects. -/
def saved_slots (st : ExpertStore) : List ExpertSlot :=
  ((List.range st.slots_size).map st.slots).filter fun s => s.state = .Resident && s.tier ≠ .Pinned

def saved_keys (st : ExpertStore) : List ExpertKey :=
  ((saved_slots st).mergeSort newer_first).map ExpertSlot.key

/-- The new contents of the file, when there is something to save; `session` is what the engine
    asks of itself: initialised, plain decoding, a single stream. -/
def save_expert_cache (st : ExpertStore) (session : Bool) (identity : Nat) :
    Result (Option Bytes) :=
  if ¬ session ∨ st.fixed_cache then
    fail .FailedPrecondition "expert cache save requires initialized off-plain session"
  else if saved_slots st = [] then .ok none
  else
    match write_expert_cache_state identity st.slots_size (saved_keys st) with
    | .error e => .error e
    | .ok bytes => .ok (some bytes)

theorem save_expert_cache_some {st : ExpertStore} {session : Bool} {identity : Nat} {file : Bytes}
    (h : save_expert_cache st session identity = .ok (some file)) :
    st.fixed_cache = false ∧ valid_keys (saved_keys st) st.slots_size = true ∧
      file = cache_bytes identity st.slots_size (saved_keys st) := by
  unfold save_expert_cache at h
  split at h
  · cases h
  next hready =>
  split at h
  · cases h
  split at h
  · cases h
  next bytes hwrite =>
    cases h
    unfold write_expert_cache_state at hwrite
    split at hwrite
    next hvalid =>
      cases hwrite
      refine ⟨?_, hvalid, rfl⟩
      simpa using (not_or.mp hready).2
    · cases hwrite

theorem valid_keys_length {keys : List ExpertKey} {capacity : Nat}
    (h : valid_keys keys capacity = true) : keys.length ≤ kMaxKeys := by
  unfold valid_keys at h
  split at h
  · cases h
  next hsize =>
    have hall := not_or.mp hsize
    have hmax := (not_or.mp hall.2).2
    omega

/-! ### The order of the list -/

theorem newer_first_iff (a b : ExpertSlot) : newer_first a b = true ↔
    b.last_use_token < a.last_use_token ∨ a.last_use_token = b.last_use_token ∧ b.slot ≤ a.slot := by
  unfold newer_first
  split <;> simp <;> omega

theorem sorted_slots (st : ExpertStore) :
    ((saved_slots st).mergeSort newer_first).Pairwise fun a b => newer_first a b = true := by
  apply List.pairwise_mergeSort
  · intro a b c hab hbc
    rw [newer_first_iff] at hab hbc ⊢
    omega
  · intro a b
    rw [Bool.or_eq_true, newer_first_iff, newer_first_iff]
    omega

variable {st : ExpertStore}

theorem mem_saved_slots {s : ExpertSlot} : s ∈ saved_slots st ↔
    ∃ i < st.slots_size, st.slots i = s ∧ s.state = .Resident ∧ s.tier ≠ .Pinned := by
  simp only [saved_slots, List.mem_filter, List.mem_map, List.mem_range, Bool.and_eq_true,
    decide_eq_true_eq]
  constructor
  · rintro ⟨⟨i, hi, hs⟩, hres⟩
    exact ⟨i, hi, hs, hres⟩
  · rintro ⟨i, hi, hs, hres⟩
    exact ⟨⟨i, hi, hs⟩, hres⟩

theorem mem_saved_keys {key : ExpertKey} : key ∈ saved_keys st ↔
    ∃ i < st.slots_size, (st.slots i).key = key ∧ (st.slots i).state = .Resident ∧
      (st.slots i).tier ≠ .Pinned := by
  simp only [saved_keys, List.mem_map, List.mem_mergeSort, mem_saved_slots]
  constructor
  · rintro ⟨s, ⟨i, hi, rfl, hres⟩, hkey⟩
    exact ⟨i, hi, hkey, hres⟩
  · rintro ⟨i, hi, hkey, hres⟩
    exact ⟨st.slots i, ⟨i, hi, rfl, hres⟩, hkey⟩

theorem resident_index (hinv : Inv st) {i : Nat} (hi : i < st.slots_size)
    (hres : (st.slots i).state = .Resident) : st.index (st.slots i).key = some i := by
  refine (hinv.index _ _).mpr ⟨hi, ?_, rfl⟩
  rw [hres]
  decide

theorem saved_slots_distinct (hinv : Inv st) :
    (saved_slots st).Pairwise fun a b => a.key ≠ b.key := by
  unfold saved_slots
  rw [List.pairwise_filter, List.pairwise_map]
  refine List.Pairwise.imp_of_mem ?_ List.nodup_range
  intro i j hi hj hne hsi hsj hkey
  -- a key is indexed at one slot only
  simp only [Bool.and_eq_true, decide_eq_true_eq] at hsi hsj
  have hsame := resident_index hinv (List.mem_range.mp hi) hsi.1
  rw [hkey, resident_index hinv (List.mem_range.mp hj) hsj.1] at hsame
  exact hne (Option.some.inj hsame).symm

/-- The list is the order of eviction from its end. -/
theorem saved_keys_order (hinv : Inv st) (hnum : Numbered st) :
    (saved_keys st).reverse.Pairwise (EvictedBefore st) := by
  have hdistinct : ((saved_slots st).mergeSort newer_first).Pairwise fun a b => a.key ≠ b.key :=
    ((List.mergeSort_perm _ _).pairwise_iff fun hab => hab.symm).mpr (saved_slots_distinct hinv)
  rw [List.pairwise_reverse, saved_keys, List.pairwise_map]
  refine ((sorted_slots st).and hdistinct).imp_of_mem ?_
  intro a b ha hb ⟨hnewer, hne⟩
  obtain ⟨i, hi, rfl, hai, _⟩ := mem_saved_slots.mp (List.mem_mergeSort.mp ha)
  obtain ⟨j, hj, rfl, hbj, _⟩ := mem_saved_slots.mp (List.mem_mergeSort.mp hb)
  refine ⟨hne.symm, ?_⟩
  intro n m hn hm
  obtain rfl : j = n := Option.some.inj ((resident_index hinv hj hbj).symm.trans hn)
  obtain rfl : i = m := Option.some.inj ((resident_index hinv hi hai).symm.trans hm)
  rw [newer_first_iff, hnum i hi, hnum j hj] at hnewer
  unfold Older
  omega

/-- The expert is held in a slot that neither a pin nor a guard protects. -/
def unprotected (st : ExpertStore) (key : ExpertKey) : Bool :=
  (st.index key).any fun i => st.is_evictable (st.slots i)

theorem unprotected_iff {key : ExpertKey} :
    unprotected st key = true ↔ ∃ i, EvictableAt st key i := by
  simp [unprotected, EvictableAt, Option.any_eq_true]

theorem saved_sequence (hinv : Inv st) (hnum : Numbered st) (hfixed : st.fixed_cache = false)
    (hone : OnePath st) :
    evict_sequence st = (saved_keys st).reverse.filter (unprotected st) := by
  refine evict_sequence_eq hinv hfixed hone ?_ ((saved_keys_order hinv hnum).filter _)
  intro key
  rw [List.mem_filter, List.mem_reverse, unprotected_iff, mem_saved_keys]
  refine ⟨And.right, fun hev => ⟨?_, hev⟩⟩
  obtain ⟨i, hi, hevi⟩ := hev
  obtain ⟨hlt, _, hkey⟩ := (hinv.index key i).mp hi
  simp only [is_evictable, Bool.and_eq_true, decide_eq_true_eq] at hevi
  exact ⟨i, hlt, hkey, hevi.1⟩

/-! ### The restored store -/

/-- Stamps fall with the rank, and a key has one rank. -/
theorem restored_token {order : List ExpertKey} {s : Restore}
    (h : LTS.Reachable (restore_system order) s) (hnodup : order.Nodup) {n i : Nat}
    (hn : n < order.length) (hi : s.planner.store.index order[n] = some i)
    (hres : (s.planner.store.slots i).state = .Resident) :
    (s.planner.store.slots i).last_use_token = kDemandStampBase - 1 - n := by
  obtain ⟨rank, hrank, htoken⟩ := (restored_stamp h hi hres).1
  obtain ⟨hlt, hsame⟩ := List.getElem?_eq_some_iff.mp hrank
  rw [htoken, hnodup.getElem_inj_iff.mp hsame]

/-- What a store evicts that was filled from a list of distinct experts, all of them. -/
theorem restored_sequence {order : List ExpertKey} {s : Restore}
    (h : LTS.Reachable (restore_system order) s) (hnodup : order.Nodup)
    (hlength : order.length < kDemandStampBase)
    (hall : ∀ key ∈ order, s.planner.store.resident key = true) (hone : OnePath s.planner.store) :
    evict_sequence s.planner.store = order.reverse := by
  have hinv := (reachable_restore_inv h).store
  -- a listed expert is Resident somewhere
  have hheld : ∀ key ∈ order, ∃ i, s.planner.store.index key = some i ∧
      (s.planner.store.slots i).state = .Resident := by
    intro key hkey
    have hres := hall key hkey
    unfold resident at hres
    split at hres
    · cases hres
    next i hi => exact ⟨i, hi, of_decide_eq_true hres⟩
  refine evict_sequence_eq hinv (reachable_restore_inv h).fixed hone ?_ ?_
  · intro key
    rw [List.mem_reverse]
    constructor
    · intro hkey
      obtain ⟨i, hi, hres⟩ := hheld key hkey
      exact ⟨i, hi, (restored_stamp h hi hres).2⟩
    · intro ⟨i, hi, hev⟩
      simp only [is_evictable, Bool.and_eq_true, decide_eq_true_eq] at hev
      obtain ⟨rank, hrank, _⟩ := (restored_stamp h hi hev.1.1).1
      exact List.mem_of_getElem? hrank
  · rw [List.pairwise_reverse, List.pairwise_iff_getElem]
    intro a b ha hb hab
    refine ⟨?_, ?_⟩
    · intro heq
      exact absurd ((hnodup.getElem_inj_iff).mp heq) (Nat.ne_of_gt hab)
    · intro i j hi hj
      obtain ⟨i', hi', hresi⟩ := hheld _ (List.getElem_mem hb)
      obtain ⟨j', hj', hresj⟩ := hheld _ (List.getElem_mem ha)
      obtain rfl : i = i' := Option.some.inj (hi.symm.trans hi')
      obtain rfl : j = j' := Option.some.inj (hj.symm.trans hj')
      left
      rw [restored_token h hnodup hb hi hresi, restored_token h hnodup ha hj hresj]
      omega

/-- A saved cache that is loaded and fully restored, its fills landing in any order, evicts
    what the saved one would have evicted, in the same order, as long as neither store prefers
    one of two memory paths. -/
theorem restore_keeps_eviction_order {saved : ExpertStore} {session : Bool}
    {identity identity' capacity' : Nat} {file : Bytes} {order : List ExpertKey} {s : Restore}
    (hsaved : LTS.Reachable store_system saved)
    (hsave : save_expert_cache saved session identity = .ok (some file))
    (hload : read_expert_cache_state (some file) identity' capacity' = .ok order)
    (hrun : LTS.Reachable (restore_system order) s)
    (hall : ∀ key ∈ order, s.planner.store.resident key = true)
    (hone : OnePath saved) (hone' : OnePath s.planner.store) :
    (evict_sequence s.planner.store).filter (unprotected saved) = evict_sequence saved := by
  obtain ⟨hfixed, hvalid, rfl⟩ := save_expert_cache_some hsave
  have hmax := valid_keys_length hvalid
  obtain rfl := read_written hmax hload
  have hinv := reachable_inv hsaved
  have hnodup : (saved_keys saved).Nodup := by
    have horder := saved_keys_order hinv (reachable_numbered hsaved)
    exact List.nodup_reverse.mp (horder.imp fun hbefore => hbefore.1)
  have hlength : (saved_keys saved).length < kDemandStampBase := lt_of_le_of_lt hmax (by decide)
  rw [restored_sequence hrun hnodup hlength hall hone',
    saved_sequence hinv (reachable_numbered hsaved) hfixed hone]

/-! #### Two slots -/

theorem mergeSort_pair {α : Type} (a b : α) (le : α → α → Bool) :
    [a, b].mergeSort le = if le a b then [a, b] else [b, a] := by
  simp [List.mergeSort, List.merge, List.MergeSort.Internal.splitInTwo]

/-- The later of the two in the second slot. -/
def pair_order : List ExpertKey := [⟨0, 2⟩, ⟨0, 1⟩]

theorem full_pair_saved :
    save_expert_cache full_pair true 7 = .ok (some (cache_bytes 7 2 pair_order)) := by
  have hslots : saved_slots full_pair = [full_pair.slots 0, full_pair.slots 1] := rfl
  have hkeys : saved_keys full_pair = pair_order := by
    rw [saved_keys, hslots, mergeSort_pair]
    decide
  rw [save_expert_cache, hkeys, hslots]
  rfl

/-- Both fills are issued, and the runs of the second one land first. -/
def pair_restore : List Restore.Action :=
  [.pump 0, .pump 0, .pump 0, .submit 0 none, .submit 0 none,
    .pump 0, .pump 0, .pump 0, .submit 0 none, .submit 0 none,
    .land 0 true, .land 0 true, .land 1 true, .land 0 true]

def empty_pair : Restore :=
  { planner := Backfills.start_backfill pair_planner pair_order 8 false }

theorem empty_pair_init : (restore_system pair_order).init empty_pair :=
  ⟨pair_store, _, 8, .of_init ⟨{}, _, _, _, _, pair_store_init⟩, rfl, rfl, rfl, rfl⟩

theorem restore_keeps_eviction_order_pair :
    ∃ s, LTS.Reachable (restore_system pair_order) s ∧
      (evict_sequence s.planner.store).filter (unprotected full_pair) = evict_sequence full_pair := by
  obtain ⟨s, hrun, hs⟩ := LTS.Reachable.of_execute Restore.step pair_restore
    (fun s => s.planner.store.evict_path = .Off ∧
      ∀ key ∈ pair_order, s.planner.store.resident key = true) empty_pair_init (by decide +kernel)
  simp only [Bool.decide_and, Bool.and_eq_true, decide_eq_true_eq] at hs
  have hload : read_expert_cache_state (some (cache_bytes 7 2 pair_order)) 7 2 = .ok pair_order := rfl
  refine ⟨s, hrun, ?_⟩
  exact restore_keeps_eviction_order full_pair_reachable full_pair_saved hload hrun hs.2
    (.inl rfl) (.inl hs.1)

/-! #### Two paths -/

/-- Two slabs of one slot, the second on path B, and path A preferred. -/
def split_pair : ExpertStore :=
  [Op.set_path_b_first_slab 1, Op.set_evict_path .PreferA].foldl ExpertStore.apply
    (ExpertStore.init {} (some host_backing)
      { slots_per_slab := 1, budget_bytes := 2 * layout.kExpertSlotBytes } 1 8).2

theorem split_pair_reachable : LTS.Reachable store_system split_pair := by
  refine ⟨_, [Op.set_path_b_first_slab 1, Op.set_evict_path .PreferA], ⟨{}, some host_backing,
    { slots_per_slab := 1, budget_bytes := 2 * layout.kExpertSlotBytes }, 1, 8, rfl⟩, ?_⟩
  rw [store_system, LTS.run_ofNext_iff]
  rfl

def split_saved : ExpertStore := full_pair_ops.foldl ExpertStore.apply split_pair

theorem split_saved_reachable : LTS.Reachable store_system split_saved := by
  obtain ⟨st, ops, hinit, hrun⟩ := split_pair_reachable
  refine ⟨st, ops ++ full_pair_ops, hinit, hrun.append ?_⟩
  rw [store_system, LTS.run_ofNext_iff]
  rfl

theorem split_pair_saved :
    save_expert_cache split_saved true 7 = .ok (some (cache_bytes 7 2 pair_order)) := by
  have hslots : saved_slots split_saved = [split_saved.slots 0, split_saved.slots 1] := rfl
  have hkeys : saved_keys split_saved = pair_order := by
    rw [saved_keys, hslots, mergeSort_pair]
    decide
  rw [save_expert_cache, hkeys, hslots]
  rfl

def empty_split : Restore :=
  { planner := Backfills.start_backfill
      { store := split_pair, manifest := fun _ => .ok two_runs } pair_order 8 false }

theorem empty_split_init : (restore_system pair_order).init empty_split :=
  ⟨split_pair, _, 8, split_pair_reachable, rfl, rfl, rfl, rfl⟩

/-- The saved store gives up its slot of path A first, and so does the restored one, where
    the other expert has moved into it. -/
theorem split_restore_reorders :
    ¬ ∀ (saved : ExpertStore) (identity capacity : Nat) (file : Bytes) (order : List ExpertKey)
      (s : Restore),
      LTS.Reachable store_system saved → (∀ i < saved.slots_size, (saved.slots i).state ≠ .Filling) →
      save_expert_cache saved true identity = .ok (some file) →
      read_expert_cache_state (some file) identity capacity = .ok order →
      LTS.Reachable (restore_system order) s → saved.slots_size ≤ s.planner.store.slots_size →
      (∀ key ∈ order, s.planner.store.resident key = true) →
      (evict_sequence s.planner.store).filter (unprotected saved) = evict_sequence saved := by
  intro hclaim
  obtain ⟨s, hrun, hs⟩ := LTS.Reachable.of_execute Restore.step pair_restore
    (fun s => s.planner.store.slots_size = 2 ∧
      (∀ key ∈ pair_order, s.planner.store.resident key = true) ∧
      (evict_sequence s.planner.store).filter (unprotected split_saved) ≠
        evict_sequence split_saved) empty_split_init (by decide +kernel)
  simp only [Bool.decide_and, Bool.and_eq_true, decide_eq_true_eq] at hs
  refine hs.2.2 (hclaim split_saved 7 2 _ pair_order s split_saved_reachable ?_ split_pair_saved rfl
    hrun ?_ hs.2.1)
  · decide
  · exact hs.1.symm.le.trans' (by decide)


end CachedMoe.Runtime
