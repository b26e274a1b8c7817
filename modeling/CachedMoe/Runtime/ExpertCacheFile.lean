import CachedMoe.Runtime.ExpertCacheState

/-! # The files of the expert cache

    The files `read_expert_cache_state` accepts are those `write_expert_cache_state` writes, for
    the same identity and capacity: the header says how many keys follow, nothing follows
    them, and the keys are distinct and in range. -/

namespace CachedMoe.Runtime

open CachedMoe Wire

/-! ### Keys -/

/-- The layer and the expert of every key exist. -/
def InRange (keys : List ExpertKey) : Prop :=
  ∀ key ∈ keys, key.layer.toNat < kNumLayers ∧ key.expert.toNat < kRoutedExperts

/-- The place of a key in `seen`. -/
def key_index (key : ExpertKey) : Nat := key.layer.toNat * kRoutedExperts + key.expert.toNat

theorem key_index_inj {a b : ExpertKey} (ha : a.expert.toNat < kRoutedExperts)
    (hb : b.expert.toNat < kRoutedExperts) (h : key_index a = key_index b) : a = b := by
  unfold key_index kRoutedExperts at h
  unfold kRoutedExperts at ha hb
  have hlayer : a.layer = b.layer := UInt16.toNat_inj.mp (by omega)
  have hexpert : a.expert = b.expert := UInt16.toNat_inj.mp (by omega)
  cases a
  cases b
  exact ExpertKey.mk.injEq .. ▸ ⟨hlayer, hexpert⟩

theorem valid_from_iff (keys : List ExpertKey) (seen : List Nat) :
    valid_from seen keys = true ↔
      InRange keys ∧ keys.Nodup ∧ ∀ key ∈ keys, key_index key ∉ seen := by
  induction keys generalizing seen with
  | nil => simp [valid_from, InRange]
  | cons key rest ih =>
    -- the bitmap of the source is the list of the indices seen
    unfold valid_from
    by_cases hout : key.layer.toNat ≥ kNumLayers ∨ key.expert.toNat ≥ kRoutedExperts
    · rw [if_pos hout]
      refine ⟨nofun, fun h => ?_⟩
      have hkey := h.1 key List.mem_cons_self
      omega
    rw [if_neg hout]
    have hkey : key.layer.toNat < kNumLayers ∧ key.expert.toNat < kRoutedExperts := by omega
    dsimp only
    rw [show key.layer.toNat * kRoutedExperts + key.expert.toNat = key_index key from rfl]
    by_cases hseen : seen.any (· == key_index key) = true
    · rw [if_pos hseen]
      refine ⟨nofun, fun h => ?_⟩
      obtain ⟨i, hi, heq⟩ := List.any_eq_true.mp hseen
      rw [eq_of_beq heq] at hi
      exact absurd hi (h.2.2 key List.mem_cons_self)
    rw [if_neg hseen, ih]
    have hfresh : key_index key ∉ seen := fun hi =>
      hseen (List.any_eq_true.mpr ⟨_, hi, beq_self_eq_true _⟩)
    constructor
    · rintro ⟨hrange, hnodup, hrest⟩
      refine ⟨?_, List.nodup_cons.mpr ⟨fun hmem => ?_, hnodup⟩, ?_⟩
      · intro k hk
        rcases List.mem_cons.mp hk with rfl | hk
        · exact hkey
        · exact hrange k hk
      · exact hrest key hmem List.mem_cons_self
      · intro k hk
        rcases List.mem_cons.mp hk with rfl | hk
        · exact hfresh
        · exact fun hi => hrest k hk (List.mem_cons_of_mem _ hi)
    · rintro ⟨hrange, hnodup, hall⟩
      obtain ⟨hkey_rest, hnodup⟩ := List.nodup_cons.mp hnodup
      refine ⟨fun k hk => hrange k (List.mem_cons_of_mem _ hk), hnodup, fun k hk hi => ?_⟩
      rcases List.mem_cons.mp hi with heq | hi
      · have hk' := hrange k (List.mem_cons_of_mem _ hk)
        rw [key_index_inj hk'.2 hkey.2 heq] at hk
        exact hkey_rest hk
      · exact hall k (List.mem_cons_of_mem _ hk) hi

/-- Distinct keys in range are no more than there are experts. -/
theorem length_le_kMaxKeys {keys : List ExpertKey} (hrange : InRange keys) (hnodup : keys.Nodup) :
    keys.length ≤ kMaxKeys := by
  have hindexes : (keys.map key_index).Nodup := by
    apply List.Nodup.map_on ?_ hnodup
    intro a ha b hb h
    exact key_index_inj (hrange a ha).2 (hrange b hb).2 h
  have hsub : keys.map key_index ⊆ List.range kMaxKeys := by
    intro i hi
    obtain ⟨key, hkey, rfl⟩ := List.mem_map.mp hi
    have hlt := hrange key hkey
    unfold kNumLayers kRoutedExperts at hlt
    rw [List.mem_range]
    unfold key_index kMaxKeys kNumLayers kRoutedExperts
    omega
  have hlen := (List.subperm_of_subset hindexes hsub).length_le
  rwa [List.length_map, List.length_range] at hlen

/-- What the writer and the reader ask of the keys. -/
theorem valid_keys_iff {keys : List ExpertKey} {capacity : Nat} :
    valid_keys keys capacity = true ↔
      keys ≠ [] ∧ keys.length ≤ capacity ∧ InRange keys ∧ keys.Nodup := by
  unfold valid_keys
  constructor
  · intro h
    split at h
    · cases h
    · next hbad =>
      obtain ⟨hrange, hnodup, -⟩ := (valid_from_iff keys []).mp h
      refine ⟨fun hnil => hbad (.inl hnil), ?_, hrange, hnodup⟩
      omega
  · rintro ⟨hne, hcap, hrange, hnodup⟩
    have hmax := length_le_kMaxKeys hrange hnodup
    rw [if_neg (by rintro (hnil | hbad) <;> [exact hne hnil; omega])]
    exact (valid_from_iff keys []).mpr ⟨hrange, hnodup, fun _ _ => List.not_mem_nil⟩

theorem write_ok_iff {identity capacity : Nat} {keys : List ExpertKey} {bytes : Bytes} :
    write_expert_cache_state identity capacity keys = .ok bytes ↔
      valid_keys keys capacity = true ∧ cache_bytes identity capacity keys = bytes := by
  unfold write_expert_cache_state
  by_cases hvalid : valid_keys keys capacity = true
  · rw [if_pos hvalid]
    exact ⟨fun h => ⟨hvalid, Except.ok.inj h⟩, fun h => by rw [h.2]⟩
  · rw [if_neg hvalid]
    exact ⟨nofun, fun h => absurd h.1 hvalid⟩

/-! ### The header -/

theorem took_u64 : Took rd_u64 fun v bs => bs = wr_u64 v ∧ v < 2 ^ 64 := by
  apply Took.map
  refine (Took.read 8).conseq ?_
  rintro a bs ⟨rfl, hlen⟩
  have hlt := of_le_lt bs
  rw [hlen, show (256 : Nat) ^ 8 = 2 ^ 64 from rfl] at hlt
  refine ⟨?_, hlt⟩
  rw [wr_u64, ← hlen, le_of_le]

/-- The bytes of a header. -/
def header_bytes (h : CacheHeader) : Bytes :=
  wr_u64 h.magic ++ (wr_u64 h.version ++ (wr_u64 h.identity ++ (wr_u64 h.capacity ++
    (wr_u64 h.count ++ wr_u64 h.sum))))

@[simp]
theorem length_header_bytes (h : CacheHeader) : (header_bytes h).length = 48 := by
  simp [header_bytes, wr_u64]

theorem took_header : Took rd_cache_header fun h bs => bs = header_bytes h ∧ h.count < 2 ^ 64 := by
  refine took_u64.bind fun magic b₁ h₁ => ?_
  refine took_u64.bind fun version b₂ h₂ => ?_
  refine took_u64.bind fun identity b₃ h₃ => ?_
  refine took_u64.bind fun capacity b₄ h₄ => ?_
  refine took_u64.bind fun count b₅ h₅ => ?_
  refine took_u64.bind fun sum b₆ h₆ => ?_
  obtain ⟨rfl, -⟩ := h₁
  obtain ⟨rfl, -⟩ := h₂
  obtain ⟨rfl, -⟩ := h₃
  obtain ⟨rfl, -⟩ := h₄
  obtain ⟨rfl, hcount⟩ := h₅
  obtain ⟨rfl, -⟩ := h₆
  refine Took.pure ⟨?_, hcount⟩
  rw [List.append_nil]
  rfl

theorem reads_header {h : CacheHeader} (hm : h.magic < 2 ^ 64) (hv : h.version < 2 ^ 64)
    (hi : h.identity < 2 ^ 64) (hc : h.capacity < 2 ^ 64) (hn : h.count < 2 ^ 64)
    (hs : h.sum < 2 ^ 64) : Reads rd_cache_header h (header_bytes h) := by
  have hreads := reads_cache_header h.magic h.version h.identity h.capacity h.count h.sum
  rw [Nat.mod_eq_of_lt hm, Nat.mod_eq_of_lt hv, Nat.mod_eq_of_lt hi, Nat.mod_eq_of_lt hc,
    Nat.mod_eq_of_lt hn, Nat.mod_eq_of_lt hs, List.append_nil] at hreads
  exact hreads

theorem hash_bytes_lt (s : Bytes) : hash_bytes s < 2 ^ 64 := by
  unfold hash_bytes
  have hstart : 1469598103934665603 < 2 ^ 64 := by omega
  generalize 1469598103934665603 = h at hstart
  induction s generalizing h with
  | nil => exact hstart
  | cons b s ih =>
    rw [List.foldl_cons]
    exact ih _ (Nat.mod_lt _ (Nat.two_pow_pos 64))

/-! ### The image of the encoder -/

theorem kCacheMagic_lt : kCacheMagic < 2 ^ 64 := by
  unfold kCacheMagic
  omega

theorem kCacheVersion_lt : kCacheVersion < 2 ^ 64 := by
  unfold kCacheVersion
  omega

/-- The header of a written file. -/
def written_header (identity capacity : Nat) (keys : List ExpertKey) : CacheHeader where
  magic := kCacheMagic
  version := kCacheVersion
  identity := identity
  capacity := capacity
  count := keys.length
  sum := checksum keys

theorem cache_bytes_eq (identity capacity : Nat) (keys : List ExpertKey) :
    cache_bytes identity capacity keys =
      header_bytes (written_header identity capacity keys) ++ key_bytes keys := by
  simp only [cache_bytes, header_bytes, written_header, List.append_assoc]

@[simp]
theorem length_key_bytes (keys : List ExpertKey) : (key_bytes keys).length = keys.length * 4 := by
  rw [key_bytes, Word.length_array, List.length_map]
  rfl

theorem packed_unpack {v : Nat} (hv : v < 2 ^ 32) : packed (unpack v) = v := by
  unfold packed unpack
  dsimp only
  rw [UInt16.toNat_ofNat', UInt16.toNat_ofNat']
  omega

theorem key_bytes_values {n : Nat} {raw : Bytes} (h : raw.length = n * 4) :
    key_bytes ((uint32.values n raw).map unpack) = raw := by
  have hvalid : ∀ v ∈ uint32.values n raw, v < 2 ^ 32 := by
    refine Word.valid_values uint32 (fun bs hbs => ?_) n raw
    refine Nat.lt_of_lt_of_le (of_le_lt bs) (Nat.pow_le_pow_right (by decide) hbs)
  have hsame : (uint32.values n raw).map (packed ∘ unpack) = uint32.values n raw := by
    refine (List.map_congr_left ?_).trans (List.map_id _)
    intro v hv
    exact packed_unpack (hvalid v hv)
  rw [key_bytes, List.map_map, hsame, Word.array_values uint32 (Word.nat_exact 4 _) h]

/-- Of a given identity and capacity, the files that are read are those that are written. -/
theorem read_ok_iff {identity capacity : Nat} (hid : identity < 2 ^ 64) (hcap : capacity < 2 ^ 64)
    {bytes : Bytes} {keys : List ExpertKey} :
    read_expert_cache_state (some bytes) identity capacity = .ok keys ↔
      write_expert_cache_state identity capacity keys = .ok bytes := by
  rw [write_ok_iff]
  constructor
  · intro h
    simp only [read_expert_cache_state] at h
    cases hheader : rd_cache_header bytes with
    | error _ =>
      rw [hheader] at h
      cases h
    | ok x =>
      obtain ⟨header, rest⟩ := x
      rw [hheader] at h
      dsimp only at h
      obtain ⟨hbytes, rfl, rfl, -⟩ := took_header bytes header rest hheader
      split at h
      · cases h
      next hbad =>
      simp only [not_or, Decidable.not_not] at hbad
      obtain ⟨hmagic, hversion, hidentity, hcapacity, -, -, -⟩ := hbad
      cases hread : read (header.count * 4) rest with
      | error _ =>
        rw [hread] at h
        cases h
      | ok y =>
        obtain ⟨raw, more⟩ := y
        rw [hread] at h
        dsimp only at h
        obtain ⟨raw', rfl, rfl, hlen⟩ := Took.read _ _ _ _ hread
        split at h
        · cases h
        next hsum =>
        obtain ⟨rfl, hhash⟩ := not_or.mp hsum |>.imp Decidable.not_not.mp Decidable.not_not.mp
        split at h
        next hvalid =>
          obtain rfl := Except.ok.inj h
          refine ⟨hvalid, ?_⟩
          have hkeys := key_bytes_values hlen
          rw [cache_bytes_eq, hkeys, List.append_nil]
          congr 2
          cases header
          simp only [written_header, checksum, hkeys, List.length_map, Word.length_values]
          subst hmagic hversion hidentity hcapacity hhash
          rfl
        · cases h
  -- nothing the reader checks fails on what was written
  · rintro ⟨hvalid, rfl⟩
    obtain ⟨hne, hlen, hrange, hnodup⟩ := valid_keys_iff.mp hvalid
    have hmax := length_le_kMaxKeys hrange hnodup
    have hcount : keys.length < 2 ^ 64 := Nat.lt_of_le_of_lt hmax (by decide)
    have hheader := @reads_header (written_header identity capacity keys) kCacheMagic_lt
      kCacheVersion_lt hid hcap hcount (hash_bytes_lt _) (key_bytes keys)
    have hraw := Reads.read (key_bytes keys) (length_key_bytes keys) []
    rw [List.append_nil] at hraw
    have hpos : keys.length ≠ 0 := fun h => hne (List.eq_nil_of_length_eq_zero h)
    have hgood : ¬ (kCacheMagic ≠ kCacheMagic ∨ kCacheVersion ≠ kCacheVersion ∨
        identity ≠ identity ∨ capacity ≠ capacity ∨ keys.length = 0 ∨ keys.length > capacity ∨
        keys.length > kMaxKeys) := by
      simp only [ne_eq, not_true_eq_false, false_or]
      omega
    have hsum : ¬ (([] : Bytes) ≠ [] ∨ hash_bytes (key_bytes keys) ≠ checksum keys) := by
      rintro (h | h)
      · exact h rfl
      · exact h rfl
    rw [cache_bytes_eq]
    unfold read_expert_cache_state
    dsimp only
    rw [hheader]
    dsimp only [written_header]
    rw [if_neg hgood, hraw]
    dsimp only
    rw [if_neg hsum, unpack_keys, if_pos hvalid]

/-! ### The codec -/

/-- How many keys the header of a file announces. -/
def stored_count (bytes : Bytes) : Nat := of_le ((bytes.drop 32).take 8)

/-- The keys a file holds behind its header. -/
def stored_keys (bytes : Bytes) : List ExpertKey :=
  (uint32.values (stored_count bytes) (bytes.drop 48)).map unpack

theorem stored_count_cache_bytes {identity capacity : Nat} {keys : List ExpertKey}
    (h : keys.length < 2 ^ 64) : stored_count (cache_bytes identity capacity keys) = keys.length := by
  have hsplit : cache_bytes identity capacity keys =
      (wr_u64 kCacheMagic ++ wr_u64 kCacheVersion ++ wr_u64 identity ++ wr_u64 capacity) ++
        (wr_u64 keys.length ++ (wr_u64 (checksum keys) ++ key_bytes keys)) := by
    simp only [cache_bytes, List.append_assoc]
  have hfront : (wr_u64 kCacheMagic ++ wr_u64 kCacheVersion ++ wr_u64 identity ++
      wr_u64 capacity).length = 32 := by
    simp [wr_u64]
  unfold stored_count
  rw [hsplit, List.drop_append_of_le_length (Nat.le_of_eq hfront.symm), ← hfront, List.drop_length,
    List.nil_append, List.take_append_of_le_length (by simp [wr_u64])]
  rw [List.take_of_length_le (by simp [wr_u64]), wr_u64, of_le_le]
  exact Nat.mod_eq_of_lt h

theorem length_cache_bytes (identity capacity : Nat) (keys : List ExpertKey) :
    (cache_bytes identity capacity keys).length = 48 + keys.length * 4 := by
  rw [cache_bytes_eq, List.length_append, length_header_bytes, length_key_bytes]

/-- The codec of the cache state file. Distinct keys in range come back as they were written, in
    their order, wherever the writer takes them (some key, and no more than the capacity); and
    what is read is what the writer writes, so no file is read that is shorter or longer than
    its header says or that holds a duplicate key or one out of range. -/
theorem expert_cache_codec (identity : UInt64) (capacity : UInt32) :
    (∀ keys : List ExpertKey, keys.Nodup → InRange keys →
      (∀ bytes, write_expert_cache_state identity.toNat capacity.toNat keys = .ok bytes →
        read_expert_cache_state (some bytes) identity.toNat capacity.toNat = .ok keys) ∧
      (keys ≠ [] → keys.length ≤ capacity.toNat →
        ∃ bytes, write_expert_cache_state identity.toNat capacity.toNat keys = .ok bytes)) ∧
    (∀ bytes keys, read_expert_cache_state (some bytes) identity.toNat capacity.toNat = .ok keys →
      write_expert_cache_state identity.toNat capacity.toNat keys = .ok bytes) ∧
    (∀ bytes, bytes.length ≠ 48 + stored_count bytes * 4 → ∀ keys,
      read_expert_cache_state (some bytes) identity.toNat capacity.toNat ≠ .ok keys) ∧
    (∀ bytes, ¬ (stored_keys bytes).Nodup ∨ ¬ InRange (stored_keys bytes) → ∀ keys,
      read_expert_cache_state (some bytes) identity.toNat capacity.toNat ≠ .ok keys) := by
  have hid : identity.toNat < 2 ^ 64 := identity.toNat_lt
  have hcap : capacity.toNat < 2 ^ 64 := Nat.lt_trans capacity.toNat_lt (by decide)
  have hcount : ∀ {keys : List ExpertKey}, valid_keys keys capacity.toNat = true →
      keys.length < 2 ^ 64 := by
    intro keys hvalid
    obtain ⟨-, hlen, -, -⟩ := valid_keys_iff.mp hvalid
    omega
  refine ⟨fun keys hnodup hrange => ⟨fun bytes h => (read_ok_iff hid hcap).mpr h, ?_⟩,
    fun bytes keys h => (read_ok_iff hid hcap).mp h, ?_, ?_⟩
  · intro hne hlen
    exact ⟨_, write_ok_iff.mpr ⟨valid_keys_iff.mpr ⟨hne, hlen, hrange, hnodup⟩, rfl⟩⟩
  · intro bytes hlen keys h
    obtain ⟨hvalid, rfl⟩ := write_ok_iff.mp ((read_ok_iff hid hcap).mp h)
    rw [stored_count_cache_bytes (hcount hvalid), length_cache_bytes] at hlen
    exact hlen rfl
  · intro bytes hbad keys h
    obtain ⟨hvalid, rfl⟩ := write_ok_iff.mp ((read_ok_iff hid hcap).mp h)
    have hstored : stored_keys (cache_bytes identity.toNat capacity.toNat keys) = keys := by
      unfold stored_keys
      rw [stored_count_cache_bytes (hcount hvalid), cache_bytes_eq, List.drop_append_of_le_length
        (Nat.le_of_eq (length_header_bytes _).symm), List.drop_of_length_le
        (Nat.le_of_eq (length_header_bytes _)), List.nil_append, unpack_keys]
    obtain ⟨-, -, hrange, hnodup⟩ := valid_keys_iff.mp hvalid
    rw [hstored] at hbad
    rcases hbad with hdup | hout
    · exact hdup hnodup
    · exact hout hrange

/-- Two keys, in the order they were written. -/
theorem expert_cache_codec_pair : ∃ bytes,
    write_expert_cache_state 7 2 [⟨3, 5⟩, ⟨3, 4⟩] = .ok bytes ∧
      read_expert_cache_state (some bytes) 7 2 = .ok [⟨3, 5⟩, ⟨3, 4⟩] := by
  have hrange : InRange [⟨3, 5⟩, ⟨3, 4⟩] := by
    unfold InRange
    decide
  have hcodec := (expert_cache_codec 7 2).1 [⟨3, 5⟩, ⟨3, 4⟩] (by decide) hrange
  obtain ⟨bytes, hwrite⟩ := hcodec.2 (by decide) (by decide)
  exact ⟨bytes, hwrite, hcodec.1 bytes hwrite⟩

end CachedMoe.Runtime
