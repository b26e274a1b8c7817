import CachedMoe.Core.Types

/-! # Slab pool

    `store/slab.h`, `store/slab.cpp`: the expert cache is a list of slabs, each one
    allocation of `slots_per_slab` fixed-size slots. The pool hands out geometry
    only; which slot is used for what is the `ExpertStore`'s business. -/

namespace CachedMoe.Store

open CachedMoe

/-! ### The backing -/

/-- A contiguous allocation; a null `host_ptr` or a zero `device_address` means that
    side cannot address it. -/
structure SlabMemory where
  host_ptr : Nat := 0
  device_address : Nat := kNoDeviceAddress
  bytes : Nat := 0
  deriving Repr, DecidableEq

/-- Supplies the memory. The pool asks for slab after slab, so the argument `n` of
    `allocate` (how many slabs were granted before) stands for the backing's own state.
    The two fields are the interface's contract: a granted slab can be addressed by the
    CPU or the GPU, and its bytes lie inside the 64-bit address space. -/
structure SlabBacking where
  allocate : (n bytes : Nat) → Result SlabMemory
  addressable : ∀ {n bytes m}, allocate n bytes = .ok m →
    m.host_ptr ≠ 0 ∨ m.device_address ≠ kNoDeviceAddress
  in_space : ∀ {n bytes m}, allocate n bytes = .ok m →
    m.host_ptr + bytes ≤ 2 ^ 64 ∧ m.device_address + bytes ≤ 2 ^ 64

/-! ### The pool -/

structure SlabConfig where
  slots_per_slab : UInt32 := 100
  slot_bytes : Nat := layout.kExpertSlotBytes
  budget_bytes : Nat := 2 * 2 ^ 30
  deriving Repr, DecidableEq

/-- Where one slot lives. -/
structure SlotAddress where
  host_ptr : Nat := 0
  dev_addr : Nat := kNoDeviceAddress
  deriving Repr, DecidableEq

structure SlabPool where
  cfg : SlabConfig := {}
  slabs : List SlabMemory := []
  slab_bytes : Nat := 0
  slot_count : Nat := 0
  deriving Repr, DecidableEq

namespace SlabPool

/-- Gives every slab back; the configuration stays. -/
def reset (pool : SlabPool) : SlabPool :=
  { pool with slabs := [], slot_count := 0, slab_bytes := 0 }

/-- The allocation loop of `init`: `want` more slabs on top of `slabs`. A refusal ends
    the loop, and is an error only when nothing was granted before it. -/
def allocate_slabs (backing : SlabBacking) (bytes : Nat) :
    (want : Nat) → List SlabMemory → Result (List SlabMemory)
  | 0, slabs => .ok slabs
  | want + 1, slabs =>
    match backing.allocate slabs.length bytes with
    | .error e => if slabs.isEmpty then .error e else .ok slabs
    | .ok m => allocate_slabs backing bytes want (slabs ++ [m])

/-- `SlabPool::init`. -/
def init (pool : SlabPool) (backing : Option SlabBacking) (cfg : SlabConfig) :
    Result Unit × SlabPool :=
  match backing with
  | none => (fail .InvalidArgument "SlabPool needs a backing", pool)
  | some backing =>
    if cfg.slot_bytes = 0 ∨ cfg.slots_per_slab = 0 then
      (fail .InvalidArgument "slot_bytes and slots_per_slab must be non-zero", pool)
    else if ¬ is_aligned cfg.slot_bytes then
      (fail .InvalidArgument s!"slot_bytes {cfg.slot_bytes} is not 4 KiB aligned", pool)
    else
      let slab_bytes := (cfg.slot_bytes * cfg.slots_per_slab.toNat) % 2 ^ 64
      let pool := { pool.reset with cfg := cfg, slab_bytes := slab_bytes }
      if slab_bytes > 2 * 2 ^ 30 then
        (fail .InvalidArgument s!"slab of {slab_bytes} B exceeds the 2 GiB allocation limit", pool)
      else
        let want := (cfg.budget_bytes / slab_bytes) % 2 ^ 32
        if want = 0 then
          (fail .ResourceExhausted
            s!"budget {cfg.budget_bytes} B is smaller than one {slab_bytes} B slab", pool)
        else
          match allocate_slabs backing slab_bytes want [] with
          | .error e => (.error e, pool.reset)
          | .ok slabs =>
            (.ok (), { pool with
              slabs := slabs
              slot_count := (slabs.length % 2 ^ 32 * cfg.slots_per_slab.toNat) % 2 ^ 32 })

/-- Global slot index → (slab, index within slab); the slab index is a `uint16_t`. -/
def decompose (pool : SlabPool) (slot : Nat) : Nat × Nat :=
  (slot / pool.cfg.slots_per_slab.toNat % 2 ^ 16, slot % pool.cfg.slots_per_slab.toNat)

/-- The address computation of `SlabPool::address`, for a slot inside the pool. -/
def slot_address (pool : SlabPool) (slot : Nat) : SlotAddress :=
  let m := pool.slabs.getD (pool.decompose slot).1 {}
  let off := (pool.decompose slot).2 * pool.cfg.slot_bytes
  { host_ptr := if m.host_ptr ≠ 0 then add64 m.host_ptr off else 0
    dev_addr := if m.device_address ≠ 0 then add64 m.device_address off else kNoDeviceAddress }

/-- `SlabPool::address`. -/
def address (pool : SlabPool) (slot : Nat) : Result SlotAddress :=
  if slot ≥ pool.slot_count then fail .OutOfRange s!"slot {slot} >= {pool.slot_count}"
  else .ok (pool.slot_address slot)

end SlabPool

/-- The base the pointer table is computed from: the device address, or the host pointer
    of a backing the GPU cannot see. -/
def SlotAddress.base (a : SlotAddress) : Nat :=
  if a.dev_addr ≠ 0 then a.dev_addr else a.host_ptr

/-- A slot address whose `kExpertSlotBytes` bytes lie inside the address space, away from
    the null address. -/
def SlotAddress.Usable (a : SlotAddress) : Prop :=
  0 < a.base ∧ a.base + layout.kExpertSlotBytes ≤ 2 ^ 64

/-! ### What a successful `init` gives -/

/-- A granted slab, at the size that was asked for. -/
def SlabMemory.Granted (m : SlabMemory) (bytes : Nat) : Prop :=
  (m.host_ptr ≠ 0 ∨ m.device_address ≠ 0) ∧
    m.host_ptr + bytes ≤ 2 ^ 64 ∧ m.device_address + bytes ≤ 2 ^ 64

namespace SlabPool

theorem allocate_slabs_granted {backing : SlabBacking} {bytes want : Nat}
    {slabs slabs' : List SlabMemory} (hslabs : ∀ m ∈ slabs, m.Granted bytes)
    (h : allocate_slabs backing bytes want slabs = .ok slabs') :
    ∀ m ∈ slabs', m.Granted bytes := by
  induction want generalizing slabs with
  | zero =>
    obtain rfl : slabs = slabs' := by simpa [allocate_slabs] using h
    exact hslabs
  | succ want ih =>
    rw [allocate_slabs] at h
    split at h
    · next e _ =>
      split at h
      · cases h
      · obtain rfl : slabs = slabs' := by simpa using h
        exact hslabs
    · next m hm =>
      refine ih ?_ h
      intro m' hm'
      rcases List.mem_append.mp hm' with hold | hnew
      · exact hslabs m' hold
      · obtain rfl : m' = m := by simpa using hnew
        exact ⟨backing.addressable hm, backing.in_space hm⟩

/-- What the `ExpertStore` relies on: every slot below `slot_count` is usable. -/
structure Ready (pool : SlabPool) : Prop where
  slot_bytes : pool.cfg.slot_bytes = layout.kExpertSlotBytes
  slot_count_lt : pool.slot_count < 2 ^ 32
  usable : ∀ i < pool.slot_count, (pool.slot_address i).Usable

theorem slot_end_le (len : Nat) {idx per_slab : Nat} (h : idx < per_slab) :
    idx * len + len ≤ len * per_slab := by
  calc idx * len + len = (idx + 1) * len := (Nat.succ_mul idx len).symm
    _ ≤ per_slab * len := Nat.mul_le_mul_right len h
    _ = len * per_slab := Nat.mul_comm _ _

/-- The slab index of a slot below `slot_count` names a slab: the truncations to
    `uint32_t` and `uint16_t` only make it smaller. -/
theorem decompose_lt {slabs per_slab slot : Nat}
    (h : slot < (slabs % 2 ^ 32 * per_slab) % 2 ^ 32) :
    slot / per_slab % 2 ^ 16 < slabs := by
  have hslot : slot < per_slab * slabs := by
    calc slot < (slabs % 2 ^ 32 * per_slab) % 2 ^ 32 := h
      _ ≤ slabs % 2 ^ 32 * per_slab := Nat.mod_le _ _
      _ ≤ slabs * per_slab := Nat.mul_le_mul_right _ (Nat.mod_le _ _)
      _ = per_slab * slabs := Nat.mul_comm _ _
  exact Nat.lt_of_le_of_lt (Nat.mod_le _ _) (Nat.div_lt_of_lt_mul hslot)

/-- A slot of a granted slab is usable, whichever side the slab is addressed from. -/
theorem usable_of_granted {m : SlabMemory} {bytes off : Nat} (hm : m.Granted bytes)
    (hoff : off + layout.kExpertSlotBytes ≤ bytes) :
    (SlotAddress.mk (if m.host_ptr ≠ 0 then add64 m.host_ptr off else 0)
      (if m.device_address ≠ 0 then add64 m.device_address off else kNoDeviceAddress)).Usable := by
  obtain ⟨haddr, hhost, hdev⟩ := hm
  have hpos : 0 < layout.kExpertSlotBytes := by decide
  by_cases hd : m.device_address = 0
  · have hh : m.host_ptr ≠ 0 := haddr.resolve_right (fun hne => hne hd)
    have hadd : add64 m.host_ptr off = m.host_ptr + off := add64_eq (by omega)
    simp only [SlotAddress.Usable, SlotAddress.base, hd, hh, hadd, kNoDeviceAddress, ne_eq,
      not_true_eq_false, not_false_eq_true, if_true, if_false]
    omega
  · have hadd : add64 m.device_address off = m.device_address + off := add64_eq (by omega)
    have hne : m.device_address + off ≠ 0 := by omega
    simp only [SlotAddress.Usable, SlotAddress.base, hd, hadd, hne, ne_eq, not_false_eq_true,
      if_true]
    omega

/-- A successful `init` leaves a pool all of whose slots are usable. -/
theorem init_ready (pool : SlabPool) (backing : Option SlabBacking) {cfg : SlabConfig}
    (hcfg : cfg.slot_bytes = layout.kExpertSlotBytes)
    (h : (pool.init backing cfg).1 = .ok ()) : (pool.init backing cfg).2.Ready := by
  unfold init at h ⊢
  cases backing with
  | none => cases h
  | some backing =>
    dsimp only at h ⊢
    split at h
    · cases h
    next hsize =>
    split at h
    · cases h
    next halign =>
    split at h
    · cases h
    next hcap =>
    split at h
    · cases h
    next hwant =>
    split at h
    · cases h
    next slabs hslabs =>
    rw [if_neg hsize, if_neg halign, if_neg hcap, if_neg hwant]
    have hgranted := allocate_slabs_granted (by simp) hslabs
    have hpos : 0 < cfg.slots_per_slab.toNat := by
      have hne : cfg.slots_per_slab.toNat ≠ 0 := fun h0 => hsize (.inr (UInt32.toNat_inj.mp h0))
      omega
    -- a slot times a `uint32_t` count does not wrap
    have hbytes : cfg.slot_bytes * cfg.slots_per_slab.toNat % 2 ^ 64 =
        cfg.slot_bytes * cfg.slots_per_slab.toNat := by
      have hlt := cfg.slots_per_slab.toNat_lt
      rw [hcfg, layout.kExpertSlotBytes]
      omega
    refine ⟨hcfg, Nat.mod_lt _ (by decide), ?_⟩
    intro i hi
    have hslab := decompose_lt hi
    have hmem : slabs.getD (i / cfg.slots_per_slab.toNat % 2 ^ 16) {} ∈ slabs := by
      rw [List.getD_eq_getElem?_getD, List.getElem?_eq_getElem hslab, Option.getD_some]
      exact List.getElem_mem hslab
    refine usable_of_granted (hgranted _ hmem) ?_
    have hend := slot_end_le cfg.slot_bytes (Nat.mod_lt i hpos)
    rw [hbytes, ← hcfg]
    exact hend

/-- `address` does not fail below `slot_count`, so `ExpertStore::init` sees no error from it. -/
theorem address_ok {pool : SlabPool} {i : Nat} (h : i < pool.slot_count) :
    pool.address i = .ok (pool.slot_address i) := by
  rw [address, if_neg (by omega)]

end SlabPool

end CachedMoe.Store
