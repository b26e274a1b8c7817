import CachedMoe.Store.Moves
import CachedMoe.Framework.Update
import Mathlib.Data.Set.Function
import Mathlib.Order.Interval.Finset.Nat

/-! # Representation invariant of the expert store

    Four redundant structures (slots, index, free list, GPU pointer table) and four
    counters describe one thing: which expert is where. `Inv` is the statement that
    they agree, and every move of `Moves.lean` keeps it. -/

namespace CachedMoe.Store

open CachedMoe ExpertStore PointUpdate

/-! ### The invariant -/

/-- What the pointer table must hold for a key: the part's address while the key is
    Resident, and zero otherwise. -/
def entry (st : ExpertStore) (k : ExpertKey) (p : ExpertPart) : Nat :=
  match st.index k with
  | none => 0
  | some i =>
    if (st.slots i).state = .Resident then slot_base (st.slots i) + (st.slots i).part_offset p
    else 0

/-- How many slots satisfy `P`. -/
def slots_with (st : ExpertStore) (P : ExpertSlot → Prop) [DecidablePred P] : Nat :=
  count (Finset.range st.slots_size) st.slots P

/-- The index finds exactly the slots that are not Free, each under its own key. -/
def IndexAgrees (st : ExpertStore) : Prop :=
  ∀ k i, st.index k = some i ↔
    i < st.slots_size ∧ (st.slots i).state ≠ .Free ∧ (st.slots i).key = k

/-- The free list names the Free slots, each once. -/
def FreeListAgrees (st : ExpertStore) : Prop :=
  st.free_list.Nodup ∧ ∀ i, i ∈ st.free_list ↔ i < st.slots_size ∧ (st.slots i).state = .Free

/-- The pointer table holds what the slots say. -/
def TableAgrees (st : ExpertStore) : Prop :=
  ∀ k, st.key_in_range k → ∀ p, st.table (st.table_index k p) = entry st k p

/-- The occupancy counters are the true counts. A slot counts as pinned once it is Resident. -/
structure CountsAgree (st : ExpertStore) : Prop where
  resident : st.stats.resident = slots_with st fun s => s.state = .Resident
  filling : st.stats.filling = slots_with st fun s => s.state = .Filling
  free : st.stats.free = slots_with st fun s => s.state = .Free
  pinned : st.stats.pinned = slots_with st fun s => s.state = .Resident ∧ s.tier = .Pinned

/-- What the slots themselves keep: each lies inside the address space, away from null,
    and the parts of a held expert lie inside its slot. -/
structure SlotsPlaced (st : ExpertStore) : Prop where
  slot_bytes : st.pool.cfg.slot_bytes = layout.kExpertSlotBytes
  slots_size_lt : st.slots_size < 2 ^ 32
  base : ∀ i < st.slots_size,
    0 < slot_base (st.slots i) ∧ slot_base (st.slots i) + layout.kExpertSlotBytes ≤ 2 ^ 64
  parts : ∀ i < st.slots_size, (st.slots i).state ≠ .Free →
    ∀ p, (st.slots i).part_offset p < layout.kExpertSlotBytes

/-- The representation invariant. -/
structure Inv (st : ExpertStore) : Prop where
  placed : SlotsPlaced st
  index : IndexAgrees st
  in_range : ∀ k i, st.index k = some i → st.key_in_range k
  free_list : FreeListAgrees st
  table : TableAgrees st
  counts : CountsAgree st

/-! ### Pointer-table rows -/

theorem table_index_inj {st : ExpertStore} {k k' : ExpertKey} {p p' : ExpertPart}
    (hk : st.key_in_range k) (hk' : st.key_in_range k')
    (h : st.table_index k p = st.table_index k' p') : k = k' ∧ p = p' := by
  simp only [key_in_range, Bool.and_eq_true, decide_eq_true_eq] at hk hk'
  have hp := p.toNat_lt
  have hp' := p'.toNat_lt
  simp only [table_index, kExpertPartCount, layout.kExpertParts] at h
  have hrow : k.layer.toNat * st.experts_per_layer + k.expert.toNat =
      k'.layer.toNat * st.experts_per_layer + k'.expert.toNat := by omega
  have hpart : p.toNat = p'.toNat := by omega
  have hlayer : k.layer.toNat = k'.layer.toNat := by
    have hdiv : ∀ a b, b < st.experts_per_layer →
        (a * st.experts_per_layer + b) / st.experts_per_layer = a := by
      intro a b hb
      rw [Nat.mul_comm, Nat.mul_add_div (by omega), Nat.div_eq_of_lt hb, Nat.add_zero]
    calc k.layer.toNat
        = (k.layer.toNat * st.experts_per_layer + k.expert.toNat) / st.experts_per_layer :=
          (hdiv _ _ hk.2).symm
      _ = (k'.layer.toNat * st.experts_per_layer + k'.expert.toNat) / st.experts_per_layer := by
          rw [hrow]
      _ = k'.layer.toNat := hdiv _ _ hk'.2
  have hexpert : k.expert.toNat = k'.expert.toNat := by
    rw [hlayer] at hrow
    omega
  refine ⟨?_, ExpertPart.toNat_injective hpart⟩
  cases k
  cases k'
  simp only [ExpertKey.mk.injEq]
  exact ⟨UInt16.toNat_inj.mp hlayer, UInt16.toNat_inj.mp hexpert⟩

/-- Writing a row changes that key's entries and no other key's. -/
theorem write_row_apply {st : ExpertStore} {k k' : ExpertKey} (hk : st.key_in_range k)
    (hk' : st.key_in_range k') (v : ExpertPart → Nat) (p : ExpertPart) :
    st.write_row k v (st.table_index k' p) =
      if k' = k then v p else st.table (st.table_index k' p) := by
  unfold write_row
  split
  · next heq =>
    subst heq
    have hinj : Function.Injective (st.table_index k') := fun p p' h =>
      (table_index_inj hk' hk' h).2
    exact foldl_update_of_mem hinj v st.table (ExpertPart.mem_all p)
  · next hne =>
    refine foldl_update_of_ne _ v st.table fun p' _ heq => ?_
    exact hne (table_index_inj hk' hk heq.symm).1

/-! ### Empty stores and bookkeeping -/

variable {st st' : ExpertStore}

theorem Empty.counts (h : Empty st) : CountsAgree st := by
  have hstate : ∀ i ∈ Finset.range st.slots_size, (st.slots i).state = .Free := fun i hi =>
    h.free i (Finset.mem_range.mp hi)
  have hocc := h.occupancy
  simp only [ExpertStoreStats.occupancy, Prod.mk.injEq] at hocc
  obtain ⟨hresident, hfilling, hfree, hpinned⟩ := hocc
  constructor
  · rw [hresident]
    refine (count_eq_zero _ fun i hi => ?_).symm
    simp [hstate i hi]
  · rw [hfilling]
    refine (count_eq_zero _ fun i hi => ?_).symm
    simp [hstate i hi]
  · rw [hfree]
    exact ((count_eq_card _ hstate).trans (Finset.card_range _)).symm
  · rw [hpinned]
    refine (count_eq_zero _ fun i hi => ?_).symm
    simp [hstate i hi]

theorem Empty.inv (h : Empty st) : Inv st := by
  constructor
  case placed =>
    exact ⟨h.slot_bytes, h.slots_size_lt, h.base, fun i hi hused => absurd (h.free i hi) hused⟩
  case index =>
    intro k i
    rw [h.index]
    constructor
    · intro hk
      cases hk
    · rintro ⟨hi, hused, _⟩
      exact absurd (h.free i hi) hused
  case in_range =>
    intro k i hk
    rw [h.index] at hk
    cases hk
  case free_list =>
    rw [FreeListAgrees, h.free_list]
    refine ⟨List.nodup_range, fun i => ?_⟩
    rw [List.mem_range]
    exact ⟨fun hi => ⟨hi, h.free i hi⟩, And.left⟩
  case table =>
    intro k _ p
    rw [h.table, entry, h.index]
    rfl
  case counts => exact h.counts

theorem key_in_range_eq (h : SameGeometry st st') (k : ExpertKey) :
    st'.key_in_range k = st.key_in_range k := by
  unfold key_in_range
  rw [h.layers, h.experts_per_layer]

theorem table_index_eq (h : SameGeometry st st') (k : ExpertKey) (p : ExpertPart) :
    st'.table_index k p = st.table_index k p := by
  unfold table_index
  rw [h.experts_per_layer]

/-- Counters over slots that the tables cannot tell apart are equal. -/
theorem Keep.slots_with_eq (h : Keep st st') (P : ExpertSlot → Prop) [DecidablePred P]
    (hP : ∀ s s', SameSlot s s' → (P s' ↔ P s)) : slots_with st' P = slots_with st P := by
  unfold slots_with
  rw [h.slots_size]
  exact count_congr P fun i _ => hP _ _ (h.slots i)

theorem Keep.counts (h : Keep st st') (hinv : CountsAgree st) : CountsAgree st' := by
  have hocc := h.occupancy
  simp only [ExpertStoreStats.occupancy, Prod.mk.injEq] at hocc
  obtain ⟨hresident, hfilling, hfree, hpinned⟩ := hocc
  constructor
  · rw [hresident, hinv.resident]
    exact (h.slots_with_eq _ fun s s' hs => by rw [hs.state]).symm
  · rw [hfilling, hinv.filling]
    exact (h.slots_with_eq _ fun s s' hs => by rw [hs.state]).symm
  · rw [hfree, hinv.free]
    exact (h.slots_with_eq _ fun s s' hs => by rw [hs.state]).symm
  · rw [hpinned, hinv.pinned]
    exact (h.slots_with_eq _ fun s s' hs => by rw [hs.state, hs.tier]).symm

theorem Keep.entry_eq (h : Keep st st') (k : ExpertKey) (p : ExpertPart) :
    entry st' k p = entry st k p := by
  unfold entry
  rw [h.index]
  cases st.index k with
  | none => rfl
  | some i => simp only [(h.slots i).state, (h.slots i).base, (h.slots i).part_offset]

theorem Keep.inv (h : Keep st st') (hinv : Inv st) : Inv st' := by
  have hgeo := h.toSameGeometry
  constructor
  case placed =>
    refine ⟨hgeo.slot_bytes.trans hinv.placed.slot_bytes, ?_, fun i hi => ?_, fun i hi hused => ?_⟩
    · exact hgeo.slots_size ▸ hinv.placed.slots_size_lt
    · rw [(h.slots i).base]
      exact hinv.placed.base i (hgeo.slots_size ▸ hi)
    · rw [(h.slots i).part_offset]
      exact hinv.placed.parts i (hgeo.slots_size ▸ hi) ((h.slots i).state ▸ hused)
  case index =>
    intro k i
    rw [h.index, hgeo.slots_size, (h.slots i).state, (h.slots i).key]
    exact hinv.index k i
  case in_range =>
    intro k i hk
    rw [key_in_range_eq hgeo]
    exact hinv.in_range k i (h.index ▸ hk)
  case free_list =>
    rw [FreeListAgrees, h.free_list]
    refine ⟨hinv.free_list.1, fun i => ?_⟩
    rw [hgeo.slots_size, (h.slots i).state]
    exact hinv.free_list.2 i
  case table =>
    intro k hk p
    rw [key_in_range_eq hgeo] at hk
    rw [h.table, table_index_eq hgeo, h.entry_eq]
    exact hinv.table k hk p
  case counts => exact h.counts hinv.counts

/-! ### Moves of one slot -/

/-- What the moves of one slot have in common. -/
structure OneSlot (st st' : ExpertStore) (i : Nat) (s : ExpertSlot) : Prop
    extends SameGeometry st st' where
  lt : i < st.slots_size
  slots : st'.slots = Function.update st.slots i s
  base : slot_base s = slot_base (st.slots i)

namespace OneSlot

variable {i : Nat} {s : ExpertSlot} (h : OneSlot st st' i s)

include h

theorem self : st'.slots i = s := by
  rw [h.slots, Function.update_self]

theorem other {j : Nat} (hj : j ≠ i) : st'.slots j = st.slots j := by
  rw [h.slots, Function.update_of_ne hj]

/-- A counter after the slot changed. -/
theorem slots_with_add (P : ExpertSlot → Prop) [DecidablePred P] :
    slots_with st' P + (if P (st.slots i) then 1 else 0) =
      slots_with st P + if P s then 1 else 0 := by
  unfold slots_with
  rw [h.slots_size, h.slots]
  exact count_update_add P (Finset.mem_range.mpr h.lt) st.slots s

/-- No counter reaches the wrap of a `uint32_t`. -/
theorem slots_with_lt (hinv : Inv st) (P : ExpertSlot → Prop) [DecidablePred P] :
    slots_with st P < 2 ^ 32 ∧ slots_with st' P < 2 ^ 32 := by
  have hle : ∀ st : ExpertStore, slots_with st P ≤ st.slots_size := fun st =>
    (count_le_card P _ _).trans (Finset.card_range _).le
  have hsize := hinv.placed.slots_size_lt
  have hold := hle st
  have hnew := hle st'
  rw [h.slots_size] at hnew
  omega

theorem placed (hinv : SlotsPlaced st)
    (hparts : s.state ≠ .Free → ∀ p, s.part_offset p < layout.kExpertSlotBytes) :
    SlotsPlaced st' := by
  refine ⟨h.slot_bytes.trans hinv.slot_bytes, h.slots_size ▸ hinv.slots_size_lt, ?_, ?_⟩
  · intro j hj
    rw [h.slots_size] at hj
    by_cases hji : j = i
    · rw [hji, h.self, h.base]
      exact hinv.base i h.lt
    · rw [h.other hji]
      exact hinv.base j hj
  · intro j hj hused
    rw [h.slots_size] at hj
    by_cases hji : j = i
    · subst hji
      rw [h.self] at hused ⊢
      exact hparts hused
    · rw [h.other hji] at hused ⊢
      exact hinv.parts j hj hused

/-- The entries of a key whose slot did not change. -/
theorem entry_other {k : ExpertKey} (hindex : st'.index k = st.index k)
    (hk : ∀ j, st.index k = some j → j ≠ i) (p : ExpertPart) : entry st' k p = entry st k p := by
  unfold entry
  rw [hindex]
  cases hj : st.index k with
  | none => rfl
  | some j => simp only [h.other (hk j hj)]

/-- A slot that stays held under the same key. -/
theorem index_held (hinv : IndexAgrees st) (hindex : st'.index = st.index)
    (hold : (st.slots i).state ≠ .Free) (hnew : s.state ≠ .Free)
    (hkey : s.key = (st.slots i).key) : IndexAgrees st' := by
  intro k j
  rw [hindex, h.slots_size, hinv k j]
  by_cases hji : j = i
  · subst hji
    rw [h.self, hkey]
    simp only [hold, hnew, ne_eq, not_false_eq_true, true_and]
  · rw [h.other hji]

theorem free_list_held (hinv : FreeListAgrees st) (hfree : st'.free_list = st.free_list)
    (hold : (st.slots i).state ≠ .Free) (hnew : s.state ≠ .Free) : FreeListAgrees st' := by
  rw [FreeListAgrees, hfree]
  refine ⟨hinv.1, fun j => ?_⟩
  rw [h.slots_size, hinv.2 j]
  by_cases hji : j = i
  · subst hji
    rw [h.self]
    simp only [hold, hnew, and_false]
  · rw [h.other hji]

end OneSlot

/-! #### A slot is taken -/

namespace Fill

variable {i : Nat} {k : ExpertKey} {s : ExpertSlot}

theorem was_free (h : Fill st st' i k s) (hinv : Inv st) :
    i < st.slots_size ∧ (st.slots i).state = .Free :=
  (hinv.free_list.2 i).mp (h.free_list ▸ List.mem_cons_self)

theorem one_slot (h : Fill st st' i k s) (hinv : Inv st) : OneSlot st st' i s :=
  ⟨h.toSameGeometry, (h.was_free hinv).1, h.slots, h.base⟩

/-- No key is held in the slot that is taken. -/
theorem ne_of_held (h : Fill st st' i k s) (hinv : Inv st) {k' : ExpertKey} {j : Nat}
    (hk' : st.index k' = some j) : j ≠ i := by
  rintro rfl
  exact ((hinv.index k' j).mp hk').2.1 (h.was_free hinv).2

theorem index_agrees (h : Fill st st' i k s) (hinv : Inv st) : IndexAgrees st' := by
  have hone := h.one_slot hinv
  intro k' j
  rw [h.index, h.slots_size]
  by_cases hk : k' = k
  · subst hk
    rw [Function.update_self]
    constructor
    · intro hj
      obtain rfl : i = j := by simpa using hj
      rw [hone.self, h.state, h.key]
      exact ⟨hone.lt, by decide, rfl⟩
    · rintro ⟨hj, hused, hkey⟩
      by_cases hji : j = i
      · rw [hji]
      · -- another slot under this key contradicts the check of `reserve_locked`
        rw [hone.other hji] at hused hkey
        have hheld := (hinv.index k' j).mpr ⟨hj, hused, hkey⟩
        rw [h.absent] at hheld
        cases hheld
  · rw [Function.update_of_ne hk]
    by_cases hji : j = i
    · subst hji
      constructor
      · intro hj
        exact absurd rfl (h.ne_of_held hinv hj)
      · rintro ⟨_, _, hkey⟩
        rw [hone.self, h.key] at hkey
        exact absurd hkey.symm hk
    · rw [hone.other hji]
      exact hinv.index k' j

theorem free_list_agrees (h : Fill st st' i k s) (hinv : Inv st) : FreeListAgrees st' := by
  have hone := h.one_slot hinv
  have hnodup : i ∉ st'.free_list ∧ st'.free_list.Nodup :=
    List.nodup_cons.mp (h.free_list ▸ hinv.free_list.1)
  refine ⟨hnodup.2, fun j => ?_⟩
  have hold := hinv.free_list.2 j
  rw [h.free_list, List.mem_cons] at hold
  rw [h.slots_size]
  by_cases hji : j = i
  · subst hji
    rw [hone.self, h.state]
    exact ⟨fun hj => absurd hj hnodup.1, fun hj => absurd hj.2 (by decide)⟩
  · rw [hone.other hji, ← hold]
    exact ⟨.inr, fun hj => hj.resolve_left hji⟩

theorem table_agrees (h : Fill st st' i k s) (hinv : Inv st) : TableAgrees st' := by
  have hone := h.one_slot hinv
  intro k' hk' p
  rw [key_in_range_eq h.toSameGeometry] at hk'
  rw [h.table, table_index_eq h.toSameGeometry, hinv.table k' hk' p]
  by_cases hk : k' = k
  · subst hk
    rw [entry, entry, h.index, Function.update_self, h.absent]
    simp [hone.self, h.state]
  · refine (hone.entry_other ?_ (fun j hj => h.ne_of_held hinv hj) p).symm
    rw [h.index, Function.update_of_ne hk]

theorem counts_agree (h : Fill st st' i k s) (hinv : Inv st) : CountsAgree st' := by
  have hone := h.one_slot hinv
  have hfree := (h.was_free hinv).2
  have hocc := h.occupancy
  simp only [ExpertStoreStats.occupancy, Prod.mk.injEq] at hocc
  obtain ⟨hresident, hfilling, hfree', hpinned⟩ := hocc
  constructor
  · rw [hresident, hinv.counts.resident]
    simpa [hfree, h.state] using (hone.slots_with_add fun s => s.state = .Resident).symm
  · rw [hfilling, hinv.counts.filling]
    refine inc32_eq ?_ (hone.slots_with_lt hinv _).2
    simpa [hfree, h.state] using hone.slots_with_add fun s => s.state = .Filling
  · rw [hfree', hinv.counts.free]
    refine dec32_eq ?_ (hone.slots_with_lt hinv _).1
    simpa [hfree, h.state] using hone.slots_with_add fun s => s.state = .Free
  · rw [hpinned, hinv.counts.pinned]
    simpa [hfree, h.state] using
      (hone.slots_with_add fun s => s.state = .Resident ∧ s.tier = .Pinned).symm

theorem inv (h : Fill st st' i k s) (hinv : Inv st) : Inv st' where
  placed := (h.one_slot hinv).placed hinv.placed fun _ p =>
    hinv.placed.slot_bytes ▸ h.part_in_slot p
  index := h.index_agrees hinv
  in_range := by
    intro k' j hk'
    rw [key_in_range_eq h.toSameGeometry]
    rw [h.index] at hk'
    by_cases hk : k' = k
    · exact hk ▸ h.in_range
    · rw [Function.update_of_ne hk] at hk'
      exact hinv.in_range k' j hk'
  free_list := h.free_list_agrees hinv
  table := h.table_agrees hinv
  counts := h.counts_agree hinv

end Fill

/-! #### A fill ends well -/

/-- A held key other than the slot's own lives in another slot. -/
theorem ne_of_key_ne {i : Nat} (hinv : Inv st) {k : ExpertKey} (hne : k ≠ (st.slots i).key)
    {j : Nat} (hj : st.index k = some j) : j ≠ i := by
  rintro rfl
  exact hne ((hinv.index k j).mp hj).2.2.symm

theorem index_own_key {i : Nat} (hinv : Inv st) (hi : i < st.slots_size)
    (hused : (st.slots i).state ≠ .Free) : st.index (st.slots i).key = some i :=
  (hinv.index _ _).mpr ⟨hi, hused, rfl⟩

namespace Publish

variable {i : Nat} {s : ExpertSlot}

theorem one_slot (h : Publish st st' i s) : OneSlot st st' i s :=
  ⟨h.toSameGeometry, h.lt, h.slots, h.base⟩

theorem used (h : Publish st st' i s) : (st.slots i).state ≠ .Free := by
  rw [h.filling]
  decide

/-- The address written for a part is the exact sum: it neither is null nor wraps. -/
theorem published_value (h : Publish st st' i s) (hinv : Inv st) (p : ExpertPart) :
    (if slot_base s ≠ 0 then add64 (slot_base s) (s.part_offset p) else kNoDeviceAddress) =
      slot_base s + s.part_offset p := by
  have hbase := hinv.placed.base i h.lt
  have hpart := hinv.placed.parts i h.lt h.used p
  rw [← h.base] at hbase
  rw [← h.part_offset] at hpart
  rw [if_pos (by omega)]
  exact add64_eq (by omega)

theorem table_agrees (h : Publish st st' i s) (hinv : Inv st) : TableAgrees st' := by
  have hown := index_own_key hinv h.lt h.used
  have hkey := hinv.in_range _ _ hown
  rw [← h.key] at hown hkey
  intro k hk p
  rw [key_in_range_eq h.toSameGeometry] at hk
  rw [h.table, table_index_eq h.toSameGeometry, write_row_apply hkey hk]
  split
  · next heq =>
    rw [h.published_value hinv p, entry, h.index, heq, hown]
    simp [h.one_slot.self, h.state]
  · next hne =>
    rw [hinv.table k hk p]
    refine (h.one_slot.entry_other (by rw [h.index]) (fun j hj => ?_) p).symm
    exact ne_of_key_ne hinv (h.key ▸ hne) hj

theorem counts_agree (h : Publish st st' i s) (hinv : Inv st) : CountsAgree st' := by
  have hone := h.one_slot
  have hocc := h.occupancy
  simp only [ExpertStoreStats.occupancy, Prod.mk.injEq] at hocc
  obtain ⟨hresident, hfilling, hfree, hpinned⟩ := hocc
  constructor
  · rw [hresident, hinv.counts.resident]
    refine inc32_eq ?_ (hone.slots_with_lt hinv _).2
    simpa [h.filling, h.state] using hone.slots_with_add fun s => s.state = .Resident
  · rw [hfilling, hinv.counts.filling]
    refine dec32_eq ?_ (hone.slots_with_lt hinv _).1
    simpa [h.filling, h.state] using hone.slots_with_add fun s => s.state = .Filling
  · rw [hfree, hinv.counts.free]
    simpa [h.filling, h.state] using (hone.slots_with_add fun s => s.state = .Free).symm
  · have hadd := hone.slots_with_add fun s => s.state = .Resident ∧ s.tier = .Pinned
    rw [hpinned, hinv.counts.pinned]
    split
    · next htier =>
      refine inc32_eq ?_ (hone.slots_with_lt hinv _).2
      simpa [h.filling, h.state, htier] using hadd
    · next htier => simpa [h.filling, h.state, htier] using hadd.symm

theorem inv (h : Publish st st' i s) (hinv : Inv st) : Inv st' := by
  have hused' : s.state ≠ .Free := by
    rw [h.state]
    decide
  exact {
    placed := h.one_slot.placed hinv.placed fun _ p =>
      h.part_offset ▸ hinv.placed.parts i h.lt h.used p
    index := h.one_slot.index_held hinv.index h.index h.used hused' h.key
    in_range := fun k j hk => by
      rw [key_in_range_eq h.toSameGeometry]
      exact hinv.in_range k j (h.index ▸ hk)
    free_list := h.one_slot.free_list_held hinv.free_list h.free_list h.used hused'
    table := h.table_agrees hinv
    counts := h.counts_agree hinv }

end Publish

/-! #### A slot is given back -/

namespace Drop

variable {i : Nat} {s : ExpertSlot}

theorem one_slot (h : Drop st st' i s) : OneSlot st st' i s :=
  ⟨h.toSameGeometry, h.lt, h.slots, h.base⟩

theorem used (h : Drop st st' i s) : (st.slots i).state ≠ .Free := by
  rcases h.was with hfilling | ⟨hresident, _⟩
  · rw [hfilling]
    decide
  · rw [hresident]
    decide

theorem index_agrees (h : Drop st st' i s) (hinv : Inv st) : IndexAgrees st' := by
  have hone := h.one_slot
  intro k j
  rw [h.index, h.slots_size]
  by_cases hk : k = (st.slots i).key
  · rw [hk, Function.update_self]
    constructor
    · intro hj
      cases hj
    · rintro ⟨hj, hused, hkey⟩
      by_cases hji : j = i
      · rw [hji, hone.self] at hused
        exact absurd h.state hused
      · rw [hone.other hji] at hused hkey
        have hheld := (hinv.index _ j).mpr ⟨hj, hused, hkey⟩
        rw [index_own_key hinv h.lt h.used] at hheld
        exact absurd (Option.some.inj hheld).symm hji
  · rw [Function.update_of_ne hk]
    by_cases hji : j = i
    · subst hji
      constructor
      · intro hj
        exact absurd rfl (ne_of_key_ne hinv hk hj)
      · rintro ⟨_, hused, _⟩
        rw [hone.self] at hused
        exact absurd h.state hused
    · rw [hone.other hji]
      exact hinv.index k j

theorem free_list_agrees (h : Drop st st' i s) (hinv : Inv st) : FreeListAgrees st' := by
  have hone := h.one_slot
  rw [FreeListAgrees, h.free_list]
  refine ⟨List.nodup_cons.mpr ⟨fun hmem => ?_, hinv.free_list.1⟩, fun j => ?_⟩
  · exact h.used ((hinv.free_list.2 i).mp hmem).2
  · rw [h.slots_size, List.mem_cons, hinv.free_list.2 j]
    by_cases hji : j = i
    · subst hji
      rw [hone.self]
      simp [h.state, h.lt]
    · rw [hone.other hji]
      simp [hji]

theorem table_agrees (h : Drop st st' i s) (hinv : Inv st) : TableAgrees st' := by
  have hown := index_own_key hinv h.lt h.used
  have hkey := hinv.in_range _ _ hown
  intro k hk p
  rw [key_in_range_eq h.toSameGeometry] at hk
  rw [h.table, table_index_eq h.toSameGeometry]
  by_cases heq : k = (st.slots i).key
  · -- the row of the key that leaves: zeroed by an eviction, zero all along for a failed fill
    have hzero : entry st' k p = 0 := by
      rw [entry, h.index, heq, Function.update_self]
    rw [hzero]
    split
    · rw [write_row_apply hkey hk, if_pos heq]
      rfl
    · next hres =>
      rw [hinv.table k hk p, entry, heq, hown]
      simp [hres]
  · have hsame : entry st' k p = entry st k p := by
      refine h.one_slot.entry_other ?_ (fun j hj => ne_of_key_ne hinv heq hj) p
      rw [h.index, Function.update_of_ne heq]
    rw [hsame, ← hinv.table k hk p]
    split
    · rw [write_row_apply hkey hk, if_neg heq]
    · rfl

theorem counts_agree (h : Drop st st' i s) (hinv : Inv st) : CountsAgree st' := by
  have hone := h.one_slot
  have hocc := h.occupancy
  simp only [ExpertStoreStats.occupancy, Prod.mk.injEq] at hocc
  obtain ⟨hresident, hfilling, hfree, hpinned⟩ := hocc
  have hresident_add := hone.slots_with_add fun s => s.state = .Resident
  have hfilling_add := hone.slots_with_add fun s => s.state = .Filling
  have hfree_add := hone.slots_with_add fun s => s.state = .Free
  have hpinned_add := hone.slots_with_add fun s => s.state = .Resident ∧ s.tier = .Pinned
  rw [hinv.counts.resident] at hresident
  rw [hinv.counts.filling] at hfilling
  rw [hinv.counts.free] at hfree
  rw [hinv.counts.pinned] at hpinned
  rcases h.was with hwas | ⟨hwas, htier, _⟩
  · simp only [hwas, h.state, reduceCtorEq, false_and, if_true, if_false] at *
    refine ⟨?_, ?_, ?_, ?_⟩
    · rw [hresident]
      exact hresident_add.symm
    · rw [hfilling]
      exact dec32_eq hfilling_add (hone.slots_with_lt hinv _).1
    · rw [hfree]
      exact inc32_eq hfree_add (hone.slots_with_lt hinv _).2
    · rw [hpinned]
      exact hpinned_add.symm
  · simp only [hwas, h.state, htier, reduceCtorEq, and_false, false_and, if_true, if_false] at *
    refine ⟨?_, ?_, ?_, ?_⟩
    · rw [hresident]
      exact dec32_eq hresident_add (hone.slots_with_lt hinv _).1
    · rw [hfilling]
      exact hfilling_add.symm
    · rw [hfree]
      exact inc32_eq hfree_add (hone.slots_with_lt hinv _).2
    · rw [hpinned]
      exact hpinned_add.symm

theorem inv (h : Drop st st' i s) (hinv : Inv st) : Inv st' where
  placed := h.one_slot.placed hinv.placed fun hused => absurd h.state hused
  index := h.index_agrees hinv
  in_range := by
    intro k j hk
    rw [key_in_range_eq h.toSameGeometry]
    rw [h.index] at hk
    by_cases heq : k = (st.slots i).key
    · rw [heq, Function.update_self] at hk
      cases hk
    · rw [Function.update_of_ne heq] at hk
      exact hinv.in_range k j hk
  free_list := h.free_list_agrees hinv
  table := h.table_agrees hinv
  counts := h.counts_agree hinv

end Drop

/-! #### A slot is pinned -/

namespace Pin

variable {i : Nat} {s : ExpertSlot}

theorem one_slot (h : Pin st st' i s) (hinv : Inv st) : OneSlot st st' i s := by
  obtain ⟨k, hk⟩ := h.held
  exact ⟨h.toSameGeometry, ((hinv.index k i).mp hk).1, h.slots, h.base⟩

theorem counts_agree (h : Pin st st' i s) (hinv : Inv st) : CountsAgree st' := by
  have hone := h.one_slot hinv
  have hocc := h.occupancy
  simp only [ExpertStoreStats.occupancy, Prod.mk.injEq] at hocc
  obtain ⟨hresident, hfilling, hfree, hpinned⟩ := hocc
  constructor
  · rw [hresident, hinv.counts.resident]
    simpa [h.resident, h.state] using (hone.slots_with_add fun s => s.state = .Resident).symm
  · rw [hfilling, hinv.counts.filling]
    simpa [h.resident, h.state] using (hone.slots_with_add fun s => s.state = .Filling).symm
  · rw [hfree, hinv.counts.free]
    simpa [h.resident, h.state] using (hone.slots_with_add fun s => s.state = .Free).symm
  · rw [hpinned, hinv.counts.pinned]
    refine inc32_eq ?_ (hone.slots_with_lt hinv _).2
    simpa [h.resident, h.state, h.tier, h.unpinned] using
      hone.slots_with_add fun s => s.state = .Resident ∧ s.tier = .Pinned

theorem inv (h : Pin st st' i s) (hinv : Inv st) : Inv st' := by
  have hone := h.one_slot hinv
  have hused : (st.slots i).state ≠ .Free := by
    rw [h.resident]
    decide
  have hused' : s.state ≠ .Free := by
    rw [h.state]
    decide
  constructor
  case placed =>
    exact hone.placed hinv.placed fun _ p =>
      h.part_offset ▸ hinv.placed.parts i hone.lt hused p
  case index => exact hone.index_held hinv.index h.index hused hused' h.key
  case in_range =>
    intro k j hk
    rw [key_in_range_eq h.toSameGeometry]
    exact hinv.in_range k j (h.index ▸ hk)
  case free_list => exact hone.free_list_held hinv.free_list h.free_list hused hused'
  case table =>
    intro k hk p
    rw [key_in_range_eq h.toSameGeometry] at hk
    rw [h.table, table_index_eq h.toSameGeometry, hinv.table k hk p]
    by_cases heq : k = (st.slots i).key
    · rw [entry, entry, h.index, heq, index_own_key hinv hone.lt hused]
      simp [hone.self, h.resident, h.state, h.base, h.part_offset]
    · refine (hone.entry_other (by rw [h.index]) (fun j hj => ?_) p).symm
      exact ne_of_key_ne hinv heq hj
  case counts => exact h.counts_agree hinv

end Pin

/-! ### Every reachable store -/

theorem Move.inv (h : Move st st') (hinv : Inv st) : Inv st' := by
  cases h with
  | stay h => exact h ▸ hinv
  | fill i k s h => exact h.inv hinv
  | publish i s h => exact h.inv hinv
  | drop i s h => exact h.inv hinv
  | pin i s h => exact h.inv hinv

theorem Inv.free_eq_length (hinv : Inv st) : st.stats.free = st.free_list.length := by
  have hset : (Finset.range st.slots_size).filter (fun i => (st.slots i).state = .Free) =
      st.free_list.toFinset := by
    ext i
    rw [Finset.mem_filter, Finset.mem_range, List.mem_toFinset, hinv.free_list.2 i]
  rw [hinv.counts.free, slots_with, count, hset, List.toFinset_card_of_nodup hinv.free_list.1]

theorem Inv.apply_effect (hinv : Inv st) {op : Op} (hop : op.keeps_contents) :
    Effect st (st.apply op) := by
  refine Store.apply_effect hinv.placed.slot_bytes ?_ hop
  have hlt : st.stats.free < 2 ^ 32 := by
    rw [hinv.counts.free]
    exact lt_of_le_of_lt ((count_le_card _ _ _).trans (Finset.card_range _).le)
      hinv.placed.slots_size_lt
  rw [hinv.free_eq_length] at hlt ⊢
  exact (Nat.mod_eq_of_lt hlt).symm

theorem Inv.apply (hinv : Inv st) (op : Op) : Inv (st.apply op) := by
  have hbytes := hinv.placed.slot_bytes
  by_cases hop : op.keeps_contents
  · obtain ⟨st₁, hkeep, hmove⟩ := hinv.apply_effect hop
    exact hmove.inv (hkeep.inv hinv)
  · cases op with
    | init backing cache layers experts_per_layer =>
      rcases init_cases hbytes backing cache layers experts_per_layer with hempty | hkeep
      · exact hempty.inv
      · exact hkeep.inv hinv
    | reset => exact (reset_empty hbytes).inv
    | _ => exact absurd rfl hop

theorem reachable_inv (h : LTS.Reachable store_system st) : Inv st := by
  refine h.invariant ?_ ?_
  · rintro st ⟨st₀, backing, cache, layers, experts_per_layer, hinit⟩
    have hempty := init_empty st₀ backing cache layers experts_per_layer (by rw [hinit])
    rw [hinit] at hempty
    exact hempty.inv
  · intro st op st' hinv hstep
    obtain rfl : st.apply op = st' := Option.some.inj hstep
    exact hinv.apply op

/-! ### The tables of a reachable store -/

/-- The keys the index holds. -/
def held_keys (st : ExpertStore) : Set ExpertKey := { k | (st.index k).isSome }

/-- The slots that are not Free. -/
def used_slots (st : ExpertStore) : Set Nat :=
  { i | i < st.slots_size ∧ (st.slots i).state ≠ .Free }

theorem Inv.index_bijOn (hinv : Inv st) :
    Set.BijOn (fun k => (st.index k).getD 0) (held_keys st) (used_slots st) := by
  have hget : ∀ k ∈ held_keys st, st.index k = some ((st.index k).getD 0) := by
    intro k hk
    obtain ⟨i, hi⟩ := Option.isSome_iff_exists.mp hk
    rw [hi]
    rfl
  refine ⟨fun k hk => ?_, fun k hk k' hk' heq => ?_, fun i hi => ?_⟩
  · have hslot := (hinv.index _ _).mp (hget k hk)
    exact ⟨hslot.1, hslot.2.1⟩
  · have hkey := ((hinv.index _ _).mp (hget k hk)).2.2
    have hkey' := ((hinv.index _ _).mp (hget k' hk')).2.2
    dsimp only at heq
    rw [← hkey, ← hkey', heq]
  · have hown := index_own_key hinv hi.1 hi.2
    refine ⟨(st.slots i).key, ?_, ?_⟩
    · show (st.index (st.slots i).key).isSome
      rw [hown]
      rfl
    · show (st.index (st.slots i).key).getD 0 = i
      rw [hown]
      rfl

/-- The row of a Resident key: every entry is the slot's base plus the part's offset. -/
theorem Inv.row_resident (hinv : Inv st) {k : ExpertKey} {i : Nat} (hk : st.index k = some i)
    (hres : (st.slots i).state = .Resident) (p : ExpertPart) :
    st.table (st.table_index k p) = slot_base (st.slots i) + (st.slots i).part_offset p ∧
      st.table (st.table_index k p) ≠ 0 := by
  have hbase := (hinv.placed.base i ((hinv.index k i).mp hk).1).1
  have hrow := hinv.table k (hinv.in_range k i hk) p
  simp only [entry, hk, hres, if_true] at hrow
  refine ⟨hrow, ?_⟩
  rw [hrow]
  omega

/-- The row of any other key is zero. -/
theorem Inv.row_absent (hinv : Inv st) {k : ExpertKey} (hk : st.key_in_range k)
    (hres : ¬ st.resident k) (p : ExpertPart) : st.table (st.table_index k p) = 0 := by
  rw [hinv.table k hk p, entry]
  cases hi : st.index k with
  | none => rfl
  | some i =>
    simp only [ExpertStore.resident, hi, decide_eq_true_eq] at hres
    simp only [hres, if_false]

theorem resident_iff {k : ExpertKey} :
    st.resident k ↔ ∃ i, st.index k = some i ∧ (st.slots i).state = .Resident := by
  unfold ExpertStore.resident
  cases st.index k with
  | none => simp
  | some i => simp

/-- In every store a sequence of operations leads to from a successful `init`: the index is
    a bijection between the held keys and the slots that are not Free, the free list names
    the Free slots once each, a key's row of the pointer table is nonzero exactly while the
    key is Resident and then holds its slot's addresses, and the occupancy counters are
    the true counts. -/
theorem store_tables_agree (h : LTS.Reachable store_system st) :
    (Set.BijOn (fun k => (st.index k).getD 0) (held_keys st) (used_slots st) ∧
      ∀ k i, st.index k = some i → (st.slots i).key = k ∧ st.key_in_range k) ∧
    (st.free_list.Nodup ∧
      ∀ i, i ∈ st.free_list ↔ i < st.slots_size ∧ (st.slots i).state = .Free) ∧
    (∀ k, st.key_in_range k →
      ((∃ p, st.table (st.table_index k p) ≠ 0) ↔ st.resident k) ∧
      ∀ i, st.index k = some i → (st.slots i).state = .Resident → ∀ p,
        st.table (st.table_index k p) = slot_base (st.slots i) + (st.slots i).part_offset p ∧
          st.table (st.table_index k p) ≠ 0) ∧
    (st.stats.resident = slots_with st (fun s => s.state = .Resident) ∧
      st.stats.filling = slots_with st (fun s => s.state = .Filling) ∧
      st.stats.free = slots_with st (fun s => s.state = .Free) ∧
      st.stats.pinned = slots_with st fun s => s.state = .Resident ∧ s.tier = .Pinned) := by
  have hinv := reachable_inv h
  refine ⟨⟨hinv.index_bijOn, fun k i hk => ?_⟩, hinv.free_list, fun k hk => ⟨⟨?_, ?_⟩, ?_⟩, ?_⟩
  · exact ⟨((hinv.index k i).mp hk).2.2, hinv.in_range k i hk⟩
  · rintro ⟨p, hp⟩
    by_contra hres
    exact hp (hinv.row_absent hk hres p)
  · intro hres
    obtain ⟨i, hi, hstate⟩ := resident_iff.mp hres
    exact ⟨.W1Weight, (hinv.row_resident hi hstate _).2⟩
  · exact fun i hi hres p => hinv.row_resident hi hres p
  · exact ⟨hinv.counts.resident, hinv.counts.filling, hinv.counts.free, hinv.counts.pinned⟩

/-! #### A store at work -/

/-- Host memory for up to four slabs. -/
def host_backing : SlabBacking where
  allocate := fun n bytes =>
    if n < 4 ∧ bytes ≤ 2 ^ 32 then .ok { host_ptr := (n + 1) * 2 ^ 32, bytes := bytes }
    else fail .ResourceExhausted s!"host slab of {bytes} B"
  addressable := by
    intro n bytes m h
    split at h
    · cases h
      left
      show (n + 1) * 2 ^ 32 ≠ 0
      omega
    · cases h
  in_space := by
    intro n bytes m h
    split at h
    · cases h
      show (n + 1) * 2 ^ 32 + bytes ≤ 2 ^ 64 ∧ 0 + bytes ≤ 2 ^ 64
      omega
    · cases h

/-- Slabs of three slots for the experts of one layer. -/
def small_store : ExpertStore :=
  (ExpertStore.init {} (some host_backing) { slots_per_slab := 3 } 1 8).2

theorem small_store_init :
    ExpertStore.init {} (some host_backing) { slots_per_slab := 3 } 1 8 = (.ok (), small_store) :=
  rfl

/-- A store of one slab of two slots, freshly initialised. -/
def pair_store : ExpertStore :=
  (ExpertStore.init {} (some host_backing)
    { slots_per_slab := 2, budget_bytes := 2 * layout.kExpertSlotBytes } 1 8).2

theorem pair_store_init :
    ExpertStore.init {} (some host_backing)
      { slots_per_slab := 2, budget_bytes := 2 * layout.kExpertSlotBytes } 1 8 =
      (.ok (), pair_store) :=
  rfl

/-- One slot of `pair_store` filled, with stamp 5. -/
def half_pair_ops : List Op := [.begin_fill_synthetic ⟨0, 1⟩ .Cached, .finish_run 0 true 5]

def half_pair : ExpertStore := half_pair_ops.foldl ExpertStore.apply pair_store

theorem half_pair_reachable : LTS.Reachable store_system half_pair := by
  refine ⟨pair_store, half_pair_ops, ⟨{}, _, _, _, _, pair_store_init⟩, ?_⟩
  rw [store_system, LTS.run_ofNext_iff]
  rfl

/-- One expert Resident and pinned, one Filling, the other slots free. -/
def busy_ops : List Op :=
  [.begin_fill_synthetic ⟨0, 5⟩ .Cached, .finish_run 0 true 7, .pin ⟨0, 5⟩,
    .begin_fill_synthetic ⟨0, 2⟩ .Cached]

def busy_store : ExpertStore := busy_ops.foldl ExpertStore.apply small_store

theorem busy_store_reachable : LTS.Reachable store_system busy_store := by
  refine ⟨small_store, busy_ops, ⟨{}, _, _, _, _, small_store_init⟩, ?_⟩
  rw [store_system, LTS.run_ofNext_iff]
  rfl

theorem store_tables_agree_busy :
    slots_with busy_store (fun s => s.state = .Resident ∧ s.tier = .Pinned) = 1 ∧
      busy_store.table (busy_store.table_index ⟨0, 5⟩ .W2Weight) = 2 ^ 32 + 6266880 := by
  have h := store_tables_agree busy_store_reachable
  constructor
  · rw [← h.2.2.2.2.2.2]
    decide +kernel
  · rw [((h.2.2.1 ⟨0, 5⟩ (by decide)).2 0 (by decide) (by decide) .W2Weight).1]
    decide +kernel

end CachedMoe.Store
