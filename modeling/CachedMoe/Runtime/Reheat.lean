import CachedMoe.Runtime.ExpertCacheState
import CachedMoe.Store.Backfill

/-! # Reheat

    `Engine::reheat` of `runtime/engine.cpp` with `decay_heat` and `heat_order` of
    `store/expert_store.cpp`: at the end of a turn the coldest experts make room for experts of
    the static order that are not resident, and the backfill reads these.

    "Fill the free slots first; when there are none, reclaim the tail." The number to reclaim is
    counted beside the free slots, not after them. -/

namespace CachedMoe.Runtime

open CachedMoe Store ExpertStore

/-! ### The heat order -/

/-- The slot of a held expert. -/
def slot_for (st : ExpertStore) (key : ExpertKey) : Option ExpertSlot :=
  (st.index key).map st.slots

/-- The comparison of `heat_order`, as an order. -/
def hotter_first (a b : ExpertSlot) : Bool :=
  if a.heat ≠ b.heat then decide (a.heat > b.heat)
  else if a.key.layer ≠ b.key.layer then decide (a.key.layer < b.key.layer)
  else decide (a.key.expert ≤ b.key.expert)

/-- The Residents that are not pinned, the hottest first. -/
def heat_order (st : ExpertStore) : List ExpertKey :=
  let live := ((List.range st.slots_size).map st.slots).filter fun s =>
    s.state = .Resident && s.tier ≠ .Pinned
  (live.mergeSort hotter_first).map ExpertSlot.key

/-- `slot_for(key)->heat`. -/
def heat_of (st : ExpertStore) (key : ExpertKey) : ℚ := ((slot_for st key).getD {}).heat

/-- `max(0.05, 0.1 * head)`, where `head` is the heat of the hottest. -/
def floor_heat (st : ExpertStore) : ℚ :=
  let head := match heat_order st with
    | [] => 0
    | key :: _ => heat_of st key
  max (1 / 20) (1 / 10 * head)

/-- The prefix of the order at or above the floor. -/
def warm_head (st : ExpertStore) : Nat :=
  ((heat_order st).takeWhile fun key => decide (heat_of st key ≥ floor_heat st)).length

/-! ### The pass -/

structure HeatOrder where
  slots : Nat := 0
  warm : Nat := 0
  evicted : Nat := 0
  passed : Nat := 0
  free_slots : Nat := 0
  turn : Nat := 0
  decay : ℚ := 1
  deriving DecidableEq

/-- What `reheat` uses of `Engine`. -/
structure Reheater where
  gpu_ready : Bool := false
  reheat_turn : Nat := 0
  /-- `heat_order_`, empty until it is asked for. -/
  heat_order_ : List ExpertKey := []
  /-- `static_heat_order(heat_file)`, where the environment names a file. -/
  heat_file : Option (List ExpertKey) := none
  static_heat_order : List ExpertKey := []
  planner : Backfills

namespace Reheater

def ensure_heat_order (e : Reheater) : Reheater :=
  if e.heat_order_ ≠ [] then e
  else
    let order := e.heat_file.getD []
    { e with heat_order_ := if order = [] then e.static_heat_order else order }

end Reheater

/-- The loop over the static order: the first `limit` keys that are not resident. -/
def absent_keys (st : ExpertStore) : (limit : Nat) → List ExpertKey → List ExpertKey
  | 0, _ => []
  | _, [] => []
  | limit + 1, key :: keys =>
    if st.resident key then absent_keys st (limit + 1) keys
    else key :: absent_keys st limit keys

/-- The number to reclaim, before the candidates are known. -/
def reheat_want (free_slots slots warm : Nat) : Nat :=
  min (if free_slots ≠ 0 then free_slots else max 4 (slots / 32)) (slots - warm)

/-- `heat[slots - 1 - i]` for every `i < want`. -/
def coldest (heat : List ExpertKey) (want : Nat) : List ExpertKey :=
  (List.range want).map fun i => heat.getD (heat.length - 1 - i) {}

/-- The number of the keys that `evict_key` evicts, and the store after them. -/
@[grind =] def evict_keys : List ExpertKey → ExpertStore → Nat × ExpertStore
  | [], st => (0, st)
  | key :: keys, st =>
    match st.evict_key key with
    | (.ok (), st) => ((evict_keys keys st).1 + 1, (evict_keys keys st).2)
    | (.error _, st) => evict_keys keys st

namespace Reheater

def reheat (e : Reheater) (decay : ℚ) : Result HeatOrder × Reheater :=
  if e.gpu_ready = false then (fail .FailedPrecondition "call init_gpu() first", e)
  else if decay < 0 ∨ decay > 1 then
    (fail .InvalidArgument s!"reheat decay {decay} outside [0, 1]", e)
  else
    let turn := (e.reheat_turn + 1) % 2 ^ 32
    let free_slots := e.planner.store.free_slots
    let st := e.planner.store.decay_heat decay
    let heat := heat_order st
    let warm := warm_head st
    let want := reheat_want free_slots heat.length warm
    let e := e.ensure_heat_order
    let order := absent_keys st (want + free_slots) e.heat_order_
    let want := if free_slots ≥ order.length then 0 else min want (order.length - free_slots)
    let (evicted, st) := evict_keys (coldest heat want) st
    let order := order.take (free_slots + evicted)
    let e := { e with reheat_turn := turn, planner := { e.planner with store := st } }
    let out := {
      slots := heat.length, warm, evicted, passed := order.length, free_slots, turn, decay }
    if order = [] then (.ok out, e)
    else
      (if order.length ≥ kDemandStampBase then
          fail .InvalidArgument "backfill order is longer than its stamp space"
        else .ok out, { e with planner := e.planner.start_backfill order 2 true })

end Reheater

/-! ### Orders -/

variable {st st' : ExpertStore} {key : ExpertKey} {keys : List ExpertKey}

/-- What follows the longest prefix of an ordered list is all that `p` does not hold of. -/
theorem drop_takeWhile {α : Type} {p : α → Bool} {l : List α}
    (h : l.Pairwise fun a b => p b = true → p a = true) :
    l.drop (l.takeWhile p).length = l.filter fun a => !p a := by
  induction l with
  | nil => rfl
  | cons a l ih =>
    rw [List.pairwise_cons] at h
    cases ha : p a with
    | true => simp [ha, ih h.2]
    | false =>
      have hall : ∀ b ∈ l, p b = false := by
        intro b hb
        by_contra hp
        rw [h.1 b hb (by simpa using hp)] at ha
        cases ha
      rw [List.takeWhile_cons_of_neg (by simp [ha]), List.filter_cons_of_pos (by simp [ha])]
      simpa using (List.filter_eq_self.mpr fun b hb => by simp [hall b hb]).symm

theorem coldest_eq {heat : List ExpertKey} {want : Nat} (h : want ≤ heat.length) :
    coldest heat want = heat.reverse.take want := by
  refine List.ext_getElem (by simp [coldest, h]) fun i hi hi' => ?_
  have hlt : i < want := by simpa [coldest] using hi
  rw [List.getElem_take, List.getElem_reverse]
  simp only [coldest, List.getElem_map, List.getElem_range]
  rw [List.getD_eq_getElem?_getD, List.getElem?_eq_getElem (by omega), Option.getD_some]

theorem absent_keys_eq (st : ExpertStore) (limit : Nat) (keys : List ExpertKey) :
    absent_keys st limit keys = (keys.filter fun key => !st.resident key).take limit := by
  induction keys generalizing limit with
  | nil => cases limit <;> rfl
  | cons key keys ih =>
    cases limit with
    | zero => rfl
    | succ limit =>
      rw [absent_keys]
      cases hres : st.resident key with
      | true => simp [hres, ih]
      | false => simp [hres, ih]

/-! ### Slots -/

theorem slot_for_eq {i : Nat} (h : st.index key = some i) :
    slot_for st key = some (st.slots i) := by
  rw [slot_for, h]
  rfl

theorem resident_eq (st : ExpertStore) (key : ExpertKey) :
    st.resident key = (slot_for st key).any fun s => decide (s.state = .Resident) := by
  unfold ExpertStore.resident slot_for
  cases st.index key with
  | none => rfl
  | some i => rfl

theorem mem_heat_order (hinv : Inv st) : key ∈ heat_order st ↔
    ∃ s, slot_for st key = some s ∧ s.state = .Resident ∧ s.tier ≠ .Pinned := by
  have hmem : key ∈ heat_order st ↔ key ∈ saved_keys st := by
    simp only [heat_order, saved_keys, saved_slots, List.mem_map, List.mem_mergeSort]
  rw [hmem, mem_saved_keys]
  constructor
  · rintro ⟨i, hi, rfl, hres, htier⟩
    exact ⟨_, slot_for_eq (resident_index hinv hi hres), hres, htier⟩
  · rintro ⟨s, hs, hres, htier⟩
    obtain ⟨i, hindex, rfl⟩ := Option.map_eq_some_iff.mp hs
    obtain ⟨hi, -, hkey⟩ := (hinv.index key i).mp hindex
    exact ⟨i, hi, hkey, hres, htier⟩

theorem nodup_heat_order (hinv : Inv st) : (heat_order st).Nodup := by
  refine List.pairwise_map.mpr ?_
  exact ((List.mergeSort_perm (saved_slots st) hotter_first).pairwise_iff fun hab => hab.symm).mpr
    (saved_slots_distinct hinv)

theorem hotter_first_iff (a b : ExpertSlot) : hotter_first a b = true ↔
    b.heat < a.heat ∨ a.heat = b.heat ∧ (a.key.layer < b.key.layer ∨
      a.key.layer = b.key.layer ∧ a.key.expert ≤ b.key.expert) := by
  unfold hotter_first
  split
  next hne => simp [hne]
  next heq =>
    rw [not_not] at heq
    split
    next hne => simp [heq, hne]
    next heq' =>
      rw [not_not] at heq'
      simp [heq, heq']

theorem heat_order_falls (hinv : Inv st) :
    (heat_order st).Pairwise fun a b => heat_of st b ≤ heat_of st a := by
  have hsorted : ((saved_slots st).mergeSort hotter_first).Pairwise fun a b =>
      hotter_first a b = true := by
    apply List.pairwise_mergeSort
    · intro a b c hab hbc
      rw [hotter_first_iff] at hab hbc ⊢
      rcases hab with hab | ⟨hab, hab'⟩
      · rcases hbc with hbc | ⟨hbc, -⟩
        · exact .inl (hbc.trans hab)
        · exact .inl (hbc ▸ hab)
      · rcases hbc with hbc | ⟨hbc, hbc'⟩
        · exact .inl (hab ▸ hbc)
        · refine .inr ⟨hab.trans hbc, ?_⟩
          grind
    · intro a b
      rw [Bool.or_eq_true, hotter_first_iff, hotter_first_iff]
      rcases lt_trichotomy a.heat b.heat with h | h | h
      · exact .inr (.inl h)
      · grind
      · exact .inl (.inl h)
  have hheat : ∀ s ∈ (saved_slots st).mergeSort hotter_first, heat_of st s.key = s.heat := by
    intro s hs
    obtain ⟨i, hi, rfl, hres, -⟩ := mem_saved_slots.mp (List.mem_mergeSort.mp hs)
    rw [heat_of, slot_for_eq (resident_index hinv hi hres)]
    rfl
  refine List.pairwise_map.mpr (hsorted.imp_of_mem fun ha hb hab => ?_)
  rw [hheat _ ha, hheat _ hb]
  rcases (hotter_first_iff _ _).mp hab with hlt | ⟨heq, -⟩
  · exact hlt.le
  · exact heq.ge

/-- The experts the pass may reclaim, the coldest last. -/
def cold_keys (st : ExpertStore) : List ExpertKey :=
  (heat_order st).filter fun key => decide (heat_of st key < floor_heat st)

theorem drop_warm_head (hinv : Inv st) :
    (heat_order st).drop (warm_head st) = cold_keys st := by
  unfold warm_head cold_keys
  rw [drop_takeWhile]
  · refine List.filter_congr fun key _ => ?_
    rw [← decide_not, decide_eq_decide, not_le]
  · refine (heat_order_falls hinv).imp fun hle hb => ?_
    exact decide_eq_true (le_trans (of_decide_eq_true hb) hle)

/-! ### Evictions -/

/-- `evict_key` evicts the expert. -/
def can_evict (st : ExpertStore) (key : ExpertKey) : Bool :=
  !st.fixed_cache && (slot_for st key).any st.is_evictable

/-- What an eviction of the expert leaves as it was. -/
structure EvictedKey (st st' : ExpertStore) (key : ExpertKey) : Prop where
  inv : Inv st'
  slot : ∀ k, k ≠ key → slot_for st' k = slot_for st k
  gone : slot_for st' key = none
  can : ∀ k, k ≠ key → can_evict st' k = can_evict st k
  evictions : st'.stats.evictions = st.stats.evictions + 1

theorem evict_key_ok (hinv : Inv st) (h : can_evict st key = true) :
    (st.evict_key key).1 = .ok () ∧ EvictedKey st (st.evict_key key).2 key := by
  unfold can_evict at h
  rw [Bool.and_eq_true, Bool.not_eq_true'] at h
  obtain ⟨hfixed, hany⟩ := h
  cases hindex : st.index key with
  | none =>
    rw [slot_for, hindex] at hany
    cases hany
  | some i =>
    rw [slot_for_eq hindex, Option.any_some] at hany
    obtain ⟨hlt, -, hkey⟩ := (hinv.index key i).mp hindex
    have hev := hany
    simp only [is_evictable, Bool.and_eq_true, decide_eq_true_eq] at hev
    obtain ⟨⟨hres, hpin⟩, hguard⟩ := hev
    have hevict : st.evict_key key = (.ok (), st.recycle i) := by
      unfold ExpertStore.evict_key ExpertStore.evict
      rw [hindex]
      simp [hfixed, not_le.mpr hlt, hres, hpin, not_lt.mpr hguard]
    have hrec := recycled st i
    -- another expert has another slot
    have hslot : ∀ k, k ≠ key → slot_for (st.recycle i) k = slot_for st k := by
      intro k hk
      unfold slot_for
      rw [hrec.index, hkey, Function.update_of_ne hk]
      cases hk' : st.index k with
      | none => rfl
      | some j =>
        have hj : j ≠ i := by
          rintro rfl
          exact hk (((hinv.index k j).mp hk').2.2.symm.trans hkey)
        exact congrArg some (hrec.other j hj)
    rw [hevict]
    refine ⟨rfl, (recycle_move hlt hfixed hany).inv hinv, hslot, ?_, ?_, ?_⟩
    · rw [slot_for, hrec.index, hkey, Function.update_self]
      rfl
    · intro k hk
      unfold can_evict
      rw [hslot k hk, hrec.fixed]
      rfl
    · rfl

/-- A refused eviction leaves every expert where it was. -/
theorem evict_key_refused (h : can_evict st key = false) :
    (∃ e, (st.evict_key key).1 = .error e) ∧ ∃ blocked : Nat, (st.evict_key key).2 =
      { st with stats := { st.stats with eviction_blocked_by_guard := blocked } } := by
  have hsame : st = { st with stats := { st.stats with
      eviction_blocked_by_guard := st.stats.eviction_blocked_by_guard } } := rfl
  unfold ExpertStore.evict_key
  cases hindex : st.index key with
  | none => exact ⟨⟨_, rfl⟩, _, hsame⟩
  | some i =>
    dsimp only
    unfold ExpertStore.evict
    dsimp only
    split
    · exact ⟨⟨_, rfl⟩, _, hsame⟩
    next hfixed =>
    split
    · exact ⟨⟨_, rfl⟩, _, hsame⟩
    split
    · exact ⟨⟨_, rfl⟩, _, hsame⟩
    next hres =>
    split
    · exact ⟨⟨_, rfl⟩, _, hsame⟩
    next hpin =>
    split
    · exact ⟨⟨_, rfl⟩, _, rfl⟩
    next hguard =>
    -- nothing protects the expert
    unfold can_evict at h
    rw [slot_for_eq hindex, Option.any_some] at h
    simp [is_evictable, hfixed, not_not.mp hres, hpin, not_lt.mp hguard] at h

/-- What the evictions of `keys` leave. -/
structure EvictedKeys (st st' : ExpertStore) (keys : List ExpertKey) (n : Nat) : Prop where
  slot : ∀ k, slot_for st' k = if k ∈ keys ∧ can_evict st k = true then none else slot_for st k
  count : n = keys.countP (can_evict st)
  evictions : st'.stats.evictions = st.stats.evictions + n

theorem evict_keys_spec (hinv : Inv st) (hnodup : keys.Nodup) :
    EvictedKeys st (evict_keys keys st).2 keys (evict_keys keys st).1 := by
  induction keys generalizing st with
  | nil => exact ⟨fun k => by simp [evict_keys], rfl, rfl⟩
  | cons key keys ih =>
    rw [List.nodup_cons] at hnodup
    obtain ⟨hnew, hnodup⟩ := hnodup
    have hinv' : Inv (st.evict_key key).2 := hinv.apply (.evict_key key)
    -- an eviction changes nothing for the keys behind it
    cases hcan : can_evict st key with
    | true =>
      obtain ⟨hok, hkey⟩ := evict_key_ok hinv hcan
      obtain ⟨hslot, hcount, hevictions⟩ := ih hinv' hnodup
      have hrun : evict_keys (key :: keys) st = ((evict_keys keys (st.evict_key key).2).1 + 1,
          (evict_keys keys (st.evict_key key).2).2) := by
        rw [evict_keys]
        generalize st.evict_key key = res at hok
        obtain ⟨r, st₁⟩ := res
        cases hok
        rfl
      rw [hrun]
      refine ⟨fun k => ?_, ?_, ?_⟩
      · rw [hslot]
        by_cases hk : k = key
        · subst hk
          rw [if_neg (by simp [hnew]), if_pos ⟨List.mem_cons_self, hcan⟩, hkey.gone]
        · rw [hkey.can k hk, hkey.slot k hk]
          simp [hk]
      · rw [List.countP_cons_of_pos hcan, hcount]
        refine congrArg (· + 1) (List.countP_congr fun k hk => ?_)
        rw [hkey.can k (ne_of_mem_of_not_mem hk hnew)]
      · rw [hevictions, hkey.evictions]
        omega
    | false =>
      obtain ⟨⟨e, herror⟩, blocked, hsame⟩ := evict_key_refused hcan
      obtain ⟨hslot, hcount, hevictions⟩ := ih hinv' hnodup
      have hrun : evict_keys (key :: keys) st = evict_keys keys (st.evict_key key).2 := by
        rw [evict_keys]
        generalize st.evict_key key = res at herror
        obtain ⟨r, st₁⟩ := res
        cases herror
        rfl
      have hslots : ∀ k, slot_for (st.evict_key key).2 k = slot_for st k := by
        rw [hsame]
        exact fun k => rfl
      have hcans : ∀ k, can_evict (st.evict_key key).2 k = can_evict st k := by
        rw [hsame]
        exact fun k => rfl
      rw [hrun]
      refine ⟨fun k => ?_, ?_, ?_⟩
      · rw [hslot, hcans, hslots]
        by_cases hk : k = key
        · subst hk
          rw [if_neg (by simp [hnew]), if_neg (by simp [hcan])]
        · simp [hk]
      · rw [List.countP_cons_of_neg (by simp [hcan]), hcount]
        exact List.countP_congr fun k _ => by rw [hcans]
      · rw [hevictions, hsame]

/-! ### The decay -/

theorem decay_heat_resident (st : ExpertStore) (decay : ℚ) (key : ExpertKey) :
    (st.decay_heat decay).resident key = st.resident key := by
  unfold ExpertStore.decay_heat
  split
  · rfl
  split
  · rfl
  · rfl

theorem decay_heat_stats (st : ExpertStore) (decay : ℚ) :
    (st.decay_heat decay).stats = st.stats := by
  unfold ExpertStore.decay_heat
  split
  · rfl
  split
  · rfl
  · rfl

theorem decay_heat_free_list (st : ExpertStore) (decay : ℚ) :
    (st.decay_heat decay).free_list = st.free_list := by
  unfold ExpertStore.decay_heat
  split
  · rfl
  split
  · rfl
  · rfl

theorem free_add_heat_le (hinv : Inv st) :
    st.free_list.length + (heat_order st).length ≤ st.slots_size := by
  have hlive : (heat_order st).length = ((List.range st.slots_size).filter fun i =>
      (st.slots i).state = .Resident && (st.slots i).tier ≠ .Pinned).length := by
    rw [heat_order, List.length_map, List.length_mergeSort, List.filter_map, List.length_map]
    rfl
  have hfree : st.free_list.length ≤ ((List.range st.slots_size).filter fun i =>
      !((st.slots i).state = .Resident && (st.slots i).tier ≠ .Pinned)).length := by
    refine (List.subperm_of_subset hinv.free_list.1 fun i hi => ?_).length_le
    obtain ⟨hlt, hstate⟩ := (hinv.free_list.2 i).mp hi
    rw [List.mem_filter, List.mem_range, hstate]
    exact ⟨hlt, rfl⟩
  have hsum := List.length_eq_length_filter_add (l := List.range st.slots_size) fun i =>
    (st.slots i).state = .Resident && (st.slots i).tier ≠ .Pinned
  rw [List.length_range] at hsum
  omega

/-! ### What a pass did -/

namespace Reheater

variable {e : Reheater} {decay : ℚ}

/-- The keys of the static order that are not resident. -/
def missing (e : Reheater) : List ExpertKey :=
  e.ensure_heat_order.heat_order_.filter fun key => !e.planner.store.resident key

/-- The order of the backfill started since. -/
def passed (e e' : Reheater) : List ExpertKey :=
  if e'.planner.backfill_count = e.planner.backfill_count then []
  else (e'.planner.backfills (e'.planner.backfill_count - 1)).order

def evicted (e e' : Reheater) : Nat :=
  e'.planner.store.stats.evictions - e.planner.store.stats.evictions

/-- The number the pass asks `evict_key` for. -/
def reclaim_count (e : Reheater) (decay : ℚ) : Nat :=
  let st := e.planner.store.decay_heat decay
  let free_slots := e.planner.store.free_slots
  let want := reheat_want free_slots (heat_order st).length (warm_head st)
  min want (e.missing.length - free_slots)

theorem ensure_heat_order_planner (e : Reheater) : e.ensure_heat_order.planner = e.planner := by
  unfold ensure_heat_order
  split
  · rfl
  · rfl

theorem coldest_cold {st : ExpertStore} (hinv : Inv st) {n : Nat}
    (hn : n ≤ (heat_order st).length - warm_head st) :
    coldest (heat_order st) n = (cold_keys st).reverse.take n := by
  have hcut := List.take_append_drop (warm_head st) (heat_order st)
  rw [drop_warm_head hinv] at hcut
  have hlen : (cold_keys st).length = (heat_order st).length - warm_head st := by
    rw [← drop_warm_head hinv, List.length_drop]
  rw [coldest_eq (by omega)]
  nth_rewrite 1 [← hcut]
  rw [List.reverse_append, List.take_append_of_le_length (by rw [List.length_reverse]; omega)]

theorem start_backfill_started (s : Backfills) {order : List ExpertKey} (inflight : Nat)
    (keep : Bool) (h : order.length < kDemandStampBase) :
    (s.start_backfill order inflight keep).store = s.store ∧
      (s.start_backfill order inflight keep).backfill_count = s.backfill_count + 1 ∧
      ((s.start_backfill order inflight keep).backfills s.backfill_count).order = order := by
  have hstop : s.stop_backfill.store = s.store ∧
      s.stop_backfill.backfill_count = s.backfill_count := by
    unfold Backfills.stop_backfill
    split
    · exact ⟨rfl, rfl⟩
    · exact ⟨rfl, rfl⟩
  unfold Backfills.start_backfill
  dsimp only
  rw [if_neg (Nat.not_le_of_lt h)]
  refine ⟨hstop.1, congrArg (· + 1) hstop.2, ?_⟩
  simp only [Backfills.spawn, Backfills.set_backfill]
  rw [hstop.2, Function.update_self]

/-- A pass that goes through: the coldest experts are asked for, and the missing keys that there
    is room for are passed. -/
theorem reheat_ran (hinv : Inv e.planner.store) (hready : e.gpu_ready = true) (hlo : 0 ≤ decay)
    (hhi : decay ≤ 1) :
    let st := e.planner.store.decay_heat decay
    let keys := (cold_keys st).reverse.take (e.reclaim_count decay)
    EvictedKeys st (e.reheat decay).2.planner.store keys (e.evicted (e.reheat decay).2) ∧
      e.passed (e.reheat decay).2 =
        e.missing.take (e.planner.store.free_slots + e.evicted (e.reheat decay).2) := by
  intro st keys
  have hinv' : Inv st := hinv.apply (.decay_heat decay)
  have hfree : e.planner.store.free_slots ≤ st.free_list.length := by
    rw [decay_heat_free_list]
    exact Nat.mod_le _ _
  have hroom := free_add_heat_le hinv'
  have hslots : st.slots_size < 2 ^ 32 := hinv'.placed.slots_size_lt
  have hspec : EvictedKeys st (evict_keys keys st).2 keys (evict_keys keys st).1 := by
    refine evict_keys_spec hinv' ((List.take_sublist _ _).nodup ?_)
    exact List.nodup_reverse.mpr ((nodup_heat_order hinv').filter _)
  have hmissing : ∀ limit, absent_keys st limit e.ensure_heat_order.heat_order_ =
      e.missing.take limit := by
    intro limit
    rw [absent_keys_eq]
    exact congrArg (List.take limit) (List.filter_congr fun key _ => by rw [decay_heat_resident])
  generalize hwant : reheat_want e.planner.store.free_slots (heat_order st).length
    (warm_head st) = want
  have hreclaim : e.reclaim_count decay =
      min want (e.missing.length - e.planner.store.free_slots) := by
    rw [← hwant]
    rfl
  -- the number to reclaim is the lesser of the two bounds
  have hnumber : (if e.planner.store.free_slots ≥
        (e.missing.take (want + e.planner.store.free_slots)).length then 0
      else min want ((e.missing.take (want + e.planner.store.free_slots)).length -
        e.planner.store.free_slots)) = e.reclaim_count decay := by
    rw [hreclaim, List.length_take]
    split <;> omega
  have hwarm : want ≤ (heat_order st).length - warm_head st := by
    rw [← hwant]
    exact Nat.min_le_right _ _
  have hle : e.reclaim_count decay ≤ want := by
    rw [hreclaim]
    exact Nat.min_le_left _ _
  have hcount : (evict_keys keys st).1 ≤ e.reclaim_count decay := by
    rw [hspec.count]
    exact List.countP_le_length.trans (List.length_take_le _ _)
  have hrun : (e.reheat decay).2.planner.store = (evict_keys keys st).2 ∧
      e.passed (e.reheat decay).2 =
        e.missing.take (e.planner.store.free_slots + (evict_keys keys st).1) := by
    have horder : ((e.missing.take (want + e.planner.store.free_slots)).take
          (e.planner.store.free_slots + (evict_keys keys st).1)) =
        e.missing.take (e.planner.store.free_slots + (evict_keys keys st).1) := by
      rw [List.take_take, Nat.min_eq_left (by omega)]
    have hshort : (e.missing.take (e.planner.store.free_slots + (evict_keys keys st).1)).length <
        kDemandStampBase := by
      refine Nat.lt_of_le_of_lt (List.length_take_le _ _) ?_
      show _ < 2 ^ 32
      omega
    unfold reheat
    rw [if_neg (by simp [hready]), if_neg (by simp [hlo, hhi])]
    dsimp only
    rw [hwant, hmissing, hnumber, coldest_cold hinv' (hle.trans hwarm)]
    generalize evict_keys keys st = res at horder hshort ⊢
    obtain ⟨n, st'⟩ := res
    dsimp only at horder hshort ⊢
    simp only [horder]
    split
    next hnil =>
      refine ⟨rfl, ?_⟩
      rw [hnil, passed, if_pos]
      rw [ensure_heat_order_planner]
    next hsome =>
      rw [if_neg (Nat.not_le_of_lt hshort)]
      rw [ensure_heat_order_planner]
      obtain ⟨hstore, hnumber, hgiven⟩ := start_backfill_started
        { e.planner with store := st' } 2 true hshort
      refine ⟨hstore, ?_⟩
      rw [passed]
      dsimp only
      rw [hnumber, if_neg (Nat.succ_ne_self _), Nat.add_sub_cancel]
      exact hgiven
  have hevicted : e.evicted (e.reheat decay).2 = (evict_keys keys st).1 := by
    rw [evicted, hrun.1, hspec.evictions, decay_heat_stats, Nat.add_sub_cancel_left]
  rw [hevicted, hrun.1, hrun.2]
  exact ⟨hspec, rfl⟩

/-- What the backfill never costs: an eviction while a slot is free, an expert that is wanted, a
    hole that no missing expert fills. -/
structure Bounded (e e' : Reheater) (decay : ℚ) : Prop where
  free_first : e.planner.store.free_slots ≠ 0 →
    ∀ key, e.planner.store.resident key = true → e'.planner.store.resident key = true
  cold : ∀ key, e.planner.store.resident key = true → e'.planner.store.resident key = false →
    let st := e.planner.store.decay_heat decay
    ∃ s, slot_for st key = some s ∧ s.tier ≠ .Pinned ∧ s.heat < floor_heat st
  filled : e.evicted e' ≤ (e.passed e').length
  absent : ∀ key ∈ e.passed e',
    e.planner.store.resident key = false ∧ e'.planner.store.resident key = false
  room : (e.passed e').length ≤ e.planner.store.free_slots + e.evicted e'

/-- Where slots are free and more experts are missing than fit in them, nothing can be evicted
    among the coldest. -/
def Quiet (e : Reheater) (decay : ℚ) : Prop :=
  let st := e.planner.store.decay_heat decay
  let free_slots := e.planner.store.free_slots
  free_slots = 0 ∨
    ∀ key ∈ (cold_keys st).reverse.take (min free_slots (e.missing.length - free_slots)),
      can_evict st key = false

theorem resident_of_mem_heat_order {st : ExpertStore} (hinv : Inv st) {key : ExpertKey}
    (h : key ∈ heat_order st) : st.resident key = true := by
  obtain ⟨s, hs, hres, -⟩ := (mem_heat_order hinv).mp h
  rw [resident_eq, hs]
  simp [hres]

/-- What a pass loses are experts it evicted. -/
theorem evicted_of_lost {st st' : ExpertStore} {keys : List ExpertKey} {n : Nat}
    (h : EvictedKeys st st' keys n) {key : ExpertKey} :
    st'.resident key = (st.resident key && !(decide (key ∈ keys) && can_evict st key)) := by
  rw [resident_eq, resident_eq, h.slot]
  by_cases hkey : key ∈ keys
  · cases hcan : can_evict st key with
    | true => simp [hkey]
    | false => simp [hkey]
  · simp [hkey]

/-- With a slot free, as many of the coldest are asked for as there are free slots, unless fewer
    experts are missing beyond those. -/
theorem reclaimed_of_free (hinv : Inv e.planner.store) (hfree : e.planner.store.free_slots ≠ 0) :
    let st := e.planner.store.decay_heat decay
    (cold_keys st).reverse.take (e.reclaim_count decay) = (cold_keys st).reverse.take
      (min e.planner.store.free_slots (e.missing.length - e.planner.store.free_slots)) := by
  intro st
  have hinv' : Inv st := hinv.apply (.decay_heat decay)
  have hlen : (cold_keys st).reverse.length = (heat_order st).length - warm_head st := by
    rw [List.length_reverse, ← drop_warm_head hinv', List.length_drop]
  have hcount : e.reclaim_count decay = min (min e.planner.store.free_slots
      (e.missing.length - e.planner.store.free_slots)) (cold_keys st).reverse.length := by
    rw [hlen, Nat.min_right_comm]
    unfold reclaim_count reheat_want
    dsimp only
    rw [if_pos hfree]
  rw [hcount]
  exact List.take_eq_take_min.symm

/-- A pass over a store whose books agree. -/
theorem ran_bounded_iff (hinv : Inv e.planner.store) (hready : e.gpu_ready = true) (hlo : 0 ≤ decay)
    (hhi : decay ≤ 1) : e.Bounded (e.reheat decay).2 decay ↔ e.Quiet decay := by
  obtain ⟨hkeys, hpassed⟩ := reheat_ran hinv hready hlo hhi
  have hinv' : Inv (e.planner.store.decay_heat decay) := hinv.apply (.decay_heat decay)
  generalize (e.reheat decay).2 = e' at hkeys hpassed ⊢
  have hafter : ∀ key, e'.planner.store.resident key = _ := fun key => evicted_of_lost hkeys
  simp only [decay_heat_resident] at hafter
  have hcount : e.evicted e' ≤ e.missing.length - e.planner.store.free_slots := by
    rw [hkeys.count]
    exact (List.countP_le_length.trans (List.length_take_le _ _)).trans (Nat.min_le_right _ _)
  constructor
  · intro h
    refine or_iff_not_imp_left.mpr fun hfree key hkey => ?_
    rw [← reclaimed_of_free hinv hfree] at hkey
    -- an expert that could be evicted would be lost
    by_contra hcan
    rw [Bool.not_eq_false] at hcan
    have hcold : key ∈ cold_keys (e.planner.store.decay_heat decay) :=
      List.mem_reverse.mp (List.mem_of_mem_take hkey)
    have hres := resident_of_mem_heat_order hinv' (List.mem_of_mem_filter hcold)
    rw [decay_heat_resident] at hres
    have hkept := h.free_first hfree key hres
    rw [hafter, hres, hcan, decide_eq_true hkey] at hkept
    cases hkept
  · intro h
    refine ⟨fun hfree key hres => ?_, fun key hres hgone => ?_, ?_, fun key hkey => ?_, ?_⟩
    · rw [hafter, hres, Bool.true_and, Bool.not_eq_true']
      refine Bool.and_eq_false_imp.mpr fun hkey => ?_
      rw [decide_eq_true_eq, reclaimed_of_free hinv hfree] at hkey
      exact h.resolve_left hfree key hkey
    · rw [hafter, hres, Bool.true_and, Bool.not_eq_false', Bool.and_eq_true, decide_eq_true_eq]
        at hgone
      have hcold := List.mem_filter.mp (List.mem_reverse.mp (List.mem_of_mem_take hgone.1))
      obtain ⟨s, hs, -, htier⟩ := (mem_heat_order hinv').mp hcold.1
      refine ⟨s, hs, htier, ?_⟩
      have hheat := of_decide_eq_true hcold.2
      rwa [heat_of, hs] at hheat
    · rw [hpassed, List.length_take]
      omega
    · rw [hpassed] at hkey
      have habsent := (List.mem_filter.mp (List.mem_of_mem_take hkey)).2
      rw [Bool.not_eq_true'] at habsent
      exact ⟨habsent, by rw [hafter, habsent, Bool.false_and]⟩
    · rw [hpassed]
      exact List.length_take_le _ _

/-- A refused call does nothing. -/
theorem bounded_refl (e : Reheater) (decay : ℚ) : e.Bounded e decay where
  free_first _ _ hres := hres
  cold key hres hgone := by
    rw [hres] at hgone
    cases hgone
  filled := by simp [evicted]
  absent key hkey := by simp [passed] at hkey
  room := by simp [passed]

theorem reheat_refused (h : ¬ (e.gpu_ready = true ∧ 0 ≤ decay ∧ decay ≤ 1)) :
    (e.reheat decay).2 = e := by
  unfold reheat
  split
  · rfl
  next hready =>
  split
  · rfl
  next hdecay =>
    rw [not_or, not_lt, not_lt] at hdecay
    exact absurd ⟨by simpa using hready, hdecay⟩ h

/-- A reheat is bounded exactly when it is refused, or no slot is free, or no more experts are
    missing than there are free slots, or none of the coldest ones can be evicted. -/
theorem reheat_bounded (hreach : LTS.Reachable store_system e.planner.store) (decay : ℚ) :
    e.Bounded (e.reheat decay).2 decay ↔
      (e.gpu_ready = true → 0 ≤ decay → decay ≤ 1 → e.Quiet decay) := by
  by_cases hrun : e.gpu_ready = true ∧ 0 ≤ decay ∧ decay ≤ 1
  · rw [ran_bounded_iff (reachable_inv hreach) hrun.1 hrun.2.1 hrun.2.2]
    exact ⟨fun h _ _ _ => h, fun h => h hrun.1 hrun.2.1 hrun.2.2⟩
  · rw [reheat_refused hrun]
    exact ⟨fun _ hready hlo hhi => absurd ⟨hready, hlo, hhi⟩ hrun, fun _ => e.bounded_refl decay⟩

/-! #### One of two slots free -/

/-- Two slots, one of them with an expert nobody has asked for. -/
def one_cold_ops : List Op := [.begin_fill_synthetic ⟨0, 1⟩ .Cached, .finish_run 0 true 5]

def two_slots : ExpertStore :=
  (ExpertStore.init {} (some host_backing)
    { slots_per_slab := 1, budget_bytes := 2 * layout.kExpertSlotBytes } 1 8).2

theorem two_slots_init :
    ExpertStore.init {} (some host_backing)
      { slots_per_slab := 1, budget_bytes := 2 * layout.kExpertSlotBytes } 1 8 =
      (.ok (), two_slots) :=
  rfl

def one_cold : ExpertStore := one_cold_ops.foldl ExpertStore.apply two_slots

theorem one_cold_reachable : LTS.Reachable store_system one_cold := by
  refine ⟨two_slots, one_cold_ops, ⟨_, _, _, _, _, two_slots_init⟩, ?_⟩
  rw [store_system, LTS.run_ofNext_iff]
  rfl

/-- The static order has `missing` besides. -/
def reheats (missing : List ExpertKey) : Reheater :=
  { gpu_ready := true
    heat_order_ := missing
    planner := { store := one_cold, manifest := fun _ => fail .NotFound "no such expert" } }

/-- With one more expert missing than there are free slots, the cold one is evicted. -/
theorem evicted_beside_free :
    (reheats [⟨0, 2⟩, ⟨0, 3⟩]).planner.store.free_slots = 1 ∧
      ¬ (reheats [⟨0, 2⟩, ⟨0, 3⟩]).Bounded ((reheats [⟨0, 2⟩, ⟨0, 3⟩]).reheat (1 / 2)).2
        (1 / 2) := by
  refine ⟨by decide, fun h => ?_⟩
  have hkept := h.free_first (by decide) ⟨0, 1⟩ (by decide)
  exact absurd hkept (by decide +kernel)

/-- Both slots taken: by the cold expert and by a pinned one. -/
def full_ops : List Op :=
  one_cold_ops ++ [.begin_fill_synthetic ⟨0, 4⟩ .Cached, .finish_run 1 true 6, .pin ⟨0, 4⟩]

def full_store : ExpertStore := full_ops.foldl ExpertStore.apply two_slots

theorem full_store_reachable : LTS.Reachable store_system full_store := by
  refine ⟨two_slots, full_ops, ⟨_, _, _, _, _, two_slots_init⟩, ?_⟩
  rw [store_system, LTS.run_ofNext_iff]
  rfl

def full_reheats : Reheater :=
  { reheats [⟨0, 2⟩, ⟨0, 3⟩] with
    planner := { store := full_store, manifest := fun _ => fail .NotFound "no such expert" } }

/-- With no slot free the cold expert makes room for the first of the two that are missing. -/
theorem reheat_bounded_full :
    full_reheats.evicted (full_reheats.reheat (1 / 2)).2 = 1 ∧
      full_reheats.passed (full_reheats.reheat (1 / 2)).2 = [⟨0, 2⟩] ∧
      (full_reheats.reheat (1 / 2)).2.planner.store.resident ⟨0, 1⟩ = false ∧
      full_reheats.Bounded (full_reheats.reheat (1 / 2)).2 (1 / 2) := by
  refine ⟨by decide +kernel, by decide +kernel, by decide +kernel, ?_⟩
  have hfull : full_reheats.planner.store.free_slots = 0 := by decide
  exact (reheat_bounded (e := full_reheats) full_store_reachable _).mpr fun _ _ _ => .inl hfull

end Reheater

end CachedMoe.Runtime
