import CachedMoe.Framework.System
import CachedMoe.Store.Stream
import Mathlib.Algebra.Order.BigOperators.Group.Finset

/-! # The demand path is an LRU

    `plan_layer` and `wait_layer` of `store/planner.cpp` against the `LRU` of
    `tools/cache_sim.py`. The reference serves one key after the other; the planner looks a
    layer's keys up in the gate's order, but its misses are read in the background and land
    in any order, as late as the end of the layer. While a key is filling it is neither a
    hit nor evictable, and its slot gets the stamp of the moment it was asked for. -/

namespace CachedMoe.Store

open CachedMoe ExpertStore

/-! ### The reference -/

/-- `class LRU`: the keys of the `OrderedDict`, the oldest first. -/
structure LRU where
  capacity : Nat
  od : List ExpertKey := []
  deriving Repr, DecidableEq

namespace LRU

def contains (l : LRU) (key : ExpertKey) : Bool := key ∈ l.od

/-- `move_to_end`. -/
def touch (l : LRU) (key : ExpertKey) : LRU := { l with od := l.od.erase key ++ [key] }

/-- `admit` of a key that is not there, without `probe`. -/
def admit_key (l : LRU) (key : ExpertKey) : LRU :=
  let od := l.od ++ [key]
  { l with od := if od.length > l.capacity then od.tail else od }

/-- One access: a hit is touched, a miss admitted. -/
def access (l : LRU) (key : ExpertKey) : LRU :=
  if l.contains key then l.touch key else l.admit_key key

/-- The accesses of a trace, each with whether it was a hit. -/
def classify (l : LRU) : List ExpertKey → List (ExpertKey × Bool)
  | [] => []
  | key :: keys => (key, l.contains key) :: (l.access key).classify keys

def run (l : LRU) (keys : List ExpertKey) : LRU := keys.foldl access l

theorem run_append (l : LRU) (keys : List ExpertKey) (key : ExpertKey) :
    l.run (keys ++ [key]) = (l.run keys).access key := by
  simp [run]

theorem classify_append (l : LRU) (keys : List ExpertKey) (key : ExpertKey) :
    l.classify (keys ++ [key]) = l.classify keys ++ [(key, (l.run keys).contains key)] := by
  induction keys generalizing l with
  | nil => rfl
  | cons k keys ih => simp [classify, ih, run]

theorem capacity_run (l : LRU) (keys : List ExpertKey) : (l.run keys).capacity = l.capacity := by
  induction keys generalizing l with
  | nil => rfl
  | cons k keys ih =>
    rw [run, List.foldl_cons]
    refine (ih (l.access k)).trans ?_
    unfold access
    split
    · rfl
    · rfl

end LRU

/-! ### State -/

/-- `RouteDecision`: the chosen experts in the gate's order, and the near misses. -/
structure RouteDecision where
  layer : UInt16
  chosen : List UInt16
  near : List (UInt16 × ℚ) := []
  guard_hits : Nat := 0

def RouteDecision.keys (r : RouteDecision) : List ExpertKey :=
  r.chosen.map fun id => ⟨r.layer, id⟩

/-- Where the planner's thread stands. -/
inductive PlanPhase where
  /-- Between two layers. -/
  | idle
  /-- At the loop over the chosen experts. -/
  | keys
  /-- `lookup` has missed. -/
  | missed (key : ExpertKey)
  | slot_of (key : ExpertKey)
  | room (key : ExpertKey)
  | evict (key : ExpertKey)
  | fetch (key : ExpertKey)
  /-- In `fetch`: `begin_fill` found no free slot. -/
  | reclaim (key : ExpertKey)
  | retry (key : ExpertKey)
  /-- In `wait_layer`. -/
  | waiting
  deriving Repr, DecidableEq

/-- A fill whose runs are with the engine. -/
structure InFlight where
  stamp : Nat
  left : Nat
  deriving Repr, DecidableEq

structure Demand where
  store : ExpertStore
  /-- `require_expert`. -/
  manifest : ExpertKey → Result ExpertEntry
  /-- The policy's name is "lru". -/
  lru : Bool := true
  access_clock : Nat := 2 ^ 32
  /-- `plan_layer`'s copy of `fixed_cache()`. -/
  fixed : Bool := false
  phase : PlanPhase := .idle
  /-- The keys of the layer that are not planned yet. -/
  route : List ExpertKey := []
  guard_hits : Nat := 0
  /-- The fills in flight, by slot. -/
  fills : Nat → Option InFlight := fun _ => none
  joined : List (ExpertKey × Nat) := []
  /-- All keys planned so far, with whether they were hits. -/
  plan : List (ExpertKey × Bool) := []
  /-- All keys that were routed so far. -/
  trace : List ExpertKey := []

namespace Demand

/-! ### Steps -/

/-- The loop of `reclaim` over its victims, until `count` are freed. -/
def reclaim_loop (st : ExpertStore) (count freed : Nat) : List Nat → Nat × ExpertStore
  | [] => (freed, st)
  | slot :: victims =>
    if freed ≥ count then (freed, st)
    else
      match st.evict slot with
      | (.ok (), st) => reclaim_loop st count (freed + 1) victims
      | (.error _, st) => reclaim_loop st count freed victims

def reclaim (st : ExpertStore) (count : Nat) : Nat × ExpertStore :=
  if count = 0 then (0, st)
  else
    let candidates := st.evictable
    if candidates = [] then (0, st)
    else reclaim_loop st count 0 (choose_victims candidates (min candidates.length (count * 2)))

/-- `fetch` from `begin_fill` on, with every run taken by the engine. A refusal for want of
    a slot is followed by `reclaim` the first time. -/
def fetched (s : Demand) (key : ExpertKey) (first : Bool) : Demand :=
  match s.manifest key with
  | .error _ => { s with phase := .keys }
  | .ok entry =>
    match s.store.begin_fill key entry .Cached with
    | (.error e, store) =>
      if first ∧ e.code = .ResourceExhausted then { s with store, phase := .reclaim key }
      else { s with store, phase := .keys }
    | (.ok res, store) =>
      let stamp := s.access_clock + 1
      { s with
        store
        access_clock := stamp
        fills := Function.update s.fills res.slot (some { stamp, left := res.run_count })
        phase := .keys }

/-- The next step of `plan_layer`. -/
def plan_step (s : Demand) : Option Demand :=
  match s.phase with
  | .keys =>
    match s.route with
    | [] => some { s with phase := .waiting }
    | key :: route =>
      let clock := if s.fixed then s.access_clock else s.access_clock + 1
      match s.store.lookup key (if s.fixed then 0 else clock) s.guard_hits with
      | (some _, store) =>
        some { s with store, access_clock := clock, route, plan := s.plan ++ [(key, true)] }
      | (none, store) =>
        some { s with
          store, access_clock := clock, route, plan := s.plan ++ [(key, false)]
          phase := .missed key }
  | .missed key =>
    if s.fixed ∧ s.store.free_slots = 0 then some { s with phase := .keys }
    else some { s with phase := .slot_of key }
  | .slot_of key =>
    if (s.store.slot_of key).isSome then
      some { s with
        access_clock := s.access_clock + 1
        joined := s.joined ++ [(key, s.access_clock + 1)]
        phase := .keys }
    else some { s with phase := .room key }
  | .room key =>
    if s.store.free_slots = 0 then some { s with phase := .evict key }
    else some { s with phase := .fetch key }
  | .evict key =>
    let store := if s.lru then s.store.evict_lru.2 else (reclaim s.store 1).2
    some { s with store, phase := .fetch key }
  | .fetch key => some (s.fetched key true)
  | .reclaim key =>
    match reclaim s.store 1 with
    | (0, store) => some { s with store, phase := .keys }
    | (_, store) => some { s with store, phase := .retry key }
  | .retry key => some (s.fetched key false)
  | .idle | .waiting => none

/-- A run of the fill in `slot` has landed. -/
def land (s : Demand) (slot : Nat) (ok : Bool) : Option Demand :=
  match s.fills slot with
  | none => none
  | some f =>
    let fill := if f.left ≤ 1 then none else some { f with left := f.left - 1 }
    some { s with
      store := (s.store.finish_run slot ok f.stamp).2
      fills := Function.update s.fills slot fill }

inductive Action where
  /-- `plan_layer` is called: the near misses warm up, and the loop starts. -/
  | plan_layer (route : RouteDecision)
  | plan
  | land (slot : Nat) (ok : Bool)
  /-- The GPU has completed its work up to `v`. -/
  | complete (v : Nat)
  /-- `wait_layer` returns: all fills of the layer have landed. -/
  | wait_layer

def step (s : Demand) : Action → Option Demand
  | .plan_layer r =>
    if s.phase ≠ .idle then none
    else
      let store := r.near.foldl (fun st n => st.note_heat ⟨r.layer, n.1⟩ n.2 (1 / 8)) s.store
      some { s with
        store
        fixed := s.store.fixed_cache
        phase := .keys
        route := r.keys
        guard_hits := r.guard_hits
        trace := s.trace ++ r.keys }
  | .plan => s.plan_step
  | .land slot ok => s.land slot ok
  | .complete v => some { s with store := s.store.set_completed_timeline v }
  | .wait_layer =>
    if s.phase = .waiting ∧ (∀ i < s.store.slots_size, s.fills i = none) ∧
        ∀ k ∈ s.joined, s.store.wait_settled k.1 then
      some { s with
        store := s.joined.foldl (fun st k => (st.touch k.1 k.2 false).2) s.store
        joined := []
        phase := .idle }
    else none

end Demand

open Demand

/-- Runs start from what a successful `init` leaves of a new store. -/
def demand_system : LTS.System Demand Demand.Action :=
  .ofNext
    (fun s => ∃ backing cache layers experts_per_layer manifest store,
      ExpertStore.init {} backing cache layers experts_per_layer = (.ok (), store) ∧
      s = { store, manifest })
    Demand.step

/-- The manifest lists the expert, with runs that fit a slot. -/
def Listed : Result ExpertEntry → Prop
  | .ok entry => entry.Fits
  | .error _ => False

instance : DecidablePred Listed
  | .ok _ => inferInstanceAs (Decidable (_ ∧ _ ∧ _))
  | .error _ => .isFalse id

theorem Listed.entry {r : Result ExpertEntry} (h : Listed r) :
    ∃ entry, r = .ok entry ∧ entry.Fits := by
  cases r with
  | ok entry => exact ⟨entry, rfl, h⟩
  | error e => exact h.elim

/-- The layers come one after the other, each waited for and its guard completed before the
    next; a route names different experts, no more than there are slots, all of them in the
    manifest; and every read succeeds. -/
def Demand.Orderly (s : Demand) : Demand.Action → Prop
  | .plan_layer r =>
    s.guard_hits ≤ s.store.completed_timeline ∧ r.chosen.Nodup ∧
      r.chosen.length ≤ s.store.slots_size ∧
      ∀ key ∈ r.keys, s.store.key_in_range key ∧ Listed (s.manifest key)
  | .land _ ok => ok = true
  | _ => True

instance (s : Demand) : DecidablePred s.Orderly
  | .plan_layer _ => inferInstanceAs (Decidable (_ ∧ _ ∧ _ ∧ ∀ _ ∈ _, _))
  | .land _ ok => inferInstanceAs (Decidable (ok = true))
  | .plan | .complete _ | .wait_layer => inferInstanceAs (Decidable True)

/-! ### The store and the order of the keys -/

variable {st st' : ExpertStore} {fills : Nat → Option InFlight} {clock guard : Nat}
  {age : ExpertKey → Nat} {old cur : List ExpertKey}

/-- A fill in flight is in the store as the engine sees it: `f.left` runs to go, and no stamp
    or guard yet. -/
structure Landing (s : ExpertSlot) (f : InFlight) (age : Nat) : Prop where
  filling : s.state = .Filling
  stamp : f.stamp = age
  left : 0 < f.left
  runs : s.runs_done + f.left = s.runs_total
  run_failed : s.run_failed = false
  last_use : s.last_use_token = 0
  guard : s.guard_timeline = 0
  tier : s.tier ≠ .Pinned

/-- A key's slot: Resident, stamped with the key's age, or with a fill in flight. -/
def Seated (s : ExpertSlot) (fill : Option InFlight) (age : Nat) : Prop :=
  (s.state = .Resident ∧ s.last_use_token = age ∧ s.tier ≠ .Pinned ∧ fill = none) ∨
    ∃ f, fill = some f ∧ Landing s f age

/-- The store holds the keys `old ++ cur`, the oldest first, where `cur` are those of the
    layer at hand. Each key has an age, and a slot where it is seated. What is older than the
    layer is Resident and can be evicted. -/
structure Matches (st : ExpertStore) (fills : Nat → Option InFlight) (clock guard : Nat)
    (age : ExpertKey → Nat) (old cur : List ExpertKey) : Prop where
  inv : Inv st
  evict_path : st.evict_path = .Off
  fixed : st.fixed_cache = false
  frozen : st.cache_frozen = false
  held : ∀ key, key ∈ old ++ cur ↔ ∃ i, st.index key = some i
  room : st.free_list.length + (old ++ cur).length = st.slots_size
  sorted : (old ++ cur).Pairwise fun k k' => age k < age k'
  ages : ∀ key ∈ old ++ cur, age key ≤ clock
  seated : ∀ key i, st.index key = some i → Seated (st.slots i) (fills i) (age key)
  guards : ∀ key i, st.index key = some i →
    (st.slots i).guard_timeline ≤ max guard st.completed_timeline
  settled : ∀ key ∈ old, ∀ i, st.index key = some i → (st.slots i).state = .Resident ∧
    (st.slots i).guard_timeline ≤ st.completed_timeline
  flights : ∀ i f, fills i = some f → ∃ key, st.index key = some i

/-- A run of a fill in flight lands: one run fewer to go, or the slot is Resident with the
    stamp of the moment it was asked for. -/
theorem Landing.finish_run {i age : Nat} {f : InFlight} (h : Landing (st.slots i) f age)
    (hlt : i < st.slots_size) (hfixed : st.fixed_cache = false) :
    SameSetup st (st.finish_run i true f.stamp).2 ∧
    (st.finish_run i true f.stamp).2.index = st.index ∧
    (st.finish_run i true f.stamp).2.free_list = st.free_list ∧
    Seated ((st.finish_run i true f.stamp).2.slots i)
      (if f.left ≤ 1 then none else some { f with left := f.left - 1 }) age ∧
    ((st.finish_run i true f.stamp).2.slots i).guard_timeline = 0 := by
  have hleft := h.left
  have hruns := h.runs
  unfold ExpertStore.finish_run
  dsimp only
  rw [if_neg (not_le.mpr hlt), if_neg (not_not.mpr h.filling), if_neg (by omega), h.run_failed]
  by_cases hlast : f.left ≤ 1
  · rw [if_neg (by omega), if_pos hlast]
    refine ⟨⟨⟨rfl, rfl, rfl, rfl, le_rfl⟩, rfl, rfl, ?_⟩, rfl, rfl, ?_, ?_⟩
    · simp [settle_locked, set_slot, publish_locked, hfixed]
    · left
      simp [settle_locked, set_slot, publish_locked, settled_slot, h.last_use, h.stamp, h.tier]
    · simp [settle_locked, set_slot, publish_locked, settled_slot, h.guard]
  · rw [if_pos (by omega), if_neg hlast]
    refine ⟨⟨⟨rfl, rfl, rfl, rfl, le_rfl⟩, rfl, rfl, rfl⟩, rfl, rfl, ?_, ?_⟩
    · right
      refine ⟨_, rfl, ?_⟩
      simp only [set_slot, Function.update_self]
      exact ⟨h.filling, h.stamp, by dsimp only; omega, by dsimp only; omega, rfl, h.last_use,
        h.guard, h.tier⟩
    · simp [set_slot, h.guard]

namespace Matches

theorem nodup (h : Matches st fills clock guard age old cur) : (old ++ cur).Nodup :=
  h.sorted.imp fun hlt heq => absurd (heq ▸ hlt) (lt_irrefl _)

theorem absent (h : Matches st fills clock guard age old cur) {key : ExpertKey}
    (hkey : key ∉ old ++ cur) : st.index key = none := by
  rw [h.held, not_exists] at hkey
  exact Option.eq_none_iff_forall_ne_some.mpr hkey

theorem slot_ne (h : Matches st fills clock guard age old cur) {key key' : ExpertKey} {i j : Nat}
    (hi : st.index key = some i) (hj : st.index key' = some j) (hne : key ≠ key') : i ≠ j := by
  intro heq
  have hkey := ((h.inv.index key i).mp hi).2.2
  have hkey' := ((h.inv.index key' j).mp hj).2.2
  rw [heq, hkey'] at hkey
  exact hne hkey.symm

/-- The free slots tell whether all slots hold a key. -/
theorem full_iff (h : Matches st fills clock guard age old cur) :
    st.free_slots = 0 ↔ (old ++ cur).length = st.slots_size := by
  have hroom := h.room
  rw [h.inv.free_slots_eq_zero, ← List.length_eq_zero_iff]
  omega

/-- A key of an earlier layer is Resident with its age, and can be evicted. -/
theorem old_slot (h : Matches st fills clock guard age old cur) {key : ExpertKey} (hkey : key ∈ old) :
    ∃ i, st.index key = some i ∧ i < st.slots_size ∧ (st.slots i).state = .Resident ∧
      (st.slots i).last_use_token = age key ∧ st.is_evictable (st.slots i) ∧ fills i = none := by
  obtain ⟨i, hi⟩ := (h.held key).mp (List.mem_append_left cur hkey)
  obtain ⟨hres, hguard⟩ := h.settled key hkey i hi
  have hlt := ((h.inv.index key i).mp hi).1
  rcases h.seated key i hi with ⟨_, hage, htier, hfill⟩ | ⟨f, _, hland⟩
  · refine ⟨i, hi, hlt, hres, hage, ?_, hfill⟩
    simp [is_evictable, hres, htier, hguard]
  · have hfilling := hland.filling
    rw [hres] at hfilling
    cases hfilling

theorem evictable_key (h : Matches st fills clock guard age old cur) {i : Nat}
    (hlt : i < st.slots_size) (hev : st.is_evictable (st.slots i)) :
    ∃ key ∈ old ++ cur, st.index key = some i ∧ (st.slots i).last_use_token = age key := by
  simp only [is_evictable, Bool.and_eq_true, decide_eq_true_eq] at hev
  have hres := hev.1.1
  have hi := index_own_key h.inv hlt (by rw [hres]; decide)
  refine ⟨_, (h.held _).mpr ⟨i, hi⟩, hi, ?_⟩
  rcases h.seated _ i hi with ⟨_, hage, _, _⟩ | ⟨f, _, hland⟩
  · exact hage
  · have hfilling := hland.filling
    rw [hres] at hfilling
    cases hfilling

/-- The oldest key of all, if of an earlier layer, is the victim of `evict_lru`. -/
theorem victim {v : ExpertKey} (h : Matches st fills clock guard age (v :: old) cur) :
    ∃ i, st.index v = some i ∧ st.scan none st.slots_size = some i := by
  obtain ⟨i, hi, hlt, _, hage, hev, _⟩ := h.old_slot List.mem_cons_self
  refine ⟨i, hi, ?_⟩
  cases hscan : st.scan none st.slots_size with
  | none => exact absurd hev (scan_none hscan i hlt)
  | some b =>
    obtain ⟨hblt, hbev⟩ := scan_evictable hscan
    obtain ⟨key, hkey, hb, hbage⟩ := h.evictable_key hblt hbev
    have hle := (scan_oldest hscan i hlt hev).le
    rw [hbage, hage] at hle
    -- every other key is newer than the head
    by_cases hne : key = v
    · rw [hne, hi] at hb
      exact hb.symm
    · have htail : key ∈ old ++ cur := (List.mem_cons.mp hkey).resolve_left hne
      have hlt' := (List.pairwise_cons.mp h.sorted).1 key htail
      omega

/-! ### What the planner does -/

theorem evict_lru {v : ExpertKey} (h : Matches st fills clock guard age (v :: old) cur) :
    Matches st.evict_lru.2 fills clock guard age old cur := by
  obtain ⟨i, hi, hscan⟩ := h.victim
  have hkey := ((h.inv.index v i).mp hi).2.2
  have hevict : st.evict_lru.2 = st.recycle i := by
    simp [ExpertStore.evict_lru, h.fixed, lru_victim_off h.evict_path, hscan]
  have hinv := h.inv.apply .evict_lru
  rw [ExpertStore.apply, hevict] at hinv
  obtain ⟨hsetup, hfree, hindex, _, hother⟩ := recycle_setup st i
  rw [hkey] at hindex
  rw [hevict]
  have hnodup := h.nodup
  rw [List.cons_append, List.nodup_cons] at hnodup
  -- the keys that are left are in other slots
  have hleft : ∀ {key j}, (st.recycle i).index key = some j →
      key ≠ v ∧ st.index key = some j ∧ (st.recycle i).slots j = st.slots j := by
    intro key j hj
    have hne : key ≠ v := by
      intro heq
      rw [hindex, heq, Function.update_self] at hj
      cases hj
    rw [hindex, Function.update_of_ne hne] at hj
    exact ⟨hne, hj, hother j (h.slot_ne hj hi hne)⟩
  refine ⟨hinv, hsetup.evict_path.trans h.evict_path, hsetup.fixed.trans h.fixed,
    hsetup.frozen.trans h.frozen, ?_, ?_, ?_, ?_, ?_, ?_, ?_, ?_⟩
  · intro key
    rw [hindex]
    by_cases hne : key = v
    · rw [hne, Function.update_self]
      simp [hnodup.1]
    · rw [Function.update_of_ne hne, ← h.held key, List.cons_append, List.mem_cons]
      simp [hne]
  · have hroom := h.room
    rw [hfree, hsetup.slots_size]
    simp only [List.length_append, List.length_cons] at hroom ⊢
    omega
  · exact (List.pairwise_cons.mp h.sorted).2
  · exact fun key hmem => h.ages key (List.mem_cons_of_mem v hmem)
  · intro key j hj
    obtain ⟨_, hj', hslot⟩ := hleft hj
    rw [hslot]
    exact h.seated key j hj'
  · intro key j hj
    obtain ⟨_, hj', hslot⟩ := hleft hj
    rw [hslot]
    exact h.guards key j hj'
  · intro key hmem j hj
    obtain ⟨_, hj', hslot⟩ := hleft hj
    rw [hslot]
    exact h.settled key (List.mem_cons_of_mem v hmem) j hj'
  · intro j f hf
    obtain ⟨key, hj⟩ := h.flights j f hf
    have hne : key ≠ v := by
      -- the victim was Resident
      intro heq
      rw [heq, hi] at hj
      obtain rfl : i = j := Option.some.inj hj
      obtain ⟨i', hi', _, _, _, _, hnone⟩ := h.old_slot List.mem_cons_self
      obtain rfl : i = i' := Option.some.inj (hi.symm.trans hi')
      rw [hnone] at hf
      cases hf
    refine ⟨key, ?_⟩
    rw [hindex, Function.update_of_ne hne, hj]

/-- A key of an earlier layer is a hit, and becomes the newest. -/
theorem lookup_hit (h : Matches st fills clock guard age old cur) {key : ExpertKey}
    (hkey : key ∈ old) :
    (∃ addr, (st.lookup key (clock + 1) guard).1 = some addr) ∧
    Matches (st.lookup key (clock + 1) guard).2 fills (clock + 1) guard
      (Function.update age key (clock + 1)) (old.erase key) (cur ++ [key]) := by
  obtain ⟨i, hi, hlt, hres, hage, hev, hfill⟩ := h.old_slot hkey
  have hkeep := lookup_keep st key (clock + 1) guard
  have hslots : (st.lookup key (clock + 1) guard).2.slots = Function.update st.slots i
      { st.slots i with
        last_use_token := clock + 1
        guard_timeline := max (st.slots i).guard_timeline guard } := by
    simp [ExpertStore.lookup, hi, hres, h.fixed, set_slot]
  have hsetup : SameSetup st (st.lookup key (clock + 1) guard).2 := by
    simp only [ExpertStore.lookup, hi, hres, h.fixed]
    exact ⟨⟨rfl, rfl, rfl, rfl, le_rfl⟩, rfl, rfl, rfl⟩
  have hother : ∀ {j}, j ≠ i → (st.lookup key (clock + 1) guard).2.slots j = st.slots j := by
    intro j hj
    rw [hslots, Function.update_of_ne hj]
  have hnodup := h.nodup
  have hperm : (old.erase key ++ (cur ++ [key])).Perm (old ++ cur) := by
    rw [← List.append_assoc]
    refine (List.perm_append_singleton key _).trans ?_
    rw [← List.cons_append]
    exact (List.perm_cons_erase hkey).symm.append_right cur
  have hmem : ∀ {k}, k ∈ old.erase key ++ (cur ++ [key]) ↔ k ∈ old ++ cur := hperm.mem_iff
  refine ⟨⟨_, by simp [ExpertStore.lookup, hi, hres]; rfl⟩, hkeep.inv h.inv,
    hsetup.evict_path.trans h.evict_path, hsetup.fixed.trans h.fixed,
    hsetup.frozen.trans h.frozen, ?_, ?_, ?_, ?_, ?_, ?_, ?_, ?_⟩
  · intro k
    rw [hmem, hkeep.index, h.held]
  · rw [hkeep.free_list, hperm.length_eq, hkeep.slots_size, h.room]
  · -- the order: the others as before, then the key, newer than all of them
    have hrest : (old.erase key ++ cur).Pairwise fun k k' => age k < age k' :=
      h.sorted.sublist ((List.erase_sublist).append (.refl cur))
    have hnot : key ∉ old.erase key ++ cur := by
      rw [← List.erase_append_left cur hkey]
      exact hnodup.not_mem_erase
    rw [← List.append_assoc, List.pairwise_append]
    refine ⟨?_, List.pairwise_singleton _ _, ?_⟩
    · refine hrest.imp_of_mem ?_
      intro a b ha hb hlt'
      have hak : a ≠ key := fun heq => hnot (heq ▸ ha)
      have hbk : b ≠ key := fun heq => hnot (heq ▸ hb)
      rw [Function.update_of_ne hak, Function.update_of_ne hbk]
      exact hlt'
    · intro a ha b hb
      have hak : a ≠ key := fun heq => hnot (heq ▸ ha)
      rw [List.mem_singleton.mp hb, Function.update_of_ne hak, Function.update_self]
      have hle := h.ages a (hmem.mp (by
        rw [← List.append_assoc]
        exact List.mem_append_left _ ha))
      omega
  · intro k hk
    by_cases heq : k = key
    · rw [heq, Function.update_self]
    · rw [Function.update_of_ne heq]
      exact (h.ages k (hmem.mp hk)).trans (Nat.le_succ clock)
  · intro k j hj
    rw [hkeep.index] at hj
    by_cases heq : k = key
    · rw [heq, hi] at hj
      obtain rfl : i = j := Option.some.inj hj
      rw [hslots, Function.update_self, heq, Function.update_self]
      rcases h.seated key i hi with ⟨hr, _, htier, hnone⟩ | ⟨f, hf, _⟩
      · exact .inl ⟨hr, rfl, htier, hnone⟩
      · rw [hfill] at hf
        cases hf
    · rw [hother (h.slot_ne hj hi heq), Function.update_of_ne heq]
      exact h.seated k j hj
  · intro k j hj
    rw [hkeep.index] at hj
    have hg := h.guards k j hj
    have hc := hsetup.completed
    by_cases heq : j = i
    · rw [heq, hslots, Function.update_self]
      rw [heq] at hg
      dsimp only
      omega
    · rw [hother heq]
      omega
  · intro k hk j hj
    rw [hkeep.index] at hj
    have hne : k ≠ key := by
      intro heq
      rw [heq] at hk
      exact (List.Nodup.of_append_left hnodup).not_mem_erase hk
    obtain ⟨hr, hg⟩ := h.settled k (List.mem_of_mem_erase hk) j hj
    rw [hother (h.slot_ne hj hi hne)]
    exact ⟨hr, hg.trans hsetup.completed⟩
  · intro j f hf
    rw [hkeep.index]
    exact h.flights j f hf

theorem later {clock' : Nat} (h : Matches st fills clock guard age old cur) (hle : clock ≤ clock') :
    Matches st fills clock' guard age old cur :=
  { h with ages := fun key hkey => (h.ages key hkey).trans hle }

/-- A change the LRU does not depend on. -/
theorem quiet (h : Matches st fills clock guard age old cur) (hinv : Inv st')
    (hsetup : SameSetup st st') (hindex : st'.index = st.index)
    (hfree : st'.free_list = st.free_list)
    (hslots : ∀ i, ∃ heat, st'.slots i = { st.slots i with heat := heat }) :
    Matches st' fills clock guard age old cur := by
  refine ⟨hinv, hsetup.evict_path.trans h.evict_path, hsetup.fixed.trans h.fixed,
    hsetup.frozen.trans h.frozen, ?_, ?_, h.sorted, h.ages, ?_, ?_, ?_, ?_⟩
  · intro key
    rw [hindex, h.held]
  · rw [hfree, hsetup.slots_size, h.room]
  · intro key i hi
    rw [hindex] at hi
    obtain ⟨heat, hslot⟩ := hslots i
    rw [hslot]
    refine (h.seated key i hi).imp_right ?_
    intro ⟨f, hf, hland⟩
    exact ⟨f, hf, hland.filling, hland.stamp, hland.left, hland.runs, hland.run_failed,
      hland.last_use, hland.guard, hland.tier⟩
  · intro key i hi
    rw [hindex] at hi
    obtain ⟨heat, hslot⟩ := hslots i
    have hg := h.guards key i hi
    have hc := hsetup.completed
    rw [hslot]
    dsimp only
    omega
  · intro key hkey i hi
    rw [hindex] at hi
    obtain ⟨heat, hslot⟩ := hslots i
    obtain ⟨hres, hg⟩ := h.settled key hkey i hi
    rw [hslot]
    exact ⟨hres, hg.trans hsetup.completed⟩
  · intro i f hf
    rw [hindex]
    exact h.flights i f hf

theorem lookup_miss (h : Matches st fills clock guard age old cur) {key : ExpertKey}
    (hkey : key ∉ old ++ cur) (token g : Nat) :
    (st.lookup key token g).1 = none ∧
      Matches (st.lookup key token g).2 fills clock guard age old cur := by
  have habsent := h.absent hkey
  have hkeep := lookup_keep st key token g
  have hstore : (st.lookup key token g) = (none, { st with stats := { st.stats with
      lookups := st.stats.lookups + 1, misses := st.stats.misses + 1 } }) := by
    simp [ExpertStore.lookup, habsent]
  rw [hstore] at hkeep ⊢
  exact ⟨rfl, h.quiet (hkeep.inv h.inv) ⟨⟨rfl, rfl, rfl, rfl, le_rfl⟩, rfl, rfl, rfl⟩ rfl rfl
    fun i => ⟨_, rfl⟩⟩

theorem note_heat (h : Matches st fills clock guard age old cur) (key : ExpertKey)
    (score alpha : ℚ) : Matches (st.note_heat key score alpha) fills clock guard age old cur := by
  have hinv := (note_heat_keep key score alpha).inv h.inv
  cases hi : st.index key with
  | none =>
    have hsame : st.note_heat key score alpha = st := by simp [ExpertStore.note_heat, hi]
    rw [hsame]
    exact h
  | some i =>
    have hsame : st.note_heat key score alpha = st.set_slot i { st.slots i with
        heat := (1 - alpha) * (st.slots i).heat + alpha * score } := by
      simp [ExpertStore.note_heat, hi, h.fixed]
    rw [hsame] at hinv ⊢
    refine h.quiet hinv (SameSetup.set_slot st i _ _) rfl rfl ?_
    intro j
    by_cases hj : j = i
    · subst hj
      exact ⟨_, by simp [set_slot]; rfl⟩
    · exact ⟨(st.slots j).heat, by simp [set_slot, Function.update_of_ne hj]⟩

theorem complete (h : Matches st fills clock guard age old cur) (v : Nat) :
    Matches (st.set_completed_timeline v) fills clock guard age old cur := by
  obtain ⟨hsetup, _, hslots, hindex, hfree⟩ := set_completed_timeline_setup st v
  refine h.quiet ((set_completed_timeline_keep v).inv h.inv) hsetup hindex hfree ?_
  intro i
  exact ⟨(st.slots i).heat, by rw [hslots]⟩

/-- A new layer: once every fill has landed and the guard is completed, all keys that are
    held are of earlier layers. -/
theorem next_layer (h : Matches st fills clock guard age old cur)
    (hlanded : ∀ i < st.slots_size, fills i = none) (hguard : guard ≤ st.completed_timeline)
    (guard' : Nat) : Matches st fills clock guard' age (old ++ cur) [] := by
  refine ⟨h.inv, h.evict_path, h.fixed, h.frozen, ?_, ?_, ?_, ?_, h.seated, ?_, ?_, h.flights⟩
  · simpa using h.held
  · simpa using h.room
  · simpa using h.sorted
  · simpa using h.ages
  · intro key i hi
    have hg := h.guards key i hi
    omega
  · intro key hkey i hi
    have hlt := ((h.inv.index key i).mp hi).1
    have hg := h.guards key i hi
    refine ⟨?_, by omega⟩
    rcases h.seated key i hi with ⟨hres, _⟩ | ⟨f, hf, _⟩
    · exact hres
    · rw [hlanded i hlt] at hf
      cases hf

/-- A key that is asked for now is newer than all. -/
theorem sorted_asked (h : Matches st fills clock guard age old cur) {key : ExpertKey}
    (hkey : key ∉ old ++ cur) : (old ++ (cur ++ [key])).Pairwise fun k k' =>
      Function.update age key (clock + 1) k < Function.update age key (clock + 1) k' := by
  have hage : ∀ k ∈ old ++ cur, Function.update age key (clock + 1) k = age k := by
    intro k hk
    have hne : k ≠ key := fun heq => hkey (heq ▸ hk)
    rw [Function.update_of_ne hne]
  rw [← List.append_assoc, List.pairwise_append]
  refine ⟨?_, List.pairwise_singleton _ _, ?_⟩
  · refine h.sorted.imp_of_mem ?_
    intro a b ha hb hlt
    rw [hage a ha, hage b hb]
    exact hlt
  · intro a ha b hb
    rw [List.mem_singleton.mp hb, hage a ha, Function.update_self]
    exact Nat.lt_succ_of_le (h.ages a ha)

/-- A key of a store with one slot opened: the key it was opened for, or one that was held and
    is left in its slot. -/
theorem opened_index (h : Matches st fills clock guard age old cur) {key k : ExpertKey} {i j : Nat}
    {s : ExpertSlot} (hopen : Opened st st' key i s) (hwasfree : (st.slots i).state = .Free)
    (hj : st'.index k = some j) : k = key ∧ j = i ∨
      k ≠ key ∧ st.index k = some j ∧ j ≠ i ∧ st'.slots j = st.slots j := by
  rw [hopen.index] at hj
  by_cases heq : k = key
  · rw [heq, Function.update_self] at hj
    exact .inl ⟨heq, (Option.some.inj hj).symm⟩
  · rw [Function.update_of_ne heq] at hj
    have hne : j ≠ i := fun hji => ((h.inv.index k j).mp hj).2.1 (hji ▸ hwasfree)
    refine .inr ⟨heq, hj, hne, ?_⟩
    rw [hopen.slots, Function.update_of_ne hne]

/-- A miss is asked for: its key is the newest, and its fill in flight. -/
theorem fetch (h : Matches st fills clock guard age old cur) {key : ExpertKey}
    {entry : ExpertEntry} (hkey : key ∉ old ++ cur) (hroom : (old ++ cur).length < st.slots_size)
    (hrange : st.key_in_range key) (hfits : entry.Fits) :
    ∃ res st', st.begin_fill key entry .Cached = (.ok res, st') ∧
      Matches st' (Function.update fills res.slot (some { stamp := clock + 1, left := res.run_count }))
        (clock + 1) guard (Function.update age key (clock + 1)) old (cur ++ [key]) := by
  have habsent := h.absent hkey
  obtain ⟨i, rest, hfree⟩ : ∃ i rest, st.free_list = i :: rest := by
    have hpos : 0 < st.free_list.length := by
      have := h.room
      omega
    exact ⟨_, _, (List.cons_head_tail (List.length_pos_iff.mp hpos)).symm⟩
  have hfits' : ∀ e, some entry = some e → e.Fits := fun e he => Option.some.inj he ▸ hfits
  obtain ⟨res, s, st', hbegin, hslot, hopen⟩ :=
    h.inv.begin_streamed h.frozen hrange habsent hfree hfits'
  have hfill : st.begin_fill key entry .Cached = (.ok res, st') := hbegin
  obtain ⟨hpos, hfillat, hwasfree, _, _⟩ := begin_fill_ok h.inv hfill
  have hinv := h.inv.apply (.begin_fill key entry .Cached)
  rw [ExpertStore.apply, hfill] at hinv
  rw [hslot] at hfillat hwasfree
  refine ⟨res, st', hfill, ?_⟩
  rw [hslot]
  have hself : st'.slots i = s := by rw [hopen.slots, Function.update_self]
  have hindex : ∀ {k}, k ≠ key → st'.index k = st.index k := by
    intro k hk
    rw [hopen.index, Function.update_of_ne hk]
  have hnewest : st'.index key = some i := by rw [hopen.index, Function.update_self]
  refine ⟨hinv, hopen.evict_path.trans h.evict_path, hopen.fixed.trans h.fixed,
    hopen.frozen.trans h.frozen, ?_, ?_, h.sorted_asked hkey, ?_, ?_, ?_, ?_, ?_⟩
  · -- held
    intro k
    rw [← List.append_assoc, List.mem_append, List.mem_singleton]
    by_cases heq : k = key
    · rw [heq]
      simp [hnewest]
    · rw [hindex heq, ← h.held]
      simp [heq]
  · -- room
    have hlen := h.room
    rw [hopen.free_list, List.length_cons] at hlen
    rw [hopen.slots_size, ← List.append_assoc, List.length_append, List.length_singleton]
    omega
  · -- ages
    intro k hk
    by_cases heq : k = key
    · rw [heq, Function.update_self]
    · rw [Function.update_of_ne heq]
      rw [← List.append_assoc, List.mem_append, List.mem_singleton] at hk
      exact (h.ages k (hk.resolve_right heq)).trans (Nat.le_succ clock)
  · -- seated: the opened slot has all its runs to go
    intro k j hj
    rcases h.opened_index hopen hwasfree hj with ⟨rfl, rfl⟩ | ⟨heq, hold, hne, hsame⟩
    · have htotal := hfillat.total
      have hdone := hfillat.done
      rw [hself] at htotal hdone ⊢
      refine .inr ⟨_, Function.update_self .., hopen.state, by rw [Function.update_self], hpos, ?_,
        hopen.run_failed, hopen.stamp, hopen.guard, ?_⟩
      · rw [hdone, htotal, Nat.zero_add]
      · rw [hopen.tier]
        decide
    · rw [hsame, Function.update_of_ne hne, Function.update_of_ne heq]
      exact h.seated k j hold
  · -- guards
    intro k j hj
    rcases h.opened_index hopen hwasfree hj with ⟨rfl, rfl⟩ | ⟨_, hold, _, hsame⟩
    · rw [hself, hopen.guard]
      exact Nat.zero_le _
    · have hg := h.guards k j hold
      have hc := hopen.completed
      rw [hsame]
      omega
  · -- settled
    intro k hk j hj
    rcases h.opened_index hopen hwasfree hj with ⟨rfl, _⟩ | ⟨_, hold, _, hsame⟩
    · exact absurd (List.mem_append_left cur hk) hkey
    · obtain ⟨hres, hg⟩ := h.settled k hk j hold
      rw [hsame]
      exact ⟨hres, hg.trans hopen.completed⟩
  · -- flights
    intro j f hf
    by_cases hj : j = i
    · exact ⟨key, hj ▸ hnewest⟩
    · rw [Function.update_of_ne hj] at hf
      obtain ⟨k, hk⟩ := h.flights j f hf
      refine ⟨k, (hindex fun heq => ?_).trans hk⟩
      rw [heq, habsent] at hk
      cases hk

/-- A run lands, and the last one publishes the slot with the stamp of its key. -/
theorem land (h : Matches st fills clock guard age old cur) {i : Nat} {f : InFlight}
    (hf : fills i = some f) :
    Matches (st.finish_run i true f.stamp).2
      (Function.update fills i (if f.left ≤ 1 then none else some { f with left := f.left - 1 }))
      clock guard age old cur := by
  obtain ⟨key, hi⟩ := h.flights i f hf
  have hlt := ((h.inv.index key i).mp hi).1
  have hland : Landing (st.slots i) f (age key) := by
    rcases h.seated key i hi with ⟨_, _, _, hnone⟩ | ⟨f', hf', hland⟩
    · rw [hf] at hnone
      cases hnone
    · obtain rfl : f = f' := Option.some.inj (hf.symm.trans hf')
      exact hland
  obtain ⟨hsetup, hindex, hfree, hslot⟩ := hland.finish_run hlt h.fixed
  obtain ⟨_, hother⟩ := finish_run_other st i true f.stamp
  have hinv := h.inv.apply (.finish_run i true f.stamp)
  rw [ExpertStore.apply] at hinv
  have hc := hsetup.completed
  have hnotold : ∀ {k}, k ∈ old → st.index k ≠ some i := by
    intro k hk hki
    have hres := (h.settled k hk i hki).1
    rw [hland.filling] at hres
    cases hres
  -- only the slot that landed has changed
  refine ⟨hinv, hsetup.evict_path.trans h.evict_path, hsetup.fixed.trans h.fixed,
    hsetup.frozen.trans h.frozen, ?_, ?_, h.sorted, h.ages, ?_, ?_, ?_, ?_⟩
  · intro k
    rw [hindex, h.held]
  · rw [hfree, hsetup.slots_size, h.room]
  · intro k j hj
    rw [hindex] at hj
    by_cases hji : j = i
    · subst hji
      obtain rfl : key = k := by
        rw [← ((h.inv.index key j).mp hi).2.2, ((h.inv.index k j).mp hj).2.2]
      rw [Function.update_self]
      exact hslot.1
    · rw [hother j hji, Function.update_of_ne hji]
      exact h.seated k j hj
  · intro k j hj
    rw [hindex] at hj
    by_cases hji : j = i
    · rw [hji, hslot.2]
      exact Nat.zero_le _
    · have hg := h.guards k j hj
      rw [hother j hji]
      omega
  · intro k hk j hj
    rw [hindex] at hj
    obtain ⟨hres, hg⟩ := h.settled k hk j hj
    have hji : j ≠ i := fun heq => hnotold hk (heq ▸ hj)
    rw [hother j hji]
    exact ⟨hres, hg.trans hc⟩
  · intro j f' hf'
    rw [hindex]
    by_cases hji : j = i
    · exact ⟨key, hji ▸ hi⟩
    · rw [Function.update_of_ne hji] at hf'
      exact h.flights j f' hf'

end Matches

/-! ### The planner and the reference -/

/-- The key a missed lookup is about. -/
def PlanPhase.key : PlanPhase → Option ExpertKey
  | .missed key | .slot_of key | .room key | .evict key | .fetch key | .reclaim key | .retry key =>
    some key
  | .idle | .keys | .waiting => none

/-- All keys of the layer are planned. -/
def PlanPhase.over : PlanPhase → Bool
  | .idle | .waiting => true
  | _ => false

/-- The keys of the layer that are still to be asked for. -/
def Demand.todo (s : Demand) : List ExpertKey := s.phase.key.toList ++ s.route

/-- The reference after all keys planned so far. -/
def Demand.reference (s : Demand) : LRU :=
  LRU.run { capacity := s.store.slots_size } (s.plan.map Prod.fst)

/-- How the keys the store holds relate to those of the reference, which serves a miss at
    once. -/
def PhaseAgrees (n : Nat) (held od : List ExpertKey) : PlanPhase → Prop
  | .idle | .keys | .waiting => od = held
  | .missed key | .slot_of key | .room key => key ∉ held ∧ od = (LRU.admit_key ⟨n, held⟩ key).od
  | .evict key => key ∉ held ∧ od = (LRU.admit_key ⟨n, held⟩ key).od ∧ held.length = n
  | .fetch key => key ∉ held ∧ od = held ++ [key] ∧ held.length < n
  | .reclaim _ | .retry _ => False

/-- The keys still to be asked for: different from each other and from those the layer has,
    not too many, and all in the manifest. -/
structure LayerOk (s : Demand) (cur : List ExpertKey) : Prop where
  nodup : (cur ++ s.todo).Nodup
  length : (cur ++ s.todo).length ≤ s.store.slots_size
  valid : ∀ key ∈ s.todo, s.store.key_in_range key ∧ Listed (s.manifest key)

structure DemandInv (s : Demand) : Prop where
  lru : s.lru = true
  fixed : s.fixed = false
  joined : s.joined = []
  trace : s.plan.map Prod.fst ++ s.route = s.trace
  classified : s.plan = LRU.classify { capacity := s.store.slots_size } (s.plan.map Prod.fst)
  spent : s.phase.over → s.route = []
  landed : s.phase = .idle → ∀ i < s.store.slots_size, s.fills i = none
  agrees : ∃ age old cur,
    Matches s.store s.fills s.access_clock s.guard_hits age old cur ∧ LayerOk s cur ∧
      PhaseAgrees s.store.slots_size (old ++ cur) s.reference.od s.phase

section Step

variable {s s' : Demand}

/-- A step that plans no key. -/
theorem DemandInv.of_same (h : DemandInv s) (hgeo : SameGeometry s.store s'.store)
    (hlru : s'.lru = s.lru) (hfixed : s'.fixed = s.fixed) (hjoined : s'.joined = s.joined)
    (hplan : s'.plan = s.plan) (hroute : s'.route = s.route) (htrace : s'.trace = s.trace)
    (hspent : s'.phase.over → s'.route = [])
    (hlanded : s'.phase = .idle → ∀ i < s'.store.slots_size, s'.fills i = none)
    (hagrees : ∃ age old cur,
      Matches s'.store s'.fills s'.access_clock s'.guard_hits age old cur ∧ LayerOk s' cur ∧
        PhaseAgrees s.store.slots_size (old ++ cur) s.reference.od s'.phase) : DemandInv s' := by
  refine ⟨hlru.trans h.lru, hfixed.trans h.fixed, hjoined.trans h.joined, ?_, ?_, hspent, hlanded,
    ?_⟩
  · rw [hplan, hroute, htrace, h.trace]
  · rw [hplan, hgeo.slots_size]
    exact h.classified
  · unfold Demand.reference at hagrees ⊢
    rw [hplan, hgeo.slots_size]
    exact hagrees

/-- A step that plans no key, with keys of the layer still to be planned. -/
theorem DemandInv.of_planning (h : DemandInv s) (hgeo : SameGeometry s.store s'.store)
    (hlru : s'.lru = s.lru) (hfixed : s'.fixed = s.fixed) (hjoined : s'.joined = s.joined)
    (hplan : s'.plan = s.plan) (hroute : s'.route = s.route) (htrace : s'.trace = s.trace)
    (hover : s'.phase.over = false)
    (hagrees : ∃ age old cur,
      Matches s'.store s'.fills s'.access_clock s'.guard_hits age old cur ∧ LayerOk s' cur ∧
        PhaseAgrees s.store.slots_size (old ++ cur) s.reference.od s'.phase) : DemandInv s' := by
  refine h.of_same hgeo hlru hfixed hjoined hplan hroute htrace ?_ ?_ hagrees
  · intro hdone
    rw [hover] at hdone
    cases hdone
  · intro hidle
    rw [hidle] at hover
    cases hover

/-- The layer's keys stay what they are while the same are to be asked for. -/
theorem LayerOk.of_todo {cur : List ExpertKey} (h : LayerOk s cur) (htodo : s'.todo = s.todo)
    (hgeo : SameGeometry s.store s'.store) (hmanifest : s'.manifest = s.manifest) :
    LayerOk s' cur := by
  refine ⟨?_, ?_, ?_⟩
  · rw [htodo]
    exact h.nodup
  · rw [htodo, hgeo.slots_size]
    exact h.length
  · intro key hkey
    rw [htodo] at hkey
    rw [key_in_range_eq hgeo, hmanifest]
    exact h.valid key hkey

/-- The first key to be asked for is asked for: it is one of the layer's now. -/
theorem LayerOk.asked {cur : List ExpertKey} {key : ExpertKey} (h : LayerOk s cur)
    (htodo : s.todo = key :: s'.todo) (hgeo : SameGeometry s.store s'.store)
    (hmanifest : s'.manifest = s.manifest) : LayerOk s' (cur ++ [key]) := by
  have heq : cur ++ [key] ++ s'.todo = cur ++ s.todo := by rw [htodo]; simp
  refine ⟨?_, ?_, ?_⟩
  · rw [heq]
    exact h.nodup
  · rw [heq, hgeo.slots_size]
    exact h.length
  · intro k hk
    rw [key_in_range_eq hgeo, hmanifest]
    exact h.valid k (htodo ▸ List.mem_cons_of_mem key hk)

theorem LayerOk.not_mem {cur : List ExpertKey} {key : ExpertKey} {rest : List ExpertKey}
    (h : LayerOk s cur) (htodo : s.todo = key :: rest) : key ∉ cur := by
  intro hmem
  have hdisj := List.disjoint_of_nodup_append h.nodup
  rw [htodo] at hdisj
  exact hdisj hmem List.mem_cons_self

/-- A step that plans a key, as the reference does. -/
theorem DemandInv.planned (h : DemandInv s) {key : ExpertKey} {hit : Bool}
    (hgeo : SameGeometry s.store s'.store) (hlru : s'.lru = s.lru) (hfixed : s'.fixed = s.fixed)
    (hjoined : s'.joined = s.joined) (hplan : s'.plan = s.plan ++ [(key, hit)])
    (hroute : s.route = key :: s'.route) (htrace : s'.trace = s.trace) (hbusy : s'.phase.over = false)
    (hhit : hit = s.reference.contains key)
    (hagrees : ∃ age old cur,
      Matches s'.store s'.fills s'.access_clock s'.guard_hits age old cur ∧ LayerOk s' cur ∧
        PhaseAgrees s.store.slots_size (old ++ cur) (s.reference.access key).od s'.phase) :
    DemandInv s' := by
  refine ⟨hlru.trans h.lru, hfixed.trans h.fixed, hjoined.trans h.joined, ?_, ?_, ?_, ?_, ?_⟩
  · rw [hplan, htrace, ← h.trace, hroute]
    simp
  · rw [hplan, List.map_append, List.map_singleton, hgeo.slots_size, LRU.classify_append,
      ← h.classified, hhit]
    rfl
  · intro hover
    rw [hbusy] at hover
    cases hover
  · intro hidle
    rw [hidle] at hbusy
    cases hbusy
  · have href : s'.reference = s.reference.access key := by
      unfold Demand.reference
      rw [hplan, List.map_append, List.map_singleton, hgeo.slots_size, LRU.run_append]
    rw [href, hgeo.slots_size]
    exact hagrees

theorem DemandInv.lookup_step (h : DemandInv s) {key : ExpertKey} {route : List ExpertKey}
    (hphase : s.phase = .keys) (hroute : s.route = key :: route) (hstep : s.plan_step = some s') :
    DemandInv s' := by
  obtain ⟨age, old, cur, hm, hlayer, hagrees⟩ := h.agrees
  have hod : s.reference.od = old ++ cur := by
    rw [hphase] at hagrees
    exact hagrees
  have htodo : s.todo = key :: route := by simp [Demand.todo, hphase, PlanPhase.key, hroute]
  have hcap : s.reference.capacity = s.store.slots_size := LRU.capacity_run _ _
  have hkeep := lookup_keep s.store key (s.access_clock + 1) s.guard_hits
  have hcontains : s.reference.contains key = decide (key ∈ old ++ cur) := by
    rw [LRU.contains, hod]
  unfold Demand.plan_step at hstep
  rw [hphase, hroute] at hstep
  simp only [h.fixed, Bool.false_eq_true, if_false] at hstep
  by_cases hkey : key ∈ old
  · -- a hit: the key moves to the end
    have hmem : key ∈ old ++ cur := List.mem_append_left cur hkey
    obtain ⟨⟨addr, haddr⟩, hm'⟩ := hm.lookup_hit hkey
    cases hres : s.store.lookup key (s.access_clock + 1) s.guard_hits with
    | mk r store =>
      rw [hres] at hstep haddr hm' hkeep
      obtain rfl : r = some addr := haddr
      cases hstep
      refine h.planned hkeep.toSameGeometry rfl h.fixed.symm rfl rfl hroute rfl rfl ?_
        ⟨_, _, _, hm', hlayer.asked ?_ hkeep.toSameGeometry rfl, ?_⟩
      · rw [hcontains, decide_eq_true hmem]
      · exact htodo
      · show (s.reference.access key).od = old.erase key ++ (cur ++ [key])
        rw [LRU.access, hcontains, decide_eq_true hmem, if_pos rfl, LRU.touch, hod,
          List.erase_append_left cur hkey, List.append_assoc]
  · -- a miss: the reference admits the key at once
    have hmem : key ∉ old ++ cur := by
      rw [List.mem_append, not_or]
      exact ⟨hkey, hlayer.not_mem htodo⟩
    obtain ⟨hnone, hm'⟩ := hm.lookup_miss hmem (s.access_clock + 1) s.guard_hits
    cases hres : s.store.lookup key (s.access_clock + 1) s.guard_hits with
    | mk r store =>
      rw [hres] at hstep hnone hm' hkeep
      obtain rfl : r = none := hnone
      cases hstep
      refine h.planned hkeep.toSameGeometry rfl h.fixed.symm rfl rfl hroute rfl rfl ?_
        ⟨_, _, _, hm'.later (Nat.le_succ _), hlayer.of_todo ?_ hkeep.toSameGeometry rfl, hmem, ?_⟩
      · rw [hcontains, decide_eq_false hmem]
      · exact htodo.symm
      · rw [LRU.access, hcontains, decide_eq_false hmem, if_neg (by decide), LRU.admit_key, LRU.admit_key,
          hcap, hod]

/-- Room is made by evicting the oldest key, which no layer at hand uses. -/
theorem DemandInv.evict_step (h : DemandInv s) {key : ExpertKey} (hphase : s.phase = .evict key) :
    DemandInv { s with store := s.store.evict_lru.2, phase := .fetch key } := by
  obtain ⟨age, old, cur, hm, hlayer, hagrees⟩ := h.agrees
  rw [hphase] at hagrees
  obtain ⟨hmem, hod, hfull⟩ := hagrees
  have hgeo : SameGeometry s.store s.store.evict_lru.2 :=
    hm.inv.apply_geometry (show Op.evict_lru.keeps_contents from rfl)
  have hlen := hlayer.length
  have htodo : s.todo = key :: s.route := by simp [Demand.todo, hphase, PlanPhase.key]
  rw [htodo] at hlen
  cases old with
  | nil =>
    -- the layer's own keys leave a slot for the one at hand
    simp only [List.nil_append, List.length_append, List.length_cons] at hfull hlen
    omega
  | cons v old =>
    refine h.of_planning hgeo rfl rfl rfl rfl rfl rfl rfl ⟨_, _, _, hm.evict_lru, ?_, ?_, ?_, ?_⟩
    · exact hlayer.of_todo (by simp [Demand.todo, hphase, PlanPhase.key]) hgeo rfl
    · exact fun hno => hmem (List.mem_cons_of_mem v hno)
    · rw [hod, LRU.admit_key]
      dsimp only
      rw [if_pos (by rw [List.length_append, hfull]; simp)]
      rfl
    · rw [List.cons_append, List.length_cons] at hfull
      omega

/-- The key is asked for. -/
theorem DemandInv.fetch_step (h : DemandInv s) {key : ExpertKey} (hphase : s.phase = .fetch key) :
    DemandInv (s.fetched key true) := by
  obtain ⟨age, old, cur, hm, hlayer, hagrees⟩ := h.agrees
  rw [hphase] at hagrees
  obtain ⟨hmem, hod, hroom⟩ := hagrees
  have htodo : s.todo = key :: s.route := by simp [Demand.todo, hphase, PlanPhase.key]
  obtain ⟨hrange, hlisted⟩ := hlayer.valid key (htodo ▸ List.mem_cons_self)
  obtain ⟨entry, hentry, hfits⟩ := hlisted.entry
  obtain ⟨res, store, hfill, hm'⟩ := hm.fetch hmem hroom hrange hfits
  have hgeo : SameGeometry s.store store := by
    have hop := hm.inv.apply_geometry
      (show (Op.begin_fill key entry .Cached).keeps_contents from rfl)
    rwa [ExpertStore.apply, hfill] at hop
  unfold Demand.fetched
  rw [hentry]
  dsimp only
  rw [hfill]
  refine h.of_planning hgeo rfl rfl rfl rfl rfl rfl rfl ⟨_, _, _, hm', ?_, ?_⟩
  · exact hlayer.asked htodo hgeo rfl
  · show s.reference.od = old ++ (cur ++ [key])
    rw [hod, List.append_assoc]

theorem DemandInv.plan_step (h : DemandInv s) (hstep : s.plan_step = some s') : DemandInv s' := by
  obtain ⟨age, old, cur, hm, hlayer, hagrees⟩ := h.agrees
  -- the LRU moves at the lookup, the eviction and the fetch
  cases hphase : s.phase with
  | idle => simp [Demand.plan_step, hphase] at hstep
  | waiting => simp [Demand.plan_step, hphase] at hstep
  | keys =>
    cases hroute : s.route with
    | nil =>
      simp only [Demand.plan_step, hphase, hroute] at hstep
      cases hstep
      rw [hphase] at hagrees
      refine h.of_same (.refl _) rfl rfl rfl rfl hroute.symm rfl (fun _ => rfl)
        (by rintro ⟨⟩)
        ⟨_, _, _, hm, hlayer.of_todo ?_ (.refl _) rfl, hagrees⟩
      simp [Demand.todo, hphase, PlanPhase.key, hroute]
    | cons key route => exact h.lookup_step hphase hroute hstep
  | missed key =>
    simp only [Demand.plan_step, hphase, h.fixed, Bool.false_eq_true, false_and, if_false] at hstep
    cases hstep
    rw [hphase] at hagrees
    refine h.of_planning (.refl _) rfl h.fixed.symm rfl rfl rfl rfl rfl
      ⟨_, _, _, hm, hlayer.of_todo ?_ (.refl _) rfl, hagrees⟩
    simp [Demand.todo, hphase, PlanPhase.key]
  | slot_of key =>
    rw [hphase] at hagrees
    have habsent := hm.absent hagrees.1
    simp only [Demand.plan_step, hphase, ExpertStore.slot_of, habsent, Option.isSome_none,
      Bool.false_eq_true, if_false] at hstep
    cases hstep
    refine h.of_planning (.refl _) rfl rfl rfl rfl rfl rfl rfl
      ⟨_, _, _, hm, hlayer.of_todo ?_ (.refl _) rfl, hagrees⟩
    simp [Demand.todo, hphase, PlanPhase.key]
  | room key =>
    rw [hphase] at hagrees
    obtain ⟨hmem, hod⟩ := hagrees
    have hroom := hm.room
    simp only [Demand.plan_step, hphase] at hstep
    split at hstep
    next hfull =>
      cases hstep
      refine h.of_planning (.refl _) rfl rfl rfl rfl rfl rfl rfl
        ⟨_, _, _, hm, hlayer.of_todo ?_ (.refl _) rfl, hmem, hod, hm.full_iff.mp hfull⟩
      simp [Demand.todo, hphase, PlanPhase.key]
    next hfree =>
      cases hstep
      have hlt : (old ++ cur).length < s.store.slots_size := by
        have hne : (old ++ cur).length ≠ s.store.slots_size := fun heq =>
          hfree (hm.full_iff.mpr heq)
        omega
      refine h.of_planning (.refl _) rfl rfl rfl rfl rfl rfl rfl
        ⟨_, _, _, hm, hlayer.of_todo ?_ (.refl _) rfl, hmem, ?_, hlt⟩
      · simp [Demand.todo, hphase, PlanPhase.key]
      · rw [hod, LRU.admit_key]
        dsimp only
        rw [if_neg (by rw [List.length_append, List.length_singleton]; omega)]
  | evict key =>
    simp only [Demand.plan_step, hphase, h.lru, if_true] at hstep
    cases hstep
    have hnext := h.evict_step hphase
    rwa [h.lru] at hnext
  | fetch key =>
    simp only [Demand.plan_step, hphase] at hstep
    cases hstep
    exact h.fetch_step hphase
  | reclaim key => rw [hphase] at hagrees; exact hagrees.elim
  | retry key => rw [hphase] at hagrees; exact hagrees.elim

theorem DemandInv.land_step (h : DemandInv s) {slot : Nat} (hstep : s.land slot true = some s') :
    DemandInv s' := by
  obtain ⟨age, old, cur, hm, hlayer, hagrees⟩ := h.agrees
  unfold Demand.land at hstep
  split at hstep
  · cases hstep
  next f hf =>
    cases hstep
    have hgeo : SameGeometry s.store (s.store.finish_run slot true f.stamp).2 :=
      hm.inv.apply_geometry (show (Op.finish_run slot true f.stamp).keeps_contents from rfl)
    refine h.of_same hgeo rfl rfl rfl rfl rfl rfl h.spent ?_
      ⟨_, _, _, hm.land hf, hlayer.of_todo rfl hgeo rfl, hagrees⟩
    intro hidle
    -- between two layers nothing is in flight
    obtain ⟨key, hi⟩ := hm.flights slot f hf
    have hnone := h.landed hidle slot ((hm.inv.index key slot).mp hi).1
    rw [hf] at hnone
    cases hnone

theorem DemandInv.complete_step (h : DemandInv s) (v : Nat) :
    DemandInv { s with store := s.store.set_completed_timeline v } := by
  obtain ⟨age, old, cur, hm, hlayer, hagrees⟩ := h.agrees
  have hgeo : SameGeometry s.store (s.store.set_completed_timeline v) :=
    (set_completed_timeline_keep v).toSameGeometry
  refine h.of_same hgeo rfl rfl rfl rfl rfl rfl h.spent ?_
    ⟨_, _, _, hm.complete v, hlayer.of_todo rfl hgeo rfl, hagrees⟩
  intro hidle
  rw [hgeo.slots_size]
  exact h.landed hidle

theorem DemandInv.wait_step (h : DemandInv s) (hphase : s.phase = .waiting)
    (hlanded : ∀ i < s.store.slots_size, s.fills i = none) :
    DemandInv { s with joined := [], phase := .idle } := by
  obtain ⟨age, old, cur, hm, hlayer, hagrees⟩ := h.agrees
  rw [hphase] at hagrees
  refine h.of_same (.refl _) rfl rfl h.joined.symm rfl rfl rfl (fun _ => h.spent (by rw [hphase]; rfl))
    (fun _ => hlanded)
    ⟨_, _, _, hm, hlayer.of_todo ?_ (.refl _) rfl, hagrees⟩
  simp [Demand.todo, hphase, PlanPhase.key]

/-- The near misses of a route warm up: the LRU does not look at heat. -/
theorem Matches.note_near {age : ExpertKey → Nat} {old cur : List ExpertKey}
    (h : Matches st fills clock guard age old cur) (layer : UInt16) (near : List (UInt16 × ℚ))
    (alpha : ℚ) :
    Matches (near.foldl (fun st n => st.note_heat ⟨layer, n.1⟩ n.2 alpha) st) fills clock guard age
      old cur ∧
    SameGeometry st (near.foldl (fun st n => st.note_heat ⟨layer, n.1⟩ n.2 alpha) st) := by
  induction near generalizing st with
  | nil => exact ⟨h, .refl st⟩
  | cons n near ih =>
    have hgeo := (@note_heat_keep st ⟨layer, n.1⟩ n.2 alpha).toSameGeometry
    obtain ⟨hm, hgeo'⟩ := ih (h.note_heat ⟨layer, n.1⟩ n.2 alpha)
    exact ⟨hm, hgeo.trans hgeo'⟩

theorem DemandInv.plan_layer_step (h : DemandInv s) {r : RouteDecision}
    (horder : s.Orderly (.plan_layer r)) (hstep : s.step (.plan_layer r) = some s') :
    DemandInv s' := by
  obtain ⟨age, old, cur, hm, _, hagrees⟩ := h.agrees
  obtain ⟨hguard, hnodup, hlen, hvalid⟩ := horder
  simp only [Demand.step] at hstep
  split at hstep
  · cases hstep
  next hphase =>
  rw [not_not] at hphase
  have hroute : s.route = [] := h.spent (by rw [hphase]; rfl)
  have hlanded := h.landed hphase
  cases hstep
  rw [hphase] at hagrees
  obtain ⟨hm', hgeo⟩ := (hm.next_layer hlanded hguard r.guard_hits).note_near r.layer r.near (1 / 8)
  refine ⟨h.lru, hm.fixed, h.joined, ?_, ?_, nofun, nofun, ⟨_, _, _, hm', ⟨?_, ?_, ?_⟩, ?_⟩⟩
  · show _ ++ r.keys = s.trace ++ r.keys
    rw [← h.trace, hroute, List.append_nil]
  · dsimp only
    rw [hgeo.slots_size]
    exact h.classified
  · show ([] ++ r.keys).Nodup
    refine hnodup.map ?_
    intro a b hab
    exact (ExpertKey.mk.inj hab).2
  · show ([] ++ r.keys).length ≤ _
    rw [List.nil_append, RouteDecision.keys, List.length_map, hgeo.slots_size]
    exact hlen
  · intro key hkey
    rw [key_in_range_eq hgeo]
    exact hvalid key hkey
  · unfold Demand.reference at hagrees ⊢
    dsimp only
    rw [hgeo.slots_size, List.append_nil]
    exact hagrees

/-- Every orderly step keeps the planner and the reference together. -/
theorem DemandInv.step (h : DemandInv s) {a : Action} (horder : s.Orderly a)
    (hstep : s.step a = some s') : DemandInv s' := by
  cases a with
  | plan_layer r => exact h.plan_layer_step horder hstep
  | plan => exact h.plan_step hstep
  | land slot ok =>
    obtain rfl : ok = true := horder
    exact h.land_step hstep
  | complete v =>
    cases hstep
    exact h.complete_step v
  | wait_layer =>
    simp only [Demand.step] at hstep
    split at hstep
    next hwait =>
      obtain ⟨hphase, hlanded, _⟩ := hwait
      cases hstep
      have hnext := h.wait_step hphase hlanded
      rw [h.joined]
      exact hnext
    · cases hstep

/-! ### Whole runs -/

/-- A new store holds no key, as the reference does. -/
theorem DemandInv.init (hinit : demand_system.init s) : DemandInv s := by
  obtain ⟨backing, cache, layers, experts_per_layer, manifest, store, hstore, rfl⟩ := hinit
  have hempty : Empty store := by
    have hnew := init_empty {} backing cache layers experts_per_layer (by rw [hstore])
    rwa [hstore] at hnew
  have hsetup : store.evict_path = .Off ∧ store.fixed_cache = false ∧ store.cache_frozen = false := by
    have hpath : (ExpertStore.init {} backing cache layers experts_per_layer).2.evict_path = .Off ∧
        (ExpertStore.init {} backing cache layers experts_per_layer).2.fixed_cache = false ∧
        (ExpertStore.init {} backing cache layers experts_per_layer).2.cache_frozen = false := by
      unfold ExpertStore.init
      split
      · exact ⟨rfl, rfl, rfl⟩
      · dsimp only
        split
        · exact ⟨rfl, rfl, rfl⟩
        · exact ⟨rfl, rfl, rfl⟩
    rwa [hstore] at hpath
  have hnone : ∀ key i, store.index key ≠ some i := by
    intro key i hi
    rw [hempty.index] at hi
    cases hi
  refine ⟨rfl, rfl, rfl, rfl, rfl, fun _ => rfl, fun _ _ _ => rfl, fun _ => 0, [], [], ?_, ?_, rfl⟩
  · refine ⟨hempty.inv, hsetup.1, hsetup.2.1, hsetup.2.2, ?_, ?_, .nil, nofun, ?_, ?_, nofun, nofun⟩
    · intro key
      simp [hnone key]
    · simp [hempty.free_list]
    · exact fun key i hi => absurd hi (hnone key i)
    · exact fun key i hi => absurd hi (hnone key i)
  · exact ⟨.nil, Nat.zero_le _, nofun⟩

theorem reachable_demand_inv
    (h : LTS.Reachable (demand_system.restrict Demand.Orderly) s) : DemandInv s := by
  refine h.invariant ?_ ?_
  · intro s hinit
    exact .init hinit
  · intro s a s' hs hstep
    exact hs.step hstep.2 hstep.1

/-- Between two layers what the store holds is Resident. -/
theorem DemandInv.resident_iff (h : DemandInv s) (hidle : s.phase = .idle) (key : ExpertKey) :
    s.store.resident key = true ↔ key ∈ s.reference.od := by
  obtain ⟨age, old, cur, hm, _, hagrees⟩ := h.agrees
  rw [hidle] at hagrees
  have hod : s.reference.od = old ++ cur := hagrees
  rw [hod, hm.held, ExpertStore.resident]
  cases hi : s.store.index key with
  | none => simp
  | some i =>
    rcases hm.seated key i hi with ⟨hres, _⟩ | ⟨f, hf, _⟩
    · simp [hres]
    · rw [h.landed hidle i ((hm.inv.index key i).mp hi).1] at hf
      cases hf

/-! #### Layers finish -/

/-- How far `plan_layer` is from `wait_layer`. -/
def PlanPhase.weight : PlanPhase → Nat
  | .idle | .waiting => 0
  | .keys => 1
  | .retry _ => 2
  | .reclaim _ => 3
  | .fetch _ => 4
  | .evict _ => 5
  | .room _ => 6
  | .slot_of _ => 7
  | .missed _ => 8

def Demand.planning (s : Demand) : Nat := 10 * s.route.length + s.phase.weight

/-- The runs that have not landed. -/
def Demand.flying (s : Demand) : Nat :=
  ∑ i ∈ Finset.range s.store.slots_size, ((s.fills i).map InFlight.left).getD 0

theorem fetched_planning (s : Demand) (key : ExpertKey) (first : Bool)
    (hphase : s.phase = if first then .fetch key else .retry key) :
    (s.fetched key first).planning < s.planning ∧ (s.fetched key first).trace = s.trace := by
  unfold Demand.fetched Demand.planning
  rw [hphase]
  split
  · cases first
    · exact ⟨by simp [PlanPhase.weight], rfl⟩
    · exact ⟨by simp [PlanPhase.weight], rfl⟩
  · split
    · cases first
      · simp [PlanPhase.weight]
      · split
        · exact ⟨by simp [PlanPhase.weight], rfl⟩
        · exact ⟨by simp [PlanPhase.weight], rfl⟩
    · cases first
      · exact ⟨by simp [PlanPhase.weight], rfl⟩
      · exact ⟨by simp [PlanPhase.weight], rfl⟩

/-- Until `wait_layer` the planner can go on, and comes closer to it. -/
theorem plan_step_planning (hbusy : s.phase.over = false) :
    ∃ s', s.plan_step = some s' ∧ s'.planning < s.planning ∧ s'.trace = s.trace := by
  have hfetched := fetched_planning s
  unfold Demand.plan_step
  cases hphase : s.phase with
  | idle | waiting => simp [PlanPhase.over, hphase] at hbusy
  | keys =>
    dsimp only
    cases hroute : s.route with
    | nil => exact ⟨_, rfl, by simp [Demand.planning, hphase, PlanPhase.weight, hroute], rfl⟩
    | cons key route =>
      dsimp only
      split
      · refine ⟨_, rfl, ?_, rfl⟩
        simp only [Demand.planning, hphase, hroute, List.length_cons, PlanPhase.weight]
        omega
      · refine ⟨_, rfl, ?_, rfl⟩
        simp only [Demand.planning, hphase, hroute, List.length_cons, PlanPhase.weight]
        omega
  | missed key | slot_of key | room key =>
    dsimp only
    split
    · exact ⟨_, rfl, by simp [Demand.planning, hphase, PlanPhase.weight], rfl⟩
    · exact ⟨_, rfl, by simp [Demand.planning, hphase, PlanPhase.weight], rfl⟩
  | evict key => exact ⟨_, rfl, by simp [Demand.planning, hphase, PlanPhase.weight], rfl⟩
  | reclaim key =>
    dsimp only
    split
    · exact ⟨_, rfl, by simp [Demand.planning, hphase, PlanPhase.weight], rfl⟩
    · exact ⟨_, rfl, by simp [Demand.planning, hphase, PlanPhase.weight], rfl⟩
  | fetch key => exact ⟨_, rfl, hfetched key true hphase⟩
  | retry key => exact ⟨_, rfl, hfetched key false hphase⟩

/-- A landed run is one fewer in flight. -/
theorem DemandInv.land_flying (h : DemandInv s) {i : Nat} {f : InFlight}
    (hi : i < s.store.slots_size) (hf : s.fills i = some f) (hstep : s.land i true = some s') :
    s'.phase = s.phase ∧ s'.trace = s.trace ∧ s'.flying < s.flying := by
  obtain ⟨age, old, cur, hm, _, _⟩ := h.agrees
  have hleft : 0 < f.left := by
    obtain ⟨key, hkey⟩ := hm.flights i f hf
    rcases hm.seated key i hkey with ⟨_, _, _, hnone⟩ | ⟨f', hf', hland⟩
    · rw [hf] at hnone
      cases hnone
    · obtain rfl : f = f' := Option.some.inj (hf.symm.trans hf')
      exact hland.left
  have hgeo : SameGeometry s.store (s.store.finish_run i true f.stamp).2 :=
    hm.inv.apply_geometry (show (Op.finish_run i true f.stamp).keeps_contents from rfl)
  unfold Demand.land at hstep
  rw [hf] at hstep
  cases hstep
  refine ⟨rfl, rfl, ?_⟩
  unfold Demand.flying
  dsimp only
  rw [hgeo.slots_size]
  refine Finset.sum_lt_sum ?_ ⟨i, Finset.mem_range.mpr hi, ?_⟩
  · intro j _
    by_cases hj : j = i
    · rw [hj, Function.update_self, hf]
      split
      · exact Nat.zero_le _
      · exact Nat.sub_le _ _
    · rw [Function.update_of_ne hj]
  · rw [Function.update_self, hf]
    split
    · exact hleft
    · show f.left - 1 < f.left
      omega

/-- The runs of the layer land one after the other, and `wait_layer` returns. -/
theorem DemandInv.land_all (h : DemandInv s) (hphase : s.phase = .waiting) :
    ∃ as s', LTS.Run (demand_system.restrict Demand.Orderly) s as s' ∧ s'.phase = .idle ∧
      s'.trace = s.trace := by
  induction hn : s.flying using Nat.strong_induction_on generalizing s with
  | _ n ih =>
    by_cases hlanded : ∀ i < s.store.slots_size, s.fills i = none
    · have hjoined := h.joined
      refine ⟨[.wait_layer], _, .single ⟨if_pos ⟨hphase, hlanded, ?_⟩, trivial⟩, rfl, rfl⟩
      rw [hjoined]
      exact nofun
    · push Not at hlanded
      obtain ⟨i, hi, hfill⟩ := hlanded
      obtain ⟨f, hf⟩ := Option.ne_none_iff_exists'.mp hfill
      have hstep : ∃ s', s.land i true = some s' := by
        unfold Demand.land
        rw [hf]
        exact ⟨_, rfl⟩
      obtain ⟨s', hstep⟩ := hstep
      obtain ⟨hphase', htrace, hless⟩ := h.land_flying hi hf hstep
      obtain ⟨as, s'', hrun, hidle, htrace'⟩ :=
        ih _ (hn ▸ hless) (h.land_step hstep) (hphase'.trans hphase) rfl
      exact ⟨.land i true :: as, s'', .cons ⟨hstep, rfl⟩ hrun, hidle, htrace'.trans htrace⟩

theorem DemandInv.finish_layer (h : DemandInv s) :
    ∃ as s', LTS.Run (demand_system.restrict Demand.Orderly) s as s' ∧ s'.phase = .idle ∧
      s'.trace = s.trace := by
  induction hn : s.planning using Nat.strong_induction_on generalizing s with
  | _ n ih =>
    cases hover : s.phase.over with
    | true =>
      cases hphase : s.phase with
      | idle => exact ⟨[], s, .nil s, hphase, rfl⟩
      | waiting => exact h.land_all hphase
      | _ => simp [hphase, PlanPhase.over] at hover
    | false =>
      obtain ⟨s', hstep, hless, htrace⟩ := plan_step_planning hover
      obtain ⟨as, s'', hrun, hidle, htrace'⟩ := ih _ (hn ▸ hless) (h.plan_step hstep) rfl
      exact ⟨.plan :: as, s'', .cons ⟨hstep, trivial⟩ hrun, hidle, htrace'.trans htrace⟩

/-- In every orderly run the planner has classified the keys it has looked up as the
    reference does, one key after the other; between two layers these are all keys routed so
    far, and what is Resident is what the reference holds. The layer at hand can always be
    finished. -/
theorem plan_layer_refines_lru
    (h : LTS.Reachable (demand_system.restrict Demand.Orderly) s) :
    s.plan = LRU.classify { capacity := s.store.slots_size } (s.plan.map Prod.fst) ∧
    s.plan.map Prod.fst ++ s.route = s.trace ∧
    (s.phase = .idle →
      s.plan = LRU.classify { capacity := s.store.slots_size } s.trace ∧
      ∀ key, s.store.resident key = true ↔
        key ∈ (LRU.run { capacity := s.store.slots_size } s.trace).od) ∧
    ∃ as s', LTS.Run (demand_system.restrict Demand.Orderly) s as s' ∧ s'.phase = .idle ∧
      s'.trace = s.trace := by
  have hinv := reachable_demand_inv h
  refine ⟨hinv.classified, hinv.trace, ?_, hinv.finish_layer⟩
  intro hidle
  have hroute : s.route = [] := hinv.spent (by rw [hidle]; rfl)
  have hkeys : s.plan.map Prod.fst = s.trace := by
    rw [← hinv.trace, hroute, List.append_nil]
  have hresident := hinv.resident_iff hidle
  unfold Demand.reference at hresident
  rw [hkeys] at hresident
  refine ⟨?_, hresident⟩
  conv_rhs => rw [← hkeys]
  exact hinv.classified

end Step

/-! #### Two slots -/

/-- The planner over the two empty slots of `pair_store`. -/
def pair_demand : Demand := { store := pair_store, manifest := fun _ => .ok two_runs }

theorem pair_demand_init : demand_system.init pair_demand :=
  ⟨_, _, _, _, _, pair_store, pair_store_init, rfl⟩

/-- Experts 1 and 2, whose runs land in turns, then 2 and 3: expert 1 has to go. -/
def two_layers : List Action :=
  [.plan_layer ⟨0, [1, 2], [], 3⟩] ++ List.replicate 11 .plan ++
    [.land 1 true, .land 0 true, .land 1 true, .land 0 true, .wait_layer, .complete 3,
      .plan_layer ⟨0, [2, 3], [(5, 1)], 4⟩] ++ List.replicate 8 .plan ++
    [.land 0 true, .land 0 true, .wait_layer]

theorem plan_layer_refines_lru_two_layers :
    ∃ s, LTS.Reachable (demand_system.restrict Demand.Orderly) s ∧
      s.plan = [(⟨0, 1⟩, false), (⟨0, 2⟩, false), (⟨0, 2⟩, true), (⟨0, 3⟩, false)] ∧
      s.store.resident ⟨0, 1⟩ = false ∧ s.store.resident ⟨0, 2⟩ = true ∧
      s.store.resident ⟨0, 3⟩ = true := by
  obtain ⟨s, hreach, hs⟩ := LTS.Reachable.of_guarded Demand.step Demand.Orderly two_layers
    (fun s => s.phase = .idle ∧ s.store.slots_size = 2 ∧
      s.trace = [⟨0, 1⟩, ⟨0, 2⟩, ⟨0, 2⟩, ⟨0, 3⟩]) pair_demand_init (by decide)
  simp only [Bool.decide_and, Bool.and_eq_true, decide_eq_true_eq] at hs
  obtain ⟨hidle, hslots, htrace⟩ := hs
  obtain ⟨_, _, hend, _⟩ := plan_layer_refines_lru hreach
  obtain ⟨hplan, hresident⟩ := hend hidle
  rw [hslots, htrace] at hplan
  rw [hslots, htrace] at hresident
  refine ⟨s, hreach, hplan.trans (by decide), ?_, ?_, ?_⟩
  · rw [Bool.eq_false_iff, Ne, hresident]
    decide
  · rw [hresident]
    decide
  · rw [hresident]
    decide

end CachedMoe.Store
