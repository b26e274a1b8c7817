import CachedMoe.Framework.Newest
import CachedMoe.Store.Frozen
import CachedMoe.Store.Victim
import Mathlib.Data.Prod.Lex

/-! # Streamed admission

    `admit_streamed` and `finish_streamed` of `store/planner.cpp`: a prefill hands its
    experts to the decode cache layer by layer, with stamps that say when each was last
    used. An expert is admitted while a slot is free or its stamp is newer than the oldest
    evictable resident, which it then replaces; so the cache holds the newest of what it
    has seen, in whatever order the experts arrive. -/

namespace CachedMoe.Store

open CachedMoe ExpertStore

/-! ### Model -/

inductive StreamKind where
  | Drop | Fill | Resident
  deriving Repr, DecidableEq

structure StreamAdmit where
  kind : StreamKind := .Drop
  slot : Nat := 0
  addr : SlotAddress := {}
  deriving Repr, DecidableEq

namespace ExpertStore

/-- `wait_settled` where nothing else runs: the answer after the wait, or its timeout. -/
def wait_settled (st : ExpertStore) (key : ExpertKey) : Bool := st.resident key

/-- `begin_fill` with the tier of an admission; no entry means the synthetic layout. -/
def begin_streamed (st : ExpertStore) (key : ExpertKey) (entry : Option ExpertEntry) :
    Result Reservation × ExpertStore :=
  match entry with
  | some entry => st.begin_fill key entry .Cached
  | none => st.begin_fill_synthetic key .Cached

/-- The last part of `admit_streamed`: reserve a slot to read into. -/
def fill_streamed (st : ExpertStore) (key : ExpertKey) (entry : Option ExpertEntry) :
    Result StreamAdmit × ExpertStore :=
  match st.begin_streamed key entry with
  | (.error e, st) => if e.code = .ResourceExhausted then (.ok {}, st) else (.error e, st)
  | (.ok res, st) => (.ok { kind := .Fill, slot := res.slot, addr := res.addr }, st)

/-- `admit_streamed` for an expert that is not resident. -/
def admit_absent (st : ExpertStore) (key : ExpertKey) (stamp : Nat) (entry : Option ExpertEntry) :
    Result StreamAdmit × ExpertStore :=
  if st.free_slots = 0 then
    match st.oldest_evictable_stamp with
    | none => (.ok {}, st)
    | some oldest =>
      if stamp ≤ oldest then (.ok {}, st)
      else
        match st.evict_lru with
        | (.error _, st) => (.ok {}, st)
        | (.ok _, st) => st.fill_streamed key entry
  else st.fill_streamed key entry

def admit_streamed (st : ExpertStore) (key : ExpertKey) (stamp : Nat) (entry : Option ExpertEntry)
    (guard : Nat) : Result StreamAdmit × ExpertStore :=
  match st.slot_of key with
  | none => st.admit_absent key stamp entry
  | some slot =>
    let st :=
      match st.touch key stamp false with
      | (true, st) => st
      | (false, st) => if st.wait_settled key then (st.touch key stamp false).2 else st
    if st.resident key then
      match st.set_guard slot guard with
      | (.error e, st) => (.error e, st)
      | (.ok (), st) =>
        let info := st.slots slot
        (.ok { kind := .Resident, slot := slot, addr := ⟨info.host_ptr, info.dev_addr⟩ }, st)
    else st.admit_absent key stamp entry

def finish_streamed (st : ExpertStore) (a : StreamAdmit) (ok : Bool) (stamp : Nat) :
    Result Unit × ExpertStore :=
  if a.kind ≠ .Fill then (.ok (), st) else st.finish_fill a.slot ok stamp

end ExpertStore

/-- One streamed expert: its stamp, where to read it from, the guard of its use, and the
    timeline value that is complete once it was used. -/
structure Admission where
  key : ExpertKey
  stamp : Nat
  entry : Option ExpertEntry := none
  guard : Nat := 0
  completed : Nat := 0

/-- An admission whose fill is finished, and whose use is over, before the next. -/
def Admission.run (a : Admission) (st : ExpertStore) : Result ExpertStore :=
  match st.admit_streamed a.key a.stamp a.entry a.guard with
  | (.error e, _) => .error e
  | (.ok adm, st) =>
    match st.finish_streamed adm true a.stamp with
    | (.error e, _) => .error e
    | (.ok (), st) => .ok (st.set_completed_timeline a.completed)

/-- Admissions one after the other. -/
def stream (st : ExpertStore) (as : List Admission) : Result ExpertStore :=
  as.foldlM (fun st a => a.run st) st

variable {st st' : ExpertStore}

/-! ### A store at rest -/

/-- What every operation of an admission leaves as it is. -/
structure SameSetup (st st' : ExpertStore) : Prop extends SameGeometry st st' where
  evict_path : st'.evict_path = st.evict_path
  fixed : st'.fixed_cache = st.fixed_cache
  frozen : st'.cache_frozen = st.cache_frozen

theorem SameSetup.trans {st₁ : ExpertStore} (h : SameSetup st st₁) (h' : SameSetup st₁ st') :
    SameSetup st st' :=
  ⟨h.toSameGeometry.trans h'.toSameGeometry, h'.evict_path.trans h.evict_path,
    h'.fixed.trans h.fixed, h'.frozen.trans h.frozen⟩

theorem SameSetup.set_slot (st : ExpertStore) (i : Nat) (s : ExpertSlot)
    (stats : ExpertStoreStats) : SameSetup st (st.set_slot i s stats) :=
  ⟨⟨rfl, rfl, rfl, rfl, le_rfl⟩, rfl, rfl, rfl⟩

/-- No slot is filling, pinned or guarded, and the LRU is on. -/
structure Still (st : ExpertStore) : Prop where
  inv : Inv st
  evict_path : st.evict_path = .Off
  fixed : st.fixed_cache = false
  frozen : st.cache_frozen = false
  settled : ∀ i < st.slots_size, (st.slots i).state ≠ .Filling
  unpinned : ∀ i < st.slots_size, (st.slots i).state = .Resident → (st.slots i).tier ≠ .Pinned
  unguarded : ∀ i < st.slots_size, (st.slots i).state = .Resident →
    (st.slots i).guard_timeline ≤ st.completed_timeline

theorem Still.resident (h : Still st) {key : ExpertKey} {i : Nat} (hi : st.index key = some i) :
    i < st.slots_size ∧ (st.slots i).state = .Resident ∧ (st.slots i).key = key := by
  obtain ⟨hlt, hused, hkey⟩ := (h.inv.index key i).mp hi
  refine ⟨hlt, ?_, hkey⟩
  have hsettled := h.settled i hlt
  cases hstate : (st.slots i).state with
  | Free => exact absurd hstate hused
  | Filling => exact absurd hstate hsettled
  | Resident => rfl

theorem Still.evictable (h : Still st) {i : Nat} (hlt : i < st.slots_size)
    (hres : (st.slots i).state = .Resident) : st.is_evictable (st.slots i) := by
  simp [is_evictable, hres, h.unpinned i hlt hres, h.unguarded i hlt hres]

/-- A store without a free slot holds a Resident in each. -/
theorem Still.full (h : Still st) (hfull : st.free_list = []) :
    ∀ i < st.slots_size, (st.slots i).state = .Resident := by
  intro i hlt
  have hsettled := h.settled i hlt
  cases hstate : (st.slots i).state with
  | Free =>
    have hmem := (h.inv.free_list.2 i).mpr ⟨hlt, hstate⟩
    rw [hfull] at hmem
    cases hmem
  | Filling => exact absurd hstate hsettled
  | Resident => rfl

/-- One slot changed, to a Resident that can be evicted once the timeline has moved on. -/
theorem Still.of_update (h : Still st) (hinv : Inv st') (hsetup : SameSetup st st') {i : Nat}
    {s : ExpertSlot} (hslots : st'.slots = Function.update st.slots i s)
    (hres : s.state = .Resident) (hpin : s.tier ≠ .Pinned)
    (hguard : s.guard_timeline ≤ st'.completed_timeline) : Still st' where
  inv := hinv
  evict_path := hsetup.evict_path.trans h.evict_path
  fixed := hsetup.fixed.trans h.fixed
  frozen := hsetup.frozen.trans h.frozen
  settled := by
    intro j hj
    rw [hslots]
    by_cases hji : j = i
    · rw [hji, Function.update_self, hres]
      decide
    · rw [Function.update_of_ne hji]
      exact h.settled j (hsetup.slots_size ▸ hj)
  unpinned := by
    intro j hj
    rw [hslots]
    by_cases hji : j = i
    · rw [hji, Function.update_self]
      exact fun _ => hpin
    · rw [Function.update_of_ne hji]
      exact h.unpinned j (hsetup.slots_size ▸ hj)
  unguarded := by
    intro j hj
    rw [hslots]
    by_cases hji : j = i
    · rw [hji, Function.update_self]
      exact fun _ => hguard
    · rw [Function.update_of_ne hji]
      exact fun hjres => (h.unguarded j (hsetup.slots_size ▸ hj) hjres).trans hsetup.completed

theorem set_completed_timeline_setup (st : ExpertStore) (v : Nat) :
    SameSetup st (st.set_completed_timeline v) ∧
    v ≤ (st.set_completed_timeline v).completed_timeline ∧
    (st.set_completed_timeline v).slots = st.slots ∧
    (st.set_completed_timeline v).index = st.index ∧
    (st.set_completed_timeline v).free_list = st.free_list := by
  unfold ExpertStore.set_completed_timeline
  split
  next hgt =>
    refine ⟨⟨⟨rfl, rfl, rfl, rfl, ?_⟩, rfl, rfl, rfl⟩, le_rfl, rfl, rfl, rfl⟩
    exact hgt.le
  next hle =>
    exact ⟨⟨.refl st, rfl, rfl, rfl⟩, not_lt.mp hle, rfl, rfl, rfl⟩

/-! ### Loading a free slot -/

/-- A manifest entry `begin_fill` accepts. -/
def ExpertEntry.Fits (entry : ExpertEntry) : Prop :=
  0 < entry.runs.length ∧ entry.runs.length ≤ layout.kMaxExpertRuns ∧
    entry.slot_bytes ≤ layout.kExpertSlotBytes

/-- Slot `i` is opened for `key`, with no stamp, guard or failed run yet. -/
structure Opened (st st' : ExpertStore) (key : ExpertKey) (i : Nat) (s : ExpertSlot) : Prop
    extends SameSetup st st' where
  slots : st'.slots = Function.update st.slots i s
  index : st'.index = Function.update st.index key (some i)
  free_list : st.free_list = i :: st'.free_list
  state : s.state = .Filling
  tier : s.tier = .Cached
  guard : s.guard_timeline = 0
  stamp : s.last_use_token = 0
  run_failed : s.run_failed = false

theorem taken_opened {key : ExpertKey} {i : Nat} {rest : List Nat} (hfree : st.free_list = i :: rest)
    (n : Nat) (part_offset part_bytes : ExpertPart → Nat) (stats : ExpertStoreStats) :
    Opened st ((taken st key .Cached i rest).set_slot i
      (laid_out ((taken st key .Cached i rest).slots i) n part_offset part_bytes) stats) key i
      (laid_out (reserved_slot (st.slots i) key .Cached) n part_offset part_bytes) where
  toSameSetup := ⟨⟨rfl, rfl, rfl, rfl, le_rfl⟩, rfl, rfl, rfl⟩
  slots := by simp [taken, set_slot]
  index := rfl
  free_list := hfree
  state := rfl
  tier := rfl
  guard := rfl
  stamp := rfl
  run_failed := rfl

/-- With a free slot, an absent key in range and an entry that fits, a slot is opened. -/
theorem Inv.begin_streamed (hinv : Inv st) {key : ExpertKey} {entry : Option ExpertEntry} {i : Nat}
    {rest : List Nat} (hfrozen : st.cache_frozen = false) (hrange : st.key_in_range key)
    (habsent : st.index key = none) (hfree : st.free_list = i :: rest)
    (hfits : ∀ e, entry = some e → e.Fits) :
    ∃ res s st₁, st.begin_streamed key entry = (.ok res, st₁) ∧ res.slot = i ∧
      Opened st st₁ key i s := by
  have hres : ∃ addr, st.reserve_locked key .Cached =
      (.ok { slot := i, addr := addr }, taken st key .Cached i rest) := by
    refine ⟨⟨(st.slots i).host_ptr, (st.slots i).dev_addr⟩, ?_⟩
    simp only [reserve_locked, hfrozen, hrange, habsent, hfree, Bool.false_eq_true, if_false,
      not_true_eq_false]
    rfl
  obtain ⟨addr, hres⟩ := hres
  cases entry with
  | none =>
    unfold ExpertStore.begin_streamed ExpertStore.begin_fill_synthetic
    rw [hres]
    exact ⟨_, _, _, rfl, rfl, taken_opened hfree 1 planar_offset planar_bytes _⟩
  | some entry =>
    obtain ⟨hpos, hmax, hbytes⟩ := hfits entry rfl
    rw [← hinv.placed.slot_bytes] at hbytes
    unfold ExpertStore.begin_streamed ExpertStore.begin_fill
    dsimp only
    rw [if_neg hpos.ne', if_neg (not_lt.mpr hmax), if_neg (not_lt.mpr hbytes), hres]
    exact ⟨_, _, _, rfl, rfl,
      taken_opened hfree entry.runs.length entry.part_offset entry.part_bytes _⟩

/-- Slot `i` holds `key`, as a Resident stamped `stamp`. -/
structure Loaded (st st' : ExpertStore) (key : ExpertKey) (i stamp : Nat) : Prop
    extends SameSetup st st' where
  slots : ∃ s, st'.slots = Function.update st.slots i s ∧ s.state = .Resident ∧
    s.tier ≠ .Pinned ∧ s.guard_timeline = 0 ∧ s.last_use_token = stamp
  index : st'.index = Function.update st.index key (some i)

theorem Opened.finish_fill {key : ExpertKey} {i : Nat} {s : ExpertSlot} (h : Opened st st' key i s)
    (hlt : i < st.slots_size) (hfixed : st.fixed_cache = false) (stamp : Nat) :
    ∃ st₁, st'.finish_fill i true stamp = (.ok (), st₁) ∧ Loaded st st₁ key i stamp := by
  have hslot : st'.slots i = s := by rw [h.slots, Function.update_self]
  have hfixed' : st'.fixed_cache = false := h.fixed.trans hfixed
  have hlt' : ¬ i ≥ st'.slots_size := by
    rw [h.slots_size]
    exact not_le.mpr hlt
  have hfill : ¬ (st'.slots i).state ≠ .Filling := by
    rw [hslot]
    exact not_not.mpr h.state
  unfold ExpertStore.finish_fill
  dsimp only
  rw [if_neg hlt', if_neg hfill, hslot, h.run_failed]
  refine ⟨_, rfl, ?_⟩
  refine { toSameSetup := ?_, slots := ?_, index := ?_ }
  · refine ⟨⟨h.layers, h.experts_per_layer, h.slots_size, h.slot_bytes, h.completed⟩, h.evict_path,
      h.fixed, ?_⟩
    simp [settle_locked, set_slot, publish_locked, hfixed', h.frozen]
  · refine ⟨settled_slot { s with runs_done := s.runs_total } stamp, ?_, rfl, ?_, ?_, ?_⟩
    · simp [settle_locked, set_slot, publish_locked, h.slots, h.run_failed]
    · simp [settled_slot, h.tier]
    · simp [settled_slot, h.guard]
    · simp [settled_slot, h.stamp]
  · simp [settle_locked, set_slot, publish_locked, h.index]

/-! ### One admission -/

/-- What an admission that succeeds does, as the index and the stamps show it. -/
inductive Outcome (st st' : ExpertStore) (key : ExpertKey) (stamp : Nat) : Prop where
  | touched (i : Nat) (held : st.index key = some i) (index : st'.index = st.index)
      (newest : (st'.slots i).last_use_token = max (st.slots i).last_use_token stamp)
      (other : ∀ j, j ≠ i → (st'.slots j).last_use_token = (st.slots j).last_use_token)
  | dropped (absent : st.index key = none) (full : st.free_list = [])
      (old : ∀ j < st.slots_size, stamp ≤ (st.slots j).last_use_token)
      (index : st'.index = st.index)
      (other : ∀ j, (st'.slots j).last_use_token = (st.slots j).last_use_token)
  | filled (i : Nat) (absent : st.index key = none) (free : i ∈ st.free_list)
      (index : st'.index = Function.update st.index key (some i))
      (newest : (st'.slots i).last_use_token = stamp)
      (other : ∀ j, j ≠ i → (st'.slots j).last_use_token = (st.slots j).last_use_token)
  | replaced (v : ExpertKey) (i : Nat) (absent : st.index key = none) (full : st.free_list = [])
      (held : st.index v = some i) (oldest : ∀ j < st.slots_size, Older st i j)
      (newer : (st.slots i).last_use_token < stamp)
      (index : st'.index = Function.update (Function.update st.index v none) key (some i))
      (newest : (st'.slots i).last_use_token = stamp)
      (other : ∀ j, j ≠ i → (st'.slots j).last_use_token = (st.slots j).last_use_token)

/-- An admission the store can serve: its key has a row, its entry fits a slot, and its
    guard is completed with its use. -/
structure Admissible (st : ExpertStore) (a : Admission) : Prop where
  in_range : st.key_in_range a.key
  fits : ∀ e, a.entry = some e → e.Fits
  guard : a.guard ≤ a.completed

theorem set_slot_self (st : ExpertStore) (i : Nat) : st.set_slot i (st.slots i) = st := by
  simp [set_slot]

theorem touch_resident {key : ExpertKey} {i : Nat} (hi : st.index key = some i)
    (hres : (st.slots i).state = .Resident) (hfixed : st.fixed_cache = false) (stamp : Nat) :
    st.touch key stamp false = (true, st.set_slot i
      { st.slots i with last_use_token := max (st.slots i).last_use_token stamp }) := by
  unfold ExpertStore.touch
  rw [hi]
  dsimp only
  rw [if_neg (fun hno => hno.1 hres), hfixed]
  by_cases hnew : stamp > (st.slots i).last_use_token
  · rw [if_pos ⟨by decide, hnew⟩, max_eq_right hnew.le]
  · rw [if_neg (fun hand => hnew hand.2), max_eq_left (not_lt.mp hnew), set_slot_self]

/-- A guard is raised, never lowered. -/
theorem set_guard_lt {i : Nat} (hlt : i < st.slots_size) (guard : Nat) :
    st.set_guard i guard = (.ok (), st.set_slot i
      { st.slots i with guard_timeline := max (st.slots i).guard_timeline guard }) := by
  unfold ExpertStore.set_guard
  rw [if_neg (not_le.mpr hlt)]
  dsimp only
  by_cases hnew : guard > (st.slots i).guard_timeline
  · rw [if_pos hnew, max_eq_right hnew.le]
  · rw [if_neg hnew, max_eq_left (not_lt.mp hnew), set_slot_self]

/-- A Resident with a newer stamp and a higher guard. -/
def touched_slot (s : ExpertSlot) (stamp guard : Nat) : ExpertSlot :=
  { s with
    last_use_token := max s.last_use_token stamp
    guard_timeline := max s.guard_timeline guard }

theorem Still.admit_held (h : Still st) {a : Admission} {i : Nat} (hi : st.index a.key = some i) :
    ∃ adm, adm.kind = .Resident ∧
      st.admit_streamed a.key a.stamp a.entry a.guard =
        (.ok adm, st.set_slot i (touched_slot (st.slots i) a.stamp a.guard)) := by
  obtain ⟨hlt, hres, _⟩ := h.resident hi
  unfold ExpertStore.admit_streamed
  rw [slot_of, hi]
  dsimp only
  rw [touch_resident hi hres h.fixed]
  dsimp only
  rw [if_pos, set_guard_lt (show i < (st.set_slot i _).slots_size from hlt)]
  · refine ⟨{ kind := .Resident, slot := i, addr := ⟨(st.slots i).host_ptr, (st.slots i).dev_addr⟩ },
      rfl, ?_⟩
    simp [set_slot, touched_slot]
  · rw [resident_iff]
    refine ⟨i, hi, ?_⟩
    simpa [set_slot] using hres

theorem Still.run_held (h : Still st) {a : Admission} (ha : Admissible st a) {i : Nat}
    (hi : st.index a.key = some i) :
    ∃ st', a.run st = .ok st' ∧ Still st' ∧ SameGeometry st st' ∧
      Outcome st st' a.key a.stamp := by
  obtain ⟨hlt, hres, _⟩ := h.resident hi
  obtain ⟨adm, hkind, hadmitted⟩ := h.admit_held hi
  obtain ⟨hsetup₁, hdone, hslots, hindex, _⟩ := set_completed_timeline_setup
    (st.set_slot i (touched_slot (st.slots i) a.stamp a.guard)) a.completed
  have hsetup := (SameSetup.set_slot st i _ _).trans hsetup₁
  refine ⟨(st.set_slot i (touched_slot (st.slots i) a.stamp a.guard)).set_completed_timeline
    a.completed, ?_, ?_, ?_, ?_⟩
  · unfold Admission.run
    rw [hadmitted]
    simp [ExpertStore.finish_streamed, hkind]
  · have hkeep : Keep st (st.set_slot i (touched_slot (st.slots i) a.stamp a.guard)) :=
      Keep.of_set_slot ⟨rfl, rfl, rfl, rfl, rfl, le_max_left _ _⟩ rfl
    refine h.of_update ((set_completed_timeline_keep a.completed).inv (hkeep.inv h.inv)) hsetup
      hslots hres (h.unpinned i hlt hres) ?_
    refine max_le ?_ (ha.guard.trans hdone)
    exact (h.unguarded i hlt hres).trans hsetup.completed
  · exact hsetup.toSameGeometry
  · refine .touched i hi hindex ?_ ?_
    · rw [hslots]
      simp [set_slot, touched_slot]
    · intro j hj
      rw [hslots]
      simp [set_slot, Function.update_of_ne hj]

theorem Inv.begin_streamed_inv (hinv : Inv st) (key : ExpertKey) (entry : Option ExpertEntry) :
    Inv (st.begin_streamed key entry).2 := by
  cases entry with
  | none => exact hinv.apply (.begin_fill_synthetic key .Cached)
  | some entry => exact hinv.apply (.begin_fill key entry .Cached)

/-- With a free slot an absent key is filled and published. -/
theorem Still.load (h : Still st) {a : Admission} (ha : Admissible st a)
    (habsent : st.index a.key = none) {i : Nat} {rest : List Nat} (hfree : st.free_list = i :: rest) :
    ∃ adm st₁ st₂, st.fill_streamed a.key a.entry = (.ok adm, st₁) ∧
      st₁.finish_streamed adm true a.stamp = (.ok (), st₂) ∧
      Loaded st st₂ a.key i a.stamp ∧ Inv st₂ := by
  have hlt := ((h.inv.free_list.2 i).mp (hfree ▸ List.mem_cons_self)).1
  obtain ⟨res, s, st₁, hbegin, hslot, hopened⟩ :=
    h.inv.begin_streamed h.frozen ha.in_range habsent hfree ha.fits
  obtain ⟨st₂, hfinish, hloaded⟩ := hopened.finish_fill hlt h.fixed a.stamp
  have hinv₁ := h.inv.begin_streamed_inv a.key a.entry
  rw [hbegin] at hinv₁
  have hinv₂ := hinv₁.apply (.finish_fill i true a.stamp)
  rw [ExpertStore.apply, hfinish] at hinv₂
  refine ⟨{ kind := .Fill, slot := res.slot, addr := res.addr }, st₁, st₂, ?_, ?_, hloaded, hinv₂⟩
  · unfold ExpertStore.fill_streamed
    rw [hbegin]
  · unfold ExpertStore.finish_streamed
    rw [if_neg (by simp)]
    dsimp only
    rw [hslot, hfinish]

/-- What a loaded slot leaves, once the timeline has moved on. -/
theorem Still.of_loaded (h : Still st) {key : ExpertKey} {i stamp completed : Nat}
    (hload : Loaded st st' key i stamp) (hinv : Inv st') :
    Still (st'.set_completed_timeline completed) ∧
    SameGeometry st (st'.set_completed_timeline completed) ∧
    (st'.set_completed_timeline completed).index = Function.update st.index key (some i) ∧
    ((st'.set_completed_timeline completed).slots i).last_use_token = stamp ∧
    ∀ j, j ≠ i → ((st'.set_completed_timeline completed).slots j).last_use_token =
      (st.slots j).last_use_token := by
  obtain ⟨hsetup, _, hslots, hindex, _⟩ := set_completed_timeline_setup st' completed
  obtain ⟨s, hs, hres, hpin, hguard, hstamp⟩ := hload.slots
  rw [hs] at hslots
  refine ⟨?_, hload.toSameGeometry.trans hsetup.toSameGeometry, hindex.trans hload.index, ?_, ?_⟩
  · refine h.of_update ((set_completed_timeline_keep completed).inv hinv)
      (hload.toSameSetup.trans hsetup) hslots hres hpin ?_
    rw [hguard]
    exact Nat.zero_le _
  · rw [hslots, Function.update_self, hstamp]
  · intro j hj
    rw [hslots, Function.update_of_ne hj]

/-- A recycled slot is the first free one, and its key is gone. -/
theorem recycle_setup (st : ExpertStore) (b : Nat) :
    SameSetup st (st.recycle b) ∧ (st.recycle b).free_list = b :: st.free_list ∧
    (st.recycle b).index = Function.update st.index (st.slots b).key none ∧
    ((st.recycle b).slots b).state = .Free ∧
    ∀ j, j ≠ b → (st.recycle b).slots j = st.slots j := by
  refine ⟨⟨⟨rfl, rfl, rfl, rfl, le_rfl⟩, rfl, rfl, rfl⟩, rfl, rfl, ?_, ?_⟩
  · simp [recycle, release_locked, unpublish_locked, set_slot, released_slot]
  · intro j hj
    simp [recycle, release_locked, unpublish_locked, set_slot, Function.update_of_ne hj]

/-- A Resident is recycled. -/
theorem Still.recycle (h : Still st) {b : Nat} (hlt : b < st.slots_size)
    (hres : (st.slots b).state = .Resident) : Still (st.recycle b) := by
  have hinv := (recycle_move hlt h.fixed (h.evictable hlt hres)).inv h.inv
  obtain ⟨_, _, _, hself, hother⟩ := recycle_setup st b
  refine ⟨hinv, h.evict_path, h.fixed, h.frozen, ?_, ?_, ?_⟩
  · intro j hj
    by_cases hjb : j = b
    · rw [hjb, hself]
      decide
    · rw [hother j hjb]
      exact h.settled j hj
  · intro j hj hjres
    by_cases hjb : j = b
    · rw [hjb, hself] at hjres
      cases hjres
    · rw [hother j hjb] at hjres ⊢
      exact h.unpinned j hj hjres
  · intro j hj hjres
    by_cases hjb : j = b
    · rw [hjb, hself] at hjres
      cases hjres
    · rw [hother j hjb] at hjres ⊢
      exact h.unguarded j hj hjres

/-- A new expert fills a slot, replaces the oldest, or is dropped. -/
theorem Still.run_absent (h : Still st) {a : Admission} (ha : Admissible st a)
    (habsent : st.index a.key = none) :
    ∃ st', a.run st = .ok st' ∧ Still st' ∧ SameGeometry st st' ∧
      Outcome st st' a.key a.stamp := by
  have hadmitted : st.admit_streamed a.key a.stamp a.entry a.guard =
      st.admit_absent a.key a.stamp a.entry := by
    unfold ExpertStore.admit_streamed
    rw [slot_of, habsent]
  unfold Admission.run
  rw [hadmitted]
  unfold ExpertStore.admit_absent
  -- a free slot takes the expert; else the oldest one goes if it is older
  cases hfree : st.free_list with
  | cons i rest =>
    rw [if_neg (by rw [h.inv.free_slots_eq_zero, hfree]; simp)]
    obtain ⟨adm, st₁, st₂, hfill, hfinish, hload, hinv⟩ := h.load ha habsent hfree
    obtain ⟨hstill, hgeometry, hindex, hnewest, hother⟩ := h.of_loaded hload hinv
    refine ⟨_, ?_, hstill, hgeometry, ?_⟩
    · rw [hfill]
      dsimp only
      rw [hfinish]
    · exact .filled i habsent (hfree ▸ List.mem_cons_self) hindex hnewest hother
  | nil =>
    rw [if_pos (h.inv.free_slots_eq_zero.mpr hfree), oldest_evictable_stamp, h.fixed,
      oldest_stamp_eq, if_neg (by decide)]
    obtain ⟨hsetup, _, hslots, hindex, _⟩ := set_completed_timeline_setup st a.completed
    have hdrop : Still (st.set_completed_timeline a.completed) := by
      refine ⟨(set_completed_timeline_keep a.completed).inv h.inv,
        hsetup.evict_path.trans h.evict_path, hsetup.fixed.trans h.fixed,
        hsetup.frozen.trans h.frozen, ?_, ?_, ?_⟩
      · rw [hslots, hsetup.slots_size]
        exact h.settled
      · rw [hslots, hsetup.slots_size]
        exact h.unpinned
      · rw [hslots, hsetup.slots_size]
        exact fun i hi hres => (h.unguarded i hi hres).trans hsetup.completed
    have hstamps : ∀ j, ((st.set_completed_timeline a.completed).slots j).last_use_token =
        (st.slots j).last_use_token := fun j => by rw [hslots]
    cases hscan : st.scan none st.slots_size with
    | none =>
      refine ⟨_, rfl, hdrop, hsetup.toSameGeometry, .dropped habsent hfree ?_ hindex hstamps⟩
      intro j hj
      exact absurd (h.evictable hj (h.full hfree j hj)) (scan_none hscan j hj)
    | some b =>
      have hlt := (scan_evictable hscan).1
      have hres := h.full hfree b hlt
      have holdest : ∀ j < st.slots_size, Older st b j := fun j hj =>
        scan_oldest hscan j hj (h.evictable hj (h.full hfree j hj))
      dsimp only [Option.map_some]
      by_cases hold : a.stamp ≤ (st.slots b).last_use_token
      · rw [if_pos hold]
        refine ⟨_, rfl, hdrop, hsetup.toSameGeometry, .dropped habsent hfree ?_ hindex hstamps⟩
        intro j hj
        exact hold.trans (holdest j hj).le
      -- the victim is recycled and the expert loaded into its slot
      · have hevict : st.evict_lru = (.ok b, st.recycle b) := by
          simp [ExpertStore.evict_lru, h.fixed, lru_victim_off h.evict_path, hscan]
        rw [if_neg hold, hevict]
        have hstill₁ := h.recycle hlt hres
        obtain ⟨hsetup₁, hfree₁, hindex₁, _, hother₁⟩ := recycle_setup st b
        have hgeometry₁ := hsetup₁.toSameGeometry
        have habsent₁ : (st.recycle b).index a.key = none := by
          rw [hindex₁, Function.update_apply]
          split
          · rfl
          · exact habsent
        have ha₁ : Admissible (st.recycle b) a :=
          ⟨by rw [key_in_range_eq hgeometry₁]; exact ha.in_range, ha.fits, ha.guard⟩
        obtain ⟨adm, st₁, st₂, hfill, hfinish, hload, hinv⟩ := hstill₁.load ha₁ habsent₁ hfree₁
        obtain ⟨hstill, hgeometry, hindex, hnewest, hother⟩ := hstill₁.of_loaded hload hinv
        refine ⟨_, ?_, hstill, hgeometry₁.trans hgeometry, ?_⟩
        · dsimp only
          rw [hfill]
          dsimp only
          rw [hfinish]
        · refine .replaced (st.slots b).key b habsent hfree ?_ holdest (not_le.mp hold)
            (hindex.trans (by rw [hindex₁])) hnewest ?_
          · exact (h.inv.index _ b).mpr ⟨hlt, by rw [hres]; decide, rfl⟩
          · intro j hj
            rw [hother j hj, hother₁ j hj]

/-- Every admissible admission to a store at rest succeeds, and leaves it at rest. -/
theorem Still.run (h : Still st) {a : Admission} (ha : Admissible st a) :
    ∃ st', a.run st = .ok st' ∧ Still st' ∧ SameGeometry st st' ∧
      Outcome st st' a.key a.stamp := by
  cases hi : st.index a.key with
  | none => exact h.run_absent ha hi
  | some i => exact h.run_held ha hi

/-! ### What was seen -/

/-- The keys of the Resident slots. -/
def residents (st : ExpertStore) : Finset ExpertKey :=
  ((Finset.range st.slots_size).filter fun i => (st.slots i).state = .Resident).image
    fun i => (st.slots i).key

/-- The stamp of a key that is held. -/
def stamp_of (st : ExpertStore) (key : ExpertKey) : Option Nat :=
  (st.index key).map fun i => (st.slots i).last_use_token

theorem Still.mem_residents (h : Still st) {key : ExpertKey} :
    key ∈ residents st ↔ ∃ i, st.index key = some i := by
  rw [residents, Finset.mem_image]
  constructor
  · rintro ⟨i, hi, rfl⟩
    obtain ⟨hlt, hres⟩ := Finset.mem_filter.mp hi
    exact ⟨i, (h.inv.index _ i).mpr ⟨Finset.mem_range.mp hlt, by rw [hres]; decide, rfl⟩⟩
  · rintro ⟨i, hi⟩
    obtain ⟨hlt, hres, hkey⟩ := h.resident hi
    exact ⟨i, Finset.mem_filter.mpr ⟨Finset.mem_range.mpr hlt, hres⟩, hkey⟩

theorem Still.notMem_residents (h : Still st) {key : ExpertKey} :
    key ∉ residents st ↔ st.index key = none := by
  rw [h.mem_residents, Option.eq_none_iff_forall_ne_some, not_exists]

/-- Every slot holds a key or is free. -/
theorem Still.card_residents (h : Still st) :
    (residents st).card + st.free_list.length = st.slots_size := by
  have hinj : Set.InjOn (fun i => (st.slots i).key)
      ((Finset.range st.slots_size).filter fun i => (st.slots i).state = .Resident) := by
    intro i hi j hj heq
    obtain ⟨hi, hires⟩ := Finset.mem_filter.mp hi
    obtain ⟨hj, hjres⟩ := Finset.mem_filter.mp hj
    have hi' := index_own_key h.inv (Finset.mem_range.mp hi) (by rw [hires]; decide)
    have hj' := index_own_key h.inv (Finset.mem_range.mp hj) (by rw [hjres]; decide)
    have heq' : (st.slots i).key = (st.slots j).key := heq
    rw [heq', hj'] at hi'
    exact (Option.some.inj hi').symm
  have hfree : st.free_list.length =
      ((Finset.range st.slots_size).filter fun i => ¬ (st.slots i).state = .Resident).card := by
    rw [← h.inv.free_eq_length, h.inv.counts.free, slots_with, PointUpdate.count]
    congr 1
    refine Finset.filter_congr ?_
    intro i hi
    have hsettled := h.settled i (Finset.mem_range.mp hi)
    cases hstate : (st.slots i).state with
    | Free => simp
    | Filling => exact absurd hstate hsettled
    | Resident => simp
  rw [residents, Finset.card_image_of_injOn hinj, hfree, Finset.card_filter_add_card_filter_not,
    Finset.card_range]

/-- The stamp a key has at the start; 0 for a key that is not held. -/
def first_stamp (st : ExpertStore) (key : ExpertKey) : Nat := (stamp_of st key).getD 0

/-- The newest stamp of a key among those it had at the start and was admitted with. -/
def latest (st : ExpertStore) (ps : List (ExpertKey × Nat)) (key : ExpertKey) : Nat :=
  ps.foldl (fun m p => if p.1 = key then max m p.2 else m) (first_stamp st key)

/-- The keys held at the start and those admitted. -/
def seen (st : ExpertStore) (ps : List (ExpertKey × Nat)) : Finset ExpertKey :=
  residents st ∪ (ps.map Prod.fst).toFinset

theorem latest_append (st : ExpertStore) (ps : List (ExpertKey × Nat)) (k : ExpertKey) (s : Nat)
    (key : ExpertKey) : latest st (ps ++ [(k, s)]) key =
      if k = key then max (latest st ps key) s else latest st ps key := by
  simp [latest]

theorem seen_append (st : ExpertStore) (ps : List (ExpertKey × Nat)) (k : ExpertKey) (s : Nat) :
    seen st (ps ++ [(k, s)]) = insert k (seen st ps) := by
  ext key
  simp only [seen, List.map_append, List.map_cons, List.map_nil, Finset.mem_union,
    List.mem_toFinset, List.mem_append, List.mem_singleton, Finset.mem_insert]
  tauto

theorem latest_unseen (h : Still st) {ps : List (ExpertKey × Nat)} {key : ExpertKey}
    (hseen : key ∉ seen st ps) : latest st ps key = 0 := by
  induction ps using List.reverseRecOn with
  | nil =>
    have hmem : key ∉ residents st := by simpa [seen] using hseen
    simp [latest, first_stamp, stamp_of, h.notMem_residents.mp hmem]
  | append_singleton ps p ih =>
    obtain ⟨k, s⟩ := p
    rw [seen_append, Finset.mem_insert, not_or] at hseen
    rw [latest_append, if_neg (fun heq => hseen.1 heq.symm), ih hseen.2]

/-- The newest stamp of a key that was seen is one of its stamps. -/
theorem latest_mem (h : Still st) {ps : List (ExpertKey × Nat)} {key : ExpertKey}
    (hseen : key ∈ seen st ps) :
    stamp_of st key = some (latest st ps key) ∨ (key, latest st ps key) ∈ ps := by
  induction ps using List.reverseRecOn with
  | nil =>
    left
    have hmem : key ∈ residents st := by simpa [seen] using hseen
    obtain ⟨i, hi⟩ := h.mem_residents.mp hmem
    simp [latest, first_stamp, stamp_of, hi]
  | append_singleton ps p ih =>
    obtain ⟨k, s⟩ := p
    rw [latest_append]
    rw [seen_append, Finset.mem_insert] at hseen
    split
    next heq =>
      subst heq
      by_cases hold : k ∈ seen st ps
      · rcases le_total s (latest st ps k) with hle | hle
        · rw [max_eq_left hle]
          exact (ih hold).imp_right fun hmem => List.mem_append_left _ hmem
        · rw [max_eq_right hle]
          right
          simp
      · -- first seen now, so the newest stamp before counts as 0
        have hzero : latest st ps k = 0 := latest_unseen h hold
        rw [hzero, Nat.zero_max]
        right
        simp
    next hne =>
      have hold : key ∈ seen st ps := hseen.resolve_left fun heq => hne heq.symm
      exact (ih hold).imp_right fun hmem => List.mem_append_left _ hmem

/-! ### The invariant of a stream -/

/-- What decides who is kept: the newest stamp, and among equals the slot at the start. -/
def rank (st : ExpertStore) (ps : List (ExpertKey × Nat)) (key : ExpertKey) : Nat ×ₗ Nat :=
  toLex (latest st ps key, (st.index key).getD 0)

/-- The stamps a key is admitted with differ from those of every other key, admitted or
    held at the start. -/
def DistinctStamps (st : ExpertStore) (ps : List (ExpertKey × Nat)) : Prop :=
  ∀ p ∈ ps, (∀ q ∈ ps, q.1 ≠ p.1 → q.2 ≠ p.2) ∧
    ∀ key s, stamp_of st key = some s → key ≠ p.1 → s ≠ p.2

/-- No other key that was seen has the newest stamp of `key`. -/
def AloneAt (st : ExpertStore) (ps : List (ExpertKey × Nat)) (key : ExpertKey) : Prop :=
  ∀ key' ∈ seen st ps, key' ≠ key → latest st ps key' ≠ latest st ps key

/-- The store `st` after the admissions `ps`, from the store `st₀`: it holds the newest of
    what was seen, each with its newest stamp, and a key that shares its stamp has not
    moved. -/
structure Streamed (st₀ : ExpertStore) (ps : List (ExpertKey × Nat)) (st : ExpertStore) : Prop where
  still : Still st
  geometry : SameGeometry st₀ st
  newest : Newest st₀.slots_size (seen st₀ ps) (residents st) (rank st₀ ps)
  stamp : ∀ key i, st.index key = some i → (st.slots i).last_use_token = latest st₀ ps key
  place : ∀ key i, st.index key = some i → st₀.index key = some i ∨ AloneAt st₀ ps key

theorem Still.streamed_nil (h : Still st) : Streamed st [] st where
  still := h
  geometry := .refl st
  newest := by
    have hseen : seen st [] = residents st := by simp [seen]
    rw [hseen]
    refine .all ?_
    have hcard := h.card_residents
    omega
  stamp := by
    intro key i hi
    simp [latest, first_stamp, stamp_of, hi]
  place := fun key i hi => .inl hi

section Admit

variable {st₀ : ExpertStore} {ps : List (ExpertKey × Nat)} {k : ExpertKey} {s : Nat}

/-- A new stamp is nobody else's newest. -/
theorem DistinctStamps.fresh (h₀ : Still st₀) (h : DistinctStamps st₀ (ps ++ [(k, s)]))
    {key : ExpertKey} (hseen : key ∈ seen st₀ ps) (hne : key ≠ k) : latest st₀ ps key ≠ s := by
  obtain ⟨hps, hfirst⟩ := h (k, s) (by simp)
  rcases latest_mem h₀ hseen with hstamp | hmem
  · exact hfirst key _ hstamp hne
  · exact hps (key, latest st₀ ps key) (List.mem_append_left _ hmem) hne

/-- The admitted key has its new stamp to itself, when that is its newest. -/
theorem DistinctStamps.alone_new (h₀ : Still st₀) (h : DistinctStamps st₀ (ps ++ [(k, s)]))
    (hnew : latest st₀ (ps ++ [(k, s)]) k = s) : AloneAt st₀ (ps ++ [(k, s)]) k := by
  intro key hseen hne
  rw [hnew, latest_append, if_neg hne.symm]
  rw [seen_append, Finset.mem_insert] at hseen
  exact h.fresh h₀ (hseen.resolve_left hne) hne

/-- A key that was alone at its stamp stays so when another is admitted. -/
theorem DistinctStamps.alone_other (h₀ : Still st₀) (h : DistinctStamps st₀ (ps ++ [(k, s)]))
    {key : ExpertKey} (hseen : key ∈ seen st₀ ps) (hne : key ≠ k) (halone : AloneAt st₀ ps key) :
    AloneAt st₀ (ps ++ [(k, s)]) key := by
  intro key' hseen' hne'
  rw [latest_append st₀ ps k s key, if_neg hne.symm, latest_append]
  rw [seen_append, Finset.mem_insert] at hseen'
  split
  next heq =>
    subst heq
    have hfresh := h.fresh h₀ hseen hne
    by_cases hold : k ∈ seen st₀ ps
    · rcases max_choice (latest st₀ ps k) s with hmax | hmax
      · rw [hmax]
        exact halone k hold hne'
      · rw [hmax]
        exact hfresh.symm
    · rw [latest_unseen h₀ hold, Nat.zero_max]
      exact hfresh.symm
  next heq => exact halone key' (hseen'.resolve_left fun hk => heq hk.symm) hne'

theorem rank_append_other {key : ExpertKey} (hne : key ≠ k) :
    rank st₀ (ps ++ [(k, s)]) key = rank st₀ ps key := by
  rw [rank, latest_append, if_neg hne.symm, rank]

theorem rank_append_self : rank st₀ (ps ++ [(k, s)]) k =
    toLex (max (latest st₀ ps k) s, (st₀.index k).getD 0) := by
  rw [rank, latest_append, if_pos rfl]

theorem rank_le_append : rank st₀ ps k ≤ rank st₀ (ps ++ [(k, s)]) k := by
  rw [rank_append_self, rank, Prod.Lex.toLex_le_toLex]
  rcases (le_max_left (latest st₀ ps k) s).lt_or_eq with hlt | heq
  · exact .inl hlt
  · exact .inr ⟨heq, le_rfl⟩

/-- The first slot to go holds the key with the lowest rank. -/
theorem Streamed.oldest_rank (h : Streamed st₀ ps st) {v key : ExpertKey} {i : Nat}
    (hv : st.index v = some i) (holdest : ∀ j < st.slots_size, Older st i j)
    (hkey : key ∈ residents st) (hne : key ≠ v) : rank st₀ ps v < rank st₀ ps key := by
  obtain ⟨j, hj⟩ := h.still.mem_residents.mp hkey
  have hlt := (h.still.resident hj).1
  have hij : i ≠ j := by
    intro heq
    have hkv := (h.still.resident hv).2.2
    rw [heq, (h.still.resident hj).2.2] at hkv
    exact hne hkv
  have holder := holdest j hlt
  rw [Older, h.stamp v i hv, h.stamp key j hj] at holder
  rw [rank, rank, Prod.Lex.toLex_lt_toLex]
  rcases holder with hlt' | ⟨heq, hle⟩
  · exact .inl hlt'
  · -- equal stamps: both keys are where they were at the start
    have hvseen := h.newest.subset (h.still.mem_residents.mpr ⟨i, hv⟩)
    have hvplace := (h.place v i hv).resolve_right fun halone =>
      halone key (h.newest.subset hkey) hne heq.symm
    have hkplace := (h.place key j hj).resolve_right fun halone =>
      halone v hvseen hne.symm heq
    rw [hvplace, hkplace]
    exact .inr ⟨heq, lt_of_le_of_ne hle hij⟩

theorem Streamed.place_other (h : Streamed st₀ ps st) (h₀ : Still st₀)
    (hd : DistinctStamps st₀ (ps ++ [(k, s)])) {key : ExpertKey} {i : Nat}
    (hi : st.index key = some i) (hne : key ≠ k) :
    st₀.index key = some i ∨ AloneAt st₀ (ps ++ [(k, s)]) key := by
  have hseen := h.newest.subset (h.still.mem_residents.mpr ⟨i, hi⟩)
  exact (h.place key i hi).imp_right fun halone => hd.alone_other h₀ hseen hne halone

theorem Still.slot_ne (h : Still st) {key key' : ExpertKey} {i j : Nat}
    (hi : st.index key = some i) (hj : st.index key' = some j) (hne : key ≠ key') : i ≠ j := by
  intro heq
  have hkey := (h.resident hi).2.2
  rw [heq, (h.resident hj).2.2] at hkey
  exact hne hkey.symm

theorem Streamed.touched (h : Streamed st₀ ps st) (h₀ : Still st₀)
    (hd : DistinctStamps st₀ (ps ++ [(k, s)])) (hstill : Still st') (hgeo : SameGeometry st st')
    {i : Nat} (held : st.index k = some i) (index : st'.index = st.index)
    (newest : (st'.slots i).last_use_token = max (st.slots i).last_use_token s)
    (other : ∀ j, j ≠ i → (st'.slots j).last_use_token = (st.slots j).last_use_token) :
    Streamed st₀ (ps ++ [(k, s)]) st' := by
  have hres : residents st' = residents st := by
    ext key
    rw [hstill.mem_residents, h.still.mem_residents, index]
  have hkept : k ∈ residents st := h.still.mem_residents.mpr ⟨i, held⟩
  have hseen : seen st₀ (ps ++ [(k, s)]) = seen st₀ ps := by
    rw [seen_append, Finset.insert_eq_of_mem (h.newest.subset hkept)]
  refine ⟨hstill, h.geometry.trans hgeo, ?_, ?_, ?_⟩
  · rw [hres, hseen]
    exact h.newest.touch (fun j hj => rank_append_other hj) hkept rank_le_append
  · intro key j hj
    rw [index] at hj
    rw [latest_append]
    split
    next heq =>
      subst heq
      obtain rfl : i = j := Option.some.inj (held.symm.trans hj)
      rw [newest, h.stamp k i hj]
    next hne => rw [other j (h.still.slot_ne hj held fun heq => hne heq.symm), h.stamp key j hj]
  · intro key j hj
    rw [index] at hj
    by_cases hne : key = k
    · subst hne
      -- an older stamp changes nothing; a newer one is the key's own
      by_cases hle : s ≤ latest st₀ ps key
      · refine (h.place key j hj).imp_right fun halone => ?_
        intro key' hseen' hne'
        rw [latest_append st₀ ps key s key, if_pos rfl, max_eq_left hle, latest_append,
          if_neg hne'.symm]
        exact halone key' (hseen ▸ hseen') hne'
      · right
        refine hd.alone_new h₀ ?_
        rw [latest_append, if_pos rfl, max_eq_right (not_le.mp hle).le]
    · exact h.place_other h₀ hd hj hne

theorem Streamed.dropped (h : Streamed st₀ ps st) (h₀ : Still st₀)
    (hd : DistinctStamps st₀ (ps ++ [(k, s)])) (hstill : Still st') (hgeo : SameGeometry st st')
    (absent : st.index k = none) (full : st.free_list = [])
    (old : ∀ j < st.slots_size, s ≤ (st.slots j).last_use_token) (index : st'.index = st.index)
    (other : ∀ j, (st'.slots j).last_use_token = (st.slots j).last_use_token) :
    Streamed st₀ (ps ++ [(k, s)]) st' := by
  have hres : residents st' = residents st := by
    ext key
    rw [hstill.mem_residents, h.still.mem_residents, index]
  have hnot : k ∉ residents st := h.still.notMem_residents.mpr absent
  have hne : ∀ {key : ExpertKey}, key ∈ residents st → key ≠ k := fun hmem heq => hnot (heq ▸ hmem)
  have hcard : (residents st).card = st₀.slots_size := by
    have hcard := h.still.card_residents
    rw [full, List.length_nil, h.geometry.slots_size] at hcard
    exact hcard
  refine ⟨hstill, h.geometry.trans hgeo, ?_, ?_, ?_⟩
  · rw [hres, seen_append]
    refine h.newest.skip (fun j hj => rank_append_other hj) hcard hnot ?_
    intro key hkey
    obtain ⟨j, hj⟩ := h.still.mem_residents.mp hkey
    have hkseen := h.newest.subset hkey
    have hlt : s < latest st₀ ps key := by
      have hle := old j (h.still.resident hj).1
      rw [h.stamp key j hj] at hle
      exact lt_of_le_of_ne hle (hd.fresh h₀ hkseen (hne hkey)).symm
    -- an older stamp of `k` may have been seen and dropped already
    by_cases hseen : k ∈ seen st₀ ps
    · have hrank := h.newest.newer key hkey k hseen hnot
      rw [rank, rank, Prod.Lex.toLex_lt_toLex] at hrank
      rw [rank_append_self, rank, Prod.Lex.toLex_lt_toLex]
      rcases max_choice (latest st₀ ps k) s with hmax | hmax
      · rw [hmax]
        exact hrank
      · rw [hmax]
        exact .inl hlt
    · rw [rank_append_self, latest_unseen h₀ hseen, Nat.zero_max, rank, Prod.Lex.toLex_lt_toLex]
      exact .inl hlt
  · intro key j hj
    rw [index] at hj
    have hkey := hne (h.still.mem_residents.mpr ⟨j, hj⟩)
    rw [other j, latest_append, if_neg hkey.symm, h.stamp key j hj]
  · intro key j hj
    rw [index] at hj
    exact h.place_other h₀ hd hj (hne (h.still.mem_residents.mpr ⟨j, hj⟩))

theorem Streamed.filled (h : Streamed st₀ ps st) (h₀ : Still st₀)
    (hd : DistinctStamps st₀ (ps ++ [(k, s)])) (hstill : Still st') (hgeo : SameGeometry st st')
    {i : Nat} (absent : st.index k = none) (free : i ∈ st.free_list)
    (index : st'.index = Function.update st.index k (some i))
    (newest : (st'.slots i).last_use_token = s)
    (other : ∀ j, j ≠ i → (st'.slots j).last_use_token = (st.slots j).last_use_token) :
    Streamed st₀ (ps ++ [(k, s)]) st' := by
  have hres : residents st' = insert k (residents st) := by
    ext key
    rw [hstill.mem_residents, Finset.mem_insert, h.still.mem_residents, index]
    by_cases heq : key = k
    · simp [heq]
    · simp [heq]
  have hnot : k ∉ residents st := h.still.notMem_residents.mpr absent
  have hroom : (residents st).card < st₀.slots_size := by
    have hcard := h.still.card_residents
    have hpos := List.length_pos_of_mem free
    rw [h.geometry.slots_size] at hcard
    omega
  -- with a slot free nothing was dropped so far
  have hunseen : k ∉ seen st₀ ps := h.newest.eq_seen hroom ▸ hnot
  have hnew : latest st₀ (ps ++ [(k, s)]) k = s := by
    rw [latest_append, if_pos rfl, latest_unseen h₀ hunseen, Nat.zero_max]
  have hfree := ((h.still.inv.free_list.2 i).mp free).2
  refine ⟨hstill, h.geometry.trans hgeo, ?_, ?_, ?_⟩
  · rw [hres, seen_append]
    exact h.newest.admit_new hroom hnot
  · intro key j hj
    by_cases heq : key = k
    · subst heq
      rw [index, Function.update_self] at hj
      obtain rfl : i = j := Option.some.inj hj
      rw [newest, hnew]
    · rw [index, Function.update_of_ne heq] at hj
      have hji : j ≠ i := by
        intro hji
        have hstate := (h.still.resident hj).2.1
        rw [hji, hfree] at hstate
        cases hstate
      rw [other j hji, latest_append, if_neg (Ne.symm heq), h.stamp key j hj]
  · intro key j hj
    by_cases heq : key = k
    · subst heq
      exact .inr (hd.alone_new h₀ hnew)
    · rw [index, Function.update_of_ne heq] at hj
      exact h.place_other h₀ hd hj heq

theorem Streamed.replaced (h : Streamed st₀ ps st) (h₀ : Still st₀)
    (hd : DistinctStamps st₀ (ps ++ [(k, s)])) (hstill : Still st') (hgeo : SameGeometry st st')
    {v : ExpertKey} {i : Nat} (absent : st.index k = none) (full : st.free_list = [])
    (held : st.index v = some i) (oldest : ∀ j < st.slots_size, Older st i j)
    (newer : (st.slots i).last_use_token < s)
    (index : st'.index = Function.update (Function.update st.index v none) k (some i))
    (newest : (st'.slots i).last_use_token = s)
    (other : ∀ j, j ≠ i → (st'.slots j).last_use_token = (st.slots j).last_use_token) :
    Streamed st₀ (ps ++ [(k, s)]) st' := by
  have hvk : v ≠ k := by
    intro heq
    rw [heq, absent] at held
    cases held
  have hres : residents st' = insert k ((residents st).erase v) := by
    ext key
    rw [hstill.mem_residents, Finset.mem_insert, Finset.mem_erase, h.still.mem_residents, index]
    by_cases heq : key = k
    · simp [heq]
    · by_cases heqv : key = v
      · simp [heqv, hvk]
      · simp [heq, heqv]
  have hnot : k ∉ residents st := h.still.notMem_residents.mpr absent
  have hv : v ∈ residents st := h.still.mem_residents.mpr ⟨i, held⟩
  have hcard : (residents st).card = st₀.slots_size := by
    have hcard := h.still.card_residents
    rw [full, List.length_nil, h.geometry.slots_size] at hcard
    exact hcard
  rw [h.stamp v i held] at newer
  have hnew : latest st₀ (ps ++ [(k, s)]) k = s := by
    rw [latest_append, if_pos rfl]
    by_cases hseen : k ∈ seen st₀ ps
    · -- what is not kept is older than the victim
      have hrank := h.newest.newer v hv k hseen hnot
      rw [rank, rank, Prod.Lex.toLex_lt_toLex] at hrank
      refine max_eq_right ?_
      rcases hrank with hlt | ⟨heq, _⟩
      · exact (hlt.trans newer).le
      · exact (lt_of_eq_of_lt heq newer).le
    · rw [latest_unseen h₀ hseen, Nat.zero_max]
  refine ⟨hstill, h.geometry.trans hgeo, ?_, ?_, ?_⟩
  · rw [hres, seen_append]
    refine h.newest.replace (fun j hj => rank_append_other hj) hcard hnot hv ?_ ?_
    · exact fun key hkey hne => h.oldest_rank held oldest hkey hne
    · rw [rank, rank, hnew, Prod.Lex.toLex_lt_toLex]
      exact .inl newer
  · intro key j hj
    by_cases heq : key = k
    · subst heq
      rw [index, Function.update_self] at hj
      obtain rfl : i = j := Option.some.inj hj
      rw [newest, hnew]
    · by_cases heqv : key = v
      · rw [index, Function.update_of_ne heq, heqv, Function.update_self] at hj
        cases hj
      · rw [index, Function.update_of_ne heq, Function.update_of_ne heqv] at hj
        rw [other j (h.still.slot_ne hj held heqv), latest_append, if_neg (Ne.symm heq),
          h.stamp key j hj]
  · intro key j hj
    by_cases heq : key = k
    · subst heq
      exact .inr (hd.alone_new h₀ hnew)
    · by_cases heqv : key = v
      · rw [index, Function.update_of_ne heq, heqv, Function.update_self] at hj
        cases hj
      · rw [index, Function.update_of_ne heq, Function.update_of_ne heqv] at hj
        exact h.place_other h₀ hd hj heq

/-- One admission keeps the invariant of the stream. -/
theorem Streamed.step (h : Streamed st₀ ps st) (h₀ : Still st₀)
    (hd : DistinctStamps st₀ (ps ++ [(k, s)])) (hstill : Still st') (hgeo : SameGeometry st st')
    (hout : Outcome st st' k s) : Streamed st₀ (ps ++ [(k, s)]) st' := by
  cases hout with
  | touched i held index newest other => exact h.touched h₀ hd hstill hgeo held index newest other
  | dropped absent full old index other =>
    exact h.dropped h₀ hd hstill hgeo absent full old index other
  | filled i absent free index newest other =>
    exact h.filled h₀ hd hstill hgeo absent free index newest other
  | replaced v i absent full held oldest newer index newest other =>
    exact h.replaced h₀ hd hstill hgeo absent full held oldest newer index newest other

end Admit

/-! ### Every stream -/

def Admission.pair (a : Admission) : ExpertKey × Nat := (a.key, a.stamp)

theorem DistinctStamps.of_append {ps ps' : List (ExpertKey × Nat)}
    (h : DistinctStamps st (ps ++ ps')) : DistinctStamps st ps := by
  intro p hp
  obtain ⟨hps, hfirst⟩ := h p (List.mem_append_left _ hp)
  exact ⟨fun q hq => hps q (List.mem_append_left _ hq), hfirst⟩

/-- Admissions with stamps of their own, to a store at rest, succeed and keep the newest. -/
theorem Still.streamed (h : Still st) {as : List Admission} (ha : ∀ a ∈ as, Admissible st a)
    (hd : DistinctStamps st (as.map Admission.pair)) :
    ∃ st', stream st as = .ok st' ∧ Streamed st (as.map Admission.pair) st' := by
  induction as using List.reverseRecOn with
  | nil => exact ⟨st, rfl, h.streamed_nil⟩
  | append_singleton as a ih =>
    rw [List.map_append, List.map_singleton] at hd ⊢
    obtain ⟨st₁, hrun₁, hst₁⟩ := ih (fun b hb => ha b (List.mem_append_left _ hb)) hd.of_append
    have ha₁ : Admissible st₁ a := by
      have ha := ha a (by simp)
      exact ⟨by rw [key_in_range_eq hst₁.geometry]; exact ha.in_range, ha.fits, ha.guard⟩
    obtain ⟨st₂, hrun₂, hstill, hgeo, hout⟩ := hst₁.still.run ha₁
    refine ⟨st₂, ?_, hst₁.step h hd hstill hgeo hout⟩
    unfold stream at hrun₁ ⊢
    rw [List.foldlM_append, hrun₁]
    have hlast : [a].foldlM (fun st a => a.run st) st₁ = Except.ok st₂ := by
      rw [List.foldlM_cons, hrun₂]
      rfl
    exact hlast

theorem latest_perm {ps ps' : List (ExpertKey × Nat)} (h : ps.Perm ps') (key : ExpertKey) :
    latest st ps key = latest st ps' key := by
  unfold latest
  refine h.foldl_eq' ?_ _
  intro p _ q _ m
  split
  · split
    · rw [max_assoc, max_comm p.2, ← max_assoc]
    · rfl
  · rfl

theorem seen_perm {ps ps' : List (ExpertKey × Nat)} (h : ps.Perm ps') :
    seen st ps = seen st ps' := by
  ext key
  simp only [seen, Finset.mem_union, List.mem_toFinset, (h.map Prod.fst).mem_iff]

theorem DistinctStamps.perm {ps ps' : List (ExpertKey × Nat)} (hd : DistinctStamps st ps)
    (h : ps.Perm ps') : DistinctStamps st ps' := by
  intro p hp
  obtain ⟨hps, hfirst⟩ := hd p (h.mem_iff.mpr hp)
  exact ⟨fun q hq => hps q (h.mem_iff.mpr hq), hfirst⟩

/-- Two keys share their newest stamp only if both had it at the start. -/
theorem DistinctStamps.held_of_eq (h : Still st) {ps : List (ExpertKey × Nat)}
    (hd : DistinctStamps st ps) {key key' : ExpertKey} (hkey : key ∈ seen st ps)
    (hkey' : key' ∈ seen st ps) (hne : key' ≠ key) (heq : latest st ps key' = latest st ps key) :
    ∃ i, st.index key = some i := by
  have hstamp : stamp_of st key = some (latest st ps key) := by
    refine (latest_mem h hkey).resolve_right ?_
    intro hmem
    obtain ⟨hps, hfirst⟩ := hd _ hmem
    rcases latest_mem h hkey' with hstamp' | hmem'
    · exact hfirst key' _ hstamp' hne heq
    · exact hps _ hmem' hne heq
  cases hi : st.index key with
  | none =>
    rw [stamp_of, hi] at hstamp
    cases hstamp
  | some i => exact ⟨i, rfl⟩

theorem Streamed.stamp_of_eq {st₀ : ExpertStore} {ps : List (ExpertKey × Nat)}
    (h : Streamed st₀ ps st) (key : ExpertKey) :
    stamp_of st key = if key ∈ residents st then some (latest st₀ ps key) else none := by
  cases hi : st.index key with
  | none =>
    rw [if_neg (h.still.notMem_residents.mpr hi), stamp_of, hi]
    rfl
  | some i =>
    rw [if_pos (h.still.mem_residents.mpr ⟨i, hi⟩), stamp_of, hi, Option.map_some, h.stamp key i hi]

/-- Streamed admission keeps the newest. From a store at rest, whatever is admitted with
    stamps of its own: the Residents are the `slot_count` keys with the newest stamps among
    those held at the start and those admitted, each with its newest stamp; keys with equal
    stamps, which were then held at the start, go by slot. The order of the admissions does
    not matter. -/
theorem streamed_keeps_newest (h : LTS.Reachable store_system st) (hpath : st.evict_path = .Off)
    (hfixed : st.fixed_cache = false)
    (hsettled : ∀ i < st.slots_size, (st.slots i).state ≠ .Filling)
    (hpin : ∀ i < st.slots_size, (st.slots i).state = .Resident → (st.slots i).tier ≠ .Pinned)
    (hguard : ∀ i < st.slots_size, (st.slots i).state = .Resident →
      (st.slots i).guard_timeline ≤ st.completed_timeline)
    {as : List Admission} (ha : ∀ a ∈ as, Admissible st a)
    (hd : DistinctStamps st (as.map Admission.pair)) :
    ∃ st', stream st as = .ok st' ∧
      residents st' ⊆ seen st (as.map Admission.pair) ∧
      (residents st').card = min st.slots_size (seen st (as.map Admission.pair)).card ∧
      (∀ key ∈ residents st', ∀ key' ∈ seen st (as.map Admission.pair), key' ∉ residents st' →
        latest st (as.map Admission.pair) key' < latest st (as.map Admission.pair) key ∨
        latest st (as.map Admission.pair) key' = latest st (as.map Admission.pair) key ∧
          ∃ i' i, st.index key' = some i' ∧ st.index key = some i ∧ i' < i) ∧
      (∀ key ∈ residents st', stamp_of st' key = some (latest st (as.map Admission.pair) key)) ∧
      ∀ as', (as'.map Admission.pair).Perm (as.map Admission.pair) →
        (∀ a ∈ as', Admissible st a) → ∃ st'', stream st as' = .ok st'' ∧
          residents st'' = residents st' ∧ ∀ key, stamp_of st'' key = stamp_of st' key := by
  have hfrozen : st.cache_frozen = false := by
    cases hfr : st.cache_frozen with
    | false => rfl
    | true =>
      have hfx := (reachable_frozen h hfr).fixed
      rw [hfixed] at hfx
      cases hfx
  have hstill : Still st :=
    ⟨reachable_inv h, hpath, hfixed, hfrozen, hsettled, hpin, hguard⟩
  obtain ⟨st', hrun, hst'⟩ := hstill.streamed ha hd
  refine ⟨st', hrun, hst'.newest.subset, hst'.newest.card, ?_, ?_, ?_⟩
  · intro key hkey key' hkey' hnot
    have hne : key' ≠ key := fun heq => hnot (heq ▸ hkey)
    have hrank := hst'.newest.newer key hkey key' hkey' hnot
    rw [rank, rank, Prod.Lex.toLex_lt_toLex] at hrank
    refine hrank.imp_right ?_
    rintro ⟨heq, hlt⟩
    have hseen := hst'.newest.subset hkey
    obtain ⟨i, hi⟩ := hd.held_of_eq hstill hseen hkey' hne heq
    obtain ⟨i', hi'⟩ := hd.held_of_eq hstill hkey' hseen hne.symm heq.symm
    rw [hi, hi'] at hlt
    exact ⟨heq, i', i, hi', hi, hlt⟩
  · intro key hkey
    rw [hst'.stamp_of_eq, if_pos hkey]
  · intro as' hperm ha'
    obtain ⟨st'', hrun', hst''⟩ := hstill.streamed ha' (hd.perm hperm.symm)
    -- rank and keys do not depend on the order of the admissions
    have hrank : rank st (as'.map Admission.pair) = rank st (as.map Admission.pair) := by
      funext key
      rw [rank, rank, latest_perm hperm]
    have hres : residents st'' = residents st' := by
      have hnewest := hst''.newest
      rw [seen_perm hperm, hrank] at hnewest
      exact hnewest.unique hst'.newest
    refine ⟨st'', hrun', hres, ?_⟩
    intro key
    rw [hst''.stamp_of_eq, hst'.stamp_of_eq, hres, latest_perm hperm]

/-! #### Two slots -/

/-- Both slots of `pair_store` filled, with stamps 5 and 6. -/
def full_pair_ops : List Op :=
  [.begin_fill_synthetic ⟨0, 1⟩ .Cached, .finish_run 0 true 5,
    .begin_fill_synthetic ⟨0, 2⟩ .Cached, .finish_run 1 true 6]

def full_pair : ExpertStore := full_pair_ops.foldl ExpertStore.apply pair_store

theorem full_pair_reachable : LTS.Reachable store_system full_pair := by
  refine ⟨pair_store, full_pair_ops, ⟨{}, _, _, _, _, pair_store_init⟩, ?_⟩
  rw [store_system, LTS.run_ofNext_iff]
  rfl

theorem full_pair_stamps {key : ExpertKey} {s : Nat} (h : stamp_of full_pair key = some s) :
    s = 5 ∨ s = 6 := by
  have hall : ∀ i < full_pair.slots_size,
      (full_pair.slots i).last_use_token = 5 ∨ (full_pair.slots i).last_use_token = 6 := by
    decide
  obtain ⟨i, hi, rfl⟩ := Option.map_eq_some_iff.mp h
  exact hall i (((reachable_inv full_pair_reachable).index key i).mp hi).1

/-- Expert 3 takes the place of expert 1, and expert 4 is too old. -/
def newer_and_older : List Admission := [{ key := ⟨0, 3⟩, stamp := 9 }, { key := ⟨0, 4⟩, stamp := 2 }]

theorem streamed_keeps_newest_pair :
    ∃ st', stream full_pair newer_and_older = .ok st' ∧ (residents st').card = 2 := by
  have ha : ∀ a ∈ newer_and_older, Admissible full_pair a := by
    intro a ha
    rcases List.mem_pair.mp ha with rfl | rfl
    · exact ⟨by decide, nofun, le_rfl⟩
    · exact ⟨by decide, nofun, le_rfl⟩
  have hd : DistinctStamps full_pair (newer_and_older.map Admission.pair) := by
    intro p hp
    refine ⟨?_, ?_⟩
    · revert p
      decide
    · intro key s hs _
      rcases List.mem_pair.mp hp with rfl | rfl
      · rcases full_pair_stamps hs with rfl | rfl
        · decide
        · decide
      · rcases full_pair_stamps hs with rfl | rfl
        · decide
        · decide
  obtain ⟨st', hrun, _, hcard, _⟩ := streamed_keeps_newest full_pair_reachable rfl rfl
    (by decide) (by decide) (by decide) ha hd
  refine ⟨st', hrun, hcard.trans ?_⟩
  decide

/-- The stamps of different admitted keys differ. -/
def DistinctAdmissions (as : List Admission) : Prop :=
  ∀ a ∈ as, ∀ b ∈ as, a.key ≠ b.key → a.stamp ≠ b.stamp

/-- Slots Free or Resident, unpinned and unguarded, no preferred path, no fixed cache. -/
def AtRest (st : ExpertStore) : Prop :=
  st.evict_path = .Off ∧ st.fixed_cache = false ∧
    ∀ i < st.slots_size, (st.slots i).state ≠ .Filling ∧
      ((st.slots i).state = .Resident →
        (st.slots i).tier ≠ .Pinned ∧ (st.slots i).guard_timeline ≤ st.completed_timeline)

/-- An admission with the stamp of a key held at the start makes the order matter; one with
    a guard that stays open keeps an old key in; one that is refused has thrown a key out. -/
theorem streamed_order_guard_and_refusal :
    (¬ ∀ st as as' st' st'', LTS.Reachable store_system st → AtRest st →
      DistinctAdmissions as → as'.Perm as → stream st as = .ok st' → stream st as' = .ok st'' →
      residents st' = residents st'') ∧
    (¬ ∀ st as st', LTS.Reachable store_system st → AtRest st → DistinctAdmissions as →
      stream st as = .ok st' → ∀ key ∈ residents st', ∀ key' ∈ seen st (as.map Admission.pair),
        key' ∉ residents st' → latest st (as.map Admission.pair) key' ≤
          latest st (as.map Admission.pair) key) ∧
    ¬ ∀ st key stamp, LTS.Reachable store_system st → AtRest st →
      (∃ e, (st.admit_streamed key stamp none 0).1 = .error e) →
      residents (st.admit_streamed key stamp none 0).2 = residents st := by
  refine ⟨?_, ?_, ?_⟩
  · intro hclaim
    have hsame := hclaim half_pair [{ key := ⟨0, 2⟩, stamp := 5 }, { key := ⟨0, 3⟩, stamp := 6 }]
      [{ key := ⟨0, 3⟩, stamp := 6 }, { key := ⟨0, 2⟩, stamp := 5 }] _ _ half_pair_reachable
      (by unfold AtRest; decide) (by unfold DistinctAdmissions; decide) (.swap _ _ _) rfl rfl
    revert hsame
    decide
  · intro hclaim
    have hle := hclaim full_pair
      [{ key := ⟨0, 1⟩, stamp := 5, guard := 9 }, { key := ⟨0, 3⟩, stamp := 8 }] _
      full_pair_reachable (by unfold AtRest; decide)
      (by unfold DistinctAdmissions; decide) rfl
      ⟨0, 1⟩ (by decide) ⟨0, 2⟩ (by decide) (by decide)
    revert hle
    decide
  · intro hclaim
    have hsame := hclaim full_pair ⟨5, 0⟩ 9 full_pair_reachable (by unfold AtRest; decide)
      ⟨_, rfl⟩
    revert hsame
    decide

end CachedMoe.Store
