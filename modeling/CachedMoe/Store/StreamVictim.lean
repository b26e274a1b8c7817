import CachedMoe.Store.Stream

/-! # Whom a streamed admission evicts

    `admit_streamed` asks `oldest_evictable_stamp` before it calls `evict_lru`. The first ranks the
    slots of both memory paths; the second looks at the preferred path first, and takes its oldest
    slot even where the other path has an older one. -/

namespace CachedMoe.Store

open CachedMoe ExpertStore

variable {st : ExpertStore}

/-! ### Scans over one path -/

/-- The path that `evict_lru` scans first; `some true` is path B. -/
def preferred_path : EvictPath → Option Bool
  | .Off => none
  | .PreferA => some false
  | .PreferB => some true

theorem lru_victim_preferred (st : ExpertStore) :
    st.lru_victim = ((preferred_path st.evict_path).bind fun path =>
      st.scan (some path) st.slots_size).or (st.scan none st.slots_size) := by
  unfold lru_victim
  cases st.evict_path <;> rfl

theorem scanned_path (path on_b : Bool) : scanned (some path) on_b = true ↔ on_b = path := by
  rw [scanned, Option.any_some, Bool.not_eq_true', bne_eq_false_iff_eq]
  exact eq_comm

theorem scan_path_none {path : Bool} {n : Nat} (h : st.scan (some path) n = none) :
    ∀ j < n, st.is_evictable (st.slots j) → st.on_path_b (st.slots j) ≠ path := by
  intro j hj hev hon
  have hmissed := scan_finds_none h j hj hev
  rw [(scanned_path _ _).mpr hon] at hmissed
  cases hmissed

/-- A scan over one path finds a slot of it that is not newer than any of its slots. -/
theorem scan_path_some {path : Bool} {n best : Nat} (h : st.scan (some path) n = some best) :
    st.on_path_b (st.slots best) = path ∧
      ∀ j < n, st.is_evictable (st.slots j) → st.on_path_b (st.slots j) = path →
        (st.slots best).last_use_token ≤ (st.slots j).last_use_token := by
  obtain ⟨hon, hold⟩ := scan_finds_oldest h
  refine ⟨(scanned_path _ _).mp hon, fun j hj hev hj_on => ?_⟩
  exact (hold j hj hev ((scanned_path _ _).mpr hj_on)).le

/-! ### The stamp and the victim -/

/-- The stamp of the slot that `evict_lru` takes. -/
def evicted_stamp (st : ExpertStore) : Option Nat :=
  match st.evict_lru.1 with
  | .error _ => none
  | .ok slot => some (st.slots slot).last_use_token

/-- An admission evicts only experts that are older than it. -/
def EvictsOlder (st : ExpertStore) : Prop :=
  ∀ key stamp entry guard k i, st.index k = some i → (st.slots i).state = .Resident →
    (st.admit_streamed key stamp entry guard).2.index k = none →
      (st.slots i).last_use_token < stamp

/-- No evictable slot is on the preferred path, or one that is oldest of all is. -/
def OldestPreferred (st : ExpertStore) : Prop :=
  st.fixed_cache = true ∨ ∀ path, preferred_path st.evict_path = some path →
    (∀ i < st.slots_size, st.is_evictable (st.slots i) → st.on_path_b (st.slots i) ≠ path) ∨
    ∃ i < st.slots_size, st.is_evictable (st.slots i) ∧ st.on_path_b (st.slots i) = path ∧
      ∀ j < st.slots_size, st.is_evictable (st.slots j) →
        (st.slots i).last_use_token ≤ (st.slots j).last_use_token

theorem evicted_stamp_eq (hfixed : st.fixed_cache = false) :
    evicted_stamp st = st.lru_victim.map fun i => (st.slots i).last_use_token := by
  unfold evicted_stamp ExpertStore.evict_lru
  rw [if_neg (by simp [hfixed])]
  cases st.lru_victim with
  | none => rfl
  | some best => rfl

/-- A victim on the preferred path has the oldest stamp when some oldest slot is there. -/
theorem oldest_stamp_iff (st : ExpertStore) :
    st.oldest_evictable_stamp = evicted_stamp st ↔ OldestPreferred st := by
  by_cases hfixed : st.fixed_cache = true
  · have hevict : evicted_stamp st = none := by
      unfold evicted_stamp ExpertStore.evict_lru
      rw [if_pos hfixed]
      rfl
    rw [oldest_evictable_stamp, if_pos hfixed, hevict]
    exact ⟨fun _ => .inl hfixed, fun _ => rfl⟩
  have hoff : st.fixed_cache = false := by simpa using hfixed
  rw [oldest_evictable_stamp, if_neg hfixed, oldest_stamp_eq, evicted_stamp_eq hoff,
    lru_victim_preferred]
  cases hpref : preferred_path st.evict_path with
  | none =>
    rw [Option.bind_none, Option.none_or]
    refine ⟨fun _ => .inr fun path hpath => ?_, fun _ => rfl⟩
    rw [hpref] at hpath
    cases hpath
  | some path =>
    rw [Option.bind_some]
    cases hscan : st.scan (some path) st.slots_size with
    | none =>
      rw [Option.none_or]
      refine ⟨fun _ => .inr fun path' hpath' => .inl ?_, fun _ => rfl⟩
      obtain rfl : path = path' := Option.some.inj (hpref.symm.trans hpath')
      exact scan_path_none hscan
    | some best =>
      obtain ⟨hlt, hev⟩ := scan_evictable hscan
      obtain ⟨hon, hle⟩ := scan_path_some hscan
      rw [Option.some_or, Option.map_some]
      cases hall : st.scan none st.slots_size with
      | none => exact absurd hev (scan_none hall best hlt)
      -- `best` is the oldest of the preferred path, `first` the oldest of all
      | some first =>
        obtain ⟨hlt', hev'⟩ := scan_evictable hall
        have hfirst := fun j hj hevj => (scan_oldest hall j hj hevj).le
        rw [Option.map_some, Option.some.injEq]
        constructor
        · intro hsame
          refine .inr fun path' hpath' => .inr ⟨best, hlt, hev, ?_, fun j hj hevj => ?_⟩
          · obtain rfl : path = path' := Option.some.inj (hpref.symm.trans hpath')
            exact hon
          · rw [← hsame]
            exact hfirst j hj hevj
        · intro h
          rcases (h.resolve_left hfixed) path hpref with hnone | ⟨i, hi, hevi, honi, hmin⟩
          · exact absurd hon (hnone best hlt hev)
          · exact le_antisymm (hfirst best hlt hev)
              ((hle i hi hevi honi).trans (hmin first hlt' hev'))

/-! ### Admissions -/

theorem reserve_keeps_index {key : ExpertKey} {tier : Tier} {k : ExpertKey}
    (h : (st.reserve_locked key tier).2.index k = none) : st.index k = none := by
  unfold reserve_locked at h
  split at h
  · exact h
  split at h
  · exact h
  split at h
  · exact h
  · next hkey =>
    split at h
    · exact h
    · by_cases heq : k = key
      · rw [heq, hkey]
      · exact (Function.update_of_ne heq _ _).symm.trans h

theorem begin_fill_keeps_index {key : ExpertKey} {entry : ExpertEntry} {tier : Tier} {k : ExpertKey}
    (h : (st.begin_fill key entry tier).2.index k = none) : st.index k = none := by
  unfold begin_fill at h
  dsimp only at h
  split at h
  · exact h
  split at h
  · exact h
  split at h
  · exact h
  refine @reserve_keeps_index st key tier k ?_
  generalize st.reserve_locked key tier = res at h ⊢
  obtain ⟨r, st'⟩ := res
  cases r with
  | error e => exact h
  | ok res => exact h

/-- A reservation takes no expert out of the store. -/
theorem fill_keeps_index {key : ExpertKey} {entry : Option ExpertEntry} {k : ExpertKey}
    (h : (st.fill_streamed key entry).2.index k = none) : st.index k = none := by
  have hbegin : (st.begin_streamed key entry).2.index k = none := by
    unfold fill_streamed at h
    generalize st.begin_streamed key entry = res at h
    obtain ⟨r, st'⟩ := res
    cases r with
    | error e =>
      dsimp only at h
      split at h
      · exact h
      · exact h
    | ok res => exact h
  cases entry with
  | none =>
    refine @reserve_keeps_index st key .Cached k ?_
    simp only [begin_streamed, begin_fill_synthetic] at hbegin
    generalize st.reserve_locked key .Cached = res at hbegin ⊢
    obtain ⟨r, st'⟩ := res
    cases r with
    | error e => exact hbegin
    | ok res => exact hbegin
  | some entry => exact begin_fill_keeps_index hbegin

theorem evict_lru_refused {st' : ExpertStore} {e : Status} (h : st.evict_lru = (.error e, st')) :
    st' = st := by
  unfold ExpertStore.evict_lru at h
  split at h
  · cases h
    rfl
  · split at h
    · cases h
      rfl
    · cases h

theorem evict_lru_taken {st' : ExpertStore} {slot : Nat} (h : st.evict_lru = (.ok slot, st')) :
    st.lru_victim = some slot ∧ st' = st.recycle slot := by
  unfold ExpertStore.evict_lru at h
  split at h
  · cases h
  · split at h
    · cases h
    · next best hbest =>
      cases h
      exact ⟨hbest, rfl⟩

/-- The victim has the stamp that was asked for, so it is older than the admission. -/
theorem admit_absent_older (hinv : Inv st) (hsame : st.oldest_evictable_stamp = evicted_stamp st)
    {key : ExpertKey} {stamp : Nat} {entry : Option ExpertEntry} {k : ExpertKey} {i : Nat}
    (hk : st.index k = some i) (h : (st.admit_absent key stamp entry).2.index k = none) :
    (st.slots i).last_use_token < stamp := by
  have hheld : st.index k ≠ none := by
    rw [hk]
    exact Option.some_ne_none i
  unfold admit_absent at h
  split at h
  · rw [hsame] at h
    split at h
    · exact absurd h hheld
    next oldest holdest =>
    split at h
    · exact absurd h hheld
    next hnewer =>
    split at h
    · next e st' hrefused =>
      rw [evict_lru_refused hrefused] at h
      exact absurd h hheld
    · next slot st' htaken =>
      obtain ⟨hvictim, rfl⟩ := evict_lru_taken htaken
      rw [evicted_stamp, htaken] at holdest
      have hstamp : (st.slots slot).last_use_token = oldest := Option.some.inj holdest
      -- the only expert that leaves is the victim
      have hgone : Function.update st.index (st.slots slot).key none k = none := fill_keeps_index h
      by_cases heq : k = (st.slots slot).key
      · obtain ⟨hlt, hev⟩ := lru_victim_evictable hvictim
        have hstate : (st.slots slot).state = .Resident := by
          simp only [is_evictable, Bool.and_eq_true, decide_eq_true_eq] at hev
          exact hev.1.1
        have hslot : st.index k = some slot :=
          (hinv.index k slot).mpr ⟨hlt, by rw [hstate]; decide, heq.symm⟩
        obtain rfl : i = slot := Option.some.inj (hk.symm.trans hslot)
        omega
      · rw [Function.update_of_ne heq] at hgone
        exact absurd hgone hheld
  · exact absurd (fill_keeps_index h) hheld

/-- A touch of an expert in slot `i`, which is Resident or still Filling. -/
theorem touch_held {key : ExpertKey} {i : Nat} (hi : st.index key = some i) (stamp : Nat) :
    if (st.slots i).state = .Resident then ∃ stamp', st.touch key stamp false =
        (true, st.set_slot i { st.slots i with last_use_token := stamp' })
      else st.touch key stamp false = (false, st) := by
  unfold ExpertStore.touch
  rw [hi]
  dsimp only
  split
  · next hres =>
    rw [if_neg (fun hno => hno.1 hres)]
    split
    · exact ⟨stamp, rfl⟩
    · exact ⟨(st.slots i).last_use_token, by rw [set_slot_self]⟩
  · next hres => rw [if_pos ⟨hres, by simp⟩]

theorem evicts_older (hinv : Inv st) (hsame : st.oldest_evictable_stamp = evicted_stamp st) :
    EvictsOlder st := by
  intro key stamp entry guard k i hk _ hgone
  have hheld : st.index k ≠ none := by
    rw [hk]
    exact Option.some_ne_none i
  unfold admit_streamed at hgone
  rw [slot_of] at hgone
  cases hkey : st.index key with
  | none =>
    rw [hkey] at hgone
    exact admit_absent_older hinv hsame hk hgone
  | some slot =>
    rw [hkey] at hgone
    dsimp only at hgone
    have htouch := touch_held hkey stamp
    by_cases hres : (st.slots slot).state = .Resident
    · -- a resident expert is touched and guarded, and nothing is evicted
      rw [if_pos hres] at htouch
      obtain ⟨stamp', htouch⟩ := htouch
      rw [htouch] at hgone
      dsimp only at hgone
      have hyes : (st.set_slot slot
          { st.slots slot with last_use_token := stamp' }).resident key = true :=
        resident_iff.mpr ⟨slot, hkey, by simpa [set_slot] using hres⟩
      rw [if_pos hyes] at hgone
      unfold ExpertStore.set_guard at hgone
      split at hgone
      · next e st' hguard =>
        split at hguard
        · cases hguard
          exact absurd hgone hheld
        · dsimp only at hguard
          split at hguard
          · cases hguard
          · cases hguard
      · next st' hguard =>
        split at hguard
        · cases hguard
        · dsimp only at hguard
          split at hguard
          · cases hguard
            exact absurd hgone hheld
          · cases hguard
            exact absurd hgone hheld
    · rw [if_neg hres] at htouch
      have hnot : st.resident key ≠ true := by
        intro hyes
        obtain ⟨j, hj, hstate⟩ := resident_iff.mp hyes
        rw [hkey] at hj
        cases hj
        exact hres hstate
      have hunsettled : st.wait_settled key ≠ true := hnot
      simp only [htouch, if_neg hunsettled, if_neg hnot] at hgone
      exact admit_absent_older hinv hsame hk hgone

/-- In every reachable store, `oldest_evictable_stamp` is the stamp of the slot that `evict_lru`
    takes, and so a streamed admission evicts older experts only, exactly when the preferred path
    has none to evict or has an oldest one. -/
theorem streamed_victim (h : LTS.Reachable store_system st) :
    st.oldest_evictable_stamp = evicted_stamp st ∧ EvictsOlder st ↔ OldestPreferred st :=
  ⟨fun hboth => (oldest_stamp_iff st).mp hboth.1, fun hpreferred =>
    ⟨(oldest_stamp_iff st).mpr hpreferred,
      evicts_older (reachable_inv h) ((oldest_stamp_iff st).mpr hpreferred)⟩⟩

/-! #### A preferred path with newer experts -/

/-- Two slabs of one slot, the second on path B, which is preferred. -/
def two_paths : ExpertStore :=
  (ExpertStore.init { evict_path := .PreferB, path_b_first_slab := 1 } (some host_backing)
    { slots_per_slab := 1, budget_bytes := 2 * layout.kExpertSlotBytes } 1 8).2

theorem two_paths_init :
    ExpertStore.init { evict_path := .PreferB, path_b_first_slab := 1 } (some host_backing)
      { slots_per_slab := 1, budget_bytes := 2 * layout.kExpertSlotBytes } 1 8 =
      (.ok (), two_paths) :=
  rfl

def newer_on_b_ops : List Op :=
  [.begin_fill_synthetic ⟨0, 1⟩ .Cached, .finish_run 0 true 5,
    .begin_fill_synthetic ⟨0, 2⟩ .Cached, .finish_run 1 true 9]

def newer_on_b : ExpertStore := newer_on_b_ops.foldl ExpertStore.apply two_paths

theorem newer_on_b_reachable : LTS.Reachable store_system newer_on_b := by
  refine ⟨two_paths, newer_on_b_ops, ⟨_, _, _, _, _, two_paths_init⟩, ?_⟩
  rw [store_system, LTS.run_ofNext_iff]
  rfl

/-- An admission with stamp 7 evicts the expert with stamp 9. -/
theorem newer_on_b_evicted :
    newer_on_b.oldest_evictable_stamp = some 5 ∧ evicted_stamp newer_on_b = some 9 ∧
      ¬ EvictsOlder newer_on_b := by
  refine ⟨by decide, by decide, fun h => ?_⟩
  have hlt := h ⟨0, 3⟩ 7 none 0 ⟨0, 2⟩ 1 (by decide) (by decide)
    (by decide)
  exact absurd hlt (by decide)

/-- Both slots are full, with stamps 5 and 6, and no path is preferred. -/
theorem streamed_victim_pair : evicted_stamp full_pair = some 5 := by
  have hpreferred : OldestPreferred full_pair := by
    refine .inr fun path hpath => ?_
    have hoff : preferred_path full_pair.evict_path = none := by decide
    rw [hoff] at hpath
    cases hpath
  rw [← ((streamed_victim full_pair_reachable).mpr hpreferred).1]
  decide

end CachedMoe.Store
