import CachedMoe.Store.Invariant
import CachedMoe.Store.Writes

/-! # Timeline guards

    A slot that a submitted command buffer may still read carries the timeline value the
    buffer signals. The guard is installed by `lookup`, `set_guard` and
    `guarded_snapshot`; as long as the completed timeline is below it, no operation takes
    the slot away or changes the key's row of the pointer table. -/

namespace CachedMoe.Store

open CachedMoe ExpertStore

variable {st st' : ExpertStore}

/-- Slot `i` is Resident and guarded up to `g`. -/
structure Guarded (st : ExpertStore) (i g : Nat) : Prop where
  lt : i < st.slots_size
  resident : (st.slots i).state = .Resident
  guard : g ≤ (st.slots i).guard_timeline

/-- The slot is where it was: what the key's row of the table is computed from. -/
structure SamePlace (st st' : ExpertStore) (i : Nat) : Prop where
  geometry : SameGeometry st st'
  key : (st'.slots i).key = (st.slots i).key
  base : slot_base (st'.slots i) = slot_base (st.slots i)
  part_offset : (st'.slots i).part_offset = (st.slots i).part_offset

theorem SamePlace.refl (st : ExpertStore) (i : Nat) : SamePlace st st i :=
  ⟨.refl st, rfl, rfl, rfl⟩

theorem SamePlace.trans {st₁ : ExpertStore} {i : Nat} (h : SamePlace st st₁ i)
    (h' : SamePlace st₁ st' i) : SamePlace st st' i :=
  ⟨h.geometry.trans h'.geometry, h'.key.trans h.key, h'.base.trans h.base,
    h'.part_offset.trans h.part_offset⟩

/-! ### One step -/

theorem Keep.guarded (h : Keep st st') {i g : Nat} (hg : Guarded st i g) :
    Guarded st' i g ∧ SamePlace st st' i := by
  have hs := h.slots i
  refine ⟨⟨h.slots_size ▸ hg.lt, hs.state.trans hg.resident, hg.guard.trans hs.guard⟩, ?_⟩
  exact ⟨h.toSameGeometry, hs.key, hs.base, hs.part_offset⟩

/-- A move of another slot. -/
theorem OneSlot.guarded {i j g : Nat} {s : ExpertSlot} (h : OneSlot st st' j s) (hj : i ≠ j)
    (hg : Guarded st i g) : Guarded st' i g ∧ SamePlace st st' i := by
  have hsame := h.other hj
  refine ⟨⟨h.slots_size ▸ hg.lt, ?_, ?_⟩, ⟨h.toSameGeometry, ?_, ?_, ?_⟩⟩
  · rw [hsame, hg.resident]
  · rw [hsame]
    exact hg.guard
  · rw [hsame]
  · rw [hsame]
  · rw [hsame]

theorem Move.guarded (h : Move st st') (hinv : Inv st) {i g : Nat} (hg : Guarded st i g)
    (hclock : st'.completed_timeline < g) : Guarded st' i g ∧ SamePlace st st' i := by
  cases h with
  | stay h =>
    subst h
    exact ⟨hg, .refl _ i⟩
  | fill j k s h =>
    refine (h.one_slot hinv).guarded ?_ hg
    rintro rfl
    have hfree := (h.was_free hinv).2
    rw [hg.resident] at hfree
    cases hfree
  | publish j s h =>
    refine h.one_slot.guarded ?_ hg
    rintro rfl
    have hfilling := h.filling
    rw [hg.resident] at hfilling
    cases hfilling
  | drop j s h =>
    refine h.one_slot.guarded ?_ hg
    rintro rfl
    rcases h.was with hfilling | ⟨_, _, hguard, _⟩
    · rw [hg.resident] at hfilling
      cases hfilling
    · -- the eviction checked the guard against a timeline that is below it
      have hcompleted := h.completed
      have hguarded := hg.guard
      omega
  | pin j s h =>
    by_cases hj : i = j
    · subst hj
      have hself := (h.one_slot hinv).self
      refine ⟨⟨h.slots_size ▸ hg.lt, ?_, ?_⟩, ⟨h.toSameGeometry, ?_, ?_, ?_⟩⟩
      · rw [hself, h.state]
      · rw [hself, h.guard]
        exact hg.guard
      · rw [hself, h.key]
      · rw [hself, h.base]
      · rw [hself, h.part_offset]
    · exact (h.one_slot hinv).guarded hj hg

theorem Inv.apply_guarded (hinv : Inv st) {op : Op} (hop : op.keeps_contents) {i g : Nat}
    (hg : Guarded st i g) (hclock : (st.apply op).completed_timeline < g) :
    Guarded (st.apply op) i g ∧ SamePlace st (st.apply op) i := by
  obtain ⟨st₁, hkeep, hmove⟩ := hinv.apply_effect hop
  obtain ⟨hg₁, hplace₁⟩ := hkeep.guarded hg
  obtain ⟨hg', hplace'⟩ := hmove.guarded (hkeep.inv hinv) hg₁ hclock
  exact ⟨hg', hplace₁.trans hplace'⟩

/-! ### The timeline itself -/

theorem settle_completed (slot : Nat) (ok : Bool) (token : Nat) :
    (st.settle_locked slot ok token).completed_timeline = st.completed_timeline := by
  unfold ExpertStore.settle_locked
  split
  · rfl
  · rfl

/-- Only `set_completed_timeline` moves the timeline. -/
theorem apply_completed (st : ExpertStore) {op : Op} (hop : op.keeps_contents)
    (hset : ∀ v, op ≠ .set_completed_timeline v) :
    (st.apply op).completed_timeline = st.completed_timeline := by
  refine apply_of_writes
    (R := fun st st' => st'.completed_timeline = st.completed_timeline) (fun _ => rfl)
    (fun _ _ _ h h' => h'.trans h) ?_ hop
  intro st st' h
  cases h with
  | complete _ v => exact absurd rfl (hset v)
  | settle _ _ slot ok token => exact settle_completed slot ok token
  | _ => rfl

/-- The runs in which the store keeps its contents and the completed timeline stays
    below `g`. -/
def guarded_system (g : Nat) : LTS.System ExpertStore Op :=
  store_system.restrict fun st op =>
    op.keeps_contents ∧ (st.apply op).completed_timeline < g

theorem run_guarded {i g : Nat} {ops : List Op} (hinv : Inv st) (hg : Guarded st i g)
    (hrun : LTS.Run (guarded_system g) st ops st') :
    Inv st' ∧ Guarded st' i g ∧ SamePlace st st' i := by
  induction hrun with
  | nil st => exact ⟨hinv, hg, .refl st i⟩
  | cons hstep _ ih =>
    obtain ⟨happly, hop, hclock⟩ := hstep
    obtain rfl := Option.some.inj happly
    obtain ⟨hg₁, hplace₁⟩ := hinv.apply_guarded hop hg hclock
    obtain ⟨hinv', hg', hplace'⟩ := ih (hinv.apply _) hg₁
    exact ⟨hinv', hg', hplace₁.trans hplace'⟩

/-- Key `k` is Resident in slot `i` before and after, and its row of the pointer table is
    the same row with the same entries. -/
def StaysResident (st st' : ExpertStore) (k : ExpertKey) (i : Nat) : Prop :=
  st.index k = some i ∧ st'.index k = some i ∧ (st'.slots i).state = .Resident ∧
    ∀ p, st'.table_index k p = st.table_index k p ∧
      st'.table (st.table_index k p) = st.table (st.table_index k p)

/-- A guarded slot keeps its expert, in place, for as long as the guard is pending. -/
theorem guarded_run_stays {i g : Nat} {ops : List Op} (hinv : Inv st) (hg : Guarded st i g)
    (hrun : LTS.Run (guarded_system g) st ops st') :
    StaysResident st st' (st.slots i).key i := by
  obtain ⟨hinv', hg', hplace⟩ := run_guarded hinv hg hrun
  have hused : ∀ {st : ExpertStore}, Guarded st i g → (st.slots i).state ≠ .Free := by
    intro st hg
    rw [hg.resident]
    decide
  have hown := index_own_key hinv hg.lt (hused hg)
  have hown' := index_own_key hinv' hg'.lt (hused hg')
  rw [hplace.key] at hown'
  refine ⟨hown, hown', hg'.resident, fun p => ?_⟩
  have hindex := table_index_eq hplace.geometry (st.slots i).key p
  refine ⟨hindex, ?_⟩
  rw [← hindex, (hinv'.row_resident hown' hg'.resident p).1, hindex,
    (hinv.row_resident hown hg.resident p).1, hplace.base, hplace.part_offset]

/-! ### Installing a guard -/

theorem lookup_guarded (hinv : Inv st) {key : ExpertKey} {token g : Nat} {addr : SlotAddress}
    (hhit : (st.lookup key token g).1 = some addr) :
    ∃ i, st.index key = some i ∧ Guarded (st.lookup key token g).2 i g := by
  unfold ExpertStore.lookup at hhit ⊢
  dsimp only at hhit ⊢
  split at hhit
  · cases hhit
  next i hi =>
  split at hhit
  · cases hhit
  next hres =>
  refine ⟨i, hi, ?_⟩
  rw [if_neg hres]
  refine ⟨((hinv.index key i).mp hi).1, ?_, ?_⟩
  · simpa [set_slot] using hres
  · simp [set_slot]

theorem set_guard_guarded {i g : Nat} (hi : i < st.slots_size)
    (hres : (st.slots i).state = .Resident) : Guarded (st.set_guard i g).2 i g := by
  unfold ExpertStore.set_guard
  rw [if_neg (not_le.mpr hi)]
  dsimp only
  split
  · exact ⟨hi, by simpa [set_slot] using hres, by simp [set_slot]⟩
  · next hg => exact ⟨hi, hres, not_lt.mp hg⟩

theorem guarded_snapshot_guarded {i g : Nat} {snapshot : Nat → Nat}
    (hok : (st.guarded_snapshot g).1 = .ok snapshot) (hi : i < st.slots_size)
    (hres : (st.slots i).state = .Resident) : Guarded (st.guarded_snapshot g).2 i g := by
  unfold ExpertStore.guarded_snapshot at hok ⊢
  split at hok
  · cases hok
  next hpending =>
  rw [if_neg hpending]
  refine ⟨hi, ?_, ?_⟩
  · simp [hres]
  · simp [hres]

theorem guarded_snapshot_eq_table {g : Nat} {snapshot : Nat → Nat}
    (hok : (st.guarded_snapshot g).1 = .ok snapshot) :
    snapshot = st.table ∧ (st.guarded_snapshot g).2.table = st.table := by
  unfold ExpertStore.guarded_snapshot at hok ⊢
  split at hok
  · cases hok
  next hpending =>
  rw [if_neg hpending]
  exact ⟨(Except.ok.inj hok).symm, rfl⟩

/-- The snapshot's entries stay valid: whoever reads one before the guard completes finds
    the expert Resident, at the address the snapshot has. -/
theorem snapshot_run_valid (hinv : Inv st) {g : Nat} {snapshot : Nat → Nat}
    (hok : (st.guarded_snapshot g).1 = .ok snapshot) {ops : List Op}
    (hrun : LTS.Run (guarded_system g) (st.guarded_snapshot g).2 ops st')
    {k : ExpertKey} (hk : st.key_in_range k) {p : ExpertPart}
    (hentry : snapshot (st.table_index k p) ≠ 0) :
    st'.resident k ∧ st'.table (st.table_index k p) = snapshot (st.table_index k p) := by
  obtain ⟨hsnapshot, htable⟩ := guarded_snapshot_eq_table hok
  have hkeep := guarded_snapshot_keep st g
  have hres : st.resident k := by
    by_contra hres
    rw [hsnapshot] at hentry
    exact hentry (hinv.row_absent hk hres p)
  obtain ⟨i, hi, hstate⟩ := resident_iff.mp hres
  have hslot := (hinv.index k i).mp hi
  have hg := guarded_snapshot_guarded hok hslot.1 hstate
  have hstays := guarded_run_stays (hkeep.inv hinv) hg hrun
  rw [(hkeep.slots i).key, hslot.2.2] at hstays
  obtain ⟨_, hi', hstate', hrow⟩ := hstays
  refine ⟨resident_iff.mpr ⟨i, hi', hstate'⟩, ?_⟩
  rw [hsnapshot, ← htable]
  have hsame := (hrow p).2
  rwa [table_index_eq hkeep.toSameGeometry] at hsame

/-- Guard safety. In every reachable store, once a hit of `lookup`, a `set_guard` on a
    Resident slot or a `guarded_snapshot` has installed the guard `g`, every later sequence
    of operations other than `init` and `reset` during which the completed timeline stays
    below `g` leaves the key Resident in the same slot with an unchanged row, and every
    nonzero entry of the snapshot stays valid. -/
theorem guard_protects (h : LTS.Reachable store_system st) (g : Nat) :
    (∀ key token addr, (st.lookup key token g).1 = some addr → ∀ ops st',
      LTS.Run (guarded_system g) (st.lookup key token g).2 ops st' →
      ∃ i, StaysResident (st.lookup key token g).2 st' key i) ∧
    (∀ i, i < st.slots_size → (st.slots i).state = .Resident → ∀ ops st',
      LTS.Run (guarded_system g) (st.set_guard i g).2 ops st' →
      StaysResident (st.set_guard i g).2 st' (st.slots i).key i) ∧
    (∀ snapshot, (st.guarded_snapshot g).1 = .ok snapshot → ∀ ops st',
      LTS.Run (guarded_system g) (st.guarded_snapshot g).2 ops st' →
      (∀ i, i < st.slots_size → (st.slots i).state = .Resident →
        StaysResident (st.guarded_snapshot g).2 st' (st.slots i).key i) ∧
      ∀ k p, st.key_in_range k → snapshot (st.table_index k p) ≠ 0 →
        st'.resident k ∧ st'.table (st.table_index k p) = snapshot (st.table_index k p)) := by
  have hinv := reachable_inv h
  refine ⟨?_, ?_, ?_⟩
  · intro key token addr hhit ops st' hrun
    obtain ⟨i, hi, hg⟩ := lookup_guarded hinv hhit
    have hkeep := lookup_keep st key token g
    have hstays := guarded_run_stays (hkeep.inv hinv) hg hrun
    rw [(hkeep.slots i).key, ((hinv.index key i).mp hi).2.2] at hstays
    exact ⟨i, hstays⟩
  · intro i hi hres ops st' hrun
    have hkeep := set_guard_keep st i g
    have hstays := guarded_run_stays (hkeep.inv hinv) (set_guard_guarded hi hres) hrun
    rwa [(hkeep.slots i).key] at hstays
  · intro snapshot hok ops st' hrun
    have hkeep := guarded_snapshot_keep st g
    refine ⟨fun i hi hres => ?_, fun k p hk hentry => snapshot_run_valid hinv hok hrun hk hentry⟩
    have hstays :=
      guarded_run_stays (hkeep.inv hinv) (guarded_snapshot_guarded hok hi hres) hrun
    rwa [(hkeep.slots i).key] at hstays

/-- A guard of 9 on the expert of `busy_store`, while the timeline reaches 8 and the
    planner tries to evict. -/
theorem guard_protects_busy :
    ∃ i, StaysResident (busy_store.lookup ⟨0, 5⟩ 11 9).2
      ([Op.set_completed_timeline 8, .evict_lru, .evict 0].foldl ExpertStore.apply
        (busy_store.lookup ⟨0, 5⟩ 11 9).2) ⟨0, 5⟩ i := by
  refine (guard_protects busy_store_reachable 9).1 ⟨0, 5⟩ 11 _ rfl
    [.set_completed_timeline 8, .evict_lru, .evict 0] _ ?_
  refine .cons ⟨rfl, rfl, by decide⟩ (.cons ⟨rfl, rfl, by decide⟩
    (.cons ⟨rfl, rfl, by decide⟩ (.nil _)))

/-- `reset` is an operation too: it forgets the slots and takes the timeline back to 0. -/
theorem reset_drops_guarded :
    ¬ ∀ st, LTS.Reachable store_system st → ∀ key token g addr ops st',
      (st.lookup key token g).1 = some addr →
      LTS.Run (store_system.restrict fun st op => (st.apply op).completed_timeline < g)
        (st.lookup key token g).2 ops st' →
      st'.resident key := by
  intro hclaim
  have hres := hclaim busy_store busy_store_reachable ⟨0, 5⟩ 11 9 _ [.reset] _ rfl
    (.single ⟨rfl, by decide⟩)
  revert hres
  decide

end CachedMoe.Store
