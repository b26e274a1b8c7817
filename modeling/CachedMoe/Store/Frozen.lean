import CachedMoe.Store.Fill

/-! # The fixed cache

    With `set_fixed_cache(true)` the store keeps the first experts that fill it: nothing is
    evicted, and once every slot is Resident the cache is frozen, by the fill that settles
    last or by `set_fixed_cache` itself. A frozen cache keeps its experts, its pointer table
    and its LRU stamps through every operation until it is thawed. -/

namespace CachedMoe.Store

open CachedMoe ExpertStore

/-! ### Identity of a frozen cache -/

/-- A row of `frozen_cache_identity`. -/
structure CacheIdentityRow where
  slot : Nat
  layer : UInt16
  expert : UInt16
  pinned : Bool
  deriving Repr, DecidableEq

namespace ExpertStore

def identity_row (s : ExpertSlot) : Result CacheIdentityRow :=
  if s.state ≠ .Resident then fail .FailedPrecondition "frozen cache has an unsettled slot"
  else .ok { slot := s.slot, layer := s.key.layer, expert := s.key.expert, pinned := s.tier = .Pinned }

def frozen_cache_identity (st : ExpertStore) : Result (List CacheIdentityRow) :=
  if !st.fixed_cache ∨ !st.cache_frozen ∨ st.slots_size = 0 ∨ st.stats.filling ≠ 0 ∨
      st.stats.free ≠ 0 then
    fail .FailedPrecondition "benchmark control requires a full frozen cache"
  else (List.range st.slots_size).mapM fun i => identity_row (st.slots i)

end ExpertStore

/-- The operations that thaw a frozen cache. -/
def Op.thaws : Op → Bool
  | .init .. | .reset | .set_fixed_cache false => true
  | _ => false

/-! ### Frozen means full -/

/-- A cache that is frozen is fixed and full. -/
structure Frozen (st : ExpertStore) : Prop where
  frozen : st.cache_frozen = true
  fixed : st.fixed_cache = true
  nonempty : 0 < st.slots_size
  resident : ∀ i < st.slots_size, (st.slots i).state = .Resident

variable {st st' : ExpertStore}

/-- What no operation changes in a frozen cache. -/
structure SameFrozen (st st' : ExpertStore) : Prop where
  frozen : st'.cache_frozen = st.cache_frozen
  fixed : st'.fixed_cache = st.fixed_cache
  slots_size : st'.slots_size = st.slots_size
  table : st'.table = st.table
  slot : ∀ i, (st'.slots i).slot = (st.slots i).slot
  key : ∀ i, (st'.slots i).key = (st.slots i).key
  state : ∀ i, (st'.slots i).state = (st.slots i).state
  stamp : ∀ i, (st'.slots i).last_use_token = (st.slots i).last_use_token

theorem SameFrozen.refl (st : ExpertStore) : SameFrozen st st :=
  ⟨rfl, rfl, rfl, rfl, fun _ => rfl, fun _ => rfl, fun _ => rfl, fun _ => rfl⟩

theorem SameFrozen.trans {st₁ : ExpertStore} (h : SameFrozen st st₁) (h' : SameFrozen st₁ st') :
    SameFrozen st st' :=
  ⟨h'.frozen.trans h.frozen, h'.fixed.trans h.fixed, h'.slots_size.trans h.slots_size,
    h'.table.trans h.table, fun i => (h'.slot i).trans (h.slot i),
    fun i => (h'.key i).trans (h.key i), fun i => (h'.state i).trans (h.state i),
    fun i => (h'.stamp i).trans (h.stamp i)⟩

theorem Frozen.of_same (h : Frozen st) (hs : SameFrozen st st') : Frozen st' := by
  refine ⟨hs.frozen.trans h.frozen, hs.fixed.trans h.fixed, ?_, ?_⟩
  · rw [hs.slots_size]
    exact h.nonempty
  · intro i hi
    rw [hs.slots_size] at hi
    rw [hs.state i]
    exact h.resident i hi

/-- One slot rewritten, its contents and its stamp kept. -/
theorem SameFrozen.set_slot (st : ExpertStore) {i : Nat} {s : ExpertSlot} (stats : ExpertStoreStats)
    (hslot : s.slot = (st.slots i).slot) (hkey : s.key = (st.slots i).key)
    (hstate : s.state = (st.slots i).state)
    (hstamp : s.last_use_token = (st.slots i).last_use_token) :
    SameFrozen st (st.set_slot i s stats) := by
  refine ⟨rfl, rfl, rfl, rfl, ?_, ?_, ?_, ?_⟩
  all_goals
    intro j
    by_cases hj : j = i
    · subst hj
      simpa [ExpertStore.set_slot]
    · simp [ExpertStore.set_slot, Function.update_of_ne hj]

/-- A store all of whose slots are Resident is full by its counters, and conversely. -/
theorem Inv.full_iff (hinv : Inv st) :
    st.stats.resident = st.slots_size ↔ ∀ i < st.slots_size, (st.slots i).state = .Resident := by
  rw [hinv.counts.resident, slots_with]
  constructor
  · intro h i hi
    have hcard : PointUpdate.count (Finset.range st.slots_size) st.slots
        (fun s => s.state = .Resident) = (Finset.range st.slots_size).card := by
      rw [h, Finset.card_range]
    exact PointUpdate.forall_of_count_eq_card _ hcard i (Finset.mem_range.mpr hi)
  · intro h
    rw [PointUpdate.count_eq_card _ fun i hi => h i (Finset.mem_range.mp hi), Finset.card_range]

/-! ### Nothing moves in a frozen cache -/

theorem Frozen.finish_run (h : Frozen st) (slot : Nat) (ok : Bool) (token : Nat) :
    (st.finish_run slot ok token).2 = st := by
  unfold ExpertStore.finish_run
  split
  · rfl
  next hlt =>
    have hres := h.resident slot (by omega)
    simp [hres]

theorem Frozen.finish_fill (h : Frozen st) (slot : Nat) (ok : Bool) (token : Nat) :
    (st.finish_fill slot ok token).2 = st := by
  unfold ExpertStore.finish_fill
  split
  · rfl
  next hlt =>
    have hres := h.resident slot (by omega)
    simp [hres]

theorem Frozen.begin_fill (h : Frozen st) (key : ExpertKey) (entry : ExpertEntry) (tier : Tier) :
    (st.begin_fill key entry tier).2 = st := by
  have hres : st.reserve_locked key tier =
      (fail .ResourceExhausted "initial mask cache is frozen", st) := by
    simp [reserve_locked, h.frozen]
  unfold ExpertStore.begin_fill
  dsimp only
  split
  · rfl
  split
  · rfl
  split
  · rfl
  rw [hres]
  rfl

theorem Frozen.begin_fill_synthetic (h : Frozen st) (key : ExpertKey) (tier : Tier) :
    (st.begin_fill_synthetic key tier).2 = st := by
  have hres : st.reserve_locked key tier =
      (fail .ResourceExhausted "initial mask cache is frozen", st) := by
    simp [reserve_locked, h.frozen]
  unfold ExpertStore.begin_fill_synthetic
  rw [hres]
  rfl

theorem Frozen.evict (h : Frozen st) (slot : Nat) : (st.evict slot).2 = st := by
  simp [ExpertStore.evict, h.fixed]

/-- Every operation but those that thaw it leaves a frozen cache as it is. -/
theorem Frozen.apply_same (h : Frozen st) (hinv : Inv st) {op : Op} (hop : op.thaws = false) :
    SameFrozen st (st.apply op) := by
  cases op with
  | init => cases hop
  | reset => cases hop
  | set_fixed_cache enabled =>
    cases enabled with
    | false => cases hop
    | true =>
      -- still full, so still frozen
      have hfull := hinv.full_iff.mpr h.resident
      refine ⟨?_, h.fixed.symm, rfl, rfl, fun _ => rfl, fun _ => rfl, fun _ => rfl, fun _ => rfl⟩
      simp [ExpertStore.apply, ExpertStore.set_fixed_cache, h.frozen, hfull, h.nonempty.ne']
  | set_path_b_first_slab slab =>
    exact ⟨rfl, rfl, rfl, rfl, fun _ => rfl, fun _ => rfl, fun _ => rfl, fun _ => rfl⟩
  | set_evict_path path =>
    exact ⟨rfl, rfl, rfl, rfl, fun _ => rfl, fun _ => rfl, fun _ => rfl, fun _ => rfl⟩
  | reset_stats =>
    exact ⟨rfl, rfl, rfl, rfl, fun _ => rfl, fun _ => rfl, fun _ => rfl, fun _ => rfl⟩
  | lookup key token guard =>
    simp only [ExpertStore.apply, ExpertStore.lookup]
    split
    · exact ⟨rfl, rfl, rfl, rfl, fun _ => rfl, fun _ => rfl, fun _ => rfl, fun _ => rfl⟩
    split
    · exact ⟨rfl, rfl, rfl, rfl, fun _ => rfl, fun _ => rfl, fun _ => rfl, fun _ => rfl⟩
    · -- a hit in a fixed cache takes no stamp
      have hcount : SameFrozen st { st with stats.lookups := st.stats.lookups + 1 } :=
        ⟨rfl, rfl, rfl, rfl, fun _ => rfl, fun _ => rfl, fun _ => rfl, fun _ => rfl⟩
      refine hcount.trans (SameFrozen.set_slot _ _ rfl rfl rfl ?_)
      simp [h.fixed]
  | begin_fill key entry tier =>
    rw [show st.apply (.begin_fill key entry tier) = st from h.begin_fill key entry tier]
    exact .refl st
  | begin_fill_synthetic key tier =>
    rw [show st.apply (.begin_fill_synthetic key tier) = st from h.begin_fill_synthetic key tier]
    exact .refl st
  | finish_run slot ok token =>
    rw [show st.apply (.finish_run slot ok token) = st from h.finish_run slot ok token]
    exact .refl st
  | finish_fill slot ok token =>
    rw [show st.apply (.finish_fill slot ok token) = st from h.finish_fill slot ok token]
    exact .refl st
  | evict slot =>
    rw [show st.apply (.evict slot) = st from h.evict slot]
    exact .refl st
  | evict_key key =>
    simp only [ExpertStore.apply, ExpertStore.evict_key]
    split
    · exact .refl st
    · rw [h.evict]
      exact .refl st
  | evict_lru =>
    have heq : st.evict_lru.2 = st := by simp [ExpertStore.evict_lru, h.fixed]
    rw [show st.apply .evict_lru = st from heq]
    exact .refl st
  | set_completed_timeline v =>
    simp only [ExpertStore.apply, ExpertStore.set_completed_timeline]
    split
    · exact ⟨rfl, rfl, rfl, rfl, fun _ => rfl, fun _ => rfl, fun _ => rfl, fun _ => rfl⟩
    · exact .refl st
  | guarded_snapshot guard =>
    simp only [ExpertStore.apply, ExpertStore.guarded_snapshot]
    split
    · exact .refl st
    · refine ⟨rfl, rfl, rfl, rfl, ?_, ?_, ?_, ?_⟩
      all_goals
        intro i
        dsimp only
        split <;> rfl
  | set_guard slot v =>
    simp only [ExpertStore.apply, ExpertStore.set_guard]
    split
    · exact .refl st
    split
    · exact SameFrozen.set_slot st _ rfl rfl rfl rfl
    · exact .refl st
  | note_heat key score alpha =>
    simp only [ExpertStore.apply, ExpertStore.note_heat, h.fixed]
    exact .refl st
  | decay_heat factor =>
    simp only [ExpertStore.apply, ExpertStore.decay_heat]
    split
    · exact .refl st
    split
    · exact .refl st
    · exact ⟨rfl, rfl, rfl, rfl, fun _ => rfl, fun _ => rfl, fun _ => rfl, fun _ => rfl⟩
  | pin key =>
    simp only [ExpertStore.apply, ExpertStore.pin]
    split
    · exact .refl st
    split
    · exact .refl st
    split
    · exact SameFrozen.set_slot st _ rfl rfl rfl rfl
    · exact .refl st
  | touch key stamp include_filling =>
    simp only [ExpertStore.apply, ExpertStore.touch]
    split
    · exact .refl st
    split
    · exact .refl st
    split
    next hstamp => exact absurd h.fixed hstamp.1
    · exact .refl st

/-! ### Freezing -/

/-- The store is fixed and full, as its counters say. -/
def JustFilled (st : ExpertStore) : Prop :=
  st.fixed_cache = true ∧ 0 < st.slots_size ∧ st.stats.resident = st.slots_size

/-- A settling fill that freezes the cache found it fixed, and leaves it full. -/
theorem settle_locked_freezes {slot : Nat} {ok : Bool} {token : Nat}
    (h : (st.settle_locked slot ok token).cache_frozen = true) (hpos : 0 < st.slots_size) :
    st.cache_frozen = true ∨ JustFilled (st.settle_locked slot ok token) := by
  cases ok with
  | true =>
    simp only [settle_locked, if_true, Bool.or_eq_true, Bool.and_eq_true, beq_iff_eq] at h
    exact h.imp_right fun hfull => ⟨hfull.1, hpos, hfull.2⟩
  | false => exact .inl h

theorem finish_run_freezes {slot : Nat} {ok : Bool} {token : Nat}
    (h : (st.finish_run slot ok token).2.cache_frozen = true) :
    st.cache_frozen = true ∨ JustFilled (st.finish_run slot ok token).2 := by
  unfold ExpertStore.finish_run at h ⊢
  dsimp only at h ⊢
  split at h
  · exact .inl h
  next hlt =>
  split at h
  · exact .inl h
  next hfill =>
  split at h
  · exact .inl h
  next hmore =>
  split at h
  · exact .inl h
  next hlast =>
    rw [if_neg hlt, if_neg hfill, if_neg hmore, if_neg hlast]
    exact settle_locked_freezes h (Nat.zero_lt_of_lt (Nat.not_le.mp hlt))

theorem finish_fill_freezes {slot : Nat} {ok : Bool} {token : Nat}
    (h : (st.finish_fill slot ok token).2.cache_frozen = true) :
    st.cache_frozen = true ∨ JustFilled (st.finish_fill slot ok token).2 := by
  unfold ExpertStore.finish_fill at h ⊢
  dsimp only at h ⊢
  split at h
  · exact .inl h
  next hlt =>
  split at h
  · exact .inl h
  next hfill =>
    rw [if_neg hlt, if_neg hfill]
    exact settle_locked_freezes h (Nat.zero_lt_of_lt (Nat.not_le.mp hlt))

/-- Other writes than those of a settling fill and of `set_fixed_cache` leave the flag. -/
theorem Write.frozen {op : Op} (h : Write op st st') (hreport : op.finishes = none)
    (hfix : ∀ enabled, op ≠ .set_fixed_cache enabled) : st'.cache_frozen = st.cache_frozen := by
  cases h with
  | fix => exact absurd rfl (hfix _)
  | land _ _ _ _ _ reports =>
    rw [hreport] at reports
    cases reports
  | settle _ _ _ _ _ reports =>
    rw [hreport] at reports
    cases reports
  | _ => rfl

/-- Only a settling fill and `set_fixed_cache` freeze the cache, and then it is full. -/
theorem apply_freezes {op : Op} (h : (st.apply op).cache_frozen = true) :
    st.cache_frozen = true ∨ JustFilled (st.apply op) := by
  have hother : op.keeps_contents → op.finishes = none →
      (∀ enabled, op ≠ .set_fixed_cache enabled) → st.cache_frozen = true := by
    intro hkeeps hreport hfix
    rw [← h]
    exact (apply_of_writes (R := fun st st' => st'.cache_frozen = st.cache_frozen) (fun _ => rfl)
      (fun _ _ _ h₁ h₂ => h₂.trans h₁) (fun _ _ hw => hw.frozen hreport hfix) hkeeps).symm
  cases op with
  | init backing cache layers experts_per_layer =>
    simp only [ExpertStore.apply, ExpertStore.init] at h
    split at h
    · exact .inl h
    split at h
    · exact .inl h
    · cases h
  | reset => cases h
  | set_fixed_cache enabled =>
    simp only [ExpertStore.apply, ExpertStore.set_fixed_cache, Bool.and_eq_true, bne_iff_ne,
      beq_iff_eq] at h
    exact .inr ⟨h.1.1, Nat.pos_of_ne_zero h.1.2, h.2⟩
  | finish_run slot ok token => exact finish_run_freezes h
  | finish_fill slot ok token => exact finish_fill_freezes h
  | _ => exact .inl (hother rfl rfl fun _ heq => by cases heq)

/-- Of the operations that thaw, only an `init` that fails leaves the cache frozen. -/
theorem Frozen.of_thaw (h : Frozen st) {op : Op} (hop : op.thaws = true)
    (hfr : (st.apply op).cache_frozen = true) : Frozen (st.apply op) := by
  cases op with
  | init backing cache layers experts_per_layer =>
    simp only [ExpertStore.apply, ExpertStore.init] at hfr ⊢
    split at hfr
    · next hsize =>
      rw [if_pos hsize]
      exact h
    next hsize =>
    rw [if_neg hsize]
    split at hfr
    · exact ⟨h.frozen, h.fixed, h.nonempty, h.resident⟩
    · cases hfr
  | reset => cases hfr
  | set_fixed_cache enabled =>
    cases enabled with
    | false => cases hfr
    | true => cases hop
  | _ => cases hop

/-- A cache that is frozen is full, in every reachable state. -/
theorem reachable_frozen (h : LTS.Reachable store_system st) :
    st.cache_frozen = true → Frozen st := by
  have hboth : Inv st ∧ (st.cache_frozen = true → Frozen st) := by
    refine h.invariant (P := fun st => Inv st ∧ (st.cache_frozen = true → Frozen st)) ?_ ?_
    · rintro st ⟨st₀, backing, cache, layers, experts_per_layer, hinit⟩
      refine ⟨reachable_inv (.of_init ⟨st₀, backing, cache, layers, experts_per_layer, hinit⟩), ?_⟩
      intro hfr
      unfold ExpertStore.init at hinit
      split at hinit
      · cases hinit
      dsimp only at hinit
      split at hinit
      · cases hinit
      · cases hinit
        cases hfr
    · rintro st op st' ⟨hinv, hfrozen⟩ hstep
      obtain rfl : st.apply op = st' := Option.some.inj hstep
      refine ⟨hinv.apply op, ?_⟩
      intro hfr
      rcases apply_freezes hfr with hold | ⟨hfixed, hpos, hfull⟩
      · by_cases hop : op.thaws = false
        · exact (hfrozen hold).of_same ((hfrozen hold).apply_same hinv hop)
        · exact (hfrozen hold).of_thaw (by simpa using hop) hfr
      · exact ⟨hfr, hfixed, hpos, (hinv.apply op).full_iff.mp hfull⟩
  exact hboth.2

/-! ### The identity stays -/

def CacheIdentityRow.columns (r : CacheIdentityRow) : Nat × UInt16 × UInt16 :=
  (r.slot, r.layer, r.expert)

/-- The row of a Resident slot. -/
def resident_row (s : ExpertSlot) : CacheIdentityRow :=
  { slot := s.slot, layer := s.key.layer, expert := s.key.expert, pinned := s.tier = .Pinned }

theorem Frozen.identity (h : Frozen st) (hinv : Inv st) :
    st.frozen_cache_identity = .ok ((List.range st.slots_size).map fun i => resident_row (st.slots i)) := by
  have hnone : ∀ P : ExpertSlot → Prop, ∀ [DecidablePred P],
      (∀ s : ExpertSlot, s.state = .Resident → ¬ P s) → slots_with st P = 0 := by
    intro P _ hP
    exact PointUpdate.count_eq_zero _ fun i hi => hP _ (h.resident i (Finset.mem_range.mp hi))
  have hfilling : st.stats.filling = 0 := by
    rw [hinv.counts.filling]
    exact hnone _ fun s hs hno => by rw [hs] at hno; cases hno
  have hfree : st.stats.free = 0 := by
    rw [hinv.counts.free]
    exact hnone _ fun s hs hno => by rw [hs] at hno; cases hno
  unfold ExpertStore.frozen_cache_identity
  rw [if_neg (by simp [h.fixed, h.frozen, h.nonempty.ne', hfilling, hfree])]
  have hrows : ∀ l : List Nat, (∀ i ∈ l, i < st.slots_size) →
      l.mapM (fun i => identity_row (st.slots i)) =
        (.ok (l.map fun i => resident_row (st.slots i)) : Result _) := by
    intro l hl
    induction l with
    | nil => rfl
    | cons i l ih =>
      have hrow : identity_row (st.slots i) = .ok (resident_row (st.slots i)) := by
        simp [identity_row, resident_row, h.resident i (hl i List.mem_cons_self)]
      rw [List.mapM_cons, hrow, ih fun j hj => hl j (List.mem_cons_of_mem i hj)]
      rfl
  exact hrows _ fun i hi => List.mem_range.mp hi

theorem Frozen.run (h : Frozen st) (hinv : Inv st) {ops : List Op}
    (hrun : LTS.Run (store_system.restrict fun _ op => op.thaws = false) st ops st') :
    SameFrozen st st' ∧ Frozen st' ∧ Inv st' := by
  refine hrun.invariant (P := fun st' => SameFrozen st st' ∧ Frozen st' ∧ Inv st') ?_
    ⟨.refl st, h, hinv⟩
  rintro st₁ op st₂ ⟨hsame, hfrozen, hinv₁⟩ ⟨hstep, hop⟩
  obtain rfl : st₁.apply op = st₂ := Option.some.inj hstep
  have hnext := hfrozen.apply_same hinv₁ hop
  exact ⟨hsame.trans hnext, hfrozen.of_same hnext, hinv₁.apply op⟩

/-- A frozen cache is full, and stays as it is through every sequence of operations that does
    not thaw it: the slot, layer and expert columns of its identity, the pointer table and the
    LRU stamp of every slot. -/
theorem frozen_cache_unchanged (h : LTS.Reachable store_system st) (hfrozen : st.cache_frozen = true) :
    (∀ i < st.slots_size, (st.slots i).state = .Resident) ∧
    ∃ ids, st.frozen_cache_identity = .ok ids ∧
      ∀ ops st', LTS.Run (store_system.restrict fun _ op => op.thaws = false) st ops st' →
        st'.cache_frozen = true ∧ st'.table = st.table ∧
        (∀ i, (st'.slots i).last_use_token = (st.slots i).last_use_token) ∧
        ∃ ids', st'.frozen_cache_identity = .ok ids' ∧
          ids'.map CacheIdentityRow.columns = ids.map CacheIdentityRow.columns := by
  have hf := reachable_frozen h hfrozen
  have hinv := reachable_inv h
  refine ⟨hf.resident, _, hf.identity hinv, ?_⟩
  intro ops st' hrun
  obtain ⟨hsame, hf', hinv'⟩ := hf.run hinv hrun
  refine ⟨hf'.frozen, hsame.table, hsame.stamp, _, hf'.identity hinv', ?_⟩
  rw [hsame.slots_size, List.map_map, List.map_map]
  apply List.map_congr_left
  intro i _
  simp [CacheIdentityRow.columns, resident_row, hsame.slot i, hsame.key i]

/-- Two slots fixed before they fill: frozen by the second fill. -/
def frozen_ops : List Op :=
  [.set_fixed_cache true, .begin_fill_synthetic ⟨0, 5⟩ .Cached, .finish_run 0 true 10,
    .begin_fill_synthetic ⟨0, 2⟩ .Cached, .finish_run 1 true 20]

def frozen_store : ExpertStore := frozen_ops.foldl ExpertStore.apply pair_store

theorem frozen_cache_unchanged_touched :
    frozen_store.cache_frozen = true ∧
    (frozen_store.apply (.touch ⟨0, 2⟩ 999 false)).table = frozen_store.table ∧
    ((frozen_store.apply (.touch ⟨0, 2⟩ 999 false)).slots 1).last_use_token = 20 := by
  have hreach : LTS.Reachable store_system frozen_store := by
    refine ⟨pair_store, frozen_ops, ⟨{}, _, _, _, _, pair_store_init⟩, ?_⟩
    rw [store_system, LTS.run_ofNext_iff]
    rfl
  have hfrozen : frozen_store.cache_frozen = true := by decide +kernel
  obtain ⟨_, _, _, hrun⟩ := frozen_cache_unchanged hreach hfrozen
  obtain ⟨_, htable, hstamp, _⟩ := hrun [.touch ⟨0, 2⟩ 999 false] _ (.single ⟨rfl, rfl⟩)
  refine ⟨hfrozen, htable, ?_⟩
  rw [hstamp 1]
  decide +kernel

end CachedMoe.Store
