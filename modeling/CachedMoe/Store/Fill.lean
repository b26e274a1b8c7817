import CachedMoe.Store.Invariant
import CachedMoe.Store.Writes

/-! # A fill in progress

    What the operations do to one Filling slot: `begin_fill` opens it with the number of its
    runs, each `finish_run` counts one, the last settles it, and no other operation that keeps
    the contents touches it. -/

namespace CachedMoe.Store

open CachedMoe ExpertStore

variable {st st' : ExpertStore}

/-- Slot `i` is Filling, with `done` of its `total` runs reported. -/
structure FillAt (st : ExpertStore) (i total done : Nat) : Prop where
  lt : i < st.slots_size
  filling : (st.slots i).state = .Filling
  total : (st.slots i).runs_total = total
  done : (st.slots i).runs_done = done

theorem FillAt.of_slots {i total done : Nat} (h : FillAt st i total done)
    (hsize : st'.slots_size = st.slots_size) (hslot : st'.slots i = st.slots i) :
    FillAt st' i total done := by
  refine ⟨hsize ▸ h.lt, ?_, ?_, ?_⟩
  · rw [hslot, h.filling]
  · rw [hslot, h.total]
  · rw [hslot, h.done]

/-! ### begin_fill -/

theorem begin_fill_error {key : ExpertKey} {entry : ExpertEntry} {tier : Tier} {e : Status}
    (h : st.begin_fill key entry tier = (.error e, st')) : st' = st := by
  unfold ExpertStore.begin_fill at h
  dsimp only at h
  split at h
  · cases h
    rfl
  split at h
  · cases h
    rfl
  split at h
  · cases h
    rfl
  rcases reserve_locked_cases st key tier with ⟨e', he⟩ | ⟨slot, rest, addr, _, _, _, _, hres⟩
  · rw [he] at h
    cases h
    rfl
  · rw [hres] at h
    cases h

/-- A successful `begin_fill` takes a free slot and opens it; the other slots stay. -/
theorem begin_fill_ok (hinv : Inv st) {key : ExpertKey} {entry : ExpertEntry} {tier : Tier}
    {res : Reservation} (h : st.begin_fill key entry tier = (.ok res, st')) :
    0 < res.run_count ∧ FillAt st' res.slot res.run_count 0 ∧
    (st.slots res.slot).state = .Free ∧ st'.slots_size = st.slots_size ∧
    ∀ j, j ≠ res.slot → st'.slots j = st.slots j := by
  unfold ExpertStore.begin_fill at h
  dsimp only at h
  split at h
  · cases h
  next hpos =>
  split at h
  · cases h
  split at h
  · cases h
  rcases reserve_locked_cases st key tier with ⟨e', he⟩ | ⟨slot, rest, addr, _, _, _, hfree, hres⟩
  · rw [he] at h
    cases h
  · rw [hres] at h
    cases h
    obtain ⟨hlt, hstate⟩ := (hinv.free_list.2 slot).mp (hfree ▸ List.mem_cons_self)
    refine ⟨Nat.pos_of_ne_zero hpos, ⟨hlt, ?_, ?_, ?_⟩, hstate, rfl, ?_⟩
    · simp [taken, set_slot, laid_out, reserved_slot]
    · simp [taken, set_slot, laid_out]
    · simp [taken, set_slot, laid_out, reserved_slot]
    · intro j hj
      simp [taken, set_slot, Function.update_of_ne hj]

/-! ### finish_run -/

theorem settle_locked_slots (st : ExpertStore) (i : Nat) (ok : Bool) (token : Nat) :
    (st.settle_locked i ok token).slots_size = st.slots_size ∧
    ((st.settle_locked i ok token).slots i).state ≠ .Filling ∧
    ∀ j, j ≠ i → (st.settle_locked i ok token).slots j = st.slots j := by
  cases ok with
  | true =>
    refine ⟨rfl, ?_, ?_⟩
    · simp [settle_locked, publish_locked, set_slot, settled_slot]
    · intro j hj
      simp [settle_locked, publish_locked, set_slot, Function.update_of_ne hj]
  | false =>
    refine ⟨rfl, ?_, ?_⟩
    · simp [settle_locked, release_locked, set_slot, released_slot]
    · intro j hj
      simp [settle_locked, release_locked, set_slot, Function.update_of_ne hj]

theorem finish_run_other (st : ExpertStore) (i : Nat) (ok : Bool) (token : Nat) :
    (st.finish_run i ok token).2.slots_size = st.slots_size ∧
    ∀ j, j ≠ i → (st.finish_run i ok token).2.slots j = st.slots j := by
  unfold ExpertStore.finish_run
  dsimp only
  split
  · exact ⟨rfl, fun _ _ => rfl⟩
  split
  · exact ⟨rfl, fun _ _ => rfl⟩
  split
  · exact ⟨rfl, fun _ _ => rfl⟩
  split
  · refine ⟨rfl, ?_⟩
    intro j hj
    simp [set_slot, Function.update_of_ne hj]
  · obtain ⟨hsize, _, hother⟩ := settle_locked_slots (st.set_slot i _ _) i _ token
    refine ⟨hsize, ?_⟩
    intro j hj
    rw [hother j hj]
    simp [set_slot, Function.update_of_ne hj]

/-- A report on a slot that is not full counts, and settles the slot when it is the last. -/
theorem FillAt.finish_run {i total done : Nat} (h : FillAt st i total done) (hdone : done < total)
    (ok : Bool) (token : Nat) :
    (st.finish_run i ok token).1 = .ok (decide (done + 1 = total)) ∧
    (done + 1 < total → FillAt (st.finish_run i ok token).2 i total (done + 1)) ∧
    (done + 1 = total → ((st.finish_run i ok token).2.slots i).state ≠ .Filling) := by
  unfold ExpertStore.finish_run
  dsimp only
  rw [if_neg (Nat.not_le.mpr h.lt), if_neg (not_not.mpr h.filling), h.total, h.done,
    if_neg (Nat.not_le.mpr hdone)]
  split
  next hmore =>
    refine ⟨?_, ?_, ?_⟩
    · rw [decide_eq_false (by omega)]
    · intro _
      refine ⟨h.lt, ?_, ?_, ?_⟩
      · simpa [set_slot] using h.filling
      · simp [set_slot]
      · simp [set_slot]
    · intro hlast
      omega
  next hmore =>
    refine ⟨?_, ?_, ?_⟩
    · rw [decide_eq_true (by omega)]
    · intro hmore'
      exact absurd hmore' hmore
    · intro _
      exact (settle_locked_slots _ i _ token).2.1

theorem finish_fill_other (st : ExpertStore) (i : Nat) (ok : Bool) (token : Nat) :
    (st.finish_fill i ok token).2.slots_size = st.slots_size ∧
    ∀ j, j ≠ i → (st.finish_fill i ok token).2.slots j = st.slots j := by
  unfold ExpertStore.finish_fill
  dsimp only
  split
  · exact ⟨rfl, fun _ _ => rfl⟩
  split
  · exact ⟨rfl, fun _ _ => rfl⟩
  obtain ⟨hsize, _, hother⟩ := settle_locked_slots (st.set_slot i _ _) i _ token
  refine ⟨hsize, ?_⟩
  intro j hj
  rw [hother j hj]
  simp [set_slot, Function.update_of_ne hj]

/-! ### The other operations -/

/-- Two contents of a slot at the same point of the same fill. -/
structure SameFill (s s' : ExpertSlot) : Prop where
  key : s'.key = s.key
  state : s'.state = s.state
  total : s'.runs_total = s.runs_total
  done : s'.runs_done = s.runs_done
  failed : s'.run_failed = s.run_failed

theorem SameFill.refl (s : ExpertSlot) : SameFill s s :=
  ⟨rfl, rfl, rfl, rfl, rfl⟩

theorem SameFill.of_eq {s s' : ExpertSlot} (h : s' = s) : SameFill s s' :=
  h ▸ .refl s

/-- A slot rewritten with the progress of its fill kept. -/
theorem SameFill.update {slots : Nat → ExpertSlot} {j : Nat} {s : ExpertSlot}
    (h : SameFill (slots j) s) (i : Nat) : SameFill (slots i) (Function.update slots j s i) := by
  by_cases hij : i = j
  · subst hij
    simpa using h
  · exact .of_eq (Function.update_of_ne hij s slots)

section Filling

variable {i : Nat} (hfill : (st.slots i).state = .Filling)

include hfill

theorem recycle_same_fill {j : Nat} (hj : (st.slots j).state ≠ .Filling) :
    SameFill (st.slots i) ((st.recycle j).slots i) := by
  have hij : i ≠ j := fun heq => hj (heq ▸ hfill)
  refine .of_eq ?_
  simp [recycle, release_locked, unpublish_locked, ExpertStore.set_slot, Function.update_of_ne hij]

theorem evict_same_fill (j : Nat) : SameFill (st.slots i) ((st.evict j).2.slots i) := by
  unfold ExpertStore.evict
  split
  · exact .refl _
  split
  · exact .refl _
  dsimp only
  split
  · exact .refl _
  next hres =>
  split
  · exact .refl _
  split
  · exact .refl _
  · refine recycle_same_fill hfill ?_
    rw [not_not.mp hres]
    decide

theorem evict_lru_same_fill : SameFill (st.slots i) (st.evict_lru.2.slots i) := by
  unfold ExpertStore.evict_lru
  split
  · exact .refl _
  split
  · exact .refl _
  next best hbest =>
  refine recycle_same_fill hfill ?_
  have hvictim := (lru_victim_evictable hbest).2
  simp only [is_evictable, Bool.and_eq_true, decide_eq_true_eq] at hvictim
  rw [hvictim.1.1]
  decide

theorem filling_not_free (hinv : Inv st) : i ∉ st.free_list := by
  intro hmem
  have hfree := ((hinv.free_list.2 i).mp hmem).2
  rw [hfill] at hfree
  cases hfree

theorem begin_fill_same_fill (hinv : Inv st) (key : ExpertKey) (entry : ExpertEntry) (tier : Tier) :
    SameFill (st.slots i) ((st.begin_fill key entry tier).2.slots i) := by
  cases hres : st.begin_fill key entry tier with
  | mk r st₁ =>
    cases r with
    | error e =>
      obtain rfl := begin_fill_error hres
      exact .refl _
    | ok res =>
      obtain ⟨_, _, hfree, _, hother⟩ := begin_fill_ok hinv hres
      have hne : i ≠ res.slot := by
        intro heq
        rw [← heq, hfill] at hfree
        cases hfree
      exact .of_eq (hother i hne)

theorem begin_fill_synthetic_same_fill (hinv : Inv st) (key : ExpertKey) (tier : Tier) :
    SameFill (st.slots i) ((st.begin_fill_synthetic key tier).2.slots i) := by
  unfold ExpertStore.begin_fill_synthetic
  rcases reserve_locked_cases st key tier with ⟨e, he⟩ | ⟨slot, rest, addr, _, _, _, hfree, hres⟩
  · rw [he]
    exact .refl _
  · rw [hres]
    have hne : i ≠ slot := by
      intro heq
      exact filling_not_free hfill hinv (hfree ▸ heq ▸ List.mem_cons_self)
    exact .of_eq (by simp [taken, ExpertStore.set_slot, Function.update_of_ne hne])

/-- Every operation that keeps the contents, reports on the slot itself apart, leaves a
    fill where it is. -/
theorem apply_same_fill (hinv : Inv st) {op : Op} (hop : op.keeps_contents)
    (hother : op.finishes ≠ some i) : SameFill (st.slots i) ((st.apply op).slots i) := by
  cases op with
  | init => cases hop
  | reset => cases hop
  | finish_run slot ok token =>
    have hne : i ≠ slot := fun heq => hother (heq ▸ rfl)
    exact .of_eq ((finish_run_other st slot ok token).2 i hne)
  | finish_fill slot ok token =>
    have hne : i ≠ slot := fun heq => hother (heq ▸ rfl)
    exact .of_eq ((finish_fill_other st slot ok token).2 i hne)
  | begin_fill key entry tier => exact begin_fill_same_fill hfill hinv key entry tier
  | begin_fill_synthetic key tier => exact begin_fill_synthetic_same_fill hfill hinv key tier
  | evict slot => exact evict_same_fill hfill slot
  | evict_key key =>
    simp only [ExpertStore.apply, ExpertStore.evict_key]
    split
    · exact .refl _
    · exact evict_same_fill hfill _
  | evict_lru => exact evict_lru_same_fill hfill
  | set_path_b_first_slab slab => exact .refl _
  | set_evict_path path => exact .refl _
  | set_fixed_cache enabled => exact .refl _
  | reset_stats => exact .refl _
  | set_completed_timeline v =>
    simp only [ExpertStore.apply, ExpertStore.set_completed_timeline]
    split
    · exact .refl _
    · exact .refl _
  | lookup key token guard =>
    simp only [ExpertStore.apply, ExpertStore.lookup]
    split
    · exact .refl _
    split
    · exact .refl _
    · refine SameFill.update ?_ i
      exact ⟨rfl, rfl, rfl, rfl, rfl⟩
  | guarded_snapshot guard =>
    simp only [ExpertStore.apply, ExpertStore.guarded_snapshot]
    split
    · exact .refl _
    · -- guards go to Resident slots
      exact .of_eq (by simp [hfill])
  | set_guard slot v =>
    simp only [ExpertStore.apply, ExpertStore.set_guard]
    split
    · exact .refl _
    split
    · refine SameFill.update ?_ i
      exact ⟨rfl, rfl, rfl, rfl, rfl⟩
    · exact .refl _
  | note_heat key score alpha =>
    simp only [ExpertStore.apply, ExpertStore.note_heat]
    split
    · exact .refl _
    split
    · exact .refl _
    · refine SameFill.update ?_ i
      exact ⟨rfl, rfl, rfl, rfl, rfl⟩
  | decay_heat factor =>
    simp only [ExpertStore.apply, ExpertStore.decay_heat]
    split
    · exact .refl _
    split
    · exact .refl _
    · exact ⟨rfl, rfl, rfl, rfl, rfl⟩
  | pin key =>
    simp only [ExpertStore.apply, ExpertStore.pin]
    split
    · exact .refl _
    split
    · exact .refl _
    split
    · refine SameFill.update ?_ i
      exact ⟨rfl, rfl, rfl, rfl, rfl⟩
    · exact .refl _
  | touch key stamp include_filling =>
    simp only [ExpertStore.apply, ExpertStore.touch]
    split
    · exact .refl _
    split
    · exact .refl _
    split
    · refine SameFill.update ?_ i
      exact ⟨rfl, rfl, rfl, rfl, rfl⟩
    · exact .refl _

end Filling

theorem Move.same_geometry (h : Move st st') : SameGeometry st st' := by
  rcases h with rfl | ⟨_, _, _, h⟩ | ⟨_, _, h⟩ | ⟨_, _, h⟩ | ⟨_, _, h⟩
  · exact .refl _
  · exact h.toSameGeometry
  · exact h.toSameGeometry
  · exact h.toSameGeometry
  · exact h.toSameGeometry

/-- The tables keep their shape through every operation that keeps the contents. -/
theorem Inv.apply_geometry (hinv : Inv st) {op : Op} (hop : op.keeps_contents) :
    SameGeometry st (st.apply op) := by
  obtain ⟨st₁, hkeep, hmove⟩ := hinv.apply_effect hop
  exact hkeep.toSameGeometry.trans hmove.same_geometry

theorem FillAt.apply {i total done : Nat} (h : FillAt st i total done) (hinv : Inv st) {op : Op}
    (hop : op.keeps_contents) (hother : op.finishes ≠ some i) :
    FillAt (st.apply op) i total done := by
  have hsame := apply_same_fill h.filling hinv hop hother
  have hsize := (hinv.apply_geometry hop).slots_size
  exact ⟨hsize ▸ h.lt, hsame.state.trans h.filling, hsame.total.trans h.total,
    hsame.done.trans h.done⟩

/-- An expert read in two runs. -/
def two_runs : ExpertEntry where
  runs := [⟨0, 0, 4096, 0⟩, ⟨0, 8192, 4096, 4096⟩]
  slot_bytes := 8192
  part_offset := ExpertPart.toNat
  part_bytes := fun _ => 1
  part_in_slot := fun p => (ExpertPart.toNat_lt p).trans (by decide)

end CachedMoe.Store
