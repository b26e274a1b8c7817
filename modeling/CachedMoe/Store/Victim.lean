import CachedMoe.Store.Invariant

/-! # Who is evicted

    `evict_lru`, `oldest_evictable_stamp` and the LRU policy of `store/planner.cpp` all
    rank the evictable slots by stamp, the lowest slot first among equals. -/

namespace CachedMoe.Store

open CachedMoe ExpertStore

variable {st : ExpertStore}

namespace ExpertStore

/-- The slot an expert is held in, filling or resident. -/
def slot_of (st : ExpertStore) (key : ExpertKey) : Option Nat := st.index key

/-- `static_cast<uint32_t>(free_list_.size())`. -/
def free_slots (st : ExpertStore) : Nat := st.free_list.length % 2 ^ 32

/-- The loop of `oldest_evictable_stamp` over slots `0 .. n-1`. -/
def oldest_stamp (st : ExpertStore) : (n : Nat) → Option Nat
  | 0 => none
  | n + 1 =>
    let best := oldest_stamp st n
    let s := st.slots n
    if ¬ st.is_evictable s then best
    else
      match best with
      | none => some s.last_use_token
      | some b => if s.last_use_token < b then some s.last_use_token else some b

def oldest_evictable_stamp (st : ExpertStore) : Option Nat :=
  if st.fixed_cache then none else st.oldest_stamp st.slots_size

/-- The slots the eviction policy may choose from, as a copy. -/
def evictable (st : ExpertStore) : List ExpertSlot :=
  if st.fixed_cache then []
  else ((List.range st.slots_size).map st.slots).filter st.is_evictable

end ExpertStore

/-- The order of `LruPolicy`: by stamp, the lower slot first among equals. -/
def lru_before (a b : ExpertSlot) : Bool :=
  if a.last_use_token ≠ b.last_use_token then a.last_use_token < b.last_use_token
  else a.slot ≤ b.slot

/-- `choose_victims` of the LRU policy, to which the score-aware one falls back: the first
    `count` of the sorted candidates. -/
def choose_victims (c : List ExpertSlot) (count : Nat) : List Nat :=
  ((c.mergeSort lru_before).take (min count c.length)).map ExpertSlot.slot

/-! ### The scan -/

/-- Slot `i` goes before slot `j`. -/
def Older (st : ExpertStore) (i j : Nat) : Prop :=
  (st.slots i).last_use_token < (st.slots j).last_use_token ∨
    (st.slots i).last_use_token = (st.slots j).last_use_token ∧ i ≤ j

theorem Older.le {i j : Nat} (h : Older st i j) :
    (st.slots i).last_use_token ≤ (st.slots j).last_use_token := by
  rcases h with hlt | ⟨heq, _⟩
  · exact hlt.le
  · exact heq.le

/-- A scan limited to `restrict_to` looks at the slots of this path. -/
def scanned (restrict_to : Option Bool) (on_b : Bool) : Bool := !restrict_to.any (· != on_b)

theorem scan_finds_none {restrict_to : Option Bool} {n : Nat}
    (h : st.scan restrict_to n = none) :
    ∀ j < n, st.is_evictable (st.slots j) →
      scanned restrict_to (st.on_path_b (st.slots j)) = false := by
  induction n with
  | zero => exact fun j hj => absurd hj (Nat.not_lt_zero j)
  | succ n ih =>
    rw [scan] at h
    intro j hj hev
    have hlast : j < n ∨ j = n := Nat.lt_succ_iff_lt_or_eq.mp hj
    split at h
    next hno =>
      rcases hlast with hlt | rfl
      · exact ih h j hlt hev
      · exact absurd hev hno
    split at h
    next hother =>
      rcases hlast with hlt | rfl
      · exact ih h j hlt hev
      · rw [scanned, hother, Bool.not_true]
    split at h
    · cases h
    · split at h
      · cases h
      · cases h

theorem scan_finds_oldest {restrict_to : Option Bool} {n best : Nat}
    (h : st.scan restrict_to n = some best) :
    scanned restrict_to (st.on_path_b (st.slots best)) = true ∧
      ∀ j < n, st.is_evictable (st.slots j) →
        scanned restrict_to (st.on_path_b (st.slots j)) = true → Older st best j := by
  induction n generalizing best with
  | zero => cases h
  | succ n ih =>
    rw [scan] at h
    have hlast : ∀ j < n + 1, j < n ∨ j = n := fun j hj => Nat.lt_succ_iff_lt_or_eq.mp hj
    split at h
    next hno =>
      obtain ⟨hon, hold⟩ := ih h
      refine ⟨hon, fun j hj hev hj_on => ?_⟩
      rcases hlast j hj with hlt | rfl
      · exact hold j hlt hev hj_on
      · exact absurd hev hno
    split at h
    next hother =>
      obtain ⟨hon, hold⟩ := ih h
      refine ⟨hon, fun j hj hev hj_on => ?_⟩
      rcases hlast j hj with hlt | rfl
      · exact hold j hlt hev hj_on
      · rw [scanned, hother] at hj_on
        cases hj_on
    next hsame =>
      have hon_last : scanned restrict_to (st.on_path_b (st.slots n)) = true := by
        rw [scanned, Bool.eq_false_iff.mpr hsame, Bool.not_false]
      split at h
      next hnone =>
        obtain rfl : n = best := by simpa using h
        refine ⟨hon_last, fun j hj hev hj_on => ?_⟩
        rcases hlast j hj with hlt | rfl
        · rw [scan_finds_none hnone j hlt hev] at hj_on
          cases hj_on
        · exact .inr ⟨rfl, le_rfl⟩
      next b hb =>
        obtain ⟨hon, hold⟩ := ih hb
        split at h
        next hlt' =>
          obtain rfl : n = best := by simpa using h
          refine ⟨hon_last, fun j hj hev hj_on => ?_⟩
          rcases hlast j hj with hlt | rfl
          · exact .inl (lt_of_lt_of_le hlt' (hold j hlt hev hj_on).le)
          · exact .inr ⟨rfl, le_rfl⟩
        next hge =>
          obtain rfl : b = best := by simpa using h
          refine ⟨hon, fun j hj hev hj_on => ?_⟩
          rcases hlast j hj with hlt | rfl
          · exact hold j hlt hev hj_on
          · -- an equal stamp keeps the lower slot
            rcases (not_lt.mp hge).lt_or_eq with hlt' | heq
            · exact .inl hlt'
            · exact .inr ⟨heq, (scan_evictable hb).1.le⟩

theorem scan_none {n : Nat} (h : st.scan none n = none) :
    ∀ j < n, ¬ st.is_evictable (st.slots j) := by
  intro j hj hev
  have hfound := scan_finds_none h j hj hev
  cases hfound

/-- The scan over both paths finds the first slot to go. -/
theorem scan_oldest {n best : Nat} (h : st.scan none n = some best) :
    ∀ j < n, st.is_evictable (st.slots j) → Older st best j :=
  fun j hj hev => (scan_finds_oldest h).2 j hj hev rfl

theorem oldest_stamp_eq (st : ExpertStore) (n : Nat) :
    st.oldest_stamp n = (st.scan none n).map fun b => (st.slots b).last_use_token := by
  induction n with
  | zero => rfl
  | succ n ih =>
    rw [oldest_stamp, scan, ih]
    split
    · rfl
    · simp only [Option.any_none, Bool.false_eq_true, if_false]
      cases st.scan none n with
      | none => rfl
      | some b =>
        simp only [Option.map_some]
        split
        · rfl
        · rfl

/-- Without a preferred path `evict_lru` takes the first slot to go, over all slots. -/
theorem lru_victim_off (h : st.evict_path = .Off) : st.lru_victim = st.scan none st.slots_size := by
  simp [lru_victim, h]

/-- A store reports no free slot when its free list is empty, and only then. -/
theorem Inv.free_slots_eq_zero (hinv : Inv st) : st.free_slots = 0 ↔ st.free_list = [] := by
  have hlen : st.free_list.length < 2 ^ 32 := by
    rw [← hinv.free_eq_length, hinv.counts.free, slots_with]
    refine lt_of_le_of_lt (PointUpdate.count_le_card _ _ _) ?_
    rw [Finset.card_range]
    exact hinv.placed.slots_size_lt
  rw [free_slots, Nat.mod_eq_of_lt hlen, List.length_eq_zero_iff]

end CachedMoe.Store
