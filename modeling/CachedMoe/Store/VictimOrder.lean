import CachedMoe.Store.EvictionOrder
import CachedMoe.Store.StreamVictim

/-! # The order of eviction over two paths

    What repeated calls of `evict_lru` take where a path may be preferred: the evictable experts
    of that path first, the others after them, and on either side the lower stamp first. -/

namespace CachedMoe.Store

open CachedMoe ExpertStore

variable {st st' : ExpertStore}

/-- The slot is on the path that `evict_lru` scans first. -/
def Preferred (st : ExpertStore) (i : Nat) : Prop :=
  preferred_path st.evict_path = some (st.on_path_b (st.slots i))

instance (st : ExpertStore) (i : Nat) : Decidable (Preferred st i) :=
  inferInstanceAs (Decidable (_ = _))

/-- Slot `i` goes no later than slot `j`. -/
def Ahead (st : ExpertStore) (i j : Nat) : Prop :=
  Preferred st i ∧ ¬ Preferred st j ∨
    (Preferred st i ↔ Preferred st j) ∧
      (st.slots i).last_use_token ≤ (st.slots j).last_use_token

/-- `evict_lru` takes a slot that goes no later than any other. -/
theorem lru_victim_ahead {best : Nat} (h : st.lru_victim = some best) {j : Nat}
    (hj : j < st.slots_size) (hev : st.is_evictable (st.slots j)) : Ahead st best j := by
  rw [lru_victim_preferred, Option.or_eq_some_iff] at h
  rcases h with hpref | ⟨hpref, hall⟩
  · obtain ⟨path, hpath, hscan⟩ := Option.bind_eq_some_iff.mp hpref
    obtain ⟨hon, hold⟩ := scan_path_some hscan
    have hbest : Preferred st best := by rw [Preferred, hpath, hon]
    by_cases hj_pref : Preferred st j
    · have hj_on : st.on_path_b (st.slots j) = path :=
        Option.some.inj (hj_pref.symm.trans hpath)
      exact .inr ⟨iff_of_true hbest hj_pref, hold j hj hev hj_on⟩
    · exact .inl ⟨hbest, hj_pref⟩
  · -- nothing on the preferred path can be evicted
    have hnone : ∀ i < st.slots_size, st.is_evictable (st.slots i) → ¬ Preferred st i := by
      intro i hi hevi hpath
      rw [hpath, Option.bind_some] at hpref
      exact scan_path_none hpref i hi hevi rfl
    obtain ⟨hlt, hev_best⟩ := scan_evictable hall
    exact .inr ⟨iff_of_false (hnone best hlt hev_best) (hnone j hj hev),
      (scan_oldest hall j hj hev).le⟩

namespace Recycled

variable {i : Nat} (h : Recycled st st' i)

include h

/-- The slots left are where they were in the order. -/
theorem ahead {j k : Nat} (hj : j ≠ i) (hk : k ≠ i) : Ahead st' j k ↔ Ahead st j k := by
  have hpref : ∀ l, Preferred st' l ↔ Preferred st l := by
    intro l
    rw [Preferred, Preferred, h.evict_path, on_path_b, on_path_b, h.path_b, h.slab]
  rw [Ahead, Ahead, hpref, hpref, h.other j hj, h.other k hk]

end Recycled

/-- Every evictable expert goes, each once, and none before one that is ahead of it. -/
theorem evict_sequence_ahead (hinv : Inv st) (hfixed : st.fixed_cache = false) :
    (∀ key, key ∈ evict_sequence st ↔ ∃ i, EvictableAt st key i) ∧
      (evict_sequence st).Pairwise fun k k' =>
        k ≠ k' ∧ ∀ i j, st.index k = some i → st.index k' = some j → Ahead st i j := by
  refine evict_all_sorted (P := fun _ => True) (R := Ahead) ?_ ?_ hinv hfixed trivial ?_
  · intro st best _ hvictim j hj hev
    exact lru_victim_ahead hvictim hj hev
  · intro st st' i _ hrec
    exact ⟨trivial, fun j k hj hk => (hrec.ahead hj hk).mp⟩
  · exact (PointUpdate.count_le_card _ _ _).trans (Finset.card_range _).le

/-- So it is in every store that operations lead to. -/
theorem evictions_in_order (h : LTS.Reachable store_system st) (hfixed : st.fixed_cache = false) :
    (∀ key, key ∈ evict_sequence st ↔ ∃ i, EvictableAt st key i) ∧
      (evict_sequence st).Pairwise fun k k' =>
        k ≠ k' ∧ ∀ i j, st.index k = some i → st.index k' = some j → Ahead st i j :=
  evict_sequence_ahead (reachable_inv h) hfixed

theorem evictions_in_order_two_paths : newer_on_b.evict_path = .PreferB ∧
    ∀ key, key ∈ evict_sequence newer_on_b ↔ ∃ i, EvictableAt newer_on_b key i :=
  ⟨by decide +kernel, (evictions_in_order newer_on_b_reachable (by decide +kernel)).1⟩

/-- Repeated calls of `evict_lru` evict `k` and then, sooner or later, `k'`. -/
def Evicts (st : ExpertStore) (k k' : ExpertKey) : Prop := [k, k'].Sublist (evict_sequence st)

instance (st : ExpertStore) (k k' : ExpertKey) : Decidable (Evicts st k k') :=
  inferInstanceAs (Decidable (List.Sublist _ _))

/-- Two members of a list come one after the other. -/
theorem pair_sublist {α : Type} {a b : α} {l : List α} (ha : a ∈ l) (hb : b ∈ l) (hne : a ≠ b) :
    [a, b].Sublist l ∨ [b, a].Sublist l := by
  induction l with
  | nil => cases ha
  | cons c l ih =>
    rcases List.mem_cons.mp ha with rfl | ha'
    · have hb' : b ∈ l := (List.mem_cons.mp hb).resolve_left (Ne.symm hne)
      exact .inl ((List.singleton_sublist.mpr hb').cons_cons a)
    rcases List.mem_cons.mp hb with rfl | hb'
    · exact .inr ((List.singleton_sublist.mpr ha').cons_cons b)
    · exact (ih ha' hb').imp (·.cons c) (·.cons c)

/-- Of two evictable experts with different stamps the one that is ahead goes first. -/
theorem evicts_iff (hinv : Inv st) (hfixed : st.fixed_cache = false) {k k' : ExpertKey}
    {i j : Nat} (hi : EvictableAt st k i) (hj : EvictableAt st k' j)
    (hne : (st.slots i).last_use_token ≠ (st.slots j).last_use_token) :
    Evicts st k k' ↔ Ahead st i j := by
  obtain ⟨hmem, hsorted⟩ := evict_sequence_ahead hinv hfixed
  have hkeys : k ≠ k' := by
    rintro rfl
    exact hne (by rw [Option.some.inj (hi.1.symm.trans hj.1)])
  constructor
  · intro hsub
    have hpair := hsorted.sublist hsub
    exact ((List.pairwise_cons.mp hpair).1 k' (List.mem_singleton_self k')).2 i j hi.1 hj.1
  · intro hahead
    rcases pair_sublist ((hmem k).mpr ⟨i, hi⟩) ((hmem k').mpr ⟨j, hj⟩) hkeys with hsub | hsub
    · exact hsub
    · -- the other way round, the two would have the same stamp
      have hpair := hsorted.sublist hsub
      have hback := ((List.pairwise_cons.mp hpair).1 k (List.mem_singleton_self k)).2 j i hj.1 hi.1
      unfold Ahead at hahead hback
      have hboth : (st.slots i).last_use_token = (st.slots j).last_use_token := by
        rcases hahead with ⟨hpi, hpj⟩ | ⟨hiff, hle⟩
        · rcases hback with ⟨hpj', -⟩ | ⟨hiff', -⟩
          · exact absurd hpj' hpj
          · exact absurd (hiff'.mpr hpi) hpj
        · rcases hback with ⟨hpj, hpi⟩ | ⟨-, hge⟩
          · exact absurd (hiff.mpr hpj) hpi
          · exact le_antisymm hle hge
      exact absurd hboth hne

end CachedMoe.Store
