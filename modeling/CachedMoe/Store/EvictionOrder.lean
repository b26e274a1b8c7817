import CachedMoe.Store.Fill
import CachedMoe.Store.Victim

/-! # The order of eviction

    What repeated calls of `evict_lru` take, with no fill in between: the evictable experts,
    each once, the one with the lowest stamp first and the lowest slot first among equals.
    Which memory path is preferred does not matter to a store whose slots are all on one. -/

namespace CachedMoe.Store

open CachedMoe ExpertStore PointUpdate

variable {st st' : ExpertStore}

/-! ### One path -/

/-- No path is preferred, or the slots do not tell them apart. -/
def OnePath (st : ExpertStore) : Prop :=
  st.evict_path = .Off ∨ ∃ on_b, ∀ i < st.slots_size, st.on_path_b (st.slots i) = on_b

theorem scan_one_path {on_b : Bool} {n : Nat} (h : ∀ i < n, st.on_path_b (st.slots i) = on_b)
    (path : Bool) : st.scan (some path) n = if path = on_b then st.scan none n else none := by
  induction n with
  | zero =>
    rw [scan, scan]
    split <;> rfl
  | succ n ih =>
    have ih := ih fun i hi => h i (Nat.lt_succ_of_lt hi)
    have hn := h n (Nat.lt_succ_self n)
    rw [scan, scan, ih]
    by_cases hpath : path = on_b
    · rw [if_pos hpath, if_pos hpath]
      simp [hn, hpath]
    · rw [if_neg hpath, if_neg hpath]
      split
      · rfl
      · rw [if_pos]
        simpa [hn] using hpath

theorem OnePath.lru_victim (h : OnePath st) : st.lru_victim = st.scan none st.slots_size := by
  rcases h with hoff | ⟨on_b, hall⟩
  · exact lru_victim_off hoff
  · cases hpath : st.evict_path with
    | Off => exact lru_victim_off hpath
    | PreferA | PreferB =>
      simp only [ExpertStore.lru_victim, hpath]
      rw [scan_one_path hall]
      split
      · exact Option.or_self
      · rfl

/-! ### One eviction -/

/-- The expert is held in slot `i`, and `i` can be evicted. -/
def EvictableAt (st : ExpertStore) (key : ExpertKey) (i : Nat) : Prop :=
  st.index key = some i ∧ st.is_evictable (st.slots i) = true

/-- What `recycle` does to an evictable slot and leaves of the others. -/
structure Recycled (st st' : ExpertStore) (i : Nat) : Prop where
  slots_size : st'.slots_size = st.slots_size
  fixed : st'.fixed_cache = st.fixed_cache
  completed : st'.completed_timeline = st.completed_timeline
  evict_path : st'.evict_path = st.evict_path
  path_b : st'.path_b_first_slab = st.path_b_first_slab
  slab : ∀ j, (st'.slots j).slab = (st.slots j).slab
  self : (st'.slots i).state = .Free
  other : ∀ j, j ≠ i → st'.slots j = st.slots j
  index : st'.index = Function.update st.index (st.slots i).key none

theorem recycled (st : ExpertStore) (i : Nat) : Recycled st (st.recycle i) i := by
  refine ⟨rfl, rfl, rfl, rfl, rfl, ?_, ?_, ?_, rfl⟩
  · intro j
    by_cases hj : j = i
    · subst hj
      simp [recycle, release_locked, unpublish_locked, set_slot, released_slot]
    · simp [recycle, release_locked, unpublish_locked, set_slot, Function.update_of_ne hj]
  · simp [recycle, release_locked, unpublish_locked, set_slot, released_slot]
  · intro j hj
    simp [recycle, release_locked, unpublish_locked, set_slot, Function.update_of_ne hj]

namespace Recycled

variable {i : Nat} (h : Recycled st st' i)

include h

theorem is_evictable (s : ExpertSlot) : st'.is_evictable s = st.is_evictable s := by
  rw [ExpertStore.is_evictable, ExpertStore.is_evictable, h.completed]

theorem one_path (hone : OnePath st) : OnePath st' := by
  have hside : ∀ j, st'.on_path_b (st'.slots j) = st.on_path_b (st.slots j) := by
    intro j
    rw [on_path_b, on_path_b, h.path_b, h.slab]
  rcases hone with hoff | ⟨on_b, hall⟩
  · exact .inl (h.evict_path.trans hoff)
  · refine .inr ⟨on_b, ?_⟩
    intro j hj
    rw [hside]
    exact hall j (h.slots_size ▸ hj)

theorem count_evictable (hlt : i < st.slots_size) (hev : st.is_evictable (st.slots i) = true) :
    slots_with st' (fun s => st'.is_evictable s = true) + 1 =
      slots_with st fun s => st.is_evictable s = true := by
  have hslots : st'.slots = Function.update st.slots i (st'.slots i) := by
    funext j
    by_cases hj : j = i
    · rw [hj, Function.update_self]
    · rw [Function.update_of_ne hj, h.other j hj]
  have hfree : ¬ st.is_evictable (st'.slots i) = true := by
    simp [ExpertStore.is_evictable, h.self]
  have hcount := count_update_add (fun s => st.is_evictable s = true) (Finset.mem_range.mpr hlt)
    st.slots (st'.slots i)
  rw [← hslots, if_pos hev, if_neg hfree] at hcount
  have hsame : slots_with st' (fun s => st'.is_evictable s = true) =
      count (Finset.range st.slots_size) st'.slots fun s => st.is_evictable s = true := by
    rw [slots_with, h.slots_size]
    congr 1
    funext s
    rw [h.is_evictable]
  rw [hsame]
  exact hcount

/-- The other evictable experts stay where they are. -/
theorem evictable_at (hheld : st.index (st.slots i).key = some i) (key : ExpertKey) (j : Nat) :
    EvictableAt st' key j ↔ EvictableAt st key j ∧ j ≠ i := by
  by_cases hj : j = i
  · subst hj
    simp [EvictableAt, ExpertStore.is_evictable, h.self]
  · rw [EvictableAt, EvictableAt, h.other j hj, h.is_evictable, h.index]
    by_cases hkey : key = (st.slots i).key
    · subst hkey
      rw [Function.update_self, hheld]
      simp [Ne.symm hj]
    · rw [Function.update_of_ne hkey]
      simp [hj]

end Recycled

/-! ### Repeated eviction -/

/-- The experts that `n` calls of `evict_lru` evict, up to the first call that evicts none. -/
@[grind =] def evict_all : (n : Nat) → ExpertStore → List ExpertKey
  | 0, _ => []
  | n + 1, st =>
    match st.evict_lru with
    | (.error _, _) => []
    | (.ok slot, st') => (st.slots slot).key :: evict_all n st'

/-- All that repeated calls of `evict_lru` evict. -/
def evict_sequence (st : ExpertStore) : List ExpertKey := evict_all st.slots_size st

/-- `k` is evicted before `k'`. -/
def EvictedBefore (st : ExpertStore) (k k' : ExpertKey) : Prop :=
  k ≠ k' ∧ ∀ i j, st.index k = some i → st.index k' = some j → Older st i j

theorem lru_victim_none (h : st.lru_victim = none) {j : Nat} (hj : j < st.slots_size) :
    ¬ st.is_evictable (st.slots j) := by
  rw [lru_victim, Option.or_eq_none_iff] at h
  exact scan_none h.2 j hj

/-- With calls enough for every evictable slot, every evictable expert goes, each once, in any
    order by which `evict_lru` chooses and which an eviction leaves to the others. -/
theorem evict_all_sorted {P : ExpertStore → Prop} {R : ExpertStore → Nat → Nat → Prop}
    (hchoice : ∀ {st : ExpertStore} {best : Nat}, P st → st.lru_victim = some best →
      ∀ j < st.slots_size, st.is_evictable (st.slots j) → R st best j)
    (hleft : ∀ {st st' : ExpertStore} {i : Nat}, P st → Recycled st st' i →
      P st' ∧ ∀ j k, j ≠ i → k ≠ i → R st' j k → R st j k)
    {n : Nat} (hinv : Inv st) (hfixed : st.fixed_cache = false) (hP : P st)
    (hn : slots_with st (fun s => st.is_evictable s = true) ≤ n) :
    (∀ key, key ∈ evict_all n st ↔ ∃ i, EvictableAt st key i) ∧
      (evict_all n st).Pairwise fun k k' =>
        k ≠ k' ∧ ∀ i j, st.index k = some i → st.index k' = some j → R st i j := by
  induction n generalizing st with
  | zero =>
    refine ⟨?_, .nil⟩
    intro key
    refine ⟨(absurd · List.not_mem_nil), ?_⟩
    rintro ⟨i, hi, hev⟩
    have hpos := count_pos (fun s => st.is_evictable s = true)
      (Finset.mem_range.mpr ((hinv.index key i).mp hi).1) (f := st.slots) hev
    unfold slots_with at hn
    omega
  | succ n ih =>
    cases hvictim : st.lru_victim with
    | none =>
      have hnone : st.evict_lru = (fail .NotFound "no evictable slot", st) := by
        simp [ExpertStore.evict_lru, hfixed, hvictim]
      have hempty : evict_all (n + 1) st = [] := by rw [evict_all, hnone]; rfl
      rw [hempty]
      refine ⟨?_, .nil⟩
      intro key
      refine ⟨(absurd · List.not_mem_nil), ?_⟩
      rintro ⟨i, hi, hev⟩
      exact absurd hev (lru_victim_none hvictim ((hinv.index key i).mp hi).1)
    | some best =>
      have hsome : st.evict_lru = (.ok best, st.recycle best) := by
        simp [ExpertStore.evict_lru, hfixed, hvictim]
      have hfirst : evict_all (n + 1) st = (st.slots best).key :: evict_all n (st.recycle best) := by
        rw [evict_all, hsome]
      obtain ⟨hlt, hev⟩ := lru_victim_evictable hvictim
      have hused : (st.slots best).state ≠ .Free := by
        intro hfree
        simp [is_evictable, hfree] at hev
      have hheld : st.index (st.slots best).key = some best := (hinv.index _ _).mpr ⟨hlt, hused, rfl⟩
      have hrec := recycled st best
      have hinv' : Inv (st.recycle best) := by
        have hkept := hinv.apply .evict_lru
        rwa [ExpertStore.apply, hsome] at hkept
      have hcount := hrec.count_evictable hlt hev
      obtain ⟨hP', hleft'⟩ := hleft hP hrec
      obtain ⟨hmem, hsorted⟩ := ih hinv' (hrec.fixed.trans hfixed) hP' (by omega)
      rw [hfirst]
      have hrest : ∀ key, key ∈ evict_all n (st.recycle best) ↔
          ∃ j, EvictableAt st key j ∧ j ≠ best := by
        intro key
        rw [hmem]
        exact exists_congr fun j => hrec.evictable_at hheld key j
      refine ⟨?_, List.pairwise_cons.mpr ⟨?_, ?_⟩⟩
      · intro key
        rw [List.mem_cons, hrest]
        constructor
        · rintro (rfl | ⟨j, hj, _⟩)
          · exact ⟨best, hheld, hev⟩
          · exact ⟨j, hj⟩
        · rintro ⟨j, hj⟩
          by_cases hbest : j = best
          · left
            rw [← ((hinv.index key j).mp hj.1).2.2, hbest]
          · exact .inr ⟨j, hj, hbest⟩
      · -- the victim goes before whatever is left
        intro key hkey
        obtain ⟨j, ⟨hj, hevj⟩, hne⟩ := (hrest key).mp hkey
        refine ⟨?_, ?_⟩
        · rintro rfl
          exact hne (Option.some.inj (hj.symm.trans hheld))
        · intro i j' hi hj'
          obtain rfl : best = i := Option.some.inj (hheld.symm.trans hi)
          obtain rfl : j = j' := Option.some.inj (hj.symm.trans hj')
          exact hchoice hP hvictim j ((hinv.index key j).mp hj).1 hevj
      · refine hsorted.imp_of_mem ?_
        intro k k' hk hk' hbefore
        refine ⟨hbefore.1, ?_⟩
        intro i j hi hj
        obtain ⟨i', hi', hine⟩ := (hrest k).mp hk
        obtain ⟨j', hj', hjne⟩ := (hrest k').mp hk'
        obtain rfl : i = i' := Option.some.inj (hi.symm.trans hi'.1)
        obtain rfl : j = j' := Option.some.inj (hj.symm.trans hj'.1)
        exact hleft' i j hine hjne
          (hbefore.2 i j ((hrec.evictable_at hheld k i).mpr ⟨hi', hine⟩).1
            ((hrec.evictable_at hheld k' j).mpr ⟨hj', hjne⟩).1)

/-- The slots of a store on one path go in the order of their stamps. -/
theorem evict_all_spec {n : Nat} (hinv : Inv st) (hfixed : st.fixed_cache = false)
    (hone : OnePath st) (hn : slots_with st (fun s => st.is_evictable s = true) ≤ n) :
    (∀ key, key ∈ evict_all n st ↔ ∃ i, EvictableAt st key i) ∧
      (evict_all n st).Pairwise (EvictedBefore st) := by
  refine evict_all_sorted (P := OnePath) (R := Older) ?_ ?_ hinv hfixed hone hn
  · intro st best hone hvictim
    exact scan_oldest (hone.lru_victim ▸ hvictim)
  · intro st st' i hone hrec
    refine ⟨hrec.one_path hone, fun j k hj hk hold => ?_⟩
    rwa [Older, hrec.other j hj, hrec.other k hk] at hold

theorem evict_sequence_spec (hinv : Inv st) (hfixed : st.fixed_cache = false) (hone : OnePath st) :
    (∀ key, key ∈ evict_sequence st ↔ ∃ i, EvictableAt st key i) ∧
      (evict_sequence st).Pairwise (EvictedBefore st) := by
  refine evict_all_spec hinv hfixed hone ?_
  exact (count_le_card _ _ _).trans (Finset.card_range _).le

/-- The sequence is the only list of the evictable experts in their order. -/
theorem evict_sequence_eq (hinv : Inv st) (hfixed : st.fixed_cache = false) (hone : OnePath st)
    {keys : List ExpertKey} (hmem : ∀ key, key ∈ keys ↔ ∃ i, EvictableAt st key i)
    (hsorted : keys.Pairwise (EvictedBefore st)) : evict_sequence st = keys := by
  obtain ⟨hseq, horder⟩ := evict_sequence_spec hinv hfixed hone
  have hnodup : ∀ {l : List ExpertKey}, l.Pairwise (EvictedBefore st) → l.Nodup :=
    fun hl => hl.imp fun hbefore => hbefore.1
  have hperm : List.Perm (evict_sequence st) keys := by
    refine (List.perm_ext_iff_of_nodup (hnodup horder) (hnodup hsorted)).mpr ?_
    intro key
    rw [hseq, hmem]
  refine List.Perm.eq_of_pairwise ?_ horder hsorted hperm
  intro k k' hk hk' hbefore hafter
  obtain ⟨i, hi⟩ := (hseq k).mp hk
  obtain ⟨j, hj⟩ := (hmem k').mp hk'
  have hij : i = j := by
    have h1 := hbefore.2 i j hi.1 hj.1
    have h2 := hafter.2 j i hj.1 hi.1
    unfold Older at h1 h2
    omega
  subst hij
  exact ((hinv.index k i).mp hi.1).2.2.symm.trans ((hinv.index k' i).mp hj.1).2.2

/-! ### The slots' own indexes -/

/-- Every slot knows its own index. -/
def Numbered (st : ExpertStore) : Prop := ∀ i < st.slots_size, (st.slots i).slot = i

/-- The slots are as many, with the same indexes. -/
structure SameNumbers (st st' : ExpertStore) : Prop where
  slots_size : st'.slots_size = st.slots_size
  slot : ∀ i, (st'.slots i).slot = (st.slots i).slot

theorem SameNumbers.refl (st : ExpertStore) : SameNumbers st st := ⟨rfl, fun _ => rfl⟩

theorem SameNumbers.trans {st₁ : ExpertStore} (h : SameNumbers st st₁) (h' : SameNumbers st₁ st') :
    SameNumbers st st' :=
  ⟨h'.slots_size.trans h.slots_size, fun i => (h'.slot i).trans (h.slot i)⟩

theorem SameNumbers.set_slot (st : ExpertStore) {i : Nat} {s : ExpertSlot}
    (stats : ExpertStoreStats) (hs : s.slot = (st.slots i).slot) :
    SameNumbers st (st.set_slot i s stats) := by
  refine ⟨rfl, fun j => ?_⟩
  unfold ExpertStore.set_slot
  by_cases hj : j = i
  · subst hj
    simpa using hs
  · simp [Function.update_of_ne hj]

theorem SameNumbers.numbered (h : SameNumbers st st') (hnum : Numbered st) : Numbered st' := by
  intro i hi
  rw [h.slot]
  exact hnum i (h.slots_size ▸ hi)

theorem settle_locked_numbers (st : ExpertStore) (i : Nat) (ok : Bool) (token : Nat) :
    SameNumbers st (st.settle_locked i ok token) := by
  unfold settle_locked
  split
  · have hset := SameNumbers.set_slot st (i := i) (s := settled_slot (st.slots i) token)
      (st.stats.fill_ok (st.on_path_b (settled_slot (st.slots i) token))
        ((settled_slot (st.slots i) token).tier = .Pinned)) rfl
    exact ⟨hset.slots_size, hset.slot⟩
  · have hset := SameNumbers.set_slot { st with stats := st.stats.fill_failed } (i := i)
      (s := released_slot (st.slots i))
      { st.stats.fill_failed with free := inc32 st.stats.fill_failed.free } rfl
    exact ⟨hset.slots_size, hset.slot⟩

theorem recycle_numbers (st : ExpertStore) (i : Nat) : SameNumbers st (st.recycle i) := by
  refine ⟨rfl, fun j => ?_⟩
  by_cases hj : j = i
  · subst hj
    simp [recycle, release_locked, unpublish_locked, ExpertStore.set_slot, released_slot]
  · simp [recycle, release_locked, unpublish_locked, ExpertStore.set_slot, Function.update_of_ne hj]

/-- Every operation that keeps the contents leaves the slots their indexes. -/
theorem apply_numbers (st : ExpertStore) {op : Op} (hop : op.keeps_contents) :
    SameNumbers st (st.apply op) := by
  refine apply_of_writes .refl (fun _ _ _ => .trans) ?_ hop
  intro st st' h
  cases h with
  | guard_all =>
    refine ⟨rfl, fun i => ?_⟩
    dsimp only
    split
    · rfl
    · rfl
  | stamp | guard | note | pin | lay_out | land => exact .set_slot _ _ rfl
  | reserve _ _ key tier slot rest =>
    have hset := SameNumbers.set_slot st (s := reserved_slot (st.slots slot) key tier)
      st.stats.fill_started rfl
    exact ⟨hset.slots_size, hset.slot⟩
  | settle _ _ slot ok token => exact settle_locked_numbers st slot ok token
  | recycle _ _ slot => exact recycle_numbers st slot
  | _ => exact ⟨rfl, fun _ => rfl⟩

theorem init_numbered (st : ExpertStore) (backing : Option SlabBacking) (cache : CacheConfig)
    (layers experts_per_layer : Nat)
    (h : Numbered st ∨ (st.init backing cache layers experts_per_layer).1 = .ok ()) :
    Numbered (st.init backing cache layers experts_per_layer).2 := by
  have hfailed : ∀ e : Status, Numbered st ∨ (.error e : Result Unit) = .ok () → Numbered st := by
    intro e he
    refine he.resolve_right ?_
    intro hok
    cases hok
  unfold ExpertStore.init at h ⊢
  split at h
  next hspace =>
    rw [if_pos hspace]
    exact hfailed _ h
  next hspace =>
    rw [if_neg hspace]
    dsimp only at h ⊢
    split at h
    · exact hfailed _ h
    next pool hpool =>
      intro i hi
      show (fresh_slot pool i).slot = i
      rw [fresh_slot, SlabPool.address_ok hi]

theorem reachable_numbered (h : LTS.Reachable store_system st) : Numbered st := by
  refine h.invariant ?_ ?_
  · rintro st ⟨st₀, backing, cache, layers, experts_per_layer, hinit⟩
    have hnum := init_numbered st₀ backing cache layers experts_per_layer (.inr (by rw [hinit]))
    rwa [hinit] at hnum
  · intro st op st' hnum hstep
    obtain rfl : st.apply op = st' := Option.some.inj hstep
    cases hop : op.keeps_contents with
    | true => exact (apply_numbers st hop).numbered hnum
    | false =>
      cases op with
      | init backing cache layers experts => exact init_numbered st _ _ _ _ (.inl hnum)
      | reset => exact fun i hi => absurd hi (Nat.not_lt_zero i)
      | _ => cases hop

end CachedMoe.Store
