import CachedMoe.Store.Ranked
import CachedMoe.Store.VictimOrder

/-! # The ranks of a backfill as the order of eviction

    "The default P3 stamp is below every demand stamp, so the LRU recycles a startup guess first.
    `keep` is this conversation's own routing, in heat order, so it is stamped like demand instead:
    hotter (earlier in the order) is newer." Without `keep` the stamps go down with the rank, and
    the colder expert is the older. With `keep` they go up with the rank. -/

namespace CachedMoe.Store

open CachedMoe ExpertStore

variable {st : ExpertStore} {s : Ranked}

/-! ### What goes first -/

/-- Repeated calls of `evict_lru` do not evict `k'` unless they have evicted `k`. -/
def EvictsFirst (st : ExpertStore) (k k' : ExpertKey) : Prop :=
  k' ∈ evict_sequence st → Evicts st k k'

instance (st : ExpertStore) (k k' : ExpertKey) : Decidable (EvictsFirst st k k') :=
  inferInstanceAs (Decidable (_ → _))

theorem evict_sequence_fixed (hfixed : st.fixed_cache = true) : evict_sequence st = [] := by
  unfold evict_sequence
  cases st.slots_size with
  | zero => rfl
  | succ n => simp [evict_all, evict_lru, hfixed, fail]

theorem evicts_first_iff (hinv : Inv st) (hfixed : st.fixed_cache = false) {k k' : ExpertKey}
    {i j : Nat} (hi : st.index k = some i) (hj : st.index k' = some j)
    (hne : st.is_evictable (st.slots i) → st.is_evictable (st.slots j) →
      (st.slots i).last_use_token ≠ (st.slots j).last_use_token) :
    EvictsFirst st k k' ↔
      (st.is_evictable (st.slots j) → st.is_evictable (st.slots i) ∧ Ahead st i j) := by
  obtain ⟨hmem, -⟩ := evict_sequence_ahead hinv hfixed
  have hevictable : ∀ {key slot}, st.index key = some slot →
      (key ∈ evict_sequence st ↔ st.is_evictable (st.slots slot)) := by
    intro key slot hkey
    rw [hmem]
    constructor
    · rintro ⟨slot', hkey', hev⟩
      rwa [Option.some.inj (hkey.symm.trans hkey')]
    · exact fun hev => ⟨slot, hkey, hev⟩
  constructor
  · intro hfirst hev_j
    have hevicts := hfirst ((hevictable hj).mpr hev_j)
    have hev_i := (hevictable hi).mp (hevicts.subset List.mem_cons_self)
    exact ⟨hev_i, (evicts_iff hinv hfixed ⟨hi, hev_i⟩ ⟨hj, hev_j⟩ (hne hev_i hev_j)).mp hevicts⟩
  · intro hahead hmem_k'
    have hev_j := (hevictable hj).mp hmem_k'
    obtain ⟨hev_i, hahead⟩ := hahead hev_j
    exact (evicts_iff hinv hfixed ⟨hi, hev_i⟩ ⟨hj, hev_j⟩ (hne hev_i hev_j)).mpr hahead

/-! ### Stamps of ranks -/

namespace Backfill

variable {v : Backfill} {i j : Nat}

/-- Without `keep` the stamps go down with the rank, with `keep` up. -/
theorem stamp_lt (hij : i < j) (hj : j < kDemandStampBase) :
    (v.keep = false → v.stamp j < v.stamp i) ∧ (v.keep = true → v.stamp i < v.stamp j) := by
  constructor
  · intro hkeep
    rw [stamp, stamp, hkeep, if_neg Bool.false_ne_true, if_neg Bool.false_ne_true]
    omega
  · intro hkeep
    rw [stamp, stamp, if_pos hkeep, if_pos hkeep]
    omega

theorem stamp_below (hkeep : v.keep = false) : v.stamp i < kDemandStampBase := by
  have hbase : 0 < kDemandStampBase := by decide
  rw [stamp, hkeep, if_neg Bool.false_ne_true]
  omega

end Backfill

/-! ### The order -/

/-- The colder expert goes before the hotter, and without `keep` both before what demand
    stamped. -/
structure RankOrdered (st : ExpertStore) (keep : Bool) (hot cold : ExpertKey) : Prop where
  colder_first : EvictsFirst st cold hot
  below_demand : keep = false → ∀ key d, st.index key = some d →
    kDemandStampBase ≤ (st.slots d).last_use_token → EvictsFirst st hot key ∧ EvictsFirst st cold key

/-- Where the expert in slot `i` can be evicted, so can the one in slot `j`, and from the path
    that is scanned first if `i` is on it. -/
def Yields (st : ExpertStore) (i j : Nat) : Prop :=
  st.is_evictable (st.slots i) → st.is_evictable (st.slots j) ∧ (Preferred st i → Preferred st j)

/-- With `keep` only the path that is scanned first can put the colder expert, of slot `q`, before
    the hotter, of slot `p`. -/
def KeepsRanks (st : ExpertStore) (keep : Bool) (p q : Nat) : Prop :=
  if keep then
    st.is_evictable (st.slots p) →
      st.is_evictable (st.slots q) ∧ Preferred st q ∧ ¬ Preferred st p
  else
    Yields st p q ∧ ∀ key d, st.index key = some d →
      kDemandStampBase ≤ (st.slots d).last_use_token → Yields st d p ∧ Yields st d q

/-- An expert whose slot is written down is found there. -/
theorem RankInv.find (h : RankInv s) {b rank i : Nat} {key : ExpertKey}
    (hfilled : s.filled i = some (b, rank))
    (hkey : (s.planner.backfills b).order[rank]? = some key) :
    s.planner.store.index key = some i := by
  have hmark := h.filled i b rank hfilled
  refine (h.store.index key i).mpr ⟨hmark.lt, hmark.held, ?_⟩
  exact Option.some.inj (hmark.key.symm.trans hkey)

/-- An expert that can be evicted has the stamp of its rank. -/
theorem RankInv.stamped (h : RankInv s) {b rank i : Nat} (hfilled : s.filled i = some (b, rank))
    (hev : s.planner.store.is_evictable (s.planner.store.slots i)) :
    (s.planner.store.slots i).last_use_token = (s.planner.backfills b).stamp rank := by
  rcases (h.filled i b rank hfilled).state with ⟨hfilling, -⟩ | ⟨-, hstamp⟩
  · rw [is_evictable, hfilling] at hev
    simp at hev
  · exact hstamp

/-- A slot with the lower stamp is ahead unless the other one is preferred. -/
theorem ahead_of_lt {i j : Nat} (h : (st.slots i).last_use_token < (st.slots j).last_use_token) :
    Ahead st i j ↔ (Preferred st j → Preferred st i) := by
  constructor
  · rintro (⟨hi, -⟩ | ⟨hiff, -⟩)
    · exact fun _ => hi
    · exact hiff.mpr
  · intro himp
    by_cases hj : Preferred st j
    · exact .inr ⟨iff_of_true (himp hj) hj, h.le⟩
    · by_cases hi : Preferred st i
      · exact .inl ⟨hi, hj⟩
      · exact .inr ⟨iff_of_false hi hj, h.le⟩

/-- A slot with the higher stamp is ahead only if it alone is preferred. -/
theorem ahead_of_gt {i j : Nat} (h : (st.slots j).last_use_token < (st.slots i).last_use_token) :
    Ahead st i j ↔ Preferred st i ∧ ¬ Preferred st j := by
  constructor
  · rintro (hpref | ⟨-, hle⟩)
    · exact hpref
    · exact absurd hle (not_le.mpr h)
  · exact .inl

/-- An expert of a lower stamp goes first wherever the other yields to it. -/
theorem evicts_first_iff_yields (hinv : Inv st) (hfixed : st.fixed_cache = false)
    {k k' : ExpertKey} {i j : Nat} (hi : st.index k = some i) (hj : st.index k' = some j)
    (hlt : st.is_evictable (st.slots i) → st.is_evictable (st.slots j) →
      (st.slots i).last_use_token < (st.slots j).last_use_token) :
    EvictsFirst st k k' ↔ Yields st j i := by
  rw [evicts_first_iff hinv hfixed hi hj fun hev_i hev_j => (hlt hev_i hev_j).ne]
  refine forall_congr' fun hev_j => and_congr_right fun hev_i => ?_
  exact ahead_of_lt (hlt hev_i hev_j)

/-- Of two experts that one backfill filled and nobody used since, the one of the higher rank is
    evicted first without `keep`, and last with it, but for the path that is scanned first. -/
theorem backfill_rank_order (hreach : LTS.Reachable ranked_system s) {b i j p q : Nat}
    (hij : i < j) {hot cold : ExpertKey}
    (hhot : (s.planner.backfills b).order[i]? = some hot)
    (hcold : (s.planner.backfills b).order[j]? = some cold)
    (hp : s.filled p = some (b, i)) (hq : s.filled q = some (b, j)) :
    RankOrdered s.planner.store (s.planner.backfills b).keep hot cold ↔
      s.planner.store.fixed_cache = true ∨
        KeepsRanks s.planner.store (s.planner.backfills b).keep p q := by
  have hinv := reachable_rank_inv hreach
  have hindex_p := hinv.find hp hhot
  have hindex_q := hinv.find hq hcold
  have hj : j < kDemandStampBase :=
    (List.getElem?_eq_some_iff.mp hcold).1.trans (hinv.books.short b)
  obtain ⟨hdown, hup⟩ := Backfill.stamp_lt (v := s.planner.backfills b) hij hj
  cases hfixed : s.planner.store.fixed_cache with
  | true =>
    -- a fixed mask evicts nothing
    have hnone : ∀ k k', EvictsFirst s.planner.store k k' := by
      intro k k' hmem
      rw [evict_sequence_fixed hfixed] at hmem
      cases hmem
    exact iff_of_true ⟨hnone _ _, fun _ key _ _ _ => ⟨hnone _ key, hnone _ key⟩⟩ (.inl rfl)
  | false =>
    rw [or_iff_right Bool.false_ne_true]
    cases hkeep : (s.planner.backfills b).keep with
    | true =>
      have hfirst : EvictsFirst s.planner.store cold hot ↔
          KeepsRanks s.planner.store true p q := by
        have hlt : s.planner.store.is_evictable (s.planner.store.slots q) →
            s.planner.store.is_evictable (s.planner.store.slots p) →
            (s.planner.store.slots p).last_use_token <
              (s.planner.store.slots q).last_use_token := by
          intro hev_q hev_p
          rw [hinv.stamped hp hev_p, hinv.stamped hq hev_q]
          exact hup hkeep
        rw [evicts_first_iff hinv.store hfixed hindex_q hindex_p
          fun hev_q hev_p => (hlt hev_q hev_p).ne']
        rw [KeepsRanks, if_pos rfl]
        refine forall_congr' fun hev_p => and_congr_right fun hev_q => ?_
        exact ahead_of_gt (hlt hev_q hev_p)
      rw [← hfirst]
      exact ⟨(·.colder_first), fun h => ⟨h, fun hnot => absurd hnot Bool.true_eq_false.mp⟩⟩
    | false =>
      have hfirst : EvictsFirst s.planner.store cold hot ↔ Yields s.planner.store p q := by
        refine evicts_first_iff_yields hinv.store hfixed hindex_q hindex_p ?_
        intro hev_q hev_p
        rw [hinv.stamped hp hev_p, hinv.stamped hq hev_q]
        exact hdown hkeep
      -- either of them is below what demand stamped
      have hdemand : ∀ {rank slot key}, s.filled slot = some (b, rank) →
          s.planner.store.index key = some slot → ∀ {key' d},
          s.planner.store.index key' = some d →
          kDemandStampBase ≤ (s.planner.store.slots d).last_use_token →
          (EvictsFirst s.planner.store key key' ↔ Yields s.planner.store d slot) := by
        intro rank slot key hfilled hkey key' d hd hstamp
        refine evicts_first_iff_yields hinv.store hfixed hkey hd ?_
        intro hev _
        rw [hinv.stamped hfilled hev]
        exact (Backfill.stamp_below hkeep).trans_le hstamp
      rw [KeepsRanks, if_neg Bool.false_ne_true]
      constructor
      · rintro ⟨hcolder, hbelow⟩
        refine ⟨hfirst.mp hcolder, fun key d hd hstamp => ?_⟩
        obtain ⟨hhot_first, hcold_first⟩ := hbelow rfl key d hd hstamp
        exact ⟨(hdemand hp hindex_p hd hstamp).mp hhot_first,
          (hdemand hq hindex_q hd hstamp).mp hcold_first⟩
      · rintro ⟨hyields, hbelow⟩
        refine ⟨hfirst.mpr hyields, fun _ key d hd hstamp => ?_⟩
        obtain ⟨hyields_p, hyields_q⟩ := hbelow key d hd hstamp
        exact ⟨(hdemand hp hindex_p hd hstamp).mpr hyields_p,
          (hdemand hq hindex_q hd hstamp).mpr hyields_q⟩

/-! ### Two experts of two runs each -/

/-- A backfill of two experts, whose fills land the other way round. -/
def rank_run (keep : Bool) : List Ranked.Action :=
  .start [⟨0, 1⟩, ⟨0, 2⟩] 2 keep ::
    [Restore.Action.pump 0, .pump 0, .pump 0, .submit 0 none, .submit 0 none, .pump 0, .pump 0,
      .pump 0, .submit 0 none, .submit 0 none, .land 0 true, .land 0 true, .land 0 true,
      .land 0 true].map .fill

theorem rank_run_init : ranked_system.init { planner := pair_planner } :=
  ⟨pair_store, _, .of_init ⟨{}, _, _, _, _, pair_store_init⟩, rfl⟩

theorem backfill_rank_order_pair :
    ∃ s, LTS.Reachable ranked_system s ∧
      RankOrdered s.planner.store (s.planner.backfills 0).keep ⟨0, 1⟩ ⟨0, 2⟩ := by
  obtain ⟨s, hreach, hs⟩ := LTS.Reachable.of_execute Ranked.step (rank_run false)
    (fun s => (s.planner.backfills 0).order[0]? = some ⟨0, 1⟩ ∧
      (s.planner.backfills 0).order[1]? = some ⟨0, 2⟩ ∧
      s.filled 0 = some (0, 0) ∧ s.filled 1 = some (0, 1) ∧
      (s.planner.backfills 0).keep = false ∧ s.planner.store.evict_path = .Off ∧
      s.planner.store.is_evictable (s.planner.store.slots 0) ∧
      s.planner.store.is_evictable (s.planner.store.slots 1)) rank_run_init (by decide +kernel)
  simp only [decide_eq_true_eq] at hs
  obtain ⟨hhot, hcold, hp, hq, hkeep, hpath, hev_p, hev_q⟩ := hs
  refine ⟨s, hreach, (backfill_rank_order hreach Nat.zero_lt_one hhot hcold hp hq).mpr (.inr ?_)⟩
  have hoff : ∀ i, ¬ Preferred s.planner.store i := by
    intro i hpref
    rw [Preferred, hpath] at hpref
    cases hpref
  rw [KeepsRanks, hkeep, if_neg Bool.false_ne_true]
  refine ⟨fun _ => ⟨hev_q, fun hpref => absurd hpref (hoff 0)⟩, fun key d _ _ => ⟨?_, ?_⟩⟩
  · exact fun _ => ⟨hev_p, fun hpref => absurd hpref (hoff d)⟩
  · exact fun _ => ⟨hev_q, fun hpref => absurd hpref (hoff d)⟩

theorem kept_backfill_evicts_the_hotter :
    ¬ ∀ s, LTS.Reachable ranked_system s → ∀ b i j p q, i < j → ∀ hot cold,
      (s.planner.backfills b).order[i]? = some hot →
      (s.planner.backfills b).order[j]? = some cold →
      s.filled p = some (b, i) → s.filled q = some (b, j) →
      RankOrdered s.planner.store (s.planner.backfills b).keep hot cold := by
  intro hclaim
  obtain ⟨s, hreach, hs⟩ := LTS.Reachable.of_execute Ranked.step (rank_run true)
    (fun s => (s.planner.backfills 0).order[0]? = some ⟨0, 1⟩ ∧
      (s.planner.backfills 0).order[1]? = some ⟨0, 2⟩ ∧
      s.filled 0 = some (0, 0) ∧ s.filled 1 = some (0, 1) ∧
      ¬ EvictsFirst s.planner.store ⟨0, 2⟩ ⟨0, 1⟩) rank_run_init (by decide +kernel)
  simp only [decide_eq_true_eq] at hs
  obtain ⟨hhot, hcold, hp, hq, hfirst⟩ := hs
  exact hfirst (hclaim s hreach 0 0 1 0 1 Nat.zero_lt_one _ _ hhot hcold hp hq).colder_first

end CachedMoe.Store
