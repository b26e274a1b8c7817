import Mathlib.Algebra.Order.Field.Rat
import Mathlib.Data.List.Sort
import Mathlib.Tactic.Linarith
import CachedMoe.Framework.Ranking

/-! # What a masked layer waits for

    In the mask mode an expert that is not resident loses its gate weight; with a threshold the
    layer waits for as many of the missing experts as the lost mass asks for. The selection is a
    front of the misses in the order of their weights, and no smaller one would do. -/

namespace CachedMoe.Runtime

/-! ### The selection -/

/-- What the first pass over the route has summed up. -/
structure MaskSums where
  miss : List Nat := []
  total : ℚ := 0
  lost : ℚ := 0

/-- One entry of the route. -/
def mask_entry (weights effective : List ℚ) (sums : MaskSums) (i : Nat) : MaskSums :=
  let sums := { sums with total := sums.total + weights.getD i 0 }
  if weights.getD i 0 > 0 ∧ effective.getD i 0 = 0 then
    { sums with miss := sums.miss ++ [i], lost := sums.lost + weights.getD i 0 }
  else sums

def mask_sums (weights effective : List ℚ) : MaskSums :=
  (List.range weights.length).foldl (mask_entry weights effective) {}

/-- The second loop: how many of the misses are waited for, `n` of them behind it already. -/
def wait_loop (weights : List ℚ) (allowed : ℚ) (shared_only : Bool) :
    List Nat → (lost : ℚ) → (n : Nat) → Nat
  | [], _, n => n
  | i :: miss, lost, n =>
    if lost ≤ allowed ∧ ¬(shared_only = true ∧ n = 0) then n
    else wait_loop weights allowed shared_only miss (lost - weights.getD i 0) (n + 1)

/-- `std::stable_sort` by falling weight. -/
def heaviest_first (weights : List ℚ) (miss : List Nat) : List Nat :=
  miss.insertionSort fun a b => ¬ weights.getD b 0 > weights.getD a 0

/-- Original gate weights, no renormalisation. -/
def mask_wait_candidates (weights effective : List ℚ) (tau : ℚ) : List Nat :=
  let sums := mask_sums weights effective
  if tau ≥ 1 ∨ sums.total ≤ 0 then []
  else
    let shared_only := decide (sums.miss.length = weights.length)
    let miss := heaviest_first weights sums.miss
    miss.take (wait_loop weights (tau * sums.total) shared_only miss sums.lost 0)

/-! ### What it is for -/

section Spec

variable (weights effective : List ℚ)

/-- Mass of some of the entries. -/
def mass (s : Finset Nat) : ℚ := ∑ i ∈ s, weights.getD i 0

/-- Mass of the whole route. -/
def total_mass : ℚ := mass weights (Finset.range weights.length)

/-- The masked entries. -/
def masked : Finset Nat := (Finset.range weights.length).filter fun i => effective.getD i 0 = 0

/-- Those of them that carry weight. -/
def misses : Finset Nat := (masked weights effective).filter fun i => 0 < weights.getD i 0

/-- With `s` waited for, the mass that is still lost is small enough. -/
def Enough (tau : ℚ) (s : Finset Nat) : Prop :=
  mass weights (masked weights effective \ s) ≤ tau * total_mass weights

/-- `wait` is among the smallest selections of misses that are enough. -/
structure LeastWait (tau : ℚ) (wait : List Nat) : Prop where
  nodup : wait.Nodup
  subset : wait.toFinset ⊆ misses weights effective
  enough : Enough weights effective tau wait.toFinset
  least : ∀ s ⊆ masked weights effective, Enough weights effective tau s → wait.length ≤ s.card

end Spec

section Proofs

variable {weights effective : List ℚ}

theorem mem_masked {i : Nat} :
    i ∈ masked weights effective ↔ i < weights.length ∧ effective.getD i 0 = 0 := by
  rw [masked, Finset.mem_filter, Finset.mem_range]

theorem mem_misses {i : Nat} : i ∈ misses weights effective ↔
    i < weights.length ∧ weights.getD i 0 > 0 ∧ effective.getD i 0 = 0 := by
  rw [misses, Finset.mem_filter, mem_masked, and_assoc, and_comm (a := effective.getD i 0 = 0)]

theorem misses_subset : misses weights effective ⊆ masked weights effective :=
  Finset.filter_subset _ _

/-! ### The first pass -/

theorem mass_range_succ (n : Nat) : mass weights (Finset.range (n + 1)) =
    mass weights (Finset.range n) + weights.getD n 0 :=
  Finset.sum_range_succ _ n

theorem mask_fold (n : Nat) : (List.range n).foldl (mask_entry weights effective) {} =
    { miss := (List.range n).filter fun i => weights.getD i 0 > 0 ∧ effective.getD i 0 = 0,
      total := mass weights (Finset.range n),
      lost := (((List.range n).filter fun i =>
        weights.getD i 0 > 0 ∧ effective.getD i 0 = 0).map fun i => weights.getD i 0).sum } := by
  induction n with
  | zero => rfl
  | succ n ih =>
    rw [List.range_succ, List.foldl_append, ih, List.filter_append, mass_range_succ]
    simp only [List.foldl_cons, List.foldl_nil, mask_entry]
    by_cases hmiss : weights.getD n 0 > 0 ∧ effective.getD n 0 = 0
    · rw [if_pos hmiss, List.filter_singleton, decide_eq_true hmiss, cond_true, List.map_append,
        List.sum_append, List.map_singleton, List.sum_singleton]
    · rw [if_neg hmiss, List.filter_singleton, decide_eq_false hmiss, cond_false,
        List.append_nil]

/-- The misses as the first pass lists them. -/
structure Listed (weights effective : List ℚ) (miss : List Nat) : Prop where
  nodup : miss.Nodup
  mem : ∀ i, i ∈ miss ↔ i ∈ misses weights effective

theorem Listed.sum (h : Listed weights effective miss) :
    (miss.map fun i => weights.getD i 0).sum = mass weights (misses weights effective) := by
  have hmiss : miss.toFinset = misses weights effective := by
    ext i
    rw [List.mem_toFinset, h.mem]
  rw [mass, ← hmiss, List.sum_toFinset _ h.nodup]

theorem mask_sums_spec : ∃ miss, Listed weights effective miss ∧ mask_sums weights effective =
    { miss := miss, total := total_mass weights,
      lost := mass weights (misses weights effective) } := by
  have hlisted : Listed weights effective ((List.range weights.length).filter fun i =>
      weights.getD i 0 > 0 ∧ effective.getD i 0 = 0) := by
    refine ⟨List.nodup_range.filter _, fun i => ?_⟩
    rw [List.mem_filter, List.mem_range, decide_eq_true_eq, mem_misses]
  refine ⟨_, hlisted, ?_⟩
  rw [mask_sums, mask_fold, hlisted.sum]
  rfl

/-! ### The order of the misses -/

theorem heaviest_first_perm (miss : List Nat) : (heaviest_first weights miss).Perm miss :=
  List.perm_insertionSort _ miss

theorem Listed.heaviest_first (h : Listed weights effective miss) :
    Listed weights effective (heaviest_first weights miss) where
  nodup := (heaviest_first_perm miss).nodup_iff.mpr h.nodup
  mem i := (heaviest_first_perm miss).mem_iff.trans (h.mem i)

theorem heaviest_first_falls (miss : List Nat) :
    (heaviest_first weights miss).Pairwise fun a b => weights.getD b 0 ≤ weights.getD a 0 := by
  have : Std.Total fun a b => ¬ weights.getD b 0 > weights.getD a 0 :=
    ⟨fun a b => (le_total (weights.getD b 0) (weights.getD a 0)).imp not_lt.mpr not_lt.mpr⟩
  have : IsTrans Nat fun a b => ¬ weights.getD b 0 > weights.getD a 0 :=
    ⟨fun a b c hab hbc => not_lt.mpr ((not_lt.mp hbc).trans (not_lt.mp hab))⟩
  exact (List.pairwise_insertionSort _ miss).imp fun hab => not_lt.mp hab

/-! ### The loop -/

/-- The loop passes exactly the entries before the first at which it may stop. -/
theorem wait_loop_spec {allowed : ℚ} {shared_only : Bool} (miss : List Nat) (lost : ℚ) (n : Nat) :
    ∃ m ≤ miss.length, wait_loop weights allowed shared_only miss lost n = n + m ∧
      (∀ j < m, lost - ((miss.take j).map fun i => weights.getD i 0).sum ≤ allowed →
        shared_only = true ∧ n + j = 0) ∧
      (m = miss.length ∨ lost - ((miss.take m).map fun i => weights.getD i 0).sum ≤ allowed) := by
  induction miss generalizing lost n with
  | nil => exact ⟨0, Nat.le_refl 0, rfl, fun j hj => absurd hj (Nat.not_lt_zero j), .inl rfl⟩
  | cons i miss ih =>
    rw [wait_loop]
    by_cases hstop : lost ≤ allowed ∧ ¬(shared_only = true ∧ n = 0)
    · rw [if_pos hstop]
      refine ⟨0, Nat.zero_le _, rfl, fun j hj => absurd hj (Nat.not_lt_zero j), .inr ?_⟩
      rw [List.take_zero, List.map_nil, List.sum_nil, sub_zero]
      exact hstop.1
    · rw [if_neg hstop]
      obtain ⟨m, hm, hres, hgo, hend⟩ := ih (lost - weights.getD i 0) (n + 1)
      have hsum : ∀ j, lost - (((i :: miss).take (j + 1)).map fun i => weights.getD i 0).sum =
          lost - weights.getD i 0 - ((miss.take j).map fun i => weights.getD i 0).sum := by
        intro j
        rw [List.take_succ_cons, List.map_cons, List.sum_cons, sub_sub]
      refine ⟨m + 1, Nat.succ_le_succ hm, by rw [hres]; omega, fun j hj hle => ?_, ?_⟩
      · cases j with
        | zero =>
          rw [List.take_zero, List.map_nil, List.sum_nil, sub_zero] at hle
          exact Classical.not_not.mp fun hso => hstop ⟨hle, hso⟩
        | succ j =>
          rw [hsum] at hle
          obtain ⟨-, hzero⟩ := hgo j (Nat.lt_of_succ_lt_succ hj) hle
          omega
      · rw [List.length_cons, Nat.add_right_cancel_iff, hsum]
        exact hend

/-! ### The least selection -/

section Least

theorem weight_nonneg (hw : ∀ w ∈ weights, 0 ≤ w) (i : Nat) : 0 ≤ weights.getD i 0 := by
  rw [List.getD_eq_getElem?_getD]
  cases hi : weights[i]? with
  | none => exact le_rfl
  | some w => exact hw w (List.mem_of_getElem? hi)

theorem mass_nonneg (hw : ∀ w ∈ weights, 0 ≤ w) (s : Finset Nat) : 0 ≤ mass weights s :=
  Finset.sum_nonneg fun i _ => weight_nonneg hw i

theorem mass_le_total (hw : ∀ w ∈ weights, 0 ≤ w) :
    mass weights (masked weights effective) ≤ total_mass weights :=
  Finset.sum_le_sum_of_subset_of_nonneg (Finset.filter_subset _ _) fun i _ _ =>
    weight_nonneg hw i

/-- What carries no weight adds nothing. -/
theorem mass_inter_misses (hw : ∀ w ∈ weights, 0 ≤ w) {s : Finset Nat}
    (hs : s ⊆ masked weights effective) :
    mass weights (s ∩ misses weights effective) = mass weights s := by
  refine Finset.sum_subset Finset.inter_subset_left fun i hi hni => ?_
  by_contra hne
  have hpos : 0 < weights.getD i 0 := lt_of_le_of_ne (weight_nonneg hw i) (Ne.symm hne)
  exact hni (Finset.mem_inter.mpr ⟨hi, Finset.mem_filter.mpr ⟨hs hi, hpos⟩⟩)

theorem mass_misses (hw : ∀ w ∈ weights, 0 ≤ w) :
    mass weights (misses weights effective) = mass weights (masked weights effective) := by
  rw [← mass_inter_misses hw (Finset.Subset.refl (masked weights effective)),
    Finset.inter_eq_right.mpr misses_subset]

theorem enough_iff {tau : ℚ} {s : Finset Nat} (hs : s ⊆ masked weights effective) :
    Enough weights effective tau s ↔
      mass weights (masked weights effective) - mass weights s ≤ tau * total_mass weights := by
  have hsplit : mass weights (masked weights effective \ s) + mass weights s =
      mass weights (masked weights effective) := Finset.sum_sdiff hs
  rw [Enough, ← hsplit, add_sub_cancel_right]

/-- Where the threshold is 1 or there is no mass at all, nothing is waited for. -/
theorem leastWait_nil (hw : ∀ w ∈ weights, 0 ≤ w) {tau : ℚ}
    (hnone : tau ≥ 1 ∨ total_mass weights ≤ 0) : LeastWait weights effective tau [] where
  nodup := List.nodup_nil
  subset := Finset.empty_subset _
  enough := by
    rw [List.toFinset_nil, enough_iff (Finset.empty_subset _), mass, mass, Finset.sum_empty,
      sub_zero, ← mass]
    have hle : mass weights (masked weights effective) ≤ total_mass weights := mass_le_total hw
    have htotal : 0 ≤ total_mass weights := mass_nonneg hw _
    rcases hnone with htau | hzero
    · nlinarith
    · have hzero : total_mass weights = 0 := le_antisymm hzero htotal
      rw [hzero] at hle ⊢
      rwa [mul_zero]
  least s _ _ := Nat.zero_le _

theorem lost_of_shared_only {miss : List Nat} (hmiss : Listed weights effective miss)
    (hall : miss.length = weights.length) :
    mass weights (misses weights effective) = total_mass weights := by
  have hsub : misses weights effective ⊆ Finset.range weights.length :=
    misses_subset.trans (Finset.filter_subset _ _)
  have hcard : (Finset.range weights.length).card ≤ (misses weights effective).card := by
    have hset : miss.toFinset = misses weights effective := by
      ext i
      rw [List.mem_toFinset, hmiss.mem]
    rw [Finset.card_range, ← hall, ← hset, List.toFinset_card_of_nodup hmiss.nodup]
  rw [Finset.eq_of_subset_of_card_le hsub hcard]
  rfl

/-- A front of the misses, heaviest first, that ends where the loss is small enough and not
    before, is among the smallest selections. -/
theorem leastWait_take (hw : ∀ w ∈ weights, 0 ≤ w) {tau : ℚ} {miss : List Nat} {n : Nat}
    (hmiss : Listed weights effective miss)
    (hfalls : miss.Pairwise fun a b => weights.getD b 0 ≤ weights.getD a 0)
    (hgo : ∀ j < n, ¬ mass weights (misses weights effective) -
      ((miss.take j).map fun i => weights.getD i 0).sum ≤ tau * total_mass weights)
    (hend : mass weights (misses weights effective) -
      ((miss.take n).map fun i => weights.getD i 0).sum ≤ tau * total_mass weights) :
    LeastWait weights effective tau (miss.take n) := by
  have hnd : (miss.take n).Nodup := (List.take_sublist n miss).nodup hmiss.nodup
  have hsub : (miss.take n).toFinset ⊆ misses weights effective := by
    intro i hi
    exact (hmiss.mem i).mp (List.mem_of_mem_take (List.mem_toFinset.mp hi))
  refine ⟨hnd, hsub, ?_, fun s hs henough => ?_⟩
  · rw [enough_iff (hsub.trans misses_subset), ← mass_misses hw, mass, mass,
      List.sum_toFinset _ hnd, ← mass]
    exact hend
  · -- a smaller selection is no heavier than a shorter front
    by_contra hlt
    have hshort : (s ∩ misses weights effective).card < n := by
      have hcard : (s ∩ misses weights effective).card ≤ s.card :=
        Finset.card_le_card Finset.inter_subset_left
      rw [List.length_take] at hlt
      omega
    have hheavy : mass weights (s ∩ misses weights effective) ≤
        ((miss.take (s ∩ misses weights effective).card).map fun i => weights.getD i 0).sum :=
      Ranked.sum_le_sum_take hfalls fun i hi => (hmiss.mem i).mpr (Finset.mem_inter.mp hi).2
    rw [mass_inter_misses hw hs] at hheavy
    rw [enough_iff hs, ← mass_misses hw] at henough
    exact hgo _ hshort (by linarith)

end Least

end Proofs

/-- At every threshold the layer can have (`mask_wait_tau_ >= 0`), the candidates are a smallest
    selection of the misses that brings the loss down to its share of the whole mass, and there
    are none where nothing needs to be waited for. -/
theorem mask_wait_minimal {weights : List ℚ} (effective : List ℚ) {tau : ℚ}
    (hw : ∀ w ∈ weights, 0 ≤ w) (htau : 0 ≤ tau) :
    LeastWait weights effective tau (mask_wait_candidates weights effective tau) ∧
    (Enough weights effective tau ∅ → mask_wait_candidates weights effective tau = []) := by
  have hleast : LeastWait weights effective tau
      (mask_wait_candidates weights effective tau) := by
    obtain ⟨miss, hmiss, hsums⟩ := @mask_sums_spec weights effective
    rw [mask_wait_candidates, hsums]
    dsimp only
    by_cases hnone : tau ≥ 1 ∨ total_mass weights ≤ 0
    · rw [if_pos hnone]
      exact leastWait_nil hw hnone
    · rw [if_neg hnone]
      obtain ⟨htau1, htotal⟩ : tau < 1 ∧ 0 < total_mass weights := by
        rw [not_or, not_le, not_le] at hnone
        exact hnone
      obtain ⟨m, hm, hres, hgo, hend⟩ := @wait_loop_spec weights (tau * total_mass weights)
        (decide (miss.length = weights.length)) (heaviest_first weights miss)
        (mass weights (misses weights effective)) 0
      rw [hres, Nat.zero_add]
      refine leastWait_take hw hmiss.heaviest_first (heaviest_first_falls miss) ?_ ?_
      · -- the loop never goes on for the shared expert's sake alone
        intro j hj hle
        obtain ⟨hall, hzero⟩ := hgo j hj hle
        obtain rfl : j = 0 := by omega
        rw [List.take_zero, List.map_nil, List.sum_nil, sub_zero,
          lost_of_shared_only hmiss (of_decide_eq_true hall)] at hle
        nlinarith
      · rcases hend with hall | hle
        · rw [hall, List.take_length, hmiss.heaviest_first.sum, sub_self]
          exact mul_nonneg htau htotal.le
        · exact hle
  refine ⟨hleast, fun hempty => ?_⟩
  exact List.length_eq_zero_iff.mp (Nat.le_zero.mp
    (hleast.least ∅ (Finset.empty_subset _) hempty))

/-- Two of three experts are missing, and with a quarter of the mass to lose one is enough. -/
theorem mask_wait_minimal_pair :
    LeastWait [1 / 2, 3 / 10, 1 / 5] [1 / 2, 0, 0] (1 / 4)
      (mask_wait_candidates [1 / 2, 3 / 10, 1 / 5] [1 / 2, 0, 0] (1 / 4)) ∧
    mask_wait_candidates [1 / 2, 3 / 10, 1 / 5] [1 / 2, 0, 0] (1 / 4) = [1] :=
  ⟨(mask_wait_minimal [1 / 2, 0, 0] (by decide +kernel) (by norm_num)).1, by decide +kernel⟩

end CachedMoe.Runtime
