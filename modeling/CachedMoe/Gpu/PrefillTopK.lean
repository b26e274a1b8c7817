import CachedMoe.Framework.Ranking
import CachedMoe.Framework.Region
import Mathlib.Data.List.Dedup
import Mathlib.Data.List.GetD
import Mathlib.Logic.Function.Basic
import Mathlib.Order.Bounds.Basic
import Mathlib.Order.WithBot

/-! # The top-k of the prefill

    `Prefill::candidate_blocks`, `Prefill::topk_rows` and the masking between them in
    `Prefill::run_layer` (`gpu/vulkan/prefill_kernels.cpp`): one index layer picks blocks of
    compressed rows for each query, the later ones score only inside them.

    Finite scores are of any linear order; the two infinities the code writes itself are
    added to them. Positions and rows are exact. -/

namespace CachedMoe.Gpu

open Ranked

variable {α : Type} [LinearOrder α]

/-! ### Scores -/

/-- A `float` that is no NaN. -/
abbrev Score (α : Type) := WithBot (WithTop α)

def minus_infinity : Score α := ⊥

def infinity : Score α := ((⊤ : WithTop α) : Score α)

def finite (x : α) : Score α := ((x : WithTop α) : Score α)

/-- Compressed rows the query at `p` sees. -/
def visible (g p ratio : Nat) : Nat := min g ((p + 1) / max ratio 1)

/-! ### Candidate blocks -/

/-- A block's score is its best visible position; the newest block is pinned in. -/
def block_scores (sr : Nat → Score α) (vis block : Nat) : Nat → Score α :=
  let bs := (List.range vis).foldl
    (fun bs i => Function.update bs (i / block) (max (bs (i / block)) (sr i)))
    fun _ => minus_infinity
  Function.update bs ((vis - 1) / block) infinity

/-- The flags of one query: `std::nth_element` brings the best `topk_blocks` to the front. -/
def keep_row (sr : Nat → Score α) (vis block nblocks topk_blocks : Nat) : List Bool :=
  let bs := block_scores sr vis block
  ((best_first bs nblocks).take topk_blocks).foldl
    (fun row o => if bs o > minus_infinity then row.set o true else row)
    (List.replicate nblocks false)

/-- Blocks of `block` rows in `n`. -/
def blocks_of (n block : Nat) : Nat := (n + block - 1) / block

/-- Which blocks each query of a chunk keeps; an empty list keeps all. -/
def candidate_blocks (b pos0 ratio g : Nat) (scores : Nat → Nat → Score α)
    (topk_blocks block : Nat) : List (List Bool) :=
  if block = 0 ∨ topk_blocks = 0 then List.replicate b []
  else
    (List.range b).map fun j =>
      let vis := visible g (pos0 + j) ratio
      -- every reachable block kept: the identity
      if blocks_of vis block ≤ topk_blocks then []
      else keep_row (scores j) vis block (blocks_of g block) topk_blocks

/-- The masking of `run_layer`: rows of the blocks a query's list drops. -/
def mask_row (keep : List Bool) (bsz : Nat) (sr : Nat → Score α) : Nat → Score α := fun i =>
  if keep = [] then sr i
  else if i / bsz ≥ keep.length ∨ keep.getD (i / bsz) false = false then minus_infinity
  else sr i

/-! ### Lists of rows -/

/-- The list of the query at `p`: window positions in the chunk's row space, then the best
    compressed rows in ascending order behind them. -/
def topk_row (p kv_pos0 n_kv_rows window ratio g : Nat) (scores : Option (Nat → Score α))
    (n_idx : Nat) : List Int :=
  let nw := min n_kv_rows window
  let k := n_idx - nw
  let first : Int := max (kv_pos0 : Int) ((p : Int) - window + 1)
  let vis := visible g p ratio
  let take := min k vis
  let order :=
    match scores with
    | none => List.range vis
    | some sr =>
      if vis > k then ((best_first sr vis).take take).insertionSort (· ≤ ·) else List.range vis
  ((List.range nw).map fun (i : Nat) =>
    if first + i > p then -1 else first + i - kv_pos0) ++
  (List.range k).map fun i => if i < take then ((order.getD i 0 + n_kv_rows : Nat) : Int) else -1

def topk_rows (b pos0 kv_pos0 n_kv_rows window ratio g : Nat)
    (scores : Option (Nat → Nat → Score α)) (n_idx : Nat) : List (List Int) :=
  (List.range b).map fun j =>
    topk_row (pos0 + j) kv_pos0 n_kv_rows window ratio g (scores.map (· j)) n_idx

/-! ### The order of scores -/

theorem finite_lt_infinity (x : α) : finite x < (infinity : Score α) :=
  WithBot.coe_lt_coe.mpr (WithTop.coe_lt_top x)

theorem minus_infinity_lt_finite (x : α) : (minus_infinity : Score α) < finite x :=
  WithBot.bot_lt_coe _

theorem minus_infinity_lt_infinity : (minus_infinity : Score α) < infinity :=
  WithBot.bot_lt_coe _

theorem finite_lt_finite {x y : α} : finite x < finite y ↔ x < y :=
  WithBot.coe_lt_coe.trans WithTop.coe_lt_coe

omit [LinearOrder α] in
theorem finite_inj {x y : α} : finite x = finite y ↔ x = y :=
  WithBot.coe_inj.trans WithTop.coe_inj

theorem finite_le_finite {x y : α} : finite x ≤ finite y ↔ x ≤ y :=
  WithBot.coe_le_coe.trans WithTop.coe_le_coe

theorem before_of_lt {x y : Score α} (h : y < x) (i j : Nat) : Before (x, i) (y, j) :=
  before_iff.mpr (.inl h)

theorem not_before_of_lt {x y : Score α} (h : x < y) (i j : Nat) : ¬ Before (x, i) (y, j) :=
  before_asymm _ _ (before_of_lt h j i)

theorem before_finite {x y : α} {i j : Nat} :
    Before (finite x, i) (finite y, j) ↔ Before (x, i) (y, j) := by
  rw [before_iff, before_iff, finite_lt_finite, finite_inj]

/-! ### Block scores -/

/-- `x` is the best visible score of a block. -/
def IsBest (s : Nat → α) (vis block blk : Nat) (x : α) : Prop :=
  (∃ i < vis, i / block = blk ∧ s i = x) ∧ ∀ i < vis, i / block = blk → s i ≤ x

section BlockScores

variable {block vis : Nat}

theorem blocks_of_eq (hblock : 0 < block) (hvis : 0 < vis) :
    blocks_of vis block = (vis - 1) / block + 1 := by
  have hsum : vis + block - 1 = vis - 1 + block := by omega
  rw [blocks_of, hsum, Nat.add_div_right _ hblock]

/-- A block is reachable when its first row is visible. -/
theorem lt_blocks_of (hblock : 0 < block) {blk : Nat} :
    blk < blocks_of vis block ↔ blk * block < vis := by
  rw [blocks_of, Nat.lt_div_iff_mul_lt hblock]
  omega

/-- The loop over the visible rows. -/
theorem foldl_max (sr : Nat → Score α) (block n blk : Nat) :
    (∀ i < n, i / block = blk → sr i ≤ (List.range n).foldl
      (fun bs i => Function.update bs (i / block) (max (bs (i / block)) (sr i)))
      (fun _ => minus_infinity) blk) ∧
    ((List.range n).foldl
      (fun bs i => Function.update bs (i / block) (max (bs (i / block)) (sr i)))
      (fun _ => minus_infinity) blk = minus_infinity ∨
    ∃ i < n, i / block = blk ∧ (List.range n).foldl
      (fun bs i => Function.update bs (i / block) (max (bs (i / block)) (sr i)))
      (fun _ => minus_infinity) blk = sr i) := by
  induction n with
  | zero => exact ⟨fun i hi => absurd hi (Nat.not_lt_zero i), .inl rfl⟩
  | succ n ih =>
    obtain ⟨hle, hval⟩ := ih
    rw [List.range_succ, List.foldl_append, List.foldl_cons, List.foldl_nil]
    -- row `n` counts for its own block only
    by_cases hblk : blk = n / block
    · rw [hblk, Function.update_self, ← hblk]
      constructor
      · intro i hi hiblk
        rcases Nat.lt_succ_iff_lt_or_eq.mp hi with hi | rfl
        · exact (hle i hi hiblk).trans (le_max_left _ _)
        · exact le_max_right _ _
      · right
        rcases le_total (sr n) ((List.range n).foldl
          (fun bs i => Function.update bs (i / block) (max (bs (i / block)) (sr i)))
          (fun _ => minus_infinity) blk) with hmax | hmax
        · rw [max_eq_left hmax]
          rcases hval with hbot | ⟨i, hi, hiblk, heq⟩
          · rw [hbot] at hmax ⊢
            exact ⟨n, Nat.lt_succ_self n, hblk.symm, (le_bot_iff.mp hmax).symm⟩
          · exact ⟨i, Nat.lt_succ_of_lt hi, hiblk, heq⟩
        · rw [max_eq_right hmax]
          exact ⟨n, Nat.lt_succ_self n, hblk.symm, rfl⟩
    · rw [Function.update_of_ne hblk]
      constructor
      · intro i hi hiblk
        rcases Nat.lt_succ_iff_lt_or_eq.mp hi with hi | rfl
        · exact hle i hi hiblk
        · exact absurd hiblk.symm hblk
      · rcases hval with hbot | ⟨i, hi, hiblk, heq⟩
        · exact .inl hbot
        · exact .inr ⟨i, Nat.lt_succ_of_lt hi, hiblk, heq⟩

/-- The loop finds the best visible row of a reachable block. -/
theorem foldl_best (s : Nat → α) (hblock : 0 < block) {blk : Nat}
    (hblk : blk < blocks_of vis block) :
    ∃ x, (List.range vis).foldl
        (fun bs i => Function.update bs (i / block) (max (bs (i / block)) (finite (s i))))
        (fun _ => minus_infinity) blk = finite x ∧ IsBest s vis block blk x := by
  have hfirst : blk * block < vis := (lt_blocks_of hblock).mp hblk
  obtain ⟨hle, hval⟩ := foldl_max (fun i => finite (s i)) block vis blk
  have hin := hle (blk * block) hfirst (Nat.mul_div_cancel blk hblock)
  rcases hval with hbot | ⟨i, hi, hiblk, heq⟩
  · rw [hbot] at hin
    exact absurd hin (not_le.mpr (minus_infinity_lt_finite _))
  · refine ⟨s i, heq, ⟨i, hi, hiblk, rfl⟩, ?_⟩
    intro i' hi' hiblk'
    have hbest := hle i' hi' hiblk'
    rw [heq] at hbest
    exact finite_le_finite.mp hbest

/-- The best score of each reachable block, which an older block is given. -/
theorem exists_best (s : Nat → α) (hblock : 0 < block) (hvis : 0 < vis) :
    ∃ best : Nat → α, (∀ blk < blocks_of vis block, IsBest s vis block blk (best blk)) ∧
      ∀ blk, blk + 1 < blocks_of vis block →
        block_scores (fun i => finite (s i)) vis block blk = finite (best blk) := by
  have hchoice : ∀ blk, ∃ x, blk < blocks_of vis block → (List.range vis).foldl
        (fun bs i => Function.update bs (i / block) (max (bs (i / block)) (finite (s i))))
        (fun _ => minus_infinity) blk = finite x ∧ IsBest s vis block blk x := by
    intro blk
    by_cases hblk : blk < blocks_of vis block
    · obtain ⟨x, hx⟩ := foldl_best s hblock hblk
      exact ⟨x, fun _ => hx⟩
    · exact ⟨s 0, fun h => absurd h hblk⟩
  choose best hbest using hchoice
  refine ⟨best, fun blk hblk => (hbest blk hblk).2, fun blk hblk => ?_⟩
  have hreach := blocks_of_eq hblock hvis
  have hne : blk ≠ (vis - 1) / block := by omega
  rw [block_scores, Function.update_of_ne hne]
  exact (hbest blk (by omega)).1

theorem block_scores_newest (sr : Nat → Score α) (hblock : 0 < block) {blk : Nat} (hvis : 0 < vis)
    (hblk : blk + 1 = blocks_of vis block) : block_scores sr vis block blk = infinity := by
  have hreach := blocks_of_eq hblock hvis
  have heq : blk = (vis - 1) / block := by omega
  rw [block_scores, heq]
  exact Function.update_self ..

theorem block_scores_beyond (sr : Nat → Score α) (hblock : 0 < block) {blk : Nat} (hvis : 0 < vis)
    (hblk : blocks_of vis block ≤ blk) : block_scores sr vis block blk = minus_infinity := by
  have hreach := blocks_of_eq hblock hvis
  have hne : blk ≠ (vis - 1) / block := by omega
  rw [block_scores, Function.update_of_ne hne]
  rcases (foldl_max sr block vis blk).2 with hbot | ⟨i, hi, hiblk, -⟩
  · exact hbot
  · have hle : i / block ≤ (vis - 1) / block := Nat.div_le_div_right (by omega)
    omega

/-! ### The blocks that are kept -/

section Keep

variable {nblocks topk_blocks : Nat} {s best : Nat → α}

/-- The scores of a query's blocks: older ones, the newest, and those it cannot reach. -/
structure Scored (bs : Nat → Score α) (best : Nat → α) (reach : Nat) : Prop where
  older : ∀ blk, blk + 1 < reach → bs blk = finite (best blk)
  newest : ∀ blk, blk + 1 = reach → bs blk = infinity
  beyond : ∀ blk, reach ≤ blk → bs blk = minus_infinity

namespace Scored

variable {bs : Nat → Score α} {reach blk : Nat}

/-- Only older blocks with better scores and the newest are before an older block. -/
theorem rank_older (h : Scored bs best reach) (hblk : blk + 1 < reach) (hreach : reach ≤ nblocks) :
    rank bs nblocks blk = rank best (reach - 1) blk + 1 := by
  obtain ⟨r, rfl⟩ : ∃ r, reach = r + 1 := ⟨reach - 1, by omega⟩
  have hlate : ∀ j, r + 1 ≤ j → j < nblocks → ¬ Before (bs j, j) (bs blk, blk) := by
    intro j hj _
    rw [h.beyond j hj, h.older blk hblk]
    exact not_before_of_lt (minus_infinity_lt_finite _) _ _
  have hnew : Before (bs r, r) (bs blk, blk) := by
    rw [h.newest r rfl, h.older blk hblk]
    exact before_of_lt (finite_lt_infinity _) _ _
  have hold : rank bs r blk = rank best r blk := by
    apply rank_congr
    intro j hj
    rw [h.older j (by omega), h.older blk hblk]
    exact before_finite
  rw [rank_eq_of_not_before hreach hlate, rank_succ, if_pos hnew, hold]
  rfl

/-- Nothing is before the newest block. -/
theorem rank_newest (h : Scored bs best reach) (hblk : blk + 1 = reach) :
    rank bs nblocks blk = 0 := by
  have hnone : ∀ j, 0 ≤ j → j < nblocks → ¬ Before (bs j, j) (bs blk, blk) := by
    intro j _ _
    rw [h.newest blk hblk]
    rcases Nat.lt_trichotomy (j + 1) reach with hlt | heq | hgt
    · rw [h.older j hlt]
      exact not_before_of_lt (finite_lt_infinity _) _ _
    · obtain rfl : j = blk := by omega
      rw [h.newest j heq]
      exact before_irrefl _
    · rw [h.beyond j (by omega)]
      exact not_before_of_lt minus_infinity_lt_infinity _ _
  exact rank_eq_of_not_before (Nat.zero_le _) hnone

/-- Every reachable block is before one that is not. -/
theorem le_rank_beyond (h : Scored bs best reach) (hblk : reach ≤ blk) (hreach : reach ≤ nblocks) :
    reach ≤ rank bs nblocks blk := by
  apply le_rank hreach
  intro j hj
  rw [h.beyond blk hblk]
  rcases Nat.lt_or_eq_of_le (Nat.succ_le_of_lt hj) with hlt | heq
  · rw [h.older j hlt]
    exact before_of_lt (minus_infinity_lt_finite _) _ _
  · rw [h.newest j heq]
    exact before_of_lt minus_infinity_lt_infinity _ _

/-- What the selection takes, among the blocks there are. -/
theorem rank_lt_iff (h : Scored bs best reach) (hreach : reach ≤ nblocks)
    (htopk : 0 < topk_blocks) (hmore : topk_blocks < reach) :
    rank bs nblocks blk < topk_blocks ↔
      blk + 1 = reach ∨ blk + 1 < reach ∧ rank best (reach - 1) blk < topk_blocks - 1 := by
  rcases Nat.lt_trichotomy (blk + 1) reach with hlt | heq | hgt
  · rw [h.rank_older hlt hreach]
    omega
  · rw [h.rank_newest heq]
    omega
  · have hle : reach ≤ rank bs nblocks blk := h.le_rank_beyond (by omega) hreach
    omega

theorem minus_infinity_lt (h : Scored bs best reach) (hblk : blk < reach) :
    minus_infinity < bs blk := by
  rcases Nat.lt_or_eq_of_le (Nat.succ_le_of_lt hblk) with hlt | heq
  · rw [h.older blk hlt]
    exact minus_infinity_lt_finite _
  · rw [h.newest blk heq]
    exact minus_infinity_lt_infinity

end Scored

theorem foldl_set (P : Nat → Prop) [DecidablePred P] (l : List Nat) (row : List Bool) :
    (l.foldl (fun row o => if P o then row.set o true else row) row).length = row.length ∧
    ∀ blk < row.length,
      ((l.foldl (fun row o => if P o then row.set o true else row) row).getD blk false = true ↔
        row.getD blk false = true ∨ blk ∈ l ∧ P blk) := by
  induction l generalizing row with
  | nil =>
    refine ⟨rfl, fun blk _ => ?_⟩
    simp
  | cons o l ih =>
    rw [List.foldl_cons]
    by_cases ho : P o
    · rw [if_pos ho]
      obtain ⟨hlen, hget⟩ := ih (row.set o true)
      rw [List.length_set] at hlen hget
      refine ⟨hlen, fun blk hblk => ?_⟩
      rw [hget blk hblk, List.mem_cons]
      by_cases hob : o = blk
      · subst hob
        simp [hblk, ho]
      · have hsame : (row.set o true).getD blk false = row.getD blk false := by
          rw [List.getD_eq_getElem?_getD, List.getElem?_set_ne hob, List.getD_eq_getElem?_getD]
        rw [hsame]
        simp [Ne.symm hob]
    · rw [if_neg ho]
      obtain ⟨hlen, hget⟩ := ih row
      refine ⟨hlen, fun blk hblk => ?_⟩
      rw [hget blk hblk, List.mem_cons]
      by_cases hob : blk = o
      · subst hob
        simp [ho]
      · simp [hob]

/-- Exactly `topk_blocks` blocks are kept: the newest reachable one, and of the older ones
    those with fewer than `topk_blocks - 1` older ones before them, by their best visible
    score and then by index. -/
structure KeepsBest (s : Nat → α) (vis block nblocks topk_blocks : Nat) (row : List Bool) :
    Prop where
  length : row.length = nblocks
  exactly : row.count true = topk_blocks
  best : ∃ best : Nat → α, (∀ blk < blocks_of vis block, IsBest s vis block blk (best blk)) ∧
    ∀ blk < nblocks, (row.getD blk false = true ↔ blk + 1 = blocks_of vis block ∨
      blk + 1 < blocks_of vis block ∧
        rank best (blocks_of vis block - 1) blk < topk_blocks - 1)

/-- The flags that are set are as many as there are indices with them. -/
theorem count_true (row : List Bool) {n : Nat} (hlen : row.length = n) {l : List Nat}
    (hl : l.Nodup) (hmem : ∀ blk, blk ∈ l ↔ blk < n ∧ row.getD blk false = true) :
    row.count true = l.length := by
  have hperm : l.Perm ((List.range n).filter fun blk => row.getD blk false) := by
    rw [List.perm_ext_iff_of_nodup hl (List.nodup_range.filter _)]
    intro blk
    rw [hmem, List.mem_filter, List.mem_range]
  rw [hperm.length_eq, ← List.countP_eq_length_filter]
  conv_lhs => rw [← Region.map_getD_range row false, hlen, List.count, List.countP_map]
  apply List.countP_congr
  intro blk _
  simp

theorem keep_row_best (s : Nat → α) (hblock : 0 < block) (htopk : 0 < topk_blocks)
    (hmore : topk_blocks < blocks_of vis block) (hreach : blocks_of vis block ≤ nblocks) :
    KeepsBest s vis block nblocks topk_blocks
      (keep_row (fun i => finite (s i)) vis block nblocks topk_blocks) := by
  have hvis : 0 < vis := by
    have hfirst := (lt_blocks_of hblock).mp hmore
    exact Nat.zero_lt_of_lt hfirst
  obtain ⟨best, hbest, holder⟩ := exists_best s hblock hvis
  have hscored : Scored (block_scores (fun i => finite (s i)) vis block) best
      (blocks_of vis block) :=
    ⟨holder, fun _ h => block_scores_newest _ hblock hvis h,
      fun _ h => block_scores_beyond _ hblock hvis h⟩
  let bs := block_scores (fun i => finite (s i)) vis block
  obtain ⟨hlen, hget⟩ := foldl_set (fun o => bs o > minus_infinity)
    ((best_first bs nblocks).take topk_blocks) (List.replicate nblocks false)
  rw [List.length_replicate] at hlen hget
  have htaken : ∀ blk < nblocks, (blk ∈ (best_first bs nblocks).take topk_blocks ↔
      rank bs nblocks blk < topk_blocks) := fun blk hblk => mem_take_best_first bs nblocks hblk
  -- What is taken is reachable, so its flag is set.
  have hset : ∀ blk < nblocks,
      ((keep_row (fun i => finite (s i)) vis block nblocks topk_blocks).getD blk false = true ↔
        blk ∈ (best_first bs nblocks).take topk_blocks) := by
    intro blk hblk
    refine (hget blk hblk).trans ?_
    have hclear : (List.replicate nblocks false).getD blk false = false := by
      simp [List.getD_eq_getElem?_getD, hblk]
    rw [hclear]
    constructor
    · rintro (h | h)
      · exact absurd h Bool.false_ne_true
      · exact h.1
    · intro h
      refine .inr ⟨h, ?_⟩
      apply hscored.minus_infinity_lt
      by_contra hbeyond
      have hrank := (htaken blk hblk).mp h
      have hle : blocks_of vis block ≤ rank bs nblocks blk :=
        hscored.le_rank_beyond (Nat.le_of_not_lt hbeyond) hreach
      omega
  refine ⟨hlen, ?_, best, hbest, fun blk hblk => ?_⟩
  · have hnodup := (nodup_best_first bs nblocks).sublist (List.take_sublist topk_blocks _)
    refine (count_true _ hlen hnodup fun blk => ?_).trans ?_
    · constructor
      · intro h
        have hblk : blk < nblocks :=
          List.mem_range.mp ((best_first_perm bs nblocks).subset (List.mem_of_mem_take h))
        exact ⟨hblk, (hset blk hblk).mpr h⟩
      · rintro ⟨hblk, h⟩
        exact (hset blk hblk).mp h
    · rw [List.length_take, length_best_first]
      omega
  · rw [hset blk hblk, htaken blk hblk]
    exact hscored.rank_lt_iff hreach htopk hmore

end Keep

end BlockScores

/-! ### The rows that are listed -/

section Rows

variable {p kv_pos0 n_kv_rows window ratio g k : Nat}

/-- The window positions of a query. -/
def window_positions (p kv_pos0 window : Nat) : List Nat :=
  let lo := max kv_pos0 (p + 1 - window)
  List.range' lo (p + 1 - lo)

/-- The `k` best of the visible rows, by score and then by index, in ascending order. -/
def best_rows (sr : Nat → Score α) (vis k : Nat) : List Nat :=
  (List.range vis).filter fun i => rank sr vis i < k

theorem best_rows_sorted (sr : Nat → Score α) (vis k : Nat) :
    (best_rows sr vis k).Pairwise (· < ·) :=
  List.pairwise_lt_range.filter _

theorem mem_best_rows {sr : Nat → Score α} {vis i : Nat} :
    i ∈ best_rows sr vis k ↔ i < vis ∧ rank sr vis i < k := by
  rw [best_rows, List.mem_filter, List.mem_range, decide_eq_true_iff]

theorem best_rows_perm (sr : Nat → Score α) (vis k : Nat) :
    (best_rows sr vis k).Perm ((best_first sr vis).take k) := by
  have hnodup : (best_rows sr vis k).Nodup := List.nodup_range.filter _
  rw [List.perm_ext_iff_of_nodup hnodup
    ((nodup_best_first sr vis).sublist (List.take_sublist k _))]
  intro i
  rw [mem_best_rows]
  constructor
  · rintro ⟨hi, hrank⟩
    exact (mem_take_best_first sr vis hi).mpr hrank
  · intro h
    have hi : i < vis :=
      List.mem_range.mp ((best_first_perm sr vis).subset (List.mem_of_mem_take h))
    exact ⟨hi, (mem_take_best_first sr vis hi).mp h⟩

theorem length_best_rows (sr : Nat → Score α) (vis k : Nat) :
    (best_rows sr vis k).length = min k vis := by
  rw [(best_rows_perm sr vis k).length_eq, List.length_take, length_best_first]

theorem best_rows_all (sr : Nat → Score α) {vis : Nat} (h : vis ≤ k) :
    best_rows sr vis k = List.range vis := by
  have hlen : (best_rows sr vis k).length = (List.range vis).length := by
    rw [length_best_rows, List.length_range]
    omega
  exact List.filter_sublist.eq_of_length hlen

/-- The selection, put in ascending order. -/
theorem insertionSort_take (sr : Nat → Score α) (vis k : Nat) :
    ((best_first sr vis).take k).insertionSort (· ≤ ·) = best_rows sr vis k := by
  have hperm : (((best_first sr vis).take k).insertionSort (· ≤ ·)).Perm (best_rows sr vis k) :=
    (List.perm_insertionSort _ _).trans (best_rows_perm sr vis k).symm
  exact hperm.eq_of_pairwise (fun a b _ _ hab hba => Nat.le_antisymm hab hba)
    (List.pairwise_insertionSort _ _) ((best_rows_sorted sr vis k).imp Nat.le_of_lt)

theorem map_range_pad (l : List Nat) (f : Nat → Int) (pad : Int) {n : Nat} (h : l.length ≤ n) :
    ((List.range n).map fun i => if i < l.length then f (l.getD i 0) else pad) =
      l.map f ++ List.replicate (n - l.length) pad := by
  obtain ⟨m, rfl⟩ := Nat.exists_eq_add_of_le h
  rw [List.range_add, List.map_append, Nat.add_sub_cancel_left]
  congr 1
  · conv_rhs => rw [← Region.map_getD_range l 0, List.map_map]
    apply List.map_congr_left
    intro i hi
    exact if_pos (List.mem_range.mp hi)
  · rw [List.map_map, List.eq_replicate_iff]
    refine ⟨by rw [List.length_map, List.length_range], ?_⟩
    intro x hx
    obtain ⟨i, -, rfl⟩ := List.mem_map.mp hx
    exact if_neg (Nat.not_lt.mpr (Nat.le_add_right l.length i))

theorem window_half (hp : p < kv_pos0 + n_kv_rows) :
    ((List.range (min n_kv_rows window)).map fun (i : Nat) =>
      if max (kv_pos0 : Int) ((p : Int) - window + 1) + i > p then (-1 : Int)
      else max (kv_pos0 : Int) ((p : Int) - window + 1) + i - kv_pos0) =
    (window_positions p kv_pos0 window).map (fun (pos : Nat) => (pos : Int) - kv_pos0) ++
      List.replicate (min n_kv_rows window - (window_positions p kv_pos0 window).length) (-1) := by
  have hlen : (window_positions p kv_pos0 window).length ≤ min n_kv_rows window := by
    rw [window_positions, List.length_range']
    omega
  rw [← map_range_pad _ (fun (pos : Nat) => (pos : Int) - kv_pos0) _ hlen]
  apply List.map_congr_left
  intro i _
  have hfirst : max (kv_pos0 : Int) ((p : Int) - window + 1) =
      (max kv_pos0 (p + 1 - window) : Nat) := by omega
  rw [hfirst, window_positions, List.length_range']
  by_cases hi : i < p + 1 - max kv_pos0 (p + 1 - window)
  · have hget : (List.range' (max kv_pos0 (p + 1 - window))
        (p + 1 - max kv_pos0 (p + 1 - window))).getD i 0 = max kv_pos0 (p + 1 - window) + i := by
      rw [List.getD_eq_getElem _ _ (by rwa [List.length_range']), List.getElem_range', Nat.one_mul]
    rw [if_neg (by omega), if_pos hi, hget]
    push_cast
    rfl
  · rw [if_pos (by omega), if_neg hi]

/-- The list of a query: its window positions, then its best rows. -/
def listed (p kv_pos0 n_kv_rows window ratio g k : Nat) (sr : Nat → Score α) : List Int :=
  let win := window_positions p kv_pos0 window
  let best := best_rows sr (visible g p ratio) k
  (win.map (fun (pos : Nat) => (pos : Int) - kv_pos0) ++
    List.replicate (min n_kv_rows window - win.length) (-1)) ++
  (best.map (fun i => ((i + n_kv_rows : Nat) : Int)) ++ List.replicate (k - best.length) (-1))

theorem compressed_half (n_kv_rows vis k : Nat) (sr : Nat → Score α) :
    ((List.range k).map fun i => if i < min k vis then (((if vis > k then
        ((best_first sr vis).take (min k vis)).insertionSort (· ≤ ·)
      else List.range vis).getD i 0 + n_kv_rows : Nat) : Int) else -1) =
    (best_rows sr vis k).map (fun i => ((i + n_kv_rows : Nat) : Int)) ++
      List.replicate (k - (best_rows sr vis k).length) (-1) := by
  have horder : (if vis > k then ((best_first sr vis).take (min k vis)).insertionSort (· ≤ ·)
      else List.range vis) = best_rows sr vis k := by
    split
    · next hgt =>
      rw [Nat.min_eq_left (Nat.le_of_lt hgt)]
      exact insertionSort_take sr vis k
    · next hle => exact (best_rows_all sr (Nat.le_of_not_lt hle)).symm
  rw [horder, ← length_best_rows sr vis k]
  apply map_range_pad (best_rows sr vis k) fun i => ((i + n_kv_rows : Nat) : Int)
  rw [length_best_rows]
  exact Nat.min_le_left k vis

theorem topk_row_eq (hp : p < kv_pos0 + n_kv_rows) (sr : Nat → Score α) :
    topk_row p kv_pos0 n_kv_rows window ratio g (some sr) (min n_kv_rows window + k) =
      listed p kv_pos0 n_kv_rows window ratio g k sr := by
  simp only [topk_row, listed, Nat.add_sub_cancel_left]
  rw [window_half hp, compressed_half]

/-- What a list has behind its window half. -/
theorem drop_topk_row (sr : Nat → Score α) :
    (topk_row p kv_pos0 n_kv_rows window ratio g (some sr) (min n_kv_rows window + k)).drop
      (min n_kv_rows window) =
    (best_rows sr (visible g p ratio) k).map (fun i => ((i + n_kv_rows : Nat) : Int)) ++
      List.replicate (k - (best_rows sr (visible g p ratio) k).length) (-1) := by
  simp only [topk_row, Nat.add_sub_cancel_left]
  rw [compressed_half, List.drop_left']
  rw [List.length_map, List.length_range]

/-! ### Masked scores -/

/-- A row of a block that the list keeps. -/
def Kept (keep : List Bool) (bsz i : Nat) : Prop := keep = [] ∨ keep.getD (i / bsz) false = true

instance (keep : List Bool) (bsz i : Nat) : Decidable (Kept keep bsz i) :=
  inferInstanceAs (Decidable (_ ∨ _))

omit [LinearOrder α] in
theorem mask_row_kept {keep : List Bool} {bsz i : Nat} (h : Kept keep bsz i)
    (sr : Nat → Score α) : mask_row keep bsz sr i = sr i := by
  rcases h with hnil | hflag
  · exact if_pos hnil
  · have hlt : i / bsz < keep.length := by
      by_contra hge
      rw [List.getD_eq_default _ _ (Nat.le_of_not_lt hge)] at hflag
      exact Bool.false_ne_true hflag
    have hne : keep ≠ [] := List.ne_nil_of_length_pos (Nat.zero_lt_of_lt hlt)
    have hin : ¬ (i / bsz ≥ keep.length ∨ keep.getD (i / bsz) false = false) := by
      rintro (hge | hclear)
      · exact absurd hlt (Nat.not_lt.mpr hge)
      · rw [hflag] at hclear
        exact Bool.noConfusion hclear
    rw [mask_row, if_neg hne, if_neg hin]

omit [LinearOrder α] in
theorem mask_row_dropped {keep : List Bool} {bsz i : Nat} (h : ¬ Kept keep bsz i)
    (sr : Nat → Score α) : mask_row keep bsz sr i = minus_infinity := by
  unfold mask_row
  rw [if_neg fun hnil => h (.inl hnil), if_pos]
  exact .inr (Bool.eq_false_of_not_eq_true fun hflag => h (.inr hflag))

/-- Where the kept blocks have rows enough, a masked row is not among the best. -/
theorem kept_of_mem_best {keep : List Bool} {bsz vis i : Nat} (s : Nat → α)
    (henough : k ≤ (List.range vis).countP fun i => Kept keep bsz i)
    (hi : i ∈ best_rows (mask_row keep bsz fun i => finite (s i)) vis k) : Kept keep bsz i := by
  by_contra hdrop
  have hrank := (mem_best_rows.mp hi).2
  have hbefore : (List.range vis).countP (fun i => Kept keep bsz i) ≤
      rank (mask_row keep bsz fun i => finite (s i)) vis i := by
    apply List.countP_mono_left
    intro j _ hj
    have hkept := of_decide_eq_true hj
    rw [decide_eq_true_iff, mask_row_kept hkept, mask_row_dropped hdrop]
    exact before_of_lt (minus_infinity_lt_finite _) _ _
  omega

end Rows

/-! ### The two levels -/

/-- Every query of a chunk with more reachable blocks than `topk_blocks` keeps the best; the
    others keep all, and so do all when a size is 0. -/
def BlocksExact (s : Nat → Nat → α) (b pos0 ratio g topk_blocks block : Nat) : Prop :=
  ∀ j < b, ∃ row, (candidate_blocks b pos0 ratio g (fun j i => finite (s j i)) topk_blocks
      block)[j]? = some row ∧
    let vis := visible g (pos0 + j) ratio
    if 0 < block ∧ 0 < topk_blocks ∧ topk_blocks < blocks_of vis block then
      KeepsBest (s j) vis block (blocks_of g block) topk_blocks row
    else row = []

theorem blocks_of_mono {m n block : Nat} (h : m ≤ n) : blocks_of m block ≤ blocks_of n block := by
  apply Nat.div_le_div_right
  omega

theorem blocks_exact (s : Nat → Nat → α) (b pos0 ratio g topk_blocks block : Nat) :
    BlocksExact s b pos0 ratio g topk_blocks block := by
  intro j hj
  dsimp only
  unfold candidate_blocks
  split
  · next hoff =>
    refine ⟨[], by rw [List.getElem?_replicate, if_pos hj], ?_⟩
    rw [if_neg (by omega)]
  · next hon =>
    rw [List.getElem?_map, List.getElem?_range hj]
    refine ⟨_, rfl, ?_⟩
    dsimp only
    by_cases hall : blocks_of (visible g (pos0 + j) ratio) block ≤ topk_blocks
    · rw [if_neg (by omega), if_pos hall]
    · rw [if_pos (by omega), if_neg hall]
      exact keep_row_best (s j) (by omega) (by omega) (by omega)
        (blocks_of_mono (Nat.min_le_left _ _))

/-- Two-level top-k: the blocks that are kept, the rows that are listed for any scores, and
    the rows that are listed for scores masked by blocks. -/
theorem prefill_topk_exact :
    (∀ s : Nat → Nat → α, ∀ b pos0 ratio g topk_blocks block,
      BlocksExact s b pos0 ratio g topk_blocks block) ∧
    (∀ scores : Nat → Nat → Score α, ∀ b pos0 kv_pos0 n_kv_rows window ratio g k, ∀ j < b,
      pos0 + j < kv_pos0 + n_kv_rows →
      (topk_rows b pos0 kv_pos0 n_kv_rows window ratio g (some scores)
        (min n_kv_rows window + k))[j]? =
        some (listed (pos0 + j) kv_pos0 n_kv_rows window ratio g k (scores j))) ∧
    ∀ s : Nat → Nat → α, ∀ keep : Nat → List Bool,
      ∀ b pos0 kv_pos0 n_kv_rows window ratio g k bsz, ∀ j < b,
      k ≤ (List.range (visible g (pos0 + j) ratio)).countP (fun i => Kept (keep j) bsz i) →
      ∃ row, (topk_rows b pos0 kv_pos0 n_kv_rows window ratio g
        (some fun j => mask_row (keep j) bsz fun i => finite (s j i))
        (min n_kv_rows window + k))[j]? = some row ∧
      ∀ x ∈ row.drop (min n_kv_rows window),
        x = -1 ∨ ∃ i < visible g (pos0 + j) ratio, x = i + n_kv_rows ∧ Kept (keep j) bsz i := by
  refine ⟨blocks_exact, ?_, ?_⟩
  · intro scores b pos0 kv_pos0 n_kv_rows window ratio g k j hj hp
    rw [topk_rows, List.getElem?_map, List.getElem?_range hj]
    exact congrArg some (topk_row_eq hp (scores j))
  · intro s keep b pos0 kv_pos0 n_kv_rows window ratio g k bsz j hj henough
    rw [topk_rows, List.getElem?_map, List.getElem?_range hj]
    refine ⟨_, rfl, fun x hx => ?_⟩
    have hx := (congrArg (x ∈ ·) (drop_topk_row _)).mp hx
    rcases List.mem_append.mp hx with hx | hx
    · obtain ⟨i, hi, rfl⟩ := List.mem_map.mp hx
      refine .inr ⟨i, (mem_best_rows.mp hi).1, Int.natCast_add i n_kv_rows, ?_⟩
      exact kept_of_mem_best (s j) henough hi
    · exact .inl (List.eq_of_mem_replicate hx)

def eight_scores (_ i : Nat) : Int := [3, 1, 4, 1, 5, 9, 2, 6].getD i 0

/-- Of four blocks of two rows the newest is kept and the one with the 9; no row of the others is
    listed. -/
theorem prefill_topk_exact_eight :
    (∃ row, (candidate_blocks 1 7 1 8 (fun j i => finite (eight_scores j i)) 2 2)[0]? = some row ∧
      KeepsBest (eight_scores 0) 8 2 4 2 row) ∧
    ∃ row, (topk_rows 1 7 4 4 4 1 8 (some fun j =>
        mask_row [false, false, true, true] 2 fun i => finite (eight_scores j i)) 6)[0]? = some row ∧
      ∀ x ∈ row.drop 4, x = (-1 : Int) ∨
        ∃ i : Nat, i < 8 ∧ x = i + (4 : Nat) ∧ Kept [false, false, true, true] 2 i := by
  obtain ⟨hblocks, -, hmasked⟩ := prefill_topk_exact (α := Int)
  exact ⟨hblocks eight_scores 1 7 1 8 2 2 0 Nat.one_pos,
    hmasked eight_scores (fun _ => [false, false, true, true]) 1 7 4 4 4 1 8 2 2 0 Nat.one_pos
      (by decide)⟩

example : candidate_blocks 1 7 1 8 (fun j i => finite (eight_scores j i)) 2 2 =
    [[false, false, true, true]] := by
  decide

end CachedMoe.Gpu
