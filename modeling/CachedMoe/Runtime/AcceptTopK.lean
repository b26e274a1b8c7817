import Mathlib.Data.List.GetD
import Mathlib.Order.Bounds.Basic
import CachedMoe.Framework.Double
import CachedMoe.Framework.Ranking
import CachedMoe.Runtime.Speculate

/-! # Relaxed acceptance

    A drafted token is kept as long as it is among the best `topk` tokens of its row. The rank
    is counted, not sorted for: a token is among the best where fewer than `topk` of the row are
    before it, by logit and then by id. At `topk = 1` this is the greedy acceptance. -/

namespace CachedMoe.Runtime

open Ranked

/-! ### The code -/

/-- The loop over a row at token `id`: how many tokens are better than the draft. -/
def count_better (value : Double) (draft : Nat) : List Double → (id better : Nat) → Result Nat
  | [], _, better => .ok better
  | x :: row, id, better =>
    if x.isfinite = false then fail .InvalidArgument "nonfinite verification logit"
    else
      let better := better +
        if Double.lt value x ∨ (Double.eq x value ∧ id < draft) then 1 else 0
      count_better value draft row (id + 1) better

/-- `matrix.subspan(j * vocab, vocab)` -/
def matrix_row (matrix : List Double) (vocab j : Nat) : List Double :=
  (matrix.drop (j * vocab)).take vocab

/-- The loop over the draft at position `j`. -/
def topk_loop (matrix : List Double) (vocab topk : Nat) :
    List UInt32 → (j accepted : Nat) → Result Nat
  | [], _, accepted => .ok accepted
  | token :: draft, j, accepted =>
    if token.toNat ≥ vocab then fail .OutOfRange "draft token outside vocabulary"
    else
      let row := matrix_row matrix vocab j
      let value := row.getD token.toNat 0
      if value.isfinite = false then fail .InvalidArgument "nonfinite draft logit"
      else
        match count_better value token.toNat row 0 0 with
        | .error e => .error e
        | .ok better =>
          if better ≥ topk then .ok accepted
          else topk_loop matrix vocab topk draft (j + 1) (accepted + 1)

def accept_topk_prefix (draft : List UInt32) (matrix : List Double) (vocab topk : UInt32) :
    Result Nat :=
  if vocab = 0 ∨ topk = 0 ∨ topk > vocab ∨ matrix.length ≠ (draft.length + 1) * vocab.toNat then
    fail .InvalidArgument "top-K acceptance requires a [k+1,vocab] matrix"
  else topk_loop matrix vocab.toNat topk.toNat draft 0 0

/-! ### The best tokens of a row -/

def logit : Double → ℚ
  | .fin x => x
  | _ => 0

/-- The logits of a row; only rows without infinities and NaN are looked at. -/
def logits (row : List Double) : List ℚ := row.map logit

/-- The best `topk` tokens, by falling logit and then by id. -/
def best_tokens (row : List ℚ) (topk : Nat) : List Nat :=
  ((ranked row.zipIdx).take topk).map Prod.snd

/-- The token plain decoding takes. -/
def argmax_token (row : List ℚ) : Nat := first_argmax (fun i => row.getD i 0) row.length

section Rows

variable {row : List ℚ} {t : Nat}

theorem mem_zipIdx_iff {p : ℚ × Nat} :
    p ∈ row.zipIdx ↔ p.2 < row.length ∧ p = (row.getD p.2 0, p.2) := by
  rw [List.mem_zipIdx_iff_getElem?, List.getD_eq_getElem?_getD]
  constructor
  · intro h
    obtain ⟨hlt, -⟩ := List.getElem?_eq_some_iff.mp h
    exact ⟨hlt, by rw [h]; rfl⟩
  · rintro ⟨hlt, hp⟩
    rw [hp, List.getElem?_eq_getElem hlt]
    rfl

theorem nodup_zipIdx (row : List ℚ) : row.zipIdx.Nodup := by
  refine List.Nodup.of_map Prod.snd ?_
  rw [List.zipIdx_map_snd]
  exact List.nodup_range'

theorem mem_best_tokens_iff (ht : t < row.length) (topk : Nat) :
    t ∈ best_tokens row topk ↔
      row.zipIdx.countP (fun p => Before p (row.getD t 0, t)) < topk := by
  have hmem : (row.getD t 0, t) ∈ ranked row.zipIdx :=
    (ranked_perm _).mem_iff.mpr (mem_zipIdx_iff.mpr ⟨ht, rfl⟩)
  rw [← (ranked_perm row.zipIdx).countP_eq,
    ← mem_take_iff before_irrefl before_asymm (ranked_pairwise (nodup_zipIdx row)) hmem,
    best_tokens, List.mem_map]
  constructor
  · rintro ⟨p, hp, rfl⟩
    have hrow := (ranked_perm _).mem_iff.mp (List.mem_of_mem_take hp)
    rw [← (mem_zipIdx_iff.mp hrow).2]
    exact hp
  · intro h
    exact ⟨_, h, rfl⟩

theorem best_tokens_mono {topk topk' : Nat} (h : topk ≤ topk') :
    best_tokens row topk ⊆ best_tokens row topk' :=
  List.map_subset _ (List.take_subset_take_left _ h)

theorem lt_of_mem_best {topk : Nat} (h : t ∈ best_tokens row topk) : t < row.length := by
  obtain ⟨p, hp, rfl⟩ := List.mem_map.mp h
  have hrow := (ranked_perm _).mem_iff.mp (List.mem_of_mem_take hp)
  exact (mem_zipIdx_iff.mp hrow).1

theorem argmax_token_lt (hrow : 0 < row.length) : argmax_token row < row.length :=
  first_argmax_lt hrow

theorem mem_best_one_iff (hrow : 0 < row.length) :
    t ∈ best_tokens row 1 ↔ t = argmax_token row := by
  by_cases ht : t < row.length
  · rw [mem_best_tokens_iff ht, argmax_token, eq_first_argmax_iff ht, Nat.lt_one_iff,
      List.countP_eq_zero]
    constructor
    · intro h i hi hbefore
      exact h (row.getD i 0, i) (mem_zipIdx_iff.mpr ⟨hi, rfl⟩) (decide_eq_true hbefore)
    · intro h p hp hbefore
      obtain ⟨hlt, hp⟩ := mem_zipIdx_iff.mp hp
      rw [hp] at hbefore
      exact h p.2 hlt (of_decide_eq_true hbefore)
  · refine ⟨fun h => absurd (lt_of_mem_best h) ht, fun h => absurd ?_ ht⟩
    rw [h]
    exact argmax_token_lt hrow

end Rows

/-! ### The loops -/

section Loops

theorem getD_logits (row : List Double) (t : Nat) : (logits row).getD t 0 = logit (row.getD t 0) :=
  List.getD_map row (.fin 0) logit

theorem length_logits (row : List Double) : (logits row).length = row.length := List.length_map _

theorem eq_fin_logit {x : Double} (hx : ¬ x.isfinite = false) : x = .fin (logit x) := by
  cases x with
  | fin q => rfl
  | inf s => exact absurd rfl hx
  | nan => exact absurd rfl hx

theorem better_iff {x : Double} {v : ℚ} {id t : Nat} (hx : x = .fin (logit x)) :
    Double.lt (.fin v) x = true ∨ (Double.eq x (.fin v) = true ∧ id < t) ↔
      Before (logit x, id) (v, t) := by
  rw [before_iff, hx, Double.lt_fin, Double.eq_fin, decide_eq_true_eq, decide_eq_true_eq]
  rfl

/-- The loop over a row counts what is before the draft. -/
theorem count_better_ok {v : ℚ} {t : Nat} {row : List Double} {id better n : Nat}
    (h : count_better (.fin v) t row id better = .ok n) :
    n = better + ((logits row).zipIdx id).countP (fun p => Before p (v, t)) := by
  induction row generalizing id better with
  | nil =>
    injection h with h
    exact h.symm
  | cons x row ih =>
    rw [count_better] at h
    split at h
    · cases h
    · rename_i hfinite
      have hx := eq_fin_logit hfinite
      have hrest := ih h
      rw [logits, List.map_cons, List.zipIdx_cons, List.countP_cons, ← logits, hrest]
      simp only [better_iff hx, decide_eq_true_eq]
      omega

theorem count_better_defined {v : Double} {t : Nat} {row : List Double} (id better : Nat)
    (hrow : ∀ x ∈ row, x.isfinite = true) : ∃ n, count_better v t row id better = .ok n := by
  induction row generalizing id better with
  | nil => exact ⟨better, rfl⟩
  | cons x row ih =>
    rw [count_better, if_neg (by rw [hrow x List.mem_cons_self]; exact Bool.noConfusion)]
    exact ih _ _ fun y hy => hrow y (List.mem_cons_of_mem x hy)

theorem length_matrix_row {matrix : List Double} {vocab j : Nat}
    (h : (j + 1) * vocab ≤ matrix.length) : (matrix_row matrix vocab j).length = vocab := by
  rw [matrix_row, List.length_take, List.length_drop]
  have hmul : (j + 1) * vocab = j * vocab + vocab := Nat.succ_mul j vocab
  omega

/-- The draft at a position is among the best of the row there. -/
def Accepts (matrix : List Double) (vocab topk : Nat) (token : UInt32) (j : Nat) : Prop :=
  token.toNat ∈ best_tokens (logits (matrix_row matrix vocab j)) topk

/-- The loop over the draft passes exactly the tokens before the first that is not accepted. -/
theorem topk_loop_ok {matrix : List Double} {vocab topk : Nat} {draft : List UInt32}
    {j accepted a : Nat} (hlen : (j + draft.length) * vocab ≤ matrix.length)
    (h : topk_loop matrix vocab topk draft j accepted = .ok a) :
    ∃ m ≤ draft.length, a = accepted + m ∧
      (∀ i < m, Accepts matrix vocab topk (draft.getD i 0) (j + i)) ∧
      (m < draft.length → ¬ Accepts matrix vocab topk (draft.getD m 0) (j + m)) := by
  induction draft generalizing j accepted with
  | nil =>
    injection h with h
    exact ⟨0, Nat.le_refl 0, h.symm, fun i hi => absurd hi (Nat.not_lt_zero i),
      fun hlt => absurd hlt (Nat.lt_irrefl 0)⟩
  | cons token draft ih =>
    have hrow : (matrix_row matrix vocab j).length = vocab :=
      length_matrix_row ((Nat.mul_le_mul_right vocab (by simp)).trans hlen)
    rw [topk_loop] at h
    split at h
    · cases h
    · rename_i hvocab
      dsimp only at h
      split at h
      · cases h
      · rename_i hfinite
        have hvalue := eq_fin_logit hfinite
        rw [← getD_logits] at hvalue
        rw [hvalue] at h
        cases hbetter : count_better
            (.fin ((logits (matrix_row matrix vocab j)).getD token.toNat 0)) token.toNat
            (matrix_row matrix vocab j) 0 0 with
        | error e =>
          rw [hbetter] at h
          cases h
        | ok better =>
          rw [hbetter] at h
          dsimp only at h
          have hcount := count_better_ok hbetter
          rw [Nat.zero_add] at hcount
          have hiff : Accepts matrix vocab topk token j ↔ better < topk := by
            rw [hcount]
            exact mem_best_tokens_iff (by rw [length_logits, hrow]; omega) topk
          split at h
          · -- the first token that is not accepted
            rename_i hstop
            injection h with h
            refine ⟨0, Nat.zero_le _, h.symm, fun i hi => absurd hi (Nat.not_lt_zero i),
              fun _ hacc => ?_⟩
            exact absurd (hiff.mp hacc) (Nat.not_lt.mpr hstop)
          · rename_i hgo
            have hlen' : (j + 1 + draft.length) * vocab ≤ matrix.length := by
              rw [List.length_cons] at hlen
              rwa [Nat.add_assoc, Nat.add_comm 1]
            obtain ⟨m, hm, hres, hpass, hstop⟩ := ih hlen' h
            refine ⟨m + 1, Nat.succ_le_succ hm, by omega, fun i hi => ?_, fun hlt => ?_⟩
            · cases i with
              | zero => exact hiff.mpr (Nat.not_le.mp hgo)
              | succ i =>
                have hnext := hpass i (Nat.lt_of_succ_lt_succ hi)
                rwa [Nat.add_right_comm] at hnext
            · have hnext := hstop (Nat.lt_of_succ_lt_succ hlt)
              rwa [Nat.add_right_comm] at hnext

theorem topk_loop_defined {matrix : List Double} {vocab topk : Nat} {draft : List UInt32}
    (j accepted : Nat) (hdraft : ∀ token ∈ draft, token.toNat < vocab)
    (hfinite : ∀ x ∈ matrix, x.isfinite = true) :
    ∃ a, topk_loop matrix vocab topk draft j accepted = .ok a := by
  induction draft generalizing j accepted with
  | nil => exact ⟨accepted, rfl⟩
  | cons token draft ih =>
    have hrow : ∀ x ∈ matrix_row matrix vocab j, x.isfinite = true := fun x hx =>
      hfinite x (List.mem_of_mem_drop (List.mem_of_mem_take hx))
    have hvalue : ¬ ((matrix_row matrix vocab j).getD token.toNat 0).isfinite = false := by
      rw [List.getD_eq_getElem?_getD]
      cases hx : (matrix_row matrix vocab j)[token.toNat]? with
      | none => exact Bool.noConfusion
      | some x =>
        rw [Option.getD_some, hrow x (List.mem_of_getElem? hx)]
        exact Bool.noConfusion
    obtain ⟨better, hbetter⟩ := count_better_defined 0 0 hrow
    rw [topk_loop, if_neg (Nat.not_le.mpr (hdraft token List.mem_cons_self))]
    dsimp only
    rw [if_neg hvalue, hbetter]
    dsimp only
    split
    · exact ⟨accepted, rfl⟩
    · exact ih _ _ fun t ht => hdraft t (List.mem_cons_of_mem token ht)

end Loops

/-! ### The longest prefix -/

section Longest

/-- Counting up to the first failure counts the longest prefix without one. -/
theorem isGreatest_of_first {P : Nat → Prop} {n a : Nat} (ha : a ≤ n) (hpass : ∀ j < a, P j)
    (hstop : a < n → ¬ P a) : IsGreatest {m | m ≤ n ∧ ∀ j < m, P j} a := by
  refine ⟨⟨ha, hpass⟩, ?_⟩
  rintro m ⟨hm, hall⟩
  by_contra hlt
  exact hstop (by omega) (hall a (by omega))

theorem greedy_loop_first (path_tokens argmax : List Int32) (k a : Nat) (tokens : List Int32)
    (ha : a ≤ k) : ∃ m, a ≤ m ∧ m ≤ k ∧ (greedy_loop path_tokens argmax k a tokens).accepted = m ∧
      (∀ j, a ≤ j → j < m → path_tokens.getD j 0 = argmax.getD j 0) ∧
      (m < k → path_tokens.getD m 0 ≠ argmax.getD m 0) := by
  fun_induction greedy_loop path_tokens argmax k a tokens with
  | case1 a tokens hmatch ih =>
    obtain ⟨m, ham, hmk, hres, hpass, hstop⟩ := ih hmatch.1
    refine ⟨m, by omega, hmk, hres, fun j haj hj => ?_, hstop⟩
    by_cases heq : j = a
    · rw [heq]
      exact hmatch.2
    · exact hpass j (by omega) hj
  | case2 a tokens hmatch =>
    exact ⟨a, Nat.le_refl a, ha, rfl, fun j haj hj => absurd hj (by omega),
      fun hlt heq => hmatch ⟨hlt, heq⟩⟩

theorem accept_greedy_longest (path_tokens argmax : List Int32) (k : Nat) :
    IsGreatest {m | m ≤ k ∧ ∀ j < m, path_tokens.getD j 0 = argmax.getD j 0}
      (accept_greedy path_tokens argmax k).accepted := by
  obtain ⟨m, -, hmk, hres, hpass, hstop⟩ := greedy_loop_first path_tokens argmax k 0
    (List.replicate (kPositions + 1) 0) (Nat.zero_le k)
  rw [accept_greedy, hres]
  exact isGreatest_of_first hmk (fun j hj => hpass j (Nat.zero_le j) hj) hstop

variable {draft : List UInt32} {matrix : List Double} {vocab topk : UInt32} {a : Nat}

/-- The lengths of the prefixes whose tokens are all among the best of their rows. -/
def relaxed_prefixes (draft : List UInt32) (matrix : List Double) (vocab topk : Nat) : Set Nat :=
  {n | n ≤ draft.length ∧ ∀ j < n, Accepts matrix vocab topk (draft.getD j 0) j}

/-- A call that is not refused has a whole matrix. -/
theorem accept_topk_prefix_shape (h : accept_topk_prefix draft matrix vocab topk = .ok a) :
    0 < vocab.toNat ∧ matrix.length = (draft.length + 1) * vocab.toNat ∧
      topk_loop matrix vocab.toNat topk.toNat draft 0 0 = .ok a := by
  rw [ accept_topk_prefix] at h
  split at h
  · cases h
  · rename_i hshape
    rw [not_or, not_or, not_or, Classical.not_not] at hshape
    obtain ⟨hvocab, -, -, hlen⟩ := hshape
    refine ⟨Nat.pos_of_ne_zero fun hzero => hvocab ?_, hlen, h⟩
    exact UInt32.toNat_inj.mp hzero

theorem accept_topk_prefix_longest_of_ok
    (h : accept_topk_prefix draft matrix vocab topk = .ok a) :
    IsGreatest (relaxed_prefixes draft matrix vocab.toNat topk.toNat) a := by
  obtain ⟨-, hlen, hloop⟩ := accept_topk_prefix_shape h
  obtain ⟨m, hm, hres, hpass, hstop⟩ := topk_loop_ok
    (by rw [hlen, Nat.zero_add]; exact Nat.mul_le_mul_right _ (Nat.le_succ _)) hloop
  rw [Nat.zero_add] at hres
  subst hres
  exact isGreatest_of_first hm (fun j hj => by simpa using hpass j hj)
    (fun hlt => by simpa using hstop hlt)

theorem relaxed_prefixes_mono {vocab topk topk' : Nat} (h : topk ≤ topk') :
    relaxed_prefixes draft matrix vocab topk ⊆ relaxed_prefixes draft matrix vocab topk' := by
  rintro n ⟨hn, hall⟩
  exact ⟨hn, fun j hj => best_tokens_mono h (hall j hj)⟩

/-- What the greedy acceptance compares the draft with. -/
def argmax_rows (matrix : List Double) (vocab n : Nat) : List Int32 :=
  (List.range n).map fun j =>
    (UInt32.ofNat (argmax_token (logits (matrix_row matrix vocab j)))).toInt32

theorem toInt32_inj {x y : UInt32} : x.toInt32 = y.toInt32 ↔ x = y :=
  ⟨congrArg Int32.toUInt32, congrArg UInt32.toInt32⟩

theorem accepts_one_iff (hvocab : 0 < vocab.toNat) {token : UInt32} {j : Nat}
    (hrow : (j + 1) * vocab.toNat ≤ matrix.length) :
    Accepts matrix vocab.toNat 1 token j ↔ token.toInt32 =
      (UInt32.ofNat (argmax_token (logits (matrix_row matrix vocab.toNat j)))).toInt32 := by
  have hlen : (logits (matrix_row matrix vocab.toNat j)).length = vocab.toNat := by
    rw [length_logits, length_matrix_row hrow]
  have hpos : 0 < (logits (matrix_row matrix vocab.toNat j)).length := by
    rw [hlen]
    exact hvocab
  have hlt : argmax_token (logits (matrix_row matrix vocab.toNat j)) < UInt32.size := by
    have hargmax := argmax_token_lt hpos
    rw [hlen] at hargmax
    exact hargmax.trans vocab.toNat_lt
  rw [Accepts, mem_best_one_iff hpos, toInt32_inj, ← UInt32.toNat_inj,
    UInt32.toNat_ofNat_of_lt' hlt]

theorem relaxed_prefixes_one (hvocab : 0 < vocab.toNat)
    (hlen : matrix.length = (draft.length + 1) * vocab.toNat) :
    relaxed_prefixes draft matrix vocab.toNat 1 = {m | m ≤ draft.length ∧ ∀ j < m,
      (draft.map UInt32.toInt32).getD j 0 =
        (argmax_rows matrix vocab.toNat (draft.length + 1)).getD j 0} := by
  ext m
  refine and_congr_right fun hm => forall_congr' fun j => imp_congr_right fun hj => ?_
  have hrow : (j + 1) * vocab.toNat ≤ matrix.length := by
    rw [hlen]
    exact Nat.mul_le_mul_right _ (by omega)
  have hdraft : (draft.map UInt32.toInt32).getD j 0 = (draft.getD j 0).toInt32 :=
    List.getD_map draft 0 UInt32.toInt32
  have hargmax : (argmax_rows matrix vocab.toNat (draft.length + 1)).getD j 0 =
      (UInt32.ofNat (argmax_token (logits (matrix_row matrix vocab.toNat j)))).toInt32 := by
    rw [argmax_rows, List.getD_eq_getElem _ _ (by simp; omega), List.getElem_map,
      List.getElem_range]
  rw [accepts_one_iff hvocab hrow, hdraft, hargmax]

end Longest

/-- Whatever is drafted and whatever the rows hold: an answer is the length of the longest prefix
    of the draft whose tokens are all among the best of their rows, it does not fall when `topk`
    grows, and at `topk = 1` it is that of the greedy acceptance. A matrix of the right shape
    without infinities and NaN, and a draft from the vocabulary, have an answer. -/
theorem accept_topk_prefix_longest (draft : List UInt32) (matrix : List Double)
    (vocab topk : UInt32) :
    (∀ a, accept_topk_prefix draft matrix vocab topk = .ok a →
      IsGreatest (relaxed_prefixes draft matrix vocab.toNat topk.toNat) a) ∧
    (∀ topk' a a', topk ≤ topk' → accept_topk_prefix draft matrix vocab topk = .ok a →
      accept_topk_prefix draft matrix vocab topk' = .ok a' → a ≤ a') ∧
    (∀ a, topk = 1 → accept_topk_prefix draft matrix vocab topk = .ok a →
      (accept_greedy (draft.map UInt32.toInt32)
        (argmax_rows matrix vocab.toNat (draft.length + 1)) draft.length).accepted = a) ∧
    (topk ≠ 0 → topk ≤ vocab → matrix.length = (draft.length + 1) * vocab.toNat →
      (∀ token ∈ draft, token < vocab) → (∀ x ∈ matrix, x.isfinite = true) →
      ∃ a, accept_topk_prefix draft matrix vocab topk = .ok a) := by
  refine ⟨fun a h => accept_topk_prefix_longest_of_ok h, ?_, ?_, ?_⟩
  · intro topk' a a' hle h h'
    have hmem := (accept_topk_prefix_longest_of_ok h).1
    exact (accept_topk_prefix_longest_of_ok h').2 (relaxed_prefixes_mono hle hmem)
  · rintro a rfl h
    obtain ⟨hvocab, hlen, -⟩ := accept_topk_prefix_shape h
    have hrelaxed : IsGreatest (relaxed_prefixes draft matrix vocab.toNat 1) a :=
      accept_topk_prefix_longest_of_ok h
    rw [relaxed_prefixes_one hvocab hlen] at hrelaxed
    exact (accept_greedy_longest _ _ _).unique hrelaxed
  · intro htopk hle hlen hdraft hfinite
    have hvocab : ∀ token ∈ draft, token.toNat < vocab.toNat := fun token htoken =>
      UInt32.lt_iff_toNat_lt.mp (hdraft token htoken)
    obtain ⟨a, ha⟩ : ∃ a, topk_loop matrix vocab.toNat topk.toNat draft 0 0 = .ok a :=
      topk_loop_defined 0 0 hvocab hfinite
    refine ⟨a, ?_⟩
    rw [ accept_topk_prefix, if_neg, ha]
    rw [not_or, not_or, not_or, Classical.not_not]
    refine ⟨?_, htopk, UInt32.not_lt.mpr hle, hlen⟩
    rintro rfl
    exact htopk (UInt32.le_antisymm hle (UInt32.zero_le))

/-- Two rows of equal logits: the second token of the first row is among its best two. -/
theorem accept_topk_prefix_longest_tied :
    IsGreatest (relaxed_prefixes [1] (List.replicate 4 0) 2 2) 1 :=
  (accept_topk_prefix_longest [1] (List.replicate 4 0) 2 2).1 1 (by decide)

end CachedMoe.Runtime
