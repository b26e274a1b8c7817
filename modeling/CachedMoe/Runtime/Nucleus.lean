import Mathlib.Algebra.Order.Floor.Semiring
import Mathlib.Algebra.Order.Round
import Mathlib.Analysis.SpecialFunctions.Log.Basic
import Mathlib.Data.List.GetD
import CachedMoe.Framework.Ranking

/-! # Top-p sampling from a top set

    A sampled step does not look at the whole row of logits. The kernel returns the rows above
    a bin of the histogram, and what all the others weigh together. With it the weights of
    those returned can be turned into probabilities of the whole vocabulary, and where they
    make up `top_p` of it, the nucleus found among them is the nucleus of the vocabulary. -/

namespace CachedMoe.Runtime

open Ranked

/-! ### The code -/

/-- `TopKLogits::Cand` -/
structure Cand (K : Type) where
  id : Nat
  logit : K

structure TopKLogits (K : Type) where
  cand : List (Cand K)
  max_logit : K
  tail : K
  bin : Nat
  rows : Nat
  overflow : Bool

structure Nucleus (K : Type) [Zero K] where
  ids : List Nat := []
  p : List K := []
  cdf : List K := []
  retained : K := 0
  kept : K := 0
  logsumexp : K := 0
  exact : Bool := false

def kTopKBins : Nat := 256
def kTopKBinsPerLogit : Nat := 16
def kTopKCapPerThread : Nat := 32
def kTopKThreads : Nat := 256

/-- The rows of thread `t`: `for (i = t; i < rows; i += T)`. -/
def thread_rows (rows t : Nat) : List Nat :=
  List.range' t ((rows + (kTopKThreads - 1) - t) / kTopKThreads) kTopKThreads

section Code

variable {K : Type} [Field K] [LinearOrder K]

/-- The loop of `cut` over the candidates and their weights, up to the break. -/
def cut_loop (S top_p : K) : List ((K × Nat) × K) → (n : Nucleus K) → (cum : K) → Nucleus K × K
  | [], n, cum => (n, cum)
  | b :: rest, n, cum =>
    let p := b.2 / S
    let n := { n with ids := n.ids ++ [b.1.2], p := n.p ++ [p] }
    let cum := cum + p
    if top_p < 1 ∧ cum ≥ top_p then (n, cum) else cut_loop S top_p rest n cum

/-- The cumulative sums, renormalised by `cum`. -/
def cdf_loop (cum : K) : List K → (c : K) → List K
  | [], _ => []
  | p :: rest, c => (c + p) / cum :: cdf_loop cum rest (c + p)

def cut (by_ : List (K × Nat)) (w : List K) (S retained lse top_p : K) (whole_vocab : Bool) :
    Nucleus K :=
  let r := cut_loop S top_p (by_.zip w) { retained, logsumexp := lse } 0
  let cdf := cdf_loop r.2 r.1.p 0
  { r.1 with
    kept := r.2
    exact := decide (top_p < 1 ∧ r.2 ≥ top_p) || whole_vocab
    cdf := cdf.set (cdf.length - 1) 1 }

variable (exp log : K → K)

def nucleus_from_topk (tk : TopKLogits K) (temperature top_p : K) : Nucleus K :=
  if tk.overflow = true ∨ tk.cand = [] ∨ ¬ temperature > 0 then {}
  else
    let by_ := ranked (tk.cand.map fun c => (c.logit, c.id))
    let inv_t := 1 / temperature
    let M := tk.max_logit
    let w := by_.map fun b => exp ((b.1 - M) * inv_t)
    let sum := w.sum
    let S := sum + max 0 tk.tail
    cut by_ w S (sum / S) (M * inv_t + log S) top_p
      (decide (tk.rows ≠ 0 ∧ by_.length = tk.rows))

/-- Phases 1 and 2; `-3.0e38f` is `-14791142 * 2^104`. -/
def topk_max (logits : List K) (rows : Nat) : K :=
  (List.range kTopKThreads).foldl (fun M t =>
    (thread_rows rows t).foldl (fun M i => max M (logits.getD i 0)) M)
    (-((14791142 * 2 ^ 104 : Nat) : K))

/-- Phase 4: the smallest bin whose cumulative count reaches `k`. -/
def bin_loop (hist : List Nat) (k : Nat) : (n b cum : Nat) → Nat
  | 0, _, _ => kTopKBins - 1
  | n + 1, b, cum =>
    let cum := cum + hist.getD b 0
    if cum ≥ k then b else bin_loop hist k n (b + 1) cum

/-- Phase 3. -/
def topk_hist [FloorSemiring K] (logits : List K) (rows : Nat) (M : K) : List Nat :=
  (List.range rows).foldl (fun hist i =>
    let fb := (M - logits.getD i 0) * (kTopKBinsPerLogit : K)
    if fb < (kTopKBins : K) then hist.modify ⌊fb⌋₊ (· + 1) else hist)
    (List.replicate kTopKBins 0)

/-- A row is collected by the threads of phase 5. -/
def collected (M : K) (J : Nat) (l : K) : Bool :=
  decide ((M - l) * (kTopKBinsPerLogit : K) < ((J + 1 : Nat) : K))

/-- A candidate of a thread that has `n` of them already. -/
def TopKLogits.push (tk : TopKLogits K) (n : Nat) (c : Cand K) : TopKLogits K :=
  if n < kTopKCapPerThread then { tk with cand := tk.cand ++ [c] } else { tk with overflow := true }

/-- Phase 5 in one thread, with `n` rows collected so far and `acc` for the others. -/
@[grind =] def collect_loop (logits : List K) (M : K) (J : Nat) (inv_t : K) :
    List Nat → (n : Nat) → (acc : K) → (tk : TopKLogits K) → TopKLogits K × K
  | [], _, acc, tk => (tk, acc)
  | i :: rest, n, acc, tk =>
    let l := logits.getD i 0
    if collected M J l = true then
      collect_loop logits M J inv_t rest (n + 1) acc (tk.push n ⟨i, l⟩)
    else collect_loop logits M J inv_t rest n (acc + exp (-(M - l) * inv_t)) tk

/-- Phase 5 over the threads. -/
def thread_loop (logits : List K) (rows : Nat) (M : K) (J : Nat) (inv_t : K) :
    List Nat → (tail : K) → (tk : TopKLogits K) → TopKLogits K × K
  | [], tail, tk => (tk, tail)
  | t :: threads, tail, tk =>
    let r := collect_loop exp logits M J inv_t (thread_rows rows t) 0 0 tk
    thread_loop logits rows M J inv_t threads (tail + r.2) r.1

def emulate_topk [FloorSemiring K] (logits : List K) (k : Nat) (temperature : K) : TopKLogits K :=
  let rows := logits.length % 2 ^ 32
  let M := topk_max logits rows
  let J := bin_loop (topk_hist logits rows M) k kTopKBins 0 0
  let r := thread_loop exp logits rows M J (1 / temperature) (List.range kTopKThreads) 0
    { cand := [], max_logit := M, tail := 0, bin := J, rows, overflow := false }
  { r.1 with tail := r.2 }

end Code

/-! ### The nucleus of a vocabulary -/

/-- A row of logits; token ids are 32-bit numbers. -/
structure LogitRow where
  logits : List ℝ
  size_lt : logits.length < 2 ^ 32

/-- The logits of the rows `is`, with the rows as token ids. -/
def tokens {K : Type} [Zero K] (logits : List K) (is : List Nat) : List (K × Nat) :=
  is.map fun i => (logits.getD i 0, i)

def vocabulary {K : Type} [Zero K] (logits : List K) : List (K × Nat) :=
  tokens logits (List.range logits.length)

/-- The nucleus of the whole row; a token that weighs next to nothing is not sorted in. `-infinity`
    is below every logit. -/
def nucleus_from_full {K : Type} [Field K] [LinearOrder K] (exp log : K → K) (logits : List K)
    (temperature top_p : K) : Nucleus K :=
  if logits = [] ∨ ¬ temperature > 0 then {}
  else
    let inv_t := 1 / temperature
    let M := logits.foldl max (logits.headD 0)
    let S := (logits.map fun v => exp ((v - M) * inv_t)).sum
    let by_ := ranked ((vocabulary logits).filter fun b =>
      decide (top_p ≥ 1 ∨ exp ((b.1 - M) * inv_t) ≥ S * (1 / ((10 ^ 12 : Nat) : K))))
    let w := by_.map fun b => exp ((b.1 - M) * inv_t)
    { cut by_ w S 1 (M * inv_t + log S) top_p true with exact := true }

/-- The probability of a token with logit `l`. -/
noncomputable def softmax (logits : List ℝ) (temperature l : ℝ) : ℝ :=
  Real.exp (l / temperature) /
    ((vocabulary logits).map fun b => Real.exp (b.1 / temperature)).sum

/-- The reference: by falling logit and then by id, up to the first token with which the mass
    reaches `top_p`. -/
noncomputable def full_nucleus (logits : List ℝ) (temperature top_p : ℝ) : List Nat :=
  let full := ranked (vocabulary logits)
  (full.take (reach (fun b => softmax logits temperature b.1) top_p full)).map Prod.snd

/-! ### What the threads collect -/

section Threads

variable {rows t i : Nat}

theorem mem_thread_rows (ht : t < kTopKThreads) :
    i ∈ thread_rows rows t ↔ i < rows ∧ i % kTopKThreads = t := by
  simp only [kTopKThreads] at ht
  simp only [thread_rows, List.mem_range', kTopKThreads]
  constructor
  · rintro ⟨j, hj, rfl⟩
    omega
  · rintro ⟨hi, rfl⟩
    exact ⟨i / 256, by omega, by omega⟩

theorem nodup_thread_rows : (thread_rows rows t).Nodup := by
  rw [thread_rows]
  exact List.nodup_range' kTopKThreads (by decide)

/-- Every row is in exactly one thread. -/
theorem threads_perm (rows : Nat) :
    ((List.range kTopKThreads).flatMap (thread_rows rows)).Perm (List.range rows) := by
  have hnodup : ((List.range kTopKThreads).flatMap (thread_rows rows)).Nodup := by
    rw [List.nodup_flatMap]
    refine ⟨fun t _ => nodup_thread_rows, List.nodup_range.imp_of_mem ?_⟩
    intro t t' ht ht' hne i hi hi'
    rw [mem_thread_rows (List.mem_range.mp ht)] at hi
    rw [mem_thread_rows (List.mem_range.mp ht')] at hi'
    exact hne (hi.2.symm.trans hi'.2)
  rw [List.perm_ext_iff_of_nodup hnodup List.nodup_range]
  intro i
  rw [List.mem_flatMap, List.mem_range]
  constructor
  · rintro ⟨t, ht, hi⟩
    exact ((mem_thread_rows (List.mem_range.mp ht)).mp hi).1
  · intro hi
    have ht : i % kTopKThreads < kTopKThreads := Nat.mod_lt _ (by decide)
    exact ⟨_, List.mem_range.mpr ht, (mem_thread_rows ht).mpr ⟨hi, rfl⟩⟩

/-- Together the threads see every row once. -/
theorem vocabulary_perm {K : Type} [Zero K] (logits : List K) :
    (tokens logits ((List.range kTopKThreads).flatMap (thread_rows logits.length))).Perm
      (vocabulary logits) :=
  (threads_perm logits.length).map _

end Threads

section Collect

variable {K : Type} [Field K] [LinearOrder K] {exp : K → K} {logits : List K} {M inv_t : K}
  {J : Nat}

/-- What a token weighs against one with the logit `M`. -/
def weight (exp : K → K) (M inv_t : K) (b : K × Nat) : K := exp ((b.1 - M) * inv_t)

def candidate (M : K) (J : Nat) (b : K × Nat) : Bool := collected M J b.1

/-- The candidates as pairs of a logit and an id. -/
def TopKLogits.pairs (tk : TopKLogits K) : List (K × Nat) := tk.cand.map fun c => (c.logit, c.id)

/-- What has become of the rows `is`: without an overflow the candidates among them have come to
    those of `tk`, and the weights of all the others have come to `acc`. -/
structure Collects (exp : K → K) (logits : List K) (M inv_t : K) (J : Nat) (is : List Nat) (acc : K)
    (tk : TopKLogits K) (r : TopKLogits K × K) : Prop where
  max_logit : r.1.max_logit = tk.max_logit
  bin : r.1.bin = tk.bin
  rows : r.1.rows = tk.rows
  overflow : r.1.overflow = false → tk.overflow = false
  pairs : r.1.overflow = false → r.1.pairs = tk.pairs ++ (tokens logits is).filter (candidate M J)
  tail : r.2 = acc + (((tokens logits is).filter (! candidate M J ·)).map (weight exp M inv_t)).sum

theorem Collects.nil {acc : K} {tk : TopKLogits K} :
    Collects exp logits M inv_t J [] acc tk (tk, acc) :=
  ⟨rfl, rfl, rfl, id, fun _ => (List.append_nil _).symm, (add_zero acc).symm⟩

theorem Collects.append {is is' : List Nat} {acc : K} {tk : TopKLogits K}
    {r r' : TopKLogits K × K} (h : Collects exp logits M inv_t J is acc tk r)
    (h' : Collects exp logits M inv_t J is' r.2 r.1 r') :
    Collects exp logits M inv_t J (is ++ is') acc tk r' where
  max_logit := h'.max_logit.trans h.max_logit
  bin := h'.bin.trans h.bin
  rows := h'.rows.trans h.rows
  overflow hover := h.overflow (h'.overflow hover)
  pairs hover := by
    rw [h'.pairs hover, h.pairs (h'.overflow hover), tokens, tokens, tokens, List.map_append,
      List.filter_append, List.append_assoc]
  tail := by
    rw [h'.tail, h.tail, tokens, tokens, tokens, List.map_append, List.filter_append,
      List.map_append, List.sum_append, add_assoc]

/-- A candidate is kept or lets the thread overflow. -/
theorem Collects.push {i n : Nat} {acc : K} {tk : TopKLogits K}
    (hc : collected M J (logits.getD i 0) = true) :
    Collects exp logits M inv_t J [i] acc tk (tk.push n ⟨i, logits.getD i 0⟩, acc) := by
  have hcand : (tokens logits [i]).filter (candidate M J) = [(logits.getD i 0, i)] :=
    List.filter_cons_of_pos hc
  have hother : (tokens logits [i]).filter (! candidate M J ·) = [] :=
    List.filter_cons_of_neg (by rw [candidate, hc]; exact Bool.false_ne_true)
  rw [TopKLogits.push]
  split
  · refine ⟨rfl, rfl, rfl, id, fun _ => ?_, ?_⟩
    · rw [hcand, TopKLogits.pairs, List.map_append]
      rfl
    · rw [hother]
      exact (add_zero acc).symm
  · refine ⟨rfl, rfl, rfl, fun h => Bool.noConfusion h, fun h => Bool.noConfusion h, ?_⟩
    rw [hother]
    exact (add_zero acc).symm

theorem Collects.other {i : Nat} {acc : K} {tk : TopKLogits K}
    (hc : collected M J (logits.getD i 0) = false) :
    Collects exp logits M inv_t J [i] acc tk
      (tk, acc + exp (-(M - logits.getD i 0) * inv_t)) := by
  have hcand : (tokens logits [i]).filter (candidate M J) = [] :=
    List.filter_cons_of_neg (by rw [candidate, hc]; exact Bool.false_ne_true)
  have hother : (tokens logits [i]).filter (! candidate M J ·) = [(logits.getD i 0, i)] :=
    List.filter_cons_of_pos (by rw [candidate, hc]; rfl)
  refine ⟨rfl, rfl, rfl, id, fun _ => ?_, ?_⟩
  · rw [hcand, List.append_nil]
  · rw [hother, List.map_singleton, List.sum_singleton, weight, neg_sub]

theorem collect_loop_collects (is : List Nat) (n : Nat) (acc : K) (tk : TopKLogits K) :
    Collects exp logits M inv_t J is acc tk (collect_loop exp logits M J inv_t is n acc tk) := by
  induction is generalizing n acc tk with
  | nil => exact Collects.nil
  | cons i is ih =>
    rw [collect_loop]
    cases hc : collected M J (logits.getD i 0) with
    | true => exact (Collects.push hc).append (ih (n + 1) acc _)
    | false => exact (Collects.other hc).append (ih n _ tk)

theorem Collects.add {is : List Nat} {tk : TopKLogits K} {r : TopKLogits K × K}
    (h : Collects exp logits M inv_t J is 0 tk r) (tail : K) :
    Collects exp logits M inv_t J is tail tk (r.1, tail + r.2) where
  max_logit := h.max_logit
  bin := h.bin
  rows := h.rows
  overflow := h.overflow
  pairs := h.pairs
  tail := by rw [h.tail, zero_add]

theorem thread_loop_collects {rows : Nat} (threads : List Nat) (tail : K) (tk : TopKLogits K) :
    Collects exp logits M inv_t J (threads.flatMap (thread_rows rows)) tail tk
      (thread_loop exp logits rows M J inv_t threads tail tk) := by
  induction threads generalizing tail tk with
  | nil => exact Collects.nil
  | cons t threads ih =>
    have hthread := @collect_loop_collects K _ _ exp logits M inv_t J (thread_rows rows t) 0 0 tk
    rw [List.flatMap_cons]
    exact (hthread.add tail).append (ih _ _)

end Collect

section TopSet

variable {K : Type} [Field K] [LinearOrder K] {exp : K → K} {logits : List K} {inv_t : K}
  {tk : TopKLogits K}

/-- What is known of the vocabulary: without an overflow the candidates are its tokens in the
    first bins, and the tail is what all the others weigh. -/
structure TopSet (exp : K → K) (logits : List K) (inv_t : K) (tk : TopKLogits K) : Prop where
  max_logit : tk.max_logit = topk_max logits logits.length
  rows : tk.rows = logits.length
  pairs : tk.overflow = false →
    tk.pairs.Perm ((vocabulary logits).filter (candidate tk.max_logit tk.bin))
  tail : tk.tail = (((vocabulary logits).filter (! candidate tk.max_logit tk.bin ·)).map
    (weight exp tk.max_logit inv_t)).sum

theorem emulate_topk_top_set [FloorSemiring K] (hsize : logits.length < 2 ^ 32) (k : Nat)
    (temperature : K) :
    TopSet exp logits (1 / temperature) (emulate_topk exp logits k temperature) := by
  simp only [emulate_topk, Nat.mod_eq_of_lt hsize]
  generalize hM : topk_max logits logits.length = M
  generalize bin_loop (topk_hist logits logits.length M) k kTopKBins 0 0 = J
  have h := @thread_loop_collects K _ _ exp logits M (1 / temperature) J logits.length
    (List.range kTopKThreads) 0 ⟨[], M, 0, J, logits.length, false⟩
  generalize thread_loop exp logits logits.length M J (1 / temperature) (List.range kTopKThreads) 0
    ⟨[], M, 0, J, logits.length, false⟩ = r at h ⊢
  have hperm := vocabulary_perm logits
  refine ⟨h.max_logit.trans hM.symm, h.rows, fun hover => ?_, ?_⟩
  · have hpairs : r.1.pairs = [] ++ _ := h.pairs hover
    rw [List.nil_append] at hpairs
    simp only [h.max_logit, h.bin]
    exact (List.Perm.of_eq hpairs).trans (hperm.filter _)
  · simp only [h.max_logit, h.bin, h.tail, zero_add]
    exact ((hperm.filter _).map _).sum_eq

theorem emulate_topk_bin [FloorSemiring K] (k : Nat) (temperature : K) :
    (emulate_topk exp logits k temperature).bin =
      bin_loop (topk_hist logits (logits.length % 2 ^ 32)
        (topk_max logits (logits.length % 2 ^ 32))) k kTopKBins 0 0 := by
  simp only [emulate_topk]
  generalize logits.length % 2 ^ 32 = rows
  generalize topk_max logits rows = M
  generalize bin_loop (topk_hist logits rows M) k kTopKBins 0 0 = J
  exact (@thread_loop_collects K _ _ exp logits M (1 / temperature) J rows (List.range kTopKThreads)
    0 ⟨[], M, 0, J, rows, false⟩).bin

theorem collect_loop_overflow {M : K} {J : Nat} (is : List Nat) {n : Nat}
    (hn : n + is.length ≤ kTopKCapPerThread) (acc : K) (tk : TopKLogits K) :
    (collect_loop exp logits M J inv_t is n acc tk).1.overflow = tk.overflow := by
  induction is generalizing n acc tk with
  | nil => rfl
  | cons i is ih =>
    rw [List.length_cons] at hn
    rw [collect_loop]
    split
    · rw [ih (by omega), TopKLogits.push, if_pos (by omega)]
    · exact ih (by omega) _ tk

theorem thread_loop_overflow {M : K} {J rows : Nat}
    (hrows : rows ≤ kTopKCapPerThread * kTopKThreads) (threads : List Nat) (tail : K)
    (tk : TopKLogits K) :
    (thread_loop exp logits rows M J inv_t threads tail tk).1.overflow = tk.overflow := by
  induction threads generalizing tail tk with
  | nil => rfl
  | cons t threads ih =>
    have hlen : 0 + (thread_rows rows t).length ≤ kTopKCapPerThread := by
      rw [thread_rows, List.length_range']
      simp only [kTopKCapPerThread, kTopKThreads] at hrows ⊢
      omega
    rw [thread_loop, ih]
    exact collect_loop_overflow _ hlen 0 tk

/-- A small vocabulary does not overflow. -/
theorem emulate_topk_overflow [FloorSemiring K]
    (hsize : logits.length ≤ kTopKCapPerThread * kTopKThreads) (k : Nat) (temperature : K) :
    (emulate_topk exp logits k temperature).overflow = false :=
  thread_loop_overflow ((Nat.mod_le _ _).trans hsize) _ _ _

end TopSet

/-! ### The cut -/

section Cut

variable {K : Type} [Field K] [LinearOrder K] {S top_p : K}

/-- How many are taken before the loop ends, and why it does. -/
theorem cut_loop_spec (l : List ((K × Nat) × K)) (hl : l ≠ []) (n : Nucleus K) (cum : K) :
    ∃ k < l.length,
      (cut_loop S top_p l n cum).1.ids = n.ids ++ (l.take (k + 1)).map (fun b => b.1.2) ∧
      (cut_loop S top_p l n cum).2 = cum + front_weight (fun b => b.2 / S) l (k + 1) ∧
      (∀ m < k, ¬ (top_p < 1 ∧ top_p ≤ cum + front_weight (fun b => b.2 / S) l (m + 1))) ∧
      (k + 1 < l.length → top_p < 1 ∧ top_p ≤ (cut_loop S top_p l n cum).2) := by
  induction l generalizing n cum with
  | nil => exact absurd rfl hl
  | cons b l ih =>
    have hone : front_weight (fun b : (K × Nat) × K => b.2 / S) (b :: l) 1 = b.2 / S := by
      rw [front_weight_succ]
      exact add_zero _
    rw [cut_loop]
    by_cases hstop : top_p < 1 ∧ cum + b.2 / S ≥ top_p
    · rw [if_pos hstop]
      refine ⟨0, Nat.succ_pos _, rfl, ?_, fun m hm => absurd hm (Nat.not_lt_zero m), fun _ => hstop⟩
      rw [hone]
    · rw [if_neg hstop]
      cases l with
      | nil =>
        refine ⟨0, Nat.one_pos, rfl, ?_, fun m hm => absurd hm (Nat.not_lt_zero m),
          fun h => absurd h (Nat.lt_irrefl 1)⟩
        rw [hone]
        rfl
      | cons b' l =>
        obtain ⟨k, hk, hids, hcum, hbefore, hend⟩ := ih (List.cons_ne_nil b' l)
          { n with ids := n.ids ++ [b.1.2], p := n.p ++ [b.2 / S] } (cum + b.2 / S)
        refine ⟨k + 1, Nat.succ_lt_succ hk, ?_, ?_, ?_, ?_⟩
        · rw [hids, List.append_assoc]
          rfl
        · rw [hcum, front_weight_succ (k + 1), add_assoc]
        · intro m hm
          cases m with
          | zero => rw [hone]; exact hstop
          | succ m =>
            rw [front_weight_succ (m + 1), ← add_assoc]
            exact hbefore m (Nat.lt_of_succ_lt_succ hm)
        · intro h
          exact hend (Nat.lt_of_succ_lt_succ h)

section Front

variable {full : List (K × Nat)} {w : K × Nat → K} {m : Nat} {retained lse : K} {whole : Bool}

/-- A cut of the front `m` of a list takes `k + 1` of it. -/
theorem cut_spec (hm : m ≤ full.length) (hfront : full.take m ≠ []) : ∃ k < m,
    let n := cut (full.take m) ((full.take m).map w) S retained lse top_p whole
    n.ids = (full.take (k + 1)).map Prod.snd ∧
    n.kept = front_weight (fun b => w b / S) full (k + 1) ∧
    (∀ n < k, ¬ (top_p < 1 ∧ top_p ≤ front_weight (fun b => w b / S) full (n + 1))) ∧
    (k + 1 < m → top_p < 1 ∧ top_p ≤ front_weight (fun b => w b / S) full (k + 1)) := by
  have hlen : (full.take m).length = m := List.length_take_of_le hm
  have hzip : (full.take m).zip ((full.take m).map w) = (full.take m).map fun b => (b, w b) := by
    rw [List.map_prod_left_eq_zip]
  have hweight : ∀ n ≤ m, front_weight (fun b : (K × Nat) × K => b.2 / S)
      ((full.take m).map fun b => (b, w b)) n = front_weight (fun b => w b / S) full n := by
    intro n hn
    rw [front_weight, ← List.map_take, List.map_map, List.take_take, Nat.min_eq_left hn]
    rfl
  obtain ⟨k, hk, hids, hcum, hbefore, hend⟩ := @cut_loop_spec K _ _ S top_p
    ((full.take m).map fun b => (b, w b)) (mt List.map_eq_nil_iff.mp hfront)
    { retained, logsumexp := lse } 0
  rw [List.length_map, hlen] at hk hend
  rw [zero_add, hweight (k + 1) hk] at hcum
  refine ⟨k, hk, ?_, ?_, fun n hn => ?_, fun h => hcum ▸ hend h⟩
  · have hcut : (cut (full.take m) ((full.take m).map w) S retained lse top_p whole).ids =
        (cut_loop S top_p ((full.take m).zip ((full.take m).map w))
          { retained, logsumexp := lse } 0).1.ids := rfl
    rw [hcut, hzip, hids, ← List.map_take, List.map_map, List.take_take, Nat.min_eq_left hk]
    rfl
  · rw [← hcum, ← hzip]
    rfl
  · have hn' := hbefore n hn
    rw [zero_add, hweight (n + 1) (by omega)] at hn'
    exact hn'

/-- A front that weighs enough is enough. -/
theorem cut_exact (hm : m ≤ full.length) (hfront : full.take m ≠ []) (htop : top_p < 1)
    (hsum : top_p ≤ front_weight (fun b => w b / S) full m) :
    (cut (full.take m) ((full.take m).map w) S retained lse top_p whole).exact = true := by
  obtain ⟨k, hk, -, hkept, -, hend⟩ := @cut_spec K _ _ S top_p full w m retained lse whole hm hfront
  refine Bool.or_eq_true_iff.mpr (.inl (decide_eq_true (p := _ ∧ _) ⟨htop, hkept.ge.trans' ?_⟩))
  by_cases hlast : k + 1 < m
  · exact (hend hlast).2
  · rw [show k + 1 = m by omega]
    exact hsum

/-- A cut of the front `m` of a ranked vocabulary that says it is exact is the cut of it all. -/
theorem cut_ids [IsOrderedCancelAddMonoid K] (hm : m ≤ full.length) (hfront : full.take m ≠ [])
    (hpos : ∀ b ∈ full, 0 < w b / S) (hone : (full.map fun b => w b / S).sum = 1)
    (hwhole : whole = true → m = full.length)
    (hexact : (cut (full.take m) ((full.take m).map w) S retained lse top_p whole).exact = true) :
    (cut (full.take m) ((full.take m).map w) S retained lse top_p whole).ids =
      (full.take (reach (fun b => w b / S) top_p full)).map Prod.snd := by
  obtain ⟨k, hk, hids, hkept, hbefore, hend⟩ :=
    @cut_spec K _ _ S top_p full w m retained lse whole hm hfront
  rw [hids]
  congr 2
  symm
  by_cases hreach : top_p < 1 ∧ top_p ≤ front_weight (fun b => w b / S) full (k + 1)
  · refine reach_eq (hk.trans_le hm) hreach.2 fun n hn => ?_
    exact not_le.mp fun h => hbefore n hn ⟨hreach.1, h⟩
  · -- not enough anywhere: then the whole vocabulary was looked at
    have hlast : k + 1 = m := Nat.le_antisymm hk (not_lt.mp fun h => hreach (hend h))
    have hall : m = full.length := by
      refine hwhole ((Bool.or_eq_true_iff.mp hexact).resolve_left fun h => hreach ?_)
      rw [← hkept]
      exact of_decide_eq_true h
    rw [hlast, hall]
    refine reach_eq_length fun n hn => ?_
    by_cases hp : top_p < 1
    · exact not_le.mp fun h => hbefore n (by omega) ⟨hp, h⟩
    · exact (front_weight_lt hpos hn).trans_le (hone.trans_le (not_lt.mp hp))

end Front

end Cut

/-! ### The top set is enough -/

section Exact

theorem length_vocabulary {K : Type} [Zero K] (logits : List K) :
    (vocabulary logits).length = logits.length := by
  rw [vocabulary, tokens, List.length_map, List.length_range]

theorem map_vocabulary {K : Type} [Zero K] (logits : List K) :
    (vocabulary logits).map Prod.fst = logits := by
  rw [vocabulary, tokens, List.map_map]
  refine List.ext_getElem (by rw [List.length_map, List.length_range]) fun i _ hi => ?_
  rw [List.getElem_map, List.getElem_range]
  exact List.getD_eq_getElem _ _ hi

theorem nodup_vocabulary {K : Type} [Zero K] (logits : List K) : (vocabulary logits).Nodup := by
  refine List.Nodup.of_map Prod.snd ?_
  rw [vocabulary, tokens, List.map_map]
  exact (List.map_id _).symm ▸ List.nodup_range

variable {K : Type} [Field K] [LinearOrder K]

theorem candidate_up [IsStrictOrderedRing K] {M : K} {J : Nat} {a b : K × Nat} (hab : Before a b)
    (hb : candidate M J b = true) : candidate M J a = true := by
  have hle : b.1 ≤ a.1 := (before_iff.mp hab).elim le_of_lt fun h => h.1.ge
  have hlt : (M - b.1) * (kTopKBinsPerLogit : K) < ((J + 1 : Nat) : K) := of_decide_eq_true hb
  refine decide_eq_true (lt_of_le_of_lt ?_ hlt)
  exact mul_le_mul_of_nonneg_right (sub_le_sub_left hle M) (Nat.cast_nonneg _)

theorem ranked_pairs [IsStrictOrderedRing K] {exp : K → K} {logits : List K} {inv_t : K}
    {tk : TopKLogits K} (h : TopSet exp logits inv_t tk) (hover : tk.overflow = false) :
    ranked tk.pairs = (ranked (vocabulary logits)).take
      ((ranked (vocabulary logits)).countP (candidate tk.max_logit tk.bin)) := by
  exact ranked_front (nodup_vocabulary logits) (h.pairs hover) fun a b => candidate_up

end Exact

section Softmax

variable {logits : List ℝ} {temperature : ℝ} {tk : TopKLogits ℝ}

/-- The candidates' weights and the tail make up the normaliser of the vocabulary. -/
theorem normaliser_eq {inv_t : ℝ} (h : TopSet Real.exp logits inv_t tk)
    (hover : tk.overflow = false) :
    ((ranked tk.pairs).map (weight Real.exp tk.max_logit inv_t)).sum + max 0 tk.tail =
      ((vocabulary logits).map (weight Real.exp tk.max_logit inv_t)).sum := by
  have htail : 0 ≤ tk.tail := by
    rw [h.tail]
    refine List.sum_nonneg fun x hx => ?_
    obtain ⟨b, -, rfl⟩ := List.mem_map.mp hx
    exact (Real.exp_pos _).le
  have hcand := (ranked_perm _).trans (h.pairs hover)
  have hall := List.filter_append_perm (candidate tk.max_logit tk.bin) (vocabulary logits)
  rw [max_eq_right htail, (hcand.map _).sum_eq, h.tail, ← List.sum_append, ← List.map_append,
    (hall.map _).sum_eq]

/-- A weight against any logit `M` over the weights of all is the probability. -/
theorem weight_div_eq (M : ℝ) (b : ℝ × Nat) :
    weight Real.exp M (1 / temperature) b /
        ((vocabulary logits).map (weight Real.exp M (1 / temperature))).sum =
      softmax logits temperature b.1 := by
  have hscale : ∀ c : ℝ × Nat, weight Real.exp M (1 / temperature) c =
      Real.exp (c.1 / temperature) * Real.exp (-(M / temperature)) := by
    intro c
    rw [weight, ← Real.exp_add]
    congr 1
    ring
  have hsum : ((vocabulary logits).map (weight Real.exp M (1 / temperature))).sum =
      ((vocabulary logits).map fun c => Real.exp (c.1 / temperature)).sum *
        Real.exp (-(M / temperature)) := by
    rw [← List.sum_map_mul_right]
    exact congrArg (fun f => ((vocabulary logits).map f).sum) (funext hscale)
  rw [softmax, hsum, hscale, mul_div_mul_right _ _ (Real.exp_ne_zero _)]

theorem exp_sum_pos {l : List (ℝ × Nat)} (hl : l ≠ []) (f : ℝ × Nat → ℝ) :
    0 < (l.map fun b => Real.exp (f b)).sum := by
  refine List.sum_pos _ ?_ (mt List.map_eq_nil_iff.mp hl)
  intro x hx
  obtain ⟨b, -, rfl⟩ := List.mem_map.mp hx
  exact Real.exp_pos _

theorem softmax_pos (hlogits : vocabulary logits ≠ []) (l : ℝ) :
    0 < softmax logits temperature l :=
  div_pos (Real.exp_pos _) (exp_sum_pos hlogits _)

theorem softmax_sum (hlogits : vocabulary logits ≠ []) :
    ((vocabulary logits).map fun b => softmax logits temperature b.1).sum = 1 := by
  simp only [softmax, div_eq_mul_inv]
  rw [List.sum_map_mul_right]
  exact mul_inv_cancel₀ (exp_sum_pos hlogits _).ne'

/-- A cut of a front of the ranked vocabulary, weighed against any logit `M`, is the nucleus
    where it says so. -/
theorem cut_front_ids {M retained lse top_p : ℝ} {whole : Bool} {m : Nat}
    (hm : m ≤ (ranked (vocabulary logits)).length) (hne : (ranked (vocabulary logits)).take m ≠ [])
    (hwhole : whole = true → m = (ranked (vocabulary logits)).length)
    (hexact : (cut ((ranked (vocabulary logits)).take m)
      (((ranked (vocabulary logits)).take m).map (weight Real.exp M (1 / temperature)))
      ((vocabulary logits).map (weight Real.exp M (1 / temperature))).sum
      retained lse top_p whole).exact = true) :
    (cut ((ranked (vocabulary logits)).take m)
      (((ranked (vocabulary logits)).take m).map (weight Real.exp M (1 / temperature)))
      ((vocabulary logits).map (weight Real.exp M (1 / temperature))).sum
      retained lse top_p whole).ids = full_nucleus logits temperature top_p := by
  have hlogits : vocabulary logits ≠ [] := by
    intro hnil
    rw [hnil] at hne
    exact hne List.take_nil
  have hprob : (fun b => weight Real.exp M (1 / temperature) b /
      ((vocabulary logits).map (weight Real.exp M (1 / temperature))).sum) =
      fun b => softmax logits temperature b.1 := funext (weight_div_eq M)
  rw [full_nucleus, ← hprob]
  refine cut_ids hm hne (fun b _ => ?_) ?_ hwhole hexact
  · rw [weight_div_eq]
    exact softmax_pos hlogits b.1
  · rw [hprob, ((ranked_perm _).map _).sum_eq]
    exact softmax_sum hlogits

/-- `n` elements that weigh at most `ε` each are not missed by more than `n * ε`. -/
theorem sum_filter_ge {α : Type} {f : α → ℝ} {p : α → Bool} {ε : ℝ} {l : List α} (hε : 0 ≤ ε)
    (hsmall : ∀ b ∈ l, p b = false → f b ≤ ε) :
    (l.map f).sum - l.length * ε ≤ ((l.filter p).map f).sum := by
  induction l with
  | nil => simp
  | cons b l ih =>
    have ih := ih fun c hc => hsmall c (List.mem_cons_of_mem b hc)
    rw [List.map_cons, List.sum_cons, List.length_cons, Nat.cast_succ, add_mul, one_mul]
    cases hp : p b with
    | true =>
      rw [List.filter_cons_of_pos hp, List.map_cons, List.sum_cons]
      linarith
    | false =>
      rw [List.filter_cons_of_neg (by simp [hp])]
      linarith [hsmall b List.mem_cons_self hp]

/-- Unless `top_p` is closer to one than what is not sorted in can weigh, the nucleus from the
    whole row is that of the vocabulary. -/
theorem nucleus_from_full_ids (row : LogitRow) {temperature top_p : ℝ} (htemp : temperature > 0)
    (hlogits : row.logits ≠ [])
    (htop : top_p ≥ 1 ∨ top_p ≤ 1 - row.logits.length * (1 / ((10 ^ 12 : Nat) : ℝ))) :
    (nucleus_from_full Real.exp Real.log row.logits temperature top_p).ids =
      full_nucleus row.logits temperature top_p := by
  have hvocabulary : vocabulary row.logits ≠ [] := by
    rw [← List.length_pos_iff, length_vocabulary]
    exact List.length_pos_iff.mpr hlogits
  have hrun : ¬ (row.logits = [] ∨ ¬ temperature > 0) := by
    rintro (h | h)
    · exact hlogits h
    · exact h htemp
  rw [nucleus_from_full, if_neg hrun]
  generalize row.logits.foldl max (row.logits.headD 0) = M
  have hS : (row.logits.map fun v => Real.exp ((v - M) * (1 / temperature))).sum =
      ((vocabulary row.logits).map (weight Real.exp M (1 / temperature))).sum := by
    conv_lhs => rw [← map_vocabulary row.logits, List.map_map]
    rfl
  dsimp only
  rw [hS]
  have hpos : 0 < ((vocabulary row.logits).map (weight Real.exp M (1 / temperature))).sum :=
    exp_sum_pos hvocabulary _
  generalize hp : (fun b : ℝ × Nat => decide (top_p ≥ 1 ∨
    Real.exp ((b.1 - M) * (1 / temperature)) ≥
      ((vocabulary row.logits).map (weight Real.exp M (1 / temperature))).sum *
        (1 / ((10 ^ 12 : Nat) : ℝ)))) = p
  -- what is sorted in is a front of the ranked vocabulary
  have hup : ∀ a b, Before a b → p b = true → p a = true := by
    intro a b hab hb
    rw [← hp] at hb ⊢
    refine decide_eq_true ((of_decide_eq_true hb).imp_right fun h => h.le.trans ?_)
    have hle : b.1 ≤ a.1 := (before_iff.mp hab).elim le_of_lt fun h => h.1.ge
    exact Real.exp_le_exp.mpr (mul_le_mul_of_nonneg_right (sub_le_sub_right hle M)
      (one_div_pos.mpr htemp).le)
  rw [ranked_front (nodup_vocabulary row.logits) (.refl _) hup]
  -- and has nearly all of the mass
  have hmass : 1 - row.logits.length * (1 / ((10 ^ 12 : Nat) : ℝ)) ≤
      front_weight (fun b => softmax row.logits temperature b.1) (ranked (vocabulary row.logits))
        ((ranked (vocabulary row.logits)).countP p) := by
    rw [front_weight, ← filter_eq_take (ranked_pairwise (nodup_vocabulary row.logits)) hup,
      (((ranked_perm _).filter p).map _).sum_eq, ← length_vocabulary]
    refine (sub_le_sub_right (softmax_sum hvocabulary).ge _).trans
      (sum_filter_ge (by positivity) fun b _ hb => ?_)
    rw [← hp] at hb
    rw [← weight_div_eq M, div_le_iff₀ hpos, mul_comm]
    exact (not_le.mp fun h => of_decide_eq_false hb (.inr h)).le
  have hle : (ranked (vocabulary row.logits)).countP p ≤ _ := List.countP_le_length
  have hne : (ranked (vocabulary row.logits)).take
      ((ranked (vocabulary row.logits)).countP p) ≠ [] := by
    intro hnil
    have hsize : (row.logits.length : ℝ) < 2 ^ 32 := by exact_mod_cast row.size_lt
    rw [front_weight, hnil] at hmass
    norm_num at hmass
    linarith
  by_cases hlt : top_p < 1
  · refine @cut_front_ids _ _ M 1 _ _ false _ hle hne Bool.noConfusion (cut_exact hle hne hlt ?_)
    simp only [weight_div_eq]
    exact (htop.resolve_left hlt.not_ge).trans hmass
  · refine @cut_front_ids _ _ M 1 _ _ true _ hle hne (fun _ => List.countP_eq_length.mpr ?_)
      (Bool.or_eq_true_iff.mpr (.inr rfl))
    rw [← hp]
    exact fun _ _ => decide_eq_true (.inl (not_lt.mp hlt))

/-- Candidates that make up `top_p` of the vocabulary are enough for it. -/
theorem nucleus_from_topk_exact {top_p : ℝ} (h : TopSet Real.exp logits (1 / temperature) tk)
    (hover : tk.overflow = false) (htemp : temperature > 0) (htop : top_p < 1)
    (hsome : tk.pairs ≠ [])
    (hmass : top_p ≤ (tk.pairs.map fun b => softmax logits temperature b.1).sum) :
    (nucleus_from_topk Real.exp Real.log tk temperature top_p).exact = true := by
  have hfront := ranked_pairs h hover
  have hperm := ranked_perm tk.pairs
  have hne : ranked tk.pairs ≠ [] := by
    intro hnil
    rw [hnil] at hperm
    exact hsome (List.nil_perm.mp hperm)
  have hrun : ¬ (tk.overflow = true ∨ tk.cand = [] ∨ ¬ temperature > 0) := by
    rintro (ho | hc | ht)
    · exact Bool.false_ne_true (hover.symm.trans ho)
    · exact hsome (List.map_eq_nil_iff.mpr hc)
    · exact ht htemp
  rw [nucleus_from_topk, if_neg hrun]
  show (cut (ranked tk.pairs)
    ((ranked tk.pairs).map (weight Real.exp tk.max_logit (1 / temperature)))
    (((ranked tk.pairs).map (weight Real.exp tk.max_logit (1 / temperature))).sum +
      max 0 tk.tail) _ _ top_p _).exact = true
  rw [← (hperm.map _).sum_eq, hfront] at hmass
  rw [normaliser_eq h hover, hfront]
  refine cut_exact List.countP_le_length (hfront ▸ hne) htop ?_
  simp only [weight_div_eq]
  exact hmass

/-- Whenever the nucleus found among the candidates says that it is exact, it is the nucleus of
    the whole vocabulary, token by token. -/
theorem nucleus_from_topk_ids (row : LogitRow) (k : Nat) (temperature top_p : ℝ)
    (h : (nucleus_from_topk Real.exp Real.log (emulate_topk Real.exp row.logits k temperature)
      temperature top_p).exact = true) :
    (nucleus_from_topk Real.exp Real.log (emulate_topk Real.exp row.logits k temperature)
      temperature top_p).ids = full_nucleus row.logits temperature top_p := by
  have hset := @emulate_topk_top_set ℝ _ _ Real.exp row.logits _ row.size_lt k temperature
  generalize emulate_topk Real.exp row.logits k temperature = tk at hset h ⊢
  by_cases hskip : tk.overflow = true ∨ tk.cand = [] ∨ ¬ temperature > 0
  · rw [nucleus_from_topk, if_pos hskip] at h
    exact absurd h Bool.false_ne_true
  have hover : tk.overflow = false := Bool.eq_false_iff.mpr fun ho => hskip (.inl ho)
  have hcand : tk.cand ≠ [] := fun hc => hskip (.inr (.inl hc))
  -- the candidates, sorted, are a front of the sorted vocabulary
  have hfront := ranked_pairs hset hover
  generalize hm : (ranked (vocabulary row.logits)).countP (candidate tk.max_logit tk.bin) = m
    at hfront
  have hle : m ≤ (ranked (vocabulary row.logits)).length := hm ▸ List.countP_le_length
  have hne : ranked tk.pairs ≠ [] := by
    intro hnil
    have hpairs : tk.pairs = [] := List.Perm.eq_nil (hnil ▸ (ranked_perm tk.pairs).symm)
    exact hcand (List.map_eq_nil_iff.mp hpairs)
  have hwhole : decide (tk.rows ≠ 0 ∧ (ranked tk.pairs).length = tk.rows) = true →
      m = (ranked (vocabulary row.logits)).length := by
    intro hwhole
    -- as many candidates as the vocabulary has tokens
    have hrows := (of_decide_eq_true hwhole).2
    rw [hfront, List.length_take_of_le hle, hset.rows] at hrows
    rw [hrows, (ranked_perm _).length_eq, length_vocabulary]
  have hcut : ∀ S retained lse whole,
      S = ((vocabulary row.logits).map (weight Real.exp tk.max_logit (1 / temperature))).sum →
      (whole = true → m = (ranked (vocabulary row.logits)).length) →
      (cut (ranked tk.pairs)
        ((ranked tk.pairs).map (weight Real.exp tk.max_logit (1 / temperature)))
        S retained lse top_p whole).exact = true →
      (cut (ranked tk.pairs)
        ((ranked tk.pairs).map (weight Real.exp tk.max_logit (1 / temperature)))
        S retained lse top_p whole).ids = full_nucleus row.logits temperature top_p := by
    intro S retained lse whole hS hwhole hexact
    rw [hfront] at hexact hne ⊢
    rw [hS] at hexact ⊢
    exact cut_front_ids hle hne hwhole hexact
  rw [nucleus_from_topk, if_neg hskip] at h ⊢
  exact hcut _ _ _ _ (normaliser_eq hset hover) hwhole h

/-- Two tokens are sorted in; the third weighs too little. -/
theorem nucleus_from_full_ids_three :
    (nucleus_from_full Real.exp Real.log [0, -1, -40] 1 (1 / 2)).ids =
      full_nucleus [0, -1, -40] 1 (1 / 2) :=
  nucleus_from_full_ids ⟨[0, -1, -40], by decide⟩ one_pos (List.cons_ne_nil _ _)
    (.inr (by norm_num))

/-- Of two tokens the kernel returns the first, which makes up half of the vocabulary, and the
    second comes to the tail. -/
theorem nucleus_from_topk_ids_tail :
    (emulate_topk Real.exp [0, -20] 1 1).pairs = [(0, 0)] ∧
      (emulate_topk Real.exp [0, -20] 1 1).tail = Real.exp (-20) ∧
      (nucleus_from_topk Real.exp Real.log (emulate_topk Real.exp [0, -20] 1 1) 1 (1 / 2)).ids =
        full_nucleus [0, -20] 1 (1 / 2) := by
  have hset := @emulate_topk_top_set ℝ _ _ Real.exp [0, -20] _ (by decide) 1 1
  have hover := @emulate_topk_overflow ℝ _ _ Real.exp [0, -20] _ (by decide) 1 1
  have hmax : topk_max [(0 : ℝ), -20] 2 = 0 := by
    have hthreads : (List.range kTopKThreads).flatMap (thread_rows 2) = [0, 1] := by decide +kernel
    rw [topk_max, ← List.foldl_flatMap, hthreads]
    norm_num
  have hM : (emulate_topk Real.exp [(0 : ℝ), -20] 1 1).max_logit = 0 := hset.max_logit.trans hmax
  have hhist : topk_hist [(0 : ℝ), -20] 2 0 = (List.replicate kTopKBins 0).modify 0 (· + 1) := by
    norm_num [topk_hist, List.range_succ, kTopKBins, kTopKBinsPerLogit]
  have hbin : (emulate_topk Real.exp [(0 : ℝ), -20] 1 1).bin = 0 := by
    rw [emulate_topk_bin]
    show bin_loop (topk_hist [(0 : ℝ), -20] 2 (topk_max [(0 : ℝ), -20] 2)) 1 kTopKBins 0 0 = 0
    rw [hmax, hhist]
    decide
  have hvoc : vocabulary [(0 : ℝ), -20] = [(0, 0), (-20, 1)] := rfl
  have hfirst : candidate (0 : ℝ) 0 (0, 0) = true := by simp [candidate, collected]
  have hsecond : candidate (0 : ℝ) 0 (-20, 1) = false := by
    norm_num [candidate, collected, kTopKBinsPerLogit]
  have hpairs := hset.pairs hover
  have htail := hset.tail
  rw [hM, hbin, hvoc] at hpairs htail
  have hone : (emulate_topk Real.exp [(0 : ℝ), -20] 1 1).pairs = [(0, 0)] := by
    simpa [hfirst, hsecond] using hpairs
  refine ⟨hone, by simpa [hfirst, hsecond, weight] using htail, ?_⟩
  refine nucleus_from_topk_ids ⟨[0, -20], by decide⟩ 1 1 (1 / 2)
    (nucleus_from_topk_exact hset hover one_pos (by norm_num) (by simp [hone]) ?_)
  -- one over one and `exp (-20)`
  have hle : Real.exp (-20) ≤ 1 := Real.exp_le_one_iff.mpr (by norm_num)
  simp only [hone, hvoc, softmax, List.map_cons, List.map_nil, List.sum_cons, List.sum_nil,
    div_one, Real.exp_zero, add_zero]
  rw [div_le_div_iff₀ two_pos (by positivity)]
  linarith

end Softmax

end CachedMoe.Runtime
