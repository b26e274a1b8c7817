import Mathlib.Data.List.GetD
import CachedMoe.Framework.Balance
import CachedMoe.Storage.IoEngine

/-! # The source router

    The rule of `storage/source_router.h`, weighted least-outstanding-bytes, over exact
    rationals: a request goes to the candidate with the least `(outstanding + bytes) / weight`.
    The weights are those `IoEngine::set_sources` keeps. -/

namespace CachedMoe.Storage

open CachedMoe Balance

/-! ### Weights -/

/-- `src_weights_` after `set_sources`: a root without a positive weight of its own gets 1. -/
def source_weights (roots : Nat) (weights : List ℚ) : List ℚ :=
  (List.range (min roots kMaxIoSources)).map fun i =>
    match weights[i]? with
    | some w => if 0 < w then w else 1
    | none => 1

/-- The weights of the sources there are. -/
structure SourceWeights where
  weights : List ℚ
  positive : ∀ w ∈ weights, 0 < w
  fits : weights.length ≤ kMaxIoSources

def set_sources (roots : Nat) (weights : List ℚ) : SourceWeights where
  weights := source_weights roots weights
  positive := by
    intro w hw
    obtain ⟨i, _, rfl⟩ := List.mem_map.mp hw
    split
    · split
      next hpos => exact hpos
      · exact one_pos
    · exact one_pos
  fits := by
    rw [source_weights, List.length_map, List.length_range]
    exact min_le_right _ _

namespace SourceWeights

/-- How many sources there are. -/
def count (W : SourceWeights) : Nat := W.weights.length

def weight (W : SourceWeights) (s : Nat) : ℚ := W.weights.getD s 0

theorem weight_pos (W : SourceWeights) {s : Nat} (hs : s < W.count) : 0 < W.weight s := by
  have hmem : W.weight s ∈ W.weights := by
    rw [weight, List.getD_eq_getElem _ _ hs]
    exact List.getElem_mem hs
  exact W.positive _ hmem

end SourceWeights

/-! ### pick_source -/

/-- One turn of the loop of `pick_source`: the best source so far, with its ETA. -/
def consider (weights : List ℚ) (outstanding : List Nat) (candidate_mask : Mask) (bytes : Nat)
    (best : Nat × ℚ) (s : Nat) : Nat × ℚ :=
  if candidate_mask s then
    let w := if 0 < weights.getD s 0 then weights.getD s 0 else 1 / 10 ^ 9
    let eta := ((outstanding.getD s 0 : ℚ) + bytes) / w
    if best.1 = kMaxIoSources ∨ eta < best.2 then (s, eta) else best
  else best

/-- The candidate with the least ETA; `kMaxIoSources` when there is none. -/
def pick_source (weights : List ℚ) (outstanding : List Nat) (candidate_mask : Mask)
    (bytes : Nat) : Nat :=
  let n := min weights.length outstanding.length
  ((List.range n).foldl (consider weights outstanding candidate_mask bytes) (kMaxIoSources, 0)).1

/-- The best of the first `n` sources. Ties go to the lowest index. -/
def Best (mask : Mask) (eta : Nat → ℚ) (n : Nat) (best : Nat × ℚ) : Prop :=
  (best.1 = kMaxIoSources ∧ ∀ s < n, mask s = false) ∨
  (best.1 < n ∧ mask best.1 = true ∧ best.2 = eta best.1 ∧
    ∀ s < n, mask s = true → eta best.1 ≤ eta s ∧ (s < best.1 → eta best.1 < eta s))

/-- One more source, with the loop's choice between it and the best so far. -/
theorem Best.succ {mask : Mask} {eta : Nat → ℚ} {n : Nat} {best : Nat × ℚ}
    (h : Best mask eta n best) (hn : n < kMaxIoSources) :
    Best mask eta (n + 1)
      (if mask n then
        if best.1 = kMaxIoSources ∨ eta n < best.2 then (n, eta n) else best
      else best) := by
  cases hmask : mask n with
  | false =>
    rw [if_neg Bool.false_ne_true]
    have hold : ∀ s < n + 1, mask s = true → s < n := by
      intro s hs hbit
      refine lt_of_le_of_ne (Nat.le_of_lt_succ hs) ?_
      rintro rfl
      rw [hmask] at hbit
      cases hbit
    rcases h with ⟨hnone, hall⟩ | ⟨hlt, hbit, heta, hleast⟩
    · refine .inl ⟨hnone, fun s hs => ?_⟩
      by_contra hcand
      have hcand : mask s = true := by simpa using hcand
      rw [hall s (hold s hs hcand)] at hcand
      cases hcand
    · exact .inr ⟨by omega, hbit, heta, fun s hs hcand => hleast s (hold s hs hcand) hcand⟩
  | true =>
    rw [if_pos rfl]
    rcases h with ⟨hnone, hall⟩ | ⟨hlt, hbit, heta, hleast⟩
    · -- the first candidate
      rw [if_pos (.inl hnone)]
      refine .inr ⟨Nat.lt_succ_self n, hmask, rfl, fun s hs hcand => ?_⟩
      obtain rfl : s = n := by
        by_contra hne
        rw [hall s (by omega)] at hcand
        cases hcand
      exact ⟨le_rfl, fun hlt => absurd hlt (Nat.lt_irrefl s)⟩
    · have hsome : best.1 ≠ kMaxIoSources := by omega
      by_cases hbetter : eta n < best.2
      · rw [if_pos (.inr hbetter)]
        rw [heta] at hbetter
        refine .inr ⟨Nat.lt_succ_self n, hmask, rfl, fun s hs hcand => ?_⟩
        rcases Nat.lt_succ_iff_lt_or_eq.mp hs with hs | rfl
        · have hless := hbetter.trans_le (hleast s hs hcand).1
          exact ⟨hless.le, fun _ => hless⟩
        · exact ⟨le_rfl, fun hlt => absurd hlt (Nat.lt_irrefl s)⟩
      · rw [if_neg (not_or.mpr ⟨hsome, hbetter⟩)]
        rw [heta, not_lt] at hbetter
        refine .inr ⟨by omega, hbit, heta, fun s hs hcand => ?_⟩
        rcases Nat.lt_succ_iff_lt_or_eq.mp hs with hs | rfl
        · exact hleast s hs hcand
        · exact ⟨hbetter, fun hafter => by omega⟩

namespace SourceWeights

variable (W : SourceWeights) (outstanding : Nat → Nat) (mask : Mask) (bytes : Nat)

/-- The router's rule: `src_outstanding_` as far as there are sources. -/
def pick : Nat := pick_source W.weights ((List.range W.count).map outstanding) mask bytes

/-- When source `s` would be through with the bytes on top of what it carries. -/
def eta (s : Nat) : ℚ := due W.weight (fun i => (outstanding i : ℚ)) bytes s

theorem best_foldl {n : Nat} (hn : n ≤ W.count) :
    Best mask (W.eta outstanding bytes) n ((List.range n).foldl
      (consider W.weights ((List.range W.count).map outstanding) mask bytes)
      (kMaxIoSources, 0)) := by
  induction n with
  | zero => exact .inl ⟨rfl, fun s hs => absurd hs (Nat.not_lt_zero s)⟩
  | succ n ih =>
    have hlt : n < W.count := hn
    have hnext := (ih hlt.le).succ (hlt.trans_le W.fits)
    rw [List.range_succ, List.foldl_append, List.foldl_cons, List.foldl_nil]
    -- the weights are positive, so the code's substitute for a weight is never used
    have hweight : 0 < W.weights.getD n 0 := W.weight_pos hlt
    have hload : ((List.range W.count).map outstanding).getD n 0 = outstanding n := by
      rw [List.getD_eq_getElem _ _ (by simpa using hlt)]
      simp
    unfold consider
    rw [if_pos hweight, hload]
    exact hnext

/-- `pick_source` picks no source when none is a candidate, and otherwise the candidate that
    would be through with the bytes first, the one with the lowest index among equals. -/
theorem pick_spec :
    (W.pick outstanding mask bytes = kMaxIoSources ∧ ∀ s < W.count, mask s = false) ∨
    (W.pick outstanding mask bytes < W.count ∧ mask (W.pick outstanding mask bytes) = true ∧
      ∀ s < W.count, mask s = true →
        W.eta outstanding bytes (W.pick outstanding mask bytes) ≤ W.eta outstanding bytes s ∧
        (s < W.pick outstanding mask bytes →
          W.eta outstanding bytes (W.pick outstanding mask bytes) <
            W.eta outstanding bytes s)) := by
  have hbest := W.best_foldl outstanding mask bytes le_rfl
  have hmin : min W.weights.length ((List.range W.count).map outstanding).length = W.count := by
    simp [count]
  unfold pick pick_source
  rw [hmin]
  rcases hbest with ⟨hnone, hall⟩ | ⟨hlt, hbit, _, hleast⟩
  · exact .inl ⟨hnone, hall⟩
  · exact .inr ⟨hlt, hbit, hleast⟩

end SourceWeights

/-- With drives of 4 and 1, three requests queued on the faster one still leave it the next;
    four do not. -/
example : (set_sources 2 [4, 1]).pick (fun s => if s = 0 then 3 else 0) (fun _ => true) 1 = 0 ∧
    (set_sources 2 [4, 1]).pick (fun s => if s = 0 then 4 else 0) (fun _ => true) 1 = 1 := by
  decide +kernel

end CachedMoe.Storage
