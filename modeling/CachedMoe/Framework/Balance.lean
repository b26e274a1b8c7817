import Mathlib.Algebra.BigOperators.Ring.Finset
import Mathlib.Algebra.Order.BigOperators.Group.Finset
import Mathlib.Algebra.Order.Field.Basic
import Mathlib.Tactic.GCongr
import Mathlib.Tactic.Linarith
import Mathlib.Tactic.Ring

/-! # Weighted balance

    Loads on parties of different weights, where each amount goes to a party that would be
    through with it first:

    * `due`: when a party would be through with an amount on top of its load;
    * `Within`: per weight, a party carries at most what another would with `b` on top;
    * what a choice by `due` keeps of it;
    * what it says about the shares of the total, in proportion to the weights. -/

namespace Balance

variable {ι K : Type*} [Field K] [LinearOrder K] [IsStrictOrderedRing K]
variable {w load load' : ι → K} {b b' x : K} {s t : ι}

/-- When party `s` would be through with `x` on top of its load. -/
def due (w load : ι → K) (x : K) (s : ι) : K := (load s + x) / w s

/-- Per weight, `s` carries at most what `t` would with `b` on top. -/
def Within (w load : ι → K) (b : K) (s t : ι) : Prop := load s * w t ≤ (load t + b) * w s

/-! ### One choice -/

/-- An amount for another party, `t` or a third one. -/
theorem Within.mono (h : Within w load b s t) (hs : 0 ≤ w s) (hsame : load' s = load s)
    (hgrow : load t ≤ load' t) (hb : b ≤ b') : Within w load' b' s t := by
  show load' s * w t ≤ (load' t + b') * w s
  rw [hsame]
  calc load s * w t ≤ (load t + b) * w s := h
    _ ≤ (load' t + b') * w s := by gcongr

/-- An amount for `s`, which is through with it no later than `t` would be. -/
theorem within_of_due (hs : 0 < w s) (ht : 0 < w t) (hdue : due w load x s ≤ due w load x t)
    (hload : load' s = load s + x) (hgrow : load t ≤ load' t) (hx : x ≤ b) :
    Within w load' b s t := by
  have hcross : (load s + x) * w t ≤ (load t + x) * w s := (div_le_div_iff₀ hs ht).mp hdue
  show load' s * w t ≤ (load' t + b) * w s
  rw [hload]
  calc (load s + x) * w t ≤ (load t + x) * w s := hcross
    _ ≤ (load' t + b) * w s := by gcongr

/-! ### Shares -/

section Share

variable {S : Finset ι}

/-- What `s` would carry of the load of `S` in proportion to the weights. -/
def share (w load : ι → K) (S : Finset ι) (s : ι) : K :=
  (∑ t ∈ S, load t) * (w s / ∑ t ∈ S, w t)

theorem sum_weight_pos (hw : ∀ t ∈ S, 0 < w t) (hs : s ∈ S) : 0 < ∑ t ∈ S, w t :=
  Finset.sum_pos hw ⟨s, hs⟩

/-- A party that no other is ahead of by more than `b` is not behind its share by more. -/
theorem share_le (hw : ∀ t ∈ S, 0 < w t) (hs : s ∈ S)
    (h : ∀ t ∈ S, Within w load b t s) : share w load S s ≤ load s + b := by
  have hsum : (∑ t ∈ S, load t) * w s ≤ (load s + b) * ∑ t ∈ S, w t := by
    rw [Finset.sum_mul, Finset.mul_sum]
    exact Finset.sum_le_sum h
  rw [share, ← mul_div_assoc, div_le_iff₀ (sum_weight_pos hw hs)]
  exact hsum

/-- A party that is ahead of no other by more than `b` is ahead of its share by at most its part
    of `b` for each of the others. -/
theorem le_share [DecidableEq ι] (hw : ∀ t ∈ S, 0 < w t) (hs : s ∈ S)
    (h : ∀ t ∈ S, Within w load b s t) :
    load s ≤ share w load S s + (S.card - 1) * b * (w s / ∑ t ∈ S, w t) := by
  have hpos := sum_weight_pos hw hs
  have hcard : ((S.erase s).card : K) = S.card - 1 := by
    rw [← Finset.card_erase_add_one hs, Nat.cast_add, Nat.cast_one, add_sub_cancel_right]
  -- the others, each with `b` on top
  have hothers : load s * ∑ t ∈ S.erase s, w t ≤
      (∑ t ∈ S.erase s, load t + (S.card - 1) * b) * w s := by
    calc load s * ∑ t ∈ S.erase s, w t = ∑ t ∈ S.erase s, load s * w t := Finset.mul_sum ..
      _ ≤ ∑ t ∈ S.erase s, (load t + b) * w s :=
        Finset.sum_le_sum fun t ht => h t (Finset.mem_of_mem_erase ht)
      _ = (∑ t ∈ S.erase s, load t + (S.card - 1) * b) * w s := by
        rw [← Finset.sum_mul, Finset.sum_add_distrib, Finset.sum_const, nsmul_eq_mul, hcard]
  have hall : load s * ∑ t ∈ S, w t ≤ (∑ t ∈ S, load t + (S.card - 1) * b) * w s := by
    rw [← Finset.add_sum_erase S w hs, ← Finset.add_sum_erase S load hs]
    linarith
  rw [share, ← add_mul, ← mul_div_assoc, le_div_iff₀ hpos]
  exact hall

end Share

end Balance
