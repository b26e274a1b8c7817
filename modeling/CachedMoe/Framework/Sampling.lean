import Mathlib.MeasureTheory.Constructions.Pi
import Mathlib.MeasureTheory.Measure.Lebesgue.Basic
import Mathlib.MeasureTheory.Measure.Real

/-! # Sampling from uniform draws

    A draw `u` of `[0, 1)` turned into a choice by comparisons: a threshold, and the first
    prefix sum of some weights above a multiple of `u`. Also the mixture rule, for a choice
    that decides what the rest of the draws is used for. -/

namespace Sampling

open MeasureTheory

/-! ### Prefix sums -/

section Scan

variable {R : Type} [Field R]

/-- Sum of the weights before `i`. -/
def prefix_sum (w : Nat → R) (i : Nat) : R := ∑ c ∈ Finset.range i, w c

theorem prefix_sum_succ (w : Nat → R) (i : Nat) : prefix_sum w (i + 1) = prefix_sum w i + w i :=
  Finset.sum_range_succ w i

theorem prefix_sum_congr {w w' : Nat → R} {n : Nat} (h : ∀ c < n, w c = w' c) :
    prefix_sum w n = prefix_sum w' n :=
  Finset.sum_congr rfl fun c hc => h c (Finset.mem_range.mp hc)

variable [LinearOrder R]

/-- From index `i` on, with the weights before it summed up in `cum`: the first index whose
    weight takes the sum above `t`, or else the last index with a positive weight. -/
def scan (w : Nat → R) (t : R) : (n i : Nat) → (cum : R) → (last : Nat) → Nat
  | 0, _, _, last => last
  | n + 1, i, cum, last =>
    let last := if w i > 0 then i else last
    let cum := cum + w i
    if cum > t then i else scan w t n (i + 1) cum last

variable {w : Nat → R} {t : R}

theorem scan_lt {n : Nat} : ∀ {i last : Nat} (cum : R), last < i + n → scan w t n i cum last < i + n := by
  induction n with
  | zero =>
    intro i last cum hlast
    exact hlast
  | succ n ih =>
    intro i last cum hlast
    simp only [scan]
    split
    · omega
    · have hnext : (if w i > 0 then i else last) < (i + 1) + n := by split <;> omega
      have := ih (cum + w i) hnext
      omega

theorem scan_congr {w' : Nat → R} {n : Nat} : ∀ {i : Nat} (cum : R) (last : Nat),
    (∀ c, i ≤ c → c < i + n → w c = w' c) → scan w t n i cum last = scan w' t n i cum last := by
  induction n with
  | zero =>
    intro i cum last _
    rfl
  | succ n ih =>
    intro i cum last h
    have hi : w i = w' i := h i le_rfl (Nat.lt_add_of_pos_right (Nat.succ_pos n))
    simp only [scan, hi]
    rw [ih]
    intro c hic hc
    exact h c (Nat.le_of_succ_le hic) (by omega)

variable [IsStrictOrderedRing R]

theorem prefix_sum_mono (hw : ∀ c, 0 ≤ w c) : Monotone (prefix_sum w) := by
  apply monotone_nat_of_le_succ
  intro i
  rw [prefix_sum_succ]
  exact le_add_of_nonneg_right (hw i)

/-- Where `t` is below the whole sum, the scan finds the index whose weight covers it. -/
theorem scan_eq_iff (hw : ∀ c, 0 ≤ w c) {n : Nat} : ∀ {i : Nat} (last c : Nat),
    prefix_sum w i ≤ t → t < prefix_sum w (i + n) → (scan w t n i (prefix_sum w i) last = c ↔
      prefix_sum w c ≤ t ∧ t < prefix_sum w (c + 1)) := by
  -- two indexes cannot cover the same `t`
  have hunique : ∀ {c c' : Nat}, prefix_sum w c ≤ t → t < prefix_sum w (c + 1) →
      prefix_sum w c' ≤ t → t < prefix_sum w (c' + 1) → c = c' := by
    intro c c' hc hc1 hc' hc1'
    have hmono := prefix_sum_mono hw
    by_contra hne
    rcases Nat.lt_or_gt_of_ne hne with hlt | hgt
    · exact absurd (hmono (Nat.succ_le_of_lt hlt)) (not_le.mpr (lt_of_le_of_lt hc' hc1))
    · exact absurd (hmono (Nat.succ_le_of_lt hgt)) (not_le.mpr (lt_of_le_of_lt hc hc1'))
  induction n with
  | zero =>
    intro i last c hle hlt
    exact absurd hlt (not_lt.mpr hle)
  | succ n ih =>
    intro i last c hle hlt
    simp only [scan, ← prefix_sum_succ]
    split
    next hhit =>
      constructor
      · rintro rfl
        exact ⟨hle, hhit⟩
      · rintro ⟨hc, hc1⟩
        exact hunique hle hhit hc hc1
    next hmiss =>
      refine ih _ c (not_lt.mp hmiss) ?_
      rwa [Nat.add_assoc, Nat.add_comm 1 n]

end Scan

/-! ### Rejection

    A proposal `q` accepted with probability `min 1 (p / q)`. -/

section Rejection

variable {R : Type} [Field R] [LinearOrder R] {p q : Nat → R} {n : Nat}

/-- What `p` has left over the proposal. -/
def left_over (p q : Nat → R) (i : Nat) : R := if p i - q i > 0 then p i - q i else 0

theorem left_over_nonneg (i : Nat) : 0 ≤ left_over p q i := by
  unfold left_over
  split
  next hpos => exact hpos.le
  · exact le_rfl

variable [IsStrictOrderedRing R]

/-- The accepted part and the part left over make up the whole. -/
theorem min_add_left_over (i : Nat) : min (p i) (q i) + left_over p q i = p i := by
  unfold left_over
  split
  next hpos =>
    rw [min_eq_right (sub_nonneg.mp hpos.le)]
    ring
  next hneg => rw [min_eq_left (sub_nonpos.mp (not_lt.mp hneg)), add_zero]

/-- A proposal is rejected with the mass that `p` has left over, on the indexes and beyond. -/
theorem rejected_mass (hq : prefix_sum q n = 1) :
    ∑ c ∈ Finset.range n, (q c - min (p c) (q c)) =
      prefix_sum (left_over p q) n + (1 - prefix_sum p n) := by
  have hterm : ∀ c, q c - min (p c) (q c) = q c + left_over p q c - p c := by
    intro c
    have := min_add_left_over (p := p) (q := q) c
    linarith
  simp only [hterm, Finset.sum_sub_distrib, Finset.sum_add_distrib]
  rw [← prefix_sum, ← prefix_sum, ← prefix_sum, hq]
  ring

end Rejection

/-! ### Uniform draws -/

/-- A draw of `[0, 1)`. -/
noncomputable def uniform : Measure ℝ := volume.restrict (Set.Ico 0 1)

instance : IsProbabilityMeasure uniform := by
  refine ⟨?_⟩
  rw [uniform, Measure.restrict_apply_univ, Real.volume_Ico]
  norm_num

/-- Only draws of `[0, 1)` count. -/
theorem uniform_real_congr {s t : Set ℝ} (h : ∀ u, 0 ≤ u → u < 1 → (u ∈ s ↔ u ∈ t)) :
    uniform.real s = uniform.real t := by
  have hinter : s ∩ Set.Ico 0 1 = t ∩ Set.Ico 0 1 := by
    ext u
    exact and_congr_left fun hu => h u hu.1 hu.2
  rw [Measure.real, Measure.real, uniform, Measure.restrict_apply' measurableSet_Ico,
    Measure.restrict_apply' measurableSet_Ico, hinter]

theorem uniform_real_eq {s : Set ℝ} {a b : ℝ} (ha : 0 ≤ a) (hab : a ≤ b) (hb : b ≤ 1)
    (hs : ∀ u, 0 ≤ u → u < 1 → (u ∈ s ↔ a ≤ u ∧ u < b)) : uniform.real s = b - a := by
  have hsub : Set.Ico a b ⊆ Set.Ico 0 1 := Set.Ico_subset_Ico ha hb
  rw [uniform_real_congr hs]
  show (volume.restrict (Set.Ico 0 1)).real (Set.Ico a b) = b - a
  rw [Measure.real, Measure.restrict_apply' measurableSet_Ico, Set.inter_eq_left.mpr hsub,
    Real.volume_Ico, ENNReal.toReal_ofReal (sub_nonneg.mpr hab)]

/-- The threshold test, weighted with its bound. -/
theorem uniform_threshold {p q : ℝ} (hp : 0 ≤ p) (hq : 0 ≤ q) :
    q * uniform.real {u | u * q < p} = min p q := by
  rcases hq.eq_or_lt with rfl | hpos
  · rw [zero_mul, min_eq_right hp]
  · have hbound : 0 ≤ min (p / q) 1 := le_min (div_nonneg hp hq) zero_le_one
    have hbelow : ∀ u, 0 ≤ u → u < 1 → (u ∈ {u | u * q < p} ↔ 0 ≤ u ∧ u < min (p / q) 1) := by
      intro u h0 h1
      rw [Set.mem_ofPred_eq, ← lt_div_iff₀ hpos, lt_min_iff]
      exact ⟨fun h => ⟨h0, h, h1⟩, fun h => h.2.1⟩
    rw [uniform_real_eq le_rfl hbound (min_le_right _ _) hbelow, sub_zero, mul_min_of_nonneg _ _ hq, mul_div_cancel₀ p hpos.ne', mul_one]

section Choice

variable {w : Nat → ℝ} {z : ℝ} {n : Nat}

theorem measurable_scan (w : Nat → ℝ) (n : Nat) : ∀ (i : Nat) (cum : ℝ) (last : Nat),
    Measurable fun t => scan w t n i cum last := by
  induction n with
  | zero =>
    intro i cum last
    exact measurable_const
  | succ n ih =>
    intro i cum last
    exact Measurable.ite (measurableSet_lt measurable_id measurable_const) measurable_const (ih _ _ _)

/-- The part of a draw of `[0, z)` that falls on the weight of `c`. -/
theorem uniform_scan (hw : ∀ c, 0 ≤ w c) (hz : 0 < z) (hsum : prefix_sum w n ≤ z) {c : Nat}
    (hc : c < n) :
    uniform.real {u | u * z < prefix_sum w n ∧ scan w (u * z) n 0 0 0 = c} = w c / z := by
  have hmono := prefix_sum_mono hw
  have h0 : prefix_sum w 0 = 0 := rfl
  have hlow : 0 ≤ prefix_sum w c := h0 ▸ hmono (Nat.zero_le c)
  have hhigh : prefix_sum w (c + 1) ≤ prefix_sum w n := hmono hc
  have hcover : ∀ u, 0 ≤ u → u < 1 →
      (u ∈ {u | u * z < prefix_sum w n ∧ scan w (u * z) n 0 0 0 = c} ↔
        prefix_sum w c / z ≤ u ∧ u < prefix_sum w (c + 1) / z) := by
    intro u hu0 hu1
    have ht : prefix_sum w 0 ≤ u * z := h0 ▸ mul_nonneg hu0 hz.le
    rw [Set.mem_ofPred_eq, div_le_iff₀ hz, lt_div_iff₀ hz]
    constructor
    · rintro ⟨hlt, hscan⟩
      have hiff := scan_eq_iff hw 0 c ht (by rwa [Nat.zero_add])
      rw [h0] at hiff
      exact hiff.mp hscan
    · rintro ⟨hle, hlt⟩
      have hless : u * z < prefix_sum w n := hlt.trans_le hhigh
      have hiff := scan_eq_iff hw 0 c ht (by rwa [Nat.zero_add])
      rw [h0] at hiff
      exact ⟨hless, hiff.mpr ⟨hle, hlt⟩⟩
  rw [uniform_real_eq (div_nonneg hlow hz.le) ?_ ?_ hcover, prefix_sum_succ, ← sub_div,
    add_sub_cancel_left]
  · gcongr
    exact hmono (Nat.le_succ c)
  · rw [div_le_one hz]
    exact hhigh.trans hsum

/-- Where the weights are all of it, the scan alone decides. -/
theorem uniform_scan_all (hw : ∀ c, 0 ≤ w c) (hz : 0 < z) (hsum : prefix_sum w n = z) {c : Nat}
    (hc : c < n) : uniform.real {u | scan w (u * z) n 0 0 0 = c} = w c / z := by
  rw [← uniform_scan hw hz hsum.le hc]
  apply uniform_real_congr
  intro u _ h1
  have hless : u * z < prefix_sum w n := by
    rw [hsum]
    exact mul_lt_of_lt_one_left hz h1
  exact (and_iff_right hless).symm

/-- The part that falls behind a bound. -/
theorem uniform_beyond {s : ℝ} (hz : 0 < z) (hs : 0 ≤ s) (hsz : s ≤ z) :
    uniform.real {u | ¬ u * z < s} = 1 - s / z := by
  refine uniform_real_eq (div_nonneg hs hz.le) ((div_le_one hz).mpr hsz) le_rfl ?_
  intro u _ h1
  rw [Set.mem_ofPred_eq, not_lt, div_le_iff₀ hz]
  exact ⟨fun h => ⟨h, h1⟩, And.left⟩

end Choice

/-- An index with the weights `w`, or none for what is beyond them of `z`. -/
def pick {R : Type} [Field R] [LinearOrder R] (w : Nat → R) (n : Nat) (z u : R) : Option Nat :=
  if u * z < prefix_sum w n then some (scan w (u * z) n 0 0 0) else none

theorem pick_eq_some_iff {R : Type} [Field R] [LinearOrder R] {w : Nat → R} {n : Nat} {z u : R}
    {i : Nat} : pick w n z u = some i ↔ u * z < prefix_sum w n ∧ scan w (u * z) n 0 0 0 = i := by
  unfold pick
  split
  next hlt => rw [Option.some.injEq, and_iff_right hlt]
  next hge =>
    constructor
    · intro h
      cases h
    · intro h
      exact absurd h.1 hge

theorem pick_eq_none_iff {R : Type} [Field R] [LinearOrder R] {w : Nat → R} {n : Nat} {z u : R} :
    pick w n z u = none ↔ ¬ u * z < prefix_sum w n := by
  unfold pick
  split
  next hlt =>
    constructor
    · intro h
      cases h
    · intro h
      exact absurd hlt h
  next hge => exact iff_of_true rfl hge

section Pick

variable {w : Nat → ℝ} {z : ℝ} {n : Nat}

theorem pick_mem (w : Nat → ℝ) (z : ℝ) (hn : 0 < n) (u : ℝ) :
    pick w n z u ∈ (Finset.range n).insertNone := by
  unfold pick
  split
  · have hlt := scan_lt (w := w) (t := u * z) (i := 0) 0 (by rwa [Nat.zero_add] : 0 < 0 + n)
    rw [Nat.zero_add] at hlt
    rw [Finset.some_mem_insertNone]
    exact Finset.mem_range.mpr hlt
  · exact Finset.none_mem_insertNone

theorem measurableSet_pick (w : Nat → ℝ) (n : Nat) (z : ℝ) (o : Option Nat) :
    MeasurableSet {u | pick w n z u = o} := by
  have hbelow : MeasurableSet {u : ℝ | u * z < prefix_sum w n} :=
    measurableSet_lt (measurable_id.mul_const z) measurable_const
  have hscan : Measurable fun u : ℝ => scan w (u * z) n 0 0 0 :=
    (measurable_scan w n 0 0 0).comp (measurable_id.mul_const z)
  cases o with
  | some i =>
    simp only [pick_eq_some_iff]
    exact hbelow.inter (hscan (measurableSet_singleton i))
  | none =>
    simp only [pick_eq_none_iff]
    exact hbelow.compl

/-- What is picked, weighted with the whole: each index with its weight, none with the rest. -/
theorem pick_mass (hw : ∀ c, 0 ≤ w c) (hsum : prefix_sum w n ≤ z) (f : Option Nat → ℝ) :
    z * ∑ o ∈ (Finset.range n).insertNone, uniform.real {u | pick w n z u = o} * f o =
      ∑ i ∈ Finset.range n, w i * f (some i) + (z - prefix_sum w n) * f none := by
  have hnonneg : 0 ≤ prefix_sum w n := Finset.sum_nonneg fun c _ => hw c
  rcases (hnonneg.trans hsum).eq_or_lt with rfl | hz
  · -- no weight, and no rest
    have hzero : prefix_sum w n = 0 := le_antisymm hsum hnonneg
    have hall := (Finset.sum_eq_zero_iff_of_nonneg fun c _ => hw c).mp hzero
    rw [zero_mul, hzero, sub_zero, zero_mul, add_zero, Finset.sum_eq_zero]
    intro i hi
    rw [hall i hi, zero_mul]
  · have hsome : ∀ i ∈ Finset.range n, uniform.real {u | pick w n z u = some i} = w i / z := by
      intro i hi
      rw [← uniform_scan hw hz hsum (Finset.mem_range.mp hi)]
      simp only [pick_eq_some_iff]
    have hnone : uniform.real {u | pick w n z u = none} = 1 - prefix_sum w n / z := by
      rw [← uniform_beyond hz hnonneg hsum]
      simp only [pick_eq_none_iff]
    rw [Finset.sum_insertNone, hnone, Finset.sum_congr rfl fun i hi => by rw [hsome i hi], mul_add,
      Finset.mul_sum, add_comm]
    congr 1
    · refine Finset.sum_congr rfl ?_
      intro i _
      field_simp
    · field_simp

end Pick

/-! ### Mixtures -/

/-- A first draw decides by a finite choice which event the second draw is used for. -/
theorem prod_real_choice {α β ι : Type} [MeasurableSpace α] [MeasurableSpace β] {μ : Measure α}
    {ν : Measure β} [IsFiniteMeasure μ] [IsFiniteMeasure ν] {f : α → ι} {s : Finset ι}
    (hf : ∀ a, f a ∈ s) (hmeas : ∀ c, MeasurableSet {a | f a = c}) (T : ι → Set β) :
    (μ.prod ν).real {d | d.2 ∈ T (f d.1)} = ∑ c ∈ s, μ.real {a | f a = c} * ν.real (T c) := by
  have hfiber : ∀ c, MeasurableSet (Set.preimage (fun d : α × β => f d.1) {c}) :=
    fun c => measurable_fst (hmeas c)
  have hsplit := sum_measureReal_preimage_singleton
    (μ := (μ.prod ν).restrict {d | d.2 ∈ T (f d.1)}) s fun c _ => hfiber c
  have hall : Set.preimage (fun d : α × β => f d.1) (s : Set ι) = Set.univ :=
    Set.eq_univ_of_forall fun d => hf d.1
  rw [hall, measureReal_restrict_apply_univ] at hsplit
  rw [← hsplit]
  refine Finset.sum_congr rfl ?_
  intro c _
  -- on one fibre the event is a product
  have hbox : Set.preimage (fun d : α × β => f d.1) {c} ∩ {d | d.2 ∈ T (f d.1)} =
      {a | f a = c} ×ˢ T c := by
    ext d
    simp only [Set.mem_inter_iff, Set.mem_preimage, Set.mem_singleton_iff, Set.mem_ofPred_eq,
      Set.mem_prod]
    exact and_congr_right fun hc => by rw [hc]
  rw [measureReal_restrict_apply (hfiber c), hbox, measureReal_prod_prod]

/-- A first draw decides by a threshold which of two events the second draw is used for. -/
theorem prod_real_threshold {β : Type} [MeasurableSpace β] {ν : Measure β} [IsFiniteMeasure ν]
    {p q : ℝ} (hp : 0 ≤ p) (hq : 0 ≤ q) (S S' : Set β) :
    q * (uniform.prod ν).real {d | if d.1 * q < p then d.2 ∈ S else d.2 ∈ S'} =
      min p q * ν.real S + (q - min p q) * ν.real S' := by
  have hbelow : MeasurableSet {u : ℝ | u * q < p} :=
    measurableSet_lt (measurable_id.mul_const q) measurable_const
  have hfiber : ∀ b : Bool, MeasurableSet {u : ℝ | decide (u * q < p) = b} := by
    intro b
    cases b with
    | true =>
      simp only [decide_eq_true_eq]
      exact hbelow
    | false =>
      simp only [decide_eq_false_iff_not]
      exact hbelow.compl
  have hchoice := prod_real_choice (μ := uniform) (ν := ν) (s := Finset.univ)
    (fun _ => Finset.mem_univ _) hfiber fun b => if b then S else S'
  have hset : {d : ℝ × β | if d.1 * q < p then d.2 ∈ S else d.2 ∈ S'} =
      {d | d.2 ∈ if decide (d.1 * q < p) = true then S else S'} := by
    ext d
    simp only [Set.mem_ofPred_eq, decide_eq_true_eq]
    split
    · rfl
    · rfl
  have hreject : uniform.real {u : ℝ | ¬ u * q < p} = 1 - uniform.real {u : ℝ | u * q < p} := by
    have hcompl := measureReal_compl (μ := uniform) hbelow
    rwa [probReal_univ] at hcompl
  rw [hset, hchoice, Fintype.sum_bool]
  simp only [decide_eq_true_eq, decide_eq_false_iff_not, hreject, if_true, Bool.false_eq_true, if_false]
  rw [← uniform_threshold hp hq]
  ring

end Sampling
