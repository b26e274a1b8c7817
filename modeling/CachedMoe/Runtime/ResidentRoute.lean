import Mathlib.Algebra.BigOperators.Ring.List
import Mathlib.Algebra.Order.BigOperators.Group.Finset
import Mathlib.Data.List.GetD
import CachedMoe.Framework.Double

/-! # Resident-only routing

    The experts that are not resident are dropped and the gate weights of the others scaled up
    to the mass of the whole route. The scale divides by the mass that is kept: where every kept
    weight is zero and a dropped one is not, the weights that come out are NaN. -/

namespace CachedMoe.Runtime

structure ResidentRoute where
  kept : Nat := 0
  mass_lost : Double := 0
  shared_only : Bool := false

/-- The locals of the first loop. -/
structure RouteSums where
  sum_all : Double := 0
  sum_kept : Double := 0
  first_kept : Nat
  kept : Nat := 0

/-- `s < resident.size() && resident[s]` -/
def keeps (resident : List UInt8) (s : Nat) : Bool :=
  decide (s < resident.length) && resident.getD s 0 != 0

/-- One slot of the first loop. -/
def route_slot (w_in : List Double) (topk : Nat) (resident : List UInt8) (sums : RouteSums)
    (s : Nat) : RouteSums :=
  let sums := { sums with sum_all := sums.sum_all + w_in.getD s 0 }
  if keeps resident s then
    { sums with
      first_kept := if sums.first_kept = topk then s else sums.first_kept,
      sum_kept := sums.sum_kept + w_in.getD s 0,
      kept := sums.kept + 1 }
  else sums

def route_sums (w_in : List Double) (topk : Nat) (resident : List UInt8) : RouteSums :=
  (List.range topk).foldl (route_slot w_in topk resident) { first_kept := topk }

/-- The statistics, `ids_out` and `w_out`. -/
def resident_route (ids_in : List UInt32) (w_in : List Double) (topk : Nat)
    (resident : List UInt8) (fill_id : UInt32) : ResidentRoute × List UInt32 × List Double :=
  let sums := route_sums w_in topk resident
  if sums.kept = 0 then
    ({ shared_only := true, mass_lost := 1 }, List.replicate topk fill_id, List.replicate topk 0)
  else
    let scale := if Double.lt 0 sums.sum_all then sums.sum_all / sums.sum_kept else 1
    let mass_lost := if Double.lt 0 sums.sum_all then 1 - sums.sum_kept / sums.sum_all else 0
    let borrow := ids_in.getD sums.first_kept 0
    ({ kept := sums.kept, mass_lost := mass_lost },
      (List.range topk).map fun s => if keeps resident s then ids_in.getD s 0 else borrow,
      (List.range topk).map fun s => if keeps resident s then w_in.getD s 0 * scale else 0)

/-! ### What the route is for -/

section Spec

variable (ids : List UInt32) (w : List ℚ) (resident : List UInt8) (fill_id : UInt32)

/-- The route that comes out of finite weights. -/
def routed : ResidentRoute × List UInt32 × List Double :=
  resident_route ids (w.map .fin) w.length resident fill_id

/-- Kept entries name their own experts, dropped ones weigh nothing, every weight is finite, and
    the mass of the route is what it was. -/
structure Conserves : Prop where
  kept_id : ∀ s < w.length, keeps resident s = true →
    (routed ids w resident fill_id).2.1.getD s 0 = ids.getD s 0
  skipped_weight : ∀ s < w.length, keeps resident s = false →
    (routed ids w resident fill_id).2.2.getD s 0 = 0
  finite : ∀ d ∈ (routed ids w resident fill_id).2.2, d.isfinite = true
  mass : (∃ s < w.length, keeps resident s = true) → (∃ x ∈ w, 0 < x) →
    (routed ids w resident fill_id).2.2.sum = .fin w.sum

end Spec

/-! ### The sums -/

section Sums

variable {w : List ℚ} {resident : List UInt8} {topk : Nat}

/-- Mass of the kept slots among the first `n`. -/
def kept_mass (w : List ℚ) (resident : List UInt8) (n : Nat) : ℚ :=
  ((List.range n).map fun s => if keeps resident s then w.getD s 0 else 0).sum

theorem getD_fin (w : List ℚ) (s : Nat) : (w.map Double.fin).getD s 0 = .fin (w.getD s 0) :=
  List.getD_map w 0 Double.fin

theorem sum_range_getD (w : List ℚ) : ((List.range w.length).map fun s => w.getD s 0).sum = w.sum := by
  congr 1
  refine List.ext_getElem (by simp) fun i hi hi' => ?_
  simp [hi']

theorem route_fold {n : Nat} (hn : n ≤ topk) :
    (List.range n).foldl (route_slot (w.map .fin) topk resident) { first_kept := topk } =
      { sum_all := .fin ((List.range n).map fun s => w.getD s 0).sum,
        sum_kept := .fin (kept_mass w resident n),
        first_kept := ((List.range n).find? (keeps resident)).getD topk,
        kept := (List.range n).countP (keeps resident) } := by
  induction n with
  | zero => rfl
  | succ n ih =>
    rw [List.range_succ, List.foldl_append, ih (Nat.le_of_succ_le hn), List.find?_append,
      List.countP_append, List.map_append, List.sum_append, kept_mass, kept_mass,
      List.range_succ, List.map_append, List.sum_append]
    simp only [List.foldl_cons, List.foldl_nil, route_slot, getD_fin, Double.fin_add]
    cases hkeep : keeps resident n with
    | false => simp [hkeep]
    | true =>
      cases hfirst : (List.range n).find? (keeps resident) with
      | none => simp [hkeep]
      | some t =>
        have ht : t < n := List.mem_range.mp (List.mem_of_find?_eq_some hfirst)
        have hne : t ≠ topk := by omega
        simp [hkeep, hne]

theorem route_sums_eq (w : List ℚ) (resident : List UInt8) :
    route_sums (w.map .fin) w.length resident =
      { sum_all := .fin w.sum,
        sum_kept := .fin (kept_mass w resident w.length),
        first_kept := ((List.range w.length).find? (keeps resident)).getD w.length,
        kept := (List.range w.length).countP (keeps resident) } := by
  rw [route_sums, route_fold (Nat.le_refl _), sum_range_getD]

theorem getD_nonneg {x : ℚ} (hw : ∀ y ∈ w, 0 ≤ y) {s : Nat} (hx : w.getD s 0 = x) : 0 ≤ x := by
  rw [← hx, List.getD_eq_getElem?_getD]
  cases hs : w[s]? with
  | none => exact le_rfl
  | some y => exact hw y (List.mem_of_getElem? hs)

theorem kept_mass_term (hw : ∀ y ∈ w, 0 ≤ y) (resident : List UInt8) {n : Nat} :
    ∀ x ∈ (List.range n).map fun s => if keeps resident s then w.getD s 0 else 0, 0 ≤ x := by
  intro x hx
  obtain ⟨s, -, rfl⟩ := List.mem_map.mp hx
  split
  · exact getD_nonneg hw rfl
  · exact le_rfl

theorem kept_mass_pos_iff (hw : ∀ y ∈ w, 0 ≤ y) {n : Nat} :
    0 < kept_mass w resident n ↔ ∃ s < n, keeps resident s = true ∧ 0 < w.getD s 0 := by
  have hterms := kept_mass_term hw resident (n := n)
  constructor
  · intro hpos
    by_contra hnone
    refine hpos.ne' (List.sum_eq_zero fun x hx => ?_)
    obtain ⟨s, hs, rfl⟩ := List.mem_map.mp hx
    split
    · rename_i hkeep
      refine le_antisymm (not_lt.mp fun h => hnone ⟨s, List.mem_range.mp hs, hkeep, h⟩) ?_
      exact getD_nonneg hw rfl
    · rfl
  · rintro ⟨s, hs, hkeep, hpos⟩
    refine lt_of_lt_of_le ?_ (List.single_le_sum hterms _
      (List.mem_map.mpr ⟨s, List.mem_range.mpr hs, rfl⟩))
    rw [if_pos hkeep]
    exact hpos

theorem sum_pos_of_kept_mass (hw : ∀ y ∈ w, 0 ≤ y) (hpos : 0 < kept_mass w resident w.length) :
    0 < w.sum := by
  obtain ⟨s, hs, -, hws⟩ := (kept_mass_pos_iff hw).mp hpos
  rw [List.getD_eq_getElem _ _ hs] at hws
  exact hws.trans_le (List.single_le_sum hw _ (List.getElem_mem hs))

theorem sum_map_fin (l : List ℚ) : (l.map Double.fin).sum = .fin l.sum := by
  induction l with
  | nil => rfl
  | cons x l ih => rw [List.map_cons, List.sum_cons, ih, List.sum_cons, Double.fin_add]

end Sums

/-! ### The weights that come out -/

section Weights

variable {ids : List UInt32} {w : List ℚ} {resident : List UInt8} {fill_id : UInt32}

/-- What the kept weights are scaled by. -/
def route_scale (w : List ℚ) (resident : List UInt8) : Double :=
  if 0 < w.sum then .fin w.sum / .fin (kept_mass w resident w.length) else 1

theorem kept_eq_zero_iff : (List.range w.length).countP (keeps resident) = 0 ↔
    ∀ s < w.length, keeps resident s = false := by
  rw [List.countP_eq_zero]
  exact ⟨fun h s hs => Bool.eq_false_iff.mpr (h s (List.mem_range.mpr hs)),
    fun h s hs => Bool.eq_false_iff.mp (h s (List.mem_range.mp hs))⟩

/-- Nothing is resident. -/
theorem routed_none (hnone : ∀ s < w.length, keeps resident s = false) :
    routed ids w resident fill_id = ({ shared_only := true, mass_lost := 1 },
      List.replicate w.length fill_id, List.replicate w.length 0) := by
  rw [routed, resident_route, route_sums_eq]
  dsimp only
  rw [if_pos (kept_eq_zero_iff.mpr hnone)]

theorem routed_some (hsome : ∃ s < w.length, keeps resident s = true) :
    (routed ids w resident fill_id).2 =
      ((List.range w.length).map fun s => if keeps resident s then ids.getD s 0
        else ids.getD (((List.range w.length).find? (keeps resident)).getD w.length) 0,
      (List.range w.length).map fun s => if keeps resident s then
        .fin (w.getD s 0) * route_scale w resident else 0) := by
  have hkept : ¬ (List.range w.length).countP (keeps resident) = 0 := by
    rw [kept_eq_zero_iff]
    intro hnone
    obtain ⟨s, hs, hkeep⟩ := hsome
    exact Bool.false_ne_true ((hnone s hs).symm.trans hkeep)
  have hlt : Double.lt 0 (.fin w.sum) = decide (0 < w.sum) := rfl
  rw [routed, resident_route, route_sums_eq]
  dsimp only
  rw [if_neg hkept, hlt, route_scale]
  simp only [getD_fin, decide_eq_true_eq]

theorem weights_finite (hsome : ∃ s < w.length, keeps resident s = true) {r : ℚ}
    (hscale : route_scale w resident = .fin r) :
    (routed ids w resident fill_id).2.2 = ((List.range w.length).map fun s =>
      (if keeps resident s then w.getD s 0 else 0) * r).map .fin := by
  rw [routed_some hsome, hscale, List.map_map]
  refine List.map_congr_left fun s _ => ?_
  rw [Function.comp_apply]
  cases keeps resident s with
  | true => rfl
  | false => exact congrArg Double.fin (zero_mul r).symm

/-- Nothing is divided by zero: the scale is finite, and takes the kept mass to the whole. -/
theorem scale_finite (hw : ∀ y ∈ w, 0 ≤ y)
    (hmass : 0 < kept_mass w resident w.length ∨ w.sum = 0) :
    ∃ r, route_scale w resident = .fin r ∧ (0 < w.sum →
      kept_mass w resident w.length * r = w.sum) := by
  rw [route_scale]
  rcases hmass with hpos | hzero
  · have hsum := sum_pos_of_kept_mass hw hpos
    rw [if_pos hsum, Double.fin_div hpos.ne']
    exact ⟨_, rfl, fun _ => mul_div_cancel₀ _ hpos.ne'⟩
  · rw [if_neg (by rw [hzero]; exact lt_irrefl 0)]
    exact ⟨1, rfl, fun hpos => absurd hzero hpos.ne'⟩

theorem conserves_of_scale {r : ℚ} (hsome : ∃ s < w.length, keeps resident s = true)
    (hscale : route_scale w resident = .fin r)
    (hmass : (∃ x ∈ w, 0 < x) → kept_mass w resident w.length * r = w.sum) :
    Conserves ids w resident fill_id where
  kept_id s hs hkeep := by
    rw [routed_some hsome, List.getD_eq_getElem _ _ (by simpa using hs), List.getElem_map,
      List.getElem_range, if_pos hkeep]
  skipped_weight s hs hskip := by
    rw [routed_some hsome, List.getD_eq_getElem _ _ (by simpa using hs), List.getElem_map,
      List.getElem_range, if_neg (by rw [hskip]; exact Bool.false_ne_true)]
  finite d hd := by
    rw [weights_finite hsome hscale] at hd
    obtain ⟨x, -, rfl⟩ := List.mem_map.mp hd
    rfl
  mass _ hpos := by
    rw [weights_finite hsome hscale, sum_map_fin, List.sum_map_mul_right, ← kept_mass,
      hmass hpos]

theorem conserves_of_none (hnone : ∀ s < w.length, keeps resident s = false) :
    Conserves ids w resident fill_id where
  kept_id s hs hkeep := absurd (hkeep.symm.trans (hnone s hs)) (Bool.noConfusion ·)
  skipped_weight s hs _ := by
    rw [routed_none hnone, List.getD_eq_getElem _ _ (by simpa using hs), List.getElem_replicate]
  finite d hd := by
    rw [routed_none hnone] at hd
    rw [List.eq_of_mem_replicate hd]
    rfl
  mass hsome _ := by
    obtain ⟨s, hs, hkeep⟩ := hsome
    exact absurd (hkeep.symm.trans (hnone s hs)) (Bool.noConfusion ·)

/-- Where the kept weights are all zero and a dropped one is not, a kept weight is NaN. -/
theorem not_finite_of_zero (hw : ∀ y ∈ w, 0 ≤ y)
    (hsome : ∃ s < w.length, keeps resident s = true) (hsum : 0 < w.sum)
    (hzero : ¬ 0 < kept_mass w resident w.length) :
    .nan ∈ (routed ids w resident fill_id).2.2 := by
  have hkept : kept_mass w resident w.length = 0 :=
    le_antisymm (not_lt.mp hzero) (List.sum_nonneg (kept_mass_term hw resident))
  have hscale : route_scale w resident = .inf false := by
    rw [route_scale, if_pos hsum, hkept, Double.fin_div_zero hsum]
  obtain ⟨s, hs, hkeep⟩ := hsome
  have hws : w.getD s 0 = 0 := by
    refine le_antisymm (not_lt.mp fun hpos => hzero ?_) (getD_nonneg hw rfl)
    exact (kept_mass_pos_iff hw).mpr ⟨s, hs, hkeep, hpos⟩
  rw [routed_some ⟨s, hs, hkeep⟩, hscale]
  refine List.mem_map.mpr ⟨s, List.mem_range.mpr hs, ?_⟩
  rw [if_pos hkeep, hws, Double.zero_mul_inf]

end Weights

/-- The route keeps its mass, with finite weights, exactly where a kept entry has weight, or no
    entry has any, or nothing is kept. -/
theorem resident_route_conserves_iff {w : List ℚ} (hw : ∀ x ∈ w, 0 ≤ x) (ids : List UInt32)
    (resident : List UInt8) (fill_id : UInt32) :
    Conserves ids w resident fill_id ↔
      (∃ s < w.length, keeps resident s = true ∧ 0 < w.getD s 0) ∨ (∀ x ∈ w, x = 0) ∨
        ∀ s < w.length, keeps resident s = false := by
  rw [← kept_mass_pos_iff hw]
  by_cases hsome : ∃ s < w.length, keeps resident s = true
  · have hsum : w.sum = 0 ↔ ∀ x ∈ w, x = 0 :=
      ⟨fun h x hx => le_antisymm (h ▸ List.single_le_sum hw x hx) (hw x hx), List.sum_eq_zero⟩
    rw [← hsum]
    constructor
    · intro hcons
      by_contra hno
      rw [not_or, not_or] at hno
      obtain ⟨hmass, hne, -⟩ := hno
      have hpos : 0 < w.sum := lt_of_le_of_ne (List.sum_nonneg hw) (Ne.symm hne)
      exact Bool.false_ne_true (hcons.finite .nan (not_finite_of_zero hw hsome hpos hmass))
    · intro hcond
      have hmass : 0 < kept_mass w resident w.length ∨ w.sum = 0 := by
        rcases hcond with hpos | hzero | hnone
        · exact .inl hpos
        · exact .inr hzero
        · obtain ⟨s, hs, hkeep⟩ := hsome
          exact absurd (hkeep.symm.trans (hnone s hs)) (Bool.noConfusion ·)
      obtain ⟨r, hscale, hr⟩ := scale_finite hw hmass
      refine conserves_of_scale hsome hscale fun hpos => hr ?_
      obtain ⟨x, hx, hpos⟩ := hpos
      exact hpos.trans_le (List.single_le_sum hw x hx)
  · have hnone : ∀ s < w.length, keeps resident s = false := fun s hs =>
      Bool.eq_false_iff.mpr fun hkeep => hsome ⟨s, hs, hkeep⟩
    exact ⟨fun _ => .inr (.inr hnone), fun _ => conserves_of_none hnone⟩

/-- One of two experts is resident and has a third of the mass. -/
theorem resident_route_conserves_pair : Conserves [10, 11] [1 / 2, 1] [1, 0] 0 :=
  (resident_route_conserves_iff (by decide +kernel) [10, 11] [1, 0] 0).mpr
    (.inl ⟨0, by decide, by decide, by decide +kernel⟩)

/-- The resident expert has no weight and the dropped one has all of it. -/
theorem zero_kept_weight_nan : ¬ Conserves [10, 11] [0, 1] [1, 0] 0 := by
  intro hcons
  exact absurd (hcons.finite .nan (by decide +kernel)) Bool.false_ne_true

end CachedMoe.Runtime
