import Mathlib.Algebra.BigOperators.Group.Finset.Basic
import Mathlib.Algebra.BigOperators.Group.Finset.Piecewise

/-! # Sums and counts under a point update

    A table that changes at one index: what a sum or a count over the table
    becomes. Every accounting invariant of this development is a counter that
    equals such a sum. -/

namespace PointUpdate

open Finset

variable {ι α M : Type*}

/-- The sums of two tables that agree off one index. -/
theorem sum_agree_add [DecidableEq ι] [AddCommMonoid M] {s : Finset ι} {i : ι} (hi : i ∈ s)
    {g g' : ι → M} (h : ∀ j ∈ s, j ≠ i → g' j = g j) :
    ∑ j ∈ s, g' j + g i = ∑ j ∈ s, g j + g' i := by
  have hrest : ∑ j ∈ s.erase i, g' j = ∑ j ∈ s.erase i, g j :=
    sum_congr rfl fun j hj => h j (mem_of_mem_erase hj) (ne_of_mem_erase hj)
  rw [← add_sum_erase s g' hi, ← add_sum_erase s g hi, hrest]
  ac_rfl

/-- A sum over a table, after one entry changed. -/
theorem sum_update_add [DecidableEq ι] [AddCommMonoid M] {s : Finset ι} {i : ι} (hi : i ∈ s)
    (f : ι → α) (v : α) (g : α → M) :
    ∑ j ∈ s, g (Function.update f i v j) + g (f i) = ∑ j ∈ s, g (f j) + g v := by
  have hagree : ∀ j ∈ s, j ≠ i → g (Function.update f i v j) = g (f j) := by
    intro j _ hj
    rw [Function.update_of_ne hj]
  rw [sum_agree_add hi hagree, Function.update_self]

/-! ### Counting -/

/-- How many entries of the table satisfy `P`. -/
def count (s : Finset ι) (f : ι → α) (P : α → Prop) [DecidablePred P] : Nat :=
  (s.filter fun j => P (f j)).card

variable (P : α → Prop) [DecidablePred P]

theorem count_update_add [DecidableEq ι] {s : Finset ι} {i : ι} (hi : i ∈ s) (f : ι → α) (v : α) :
    count s (Function.update f i v) P + (if P (f i) then 1 else 0) =
      count s f P + if P v then 1 else 0 := by
  simp only [count, card_filter]
  exact sum_update_add hi f v fun a => if P a then 1 else 0

theorem count_congr {s : Finset ι} {f f' : ι → α} (h : ∀ j ∈ s, P (f' j) ↔ P (f j)) :
    count s f' P = count s f P := by
  rw [count, count, filter_congr h]

/-- A table that grows by one entry at its end. -/
theorem count_range_succ (n : Nat) (f : Nat → α) :
    count (range (n + 1)) f P = count (range n) f P + if P (f n) then 1 else 0 := by
  simp only [count, card_filter, sum_range_succ]

theorem count_le_card (s : Finset ι) (f : ι → α) : count s f P ≤ s.card :=
  card_filter_le _ _

theorem count_pos {s : Finset ι} {i : ι} (hi : i ∈ s) {f : ι → α} (h : P (f i)) :
    0 < count s f P :=
  card_pos.mpr ⟨i, mem_filter.mpr ⟨hi, h⟩⟩

theorem count_eq_zero {s : Finset ι} {f : ι → α} (h : ∀ j ∈ s, ¬ P (f j)) :
    count s f P = 0 :=
  card_eq_zero.mpr (filter_eq_empty_iff.mpr fun {j} hj => h j hj)

theorem count_eq_card {s : Finset ι} {f : ι → α} (h : ∀ j ∈ s, P (f j)) :
    count s f P = s.card := by
  rw [count, filter_true_of_mem h]

theorem forall_of_count_eq_card {s : Finset ι} {f : ι → α} (h : count s f P = s.card) :
    ∀ j ∈ s, P (f j) :=
  card_filter_eq_iff.mp h

/-! ### A loop of updates -/

section Loop

variable {β : Type*} [DecidableEq ι]

/-- A loop that writes `v b` at `f b` for every `b` of a list, read at an index it skips. -/
theorem foldl_update_of_ne (f : β → ι) (v : β → α) {l : List β} (t : ι → α) {j : ι}
    (h : ∀ b ∈ l, f b ≠ j) :
    l.foldl (fun t b => Function.update t (f b) (v b)) t j = t j := by
  induction l generalizing t with
  | nil => rfl
  | cons b l ih =>
    have hb : f b ≠ j := h b List.mem_cons_self
    rw [List.foldl_cons, ih _ fun b' hb' => h b' (List.mem_cons_of_mem _ hb'),
      Function.update_of_ne hb.symm]

/-- The same loop, read at an index it writes, where the writes to an index agree. -/
theorem foldl_update_of_agree {f : β → ι} {v : β → α} {g : ι → α} {l : List β} (t : ι → α) {b : β}
    (hb : b ∈ l) (h : ∀ b ∈ l, v b = g (f b)) :
    l.foldl (fun t b => Function.update t (f b) (v b)) t (f b) = g (f b) := by
  induction l generalizing t b with
  | nil => cases hb
  | cons c l ih =>
    rw [List.foldl_cons]
    by_cases hl : ∃ b' ∈ l, f b' = f b
    · obtain ⟨b', hb', heq⟩ := hl
      rw [← heq]
      exact ih _ hb' fun d hd => h d (List.mem_cons_of_mem _ hd)
    · -- `b` is the head: the tail does not come back to its index
      have hskip : ∀ b' ∈ l, f b' ≠ f b := fun b' hb' heq => hl ⟨b', hb', heq⟩
      obtain rfl : b = c := (List.mem_cons.mp hb).resolve_right fun hmem => hskip b hmem rfl
      rw [foldl_update_of_ne f v _ hskip, Function.update_self, h b List.mem_cons_self]

/-- The same for a loop that writes no index twice. -/
theorem foldl_update_of_mem {f : β → ι} (hf : Function.Injective f) (v : β → α) {l : List β}
    (t : ι → α) {b : β} (hb : b ∈ l) :
    l.foldl (fun t b => Function.update t (f b) (v b)) t (f b) = v b := by
  have hagree : ∀ b ∈ l, v b = Function.extend f v t (f b) := fun b _ => (hf.extend_apply v t b).symm
  rw [foldl_update_of_agree t hb hagree, hf.extend_apply]

end Loop

end PointUpdate
