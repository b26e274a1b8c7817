import Mathlib.Algebra.BigOperators.Group.List.Basic
import Mathlib.Algebra.Order.BigOperators.Group.Finset
import Mathlib.Data.List.Perm.Basic
import Mathlib.Data.List.Sort
import Mathlib.Data.Prod.Basic

/-! # Ranked lists

    A list in the order of a strict relation: the first `k` of it are the elements with fewer
    than `k` before them, what is closed upwards is at its front, and no selection weighs more
    than as many elements from the front. Also how much of a front it takes to weigh enough,
    and the order of indices by their values. -/

namespace Ranked

/-! ### The front of a ranked list -/

section Front

variable {α : Type} {r : α → α → Prop}

/-- The first `k` are those with fewer than `k` elements before them. -/
theorem mem_take_iff [DecidableRel r] (hirrefl : ∀ a, ¬ r a a) (hasymm : ∀ a b, r a b → ¬ r b a)
    {l : List α} (hl : l.Pairwise r) {a : α} (ha : a ∈ l) : ∀ k : Nat,
    a ∈ l.take k ↔ l.countP (fun b => r b a) < k := by
  induction l with
  | nil => cases ha
  | cons b l ih =>
    have hbl : ∀ c ∈ l, r b c := (List.pairwise_cons.mp hl).1
    intro k
    rw [List.countP_cons]
    by_cases hab : a = b
    · -- nothing after the head is before it
      subst hab
      have hnone : l.countP (fun c => r c a) = 0 := by
        rw [List.countP_eq_zero]
        intro c hc
        rw [decide_eq_true_eq]
        exact hasymm a c (hbl c hc)
      rw [hnone, if_neg (by rw [decide_eq_true_eq]; exact hirrefl a), Nat.add_zero]
      cases k with
      | zero => exact ⟨fun h => absurd h List.not_mem_nil, fun h => absurd h (Nat.lt_irrefl 0)⟩
      | succ k => exact ⟨fun _ => Nat.succ_pos k, fun _ => List.mem_cons_self⟩
    · have hal : a ∈ l := (List.mem_cons.mp ha).resolve_left hab
      rw [if_pos (by rw [decide_eq_true_eq]; exact hbl a hal)]
      cases k with
      | zero => exact ⟨fun h => absurd h List.not_mem_nil, fun h => absurd h (Nat.not_lt_zero _)⟩
      | succ k =>
        have hmem : a ∈ (b :: l).take (k + 1) ↔ a ∈ l.take k := by
          rw [List.take_succ_cons, List.mem_cons]
          exact ⟨fun h => h.resolve_left hab, Or.inr⟩
        rw [hmem, ih (List.pairwise_cons.mp hl).2 hal k]
        exact (Nat.add_lt_add_iff_right).symm

/-- What holds of an element before one it holds of, holds of a front of the list. -/
theorem filter_eq_take {p : α → Bool} {l : List α} (hl : l.Pairwise r)
    (hup : ∀ a b, r a b → p b = true → p a = true) : l.filter p = l.take (l.countP p) := by
  induction l with
  | nil => rfl
  | cons a l ih =>
    have hal : ∀ b ∈ l, r a b := (List.pairwise_cons.mp hl).1
    cases hpa : p a with
    | true =>
      rw [List.filter_cons_of_pos hpa, List.countP_cons_of_pos hpa, List.take_succ_cons,
        ih (List.pairwise_cons.mp hl).2]
    | false =>
      have hnone : ∀ b ∈ a :: l, ¬ p b = true := by
        intro b hb hpb
        rcases List.mem_cons.mp hb with rfl | hb
        · rw [hpa] at hpb
          exact Bool.false_ne_true hpb
        · rw [hup a b (hal b hb) hpb] at hpa
          exact Bool.noConfusion hpa
      rw [List.filter_eq_nil_iff.mpr hnone, List.countP_eq_zero.mpr hnone, List.take_zero]

/-- Two ranked lists of the same elements are the same list. -/
theorem eq_of_perm (hasymm : ∀ a b, r a b → ¬ r b a) {l l' : List α} (hl : l.Pairwise r)
    (hl' : l'.Pairwise r) (hperm : l.Perm l') : l = l' :=
  hperm.eq_of_pairwise (fun a b _ _ hab hba => absurd hba (hasymm a b hab)) hl hl'

end Front

/-! ### The heaviest selection -/

section Weight

variable {α R : Type} [AddCommMonoid R] [PartialOrder R] [IsOrderedAddMonoid R]

/-- Where the weights fall along the list, its front is as heavy as any selection of its size. -/
theorem sum_le_sum_take {w : α → R} {l : List α} (hl : l.Pairwise fun a b => w b ≤ w a)
    {s : Finset α} (hs : ∀ a ∈ s, a ∈ l) :
    ∑ a ∈ s, w a ≤ ((l.take s.card).map w).sum := by
  classical
  induction l generalizing s with
  | nil =>
    obtain rfl : s = ∅ := Finset.eq_empty_of_forall_notMem fun a ha => List.not_mem_nil (hs a ha)
    exact le_rfl
  | cons b l ih =>
    have hbl : ∀ c ∈ l, w c ≤ w b := (List.pairwise_cons.mp hl).1
    have htail : ∀ t : Finset α, (∀ a ∈ t, a ∈ l) → ∑ a ∈ t, w a ≤ ((l.take t.card).map w).sum :=
      fun t ht => ih (List.pairwise_cons.mp hl).2 ht
    by_cases hbs : b ∈ s
    · have hrest : ∀ a ∈ s.erase b, a ∈ l := by
        intro a ha
        obtain ⟨hab, has⟩ := Finset.mem_erase.mp ha
        exact (List.mem_cons.mp (hs a has)).resolve_left hab
      have hcard : s.card = (s.erase b).card + 1 := (Finset.card_erase_add_one hbs).symm
      rw [hcard, List.take_succ_cons, List.map_cons, List.sum_cons,
        ← Finset.add_sum_erase s w hbs]
      exact add_le_add le_rfl (htail _ hrest)
    · have hrest : ∀ a ∈ s, a ∈ l := by
        intro a ha
        refine (List.mem_cons.mp (hs a ha)).resolve_left ?_
        rintro rfl
        exact hbs ha
      refine (htail s hrest).trans ?_
      have hcard : s.card ≤ l.length :=
        (Finset.card_le_card fun a ha => List.mem_toFinset.mpr (hrest a ha)).trans
          (List.toFinset_card_le l)
      cases hk : s.card with
      | zero => exact le_rfl
      | succ k =>
        -- the last of the front of `l` gives way to the head
        have hlen : k < l.length := by omega
        rw [List.take_succ_cons, List.map_cons, List.sum_cons,
          List.take_succ_eq_append_getElem hlen, List.map_append, List.sum_append,
          List.map_singleton, List.sum_singleton, add_comm]
        exact add_le_add (hbl _ (List.getElem_mem hlen)) le_rfl

end Weight

/-! ### Reaching a weight -/

section Reach

variable {α R : Type} [AddCommMonoid R]

/-- What the first `n` of a list weigh together. -/
def front_weight (w : α → R) (l : List α) (n : Nat) : R := ((l.take n).map w).sum

variable {w : α → R} {l : List α}

theorem front_weight_succ {a : α} (n : Nat) :
    front_weight w (a :: l) (n + 1) = w a + front_weight w l n := by
  rw [front_weight, List.take_succ_cons, List.map_cons, List.sum_cons]
  rfl

variable [LinearOrder R]

/-- How many from the front of a list, one at least, it takes for them to weigh `t`; all of it
    where that is not enough. -/
def reach (w : α → R) (t : R) (l : List α) : Nat :=
  ((List.range l.length).find? fun n => t ≤ front_weight w l (n + 1)).elim l.length (· + 1)

variable {t : R}

theorem reach_eq {n : Nat} (hn : n < l.length) (ht : t ≤ front_weight w l (n + 1))
    (hlt : ∀ m < n, front_weight w l (m + 1) < t) : reach w t l = n + 1 := by
  have hfind : (List.range l.length).find? (fun n => t ≤ front_weight w l (n + 1)) = some n := by
    rw [List.find?_range_eq_some]
    refine ⟨decide_eq_true ht, List.mem_range.mpr hn, fun m hm => ?_⟩
    rw [decide_eq_false (not_le.mpr (hlt m hm))]
    rfl
  rw [reach, hfind]
  rfl

/-- Where only the whole list may weigh enough. -/
theorem reach_eq_length (hlt : ∀ m, m + 1 < l.length → front_weight w l (m + 1) < t) :
    reach w t l = l.length := by
  rw [reach]
  cases hfind : (List.range l.length).find? (fun n => t ≤ front_weight w l (n + 1)) with
  | none => rfl
  | some n =>
    rw [List.find?_range_eq_some] at hfind
    have hn : n < l.length := List.mem_range.mp hfind.2.1
    have hlast : ¬ n + 1 < l.length := fun h => (hlt n h).not_ge (of_decide_eq_true hfind.1)
    exact Nat.le_antisymm hn (not_lt.mp hlast)

/-- Of positive weights a proper front weighs less than the whole. -/
theorem front_weight_lt [IsOrderedCancelAddMonoid R] (hw : ∀ a ∈ l, 0 < w a) {n : Nat}
    (hn : n < l.length) : front_weight w l n < (l.map w).sum := by
  induction l generalizing n with
  | nil => exact absurd hn (Nat.not_lt_zero n)
  | cons a l ih =>
    have hrest : ∀ b ∈ l, 0 < w b := fun b hb => hw b (List.mem_cons_of_mem a hb)
    rw [List.map_cons, List.sum_cons]
    cases n with
    | zero =>
      have hsum : 0 ≤ (l.map w).sum := by
        refine List.sum_nonneg fun x hx => ?_
        obtain ⟨b, hb, rfl⟩ := List.mem_map.mp hx
        exact (hrest b hb).le
      exact add_pos_of_pos_of_nonneg (hw a List.mem_cons_self) hsum
    | succ n =>
      rw [front_weight_succ]
      exact add_lt_add_right (ih hrest (Nat.lt_of_succ_lt_succ hn)) _

end Reach

/-! ### The order by value -/

section ByValue

variable {R : Type} [LinearOrder R] {a b c : R × Nat}

/-- The higher value first, and the lower index at equal values. -/
def Before (a b : R × Nat) : Prop := if a.1 ≠ b.1 then a.1 > b.1 else a.2 < b.2

instance : DecidableRel (@Before R _) := fun a b => by
  unfold Before
  infer_instance

theorem before_iff : Before a b ↔ b.1 < a.1 ∨ a.1 = b.1 ∧ a.2 < b.2 := by
  unfold Before
  by_cases heq : a.1 = b.1
  · rw [if_neg (fun h => h heq)]
    exact ⟨fun h => .inr ⟨heq, h⟩, fun h => h.elim (fun hlt => absurd heq hlt.ne') And.right⟩
  · rw [if_pos heq]
    exact ⟨.inl, fun h => h.resolve_right fun h => heq h.1⟩

theorem before_irrefl (a : R × Nat) : ¬ Before a a := by
  rw [before_iff]
  rintro (h | ⟨-, h⟩)
  · exact lt_irrefl _ h
  · exact Nat.lt_irrefl _ h

theorem before_asymm (a b : R × Nat) (hab : Before a b) : ¬ Before b a := by
  rw [before_iff] at *
  rintro (h | ⟨heq, h⟩)
  · rcases hab with hlt | ⟨heq, -⟩
    · exact lt_asymm hlt h
    · exact h.ne heq
  · rcases hab with hlt | ⟨-, hlt⟩
    · exact hlt.ne heq
    · exact Nat.lt_asymm hlt h

theorem not_before_iff : ¬ Before a b ↔ a.1 < b.1 ∨ a.1 = b.1 ∧ b.2 ≤ a.2 := by
  rw [before_iff]
  rcases lt_trichotomy a.1 b.1 with hlt | heq | hgt
  · exact ⟨fun _ => .inl hlt, fun _ h => h.elim hlt.not_gt fun h => hlt.ne h.1⟩
  · rw [heq]
    simp
  · exact ⟨fun h => absurd (.inl hgt) h,
      fun h => h.elim (fun h => absurd h hgt.not_gt) fun h => absurd h.1.symm hgt.ne⟩

theorem eq_of_not_before (hab : ¬ Before a b) (hba : ¬ Before b a) : a = b := by
  rw [not_before_iff] at hab hba
  rcases hab with hlt | ⟨heq, hle⟩
  · rcases hba with hlt' | ⟨heq', -⟩
    · exact absurd hlt' hlt.not_gt
    · exact absurd heq'.symm hlt.ne
  · rcases hba with hlt' | ⟨-, hle'⟩
    · exact absurd heq hlt'.ne'
    · exact Prod.ext heq (Nat.le_antisymm hle' hle)

/-- `std::sort` by `Before`. -/
def ranked (l : List (R × Nat)) : List (R × Nat) := l.insertionSort fun a b => ¬ Before b a

theorem ranked_perm (l : List (R × Nat)) : (ranked l).Perm l := List.perm_insertionSort _ l

theorem ranked_pairwise {l : List (R × Nat)} (hl : l.Nodup) : (ranked l).Pairwise Before := by
  have htotal : Std.Total fun a b : R × Nat => ¬ Before b a := by
    refine ⟨fun a b => ?_⟩
    by_cases hba : Before b a
    · exact .inr (before_asymm b a hba)
    · exact .inl hba
  have htrans : IsTrans (R × Nat) fun a b => ¬ Before b a := by
    refine ⟨fun a b c hba hcb => ?_⟩
    rw [not_before_iff] at *
    rcases hba with hlt | ⟨heq, hle⟩
    · exact hcb.elim (fun h => .inl (h.trans hlt)) fun h => .inl (h.1 ▸ hlt)
    · rcases hcb with hlt | ⟨heq', hle'⟩
      · exact .inl (heq ▸ hlt)
      · exact .inr ⟨heq'.trans heq, hle.trans hle'⟩
  have hnd : (ranked l).Pairwise (· ≠ ·) := (ranked_perm l).nodup_iff.mpr hl
  refine ((List.pairwise_insertionSort _ l).and hnd).imp ?_
  intro a b hab
  by_contra hnot
  exact hab.2 (eq_of_not_before hnot hab.1)

/-- What is closed upwards is ranked as a front of it all. -/
theorem ranked_front {l l' : List (R × Nat)} {p : R × Nat → Bool} (hl : l.Nodup)
    (hperm : l'.Perm (l.filter p)) (hup : ∀ a b, Before a b → p b = true → p a = true) :
    ranked l' = (ranked l).take ((ranked l).countP p) := by
  have hfull := ranked_pairwise hl
  rw [← filter_eq_take hfull hup]
  refine eq_of_perm before_asymm (ranked_pairwise (hperm.nodup_iff.mpr (hl.filter p)))
    (hfull.filter p) ?_
  exact ((ranked_perm _).trans hperm).trans ((ranked_perm _).filter p).symm

/-! ### Indices by value -/

/-- The indices below `n`, by falling value and then by rising index. -/
def best_first (v : Nat → R) (n : Nat) : List Nat :=
  (ranked ((List.range n).map fun i => (v i, i))).map Prod.snd

/-- How many of the indices below `n` are before `i`. -/
def rank (v : Nat → R) (n i : Nat) : Nat :=
  (List.range n).countP fun j => Before (v j, j) (v i, i)

section Indices

variable (v : Nat → R) (n : Nat)

theorem best_first_perm : (best_first v n).Perm (List.range n) := by
  have hperm := (ranked_perm ((List.range n).map fun i => (v i, i))).map Prod.snd
  rw [List.map_map] at hperm
  exact hperm.trans (.of_eq (List.map_id _))

theorem nodup_best_first : (best_first v n).Nodup :=
  (best_first_perm v n).nodup_iff.mpr List.nodup_range

theorem length_best_first : (best_first v n).length = n :=
  (best_first_perm v n).length_eq.trans List.length_range

/-- The first `k` indices are those with fewer than `k` before them. -/
theorem mem_take_best_first {i k : Nat} (hi : i < n) :
    i ∈ (best_first v n).take k ↔ rank v n i < k := by
  have hnodup : ((List.range n).map fun i => (v i, i)).Nodup := by
    apply List.Nodup.of_map Prod.snd
    rw [List.map_map]
    exact (congrArg List.Nodup (List.map_id _)).mpr List.nodup_range
  have hmem : (v i, i) ∈ ranked ((List.range n).map fun i => (v i, i)) :=
    (ranked_perm _).mem_iff.mpr (List.mem_map_of_mem (List.mem_range.mpr hi))
  have hfront := mem_take_iff before_irrefl before_asymm (ranked_pairwise hnodup) hmem k
  rw [(ranked_perm _).countP_eq, List.countP_map] at hfront
  change _ ↔ (List.range n).countP _ < k
  refine .trans ?_ hfront
  rw [best_first, ← List.map_take, List.mem_map]
  constructor
  · rintro ⟨p, hp, rfl⟩
    obtain ⟨j, -, rfl⟩ := List.mem_map.mp ((ranked_perm _).mem_iff.mp (List.mem_of_mem_take hp))
    exact hp
  · intro h
    exact ⟨_, h, rfl⟩

variable {v n} {S : Type} [LinearOrder S] {w : Nat → S} {i m : Nat}

theorem rank_succ (v : Nat → R) (n i : Nat) :
    rank v (n + 1) i = rank v n i + if Before (v n, n) (v i, i) then 1 else 0 := by
  rw [rank, List.range_succ, List.countP_append, List.countP_singleton]
  congr 1
  by_cases h : Before (v n, n) (v i, i)
  · simp [h]
  · simp [h]

theorem rank_congr (h : ∀ j < n, Before (v j, j) (v i, i) ↔ Before (w j, j) (w i, i)) :
    rank v n i = rank w n i := by
  apply List.countP_congr
  intro j hj
  rw [decide_eq_true_iff, decide_eq_true_iff]
  exact h j (List.mem_range.mp hj)

/-- Indices from `n` on that are not before `i` do not count. -/
theorem rank_eq_of_not_before (hnm : n ≤ m)
    (h : ∀ j, n ≤ j → j < m → ¬ Before (v j, j) (v i, i)) : rank v m i = rank v n i := by
  induction m, hnm using Nat.le_induction with
  | base => rfl
  | succ m hm ih =>
    rw [rank_succ, if_neg (h m hm (Nat.lt_succ_self m)),
      ih fun j hj hjm => h j hj (Nat.lt_succ_of_lt hjm)]
    rfl

/-- Indices that are all before `i` count. -/
theorem le_rank (hmn : m ≤ n) (h : ∀ j < m, Before (v j, j) (v i, i)) : m ≤ rank v n i := by
  have hall : rank v m i = m := by
    rw [rank, List.countP_eq_length.mpr, List.length_range]
    intro j hj
    exact decide_eq_true (h j (List.mem_range.mp hj))
  calc m = rank v m i := hall.symm
    _ ≤ rank v n i := (List.range_sublist.mpr hmn).countP_le

end Indices

/-! ### The first maximum -/

/-- The first index of the greatest of `n` values. -/
@[grind =] def first_argmax (v : Nat → R) : (n : Nat) → Nat
  | 0 => 0
  | n + 1 => if v n > v (first_argmax v n) then n else first_argmax v n

variable {v : Nat → R} {n : Nat}

theorem first_argmax_lt (hn : 0 < n) : first_argmax v n < n := by
  induction n with
  | zero => exact absurd hn (Nat.lt_irrefl 0)
  | succ n ih =>
    rw [first_argmax]
    split
    · exact Nat.lt_succ_self n
    · cases n with
      | zero => exact Nat.lt_succ_self 0
      | succ n => exact Nat.lt_succ_of_lt (ih (Nat.succ_pos n))

theorem first_argmax_congr {v' : Nat → R} (h : ∀ i < n, v i = v' i) :
    first_argmax v n = first_argmax v' n := by
  induction n with
  | zero => rfl
  | succ n ih =>
    have hrest := ih fun i hi => h i (Nat.lt_succ_of_lt hi)
    have hle : first_argmax v' n < n + 1 := by
      cases n with
      | zero => exact Nat.one_pos
      | succ n => exact Nat.lt_succ_of_lt (first_argmax_lt (Nat.succ_pos n))
    rw [first_argmax, first_argmax, hrest, h n (Nat.lt_succ_self n), h _ hle]

theorem le_first_argmax {i : Nat} (hi : i < n) : v i ≤ v (first_argmax v n) := by
  induction n with
  | zero => exact absurd hi (Nat.not_lt_zero i)
  | succ n ih =>
    rw [first_argmax]
    split
    · rename_i hgt
      rcases Nat.lt_succ_iff_lt_or_eq.mp hi with hi | rfl
      · exact (ih hi).trans hgt.le
      · exact le_rfl
    · rename_i hle
      rcases Nat.lt_succ_iff_lt_or_eq.mp hi with hi | rfl
      · exact ih hi
      · exact not_lt.mp hle

theorem lt_of_lt_first_argmax {i : Nat} (hi : i < first_argmax v n) :
    v i < v (first_argmax v n) := by
  induction n with
  | zero => exact absurd hi (Nat.not_lt_zero i)
  | succ n ih =>
    rw [first_argmax] at hi ⊢
    split at hi
    · rename_i hgt
      rw [if_pos hgt]
      exact (le_first_argmax hi).trans_lt hgt
    · rename_i hle
      rw [if_neg hle]
      exact ih hi

theorem first_argmax_first {i : Nat} (hi : i < n) :
    ¬ Before (v i, i) (v (first_argmax v n), first_argmax v n) := by
  have hle : v i ≤ v (first_argmax v n) := le_first_argmax hi
  rw [not_before_iff]
  rcases hle.lt_or_eq with hlt | heq
  · exact .inl hlt
  · refine .inr ⟨heq, not_lt.mp fun hlt => ?_⟩
    have hlower : v i < v (first_argmax v n) := lt_of_lt_first_argmax hlt
    exact hlower.ne heq

/-- The first maximum is the one that nothing is before. -/
theorem eq_first_argmax_iff {t : Nat} (ht : t < n) :
    t = first_argmax v n ↔ ∀ i < n, ¬ Before (v i, i) (v t, t) := by
  constructor
  · rintro rfl i hi
    exact first_argmax_first hi
  · intro hnone
    have hlt : first_argmax v n < n := first_argmax_lt (Nat.zero_lt_of_lt ht)
    exact congrArg Prod.snd (eq_of_not_before (first_argmax_first ht) (hnone _ hlt))

end ByValue

end Ranked
