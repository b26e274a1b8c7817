import Mathlib.Data.Finset.Card
import Mathlib.Order.Defs.LinearOrder

/-! # The newest of what was seen

    A bounded collection that keeps the `n` newest of the keys it has seen, by a rank that
    is raised when a key is seen again:

    * `Newest`: what such a collection holds;
    * one lemma for each thing it can do when a key is seen: touch, admit, skip, replace;
    * `Newest.unique`: what was seen, and at which rank, decides what is kept. -/

universe u v

variable {κ : Type u} {ρ : Type v} [LinearOrder ρ]

/-- `kept` are the `n` newest of `seen`. -/
structure Newest (n : Nat) (seen kept : Finset κ) (rank : κ → ρ) : Prop where
  subset : kept ⊆ seen
  card : kept.card = min n seen.card
  newer : ∀ k ∈ kept, ∀ k' ∈ seen, k' ∉ kept → rank k' < rank k

namespace Newest

variable {n : Nat} {seen kept kept' : Finset κ} {rank rank' : κ → ρ} {k : κ}

/-- Nothing was thrown out yet. -/
theorem all (h : seen.card ≤ n) : Newest n seen seen rank where
  subset := Finset.Subset.refl seen
  card := (Nat.min_eq_right h).symm
  newer := fun _ _ _ hk' hnot => absurd hk' hnot

/-- Two collections of the newest are the same. -/
theorem unique (h : Newest n seen kept rank) (h' : Newest n seen kept' rank) : kept = kept' := by
  have hcard : kept.card = kept'.card := h.card.trans h'.card.symm
  by_contra hne
  have hnot : ¬ kept ⊆ kept' := fun hsub => hne (Finset.eq_of_subset_of_card_le hsub hcard.ge)
  have hnot' : ¬ kept' ⊆ kept := fun hsub => hne (Finset.eq_of_subset_of_card_le hsub hcard.le).symm
  obtain ⟨a, ha, ha'⟩ := Finset.not_subset.mp hnot
  obtain ⟨b, hb, hb'⟩ := Finset.not_subset.mp hnot'
  -- each is newer than the other
  have hlt := h.newer a ha b (h'.subset hb) hb'
  have hlt' := h'.newer b hb a (h.subset ha) ha'
  exact lt_asymm hlt hlt'

/-- The collection is not full: it holds everything it has seen. -/
theorem eq_seen (h : Newest n seen kept rank) (hfree : kept.card < n) : kept = seen := by
  have hcard := h.card
  have hle : seen.card ≤ kept.card := by omega
  exact Finset.eq_of_subset_of_card_le h.subset hle

variable [DecidableEq κ]

/-- A new key comes in while there is room. -/
theorem admit_new (h : Newest n seen kept rank) (hfree : kept.card < n) (hk : k ∉ kept) :
    Newest n (insert k seen) (insert k kept) rank' := by
  obtain rfl := h.eq_seen hfree
  refine all ?_
  rw [Finset.card_insert_of_notMem hk]
  exact hfree

section Step

variable (hsame : ∀ j, j ≠ k → rank' j = rank j)

include hsame

/-- A key that is kept is seen again. -/
theorem touch (h : Newest n seen kept rank) (hk : k ∈ kept) (hle : rank k ≤ rank' k) :
    Newest n seen kept rank' where
  subset := h.subset
  card := h.card
  newer := by
    intro a ha b hb hnot
    have hbk : b ≠ k := fun heq => hnot (heq ▸ hk)
    rw [hsame b hbk]
    by_cases hak : a = k
    · rw [hak] at ha ⊢
      exact lt_of_lt_of_le (h.newer k ha b hb hnot) hle
    · rw [hsame a hak]
      exact h.newer a ha b hb hnot

/-- A key older than all that are kept is passed over. -/
theorem skip (h : Newest n seen kept rank) (hfull : kept.card = n) (hk : k ∉ kept)
    (hold : ∀ j ∈ kept, rank' k < rank j) : Newest n (insert k seen) kept rank' where
  subset := h.subset.trans (Finset.subset_insert k seen)
  card := by
    have hle := Finset.card_le_card (h.subset.trans (Finset.subset_insert k seen))
    omega
  newer := by
    intro a ha b hb hnot
    have hak : a ≠ k := fun heq => hk (heq ▸ ha)
    rw [hsame a hak]
    by_cases hbk : b = k
    · rw [hbk]
      exact hold a ha
    · rw [hsame b hbk]
      exact h.newer a ha b ((Finset.mem_insert.mp hb).resolve_left hbk) hnot

/-- A key takes the place of the oldest that is kept. -/
theorem replace (h : Newest n seen kept rank) (hfull : kept.card = n) (hk : k ∉ kept) {v : κ}
    (hv : v ∈ kept) (holdest : ∀ j ∈ kept, j ≠ v → rank v < rank j) (hnew : rank v < rank' k) :
    Newest n (insert k seen) (insert k (kept.erase v)) rank' where
  subset := Finset.insert_subset_insert k ((Finset.erase_subset v kept).trans h.subset)
  card := by
    have hnot : k ∉ kept.erase v := fun hmem => hk (Finset.mem_of_mem_erase hmem)
    have hpos : 0 < kept.card := Finset.card_pos.mpr ⟨v, hv⟩
    have hle := Finset.card_le_card (h.subset.trans (Finset.subset_insert k seen))
    rw [Finset.card_insert_of_notMem hnot, Finset.card_erase_of_mem hv]
    omega
  newer := by
    have hvk : v ≠ k := fun heq => hk (heq ▸ hv)
    intro a ha b hb hnot
    rw [Finset.mem_insert, not_or] at hnot
    have hb' : b ∈ seen := (Finset.mem_insert.mp hb).resolve_left hnot.1
    rw [hsame b hnot.1]
    -- what is left out now is the old oldest, or was left out before
    have hbv : rank b ≤ rank v := by
      by_cases heq : b = v
      · rw [heq]
      · have hout : b ∉ kept := fun hmem => hnot.2 (Finset.mem_erase.mpr ⟨heq, hmem⟩)
        exact (h.newer v hv b hb' hout).le
    rcases Finset.mem_insert.mp ha with hak | hmem
    · rw [hak]
      exact lt_of_le_of_lt hbv hnew
    · obtain ⟨hav, hak⟩ := Finset.mem_erase.mp hmem
      have hne : a ≠ k := fun heq => hk (heq ▸ hak)
      rw [hsame a hne]
      exact lt_of_le_of_lt hbv (holdest a hak hav)

end Step

end Newest
