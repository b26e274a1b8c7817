import CachedMoe.Text.Tokenizer

/-! # Naive BPE

    The reference procedure: merge the adjacent pair of the lowest rank, the leftmost one among
    equals, until no pair merges. -/

namespace CachedMoe.Text.Naive

variable (merges : Table (Nat × Nat) (Nat × Nat))

/-- The rank, the index and the new token of the pair to merge next. -/
def least_pair : List Nat → Option (Nat × Nat × Nat)
  | a :: b :: rest =>
    let later := (least_pair (b :: rest)).map fun (rank, i, id) => (rank, i + 1, id)
    match merges.find (a, b) with
    | none => later
    | some (rank, id) =>
      match later with
      | none => some (rank, 0, id)
      | some (rank', i, id') => if rank ≤ rank' then some (rank, 0, id) else some (rank', i, id')
  | _ => none

/-- The tokens `i` and `i + 1` become `id`. -/
def merge_pair_at : (i id : Nat) → List Nat → List Nat
  | 0, id, _ :: _ :: rest => id :: rest
  | i + 1, id, a :: rest => a :: merge_pair_at i id rest
  | _, _, l => l

/-- At most `fuel` merges; every one leaves a token less. -/
@[grind =] def merge_loop : (fuel : Nat) → List Nat → List Nat
  | 0, l => l
  | fuel + 1, l =>
    match least_pair merges l with
    | none => l
    | some (_, i, id) => merge_loop fuel (merge_pair_at i id l)

def merge_all (l : List Nat) : List Nat := merge_loop merges l.length l

/-- The reference for `Tokenizer::bpe`. -/
def bpe (im : Impl) (word : Bytes) : List Nat :=
  merge_all im.merges (word.map fun b => im.byte_id.getD b.toNat 0)

/-! ### The pair to merge -/

variable {merges} {l : List Nat} {a b i rank id : Nat}

/-- The tokens `i` and `i + 1` merge. -/
def Pair (merges : Table (Nat × Nat) (Nat × Nat)) (l : List Nat) (i rank id : Nat) : Prop :=
  ∃ a b, l[i]? = some a ∧ l[i + 1]? = some b ∧ merges.find (a, b) = some (rank, id)

/-- No other pair is merged before this one. -/
def Least (merges : Table (Nat × Nat) (Nat × Nat)) (l : List Nat) (i rank id : Nat) : Prop :=
  Pair merges l i rank id ∧
    ∀ j rank' id', Pair merges l j rank' id' → rank < rank' ∨ rank = rank' ∧ i ≤ j

theorem pair_zero {rest : List Nat} :
    Pair merges (a :: b :: rest) 0 rank id ↔ merges.find (a, b) = some (rank, id) := by
  simp [Pair]

theorem pair_succ : Pair merges (a :: l) (i + 1) rank id ↔ Pair merges l i rank id := by
  simp [Pair]

theorem pair_short (hl : l.length ≤ 1) : ¬ Pair merges l i rank id := by
  rintro ⟨a, b, _, hb, _⟩
  have hlt := (List.getElem?_eq_some_iff.mp hb).1
  omega

theorem least_pair_spec (l : List Nat) :
    (least_pair merges l = none ∧ ∀ i rank id, ¬ Pair merges l i rank id) ∨
      ∃ rank i id, least_pair merges l = some (rank, i, id) ∧ Least merges l i rank id := by
  induction l with
  | nil => exact .inl ⟨rfl, fun _ _ _ => pair_short (Nat.zero_le 1)⟩
  | cons a l ih =>
    cases l with
    | nil => exact .inl ⟨rfl, fun _ _ _ => pair_short (Nat.le_refl 1)⟩
    | cons b rest =>
      rw [least_pair]
      cases hfind : merges.find (a, b) with
      | none =>
        have hfirst : ∀ rank id, ¬ Pair merges (a :: b :: rest) 0 rank id := by
          intro rank id hpair
          rw [pair_zero, hfind] at hpair
          cases hpair
        rcases ih with ⟨hnone, hno⟩ | ⟨rank, i, id, hsome, hpair, hleast⟩
        · refine .inl ⟨by rw [hnone]; rfl, fun i rank id hpair => ?_⟩
          cases i with
          | zero => exact hfirst rank id hpair
          | succ i => exact hno i rank id (pair_succ.mp hpair)
        · refine .inr ⟨rank, i + 1, id, by rw [hsome]; rfl, pair_succ.mpr hpair, ?_⟩
          intro j rank' id' hpair'
          cases j with
          | zero => exact absurd hpair' (hfirst rank' id')
          | succ j =>
            rcases hleast j rank' id' (pair_succ.mp hpair') with hlt | ⟨heq, hle⟩
            · exact .inl hlt
            · exact .inr ⟨heq, Nat.succ_le_succ hle⟩
      | some m =>
        obtain ⟨rank, id⟩ := m
        have hfirst : ∀ rank' id', Pair merges (a :: b :: rest) 0 rank' id' → rank = rank' := by
          intro rank' id' hpair
          rw [pair_zero, hfind] at hpair
          cases hpair
          rfl
        -- the first pair wins against the least one of the rest when its rank is no larger
        rcases ih with ⟨hnone, hno⟩ | ⟨rank₁, i, id₁, hsome, hpair, hleast⟩
        · refine .inr ⟨rank, 0, id, by rw [hnone]; rfl, pair_zero.mpr hfind, ?_⟩
          intro j rank' id' hpair'
          cases j with
          | zero => exact .inr ⟨hfirst rank' id' hpair', Nat.le_refl 0⟩
          | succ j => exact absurd (pair_succ.mp hpair') (hno j rank' id')
        · by_cases hle : rank ≤ rank₁
          · refine .inr ⟨rank, 0, id, by rw [hsome]; exact if_pos hle, pair_zero.mpr hfind, ?_⟩
            intro j rank' id' hpair'
            cases j with
            | zero => exact .inr ⟨hfirst rank' id' hpair', Nat.le_refl 0⟩
            | succ j =>
              rcases hleast j rank' id' (pair_succ.mp hpair') with hlt | ⟨heq, _⟩
              · exact .inl (by omega)
              · rcases Nat.lt_or_eq_of_le (heq ▸ hle : rank ≤ rank') with hlt | heq'
                · exact .inl hlt
                · exact .inr ⟨heq', Nat.zero_le _⟩
          · refine .inr ⟨rank₁, i + 1, id₁, by rw [hsome]; exact if_neg hle,
              pair_succ.mpr hpair, ?_⟩
            intro j rank' id' hpair'
            cases j with
            | zero => exact .inl (hfirst rank' id' hpair' ▸ Nat.lt_of_not_le hle)
            | succ j =>
              rcases hleast j rank' id' (pair_succ.mp hpair') with hlt | ⟨heq, hle'⟩
              · exact .inl hlt
              · exact .inr ⟨heq, Nat.succ_le_succ hle'⟩

theorem least_pair_none (h : ∀ i rank id, ¬ Pair merges l i rank id) :
    least_pair merges l = none := by
  rcases least_pair_spec l with ⟨hnone, _⟩ | ⟨rank, i, id, _, hpair, _⟩
  · exact hnone
  · exact absurd hpair (h i rank id)

theorem least_pair_eq (h : Least merges l i rank id) : least_pair merges l = some (rank, i, id) := by
  obtain ⟨hpair, hleast⟩ := h
  rcases least_pair_spec l with ⟨_, hno⟩ | ⟨rank', i', id', hsome, hpair', hleast'⟩
  · exact absurd hpair (hno i rank id)
  · -- each of the two is merged no later than the other
    have hsame : rank = rank' ∧ i = i' := by
      rcases hleast i' rank' id' hpair' with hlt | ⟨heq, hle⟩
      · rcases hleast' i rank id hpair with hlt' | ⟨heq', _⟩
        · omega
        · omega
      · rcases hleast' i rank id hpair with hlt' | ⟨_, hle'⟩
        · omega
        · omega
    obtain ⟨rfl, rfl⟩ := hsame
    obtain ⟨a, b, ha, hb, hfind⟩ := hpair
    obtain ⟨a', b', ha', hb', hfind'⟩ := hpair'
    obtain rfl : a = a' := Option.some.inj (ha.symm.trans ha')
    obtain rfl : b = b' := Option.some.inj (hb.symm.trans hb')
    rw [hfind] at hfind'
    cases hfind'
    exact hsome

/-! ### The merges -/

theorem merge_pair_at_append (pre : List Nat) (a b id : Nat) (post : List Nat) :
    merge_pair_at pre.length id (pre ++ a :: b :: post) = pre ++ id :: post := by
  induction pre with
  | nil => rfl
  | cons x pre ih => exact congrArg (x :: ·) ih

theorem length_merge_pair_at (h : Pair merges l i rank id) :
    (merge_pair_at i id l).length + 1 = l.length := by
  induction i generalizing l with
  | zero =>
    cases l with
    | nil => exact absurd h (pair_short (Nat.zero_le 1))
    | cons a l =>
      cases l with
      | nil => exact absurd h (pair_short (Nat.le_refl 1))
      | cons b l => rfl
  | succ i ih =>
    cases l with
    | nil => exact absurd h (pair_short (Nat.zero_le 1))
    | cons a l =>
      rw [merge_pair_at, List.length_cons, List.length_cons, ih (pair_succ.mp h)]

theorem merge_all_stuck (h : ∀ i rank id, ¬ Pair merges l i rank id) : merge_all merges l = l := by
  unfold merge_all
  cases hlen : l.length with
  | zero => rfl
  | succ n => rw [merge_loop, least_pair_none h]

theorem merge_all_step (h : Least merges l i rank id) :
    merge_all merges l = merge_all merges (merge_pair_at i id l) := by
  have hlen := length_merge_pair_at h.1
  unfold merge_all
  rw [← hlen, merge_loop, least_pair_eq h]

end CachedMoe.Text.Naive
