import CachedMoe.Framework.Update
import Mathlib.Data.List.Nodup

/-! # Interning

    The distinct keys of a sequence in the order they first occur, and a table that finds the
    place of each. The table may be a scratch that outlives the sequence: erasing the keys of the
    sequence leaves it as empty as clearing it would. -/

namespace Interning

universe u

variable {κ : Type u} [DecidableEq κ]

/-! ### First occurrences -/

/-- One key more. -/
def note (keys : List κ) (k : κ) : List κ := if k ∈ keys then keys else keys ++ [k]

def firsts (ks : List κ) : List κ := ks.foldl note []

theorem mem_note {keys : List κ} {k k' : κ} : k' ∈ note keys k ↔ k' ∈ keys ∨ k' = k := by
  unfold note
  split
  next h =>
    constructor
    · exact Or.inl
    · rintro (h' | rfl)
      · exact h'
      · exact h
  · rw [List.mem_append, List.mem_singleton]

theorem nodup_note {keys : List κ} {k : κ} (h : keys.Nodup) : (note keys k).Nodup := by
  unfold note
  split
  · exact h
  next hk => exact List.nodup_append.mpr ⟨h, List.nodup_singleton k, by grind⟩

theorem mem_foldl_note {ks keys : List κ} {k : κ} :
    k ∈ ks.foldl note keys ↔ k ∈ keys ∨ k ∈ ks := by
  induction ks generalizing keys with
  | nil => simp
  | cons k' ks ih => rw [List.foldl_cons, ih, mem_note, List.mem_cons, or_assoc]

theorem nodup_foldl_note {ks keys : List κ} (h : keys.Nodup) : (ks.foldl note keys).Nodup := by
  induction ks generalizing keys with
  | nil => exact h
  | cons k ks ih => exact ih (nodup_note h)

/-- Keys that are noted later stand behind those there are. -/
theorem foldl_note_grows (ks keys : List κ) : ∃ more, ks.foldl note keys = keys ++ more := by
  induction ks generalizing keys with
  | nil => exact ⟨[], (List.append_nil keys).symm⟩
  | cons k ks ih =>
    obtain ⟨more, hmore⟩ := ih (note keys k)
    rw [List.foldl_cons, hmore]
    unfold note
    split
    · exact ⟨more, rfl⟩
    · exact ⟨k :: more, by rw [List.append_assoc]; rfl⟩

@[simp] theorem mem_firsts {ks : List κ} {k : κ} : k ∈ firsts ks ↔ k ∈ ks := by
  rw [firsts, mem_foldl_note]
  simp

theorem nodup_firsts (ks : List κ) : (firsts ks).Nodup := nodup_foldl_note List.nodup_nil

/-! ### The table of places -/

/-- The table finds every key at its place, and nothing else. -/
def Exact (index : κ → Option Nat) (keys : List κ) : Prop :=
  ∀ k i, index k = some i ↔ keys[i]? = some k

namespace Exact

variable {index : κ → Option Nat} {keys : List κ} {k : κ} {i : Nat}

omit [DecidableEq κ] in
theorem empty : Exact (fun _ : κ => none) [] := by
  intro k i
  simp

omit [DecidableEq κ] in
theorem none_iff (h : Exact index keys) : index k = none ↔ k ∉ keys := by
  rw [List.mem_iff_getElem?, Option.eq_none_iff_forall_ne_some, not_exists]
  exact forall_congr' fun i => not_congr (h k i)

/-- A key that is not in the table gets the next place. -/
theorem push (h : Exact index keys) (hk : index k = none) :
    Exact (Function.update index k (some keys.length)) (keys ++ [k]) := by
  have hnew := h.none_iff.mp hk
  intro k' i
  by_cases heq : k' = k
  · subst heq
    rw [Function.update_self, Option.some.injEq]
    constructor
    · rintro rfl
      exact List.getElem?_concat_length
    · intro hi
      by_contra hne
      rw [List.getElem?_append] at hi
      split at hi
      next hlt => exact hnew (List.mem_of_getElem? hi)
      next hge =>
        have hzero : i - keys.length ≠ 0 := by omega
        simp [hzero] at hi
  · rw [Function.update_of_ne heq, h k' i, List.getElem?_append]
    split
    · exact Iff.rfl
    next hge =>
      rw [List.getElem?_eq_none (Nat.le_of_not_lt hge)]
      constructor
      · intro h
        cases h
      · intro h
        exact absurd (List.mem_singleton.mp (List.mem_of_getElem? h)) heq

/-- Erasing the keys empties the table. -/
theorem erase_all (h : Exact index keys) :
    keys.foldl (fun t k => Function.update t k none) index = fun _ => none := by
  funext k
  by_cases hk : k ∈ keys
  · exact PointUpdate.foldl_update_of_agree (f := id) (v := fun _ => none) (g := fun _ => none)
      index hk fun _ _ => rfl
  · have hskip : ∀ k' ∈ keys, id k' ≠ k := by
      rintro k' hk' rfl
      exact hk hk'
    exact (PointUpdate.foldl_update_of_ne id (fun _ => none) index hskip).trans
      (h.none_iff.mpr hk)

end Exact

end Interning
