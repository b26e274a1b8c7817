import CachedMoe.Framework.Region

/-! # Bounds-checked computations

    A computation that stops, with `none`, at its first access outside a vector or a region.
    `Checked o P v` says what such a computation amounts to: it goes through exactly when
    `P`, and then gives `v`. The rules follow the ways computations are put together, so
    that the condition of a whole program is read off its text. -/

/-- `o` goes through exactly when `P`, and then gives `v`. -/
structure Checked {α : Type*} (o : Option α) (P : Prop) (v : α) : Prop where
  ok : P → o = some v
  stuck : ¬ P → o = none

namespace Checked

variable {α β : Type*} {o : Option α} {P Q : Prop} {v a : α}

theorem isSome_iff (h : Checked o P v) : o.isSome = true ↔ P := by
  by_cases hP : P
  · simp [h.ok hP, hP]
  · simp [h.stuck hP, hP]

theorem congr (h : Checked o P v) (hPQ : P ↔ Q) : Checked o Q v where
  ok := fun hQ => h.ok (hPQ.mpr hQ)
  stuck := fun hQ => h.stuck (mt hPQ.mp hQ)

protected theorem pure (v : α) : Checked (some v) True v where
  ok := fun _ => rfl
  stuck := fun h => absurd trivial h

theorem bind {f : α → Option β} {w : β} (h : Checked o P v) (hf : Checked (f v) Q w) :
    Checked (o.bind f) (P ∧ Q) w where
  ok := fun ⟨hP, hQ⟩ => by rw [h.ok hP]; exact hf.ok hQ
  stuck := fun hPQ => by
    by_cases hP : P
    · rw [h.ok hP]
      exact hf.stuck fun hQ => hPQ ⟨hP, hQ⟩
    · rw [h.stuck hP]
      rfl

theorem map {f : α → β} (h : Checked o P v) : Checked (o.map f) P (f v) where
  ok := fun hP => by rw [h.ok hP]; rfl
  stuck := fun hP => by rw [h.stuck hP]; rfl

/-- A part that runs only in one of two cases. -/
theorem ite {c : Prop} [Decidable c] {w : α} (h : Checked o P v) :
    Checked (if c then o else some w) (c → P) (if c then v else w) := by
  by_cases hc : c
  · rw [if_pos hc, if_pos hc]
    exact h.congr (by simp [hc])
  · rw [if_neg hc, if_neg hc]
    exact (Checked.pure w).congr (by simp [hc])

/-! ### Loops -/

theorem mapM {f : α → Option β} {C : α → Prop} {g : α → β} :
    ∀ {l : List α}, (∀ a ∈ l, Checked (f a) (C a) (g a)) →
      Checked (l.mapM f) (∀ a ∈ l, C a) (l.map g)
  | [], _ => (Checked.pure []).congr (by simp)
  | a :: l, h => by
    have ih := mapM fun b hb => h b (List.mem_cons_of_mem a hb)
    rw [List.mapM_cons]
    exact ((h a List.mem_cons_self).bind (ih.bind (Checked.pure (g a :: l.map g)))).congr
      (by simp)

/-- A loop whose passes are checked, whatever the passes before them left. -/
theorem foldlM {f : β → α → Option β} {C : α → Prop} {g : β → α → β} :
    ∀ {l : List α} (b : β), (∀ b, ∀ a ∈ l, Checked (f b a) (C a) (g b a)) →
      Checked (l.foldlM f b) (∀ a ∈ l, C a) (l.foldl g b)
  | [], b, _ => (Checked.pure b).congr (by simp)
  | a :: l, b, h => by
    have ih := foldlM (g b a) fun b' a' ha' => h b' a' (List.mem_cons_of_mem a ha')
    rw [List.foldlM_cons]
    exact ((h b a List.mem_cons_self).bind ih).congr (by simp)

/-! ### Accesses -/

theorem getElem? (l : List α) (i : Nat) (d : α) : Checked l[i]? (i < l.length) (l.getD i d) where
  ok := fun hi => by rw [List.getD, List.getElem?_eq_getElem hi]; rfl
  stuck := fun hi => List.getElem?_eq_none (Nat.le_of_not_lt hi)

end Checked

namespace Region

variable {α : Type*}

/-- The source of a bulk copy: `n` elements of a vector, from `off` on. -/
def slice (l : List α) (off n : Nat) : Option (List α) :=
  if off + n ≤ l.length then some ((l.drop off).take n) else none

/-- The target of a bulk copy: a range between `lo` and `hi`. -/
def write_within (lo hi : Nat) (m : Nat → α) (off : Nat) (l : List α) : Option (Nat → α) :=
  if lo ≤ off ∧ off + l.length ≤ hi then some (write m off l) else none

theorem checked_slice (l : List α) (off n : Nat) :
    Checked (slice l off n) (off + n ≤ l.length) ((l.drop off).take n) where
  ok := fun h => if_pos h
  stuck := fun h => if_neg h

theorem checked_write_within (lo hi : Nat) (m : Nat → α) (off : Nat) (l : List α) :
    Checked (write_within lo hi m off l) (lo ≤ off ∧ off + l.length ≤ hi) (write m off l) where
  ok := fun h => if_pos h
  stuck := fun h => if_neg h

end Region
