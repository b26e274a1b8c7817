import Mathlib.Algebra.Order.Group.Defs
import Mathlib.Order.Monotone.Basic
import CachedMoe.Framework.Ranking

/-! # Best paths through a trellis

    A path chooses one of `K` candidates at every stage. Where what is ahead counts more the
    more it is worth, choosing backwards stage by stage finds a path that is worth most; where
    the steps add up, so does choosing forwards with back pointers. -/

namespace Trellis

open Ranked

variable {R : Type} [LinearOrder R] {K : Nat}

/-! ### Backwards -/

section Backward

variable (f : Nat → Nat → Nat → R → R) (z : R)

/-- What a path is worth from stage `i` on, for `n` stages: `f i prev c` takes the worth of the
    rest to the worth with the choice `c`. -/
def worth : (n i prev : Nat) → (Nat → Nat) → R
  | 0, _, _, _ => z
  | n + 1, i, prev, path => f i prev (path i) (worth n (i + 1) (path i) path)

/-- The most any path is worth. -/
def best (K : Nat) : (n i prev : Nat) → R
  | 0, _, _ => z
  | n + 1, i, prev =>
    f i prev (first_argmax (fun c => f i prev c (best K n (i + 1) c)) K)
      (best K n (i + 1) (first_argmax (fun c => f i prev c (best K n (i + 1) c)) K))

/-- The choice at a stage with `n` stages after it. -/
def choice (K n i prev : Nat) : Nat := first_argmax (fun c => f i prev c (best f z K n (i + 1) c)) K

variable {f} {z}

theorem worth_le_best (hmono : ∀ i prev c, Monotone (f i prev c)) {path : Nat → Nat}
    (n i prev : Nat) (hpath : ∀ j, i ≤ j → j < i + n → path j < K) :
    worth f z n i prev path ≤ best f z K n i prev := by
  induction n generalizing i prev with
  | zero => exact le_rfl
  | succ n ih =>
    have hrest := ih (i + 1) (path i) fun j hij hj => hpath j (by omega) (by omega)
    have hchoice : f i prev (path i) (best f z K n (i + 1) (path i)) ≤ best f z K (n + 1) i prev :=
      @le_first_argmax R _ (fun c => f i prev c (best f z K n (i + 1) c)) K (path i)
        (hpath i (Nat.le_refl i) (by omega))
    exact (hmono i prev (path i) hrest).trans hchoice

/-- A path that makes the choices is worth as much. -/
theorem worth_eq_best {path : Nat → Nat} (n i prev : Nat)
    (hfirst : 0 < n → path i = choice f z K (n - 1) i prev)
    (hnext : ∀ j, i < j → j < i + n →
      path j = choice f z K (i + n - 1 - j) j (path (j - 1))) :
    worth f z n i prev path = best f z K n i prev := by
  induction n generalizing i prev with
  | zero => rfl
  | succ n ih =>
    have hi : path i = choice f z K n i prev := hfirst (Nat.succ_pos n)
    have hrest : worth f z n (i + 1) (path i) path = best f z K n (i + 1) (path i) := by
      refine ih (i + 1) (path i) (fun hn => ?_) fun j hij hj => ?_
      · have h := hnext (i + 1) (Nat.lt_succ_self i) (by omega)
        rwa [Nat.add_sub_cancel, show i + (n + 1) - 1 - (i + 1) = n - 1 by omega] at h
      · have h := hnext j (by omega) (by omega)
        rwa [show i + (n + 1) - 1 - j = i + 1 + n - 1 - j by omega] at h
    rw [worth, hrest, hi]
    rfl

end Backward

/-! ### Forwards -/

section Forward

variable [AddCommGroup R] (s : Nat → Nat → Nat → R)

/-- Sum of the steps of a path up to stage `n`. -/
def score : Nat → (Nat → Nat) → R
  | 0, path => s 0 0 (path 0)
  | n + 1, path => score n path + s (n + 1) (path n) (path (n + 1))

/-- The highest score of a path to a candidate, and where it comes from. -/
def reach (K : Nat) : (n c : Nat) → R
  | 0, c => s 0 0 c
  | n + 1, c =>
    reach K n (first_argmax (fun p => reach K n p + s (n + 1) p c) K) +
      s (n + 1) (first_argmax (fun p => reach K n p + s (n + 1) p c) K) c

def back (K n c : Nat) : Nat := first_argmax (fun p => reach s K n p + s (n + 1) p c) K

variable {s}

/-- A path along the back pointers scores as much. -/
theorem score_eq_reach {path : Nat → Nat} {n : Nat}
    (hback : ∀ i < n, path i = back s K i (path (i + 1))) :
    score s n path = reach s K n (path n) := by
  induction n with
  | zero => rfl
  | succ n ih =>
    have hn : path n = back s K n (path (n + 1)) := hback n (Nat.lt_succ_self n)
    rw [score, ih fun i hi => hback i (Nat.lt_succ_of_lt hi), hn]
    rfl

variable [IsOrderedAddMonoid R]

theorem score_le_reach {path : Nat → Nat} {n : Nat} (hpath : ∀ i < n, path i < K) :
    score s n path ≤ reach s K n (path n) := by
  induction n with
  | zero => exact le_rfl
  | succ n ih =>
    have hrest := ih fun i hi => hpath i (Nat.lt_succ_of_lt hi)
    have hstep : reach s K n (path n) + s (n + 1) (path n) (path (n + 1)) ≤
        reach s K (n + 1) (path (n + 1)) :=
      @le_first_argmax R _ (fun p => reach s K n p + s (n + 1) p (path (n + 1))) K (path n)
        (hpath n (Nat.lt_succ_self n))
    exact (add_le_add hrest le_rfl).trans hstep

/-- So does the best of the last candidates, whatever the path. -/
theorem score_le_score {path path' : Nat → Nat} {n : Nat}
    (hlast : path n = first_argmax (reach s K n) K)
    (hback : ∀ i < n, path i = back s K i (path (i + 1))) (hpath' : ∀ i ≤ n, path' i < K) :
    score s n path' ≤ score s n path := by
  rw [score_eq_reach hback, hlast]
  exact (score_le_reach fun i hi => hpath' i hi.le).trans (le_first_argmax (hpath' n le_rfl))

end Forward

end Trellis
