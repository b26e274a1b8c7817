import Mathlib.Algebra.Order.Field.Rat
import Mathlib.Algebra.Order.Field.Basic
import Mathlib.Data.List.Basic

/-! # Floating-point values without rounding

    Finite values are exact; infinities, NaN and a division by zero are as IEEE 754 has them.
    A zero carries no sign, so division by it counts as division by the positive zero. -/

inductive Double where
  | fin (x : ℚ)
  | inf (negative : Bool)
  | nan
  deriving DecidableEq

namespace Double

instance : Zero Double := ⟨.fin 0⟩
instance : One Double := ⟨.fin 1⟩

def isfinite : Double → Bool
  | .fin _ => true
  | _ => false

def add : Double → Double → Double
  | .fin x, .fin y => .fin (x + y)
  | .inf s, .inf t => if s = t then .inf s else .nan
  | .inf s, .fin _ => .inf s
  | .fin _, .inf s => .inf s
  | _, _ => .nan

def neg : Double → Double
  | .fin x => .fin (-x)
  | .inf s => .inf !s
  | .nan => .nan

def mul : Double → Double → Double
  | .fin x, .fin y => .fin (x * y)
  | .inf s, .inf t => .inf (s != t)
  | .inf s, .fin x => if x = 0 then .nan else .inf (s != decide (x < 0))
  | .fin x, .inf s => if x = 0 then .nan else .inf (s != decide (x < 0))
  | _, _ => .nan

def div : Double → Double → Double
  | .fin x, .fin y => if y ≠ 0 then .fin (x / y) else if x = 0 then .nan else .inf (decide (x < 0))
  | .inf s, .fin y => .inf (s != decide (y < 0))
  | .fin _, .inf _ => .fin 0
  | _, _ => .nan

def lt : Double → Double → Bool
  | .fin x, .fin y => decide (x < y)
  | .inf s, .inf t => s && !t
  | .inf s, .fin _ => s
  | .fin _, .inf s => !s
  | _, _ => false

/-- The `==` of values: no NaN equals itself. -/
def eq : Double → Double → Bool
  | .fin x, .fin y => decide (x = y)
  | .inf s, .inf t => s == t
  | _, _ => false

instance : Add Double := ⟨add⟩
instance : Sub Double := ⟨fun x y => add x (neg y)⟩
instance : Mul Double := ⟨mul⟩
instance : Div Double := ⟨div⟩

@[simp] theorem fin_add (x y : ℚ) : fin x + fin y = fin (x + y) := rfl

@[simp] theorem lt_fin (x y : ℚ) : lt (fin x) (fin y) = decide (x < y) := rfl

@[simp] theorem eq_fin (x y : ℚ) : eq (fin x) (fin y) = decide (x = y) := rfl

theorem fin_div {y : ℚ} (hy : y ≠ 0) (x : ℚ) : fin x / fin y = fin (x / y) := if_pos hy

/-- A positive value over zero is infinite. -/
theorem fin_div_zero {x : ℚ} (hx : 0 < x) : fin x / fin 0 = inf false := by
  have hdiv : fin x / fin 0 = if (0 : ℚ) ≠ 0 then fin (x / 0) else
      if x = 0 then nan else inf (decide (x < 0)) := rfl
  rw [hdiv, if_neg (fun h => h rfl), if_neg hx.ne', decide_eq_false hx.le.not_gt]

theorem zero_mul_inf (s : Bool) : fin 0 * inf s = nan := by
  have hmul : fin 0 * inf s = if (0 : ℚ) = 0 then nan else inf (s != decide ((0 : ℚ) < 0)) := rfl
  rw [hmul, if_pos rfl]

end Double
