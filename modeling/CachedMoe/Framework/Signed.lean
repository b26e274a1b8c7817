import Mathlib.Algebra.Order.Ring.Int
import Mathlib.Data.Int.Order.Basic

/-! # Signed 64-bit arithmetic

    `int64_t` as an integer, with `none` where the result does not fit and the behaviour is
    undefined, and what the operations amount to on values that are not negative. -/

namespace Signed

def Fits (x : Int) : Prop := -2 ^ 63 ≤ x ∧ x < 2 ^ 63

instance (x : Int) : Decidable (Fits x) := by
  unfold Fits
  infer_instance

def checked (x : Int) : Option Int := if Fits x then some x else none

def add (x y : Int) : Option Int := checked (x + y)

def mul (x y : Int) : Option Int := checked (x * y)

/-- `x % y`, which has the sign of `x`. -/
def rem (x y : Int) : Option Int :=
  if y = 0 ∨ (x = -2 ^ 63 ∧ y = -1) then none else some (x.tmod y)

def xor (x y : Int) : Int := (BitVec.ofInt 64 x ^^^ BitVec.ofInt 64 y).toInt

/-- `static_cast<int64_t>` of a `uint64_t`. -/
def of_uint64 (n : Nat) : Int := (BitVec.ofNat 64 n).toInt

/-- `static_cast<uint64_t>` of an `int64_t`. -/
def to_uint64 (x : Int) : Nat := (x % 2 ^ 64).toNat

variable {x y : Int}

theorem checked_eq (hx : 0 ≤ x) (hlt : x < 2 ^ 63) : checked x = some x :=
  if_pos ⟨by omega, hlt⟩

theorem of_checked {z : Int} (h : checked x = some z) : z = x ∧ Fits x := by
  unfold checked at h
  split at h
  · rename_i hx
    exact ⟨(Option.some.inj h).symm, hx⟩
  · cases h

theorem rem_eq (hx : 0 ≤ x) (hy : 0 < y) : rem x y = some (x % y) := by
  unfold rem
  rw [if_neg (by omega), Int.tmod_eq_emod_of_nonneg hx]

theorem xor_nonneg (hx : 0 ≤ x) (hxlt : x < 2 ^ 63) (hy : 0 ≤ y) (hylt : y < 2 ^ 63) :
    0 ≤ xor x y ∧ xor x y < 2 ^ 63 := by
  refine ⟨?_, BitVec.toInt_lt⟩
  have hmsb : ∀ z : Int, 0 ≤ z → z < 2 ^ 63 → (BitVec.ofInt 64 z).msb = false := by
    intro z hz hzlt
    rw [BitVec.msb_eq_toInt, BitVec.toInt_ofInt_eq_self (by decide) (by omega) hzlt]
    exact decide_eq_false (by omega)
  refine BitVec.toInt_nonneg_of_msb_false ?_
  rw [BitVec.msb_xor, hmsb x hx hxlt, hmsb y hy hylt]
  rfl

theorem to_uint64_eq (hx : 0 ≤ x) (hlt : x < 2 ^ 63) : to_uint64 x = x.toNat := by
  unfold to_uint64
  rw [Int.emod_eq_of_lt hx (by omega)]

variable {n : Nat}

theorem of_uint64_eq (hn : n < 2 ^ 63) : of_uint64 n = n := by
  have hnat : (BitVec.ofNat 64 n).toNat = n := Nat.mod_eq_of_lt (by omega)
  rw [of_uint64, BitVec.toInt_eq_toNat_of_lt (by omega), hnat]

/-- A value from `2 ^ 63` on comes out negative. -/
theorem of_uint64_pos_iff (hn : n < 2 ^ 64) : 0 < of_uint64 n ↔ 0 < n ∧ n < 2 ^ 63 := by
  have hnat : (BitVec.ofNat 64 n).toNat = n := Nat.mod_eq_of_lt hn
  rw [of_uint64, BitVec.toInt_eq_toNat_cond, hnat]
  split
  · omega
  · omega

end Signed
