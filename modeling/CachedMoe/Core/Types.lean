import Mathlib.Algebra.BigOperators.Group.List.Basic
import Mathlib.Algebra.Order.Ring.Nat

/-! # Core value types

    The types every component shares: `core/status.h`, `core/types.h` and the
    constants of `model/layout.h` the models use. -/

namespace CachedMoe

/-! ### Status and Result -/

/-- `enum class Err` of `core/status.h`. -/
inductive Err where
  | Ok | Unimplemented | InvalidArgument | OutOfRange | NotFound | AlreadyExists
  | ResourceExhausted | FailedPrecondition | Io | Unavailable | Corrupt | Cancelled | Internal
  deriving Repr, DecidableEq

/-- An error with its message; `os_code` is 0 when it is not an OS error. -/
structure Status where
  code : Err
  message : String
  os_code : Nat := 0
  deriving Repr, DecidableEq

abbrev Result (α : Type) := Except Status α

def fail {α : Type} (code : Err) (message : String) (os_code : Nat := 0) : Result α :=
  .error { code, message, os_code }

/-! ### Strings -/

/-- `std::string`. -/
abbrev Bytes := List UInt8

/-- A literal of ASCII characters. -/
def chars (s : List Char) : Bytes := s.map fun c => UInt8.ofNat c.toNat

/-- A string as it stands in a message. -/
def text (s : Bytes) : String := String.ofList (s.map fun b => Char.ofNat b.toNat)

/-! ### Residency -/

inductive Tier where
  | Pinned | Cached | Cold
  deriving Repr, DecidableEq

/-- Slab slot lifecycle: Free → Filling (I/O in flight) → Resident → Free. -/
inductive SlotState where
  | Free | Filling | Resident
  deriving Repr, DecidableEq

def slot_state_name : SlotState → String
  | .Free => "free"
  | .Filling => "filling"
  | .Resident => "resident"

/-! ### Identity -/

/-- `(layer, expert)`, two `uint16_t`. -/
structure ExpertKey where
  layer : UInt16 := 0
  expert : UInt16 := 0
  deriving Repr, DecidableEq

/-- One of the six tensors of a routed expert, in the order of the pointer table's row. -/
inductive ExpertPart where
  | W1Weight | W1Scale | W2Weight | W2Scale | W3Weight | W3Scale
  deriving Repr, DecidableEq

namespace ExpertPart

/-- The underlying value of the enumerator. -/
def toNat : ExpertPart → Nat
  | W1Weight => 0
  | W1Scale => 1
  | W2Weight => 2
  | W2Scale => 3
  | W3Weight => 4
  | W3Scale => 5

/-- The parts in the order the loops over `kExpertPartCount` visit them. -/
def all : List ExpertPart := [W1Weight, W1Scale, W2Weight, W2Scale, W3Weight, W3Scale]

theorem mem_all (p : ExpertPart) : p ∈ all := by
  cases p <;> decide

theorem toNat_lt (p : ExpertPart) : p.toNat < 6 := by
  cases p <;> decide

theorem toNat_injective : Function.Injective toNat := by
  intro p q h
  cases p <;> cases q <;> first | rfl | exact absurd h (by decide)

end ExpertPart

/-! ### Priorities -/

/-- Priority classes of the I/O engine; 0 is most urgent. -/
inductive IoPriority where
  | BlockingMiss | Lookahead | Engram | Backfill
  deriving Repr, DecidableEq

/-! ### Layout constants -/

namespace layout

def kExpertParts : Nat := 6
def kExpertWeightBytesPerMat : Nat := 5898240
def kExpertScaleBytesPerMat : Nat := 368640
def kExpertSlotBytes : Nat := 18808832
def kMaxExpertRuns : Nat := kExpertParts

end layout

def kExpertPartCount : Nat := layout.kExpertParts
def kPageSize : Nat := 4096
def kNoDeviceAddress : Nat := 0

/-- `is_aligned(v)` for the power of two `kPageSize`. -/
def is_aligned (v : Nat) : Bool := v % kPageSize == 0

/-! ### Machine arithmetic

    Irreducible: the proofs use the equations below, under the bounds that exclude a wrap. -/

/-- Addition of two `uint64_t`. -/
@[irreducible] def add64 (a b : Nat) : Nat := (a + b) % 2 ^ 64

/-- `++x` on a `uint32_t`. -/
@[irreducible] def inc32 (x : Nat) : Nat := (x + 1) % 2 ^ 32

/-- `--x` on a `uint32_t`: 0 wraps to `UINT32_MAX`. -/
@[irreducible] def dec32 (x : Nat) : Nat := (x + (2 ^ 32 - 1)) % 2 ^ 32

theorem add64_eq {a b : Nat} (h : a + b < 2 ^ 64) : add64 a b = a + b := by
  unfold add64
  exact Nat.mod_eq_of_lt h

theorem inc32_eq {x y : Nat} (h : y = x + 1) (hy : y < 2 ^ 32) : inc32 x = y := by
  unfold inc32
  rw [← h]
  exact Nat.mod_eq_of_lt hy

theorem dec32_eq {x y : Nat} (h : y + 1 = x) (hx : x < 2 ^ 32) : dec32 x = y := by
  unfold dec32
  omega

end CachedMoe
