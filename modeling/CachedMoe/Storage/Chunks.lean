import Mathlib.Algebra.BigOperators.Group.Finset.Basic
import Mathlib.Algebra.Order.Ring.Nat
import CachedMoe.Core.Types

/-! # Files and chunks

    `IoEngine::plan_chunks` of `storage/io_engine.cpp`: a read is split into pieces of one
    step, the last one possibly shorter. What the engine needs of the split: the pieces do
    not overlap, cover the range, and the parts of them inside the file add up to the part
    of the range inside the file. -/

namespace CachedMoe.Storage

open CachedMoe

/-- `v & ~(a - 1)` for a power of two `a`. -/
def align_down (v a : Nat) : Nat := v / a * a

/-- `(v & (a - 1)) == 0` for a power of two `a`. -/
def is_aligned (v a : Nat) : Bool := v % a == 0

/-- An open shard, as far as the engine looks at it. -/
structure File where
  size : Nat
  is_open : Bool := true
  unbuffered : Bool := true
  path : String := ""
  /-- The bytes of the file; only those below `size` exist. -/
  content : Nat → UInt8 := fun _ => 0

structure Chunk where
  off : Nat
  bytes : Nat
  deriving Repr, DecidableEq

/-- The part of a chunk that lies inside a file of `size` bytes. -/
def Chunk.in_file (c : Chunk) (size : Nat) : Nat :=
  min c.bytes (size - c.off)

/-- The step of the split: the largest chunk size, rounded down to the alignment. -/
def chunk_step (max_chunk alignment : Nat) : Nat :=
  let step := if alignment ≠ 0 then align_down max_chunk alignment else max_chunk
  if step = 0 then (if alignment ≠ 0 then alignment else max_chunk) else step

/-- The loop of `plan_chunks`; every round takes at least one byte, so `rem` rounds are enough. -/
@[grind =] def split_chunks (step : Nat) : Nat → Nat → Nat → List Chunk
  | 0, _, _ => []
  | fuel + 1, cur, rem =>
    if rem = 0 then []
    else ⟨cur, min step rem⟩ :: split_chunks step fuel (cur + min step rem) (rem - min step rem)

def plan_chunks (off bytes max_chunk alignment : Nat) : List Chunk :=
  if bytes = 0 ∨ max_chunk = 0 then []
  else split_chunks (chunk_step max_chunk alignment) bytes off bytes

/-! ### The pieces -/

theorem chunk_step_pos {max_chunk alignment : Nat} (h : max_chunk ≠ 0) :
    0 < chunk_step max_chunk alignment := by
  unfold chunk_step
  dsimp only
  split
  · split
    · omega
    · omega
  · omega

theorem split_chunks_get {step : Nat} (hstep : 0 < step) (fuel : Nat) :
    ∀ (cur rem : Nat), rem ≤ fuel → ∀ i,
      (split_chunks step fuel cur rem)[i]? =
        if i * step < rem then some ⟨cur + i * step, min step (rem - i * step)⟩ else none := by
  induction fuel with
  | zero =>
    intro cur rem hrem i
    simp [split_chunks, Nat.le_zero.mp hrem]
  | succ fuel ih =>
    intro cur rem hrem i
    unfold split_chunks
    split
    · next hzero => simp [hzero]
    · next hpos =>
      cases i with
      | zero => simp [Nat.pos_of_ne_zero hpos]
      | succ i =>
        rw [List.getElem?_cons_succ, ih _ _ (by omega)]
        have hmul : (i + 1) * step = i * step + step := Nat.succ_mul i step
        by_cases hlast : rem ≤ step
        · -- the head took everything that was left
          rw [Nat.min_eq_right hlast, Nat.sub_self, if_neg (by omega), if_neg (by omega)]
        · rw [Nat.min_eq_left (by omega), hmul]
          by_cases hlt : i * step < rem - step
          · rw [if_pos hlt, if_pos (by omega)]
            congr 2
            · omega
            · omega
          · rw [if_neg hlt, if_neg (by omega)]

/-- The chunks of a planned read: chunk `i` starts `i` steps into the range. -/
structure Planned (chunks : List Chunk) (off bytes step : Nat) : Prop where
  step_pos : 0 < step
  get : ∀ i, chunks[i]? =
    if i * step < bytes then some ⟨off + i * step, min step (bytes - i * step)⟩ else none

theorem plan_chunks_planned {off bytes max_chunk alignment : Nat} (h : max_chunk ≠ 0) :
    Planned (plan_chunks off bytes max_chunk alignment) off bytes
      (chunk_step max_chunk alignment) := by
  refine ⟨chunk_step_pos h, ?_⟩
  intro i
  unfold plan_chunks
  split
  · next hzero =>
    obtain rfl : bytes = 0 := hzero.resolve_right h
    simp
  · exact split_chunks_get (chunk_step_pos h) bytes off bytes (Nat.le_refl _) i

namespace Planned

variable {chunks : List Chunk} {off bytes step : Nat}

theorem lt_length_iff (h : Planned chunks off bytes step) (i : Nat) :
    i < chunks.length ↔ i * step < bytes := by
  have hi := h.get i
  split at hi
  · next hlt =>
    have := (List.getElem?_eq_some_iff.mp hi).1
    exact ⟨fun _ => hlt, fun _ => this⟩
  · next hge =>
    have := List.getElem?_eq_none_iff.mp hi
    exact ⟨fun hl => absurd hl (by omega), fun hl => absurd hl hge⟩

/-- A read of at least one byte has at least one chunk. -/
theorem length_pos (h : Planned chunks off bytes step) (hbytes : 0 < bytes) :
    0 < chunks.length := by
  rw [h.lt_length_iff, Nat.zero_mul]
  exact hbytes

/-- Where a chunk lies in the range. -/
theorem bounds (h : Planned chunks off bytes step) {i : Nat} {c : Chunk}
    (hc : chunks[i]? = some c) :
    c.off = off + i * step ∧ c.bytes = min step (bytes - i * step) ∧ i * step < bytes := by
  rw [h.get] at hc
  split at hc
  · next hlt =>
    cases hc
    exact ⟨rfl, rfl, hlt⟩
  · cases hc

/-- Two chunks of one plan do not overlap. -/
theorem apart (h : Planned chunks off bytes step) {i j : Nat} {c d : Chunk}
    (hc : chunks[i]? = some c) (hd : chunks[j]? = some d) (hij : i < j) :
    c.off + c.bytes ≤ d.off := by
  obtain ⟨hoff, hbytes, _⟩ := h.bounds hc
  obtain ⟨hoff', _, _⟩ := h.bounds hd
  have hmul : (i + 1) * step ≤ j * step := Nat.mul_le_mul_right step hij
  rw [Nat.succ_mul] at hmul
  omega

/-- Every byte of the range lies in a chunk. -/
theorem covers (h : Planned chunks off bytes step) {k : Nat} (hk : k < bytes) :
    ∃ (i : Nat) (c : Chunk), chunks[i]? = some c ∧ c.off ≤ off + k ∧ off + k < c.off + c.bytes := by
  have hdiv : k / step * step + k % step = k := Nat.div_add_mod' k step
  have hmod : k % step < step := Nat.mod_lt k h.step_pos
  have hlt : k / step * step < bytes := by omega
  refine ⟨k / step, _, (h.get _).trans (if_pos hlt), ?_, ?_⟩
  · dsimp only
    omega
  · dsimp only
    omega

/-- What of chunk `i` has to arrive from a file of `size` bytes. -/
def need (chunks : List Chunk) (size i : Nat) : Nat :=
  match chunks[i]? with
  | some c => c.in_file size
  | none => 0

/-- The in-file parts of the first `n` chunks add up to the in-file part of their range. -/
theorem sum_need (h : Planned chunks off bytes step) (size n : Nat) :
    ∑ i ∈ Finset.range n, need chunks size i = min (min bytes (n * step)) (size - off) := by
  induction n with
  | zero => simp
  | succ n ih =>
    rw [Finset.sum_range_succ, ih, need, h.get, Nat.succ_mul]
    split
    · next c hc =>
      split at hc
      · cases hc
        simp only [Chunk.in_file]
        omega
      · cases hc
    · next hnone =>
      split at hnone
      · cases hnone
      · omega

/-- All of them add up to what the request requires. -/
theorem sum_need_length (h : Planned chunks off bytes step) (size : Nat) :
    ∑ i ∈ Finset.range chunks.length, need chunks size i = min bytes (size - off) := by
  rw [h.sum_need]
  have hlen : ¬ chunks.length * step < bytes := by
    rw [← h.lt_length_iff]
    exact Nat.lt_irrefl _
  have hall : min bytes (chunks.length * step) = bytes := Nat.min_eq_left (by omega)
  rw [hall]

end Planned

end CachedMoe.Storage
