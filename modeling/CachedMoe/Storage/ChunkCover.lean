import CachedMoe.Storage.Chunks
import Mathlib.Data.Nat.Bitwise

/-! # The chunks of a request

    `IoEngine::plan_chunks` as a partition: the chunks of an aligned range follow one another,
    start and end on sector boundaries and take every byte of the range once. The alignment is
    that of `core/align.h`, by masks. -/

namespace CachedMoe.Storage

open CachedMoe

/-! ### Masks -/

/-- `v & ~(a - 1)` in 64 bits. -/
def mask_down (v a : Nat) : Nat := v &&& (2 ^ 64 - a)

/-- `is_aligned(v, a)`, where an alignment of 0 asks for nothing. -/
def Aligned (a v : Nat) : Prop := a ≠ 0 → v &&& (a - 1) = 0

/-- The largest chunk, rounded down to the alignment. -/
def rounded_chunk (max_chunk alignment : Nat) : Nat :=
  if alignment ≠ 0 then mask_down max_chunk alignment else max_chunk

theorem mask_down_two_pow {v k : Nat} (hv : v < 2 ^ 64) :
    mask_down v (2 ^ k) = align_down v (2 ^ k) := by
  unfold mask_down align_down
  have hsub : 2 ^ 64 - 2 ^ k = 2 ^ 64 - (2 ^ k - 1 + 1) := by
    rw [Nat.sub_add_cancel Nat.one_le_two_pow]
  by_cases hk : k < 64
  · have hlt : 2 ^ k - 1 < 2 ^ 64 :=
      Nat.lt_of_le_of_lt (Nat.sub_le _ _) (Nat.pow_lt_pow_right Nat.one_lt_two hk)
    apply Nat.eq_of_testBit_eq
    intro i
    rw [hsub, Nat.testBit_and, Nat.testBit_two_pow_sub_succ hlt, Nat.testBit_two_pow_sub_one,
      Nat.testBit_mul_two_pow, Nat.testBit_div_two_pow]
    by_cases hki : k ≤ i
    · rw [Nat.sub_add_cancel hki]
      by_cases hi : i < 64
      · simp [hki, hi]
      · have hzero : v.testBit i = false :=
          Nat.testBit_lt_two_pow (Nat.lt_of_lt_of_le hv (Nat.pow_le_pow_right Nat.two_pos (by omega)))
        simp [hzero]
    · simp [hki, Nat.lt_of_not_le hki]
  · have hle : 2 ^ 64 ≤ 2 ^ k := Nat.pow_le_pow_right Nat.two_pos (by omega)
    rw [Nat.sub_eq_zero_of_le hle, Nat.and_zero, Nat.div_eq_of_lt (Nat.lt_of_lt_of_le hv hle),
      Nat.zero_mul]

theorem aligned_two_pow_iff {v k : Nat} : Aligned (2 ^ k) v ↔ v % 2 ^ k = 0 := by
  have hne : 2 ^ k ≠ 0 := Nat.two_pow_pos k |>.ne'
  unfold Aligned
  rw [Nat.and_two_pow_sub_one_eq_mod]
  exact ⟨fun h => h hne, fun h _ => h⟩

/-! ### The partition -/

/-- The chunks follow one another through `[off, off + bytes)`. -/
structure Splits (chunks : List Chunk) (off bytes longest alignment : Nat) : Prop where
  covers : chunks.flatMap (fun c => List.range' c.off c.bytes) = List.range' off bytes
  contiguous : chunks.IsChain fun c d => d.off = c.off + c.bytes
  aligned : ∀ c ∈ chunks, Aligned alignment c.off ∧ Aligned alignment c.bytes
  nonempty : ∀ c ∈ chunks, 0 < c.bytes
  short : ∀ c ∈ chunks, c.bytes ≤ longest

section Loop

variable {step : Nat}

theorem split_chunks_covers (hstep : 0 < step) {fuel : Nat} (cur : Nat) {rem : Nat}
    (h : rem ≤ fuel) :
    (split_chunks step fuel cur rem).flatMap (fun c => List.range' c.off c.bytes) =
      List.range' cur rem := by
  induction fuel generalizing cur rem with
  | zero =>
    obtain rfl := Nat.le_zero.mp h
    rfl
  | succ fuel ih =>
    unfold split_chunks
    by_cases hrem : rem = 0
    · rw [if_pos hrem, hrem]
      rfl
    · rw [if_neg hrem, List.flatMap_cons, ih _ (by omega), List.range'_append_1,
        Nat.add_sub_cancel' (Nat.min_le_right step rem)]

/-- The first chunk starts where the loop does. -/
theorem split_chunks_head {fuel cur rem : Nat} {c : Chunk}
    (h : c ∈ (split_chunks step fuel cur rem).head?) : c.off = cur := by
  cases fuel with
  | zero => cases h
  | succ fuel =>
    unfold split_chunks at h
    split at h
    · cases h
    · cases h
      rfl

theorem split_chunks_contiguous (fuel cur rem : Nat) :
    (split_chunks step fuel cur rem).IsChain fun c d => d.off = c.off + c.bytes := by
  induction fuel generalizing cur rem with
  | zero => exact .nil
  | succ fuel ih =>
    unfold split_chunks
    split
    · exact .nil
    · exact List.isChain_cons.mpr ⟨fun d hd => split_chunks_head hd, ih _ _⟩

theorem split_chunks_bytes (hstep : 0 < step) {fuel cur rem : Nat} {c : Chunk}
    (h : c ∈ split_chunks step fuel cur rem) : 0 < c.bytes ∧ c.bytes ≤ step := by
  induction fuel generalizing cur rem with
  | zero => cases h
  | succ fuel ih =>
    unfold split_chunks at h
    split at h
    · cases h
    · next hrem =>
      rcases List.mem_cons.mp h with rfl | hrest
      · exact ⟨show 0 < min step rem by omega, Nat.min_le_left _ _⟩
      · exact ih hrest

/-- Whatever divides the step and the range divides where the chunks start and how long they
    are. -/
theorem split_chunks_dvd {a fuel cur rem : Nat} (hstep : a ∣ step) (hcur : a ∣ cur)
    (hrem : a ∣ rem) {c : Chunk} (h : c ∈ split_chunks step fuel cur rem) :
    a ∣ c.off ∧ a ∣ c.bytes := by
  induction fuel generalizing cur rem with
  | zero => cases h
  | succ fuel ih =>
    have hmin : a ∣ min step rem := by
      rcases Nat.le_total step rem with hle | hle
      · rwa [Nat.min_eq_left hle]
      · rwa [Nat.min_eq_right hle]
    unfold split_chunks at h
    split at h
    · cases h
    · rcases List.mem_cons.mp h with rfl | hrest
      · exact ⟨hcur, hmin⟩
      · exact ih (Nat.dvd_add hcur hmin) (Nat.dvd_sub hrem hmin) hrest

end Loop

theorem dvd_chunk_step (max_chunk : Nat) {alignment : Nat} (h : alignment ≠ 0) :
    alignment ∣ chunk_step max_chunk alignment := by
  unfold chunk_step
  dsimp only
  rw [if_pos h, if_pos h]
  split
  · exact Nat.dvd_refl alignment
  · exact Nat.dvd_mul_left alignment _

theorem chunk_step_le {max_chunk alignment : Nat} (hmax : max_chunk < 2 ^ 64)
    (halign : alignment = 0 ∨ ∃ k, alignment = 2 ^ k) :
    chunk_step max_chunk alignment ≤ max (rounded_chunk max_chunk alignment) alignment := by
  unfold chunk_step rounded_chunk
  dsimp only
  rcases halign with rfl | ⟨k, rfl⟩
  · simp
  · have hne : 2 ^ k ≠ 0 := Nat.two_pow_pos k |>.ne'
    rw [if_pos hne, if_pos hne, if_pos hne, mask_down_two_pow hmax]
    split
    · exact Nat.le_max_right _ _
    · exact Nat.le_max_left _ _

/-- Chunking covers a range exactly once. For every aligned range, every chunk size of 32 bits and
    every alignment, a power of two or none: no chunk for a chunk size of 0, and otherwise
    chunks that follow one another through the range, none of them empty, all of them aligned
    and none longer than the rounded chunk size or one sector. -/
theorem plan_chunks_splits {off bytes max_chunk alignment : Nat} (hmax : max_chunk < 2 ^ 32)
    (halign : alignment = 0 ∨ ∃ k, alignment = 2 ^ k) (hoff : Aligned alignment off)
    (hbytes : Aligned alignment bytes) :
    (max_chunk = 0 → plan_chunks off bytes max_chunk alignment = []) ∧
    (max_chunk ≠ 0 → Splits (plan_chunks off bytes max_chunk alignment) off bytes
      (max (rounded_chunk max_chunk alignment) alignment) alignment) := by
  refine ⟨fun hzero => if_pos (.inr hzero), fun hne => ?_⟩
  have hplan : plan_chunks off bytes max_chunk alignment =
      split_chunks (chunk_step max_chunk alignment) bytes off bytes := by
    unfold plan_chunks
    by_cases hbytes : bytes = 0
    · rw [if_pos (.inl hbytes), hbytes]
      rfl
    · exact if_neg (not_or.mpr ⟨hbytes, hne⟩)
  have hstep : 0 < chunk_step max_chunk alignment := chunk_step_pos hne
  rw [hplan]
  constructor
  case covers => exact split_chunks_covers hstep off (Nat.le_refl bytes)
  case contiguous => exact split_chunks_contiguous bytes off bytes
  case nonempty => exact fun c hc => (split_chunks_bytes hstep hc).1
  case short =>
    intro c hc
    have hlong := chunk_step_le (Nat.lt_trans hmax (by decide)) halign
    exact (split_chunks_bytes hstep hc).2.trans hlong
  case aligned =>
    intro c hc
    rcases halign with rfl | ⟨k, rfl⟩
    · exact ⟨fun h => absurd rfl h, fun h => absurd rfl h⟩
    · have hk := dvd_chunk_step max_chunk (Nat.two_pow_pos k).ne'
      have hdvd := split_chunks_dvd hk (Nat.dvd_of_mod_eq_zero (aligned_two_pow_iff.mp hoff))
        (Nat.dvd_of_mod_eq_zero (aligned_two_pow_iff.mp hbytes)) hc
      exact ⟨aligned_two_pow_iff.mpr (Nat.mod_eq_zero_of_dvd hdvd.1),
        aligned_two_pow_iff.mpr (Nat.mod_eq_zero_of_dvd hdvd.2)⟩

/-- Three sectors in chunks of 5000 bytes: a chunk a sector. -/
theorem plan_chunks_splits_sectors :
    Splits (plan_chunks 4096 12288 5000 4096) 4096 12288 4096 4096 :=
  (@plan_chunks_splits 4096 12288 5000 4096 (by decide) (.inr ⟨12, rfl⟩) (fun _ => rfl)
    (fun _ => rfl)).2 (by decide)

/-- Nothing of the range is read where the chunk size is 0. -/
theorem plan_chunks_zero_size :
    ¬ ∀ off bytes max_chunk alignment : Nat, Aligned alignment off → Aligned alignment bytes →
      (plan_chunks off bytes max_chunk alignment).flatMap (fun c => List.range' c.off c.bytes) =
        List.range' off bytes := by
  intro h
  exact absurd (h 0 1 0 1 (fun _ => rfl) (fun _ => rfl)) (by decide)

end CachedMoe.Storage
