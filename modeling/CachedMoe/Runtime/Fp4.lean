import Mathlib.Data.List.Forall2
import Mathlib.Data.List.GetD
import CachedMoe.Core.Types

/-! # The fp4 row codec

    `pack_fp4_row` and `unpack_fp4_row` of `runtime/kvstore.cpp`, with the scalar conversions
    of `cpu/dequant.h`. A row of bf16 values is coded as 4-bit sign and magnitude indices with
    one scale byte per block, when every value of it can be; `float` is `Float32`, the
    binary32 of the logic.

    The codec is exact because `pack_block` decodes what it is about to store: no property of
    the rounding is used. -/

namespace CachedMoe.Runtime

/-! ### Conversions -/

def bf16_to_float (h : UInt16) : Float32 := Float32.ofBits (h.toUInt32 <<< 16)

/-- Round to nearest even; a NaN stays a NaN. -/
def float_to_bf16 (f : Float32) : UInt16 :=
  let x := f.toBits
  if (x >>> 23) &&& 0xFF = 0xFF ∧ x &&& 0x7FFFFF ≠ 0 then ((x >>> 16) ||| 0x0040).toUInt16
  else
    let bias := ((x >>> 16) &&& 1) + 0x7FFF
    ((x + bias) >>> 16).toUInt16

def quiet_nan : Float32 := Float32.ofBits 0x7FC00000

/-- The value of an E4M3 byte; `0x7F` and `0xFF` are its NaNs. -/
def fp8_e4m3_to_float (b : UInt8) : Float32 :=
  let sign := b &&& 0x80
  let e := (b >>> 3) &&& 0x0F
  let m := b &&& 0x07
  if e = 0x0F ∧ m = 0x07 then quiet_nan
  else
    let v : Float32 :=
      if e = 0 then m.toFloat32 * 0.001953125
      else
        let mant := 1.0 + m.toFloat32 * 0.125
        if 7 ≤ e then mant * (1 <<< (e - 7).toUInt32).toFloat32
        else mant / (1 <<< (7 - e).toUInt32).toFloat32
    if sign ≠ 0 then -v else v

/-- An E8M0 scale, `ldexp(1.0f, e - 127)`: a power of two, subnormal at 0. -/
def e8m0_to_float (e : UInt8) : Float32 :=
  if e = 0xFF then quiet_nan
  else if e = 0 then Float32.ofBits 0x00400000
  else Float32.ofBits (e.toUInt32 <<< 23)

/-- The exponent `frexp` reports: `x` lies in `[2^(e-1), 2^e)`, and 0 gives 0. -/
def frexp_exponent (x : Float32) : Int :=
  let e := (x.toBits >>> 23) &&& 0xFF
  let m := x.toBits &&& 0x7FFFFF
  if e ≠ 0 then (e.toNat : Int) - 126
  else if m ≠ 0 then (Nat.log2 m.toNat : Int) - 148
  else 0

/-- The magnitudes of the eight codes. -/
def kMag : List Float32 := [0.0, 0.5, 1.0, 1.5, 2.0, 3.0, 4.0, 6.0]

def scale_of (code : UInt8) (e8m0 : Bool) : Float32 :=
  if e8m0 then e8m0_to_float code else fp8_e4m3_to_float code

/-- `kMag[m] * sc`. -/
def magnitude (m : Nat) (sc : Float32) : Float32 := kMag.getD m 0 * sc

/-! ### Packing -/

/-- The code of one value at scale `sc`, if decoding it gives the value back. -/
def pack_value (sc : Float32) (b : UInt16) : Option UInt8 :=
  let a := (bf16_to_float b).abs
  let sign : UInt8 := if b &&& 0x8000 ≠ 0 then 8 else 0
  match (List.range 8).find? fun m => magnitude m sc == a with
  | none => none
  | some j =>
    let back := if sign ≠ 0 then -(magnitude j sc) else magnitude j sc
    if float_to_bf16 back ≠ b then none else some (sign ||| j.toUInt8)

/-- One block at a given scale: its codes, or `none` if some value is off the grid. -/
def pack_block (sc : Float32) : List UInt16 → Option (List UInt8)
  | [] => some []
  | b :: rest =>
    match pack_value sc b with
    | none => none
    | some c =>
      match pack_block sc rest with
      | none => none
      | some codes => some (c :: codes)

/-- The largest magnitude of a block, `none` when a value is not finite. -/
def block_amax : List UInt16 → (amax : Float32) → Option Float32
  | [], amax => some amax
  | b :: rest, amax =>
    let v := bf16_to_float b
    if ¬ v.isFinite then none
    else block_amax rest (if amax < v.abs then v.abs else amax)

/-- `try_code`: the block's codes at scale code `c`. -/
def try_code (blk : List UInt16) (e8m0 : Bool) (amax : Float32) (c : Nat) :
    Option (UInt8 × List UInt8) :=
  if e8m0 ∧ c > 254 ∨ ¬ e8m0 ∧ (c > 127 ∨ ¬ (fp8_e4m3_to_float c.toUInt8).isFinite) then none
  else if (0 : Float32) < amax ∧ scale_of c.toUInt8 e8m0 ≤ 0 then none
  else
    match pack_block (scale_of c.toUInt8 e8m0) blk with
    | none => none
    | some codes => some (c.toUInt8, codes)

/-- The scale codes tried before all of them: the quantiser's own choice. -/
def first_codes (e8m0 : Bool) (amax : Float32) : List Nat :=
  if amax == 0 then [0]
  else if e8m0 then
    let e := frexp_exponent (amax / 6.0)
    ([-1, 0, 1, 2].map fun d : Int => e - 1 + d + 127).filterMap fun c =>
      if 0 ≤ c ∧ c ≤ 254 then some c.toNat else none
  else
    (List.range' 1 127).filter fun c => fp8_e4m3_to_float c.toUInt8 == amax / 6.0

/-- A block's scale code and codes: the first scale that is exact. -/
def pack_fp4_block (blk : List UInt16) (e8m0 : Bool) : Option (UInt8 × List UInt8) :=
  match block_amax blk 0 with
  | none => none
  | some amax =>
    let every := List.range (if e8m0 then 255 else 128)
    (first_codes e8m0 amax ++ every).findSome? (try_code blk e8m0 amax)

/-- The blocks in order, up to the first that cannot be coded. -/
def pack_blocks (e8m0 : Bool) : List (List UInt16) → Bool × List UInt8 × List UInt8
  | [] => (true, [], [])
  | blk :: rest =>
    match pack_fp4_block blk e8m0 with
    | none => (false, [], [])
    | some (code, codes) =>
      let (ok, more, scales) := pack_blocks e8m0 rest
      (ok, codes ++ more, code :: scales)

/-- What `pack_fp4_row` returns and writes. -/
structure Fp4Row where
  ok : Bool
  nibbles : List UInt8
  scales : List UInt8
  deriving Repr, DecidableEq

/-- Block `bi` of a row. -/
def row_block (row : List UInt16) (block bi : Nat) : List UInt16 :=
  (row.drop (bi * block)).take block

/-- Code `2 * j` in the low half of byte `j`, code `2 * j + 1` in the high one. -/
def nibble_byte (codes : List UInt8) (j : Nat) : UInt8 :=
  codes.getD (2 * j) 0 ||| (codes.getD (2 * j + 1) 0) <<< 4

/-- A row that fails keeps what its earlier blocks wrote over the zeros. -/
def pack_fp4_row (row : List UInt16) (block : Nat) (e8m0 : Bool) : Fp4Row :=
  let n := row.length
  if block = 0 ∨ n % block ≠ 0 ∨ n % 2 ≠ 0 ∨ block > 64 then
    { ok := false, nibbles := List.replicate (n / 2) 0, scales := List.replicate (n / block) 0 }
  else
    let (ok, codes, scales) := pack_blocks e8m0 ((List.range (n / block)).map (row_block row block))
    { ok := ok
      nibbles := (List.range (n / 2)).map (nibble_byte codes)
      scales := (List.range (n / block)).map fun bi => scales.getD bi 0 }

/-! ### Unpacking -/

/-- The bf16 value of code `c` at scale `sc`. -/
def unpack_value (sc : Float32) (c : UInt8) : UInt16 :=
  let v := magnitude (c &&& 7).toNat sc
  float_to_bf16 (if c &&& 8 ≠ 0 then -v else v)

/-- The code at index `k` of a row's nibbles. -/
def nibble_at (nibbles : List UInt8) (k : Nat) : UInt8 :=
  if k % 2 = 1 then nibbles.getD (k / 2) 0 >>> 4 else nibbles.getD (k / 2) 0 &&& 0x0F

def unpack_fp4_row (nibbles scales : List UInt8) (n block : Nat) (e8m0 : Bool) : List UInt16 :=
  (List.range n).map fun k =>
    unpack_value (scale_of (scales.getD (k / block) 0) e8m0) (nibble_at nibbles k)

/-! ### Exactness -/

/-- `c` is a code of `b` at scale `sc`. -/
structure Codes (sc : Float32) (b : UInt16) (c : UInt8) : Prop where
  lt : c < 16
  value : unpack_value sc c = b

theorem negative_code {j : Nat} (hj : j < 8) :
    (8 ||| j.toUInt8) < 16 ∧ ((8 ||| j.toUInt8) &&& 7).toNat = j ∧ (8 ||| j.toUInt8) &&& 8 ≠ 0 := by
  have hall : ∀ j : Fin 8, (8 ||| j.val.toUInt8) < 16 ∧
      ((8 ||| j.val.toUInt8) &&& 7).toNat = j.val ∧ (8 ||| j.val.toUInt8) &&& 8 ≠ 0 := by decide
  exact hall ⟨j, hj⟩

theorem positive_code {j : Nat} (hj : j < 8) :
    (0 ||| j.toUInt8) < 16 ∧ ((0 ||| j.toUInt8) &&& 7).toNat = j ∧ (0 ||| j.toUInt8) &&& 8 = 0 := by
  have hall : ∀ j : Fin 8, (0 ||| j.val.toUInt8) < 16 ∧
      ((0 ||| j.val.toUInt8) &&& 7).toNat = j.val ∧ (0 ||| j.val.toUInt8) &&& 8 = 0 := by decide
  exact hall ⟨j, hj⟩

theorem pack_value_codes {sc : Float32} {b : UInt16} {c : UInt8} (h : pack_value sc b = some c) :
    Codes sc b c := by
  unfold pack_value at h
  dsimp only at h
  split at h
  · cases h
  next j hfind =>
  have hj : j < 8 := List.mem_range.mp (List.mem_of_find?_eq_some hfind)
  -- in both cases the decoder computes the very value the encoder checked
  by_cases hneg : b &&& 0x8000 ≠ 0
  · obtain ⟨hlt, hmag, hsign⟩ := negative_code hj
    simp only [if_pos hneg, if_pos (show (8 : UInt8) ≠ 0 by decide), ite_not,
      Option.ite_none_right_eq_some, Option.some.injEq] at h
    obtain ⟨hback, rfl⟩ := h
    refine ⟨hlt, ?_⟩
    simp only [unpack_value]
    rw [if_pos hsign, hmag]
    exact hback
  · obtain ⟨hlt, hmag, hsign⟩ := positive_code hj
    simp only [if_neg hneg, ne_eq, not_true_eq_false, if_false, ite_not,
      Option.ite_none_right_eq_some, Option.some.injEq] at h
    obtain ⟨hback, rfl⟩ := h
    refine ⟨hlt, ?_⟩
    simp only [unpack_value]
    rw [if_neg (not_not.mpr hsign), hmag]
    exact hback

theorem pack_block_codes {sc : Float32} {blk : List UInt16} {codes : List UInt8}
    (h : pack_block sc blk = some codes) : List.Forall₂ (Codes sc) blk codes := by
  induction blk generalizing codes with
  | nil =>
    cases h
    exact .nil
  | cons b rest ih =>
    unfold pack_block at h
    split at h
    · cases h
    next c hc =>
    split at h
    · cases h
    next codes' hrest =>
    cases h
    exact .cons (pack_value_codes hc) (ih hrest)

theorem pack_fp4_block_codes {blk : List UInt16} {e8m0 : Bool} {code : UInt8} {codes : List UInt8}
    (h : pack_fp4_block blk e8m0 = some (code, codes)) :
    List.Forall₂ (Codes (scale_of code e8m0)) blk codes := by
  unfold pack_fp4_block at h
  split at h
  · cases h
  next amax _ =>
  obtain ⟨c, _, hc⟩ := List.exists_of_findSome?_eq_some h
  unfold try_code at hc
  split at hc
  · cases hc
  split at hc
  · cases hc
  split at hc
  · cases hc
  next codes' hblock =>
  cases hc
  exact pack_block_codes hblock

theorem pack_blocks_codes {e8m0 : Bool} {block : Nat} {blocks : List (List UInt16)}
    {codes scales : List UInt8} (hlen : ∀ blk ∈ blocks, blk.length = block)
    (h : pack_blocks e8m0 blocks = (true, codes, scales)) {k : Nat}
    (hk : k < blocks.length * block) :
    Codes (scale_of (scales.getD (k / block) 0) e8m0)
      ((blocks.getD (k / block) []).getD (k % block) 0) (codes.getD k 0) := by
  induction blocks generalizing codes scales k with
  | nil => simp at hk
  | cons blk rest ih =>
    unfold pack_blocks at h
    split at h
    · cases h
    next code first hblk =>
    dsimp only at h
    obtain ⟨hok, hcodes, hscales⟩ : (pack_blocks e8m0 rest).1 = true ∧
        first ++ (pack_blocks e8m0 rest).2.1 = codes ∧
        code :: (pack_blocks e8m0 rest).2.2 = scales := by simpa using h
    have hfirst := pack_fp4_block_codes hblk
    have hblk_len := hlen blk List.mem_cons_self
    have hfirst_len : first.length = block := hfirst.length_eq ▸ hblk_len
    rw [← hcodes, ← hscales]
    by_cases hlow : k < block
    · -- an element of the first block
      have hkb : k < blk.length := by omega
      have hkf : k < first.length := by omega
      rw [Nat.div_eq_of_lt hlow, Nat.mod_eq_of_lt hlow, List.getD_append _ _ _ _ hkf]
      simp only [List.getD_cons_zero, List.getD_eq_getElem _ _ hkb, List.getD_eq_getElem _ _ hkf]
      exact hfirst.get hkb hkf
    · obtain ⟨k', rfl⟩ := Nat.exists_eq_add_of_le (Nat.le_of_not_lt hlow)
      have hpos : 0 < block := by
        by_contra hzero
        have : block = 0 := by omega
        subst this
        simp at hk
      have hdiv : (block + k') / block = k' / block + 1 := by
        rw [Nat.add_div_left _ hpos]
      rw [hdiv, Nat.add_mod_left, List.getD_append_right _ _ _ _ (by omega)]
      simp only [List.getD_cons_succ, hfirst_len, Nat.add_sub_cancel_left]
      refine ih (fun b hb => hlen b (List.mem_cons_of_mem _ hb)) (Prod.ext hok rfl) ?_
      rw [List.length_cons, Nat.succ_mul] at hk
      omega

theorem low_nibble {lo hi : UInt8} (hlo : lo < 16) (hhi : hi < 16) :
    (lo ||| hi <<< 4) &&& 0x0F = lo ∧ (lo ||| hi <<< 4) >>> 4 = hi := by
  have hall : ∀ lo hi : Fin 16,
      (lo.val.toUInt8 ||| hi.val.toUInt8 <<< 4) &&& 0x0F = lo.val.toUInt8 ∧
      (lo.val.toUInt8 ||| hi.val.toUInt8 <<< 4) >>> 4 = hi.val.toUInt8 := by decide
  have h := hall ⟨lo.toNat, UInt8.lt_iff_toNat_lt.mp hlo⟩ ⟨hi.toNat, UInt8.lt_iff_toNat_lt.mp hhi⟩
  simpa using h

/-- A nibble read back is the code that was written there. -/
theorem nibble_at_nibble_byte {codes nibbles : List UInt8} {n k : Nat} (hk : k < n)
    (heven : n % 2 = 0) (hcodes : ∀ i, i < n → codes.getD i 0 < 16)
    (hbyte : nibbles.getD (k / 2) 0 = nibble_byte codes (k / 2)) :
    nibble_at nibbles k = codes.getD k 0 := by
  obtain ⟨hlow, hhigh⟩ := low_nibble (hcodes (2 * (k / 2)) (by omega))
    (hcodes (2 * (k / 2) + 1) (by omega))
  rw [nibble_at, hbyte, nibble_byte]
  split
  · have hodd : 2 * (k / 2) + 1 = k := by omega
    rw [hhigh, hodd]
  · have heven' : 2 * (k / 2) = k := by omega
    rw [hlow, heven']

theorem length_row_block {row : List UInt16} {block bi : Nat} (h : (bi + 1) * block ≤ row.length) :
    (row_block row block bi).length = block := by
  rw [Nat.succ_mul] at h
  simp only [row_block, List.length_take, List.length_drop]
  omega

theorem length_pack_fp4_row (row : List UInt16) (block : Nat) (e8m0 : Bool) :
    (pack_fp4_row row block e8m0).nibbles.length = row.length / 2 ∧
    (pack_fp4_row row block e8m0).scales.length = row.length / block := by
  unfold pack_fp4_row
  dsimp only
  split <;> simp

/-- Only a row that divides into blocks and bytes is coded. -/
theorem pack_fp4_row_shape {row : List UInt16} {block : Nat} {e8m0 : Bool}
    (h : (pack_fp4_row row block e8m0).ok = true) :
    0 < block ∧ row.length % block = 0 ∧ row.length % 2 = 0 := by
  unfold pack_fp4_row at h
  dsimp only at h
  split at h
  · cases h
  next hshape => omega

/-- A row that was coded is decoded to itself, from any buffers that hold its nibbles and
    scales. -/
theorem unpack_fp4_row_pack {row : List UInt16} {block : Nat} {e8m0 : Bool}
    {nibbles scales : List UInt8} (hok : (pack_fp4_row row block e8m0).ok = true)
    (hnibbles : ∀ j, j < row.length / 2 →
      nibbles.getD j 0 = (pack_fp4_row row block e8m0).nibbles.getD j 0)
    (hscales : ∀ j, j < row.length / block →
      scales.getD j 0 = (pack_fp4_row row block e8m0).scales.getD j 0) :
    unpack_fp4_row nibbles scales row.length block e8m0 = row := by
  obtain ⟨hpos, hblock, heven⟩ := pack_fp4_row_shape hok
  unfold pack_fp4_row at hok hnibbles hscales
  dsimp only at hok hnibbles hscales
  split at hok
  · cases hok
  next hshape =>
  rw [if_neg hshape] at hnibbles hscales
  dsimp only at hok hnibbles hscales
  cases hpack : pack_blocks e8m0 ((List.range (row.length / block)).map (row_block row block)) with
  | mk ok rest =>
    rcases rest with ⟨codes, codeScales⟩
    rw [hpack] at hok hnibbles hscales
    subst hok
    have hdvd : block ∣ row.length := Nat.dvd_of_mod_eq_zero hblock
    have hcover : row.length / block * block = row.length := Nat.div_mul_cancel hdvd
    have hblocks : ∀ blk ∈ (List.range (row.length / block)).map (row_block row block),
        blk.length = block := by
      intro blk hblk
      obtain ⟨bi, hbi, rfl⟩ := List.mem_map.mp hblk
      apply length_row_block
      calc (bi + 1) * block ≤ row.length / block * block :=
            Nat.mul_le_mul_right _ (List.mem_range.mp hbi)
        _ = row.length := hcover
    have hcodes : ∀ k, k < row.length →
        Codes (scale_of (codeScales.getD (k / block) 0) e8m0) (row.getD k 0) (codes.getD k 0) := by
      intro k hk
      have hbi : k / block < row.length / block := Nat.div_lt_div_of_lt_of_dvd hdvd hk
      have h := pack_blocks_codes hblocks hpack (k := k) (by simpa [hcover] using hk)
      have hvalue : (((List.range (row.length / block)).map (row_block row block)).getD (k / block)
          []).getD (k % block) 0 = row.getD k 0 := by
        have hmod : k % block < block := Nat.mod_lt _ hpos
        have hindex : k / block * block + k % block = k := Nat.div_add_mod' k block
        simp [List.getD, hbi, row_block, hmod, hindex]
      rwa [hvalue] at h
    -- element by element: its nibble, and the scale of its block
    apply List.ext_getElem?
    intro k
    by_cases hk : k < row.length
    · have hcode := hcodes k hk
      have hbi : k / block < row.length / block := Nat.div_lt_div_of_lt_of_dvd hdvd hk
      have hj : k / 2 < row.length / 2 := by omega
      have hn := nibble_at_nibble_byte hk heven (fun i hi => (hcodes i hi).lt)
        (by rw [hnibbles _ hj]; simp [List.getD, hj])
      have hs : scales.getD (k / block) 0 = codeScales.getD (k / block) 0 := by
        rw [hscales _ hbi]
        simp [List.getD, hbi]
      simp only [unpack_fp4_row, List.getElem?_map, List.getElem?_range hk, Option.map_some]
      rw [hs, hn, hcode.value]
      simp [List.getD, hk]
    · rw [List.getElem?_eq_none (by simpa [unpack_fp4_row] using hk),
        List.getElem?_eq_none (by simpa using hk)]

/-- Signed zeros and grid values are coded; a row with a NaN is not. -/
example :
    (pack_fp4_row [0, 0x8000, 0x3F00, 0xBF80, 0x3FC0, 0x4040, 0x40C0, 0xC080] 8 false).ok = true ∧
    (pack_fp4_row [0, 0x7FC0] 2 false).ok = false := by
  decide +kernel

end CachedMoe.Runtime
