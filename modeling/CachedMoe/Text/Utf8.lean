import CachedMoe.Core.Types
import CachedMoe.Framework.Scan
import Mathlib.Tactic.IntervalCases

/-! # UTF-8

    The UTF-8 helpers of `text/tokenizer.cpp`: `utf8_next`, `utf8_append` and `utf8_lossy`.
    `utf8_next` is a scanner, so `utf8_lossy` and every other loop over it is a map over the
    units of the text; and what it accepts is exactly the encoding of a Unicode scalar value. -/

namespace CachedMoe.Text

inductive U8 where
  | Ok | Invalid | Incomplete
  deriving Repr, DecidableEq

/-! ### One code point -/

/-- What the lead byte announces: the bytes of the sequence, the bits of the code point it holds,
    and the least and the greatest second byte. -/
def utf8_lead (b0 : Nat) : Option (Nat × Nat × Nat × Nat) :=
  if 0xC2 ≤ b0 ∧ b0 ≤ 0xDF then some (2, b0 &&& 0x1F, 0x80, 0xBF)
  else if b0 = 0xE0 then some (3, b0 &&& 0x0F, 0xA0, 0xBF)
  else if 0xE1 ≤ b0 ∧ b0 ≤ 0xEC then some (3, b0 &&& 0x0F, 0x80, 0xBF)
  else if b0 = 0xED then some (3, b0 &&& 0x0F, 0x80, 0x9F)
  else if 0xEE ≤ b0 ∧ b0 ≤ 0xEF then some (3, b0 &&& 0x0F, 0x80, 0xBF)
  else if b0 = 0xF0 then some (4, b0 &&& 0x07, 0x90, 0xBF)
  else if 0xF1 ≤ b0 ∧ b0 ≤ 0xF3 then some (4, b0 &&& 0x07, 0x80, 0xBF)
  else if b0 = 0xF4 then some (4, b0 &&& 0x07, 0x80, 0x8F)
  else none

/-- `b < l || b > h` for the `k`-th byte after the lead. -/
def out_of_range (lo hi k : Nat) (b : UInt8) : Prop :=
  b.toNat < (if k = 1 then lo else 0x80) ∨ b.toNat > (if k = 1 then hi else 0xBF)

instance (lo hi k : Nat) (b : UInt8) : Decidable (out_of_range lo hi k b) :=
  inferInstanceAs (Decidable (_ ∨ _))

/-- The loop over the bytes after the lead, from the `k`-th on with `left` bytes to come. -/
@[grind =] def utf8_rest (lo hi : Nat) : (left k cp : Nat) → Bytes → U8 × Nat × Nat
  | 0, k, cp, _ => (.Ok, cp, k)
  | _ + 1, k, cp, [] => (.Incomplete, cp, k)
  | left + 1, k, cp, b :: s =>
    if out_of_range lo hi k b then (.Invalid, cp, k)
    else utf8_rest lo hi left (k + 1) (cp <<< 6 ||| b.toNat &&& 0x3F) s

/-- `utf8_next(s, i, cp, len)` on `s[i..]`: the verdict, `cp` and `len`. It is only called with
    `i < s.size()`. -/
def utf8_next : Bytes → U8 × Nat × Nat
  | [] => (.Invalid, 0, 0)
  | b0 :: s =>
    if b0.toNat < 0x80 then (.Ok, b0.toNat, 1)
    else
      match utf8_lead b0.toNat with
      | none => (.Invalid, 0, 1)
      | some (n, cp, lo, hi) => utf8_rest lo hi (n - 1) 1 cp s

/-- `utf8_append(out, cp)`: the bytes it appends. -/
def utf8_append (cp : Nat) : Bytes :=
  if cp < 0x80 then [UInt8.ofNat cp]
  else if cp < 0x800 then
    [UInt8.ofNat (0xC0 ||| cp >>> 6), UInt8.ofNat (0x80 ||| cp &&& 0x3F)]
  else if cp < 0x10000 then
    [UInt8.ofNat (0xE0 ||| cp >>> 12), UInt8.ofNat (0x80 ||| (cp >>> 6) &&& 0x3F),
      UInt8.ofNat (0x80 ||| cp &&& 0x3F)]
  else
    [UInt8.ofNat (0xF0 ||| cp >>> 18), UInt8.ofNat (0x80 ||| (cp >>> 12) &&& 0x3F),
      UInt8.ofNat (0x80 ||| (cp >>> 6) &&& 0x3F), UInt8.ofNat (0x80 ||| cp &&& 0x3F)]

/-! ### `utf8_next` is a scanner -/

/-- A byte that is no continuation byte. -/
def starts_char (b : UInt8) : Prop := b.toNat < 0x80 ∨ 0xBF < b.toNat

section Rest

variable {lo hi left k cp : Nat} {s : Bytes}

theorem utf8_rest_bounds (lo hi left k cp : Nat) (s : Bytes) :
    k ≤ (utf8_rest lo hi left k cp s).2.2 ∧
      (utf8_rest lo hi left k cp s).2.2 ≤ k + s.length := by
  induction left generalizing k cp s with
  | zero => simp [utf8_rest]
  | succ left ih =>
    cases s with
    | nil => simp [utf8_rest]
    | cons b s =>
      simp only [utf8_rest, List.length_cons]
      split
      · simp
      · have h := ih (k + 1) (cp <<< 6 ||| b.toNat &&& 0x3F) s
        omega

theorem utf8_rest_append (h : (utf8_rest lo hi left k cp s).1 ≠ .Incomplete) (t : Bytes) :
    utf8_rest lo hi left k cp (s ++ t) = utf8_rest lo hi left k cp s := by
  induction left generalizing k cp s with
  | zero => simp [utf8_rest]
  | succ left ih =>
    cases s with
    | nil => simp [utf8_rest] at h
    | cons b s =>
      simp only [utf8_rest, List.cons_append] at h ⊢
      split
      next => rfl
      next hb =>
        rw [if_neg hb] at h
        exact ih h

theorem utf8_rest_incomplete (h : (utf8_rest lo hi left k cp s).1 = .Incomplete) :
    (utf8_rest lo hi left k cp s).2.2 = k + s.length := by
  induction left generalizing k cp s with
  | zero => simp [utf8_rest] at h
  | succ left ih =>
    cases s with
    | nil => simp [utf8_rest]
    | cons b s =>
      simp only [utf8_rest] at h ⊢
      split
      next hb =>
        rw [if_pos hb] at h
        simp at h
      next hb =>
        rw [if_neg hb] at h
        rw [ih h, List.length_cons]
        omega

theorem utf8_rest_cut (h : (utf8_rest lo hi left k cp s).1 = .Incomplete) {b : UInt8}
    (hb : starts_char b) (hlo : 0x80 ≤ lo) (hhi : hi ≤ 0xBF) (t : Bytes) :
    (utf8_rest lo hi left k cp (s ++ b :: t)).1 = .Invalid ∧
      (utf8_rest lo hi left k cp (s ++ b :: t)).2.2 = k + s.length := by
  induction left generalizing k cp s with
  | zero => simp [utf8_rest] at h
  | succ left ih =>
    cases s with
    | nil =>
      have hout : out_of_range lo hi k b := by
        unfold starts_char at hb
        unfold out_of_range
        split
        · omega
        · omega
      simp only [utf8_rest, List.nil_append, if_pos hout, List.length_nil, Nat.add_zero,
        and_self]
    | cons b' s =>
      simp only [utf8_rest, List.cons_append] at h ⊢
      split
      next hb' =>
        rw [if_pos hb'] at h
        simp at h
      next hb' =>
        rw [if_neg hb'] at h
        rw [List.length_cons, show k + (s.length + 1) = k + 1 + s.length by omega]
        exact ih h

theorem utf8_lead_bounds {b0 n cp lo hi : Nat} (h : utf8_lead b0 = some (n, cp, lo, hi)) :
    0x80 ≤ lo ∧ hi ≤ 0xBF := by
  unfold utf8_lead at h
  repeat' split at h
  all_goals cases h
  all_goals decide

end Rest

/-- The verdict of `utf8_next` with the code point it read. -/
def utf8_verdict (s : Bytes) : Scan.Verdict Nat :=
  match (utf8_next s).1 with
  | .Ok => .Ok (utf8_next s).2.1
  | .Invalid => .Invalid
  | .Incomplete => .Incomplete

theorem utf8_verdict_isIncomplete (s : Bytes) :
    (utf8_verdict s).isIncomplete = true ↔ (utf8_next s).1 = .Incomplete := by
  unfold utf8_verdict
  cases (utf8_next s).1 with
  | Ok => simp [Scan.Verdict.isIncomplete]
  | Invalid => simp [Scan.Verdict.isIncomplete]
  | Incomplete => simp [Scan.Verdict.isIncomplete]

theorem utf8_next_bounds (b : UInt8) (s : Bytes) :
    1 ≤ (utf8_next (b :: s)).2.2 ∧ (utf8_next (b :: s)).2.2 ≤ (b :: s).length := by
  simp only [utf8_next, List.length_cons]
  split
  · simp
  · split
    · simp
    next n cp lo hi _ =>
      have h := utf8_rest_bounds lo hi (n - 1) 1 cp s
      omega

theorem utf8_next_append {b : UInt8} {s : Bytes} (h : (utf8_next (b :: s)).1 ≠ .Incomplete)
    (t : Bytes) : utf8_next (b :: s ++ t) = utf8_next (b :: s) := by
  simp only [utf8_next, List.cons_append] at h ⊢
  split
  next => rfl
  next hb =>
    rw [if_neg hb] at h
    cases hlead : utf8_lead b.toNat with
    | none => rfl
    | some e =>
      rw [hlead] at h
      exact utf8_rest_append h t

theorem utf8_next_incomplete {b : UInt8} {s : Bytes}
    (h : (utf8_next (b :: s)).1 = .Incomplete) :
    (utf8_next (b :: s)).2.2 = (b :: s).length := by
  simp only [utf8_next] at h ⊢
  split
  next hb =>
    rw [if_pos hb] at h
    simp at h
  next hb =>
    rw [if_neg hb] at h
    cases hlead : utf8_lead b.toNat with
    | none =>
      rw [hlead] at h
      simp at h
    | some e =>
      rw [hlead] at h
      show (utf8_rest e.2.2.1 e.2.2.2 (e.1 - 1) 1 e.2.1 s).2.2 = _
      rw [utf8_rest_incomplete h, List.length_cons, Nat.add_comm]

theorem utf8_next_cut {a : UInt8} {s : Bytes} (h : (utf8_next (a :: s)).1 = .Incomplete)
    {b : UInt8} (hb : starts_char b) (t : Bytes) :
    (utf8_next (a :: s ++ b :: t)).1 = .Invalid ∧
      (utf8_next (a :: s ++ b :: t)).2.2 = (a :: s).length := by
  simp only [utf8_next, List.cons_append] at h ⊢
  split
  next ha =>
    rw [if_pos ha] at h
    simp at h
  next ha =>
    rw [if_neg ha] at h
    cases hlead : utf8_lead a.toNat with
    | none =>
      rw [hlead] at h
      simp at h
    | some e =>
      rw [hlead] at h
      obtain ⟨hlo, hhi⟩ := utf8_lead_bounds hlead
      rw [List.length_cons, Nat.add_comm]
      exact utf8_rest_cut h hb hlo hhi t

def utf8_scanner : Scan.Scanner UInt8 Nat where
  next s := (utf8_verdict s, (utf8_next s).2.2)
  starts := starts_char
  pos b s := (utf8_next_bounds b s).1
  le b s := (utf8_next_bounds b s).2
  stable b s t h := by
    have hne : (utf8_next (b :: s)).1 ≠ .Incomplete := by
      intro hinc
      rw [(utf8_verdict_isIncomplete (b :: s)).mpr hinc] at h
      exact Bool.noConfusion h
    unfold utf8_verdict
    rw [utf8_next_append hne t]
  whole b s h := utf8_next_incomplete ((utf8_verdict_isIncomplete (b :: s)).mp h)
  cut a s b t h hb := by
    obtain ⟨hr, hlen⟩ := utf8_next_cut ((utf8_verdict_isIncomplete (a :: s)).mp h) hb t
    unfold utf8_verdict
    rw [hr, hlen]

/-! ### What `utf8_next` accepts -/

section Arithmetic

theorem or_eq_add {a b i : Nat} (h : b < 2 ^ i) : 2 ^ i * a ||| b = 2 ^ i * a + b :=
  (Nat.two_pow_add_eq_or_of_lt h a).symm

theorem and_3F (n : Nat) : n &&& 0x3F = n % 64 :=
  Nat.and_two_pow_sub_one_eq_mod n 6

theorem and_1F (n : Nat) : n &&& 0x1F = n % 32 :=
  Nat.and_two_pow_sub_one_eq_mod n 5

theorem and_0F (n : Nat) : n &&& 0x0F = n % 16 :=
  Nat.and_two_pow_sub_one_eq_mod n 4

theorem and_07 (n : Nat) : n &&& 0x07 = n % 8 :=
  Nat.and_two_pow_sub_one_eq_mod n 3

theorem shift_or (cp b : Nat) : cp <<< 6 ||| b &&& 0x3F = cp * 64 + b % 64 := by
  rw [and_3F, ← Nat.shiftLeft_add_eq_or_of_lt (Nat.mod_lt b (by decide)), Nat.shiftLeft_eq]

theorem utf8_append_one {cp : Nat} (h : cp < 0x80) : utf8_append cp = [UInt8.ofNat cp] := by
  unfold utf8_append
  rw [if_pos h]

theorem utf8_append_two {cp : Nat} (h₁ : 0x80 ≤ cp) (h₂ : cp < 0x800) :
    utf8_append cp = [UInt8.ofNat (0xC0 + cp / 64), UInt8.ofNat (0x80 + cp % 64)] := by
  unfold utf8_append
  rw [if_neg (by omega), if_pos h₂, and_3F, Nat.shiftRight_eq_div_pow]
  rw [show 0xC0 = 2 ^ 5 * 6 by rfl, show 0x80 = 2 ^ 6 * 2 by rfl, or_eq_add (by omega),
    or_eq_add (by omega)]

theorem utf8_append_three {cp : Nat} (h₁ : 0x800 ≤ cp) (h₂ : cp < 0x10000) :
    utf8_append cp = [UInt8.ofNat (0xE0 + cp / 4096), UInt8.ofNat (0x80 + cp / 64 % 64),
      UInt8.ofNat (0x80 + cp % 64)] := by
  unfold utf8_append
  rw [if_neg (by omega), if_neg (by omega), if_pos h₂, and_3F, and_3F,
    Nat.shiftRight_eq_div_pow, Nat.shiftRight_eq_div_pow]
  rw [show 0xE0 = 2 ^ 4 * 14 by rfl, show 0x80 = 2 ^ 6 * 2 by rfl, or_eq_add (by omega),
    or_eq_add (by omega), or_eq_add (by omega)]

theorem utf8_append_four {cp : Nat} (h₁ : 0x10000 ≤ cp) (h₂ : cp < 0x110000) :
    utf8_append cp = [UInt8.ofNat (0xF0 + cp / 262144), UInt8.ofNat (0x80 + cp / 4096 % 64),
      UInt8.ofNat (0x80 + cp / 64 % 64), UInt8.ofNat (0x80 + cp % 64)] := by
  unfold utf8_append
  rw [if_neg (by omega), if_neg (by omega), if_neg (by omega), and_3F, and_3F, and_3F,
    Nat.shiftRight_eq_div_pow, Nat.shiftRight_eq_div_pow, Nat.shiftRight_eq_div_pow]
  rw [show 0xF0 = 2 ^ 3 * 30 by rfl, show 0x80 = 2 ^ 6 * 2 by rfl, or_eq_add (by omega),
    or_eq_add (by omega), or_eq_add (by omega), or_eq_add (by omega)]

theorem utf8_append_cases {a : Nat} (ha : a < 0x110000) :
    (a < 0x80 ∧ utf8_append a = [UInt8.ofNat a]) ∨
    (0x80 ≤ a ∧ a < 0x800 ∧ utf8_append a = [UInt8.ofNat (0xC0 + a / 64), UInt8.ofNat (0x80 + a % 64)]) ∨
    (0x800 ≤ a ∧ a < 0x10000 ∧ utf8_append a = [UInt8.ofNat (0xE0 + a / 4096), UInt8.ofNat (0x80 + a / 64 % 64),
      UInt8.ofNat (0x80 + a % 64)]) ∨
    (0x10000 ≤ a ∧ utf8_append a = [UInt8.ofNat (0xF0 + a / 262144), UInt8.ofNat (0x80 + a / 4096 % 64),
      UInt8.ofNat (0x80 + a / 64 % 64), UInt8.ofNat (0x80 + a % 64)]) := by
  rcases Nat.lt_or_ge a 0x80 with h1 | h1
  · exact .inl ⟨h1, utf8_append_one h1⟩
  rcases Nat.lt_or_ge a 0x800 with h2 | h2
  · exact .inr (.inl ⟨h1, h2, utf8_append_two h1 h2⟩)
  rcases Nat.lt_or_ge a 0x10000 with h3 | h3
  · exact .inr (.inr (.inl ⟨h2, h3, utf8_append_three h2 h3⟩))
  · exact .inr (.inr (.inr ⟨h3, utf8_append_four h3 ha⟩))

theorem byte_inj {v w : Nat} (hv : v < 256) (hw : w < 256) (h : UInt8.ofNat v = UInt8.ofNat w) : v = w := by
  have h' := congrArg UInt8.toNat h
  rw [UInt8.toNat_ofNat', UInt8.toNat_ofNat', Nat.mod_eq_of_lt hv, Nat.mod_eq_of_lt hw] at h'
  exact h'

theorem utf8_append_prefix {a b : Nat} (ha : a < 0x110000) (hb : b < 0x110000) {x y : Bytes}
    (h : utf8_append a ++ x = utf8_append b ++ y) : a = b ∧ x = y := by
  rcases utf8_append_cases ha with ⟨h1, ha'⟩ | ⟨h1, h2, ha'⟩ | ⟨h1, h2, ha'⟩ | ⟨h1, ha'⟩ <;>
  rcases utf8_append_cases hb with ⟨g1, hb'⟩ | ⟨g1, g2, hb'⟩ | ⟨g1, g2, hb'⟩ | ⟨g1, hb'⟩ <;>
  rw [ha', hb'] at h <;>
  simp only [List.cons_append, List.nil_append, List.cons.injEq] at h <;>
  have hlead := byte_inj (by omega) (by omega) h.1 <;>
  try omega
  · exact ⟨hlead, h.2⟩
  · have h₂ := byte_inj (by omega) (by omega) h.2.1
    exact ⟨by omega, h.2.2⟩
  · have h₂ := byte_inj (by omega) (by omega) h.2.1
    have h₃ := byte_inj (by omega) (by omega) h.2.2.1
    exact ⟨by omega, h.2.2.2⟩
  · have h₂ := byte_inj (by omega) (by omega) h.2.1
    have h₃ := byte_inj (by omega) (by omega) h.2.2.1
    have h₄ := byte_inj (by omega) (by omega) h.2.2.2.1
    exact ⟨by omega, h.2.2.2.2⟩

theorem ofNat_eq_of_toNat {n : Nat} {b : UInt8} (h : n = b.toNat) : UInt8.ofNat n = b := by
  rw [h, UInt8.ofNat_toNat]

end Arithmetic

section Accepts

variable {lo hi left k c cp len : Nat} {s : Bytes}

/-- One byte of a sequence that is accepted. -/
theorem utf8_rest_ok_succ (h : utf8_rest lo hi (left + 1) k c s = (.Ok, cp, len)) :
    ∃ b t, s = b :: t ∧ ¬out_of_range lo hi k b ∧
      utf8_rest lo hi left (k + 1) (c * 64 + b.toNat % 64) t = (.Ok, cp, len) := by
  cases s with
  | nil => simp [utf8_rest] at h
  | cons b t =>
    simp only [utf8_rest, shift_or] at h
    split at h
    · simp at h
    next hb => exact ⟨b, t, rfl, hb, h⟩

theorem range_first {b : UInt8} (h : ¬out_of_range lo hi 1 b) :
    lo ≤ b.toNat ∧ b.toNat ≤ hi := by
  unfold out_of_range at h
  simp only [if_true] at h
  omega

theorem range_later {b : UInt8} (hk : k ≠ 1) (h : ¬out_of_range lo hi k b) :
    0x80 ≤ b.toNat ∧ b.toNat ≤ 0xBF := by
  unfold out_of_range at h
  simp only [if_neg hk] at h
  omega

theorem utf8_rest_ok_two (h : utf8_rest lo hi 1 1 c s = (.Ok, cp, len)) :
    ∃ b₁ t, s = b₁ :: t ∧ (lo ≤ b₁.toNat ∧ b₁.toNat ≤ hi) ∧
      cp = c * 64 + b₁.toNat % 64 ∧ len = 2 := by
  obtain ⟨b₁, t, rfl, h₁, h⟩ := utf8_rest_ok_succ h
  simp only [utf8_rest, Prod.mk.injEq] at h
  exact ⟨b₁, t, rfl, range_first h₁, h.2.1.symm, h.2.2.symm⟩

theorem utf8_rest_ok_three (h : utf8_rest lo hi 2 1 c s = (.Ok, cp, len)) :
    ∃ b₁ b₂ t, s = b₁ :: b₂ :: t ∧ (lo ≤ b₁.toNat ∧ b₁.toNat ≤ hi) ∧
      (0x80 ≤ b₂.toNat ∧ b₂.toNat ≤ 0xBF) ∧
      cp = (c * 64 + b₁.toNat % 64) * 64 + b₂.toNat % 64 ∧ len = 3 := by
  obtain ⟨b₁, t, rfl, h₁, h⟩ := utf8_rest_ok_succ h
  obtain ⟨b₂, t, rfl, h₂, h⟩ := utf8_rest_ok_succ h
  simp only [utf8_rest, Prod.mk.injEq] at h
  exact ⟨b₁, b₂, t, rfl, range_first h₁, range_later (by decide) h₂, h.2.1.symm, h.2.2.symm⟩

theorem utf8_rest_ok_four (h : utf8_rest lo hi 3 1 c s = (.Ok, cp, len)) :
    ∃ b₁ b₂ b₃ t, s = b₁ :: b₂ :: b₃ :: t ∧ (lo ≤ b₁.toNat ∧ b₁.toNat ≤ hi) ∧
      (0x80 ≤ b₂.toNat ∧ b₂.toNat ≤ 0xBF) ∧ (0x80 ≤ b₃.toNat ∧ b₃.toNat ≤ 0xBF) ∧
      cp = ((c * 64 + b₁.toNat % 64) * 64 + b₂.toNat % 64) * 64 + b₃.toNat % 64 ∧ len = 4 := by
  obtain ⟨b₁, t, rfl, h₁, h⟩ := utf8_rest_ok_succ h
  obtain ⟨b₂, t, rfl, h₂, h⟩ := utf8_rest_ok_succ h
  obtain ⟨b₃, t, rfl, h₃, h⟩ := utf8_rest_ok_succ h
  simp only [utf8_rest, Prod.mk.injEq] at h
  exact ⟨b₁, b₂, b₃, t, rfl, range_first h₁, range_later (by decide) h₂,
    range_later (by decide) h₃, h.2.1.symm, h.2.2.symm⟩

/-- The bytes of a two-byte sequence are the encoding of its code point; likewise below. -/
theorem utf8_two_eq {b₀ b₁ : UInt8} (h₀ : 0xC2 ≤ b₀.toNat ∧ b₀.toNat ≤ 0xDF)
    (h₁ : 0x80 ≤ b₁.toNat ∧ b₁.toNat ≤ 0xBF)
    (hcp : cp = b₀.toNat % 32 * 64 + b₁.toNat % 64) :
    cp.isValidChar ∧ [b₀, b₁] = utf8_append cp := by
  have hrange : 0x80 ≤ cp ∧ cp < 0x800 := by omega
  refine ⟨Or.inl (by omega), ?_⟩
  rw [utf8_append_two hrange.1 hrange.2, ofNat_eq_of_toNat (b := b₀) (by omega),
    ofNat_eq_of_toNat (b := b₁) (by omega)]

theorem utf8_three_eq {b₀ b₁ b₂ : UInt8} (h₀ : 0xE0 ≤ b₀.toNat ∧ b₀.toNat ≤ 0xEF)
    (h₁ : 0x80 ≤ b₁.toNat ∧ b₁.toNat ≤ 0xBF) (h₂ : 0x80 ≤ b₂.toNat ∧ b₂.toNat ≤ 0xBF)
    (hlong : b₀.toNat = 0xE0 → 0xA0 ≤ b₁.toNat) (hsurrogate : b₀.toNat = 0xED → b₁.toNat ≤ 0x9F)
    (hcp : cp = (b₀.toNat % 16 * 64 + b₁.toNat % 64) * 64 + b₂.toNat % 64) :
    cp.isValidChar ∧ [b₀, b₁, b₂] = utf8_append cp := by
  have hrange : 0x800 ≤ cp ∧ cp < 0x10000 := by omega
  refine ⟨by unfold Nat.isValidChar; omega, ?_⟩
  rw [utf8_append_three hrange.1 hrange.2, ofNat_eq_of_toNat (b := b₀) (by omega),
    ofNat_eq_of_toNat (b := b₁) (by omega), ofNat_eq_of_toNat (b := b₂) (by omega)]

theorem utf8_four_eq {b₀ b₁ b₂ b₃ : UInt8} (h₀ : 0xF0 ≤ b₀.toNat ∧ b₀.toNat ≤ 0xF4)
    (h₁ : 0x80 ≤ b₁.toNat ∧ b₁.toNat ≤ 0xBF) (h₂ : 0x80 ≤ b₂.toNat ∧ b₂.toNat ≤ 0xBF)
    (h₃ : 0x80 ≤ b₃.toNat ∧ b₃.toNat ≤ 0xBF)
    (hlong : b₀.toNat = 0xF0 → 0x90 ≤ b₁.toNat) (hlast : b₀.toNat = 0xF4 → b₁.toNat ≤ 0x8F)
    (hcp : cp = ((b₀.toNat % 8 * 64 + b₁.toNat % 64) * 64 + b₂.toNat % 64) * 64 +
      b₃.toNat % 64) :
    cp.isValidChar ∧ [b₀, b₁, b₂, b₃] = utf8_append cp := by
  have hrange : 0x10000 ≤ cp ∧ cp < 0x110000 := by omega
  refine ⟨by unfold Nat.isValidChar; omega, ?_⟩
  rw [utf8_append_four hrange.1 hrange.2, ofNat_eq_of_toNat (b := b₀) (by omega),
    ofNat_eq_of_toNat (b := b₁) (by omega), ofNat_eq_of_toNat (b := b₂) (by omega),
    ofNat_eq_of_toNat (b := b₃) (by omega)]

end Accepts

/-- `utf8_next` accepts only encodings of scalar values, and reads the value they encode. -/
theorem utf8_next_ok {s : Bytes} {cp len : Nat} (h : utf8_next s = (.Ok, cp, len)) :
    cp.isValidChar ∧ s.take len = utf8_append cp := by
  cases s with
  | nil => simp [utf8_next] at h
  | cons b₀ s =>
    simp only [utf8_next] at h
    split at h
    next hascii =>
      simp only [Prod.mk.injEq, true_and] at h
      obtain ⟨rfl, rfl⟩ := h
      refine ⟨Or.inl (by omega), ?_⟩
      rw [utf8_append_one hascii, UInt8.ofNat_toNat]
      rfl
    next hascii =>
      unfold utf8_lead at h
      -- One case for each row of the lead byte table.
      by_cases hC2 : 0xC2 ≤ b₀.toNat ∧ b₀.toNat ≤ 0xDF
      · rw [if_pos hC2, and_1F] at h
        obtain ⟨b₁, t, rfl, h₁, hcp, rfl⟩ := utf8_rest_ok_two h
        exact utf8_two_eq hC2 h₁ hcp
      rw [if_neg hC2] at h
      by_cases hE0 : b₀.toNat = 0xE0
      · rw [if_pos hE0, and_0F] at h
        obtain ⟨b₁, b₂, t, rfl, h₁, h₂, hcp, rfl⟩ := utf8_rest_ok_three h
        exact utf8_three_eq (by omega) (by omega) h₂ (by omega) (by omega) hcp
      rw [if_neg hE0] at h
      by_cases hE1 : 0xE1 ≤ b₀.toNat ∧ b₀.toNat ≤ 0xEC
      · rw [if_pos hE1, and_0F] at h
        obtain ⟨b₁, b₂, t, rfl, h₁, h₂, hcp, rfl⟩ := utf8_rest_ok_three h
        exact utf8_three_eq (by omega) h₁ h₂ (by omega) (by omega) hcp
      rw [if_neg hE1] at h
      by_cases hED : b₀.toNat = 0xED
      · rw [if_pos hED, and_0F] at h
        obtain ⟨b₁, b₂, t, rfl, h₁, h₂, hcp, rfl⟩ := utf8_rest_ok_three h
        exact utf8_three_eq (by omega) (by omega) h₂ (by omega) (by omega) hcp
      rw [if_neg hED] at h
      by_cases hEE : 0xEE ≤ b₀.toNat ∧ b₀.toNat ≤ 0xEF
      · rw [if_pos hEE, and_0F] at h
        obtain ⟨b₁, b₂, t, rfl, h₁, h₂, hcp, rfl⟩ := utf8_rest_ok_three h
        exact utf8_three_eq (by omega) h₁ h₂ (by omega) (by omega) hcp
      rw [if_neg hEE] at h
      by_cases hF0 : b₀.toNat = 0xF0
      · rw [if_pos hF0, and_07] at h
        obtain ⟨b₁, b₂, b₃, t, rfl, h₁, h₂, h₃, hcp, rfl⟩ := utf8_rest_ok_four h
        exact utf8_four_eq (by omega) (by omega) h₂ h₃ (by omega) (by omega) hcp
      rw [if_neg hF0] at h
      by_cases hF1 : 0xF1 ≤ b₀.toNat ∧ b₀.toNat ≤ 0xF3
      · rw [if_pos hF1, and_07] at h
        obtain ⟨b₁, b₂, b₃, t, rfl, h₁, h₂, h₃, hcp, rfl⟩ := utf8_rest_ok_four h
        exact utf8_four_eq (by omega) h₁ h₂ h₃ (by omega) (by omega) hcp
      rw [if_neg hF1] at h
      by_cases hF4 : b₀.toNat = 0xF4
      · rw [if_pos hF4, and_07] at h
        obtain ⟨b₁, b₂, b₃, t, rfl, h₁, h₂, h₃, hcp, rfl⟩ := utf8_rest_ok_four h
        exact utf8_four_eq (by omega) (by omega) h₂ h₃ (by omega) (by omega) hcp
      · rw [if_neg hF4] at h
        simp at h

section Encoding

variable {lo hi left k c cp : Nat} {b : UInt8} {t : Bytes}

theorem utf8_rest_first (h : lo ≤ b.toNat ∧ b.toNat ≤ hi) :
    utf8_rest lo hi (left + 1) 1 c (b :: t) =
      utf8_rest lo hi left 2 (c * 64 + b.toNat % 64) t := by
  have hin : ¬out_of_range lo hi 1 b := by
    unfold out_of_range
    simp only [if_true]
    omega
  simp only [utf8_rest, shift_or, if_neg hin]

theorem utf8_rest_later (hk : k ≠ 1) (h : 0x80 ≤ b.toNat ∧ b.toNat ≤ 0xBF) :
    utf8_rest lo hi (left + 1) k c (b :: t) =
      utf8_rest lo hi left (k + 1) (c * 64 + b.toNat % 64) t := by
  have hin : ¬out_of_range lo hi k b := by
    unfold out_of_range
    simp only [if_neg hk]
    omega
  simp only [utf8_rest, shift_or, if_neg hin]

theorem toNat_ofNat_of_lt {n : Nat} (h : n < 256) : (UInt8.ofNat n).toNat = n := by
  rw [UInt8.toNat_ofNat']
  exact Nat.mod_eq_of_lt h

theorem utf8_lead_three {b₀ : Nat} (h₀ : 0xE0 ≤ b₀ ∧ b₀ ≤ 0xEF) :
    utf8_lead b₀ = some (3, b₀ % 16, if b₀ = 0xE0 then 0xA0 else 0x80,
      if b₀ = 0xED then 0x9F else 0xBF) := by
  obtain ⟨n, rfl⟩ : ∃ n, b₀ = 0xE0 + n := ⟨b₀ - 0xE0, by omega⟩
  have hn : n < 16 := by omega
  interval_cases n <;> rfl

theorem utf8_lead_four {b₀ : Nat} (h₀ : 0xF0 ≤ b₀ ∧ b₀ ≤ 0xF4) :
    utf8_lead b₀ = some (4, b₀ % 8, if b₀ = 0xF0 then 0x90 else 0x80,
      if b₀ = 0xF4 then 0x8F else 0xBF) := by
  obtain ⟨n, rfl⟩ : ∃ n, b₀ = 0xF0 + n := ⟨b₀ - 0xF0, by omega⟩
  have hn : n < 5 := by omega
  interval_cases n <;> rfl

theorem utf8_next_utf8_append (h : cp.isValidChar) (t : Bytes) :
    utf8_next (utf8_append cp ++ t) = (.Ok, cp, (utf8_append cp).length) := by
  have hlt : cp < 0x110000 := by
    unfold Nat.isValidChar at h
    omega
  by_cases h1 : cp < 0x80
  · rw [utf8_append_one h1]
    simp only [List.cons_append, List.nil_append, utf8_next]
    rw [toNat_ofNat_of_lt (by omega), if_pos h1]
    rfl
  by_cases h2 : cp < 0x800
  · rw [utf8_append_two (by omega) h2]
    simp only [List.cons_append, List.nil_append, utf8_next]
    rw [toNat_ofNat_of_lt (by omega), if_neg (by omega)]
    have hlead : utf8_lead (0xC0 + cp / 64) = some (2, (0xC0 + cp / 64) % 32, 0x80, 0xBF) := by
      unfold utf8_lead
      rw [if_pos (by omega), and_1F]
    rw [hlead]
    simp only
    rw [utf8_rest_first (by rw [toNat_ofNat_of_lt (by omega)]; omega),
      toNat_ofNat_of_lt (by omega)]
    simp only [utf8_rest, List.length_cons, List.length_nil, Prod.mk.injEq, true_and, and_true]
    omega
  by_cases h3 : cp < 0x10000
  · rw [utf8_append_three (by omega) h3]
    simp only [List.cons_append, List.nil_append, utf8_next]
    rw [toNat_ofNat_of_lt (by omega), if_neg (by omega), utf8_lead_three (by omega)]
    unfold Nat.isValidChar at h
    -- neither overlong nor a surrogate
    have hfirst : (if 0xE0 + cp / 4096 = 0xE0 then 0xA0 else 0x80) ≤ 0x80 + cp / 64 % 64 ∧
        0x80 + cp / 64 % 64 ≤ (if 0xE0 + cp / 4096 = 0xED then 0x9F else 0xBF) := by
      split <;> split <;> omega
    simp only
    rw [utf8_rest_first (by rw [toNat_ofNat_of_lt (by omega)]; exact hfirst),
      utf8_rest_later (by decide) (by rw [toNat_ofNat_of_lt (by omega)]; omega),
      toNat_ofNat_of_lt (by omega), toNat_ofNat_of_lt (by omega)]
    simp only [utf8_rest, List.length_cons, List.length_nil, Prod.mk.injEq, true_and, and_true]
    omega
  · rw [utf8_append_four (by omega) hlt]
    simp only [List.cons_append, List.nil_append, utf8_next]
    rw [toNat_ofNat_of_lt (by omega), if_neg (by omega), utf8_lead_four (by omega)]
    have hfirst : (if 0xF0 + cp / 262144 = 0xF0 then 0x90 else 0x80) ≤ 0x80 + cp / 4096 % 64 ∧
        0x80 + cp / 4096 % 64 ≤ (if 0xF0 + cp / 262144 = 0xF4 then 0x8F else 0xBF) := by
      split <;> split <;> omega
    simp only
    rw [utf8_rest_first (by rw [toNat_ofNat_of_lt (by omega)]; exact hfirst),
      utf8_rest_later (by decide) (by rw [toNat_ofNat_of_lt (by omega)]; omega),
      utf8_rest_later (by decide) (by rw [toNat_ofNat_of_lt (by omega)]; omega),
      toNat_ofNat_of_lt (by omega), toNat_ofNat_of_lt (by omega), toNat_ofNat_of_lt (by omega)]
    simp only [utf8_rest, List.length_cons, List.length_nil, Prod.mk.injEq, true_and, and_true]
    omega

end Encoding

/-! ### Lossy decoding -/

/-- U+FFFD. -/
def replacement : Bytes := [0xEF, 0xBF, 0xBD]

/-- The loop of `utf8_lossy`; every turn consumes a byte, so `fuel` is the bytes left. -/
@[grind =] def utf8_lossy_loop (hold_incomplete : Bool) : (fuel : Nat) → (s out : Bytes) → Bytes × Nat
  | 0, _, out => (out, 0)
  | _ + 1, [], out => (out, 0)
  | fuel + 1, b :: s, out =>
    let (r, _, len) := utf8_next (b :: s)
    match r with
    | .Ok => utf8_lossy_loop hold_incomplete fuel ((b :: s).drop len) (out ++ (b :: s).take len)
    | .Incomplete =>
      if hold_incomplete then (out, (b :: s).length)
      else utf8_lossy_loop hold_incomplete fuel ((b :: s).drop len) (out ++ replacement)
    | .Invalid =>
      utf8_lossy_loop hold_incomplete fuel ((b :: s).drop len) (out ++ replacement)

/-- `utf8_lossy(s, hold_incomplete, &held)`: the text and `held`. -/
def utf8_lossy (s : Bytes) (hold_incomplete : Bool := false) : Bytes × Nat :=
  utf8_lossy_loop hold_incomplete s.length s []

theorem utf8_append_replacement : utf8_append 0xFFFD = replacement := by
  decide

/-- The code point a unit stands for. -/
def unit_code (u : Scan.Verdict Nat × Bytes) : Nat :=
  match u.1 with
  | .Ok cp => cp
  | .Invalid => 0xFFFD
  | .Incomplete => 0xFFFD

/-- The text of a list of code points. -/
def encode_all (cps : List Nat) : Bytes := cps.flatMap utf8_append

@[simp]
theorem encode_all_nil : encode_all [] = [] :=
  rfl

@[simp]
theorem encode_all_append (xs ys : List Nat) :
    encode_all (xs ++ ys) = encode_all xs ++ encode_all ys :=
  List.flatMap_append

@[simp]
theorem encode_all_cons (cp : Nat) (cps : List Nat) :
    encode_all (cp :: cps) = utf8_append cp ++ encode_all cps :=
  rfl

theorem encode_all_flatten (l : List (List Nat)) : encode_all l.flatten = l.flatMap encode_all := by
  induction l with
  | nil => rfl
  | cons cps l ih => rw [List.flatten_cons, encode_all_append, List.flatMap_cons, ih]

/-- The code points `utf8_lossy` and the encoder read a text as. -/
def code_points (s : Bytes) : List Nat := (utf8_scanner.units s).map unit_code

theorem utf8_next_cases (s : Bytes) :
    (∃ cp, utf8_next s = (.Ok, cp, (utf8_next s).2.2) ∧ utf8_verdict s = .Ok cp) ∨
      ((utf8_next s).1 = .Invalid ∧ utf8_verdict s = .Invalid) ∨
      ((utf8_next s).1 = .Incomplete ∧ utf8_verdict s = .Incomplete) := by
  unfold utf8_verdict
  cases h : (utf8_next s).1 with
  | Ok =>
    refine Or.inl ⟨(utf8_next s).2.1, ?_, rfl⟩
    rw [← h]
  | Invalid => exact Or.inr (Or.inl ⟨rfl, rfl⟩)
  | Incomplete => exact Or.inr (Or.inr ⟨rfl, rfl⟩)

theorem units_cons_eq (b : UInt8) (s : Bytes) :
    utf8_scanner.units (b :: s) = (utf8_verdict (b :: s), (b :: s).take (utf8_next (b :: s)).2.2) ::
      utf8_scanner.units ((b :: s).drop (utf8_next (b :: s)).2.2) :=
  utf8_scanner.units_cons b s

/-- A unit that is read whole is the encoding of its code point. -/
theorem unit_of_ok {s : Bytes} {cp : Nat} (h : utf8_next s = (.Ok, cp, (utf8_next s).2.2)) :
    s.take (utf8_next s).2.2 = utf8_append cp :=
  (utf8_next_ok h).2

theorem utf8_lossy_loop_eq (hold : Bool) {fuel : Nat} {s : Bytes} (hfuel : s.length ≤ fuel)
    (out : Bytes) :
    utf8_lossy_loop hold fuel s out =
      (out ++ encode_all
          ((if hold then utf8_scanner.finished s else utf8_scanner.units s).map unit_code),
        if hold then (utf8_scanner.pending s).length else 0) := by
  induction fuel generalizing s out with
  | zero =>
    have hs : s = [] := List.length_eq_zero_iff.mp (Nat.le_zero.mp hfuel)
    subst hs
    cases hold <;> simp [utf8_lossy_loop, Scan.Scanner.finished, Scan.Scanner.pending]
  | succ fuel ih =>
    cases s with
    | nil => cases hold <;> simp [utf8_lossy_loop, Scan.Scanner.finished, Scan.Scanner.pending]
    | cons b s =>
      have hrest : ((b :: s).drop (utf8_next (b :: s)).2.2).length ≤ fuel := by
        have := utf8_scanner.length_drop_next_lt b s
        exact Nat.le_of_lt_succ (Nat.lt_of_lt_of_le this hfuel)
      -- What a turn that goes on leaves, for either value of `hold`.
      have hgo (hinc : (utf8_verdict (b :: s)).isIncomplete = false ∨ hold = false) :
          ((if hold then utf8_scanner.finished (b :: s) else utf8_scanner.units (b :: s)).map
              unit_code =
            unit_code (utf8_verdict (b :: s), (b :: s).take (utf8_next (b :: s)).2.2) ::
              (if hold then utf8_scanner.finished ((b :: s).drop (utf8_next (b :: s)).2.2)
                else utf8_scanner.units ((b :: s).drop (utf8_next (b :: s)).2.2)).map unit_code) ∧
          ((if hold then (utf8_scanner.pending (b :: s)).length else 0) =
            if hold then (utf8_scanner.pending ((b :: s).drop (utf8_next (b :: s)).2.2)).length
              else 0) := by
        cases hold with
        | false =>
          simp only [Bool.false_eq_true, if_false]
          rw [units_cons_eq]
          exact ⟨rfl, trivial⟩
        | true =>
          have hinc : (utf8_verdict (b :: s)).isIncomplete = false := by simpa using hinc
          simp only [if_true]
          rw [utf8_scanner.finished_cons hinc, utf8_scanner.pending_cons hinc]
          exact ⟨rfl, rfl⟩
      rcases utf8_next_cases (b :: s) with ⟨cp, hok, hv⟩ | ⟨hr, hv⟩ | ⟨hr, hv⟩
      · obtain ⟨hunits, hheld⟩ := hgo (Or.inl (by rw [hv]; rfl))
        simp only [utf8_lossy_loop]
        rw [show (utf8_next (b :: s)).1 = .Ok by rw [hok]]
        simp only
        rw [ih hrest, hunits, hheld, hv, unit_of_ok hok, encode_all_cons, List.append_assoc]
        rfl
      · obtain ⟨hunits, hheld⟩ := hgo (Or.inl (by rw [hv]; rfl))
        simp only [utf8_lossy_loop]
        rw [hr]
        simp only
        rw [ih hrest, hunits, hheld, hv, encode_all_cons, List.append_assoc,
          ← utf8_append_replacement]
        rfl
      · cases hold with
        | true =>
          have hinc : (utf8_verdict (b :: s)).isIncomplete = true := by rw [hv]; rfl
          simp only [utf8_lossy_loop]
          rw [hr]
          simp only [if_true]
          rw [utf8_scanner.finished_incomplete hinc, utf8_scanner.pending_incomplete hinc]
          simp
        | false =>
          obtain ⟨hunits, hheld⟩ := hgo (Or.inr rfl)
          simp only [utf8_lossy_loop]
          rw [hr]
          simp only [Bool.false_eq_true, if_false] at hunits ⊢
          rw [ih hrest, hunits, hv, encode_all_cons, List.append_assoc,
            ← utf8_append_replacement]
          rfl

/-- A lossy decode is the encoding of the code points read. -/
theorem utf8_lossy_eq (s : Bytes) : (utf8_lossy s).1 = encode_all (code_points s) := by
  unfold utf8_lossy
  rw [utf8_lossy_loop_eq false (Nat.le_refl _)]
  rfl

/-- A held decode is the encoding of the finished units, and holds the pending beginning back. -/
theorem utf8_lossy_hold (s : Bytes) :
    utf8_lossy s true =
      (encode_all ((utf8_scanner.finished s).map unit_code), (utf8_scanner.pending s).length) := by
  unfold utf8_lossy
  rw [utf8_lossy_loop_eq true (Nat.le_refl _)]
  rfl

/-! ### Valid UTF-8 -/

def valid_utf8 (s : Bytes) : Prop := s.toByteArray.IsValidUTF8

theorem utf8_append_toNat (c : Char) : utf8_append c.toNat = String.utf8EncodeChar c := by
  have hlt : c.toNat < 0x110000 := by
    rcases c.valid with h | h
    · exact Nat.lt_trans h (by decide)
    · exact h.2
  unfold String.utf8EncodeChar
  simp only
  change _ = if c.toNat ≤ 0x7f then _ else if c.toNat ≤ 0x7ff then _ else if c.toNat ≤ 0xffff then
    _ else _
  split
  next h => rw [utf8_append_one (by omega)]; rfl
  next h1 =>
  split
  next h =>
    rw [utf8_append_two (by omega) (by omega)]
    have hlead : 0xC0 + c.toNat / 64 = c.toNat / 64 % 32 + 0xC0 := by omega
    rw [hlead, Nat.add_comm 0x80]
    rfl
  next h2 =>
  split
  next h =>
    rw [utf8_append_three (by omega) (by omega)]
    have hlead : 0xE0 + c.toNat / 4096 = c.toNat / 4096 % 16 + 0xE0 := by omega
    rw [hlead, Nat.add_comm 0x80, Nat.add_comm 0x80]
    rfl
  next h3 =>
    rw [utf8_append_four (by omega) hlt]
    have hlead : 0xF0 + c.toNat / 262144 = c.toNat / 262144 % 8 + 0xF0 := by omega
    rw [hlead, Nat.add_comm 0x80, Nat.add_comm 0x80, Nat.add_comm 0x80]
    rfl

theorem toNat_ofNat_of_valid {cp : Nat} (h : cp.isValidChar) : (Char.ofNat cp).toNat = cp := by
  unfold Char.ofNat
  rw [dif_pos h]
  rfl

theorem valid_utf8_iff {s : Bytes} :
    valid_utf8 s ↔ ∃ cps, (∀ cp ∈ cps, cp.isValidChar) ∧ s = encode_all cps := by
  constructor
  · intro ⟨m, hm⟩
    refine ⟨m.map Char.toNat, ?_, ?_⟩
    · intro cp hcp
      obtain ⟨c, -, rfl⟩ := List.mem_map.mp hcp
      exact c.valid
    · rw [List.toByteArray_inj.mp hm]
      unfold encode_all
      rw [List.flatMap_map]
      exact List.flatMap_congr fun c _ => (utf8_append_toNat c).symm
  · intro ⟨cps, hcps, hs⟩
    refine ⟨cps.map Char.ofNat, ?_⟩
    unfold List.utf8Encode
    rw [hs, List.flatMap_map]
    apply congrArg List.toByteArray
    apply List.flatMap_congr
    intro cp hcp
    rw [← utf8_append_toNat, toNat_ofNat_of_valid (hcps cp hcp)]

theorem replacement_valid : Nat.isValidChar 0xFFFD :=
  Or.inr (by decide)

theorem unit_code_valid {s : Bytes} {u : Scan.Verdict Nat × Bytes}
    (hu : u ∈ utf8_scanner.units s) : (unit_code u).isValidChar := by
  induction s using utf8_scanner.units_induction with
  | nil => simp at hu
  | cons b s ih =>
    rw [utf8_scanner.units_cons] at hu
    rcases List.mem_cons.mp hu with rfl | hu
    · rcases utf8_next_cases (b :: s) with ⟨cp, hok, hv⟩ | ⟨-, hv⟩ | ⟨-, hv⟩
      · show (unit_code (utf8_verdict (b :: s), _)).isValidChar
        rw [hv]
        exact (utf8_next_ok hok).1
      · show (unit_code (utf8_verdict (b :: s), _)).isValidChar
        rw [hv]
        exact replacement_valid
      · show (unit_code (utf8_verdict (b :: s), _)).isValidChar
        rw [hv]
        exact replacement_valid
    · exact ih hu

theorem valid_utf8_units {us : List (Scan.Verdict Nat × Bytes)} {s : Bytes}
    (h : us ⊆ utf8_scanner.units s) : valid_utf8 (encode_all (us.map unit_code)) := by
  refine valid_utf8_iff.mpr ⟨us.map unit_code, ?_, rfl⟩
  intro cp hcp
  obtain ⟨u, hu, rfl⟩ := List.mem_map.mp hcp
  exact unit_code_valid (h hu)

/-- Whatever the input, both decodes are valid UTF-8. -/
theorem utf8_lossy_valid (s : Bytes) (hold : Bool) : valid_utf8 (utf8_lossy s hold).1 := by
  cases hold with
  | false =>
    rw [utf8_lossy_eq]
    exact valid_utf8_units (List.Subset.refl _)
  | true =>
    rw [utf8_lossy_hold]
    exact valid_utf8_units (List.filter_subset_self _)

/-! ### Texts side by side -/

theorem unit_code_closed (u : Scan.Verdict Nat × Bytes) : unit_code (u.1.closed, u.2) = unit_code u := by
  obtain ⟨v, s⟩ := u
  cases v with
  | Ok cp => rfl
  | Invalid => rfl
  | Incomplete => rfl

theorem code_points_append_starts (s : Bytes) {b : UInt8} (hb : starts_char b) (t : Bytes) :
    code_points (s ++ b :: t) = code_points s ++ code_points (b :: t) := by
  unfold code_points
  rw [utf8_scanner.units_append_starts s hb t, List.map_append, List.map_map]
  congr 1
  exact List.map_congr_left fun u _ => unit_code_closed u

/-- A text that ends between characters. -/
def Whole (s : Bytes) : Prop := utf8_scanner.Whole s

theorem Whole.nil : Whole [] :=
  fun _ h => absurd h List.not_mem_nil

theorem Whole.append {s t : Bytes} (hs : Whole s) (ht : Whole t) : Whole (s ++ t) :=
  Scan.Scanner.Whole.append hs ht

theorem Whole.code_points_append {s : Bytes} (h : Whole s) (t : Bytes) :
    code_points (s ++ t) = code_points s ++ code_points t := by
  unfold code_points
  rw [Scan.Scanner.Whole.units_append h t, List.map_append]

theorem Whole.flatMap {α : Type} {l : List α} {f : α → Bytes} (h : ∀ x ∈ l, Whole (f x)) :
    Whole (l.flatMap f) := by
  induction l with
  | nil => exact Whole.nil
  | cons x l ih =>
    rw [List.flatMap_cons]
    exact (h x List.mem_cons_self).append (ih fun y hy => h y (List.mem_cons_of_mem x hy))

theorem Whole.code_points_flatMap {α : Type} {l : List α} {f : α → Bytes}
    (h : ∀ x ∈ l, Whole (f x)) : code_points (l.flatMap f) = l.flatMap fun x => code_points (f x) := by
  induction l with
  | nil => rfl
  | cons x l ih =>
    rw [List.flatMap_cons, List.flatMap_cons, (h x List.mem_cons_self).code_points_append,
      ih fun y hy => h y (List.mem_cons_of_mem x hy)]

/-! ### Encoded characters -/

theorem utf8_append_ne_nil (cp : Nat) : utf8_append cp ≠ [] := by
  unfold utf8_append
  repeat' split
  all_goals exact List.cons_ne_nil _ _

theorem flatMap_utf8_injective {s t : List Nat} (hs : ∀ u ∈ s, u < 0x110000)
    (ht : ∀ u ∈ t, u < 0x110000) (h : s.flatMap utf8_append = t.flatMap utf8_append) : s = t := by
  induction s generalizing t with
  | nil =>
    cases t with
    | nil => rfl
    | cons b t =>
      rw [List.flatMap_cons] at h
      exact absurd (List.append_eq_nil_iff.mp h.symm).1 (utf8_append_ne_nil b)
  | cons a s ih =>
    cases t with
    | nil =>
      rw [List.flatMap_cons] at h
      exact absurd (List.append_eq_nil_iff.mp h).1 (utf8_append_ne_nil a)
    | cons b t =>
      rw [List.flatMap_cons, List.flatMap_cons] at h
      obtain ⟨hab, hrest⟩ := utf8_append_prefix (hs a List.mem_cons_self) (ht b List.mem_cons_self) h
      rw [hab, ih (fun u hu => hs u (List.mem_cons_of_mem _ hu))
        (fun u hu => ht u (List.mem_cons_of_mem _ hu)) hrest]

/-- The units of one encoded scalar value. -/
theorem units_utf8_append {cp : Nat} (h : cp.isValidChar) :
    utf8_scanner.units (utf8_append cp) = [(.Ok cp, utf8_append cp)] := by
  have hnext := utf8_next_utf8_append h []
  rw [List.append_nil] at hnext
  have hverdict : utf8_verdict (utf8_append cp) = .Ok cp := by
    unfold utf8_verdict
    rw [hnext]
  cases hs : utf8_append cp with
  | nil => exact absurd hs (utf8_append_ne_nil cp)
  | cons b s =>
    rw [hs] at hnext hverdict
    rw [units_cons_eq, hverdict, hnext]
    simp only
    rw [List.take_length, List.drop_length]
    rfl

/-- A byte that no character starts with is a unit of its own. -/
theorem units_invalid {b : UInt8} {s : Bytes} (h : (utf8_next (b :: s)).1 = .Invalid)
    (hlen : (utf8_next (b :: s)).2.2 = 1) :
    utf8_scanner.units (b :: s) = (.Invalid, [b]) :: utf8_scanner.units s := by
  have hverdict : utf8_verdict (b :: s) = .Invalid := by
    unfold utf8_verdict
    rw [h]
  rw [units_cons_eq, hverdict, hlen]
  rfl

theorem utf8_next_continuation {b : UInt8} (h : 0x80 ≤ b.toNat ∧ b.toNat ≤ 0xBF) (s : Bytes) :
    utf8_next (b :: s) = (.Invalid, 0, 1) := by
  have hlead : utf8_lead b.toNat = none := by
    unfold utf8_lead
    repeat' rw [if_neg (by omega)]
  simp only [utf8_next]
  rw [if_neg (by omega), hlead]

/-- A lone surrogate is encoded as three bytes that start no character. -/
theorem utf8_append_surrogate {cp : Nat} (h : 0xD800 ≤ cp ∧ cp ≤ 0xDFFF) :
    ∃ b₁ b₂ : UInt8, utf8_append cp = [0xED, b₁, b₂] ∧
      (0xA0 ≤ b₁.toNat ∧ b₁.toNat ≤ 0xBF) ∧ (0x80 ≤ b₂.toNat ∧ b₂.toNat ≤ 0xBF) := by
  refine ⟨UInt8.ofNat (0x80 + cp / 64 % 64), UInt8.ofNat (0x80 + cp % 64), ?_, ?_, ?_⟩
  · rw [utf8_append_three (by omega) (by omega), show cp / 4096 = 13 by omega]
    rfl
  · rw [toNat_ofNat_of_lt (by omega)]
    omega
  · rw [toNat_ofNat_of_lt (by omega)]
    omega

theorem utf8_next_surrogate {b₁ : UInt8} (h : 0xA0 ≤ b₁.toNat ∧ b₁.toNat ≤ 0xBF) (s : Bytes) :
    (utf8_next (0xED :: b₁ :: s)).1 = .Invalid ∧ (utf8_next (0xED :: b₁ :: s)).2.2 = 1 := by
  have hout : out_of_range 0x80 0x9F 1 b₁ := by
    unfold out_of_range
    simp only [if_true]
    omega
  have hnext : utf8_next (0xED :: b₁ :: s) = utf8_rest 0x80 0x9F 2 1 13 (b₁ :: s) := rfl
  rw [hnext]
  simp only [utf8_rest, if_pos hout, and_self]

/-- What `utf8_append` writes starts and ends between characters, for lone surrogates too. -/
theorem whole_utf8_append {cp : Nat} (h : cp < 0x110000) : Whole (utf8_append cp) := by
  intro u hu
  by_cases hvalid : cp.isValidChar
  · rw [units_utf8_append hvalid] at hu
    rw [List.mem_singleton.mp hu]
    rfl
  · have hsurrogate : 0xD800 ≤ cp ∧ cp ≤ 0xDFFF := by
      unfold Nat.isValidChar at hvalid
      omega
    obtain ⟨b₁, b₂, hbytes, h₁, h₂⟩ := utf8_append_surrogate hsurrogate
    have hfirst := utf8_next_surrogate h₁ [b₂]
    have hsecond := utf8_next_continuation (b := b₁) (by omega) [b₂]
    have hthird := utf8_next_continuation (b := b₂) h₂ []
    rw [hbytes, units_invalid hfirst.1 hfirst.2, units_invalid (by rw [hsecond]) (by rw [hsecond]),
      units_invalid (by rw [hthird]) (by rw [hthird])] at hu
    simp only [Scan.Scanner.units_nil, List.mem_cons, List.not_mem_nil, or_false] at hu
    rcases hu with rfl | rfl | rfl
    · rfl
    · rfl
    · rfl

theorem utf8_append_starts {cp : Nat} (h : cp < 0x110000) :
    ∃ b s, utf8_append cp = b :: s ∧ starts_char b := by
  unfold starts_char
  by_cases h1 : cp < 0x80
  · refine ⟨UInt8.ofNat cp, [], utf8_append_one h1, ?_⟩
    rw [toNat_ofNat_of_lt (by omega)]
    omega
  by_cases h2 : cp < 0x800
  · refine ⟨_, _, utf8_append_two (by omega) h2, ?_⟩
    rw [toNat_ofNat_of_lt (by omega)]
    omega
  by_cases h3 : cp < 0x10000
  · refine ⟨_, _, utf8_append_three (by omega) h3, ?_⟩
    rw [toNat_ofNat_of_lt (by omega)]
    omega
  · refine ⟨_, _, utf8_append_four (by omega) h, ?_⟩
    rw [toNat_ofNat_of_lt (by omega)]
    omega

theorem whole_encode_all {cps : List Nat} (h : ∀ cp ∈ cps, cp < 0x110000) :
    Whole (encode_all cps) :=
  Whole.flatMap fun cp hcp => whole_utf8_append (h cp hcp)

theorem lt_of_isValidChar {cp : Nat} (h : cp.isValidChar) : cp < 0x110000 := by
  rcases h with h | h
  · omega
  · exact h.2

/-- Reading back what was written. -/
theorem code_points_encode_all {cps : List Nat} (h : ∀ cp ∈ cps, cp.isValidChar) :
    code_points (encode_all cps) = cps := by
  have hcode : ∀ cp ∈ cps, code_points (utf8_append cp) = [cp] := by
    intro cp hcp
    unfold code_points
    rw [units_utf8_append (h cp hcp)]
    rfl
  unfold encode_all
  rw [Whole.code_points_flatMap fun cp hcp => whole_utf8_append (lt_of_isValidChar (h cp hcp)),
    List.flatMap_congr hcode, List.flatMap_singleton']

theorem code_points_valid (s : Bytes) : ∀ cp ∈ code_points s, cp.isValidChar := by
  intro cp hcp
  obtain ⟨u, hu, rfl⟩ := List.mem_map.mp hcp
  exact unit_code_valid hu

theorem utf8_lossy_of_valid {s : Bytes} (h : valid_utf8 s) : (utf8_lossy s).1 = s := by
  obtain ⟨cps, hcps, rfl⟩ := valid_utf8_iff.mp h
  rw [utf8_lossy_eq, code_points_encode_all hcps]

/-- What is decoded is valid UTF-8, and a second decode changes nothing. -/
theorem utf8_lossy_idem (s : Bytes) (hold : Bool) :
    valid_utf8 (utf8_lossy s hold).1 ∧
      (utf8_lossy (utf8_lossy s hold).1).1 = (utf8_lossy s hold).1 :=
  ⟨utf8_lossy_valid s hold, utf8_lossy_of_valid (utf8_lossy_valid s hold)⟩

theorem length_le_length_encode_all (cps : List Nat) : cps.length ≤ (encode_all cps).length := by
  induction cps with
  | nil => exact Nat.le_refl 0
  | cons cp cps ih =>
    have hpos := List.length_pos_iff.mpr (utf8_append_ne_nil cp)
    rw [encode_all_cons, List.length_append, List.length_cons]
    omega

end CachedMoe.Text
