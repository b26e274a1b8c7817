import CachedMoe.Text.Tokenizer

/-! # The byte-level alphabet

    Each byte has a character of its own, so a token spelled in these characters gives its bytes
    back; a string with any other character stands for itself. -/

namespace CachedMoe.Text

/-! ### Characters of the bytes -/

/-- The characters in closed form: the bytes that do not stand for themselves are numbered from
    256 on. -/
theorem to_char_eq : ∀ b < 256, to_char b =
    if (33 ≤ b ∧ b ≤ 126) ∨ (161 ≤ b ∧ b ≤ 172) ∨ 174 ≤ b then b
    else if b ≤ 32 then 256 + b
    else if b ≤ 160 then 162 + b
    else 323 := by
  decide +kernel

theorem to_char_lt {b : Nat} (h : b < 256) : to_char b < 512 := by
  rw [to_char_eq b h]
  repeat' split
  all_goals omega

theorem to_char_valid {b : Nat} (h : b < 256) : (to_char b).isValidChar := by
  have hlt := to_char_lt h
  exact Or.inl (by omega)

theorem to_char_inj {a b : Nat} (ha : a < 256) (hb : b < 256) (h : to_char a = to_char b) :
    a = b := by
  rw [to_char_eq a ha, to_char_eq b hb] at h
  repeat' split at h
  all_goals omega

theorem to_byte_to_char {b : Nat} (h : b < 256) : to_byte (to_char b) = some b := by
  unfold to_byte
  cases hfind : (List.range 256).find? fun b' => decide (to_char b' = to_char b) with
  | none =>
    have hnone := List.find?_eq_none.mp hfind b (List.mem_range.mpr h)
    simp at hnone
  | some a =>
    have ha := List.mem_range.mp (List.mem_of_find?_eq_some hfind)
    have hchar := List.find?_some hfind
    rw [to_char_inj ha h (by simpa using hchar)]

theorem to_byte_ascii {c : Nat} (h : 33 ≤ c ∧ c ≤ 126) : to_byte c = some c := by
  have hself : to_char c = c := by
    rw [to_char_eq c (by omega), if_pos (Or.inl h)]
  calc to_byte c = to_byte (to_char c) := by rw [hself]
    _ = some c := to_byte_to_char (by omega)

theorem to_byte_blank : to_byte 0x20 = none := by
  decide +kernel

/-! ### Spelling -/

/-- A byte string in the characters of the alphabet. -/
def spell (bs : Bytes) : Bytes := encode_all (bs.map fun b => to_char b.toNat)

@[simp]
theorem spell_append (as bs : Bytes) : spell (as ++ bs) = spell as ++ spell bs := by
  unfold spell
  rw [List.map_append, encode_all_append]

theorem spell_singleton (b : UInt8) : spell [b] = utf8_append (to_char b.toNat) := by
  unfold spell
  rw [List.map_singleton, encode_all_cons, encode_all_nil, List.append_nil]

theorem length_le_length_spell (bs : Bytes) : bs.length ≤ (spell bs).length := by
  have h := length_le_length_encode_all (bs.map fun b => to_char b.toNat)
  rwa [List.length_map] at h

/-- One character of the loop, when it is an encoded scalar value. -/
theorem bytes_of_token_loop_cons {cp : Nat} (h : cp.isValidChar) (fuel : Nat) (s out : Bytes) :
    bytes_of_token_loop (fuel + 1) (utf8_append cp ++ s) out =
      if cp ≥ 512 then none
      else
        match to_byte cp with
        | none => none
        | some byte => bytes_of_token_loop fuel s (out ++ [UInt8.ofNat byte]) := by
  have hnext := utf8_next_utf8_append h s
  have hdrop : (utf8_append cp ++ s).drop (utf8_append cp).length = s := List.drop_left
  cases hs : utf8_append cp ++ s with
  | nil => exact absurd (List.append_eq_nil_iff.mp hs).1 (utf8_append_ne_nil cp)
  | cons b t =>
    rw [hs] at hnext hdrop
    simp only [bytes_of_token_loop, hnext, hdrop]
    by_cases hbig : cp ≥ 512
    · rw [if_pos (Or.inr hbig), if_pos hbig]
    · have hread : ¬(U8.Ok ≠ U8.Ok ∨ cp ≥ 512) := by simpa using hbig
      exact (if_neg hread).trans (if_neg hbig).symm

theorem bytes_of_token_loop_spell {fuel : Nat} {bs : Bytes} (hfuel : (spell bs).length ≤ fuel)
    (out : Bytes) : bytes_of_token_loop fuel (spell bs) out = some (out ++ bs) := by
  induction bs generalizing fuel out with
  | nil =>
    cases fuel with
    | zero => simp [bytes_of_token_loop]
    | succ fuel => simp [spell, bytes_of_token_loop]
  | cons b bs ih =>
    have hb : b.toNat < 256 := b.toNat_lt
    have hspell : spell (b :: bs) = utf8_append (to_char b.toNat) ++ spell bs := rfl
    have hpos := List.length_pos_iff.mpr (utf8_append_ne_nil (to_char b.toNat))
    rw [hspell, List.length_append] at hfuel
    cases fuel with
    | zero => omega
    | succ fuel =>
      rw [hspell, bytes_of_token_loop_cons (to_char_valid hb), if_neg (Nat.not_le.mpr (to_char_lt hb)),
        to_byte_to_char hb]
      simp only
      rw [ih (by omega), UInt8.ofNat_toNat, List.append_assoc]
      rfl

theorem bytes_of_token_string_spell (bs : Bytes) : bytes_of_token_string (spell bs) = bs := by
  unfold bytes_of_token_string
  rw [bytes_of_token_loop_spell (Nat.le_refl _)]
  rfl

/-! ### Contents that stand for themselves -/

/-- Plain printable ASCII. -/
def PrintableAscii (s : Bytes) : Prop := ∀ b ∈ s, 0x20 ≤ b.toNat ∧ b.toNat ≤ 0x7E

/-- A string of characters, one of which is outside the byte-level alphabet. An escaped lone
    surrogate is a character here. -/
def OutsideAlphabet (s : Bytes) : Prop :=
  ∃ cps, s = encode_all cps ∧ (∀ cp ∈ cps, cp < 0x110000) ∧ ∃ cp ∈ cps, to_byte cp = none

theorem bytes_of_token_loop_ascii {fuel : Nat} {s : Bytes} (h : PrintableAscii s)
    (hfuel : s.length ≤ fuel) (out : Bytes) :
    bytes_of_token_loop fuel s out = none ∨
      bytes_of_token_loop fuel s out = some (out ++ s) := by
  induction s generalizing fuel out with
  | nil =>
    right
    cases fuel with
    | zero => simp [bytes_of_token_loop]
    | succ fuel => simp [bytes_of_token_loop]
  | cons b s ih =>
    have hb := h b List.mem_cons_self
    have hbyte : utf8_append b.toNat = [b] := by
      rw [utf8_append_one (by omega), UInt8.ofNat_toNat]
    cases fuel with
    | zero => simp at hfuel
    | succ fuel =>
      have hvalid : b.toNat.isValidChar := Or.inl (by omega)
      have hstep := bytes_of_token_loop_cons hvalid fuel s out
      rw [hbyte, List.singleton_append, if_neg (by omega)] at hstep
      by_cases hblank : b.toNat = 0x20
      · rw [hblank, to_byte_blank] at hstep
        exact Or.inl hstep
      · rw [to_byte_ascii (by omega)] at hstep
        simp only [UInt8.ofNat_toNat] at hstep
        rw [hstep, show out ++ b :: s = out ++ [b] ++ s by simp]
        exact ih (fun c hc => h c (List.mem_cons_of_mem b hc)) (Nat.le_of_succ_le_succ hfuel) _

theorem bytes_of_token_loop_outside {fuel : Nat} {cps : List Nat}
    (hcps : ∀ cp ∈ cps, cp < 0x110000) (hout : ∃ cp ∈ cps, to_byte cp = none)
    (hfuel : (encode_all cps).length ≤ fuel) (out : Bytes) :
    bytes_of_token_loop fuel (encode_all cps) out = none := by
  induction cps generalizing fuel out with
  | nil => simp at hout
  | cons cp cps ih =>
    have hpos := List.length_pos_iff.mpr (utf8_append_ne_nil cp)
    rw [encode_all_cons, List.length_append] at hfuel
    cases fuel with
    | zero => omega
    | succ fuel =>
      by_cases hvalid : cp.isValidChar
      · rw [encode_all_cons, bytes_of_token_loop_cons hvalid]
        split
        · rfl
        cases hbyte : to_byte cp with
        | none => rfl
        | some byte =>
          have hrest : ∃ cp ∈ cps, to_byte cp = none := by
            obtain ⟨cp', hmem, hnone⟩ := hout
            rcases List.mem_cons.mp hmem with rfl | hmem
            · rw [hbyte] at hnone
              exact absurd hnone (Option.some_ne_none byte)
            · exact ⟨cp', hmem, hnone⟩
          exact ih (fun cp' h => hcps cp' (List.mem_cons_of_mem cp h)) hrest (by omega) _
      · -- A lone surrogate is not read at all.
        have hsurrogate : 0xD800 ≤ cp ∧ cp ≤ 0xDFFF := by
          have hlt := hcps cp List.mem_cons_self
          unfold Nat.isValidChar at hvalid
          omega
        obtain ⟨b₁, b₂, hbytes, h₁, -⟩ := utf8_append_surrogate hsurrogate
        have hnext := utf8_next_surrogate h₁ (b₂ :: encode_all cps)
        rw [encode_all_cons, hbytes]
        simp only [List.cons_append, List.nil_append, bytes_of_token_loop]
        rw [if_pos (Or.inl (by rw [hnext.1]; decide))]

theorem bytes_of_token_string_ascii {s : Bytes} (h : PrintableAscii s) :
    bytes_of_token_string s = s := by
  unfold bytes_of_token_string
  rcases bytes_of_token_loop_ascii h (Nat.le_refl _) [] with hloop | hloop
  · rw [hloop]
    rfl
  · rw [hloop]
    rfl

theorem bytes_of_token_string_outside {s : Bytes} (h : OutsideAlphabet s) :
    bytes_of_token_string s = s := by
  obtain ⟨cps, rfl, hcps, hout⟩ := h
  unfold bytes_of_token_string
  rw [bytes_of_token_loop_outside hcps hout (Nat.le_refl _)]
  rfl

theorem content_characters {s : Bytes} (h : PrintableAscii s ∨ OutsideAlphabet s) :
    ∃ cps, s = encode_all cps ∧ ∀ cp ∈ cps, cp < 0x110000 := by
  rcases h with h | ⟨cps, hs, hcps, -⟩
  · refine ⟨s.map UInt8.toNat, ?_, ?_⟩
    · induction s with
      | nil => rfl
      | cons b s ih =>
        have hb := h b List.mem_cons_self
        rw [List.map_cons, encode_all_cons, utf8_append_one (by omega), UInt8.ofNat_toNat,
          List.singleton_append, ← ih fun c hc => h c (List.mem_cons_of_mem b hc)]
    · intro cp hcp
      obtain ⟨b, -, rfl⟩ := List.mem_map.mp hcp
      exact Nat.lt_trans b.toNat_lt (by decide)
  · exact ⟨cps, hs, hcps⟩

theorem content_bytes {s : Bytes} (h : PrintableAscii s ∨ OutsideAlphabet s) :
    bytes_of_token_string s = s :=
  h.elim bytes_of_token_string_ascii bytes_of_token_string_outside

end CachedMoe.Text
