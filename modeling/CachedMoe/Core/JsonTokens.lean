import CachedMoe.Core.JsonText

/-! # Strings and numbers of the JSON parser

    What the parser takes off the text for a string and for a number. A string is read in
    pieces (`Spells`): in front of anything, or where a lone high surrogate is followed by no
    other escape. So `json_parse` reads back every string that `json_quote` writes. -/

namespace CachedMoe

open Json Text JsonText

/-! ### Running the parser -/

namespace Parser

section Run

variable {α β : Type} {m : Parse α} {k : α → Parse β} {p p' : Parser} {a : α}

theorem run_bind (h : m p = .ok (a, p')) : (m >>= k) p = k a p' := by
  show (m p).bind _ = _
  rw [h]
  rfl

theorem run_peek (c : UInt8) (rest : Bytes) (i d : Nat) (k : Option UInt8 → Parse β) :
    (peek >>= k) ⟨c :: rest, i, d⟩ = k (some c) ⟨c :: rest, i, d⟩ :=
  rfl

theorem run_next (c : UInt8) (rest : Bytes) (i d : Nat) (k : Option UInt8 → Parse β) :
    (next >>= k) ⟨c :: rest, i, d⟩ = k (some c) ⟨rest, i + 1, d⟩ :=
  rfl

theorem run_bump (bs rest : Bytes) (i d : Nat) :
    bump bs.length ⟨bs ++ rest, i, d⟩ = .ok ((), ⟨rest, i + bs.length, d⟩) := by
  unfold bump
  simp

end Run

/-! ### Escapes -/

theorem hex_digit_char (h : HexDigit) : hex_digit h.char = some h.digit.val := by
  obtain ⟨⟨d, hd⟩, upper⟩ := h
  unfold HexDigit.char
  cases upper with
  | true => interval_cases d <;> rfl
  | false => interval_cases d <;> rfl

/-- Shifting four bits in is adding a digit. -/
theorem shift_or {v d : Nat} (hd : d < 16) : v <<< 4 ||| d = v * 16 + d := by
  have h := Nat.shiftLeft_add_eq_or_of_lt (i := 4) hd v
  rw [← h, Nat.shiftLeft_eq]

theorem hex_value_lt (h₁ h₂ h₃ h₄ : HexDigit) : hex_value h₁ h₂ h₃ h₄ < 0x10000 := by
  have b₁ := h₁.digit.isLt
  have b₂ := h₂.digit.isLt
  have b₃ := h₃.digit.isLt
  have b₄ := h₄.digit.isLt
  unfold hex_value
  omega

theorem run_hex4 (h₁ h₂ h₃ h₄ : HexDigit) (rest : Bytes) (i d : Nat) :
    hex4 ⟨h₁.char :: h₂.char :: h₃.char :: h₄.char :: rest, i, d⟩ =
      .ok (hex_value h₁ h₂ h₃ h₄, ⟨rest, i + 4, d⟩) := by
  have hlong : ¬ (h₁.char :: h₂.char :: h₃.char :: h₄.char :: rest).length < 4 := by
    simp
  have hfold : ((h₁.char :: h₂.char :: h₃.char :: h₄.char :: rest).take 4).foldlM
      (fun v c => (hex_digit c).map fun d => v <<< 4 ||| d) 0 = some (hex_value h₁ h₂ h₃ h₄) := by
    simp only [List.take_succ_cons, List.take_zero, List.foldlM_cons, List.foldlM_nil, hex_digit_char, Option.map_some,
      Option.bind_eq_bind, Option.bind_some, shift_or (Fin.isLt _)]
    unfold hex_value
    show some _ = some _
    congr 1
    omega
  unfold hex4
  rw [if_neg hlong]
  dsimp only
  rw [hfold]
  rfl

/-- Where the next characters are no other escape, or the code point is no high surrogate. -/
theorem run_unicode_escape (h₁ h₂ h₃ h₄ : HexDigit) (rest : Bytes) (i d : Nat)
    (h : ¬ (is_high (hex_value h₁ h₂ h₃ h₄) = true ∧ rest.take 2 = [backslash, 117])) :
    unicode_escape ⟨h₁.char :: h₂.char :: h₃.char :: h₄.char :: rest, i, d⟩ =
      .ok (utf8_append (hex_value h₁ h₂ h₃ h₄), ⟨rest, i + 4, d⟩) := by
  unfold unicode_escape
  rw [run_bind (run_hex4 h₁ h₂ h₃ h₄ rest i d)]
  show (if is_high _ = true ∧ rest.take 2 = [backslash, 117] then _ else _ : Parse Bytes) _ = _
  rw [if_neg h]
  rfl

/-- Two escapes, the first a high surrogate. -/
theorem run_unicode_pair (h₁ h₂ h₃ h₄ g₁ g₂ g₃ g₄ : HexDigit) (rest : Bytes) (i d : Nat)
    (h : is_high (hex_value h₁ h₂ h₃ h₄) = true) :
    unicode_escape ⟨h₁.char :: h₂.char :: h₃.char :: h₄.char :: backslash :: 117 ::
        g₁.char :: g₂.char :: g₃.char :: g₄.char :: rest, i, d⟩ =
      .ok (if is_low (hex_value g₁ g₂ g₃ g₄) then
          utf8_append (pair (hex_value h₁ h₂ h₃ h₄) (hex_value g₁ g₂ g₃ g₄))
        else utf8_append (hex_value h₁ h₂ h₃ h₄) ++ utf8_append (hex_value g₁ g₂ g₃ g₄),
        ⟨rest, i + 10, d⟩) := by
  unfold unicode_escape
  rw [run_bind (run_hex4 h₁ h₂ h₃ h₄ _ i d)]
  show (if is_high _ = true ∧ List.take 2 (backslash :: 117 :: _) = [backslash, 117] then _ else _ :
    Parse Bytes) _ = _
  rw [if_pos ⟨h, rfl⟩]
  show ((bump 2 >>= fun _ => hex4 >>= _) : Parse Bytes) _ = _
  have hbump : bump 2 ⟨backslash :: 117 :: g₁.char :: g₂.char :: g₃.char :: g₄.char :: rest, i + 4, d⟩ =
      .ok ((), ⟨g₁.char :: g₂.char :: g₃.char :: g₄.char :: rest, i + 4 + 2, d⟩) := rfl
  rw [run_bind hbump, run_bind (run_hex4 g₁ g₂ g₃ g₄ rest (i + 4 + 2) d)]
  split
  · rfl
  · rfl

/-! ### Pieces of a string -/

/-- In a string, in front of what meets `F`, the parser reads `bs` as `out`. -/
def Spells (bs out : Bytes) (F : Bytes → Prop) : Prop :=
  ∀ n acc rest i d, F rest → bs.length ≤ n → ∃ m, n ≤ m + bs.length ∧
    string_chars n acc ⟨bs ++ rest, i, d⟩ = string_chars m (acc ++ out) ⟨rest, i + bs.length, d⟩

section Spells

variable {bs bs' out out' : Bytes} {F G : Bytes → Prop}

theorem Spells.nil (F : Bytes → Prop) : Spells [] [] F := by
  intro n acc rest i d _ _
  exact ⟨n, le_rfl, by simp⟩

theorem Spells.append (h : Spells bs out F) (h' : Spells bs' out' G)
    (hF : ∀ rest, G rest → F (bs' ++ rest)) : Spells (bs ++ bs') (out ++ out') G := by
  intro n acc rest i d hG hn
  rw [List.length_append] at hn
  obtain ⟨m, hm, hrun⟩ := h n acc (bs' ++ rest) i d (hF rest hG) (by omega)
  obtain ⟨m', hm', hrun'⟩ := h' m (acc ++ out) rest (i + bs.length) d hG (by omega)
  refine ⟨m', ?_, ?_⟩
  · rw [List.length_append]
    omega
  · rw [List.append_assoc, hrun, hrun', List.append_assoc, List.length_append, Nat.add_assoc]

theorem Spells.weaken (h : Spells bs out F) (hG : ∀ rest, G rest → F rest) : Spells bs out G :=
  fun n acc rest i d hr hn => h n acc rest i d (hG rest hr) hn

/-- A character that stands for itself. -/
def plain (c : UInt8) : Prop := 0x20 ≤ c.toNat ∧ c ≠ quote ∧ c ≠ backslash

theorem spells_plain {c : UInt8} (h : plain c) : Spells [c] [c] fun _ => True := by
  intro n acc rest i d _ hn
  obtain ⟨m, rfl⟩ := Nat.exists_eq_add_of_le' hn
  refine ⟨m, le_rfl, ?_⟩
  obtain ⟨hcontrol, hquote, hslash⟩ := h
  show string_chars (m + 1) acc ⟨c :: rest, i, d⟩ = _
  rw [string_chars, run_next]
  dsimp only
  rw [if_neg hquote, if_pos hslash, if_neg (by omega)]
  rfl

theorem spells_plains (h : ∀ c ∈ bs, plain c) : Spells bs bs fun _ => True := by
  induction bs with
  | nil => exact .nil _
  | cons c bs ih =>
    have hfirst := spells_plain (h c List.mem_cons_self)
    have hrest := ih fun c' hc' => h c' (List.mem_cons_of_mem c hc')
    exact hfirst.append hrest fun _ _ => trivial

theorem spells_simple {e b : UInt8} (h : simple_escape e = some b) :
    Spells [backslash, e] [b] fun _ => True := by
  intro n acc rest i d _ hn
  obtain ⟨m, rfl⟩ := Nat.exists_eq_add_of_le' hn
  refine ⟨m + 1, by simp, ?_⟩
  show string_chars (m + 1 + 1) acc ⟨backslash :: e :: rest, i, d⟩ = _
  rw [string_chars, run_next]
  dsimp only
  rw [if_neg (by decide), if_neg (by simp), run_next]
  dsimp only
  rw [h]
  rfl

/-- An escape with `\u` reads what `unicode_escape` reads. -/
theorem run_unicode_chars {n : Nat} {acc tail tail' bytes : Bytes} {i i' d : Nat}
    (h : unicode_escape ⟨tail, i + 2, d⟩ = .ok (bytes, ⟨tail', i', d⟩)) :
    string_chars (n + 1) acc ⟨backslash :: 117 :: tail, i, d⟩ =
      string_chars n (acc ++ bytes) ⟨tail', i', d⟩ := by
  rw [string_chars, run_next]
  dsimp only
  rw [if_neg (by decide), if_neg (by simp), run_next]
  have hu : simple_escape 117 = none := by decide
  dsimp only
  rw [hu]
  dsimp only
  rw [if_pos rfl, run_bind h]

theorem spells_unicode (h₁ h₂ h₃ h₄ : HexDigit) :
    Spells (StringChar.unicode h₁ h₂ h₃ h₄).render (utf8_append (hex_value h₁ h₂ h₃ h₄)) fun rest =>
      ¬ (is_high (hex_value h₁ h₂ h₃ h₄) = true ∧ rest.take 2 = [backslash, 117]) := by
  intro n acc rest i d hrest hn
  obtain ⟨m, rfl⟩ := Nat.exists_eq_add_of_le' hn
  refine ⟨m + 5, by simp [StringChar.render], ?_⟩
  exact run_unicode_chars (run_unicode_escape h₁ h₂ h₃ h₄ rest (i + 2) d hrest)

theorem spells_pair (h₁ h₂ h₃ h₄ g₁ g₂ g₃ g₄ : HexDigit)
    (h : is_high (hex_value h₁ h₂ h₃ h₄) = true) :
    Spells ((StringChar.unicode h₁ h₂ h₃ h₄).render ++ (StringChar.unicode g₁ g₂ g₃ g₄).render)
      (if is_low (hex_value g₁ g₂ g₃ g₄) then
          utf8_append (pair (hex_value h₁ h₂ h₃ h₄) (hex_value g₁ g₂ g₃ g₄))
        else utf8_append (hex_value h₁ h₂ h₃ h₄) ++ utf8_append (hex_value g₁ g₂ g₃ g₄))
      fun _ => True := by
  intro n acc rest i d _ hn
  obtain ⟨m, rfl⟩ := Nat.exists_eq_add_of_le' hn
  refine ⟨m + 11, by simp [StringChar.render], ?_⟩
  exact run_unicode_chars (run_unicode_pair h₁ h₂ h₃ h₄ g₁ g₂ g₃ g₄ rest (i + 2) d h)

/-- The closing mark ends the string. -/
theorem Spells.literal (h : Spells bs out F) {rest : Bytes} (hF : F (quote :: rest)) {n : Nat}
    (hn : bs.length < n) (i d : Nat) :
    string_literal n ⟨quote :: (bs ++ quote :: rest), i, d⟩ =
      .ok (out, ⟨rest, i + (bs.length + 2), d⟩) := by
  obtain ⟨m, hm, hrun⟩ := h n [] (quote :: rest) (i + 1) d hF hn.le
  obtain ⟨m', rfl⟩ : ∃ m', m = m' + 1 := ⟨m - 1, by omega⟩
  have hbump : bump 1 ⟨quote :: (bs ++ quote :: rest), i, d⟩ =
      .ok ((), ⟨bs ++ quote :: rest, i + 1, d⟩) := rfl
  unfold string_literal
  rw [run_bind hbump, hrun, string_chars, run_next]
  dsimp only
  rw [if_pos rfl, List.nil_append]
  show Except.ok (out, (⟨rest, i + 1 + bs.length + 1, d⟩ : Parser)) = _
  rw [show i + 1 + bs.length + 1 = i + (bs.length + 2) by omega]

end Spells

/-! ### What the writer writes -/

theorem hex_char_low (d : Fin 16) : hex_char d.val = ({ digit := d } : HexDigit).char := by
  obtain ⟨d, hd⟩ := d
  interval_cases d <;> rfl

theorem spells_quote_char (c : UInt8) : Spells (quote_char c) [c] fun _ => True := by
  have hescape : ∀ e b : UInt8, simple_escape e = some b → c = b →
      Spells [backslash, e] [c] fun _ => True := by
    intro e b he hc
    rw [hc]
    exact spells_simple he
  unfold quote_char
  split
  next hc => exact hescape 34 34 rfl hc
  next hquote =>
  split
  next hc => exact hescape 92 92 rfl hc
  next hslash =>
  split
  next hc => exact hescape 110 10 rfl hc
  split
  next hc => exact hescape 114 13 rfl hc
  split
  next hc => exact hescape 116 9 rfl hc
  split
  next hc => exact hescape 98 8 rfl hc
  split
  next hc => exact hescape 102 12 rfl hc
  split
  next hcontrol =>
    -- the other control characters have an escape of four digits
    have hhigh : c.toNat / 16 < 16 := by omega
    have hlow : c.toNat % 16 < 16 := by omega
    let g : HexDigit := { digit := ⟨c.toNat / 16, hhigh⟩ }
    let g' : HexDigit := { digit := ⟨c.toNat % 16, hlow⟩ }
    let z : HexDigit := { digit := 0 }
    have hvalue : hex_value z z g g' = c.toNat := by
      show 0 * 4096 + 0 * 256 + c.toNat / 16 * 16 + c.toNat % 16 = c.toNat
      omega
    have hspells := spells_unicode z z g g'
    have hlow' : is_high c.toNat = false := by
      unfold is_high
      rw [decide_eq_false_iff_not]
      omega
    rw [hvalue, utf8_append_one (by omega), UInt8.ofNat_toNat] at hspells
    have hrender : (StringChar.unicode z z g g').render =
        [92, 117, 48, 48, hex_char (c.toNat / 16), hex_char (c.toNat % 16)] := by
      have h₁ := hex_char_low ⟨c.toNat / 16, hhigh⟩
      have h₂ := hex_char_low ⟨c.toNat % 16, hlow⟩
      show [92, 117, z.char, z.char, g.char, g'.char] = _
      rw [← h₁, ← h₂]
      rfl
    rw [← hrender]
    exact hspells.weaken fun rest _ hno => by simp [hlow'] at hno
  next hcontrol => exact spells_plain ⟨by omega, hquote, hslash⟩

theorem spells_quoted (s : Bytes) : Spells (s.flatMap quote_char) s fun _ => True := by
  induction s with
  | nil => exact .nil _
  | cons c s ih =>
    have hboth := (spells_quote_char c).append ih fun _ _ => trivial
    rw [List.flatMap_cons]
    exact hboth

/-! ### The strings of a text -/

theorem char_lt (c : Char) : c.toNat < 0x110000 := by
  have h : c.val.toNat.isValidChar := c.valid
  show c.val.toNat < 0x110000
  rcases h with h | h
  · omega
  · exact h.2

theorem plain_byte {v : Nat} (h : 0x20 ≤ v) (hlt : v < 256) (hmark : v ≠ 34) (hsolidus : v ≠ 92) :
    plain (UInt8.ofNat v) := by
  have hv : (UInt8.ofNat v).toNat = v := by
    rw [UInt8.toNat_ofNat']
    exact Nat.mod_eq_of_lt hlt
  refine ⟨by omega, ?_, ?_⟩
  · intro heq
    rw [heq] at hv
    exact hmark hv.symm
  · intro heq
    rw [heq] at hv
    exact hsolidus hv.symm

/-- A character that needs no escape is made of bytes that need none. -/
theorem plain_encode {c : Char} (h : 0x20 ≤ c.toNat) (hmark : c ≠ '"') (hsolidus : c ≠ '\\') :
    ∀ b ∈ String.utf8EncodeChar c, plain b := by
  have hmax := char_lt c
  have hq : c.toNat ≠ 34 := fun heq => hmark (Char.ext (UInt32.toNat_inj.mp heq))
  have hs : c.toNat ≠ 92 := fun heq => hsolidus (Char.ext (UInt32.toNat_inj.mp heq))
  rw [← utf8_append_toNat]
  intro b hb
  rcases Nat.lt_or_ge c.toNat 0x80 with h1 | h1
  · rw [utf8_append_one h1, List.mem_singleton] at hb
    rw [hb]
    exact plain_byte h (by omega) hq hs
  rcases Nat.lt_or_ge c.toNat 0x800 with h2 | h2
  · rw [utf8_append_two h1 h2] at hb
    simp only [List.mem_cons, List.not_mem_nil, or_false] at hb
    rcases hb with rfl | rfl
    · exact plain_byte (by omega) (by omega) (by omega) (by omega)
    · exact plain_byte (by omega) (by omega) (by omega) (by omega)
  rcases Nat.lt_or_ge c.toNat 0x10000 with h3 | h3
  · rw [utf8_append_three h2 h3] at hb
    simp only [List.mem_cons, List.not_mem_nil, or_false] at hb
    rcases hb with rfl | rfl | rfl
    · exact plain_byte (by omega) (by omega) (by omega) (by omega)
    · exact plain_byte (by omega) (by omega) (by omega) (by omega)
    · exact plain_byte (by omega) (by omega) (by omega) (by omega)
  · rw [utf8_append_four h3 hmax] at hb
    simp only [List.mem_cons, List.not_mem_nil, or_false] at hb
    rcases hb with rfl | rfl | rfl | rfl
    · exact plain_byte (by omega) (by omega) (by omega) (by omega)
    · exact plain_byte (by omega) (by omega) (by omega) (by omega)
    · exact plain_byte (by omega) (by omega) (by omega) (by omega)
    · exact plain_byte (by omega) (by omega) (by omega) (by omega)

/-- The code points as the parser reads them: behind a high surrogate it takes the next escape
    too, pair or not. -/
@[grind =] def scan_pairs : Option Nat → List Nat → List Nat
  | none, [] => []
  | some hi, [] => [hi]
  | none, u :: s => if is_high u then scan_pairs (some u) s else u :: scan_pairs none s
  | some hi, u :: s =>
    if is_low u then pair hi u :: scan_pairs none s else hi :: u :: scan_pairs none s

theorem scan_high {u : Nat} (h : is_high u = true) (s : List Nat) :
    scan_pairs none (u :: s) = scan_pairs (some u) s := by
  rw [scan_pairs, if_pos h]

theorem scan_other {u : Nat} (h : is_high u = false) (s : List Nat) :
    scan_pairs none (u :: s) = u :: scan_pairs none s := by
  rw [scan_pairs, if_neg (by simp [h])]

theorem scan_low {hi u : Nat} (h : is_low u = true) (s : List Nat) :
    scan_pairs (some hi) (u :: s) = pair hi u :: scan_pairs none s := by
  rw [scan_pairs, if_pos h]

theorem scan_unpaired {hi u : Nat} (h : is_low u = false) (s : List Nat) :
    scan_pairs (some hi) (u :: s) = hi :: u :: scan_pairs none s := by
  rw [scan_pairs, if_neg (by simp [h])]

/-- The string that the parser reads. -/
def parsed (s : StringText) : Bytes :=
  (scan_pairs none (s.map StringChar.code)).flatMap utf8_append

/-- Only an escape with `\u` is a surrogate. -/
theorem code_not_surrogate (c : StringChar) (h : ∀ h₁ h₂ h₃ h₄, c ≠ .unicode h₁ h₂ h₃ h₄) :
    is_high c.code = false ∧ is_low c.code = false := by
  cases c with
  | unescaped c hcontrol hmark hsolidus =>
    have hvalid : c.val.toNat.isValidChar := c.valid
    unfold is_high is_low
    show decide (0xD800 ≤ c.val.toNat ∧ c.val.toNat ≤ 0xDBFF) = false ∧
      decide (0xDC00 ≤ c.val.toNat ∧ c.val.toNat ≤ 0xDFFF) = false
    rw [decide_eq_false_iff_not, decide_eq_false_iff_not]
    rcases hvalid with hlow | hhigh
    · omega
    · omega
  | escape e =>
    cases e with
    | _ => decide
  | unicode h₁ h₂ h₃ h₄ => exact absurd rfl (h h₁ h₂ h₃ h₄)

theorem spells_char (c : StringChar) (h : is_high c.code = false) :
    Spells c.render (utf8_append c.code) fun _ => True := by
  cases c with
  | unescaped c hcontrol hmark hsolidus =>
    show Spells (String.utf8EncodeChar c) (utf8_append c.toNat) _
    rw [utf8_append_toNat]
    exact spells_plains (plain_encode hcontrol hmark hsolidus)
  | escape e =>
    have hsimple : simple_escape e.char = some (UInt8.ofNat e.code) ∧
        utf8_append e.code = [UInt8.ofNat e.code] := by
      cases e with
      | _ => decide
    show Spells [backslash, e.char] (utf8_append e.code) _
    rw [hsimple.2]
    exact spells_simple hsimple.1
  | unicode h₁ h₂ h₃ h₄ =>
    refine (spells_unicode h₁ h₂ h₃ h₄).weaken fun rest _ hno => ?_
    rw [show hex_value h₁ h₂ h₃ h₄ = (StringChar.unicode h₁ h₂ h₃ h₄).code from rfl, h] at hno
    exact absurd hno.1 (by simp)

/-- What comes after a lone high surrogate is not taken for an escape with `\u`. -/
theorem no_escape_ahead {c : StringChar} (h : ∀ h₁ h₂ h₃ h₄, c ≠ .unicode h₁ h₂ h₃ h₄)
    (rest : Bytes) : (c.render ++ rest).take 2 ≠ [backslash, 117] := by
  cases c with
  | unescaped c hcontrol hmark hsolidus =>
    intro htake
    have hplain := plain_encode hcontrol hmark hsolidus
    cases hbs : String.utf8EncodeChar c with
    | nil =>
      have hlen := String.length_utf8EncodeChar c
      rw [hbs] at hlen
      exact absurd hlen.symm (Nat.ne_of_gt c.utf8Size_pos)
    | cons b bs =>
      have hrender : (StringChar.unescaped c hcontrol hmark hsolidus).render = b :: bs := hbs
      rw [hrender] at htake
      have hb : b = backslash := (List.cons.inj htake).1
      exact (hplain b (hbs ▸ List.mem_cons_self)).2.2 hb
  | escape e =>
    intro htake
    have hchar : e.char = 117 := (List.cons.inj (List.cons.inj htake).2).1
    cases e with
    | _ => exact absurd hchar (by decide)
  | unicode h₁ h₂ h₃ h₄ => exact absurd rfl (h h₁ h₂ h₃ h₄)

/-- A string of the grammar is read for what the parser makes of it. -/
theorem spells_string (s : StringText) :
    Spells (s.flatMap StringChar.render) (parsed s) fun rest => rest.head? ≠ some backslash := by
  induction hn : s.length using Nat.strong_induction_on generalizing s with
  | _ n ih =>
    cases s with
    | nil => exact .nil _
    | cons c s =>
      have hlen : s.length < n := by
        rw [← hn, List.length_cons]
        omega
      rw [List.flatMap_cons]
      cases hhigh : is_high c.code with
      | false =>
        have hparsed : parsed (c :: s) = utf8_append c.code ++ parsed s := by
          unfold parsed
          rw [List.map_cons, scan_other hhigh, List.flatMap_cons]
        rw [hparsed]
        exact (spells_char c hhigh).append (ih _ hlen s rfl) fun _ _ => trivial
      | true =>
        cases c with
        | unescaped c hcontrol hmark hsolidus =>
          have hno := code_not_surrogate (.unescaped c hcontrol hmark hsolidus) (by simp)
          rw [hno.1] at hhigh
          cases hhigh
        | escape e =>
          have hno := code_not_surrogate (.escape e) (by simp)
          rw [hno.1] at hhigh
          cases hhigh
        | unicode h₁ h₂ h₃ h₄ =>
          cases s with
          | nil =>
            -- the closing mark follows
            have hparsed : parsed [.unicode h₁ h₂ h₃ h₄] =
                utf8_append (hex_value h₁ h₂ h₃ h₄) ++ [] := by
              unfold parsed
              rw [List.map_cons, scan_high hhigh]
              rfl
            rw [hparsed]
            refine (spells_unicode h₁ h₂ h₃ h₄).append (.nil fun rest => rest.head? ≠ some backslash) ?_
            rintro rest hrest ⟨_, htake⟩
            cases rest with
            | nil => cases htake
            | cons b rest =>
              have hb : b = backslash := (List.cons.inj htake).1
              exact hrest (by rw [hb]; rfl)
          | cons c s =>
            have hlen' : s.length < n := by
              rw [List.length_cons] at hlen
              omega
            by_cases hc : ∀ g₁ g₂ g₃ g₄, c ≠ .unicode g₁ g₂ g₃ g₄
            · obtain ⟨hnothigh, hnotlow⟩ := code_not_surrogate c hc
              have hparsed : parsed (.unicode h₁ h₂ h₃ h₄ :: c :: s) =
                  utf8_append (hex_value h₁ h₂ h₃ h₄) ++ parsed (c :: s) := by
                unfold parsed
                rw [List.map_cons, List.map_cons, scan_high hhigh, scan_unpaired hnotlow,
                  scan_other hnothigh, List.flatMap_cons]
                rfl
              rw [hparsed]
              refine (spells_unicode h₁ h₂ h₃ h₄).append (ih _ hlen (c :: s) rfl) ?_
              intro rest _ hno
              rw [List.flatMap_cons, List.append_assoc] at hno
              exact no_escape_ahead hc _ hno.2
            · simp only [not_forall, not_not] at hc
              obtain ⟨g₁, g₂, g₃, g₄, rfl⟩ := hc
              rw [List.flatMap_cons, ← List.append_assoc]
              have hparsed : parsed (.unicode h₁ h₂ h₃ h₄ :: .unicode g₁ g₂ g₃ g₄ :: s) =
                  (if is_low (hex_value g₁ g₂ g₃ g₄) then
                    utf8_append (pair (hex_value h₁ h₂ h₃ h₄) (hex_value g₁ g₂ g₃ g₄))
                  else utf8_append (hex_value h₁ h₂ h₃ h₄) ++ utf8_append (hex_value g₁ g₂ g₃ g₄)) ++
                  parsed s := by
                unfold parsed
                rw [List.map_cons, List.map_cons, scan_high hhigh]
                cases hlow : is_low (hex_value g₁ g₂ g₃ g₄) with
                | true =>
                  rw [show (StringChar.unicode g₁ g₂ g₃ g₄).code = hex_value g₁ g₂ g₃ g₄ from rfl,
                    scan_low hlow, if_pos rfl, List.flatMap_cons]
                  rfl
                | false =>
                  rw [show (StringChar.unicode g₁ g₂ g₃ g₄).code = hex_value g₁ g₂ g₃ g₄ from rfl,
                    scan_unpaired hlow, if_neg (by simp), List.flatMap_cons, List.flatMap_cons,
                    List.append_assoc]
                  rfl
              rw [hparsed]
              exact (spells_pair h₁ h₂ h₃ h₄ g₁ g₂ g₃ g₄ hhigh).append (ih _ hlen' s rfl)
                fun _ _ => trivial

/-- A string of the grammar is taken off the text. -/
theorem run_string (s : StringText) {n : Nat} (hn : s.render.length ≤ n) (rest : Bytes) (i d : Nat) :
    string_literal n ⟨s.render ++ rest, i, d⟩ =
      .ok (parsed s, ⟨rest, i + s.render.length, d⟩) := by
  have hrender : s.render ++ rest = quote :: (s.flatMap StringChar.render ++ quote :: rest) := by
    unfold StringText.render
    simp [quote]
  have hlen : s.render.length = (s.flatMap StringChar.render).length + 2 := by
    unfold StringText.render
    simp
  rw [hrender, hlen]
  refine (spells_string s).literal ?_ (by omega) i d
  intro hhead
  exact absurd (Option.some.inj hhead) (by decide)

/-- A text that starts with a quotation mark is a string. -/
theorem run_value_string (strtod : Bytes → Double) {n d : Nat} (hd : d < kMaxDepth) {rest : Bytes}
    {i : Nat} {s : Bytes} {p : Parser}
    (h : string_literal n ⟨quote :: rest, i, d⟩ = .ok (s, p)) :
    value strtod (n + 1) ⟨quote :: rest, i, d⟩ = .ok (.string s, p) := by
  have hws : skip_ws ⟨quote :: rest, i, d⟩ = .ok ((), ⟨quote :: rest, i, d⟩) := rfl
  rw [value]
  show (if kMaxDepth ≤ d then _ else _ : Parse JsonValue) _ = _
  rw [if_neg (by omega), run_bind hws, run_peek]
  dsimp only
  rw [if_neg (by decide), if_neg (by decide), if_pos rfl, run_bind h]
  rfl

end Parser

/-- What `json_quote` writes, `json_parse` reads back, byte for byte. -/
theorem json_quote_round_trip (strtod : Bytes → Double) (s : Bytes) :
    json_parse strtod (json_quote s) = .ok (.string s) := by
  have hquoted : json_quote s = quote :: (s.flatMap quote_char ++ [quote]) := by
    simp [json_quote]
  have hmark : ¬ utf8_bom <+: quote :: (s.flatMap quote_char ++ [quote]) := by
    rintro ⟨tail, htail⟩
    have hhead : (0xEF : UInt8) = quote := (List.cons.inj htail).1
    exact absurd hhead (by decide)
  have hlong : (s.flatMap quote_char).length <
      2 * (quote :: (s.flatMap quote_char ++ [quote])).length + 1 := by
    simp
    omega
  have hliteral : Parser.string_literal _ ⟨quote :: (s.flatMap quote_char ++ [quote]), 0, 0⟩ = _ :=
    (Parser.spells_quoted s).literal trivial hlong 0 0
  have hvalue := Parser.run_value_string strtod (by decide) hliteral
  have hdocument : parse_document strtod (quote :: (s.flatMap quote_char ++ [quote])) =
      .ok (.string s) := by
    unfold parse_document
    show (Parser.value strtod _ ⟨_, 0, 0⟩).bind _ = _
    rw [hvalue]
    rfl
  unfold json_parse
  dsimp only
  rw [hquoted, if_neg hmark, hdocument]

end CachedMoe
