import CachedMoe.Core.JsonTokens

/-! # The JSON parser is complete

    `json_parse` takes every text of RFC 8259 whose values are within the depth limit, and
    returns the value the text denotes, up to how it reads the surrogates of a string: behind a
    high one it takes the next escape too, though that may be the first half of a pair. -/

namespace CachedMoe

open Json Text JsonText

namespace Parser

/-! ### Scanning -/

/-- The next character, if there is one, does not meet `f`. -/
def Stops (f : UInt8 → Bool) (rest : Bytes) : Prop := ∀ c, rest.head? = some c → f c = false

theorem stops_cons {f : UInt8 → Bool} {c : UInt8} (h : f c = false) (rest : Bytes) :
    Stops f (c :: rest) := by
  intro c' hc'
  rw [← Option.some.inj hc']
  exact h

theorem run_take_while {f : UInt8 → Bool} {bs rest : Bytes} (hbs : ∀ c ∈ bs, f c = true)
    (hrest : Stops f rest) (i d : Nat) :
    take_while f ⟨bs ++ rest, i, d⟩ = .ok (bs, ⟨rest, i + bs.length, d⟩) := by
  have hnone : rest.takeWhile f = [] ∧ rest.dropWhile f = rest := by
    cases rest with
    | nil => exact ⟨rfl, rfl⟩
    | cons c rest =>
      have hc := hrest c rfl
      exact ⟨List.takeWhile_cons_of_neg (by simp [hc]), List.dropWhile_cons_of_neg (by simp [hc])⟩
  have htake : (bs ++ rest).takeWhile f = bs := by
    rw [List.takeWhile_append_of_pos hbs, hnone.1, List.append_nil]
  have hdrop : (bs ++ rest).dropWhile f = rest := by
    rw [List.dropWhile_append_of_pos hbs, hnone.2]
  unfold take_while
  dsimp only
  rw [htake, hdrop]

theorem run_skip_ws {w : Bytes} (hw : w.all is_ws = true) {rest : Bytes} (hrest : Stops is_ws rest)
    (i d : Nat) : skip_ws ⟨w ++ rest, i, d⟩ = .ok ((), ⟨rest, i + w.length, d⟩) := by
  unfold skip_ws
  rw [run_bind (run_take_while (List.all_eq_true.mp hw) hrest i d)]
  rfl

/-! ### Numbers -/

theorem run_optional_hit {cs : Bytes} {c : UInt8} (h : c ∈ cs) (rest : Bytes) (i d : Nat) :
    optional cs ⟨c :: rest, i, d⟩ = .ok ([c], ⟨rest, i + 1, d⟩) := by
  unfold optional
  rw [run_peek]
  dsimp only
  rw [if_pos h]
  rfl

theorem run_optional_miss {cs rest : Bytes} (h : Stops (fun c => decide (c ∈ cs)) rest) (i d : Nat) :
    optional cs ⟨rest, i, d⟩ = .ok ([], ⟨rest, i, d⟩) := by
  cases rest with
  | nil => rfl
  | cons c rest =>
    have hc := of_decide_eq_false (h c rfl)
    unfold optional
    rw [run_peek]
    dsimp only
    rw [if_neg hc]
    rfl

theorem run_suffix_hit {cs : Bytes} {c : UInt8} (h : c ∈ cs) {more : Parse Bytes} {s : Bytes}
    {rest : Bytes} {i d : Nat} {p : Parser} (hmore : more ⟨rest, i + 1, d⟩ = .ok (s, p)) :
    suffix cs more ⟨c :: rest, i, d⟩ = .ok (c :: s, p) := by
  unfold suffix
  rw [run_bind (run_optional_hit h rest i d)]
  dsimp only
  rw [run_bind hmore]
  rfl

theorem run_suffix_miss {cs rest : Bytes} (h : Stops (fun c => decide (c ∈ cs)) rest)
    (more : Parse Bytes) (i d : Nat) :
    suffix cs more ⟨rest, i, d⟩ = .ok ([], ⟨rest, i, d⟩) := by
  unfold suffix
  rw [run_bind (run_optional_miss h i d)]
  rfl

theorem digit_of_lt {v : Nat} (h : v < 10) : is_digit (UInt8.ofNat (48 + v)) = true := by
  interval_cases v <;> rfl

theorem digits_text_digits (ds : List (Fin 10)) : ∀ c ∈ digits_text ds, is_digit c = true := by
  intro c hc
  obtain ⟨d, _, rfl⟩ := List.mem_map.mp hc
  exact digit_of_lt d.isLt

theorem int_digits (n : IntText) : (∀ c ∈ n.render, is_digit c = true) ∧ n.render ≠ [] := by
  cases n with
  | zero =>
    refine ⟨?_, List.cons_ne_nil _ _⟩
    intro c hc
    rw [List.mem_singleton.mp hc]
    rfl
  | nonzero d ds =>
    refine ⟨?_, List.cons_ne_nil _ _⟩
    intro c hc
    rcases List.mem_cons.mp hc with rfl | hrest
    · have hd := d.isLt
      have hlt : 1 + d.val < 10 := by omega
      have hdigit := digit_of_lt hlt
      rwa [← Nat.add_assoc] at hdigit
    · exact digits_text_digits ds c hrest

/-- What may come right after a value. -/
def Follow (rest : Bytes) : Prop :=
  ∀ c, rest.head? = some c → is_ws c = true ∨ c = 44 ∨ c = 93 ∨ c = 125

/-- The characters that come after a value. -/
def followers : Bytes := [32, 9, 10, 13, 44, 93, 125]

/-- No character of a number comes after a value. -/
theorem Follow.stops {rest : Bytes} (h : Follow rest) {f : UInt8 → Bool}
    (hf : followers.all (fun c => !f c) = true) : Stops f rest := by
  intro c hc
  have hno : c ∈ followers → f c = false := fun hmem => by simpa using List.all_eq_true.mp hf c hmem
  apply hno
  rcases h c hc with hws | rfl | rfl | rfl
  · simp only [is_ws, Bool.or_eq_true, beq_iff_eq] at hws
    rcases hws with ((rfl | rfl) | rfl) | rfl
    · decide
    · decide
    · decide
    · decide
  · decide
  · decide
  · decide

theorem run_sign (sign : Option Bool) {rest : Bytes} (h : Stops (fun c => decide (c ∈ [45, 43])) rest)
    (i d : Nat) : ∃ i', optional [45, 43] ⟨sign_text sign ++ rest, i, d⟩ =
      .ok (sign_text sign, ⟨rest, i', d⟩) := by
  match sign with
  | none => exact ⟨i, run_optional_miss h i d⟩
  | some true => exact ⟨i + 1, run_optional_hit (by decide) rest i d⟩
  | some false => exact ⟨i + 1, run_optional_hit (by decide) rest i d⟩

theorem stops_digits {f : UInt8 → Bool} (hf : ∀ v < 10, f (UInt8.ofNat (48 + v)) = false)
    (d : Fin 10) (ds : List (Fin 10)) (rest : Bytes) : Stops f (digits_text (d :: ds) ++ rest) :=
  stops_cons (hf d.val d.isLt) _

theorem run_exp (exp : Option ExpText) {rest : Bytes} (h : Follow rest) (i d : Nat) :
    ∃ i', suffix [101, 69] (do
        let sign ← optional [45, 43]
        let digits ← take_while is_digit
        pure (sign ++ digits)) ⟨exp_text exp ++ rest, i, d⟩ = .ok (exp_text exp, ⟨rest, i', d⟩) := by
  cases exp with
  | none => exact ⟨i, run_suffix_miss (h.stops rfl) _ i d⟩
  | some e =>
    obtain ⟨i₁, hsign⟩ := run_sign e.sign
      (stops_digits (by decide) e.first e.more rest) (i + 1) d
    have hdigits := run_take_while (digits_text_digits (e.first :: e.more))
      (h.stops (f := is_digit) rfl) i₁ d
    refine ⟨i₁ + (digits_text (e.first :: e.more)).length, ?_⟩
    show suffix [101, 69] _ ⟨(if e.upper then 69 else 101) ::
      (sign_text e.sign ++ digits_text (e.first :: e.more)) ++ rest, i, d⟩ = _
    rw [List.cons_append, List.append_assoc]
    refine run_suffix_hit ?_ ?_
    · cases e.upper with
      | true => decide
      | false => decide
    · rw [run_bind hsign, run_bind hdigits]
      rfl

theorem run_frac (frac : Option (Fin 10 × List (Fin 10))) {rest : Bytes} (hdot : Stops (· == 46) rest)
    (hdigit : Stops is_digit rest) (i d : Nat) :
    ∃ i', suffix [46] (take_while is_digit) ⟨frac_text frac ++ rest, i, d⟩ =
      .ok (frac_text frac, ⟨rest, i', d⟩) := by
  match frac with
  | none =>
    refine ⟨i, run_suffix_miss ?_ _ i d⟩
    intro c hc
    have hne := hdot c hc
    simpa using hne
  | some (first, more) =>
    have hdigits := run_take_while (digits_text_digits (first :: more)) hdigit (i + 1) d
    exact ⟨_, run_suffix_hit (by decide) hdigits⟩

/-- The fraction and the exponent stop the digits before them. -/
theorem stops_exp (exp : Option ExpText) {rest : Bytes} (h : Follow rest) {f : UInt8 → Bool}
    (hf : followers.all (fun c => !f c) = true) (he : f 101 = false) (hE : f 69 = false) :
    Stops f (exp_text exp ++ rest) := by
  cases exp with
  | none => exact h.stops hf
  | some e =>
    refine stops_cons ?_ _
    cases e.upper with
    | true => exact hE
    | false => exact he

theorem number_head (n : NumberText) :
    ∃ c rest, n.render = c :: rest ∧ (c = 45 ∨ is_digit c = true) := by
  obtain ⟨hint, hsome⟩ := int_digits n.int
  unfold NumberText.render
  cases n.minus with
  | true => exact ⟨45, _, rfl, .inl rfl⟩
  | false =>
    cases hbs : n.int.render with
    | nil => exact absurd hbs hsome
    | cons c bs => exact ⟨c, _, rfl, .inr (hint c (hbs ▸ List.mem_cons_self))⟩

theorem run_number (strtod : Bytes → Double) (n : NumberText) {rest : Bytes} (h : Follow rest)
    (i d : Nat) : ∃ i', number strtod ⟨n.render ++ rest, i, d⟩ =
      .ok (.number (.make (strtod n.render) n.render), ⟨rest, i', d⟩) := by
  obtain ⟨hint, hsome⟩ := int_digits n.int
  have hexp := stops_exp n.exp h (f := is_digit) rfl rfl rfl
  have hdot := stops_exp n.exp h (f := (· == 46)) rfl rfl rfl
  have hfrac : Stops is_digit (frac_text n.frac ++ (exp_text n.exp ++ rest)) := by
    match n.frac with
    | none => exact hexp
    | some (first, more) => exact stops_cons (by decide) _
  have hfirst : Stops (fun c => decide (c ∈ [45, 43]))
      (n.int.render ++ (frac_text n.frac ++ (exp_text n.exp ++ rest))) := by
    cases hbs : n.int.render with
    | nil => exact absurd hbs hsome
    | cons c bs =>
      refine stops_cons ?_ _
      have hdigit := hint c (hbs ▸ List.mem_cons_self)
      apply decide_eq_false
      intro hmem
      simp only [List.mem_cons, List.not_mem_nil, or_false] at hmem
      rcases hmem with rfl | rfl
      · cases hdigit
      · cases hdigit
  obtain ⟨i₁, hrun₁⟩ := run_sign (if n.minus then some true else none) hfirst i d
  have hrun₂ := run_take_while hint hfrac i₁ d
  obtain ⟨i₃, hrun₃⟩ := run_frac n.frac hdot hexp (i₁ + n.int.render.length) d
  obtain ⟨i₄, hrun₄⟩ := run_exp n.exp h i₃ d
  refine ⟨i₄, ?_⟩
  unfold number NumberText.render
  simp only [List.append_assoc]
  rw [run_bind hrun₁, run_bind hrun₂, run_bind hrun₃, run_bind hrun₄]
  rw [if_neg (fun hnone => hsome hnone.1)]
  rfl

/-! ### Objects -/

/-- Putting the entries of a list one after the other keeps the last of each key. -/
theorem foldl_put (es : List (Bytes × JsonValue)) (o : JsonObject) :
    es.foldl (fun o e => Table.put o e.1 e.2) o =
      o.filter (fun e => decide (e.1 ∉ es.map Prod.fst)) ++ keep_last es := by
  induction es generalizing o with
  | nil => simp [keep_last]
  | cons e es ih =>
    rw [List.foldl_cons, ih]
    have hold : (Table.erase o e.1).filter (fun x => decide (x.1 ∉ es.map Prod.fst)) =
        o.filter (fun x => decide (x.1 ∉ (e :: es).map Prod.fst)) := by
      unfold Table.erase
      rw [List.filter_filter]
      congr 1
      funext x
      by_cases hx : x.1 = e.1
      · simp [hx]
      · simp [hx]
    unfold Table.put
    rw [List.filter_append, hold, List.append_assoc, keep_last]
    congr 1
    by_cases he : e.1 ∈ es.map Prod.fst
    · rw [if_pos he, List.filter_cons_of_neg (by simpa using he), List.filter_nil, List.nil_append]
    · rw [if_neg he, List.filter_cons_of_pos (by simpa using he), List.filter_nil]
      rfl

/-! ### Values -/

/-- Where a value starts there is no white space, no closing bracket and no byte-order mark. -/
theorem value_head (v : Value) :
    ∃ c rest, v.render = c :: rest ∧ is_ws c = false ∧ c ≠ 93 ∧ c ≠ 0xEF := by
  match v with
  | .null => exact ⟨110, _, rfl, by decide, by decide, by decide⟩
  | .bool true => exact ⟨116, _, rfl, by decide, by decide, by decide⟩
  | .bool false => exact ⟨102, _, rfl, by decide, by decide, by decide⟩
  | .string s => exact ⟨34, _, rfl, by decide, by decide, by decide⟩
  | .empty_array w => exact ⟨91, _, rfl, by decide, by decide, by decide⟩
  | .array es => exact ⟨91, _, by rw [Value.render]; rfl, by decide, by decide, by decide⟩
  | .empty_object w => exact ⟨123, _, rfl, by decide, by decide, by decide⟩
  | .object ms => exact ⟨123, _, by rw [Value.render]; rfl, by decide, by decide, by decide⟩
  | .number n =>
    obtain ⟨c, rest, hrender, hc⟩ := number_head n
    refine ⟨c, rest, hrender, ?_⟩
    rcases hc with rfl | hdigit
    · exact ⟨by decide, by decide, by decide⟩
    · refine ⟨?_, ?_, ?_⟩
      · by_contra hws
        simp only [is_ws, Bool.not_eq_false, Bool.or_eq_true, beq_iff_eq] at hws
        rcases hws with ((rfl | rfl) | rfl) | rfl
        · cases hdigit
        · cases hdigit
        · cases hdigit
        · cases hdigit
      · rintro rfl
        cases hdigit
      · rintro rfl
        cases hdigit

section Values

variable (strtod : Bytes → Double)

theorem run_skip_none {c : UInt8} (hc : is_ws c = false) (rest : Bytes) (i d : Nat) :
    skip_ws ⟨c :: rest, i, d⟩ = .ok ((), ⟨c :: rest, i, d⟩) :=
  run_skip_ws (w := []) rfl (stops_cons hc rest) i d

/-- White space in front of a value is skipped. -/
theorem run_value_ws {n d : Nat} (hd : d < kMaxDepth) {w : Bytes} (hw : w.all is_ws = true)
    {c : UInt8} (hc : is_ws c = false) (rest : Bytes) (i : Nat) :
    value strtod (n + 1) ⟨w ++ c :: rest, i, d⟩ =
      value strtod (n + 1) ⟨c :: rest, i + w.length, d⟩ := by
  have hskip := run_skip_ws hw (stops_cons hc rest) i d
  have hnone := run_skip_none hc rest (i + w.length) d
  rw [value]
  show (if kMaxDepth ≤ d then _ else _ : Parse JsonValue) _ =
    (if kMaxDepth ≤ d then _ else _ : Parse JsonValue) _
  rw [if_neg (by omega), run_bind hskip, run_bind hnone]

theorem value_at {n d : Nat} (hd : d < kMaxDepth) {c : UInt8} (hc : is_ws c = false) (rest : Bytes)
    (i : Nat) :
    value strtod (n + 1) ⟨c :: rest, i, d⟩ = (
      if c = 123 then do
        bump 1
        enter
        skip_ws
        if (← peek) = some 125 then do
          bump 1
          leave
          pure (.object [])
        else members strtod n []
      else if c = 91 then do
        bump 1
        enter
        skip_ws
        if (← peek) = some 93 then do
          bump 1
          leave
          pure (.array [])
        else elements strtod n []
      else if c = quote then do
        let s ← string_literal n
        pure (.string s)
      else if c = 116 then literal (chars ['t', 'r', 'u', 'e']) (.bool true)
      else if c = 102 then literal (chars ['f', 'a', 'l', 's', 'e']) (.bool false)
      else if c = 110 then literal (chars ['n', 'u', 'l', 'l']) .null
      else number strtod : Parse JsonValue) ⟨c :: rest, i, d⟩ := by
  rw [value]
  show (if kMaxDepth ≤ d then _ else _ : Parse JsonValue) _ = _
  rw [if_neg (by omega), run_bind (run_skip_none hc rest i d)]
  rfl

/-- `]` or `}` behind white space closes an empty container. -/
theorem run_open {w : Bytes} (hw : w.all is_ws = true) {c : UInt8} (hc : is_ws c = false)
    {rest : Bytes} {i d : Nat} {k : Option UInt8 → Parse JsonValue} (b : UInt8) :
    (do
      bump 1
      enter
      skip_ws
      let c ← peek
      k c : Parse JsonValue) ⟨b :: (w ++ c :: rest), i, d⟩ =
      k (some c) ⟨c :: rest, i + 1 + w.length, d + 1⟩ := by
  have hskip := run_skip_ws hw (stops_cons hc rest) (i + 1) (d + 1)
  have hbump : bump 1 ⟨b :: (w ++ c :: rest), i, d⟩ = .ok ((), ⟨w ++ c :: rest, i + 1, d⟩) := rfl
  have henter : enter ⟨w ++ c :: rest, i + 1, d⟩ = .ok ((), ⟨w ++ c :: rest, i + 1, d + 1⟩) := rfl
  rw [run_bind hbump, run_bind henter, run_bind hskip, run_peek]

theorem run_literal {c : UInt8} {word : Bytes} (v : JsonValue) (rest : Bytes) (i d : Nat) :
    literal (c :: word) v ⟨c :: word ++ rest, i, d⟩ =
      .ok (v, ⟨rest, i + (c :: word).length, d⟩) := by
  have htake : (c :: word ++ rest).take (c :: word).length = c :: word := by simp
  unfold literal
  show (if (c :: word ++ rest).take (c :: word).length = c :: word then _ else _ : Parse JsonValue) _ = _
  rw [if_pos htake, run_bind (run_bump (c :: word) rest i d)]
  rfl

end Values

end Parser

/-! ### The grammar -/

namespace JsonText

/-- The values of an array without the white space in front of the first. -/
def Elements.body : Elements → Bytes
  | .last _ v after => v.render ++ after.s
  | .more _ v after es => v.render ++ after.s ++ [44] ++ es.render

def Elements.before : Elements → Ws
  | .last before _ _ => before
  | .more before _ _ _ => before

theorem Elements.render_eq (es : Elements) : es.render = es.before.s ++ es.body := by
  cases es with
  | last before v after => simp [Elements.render, Elements.before, Elements.body]
  | more before v after es => simp [Elements.render, Elements.before, Elements.body]

/-- The members of an object without the white space in front of the first. -/
def Members.body : Members → Bytes
  | .last _ key colon colon' v after =>
    key.render ++ colon.s ++ [58] ++ colon'.s ++ v.render ++ after.s
  | .more _ key colon colon' v after ms =>
    key.render ++ colon.s ++ [58] ++ colon'.s ++ v.render ++ after.s ++ [44] ++ ms.render

def Members.before : Members → Ws
  | .last before _ _ _ _ _ => before
  | .more before _ _ _ _ _ _ => before

theorem Members.render_eq (ms : Members) : ms.render = ms.before.s ++ ms.body := by
  cases ms with
  | last before key colon colon' v after => simp [Members.render, Members.before, Members.body]
  | more before key colon colon' v after ms => simp [Members.render, Members.before, Members.body]

theorem Members.body_head (ms : Members) : ∃ rest, ms.body = 34 :: rest := by
  cases ms with
  | last before key colon colon' v after => exact ⟨_, rfl⟩
  | more before key colon colon' v after ms => exact ⟨_, rfl⟩

theorem Elements.body_head (es : Elements) :
    ∃ c rest, es.body = c :: rest ∧ is_ws c = false ∧ c ≠ 93 := by
  cases es with
  | last before v after =>
    obtain ⟨c, rest, hrender, hws, hclose, _⟩ := Parser.value_head v
    exact ⟨c, rest ++ after.s, by rw [Elements.body, hrender]; rfl, hws, hclose⟩
  | more before v after es =>
    obtain ⟨c, rest, hrender, hws, hclose, _⟩ := Parser.value_head v
    exact ⟨c, rest ++ after.s ++ [44] ++ es.render, by rw [Elements.body, hrender]; simp, hws, hclose⟩

end JsonText

namespace Parser

variable (strtod : Bytes → Double)

theorem follow_ws {w : Bytes} (hw : w.all is_ws = true) {c : UInt8} (hc : c = 44 ∨ c = 93 ∨ c = 125)
    (rest : Bytes) : Follow (w ++ c :: rest) := by
  intro b hb
  cases w with
  | nil =>
    rw [← Option.some.inj hb]
    exact .inr hc
  | cons a w =>
    rw [← Option.some.inj hb]
    exact .inl (List.all_eq_true.mp hw a List.mem_cons_self)

section Scalars

variable {m d : Nat} {rest : Bytes}

theorem run_null (hd : d < kMaxDepth) (rest : Bytes) (i : Nat) :
    ∃ i', value strtod (m + 1) ⟨Value.null.render ++ rest, i, d⟩ = .ok (.null, ⟨rest, i', d⟩) := by
  have hrender : Value.null.render ++ rest = 110 :: (chars ['u', 'l', 'l'] ++ rest) := rfl
  rw [hrender, value_at strtod hd (by decide)]
  exact ⟨_, run_literal _ _ _ _⟩

theorem run_bool (hd : d < kMaxDepth) (b : Bool) (rest : Bytes) (i : Nat) :
    ∃ i', value strtod (m + 1) ⟨(Value.bool b).render ++ rest, i, d⟩ =
      .ok (.bool b, ⟨rest, i', d⟩) := by
  cases b with
  | true =>
    have hrender : (Value.bool true).render ++ rest = 116 :: (chars ['r', 'u', 'e'] ++ rest) := rfl
    rw [hrender, value_at strtod hd (by decide)]
    exact ⟨_, run_literal _ _ _ _⟩
  | false =>
    have hrender : (Value.bool false).render ++ rest = 102 :: (chars ['a', 'l', 's', 'e'] ++ rest) :=
      rfl
    rw [hrender, value_at strtod hd (by decide)]
    exact ⟨_, run_literal _ _ _ _⟩

theorem run_value_number (hd : d < kMaxDepth) (n : NumberText) (hrest : Follow rest) (i : Nat) :
    ∃ i', value strtod (m + 1) ⟨n.render ++ rest, i, d⟩ =
      .ok (.number (.make (strtod n.render) n.render), ⟨rest, i', d⟩) := by
  obtain ⟨c, tail, hrender, hc⟩ := number_head n
  obtain ⟨i', hrun⟩ := run_number strtod n hrest i d
  rw [hrender, List.cons_append] at hrun ⊢
  -- no other value starts like a number
  have hother : ∀ b ∈ [123, 91, 34, 116, 102, 110, 32, 9, 10, 13], c ≠ b := by
    intro b hb heq
    subst heq
    rcases hc with rfl | hdigit
    · revert hb
      decide
    · simp only [List.mem_cons, List.not_mem_nil, or_false] at hb
      rcases hb with rfl | rfl | rfl | rfl | rfl | rfl | rfl | rfl | rfl | rfl <;> cases hdigit
  have hws : is_ws c = false := by
    simp [is_ws, hother]
  refine ⟨i', ?_⟩
  rw [value_at strtod hd hws, if_neg (hother 123 (by decide)), if_neg (hother 91 (by decide)),
    if_neg (hother quote (by decide)), if_neg (hother 116 (by decide)),
    if_neg (hother 102 (by decide)), if_neg (hother 110 (by decide))]
  exact hrun

theorem run_value_text (hd : d < kMaxDepth) (s : StringText) (hm : s.render.length ≤ m)
    (rest : Bytes) (i : Nat) :
    ∃ i', value strtod (m + 1) ⟨s.render ++ rest, i, d⟩ =
      .ok (.string (parsed s), ⟨rest, i', d⟩) := by
  have hrun := run_string s hm rest i d
  have hrender : s.render ++ rest = quote :: (s.flatMap StringChar.render ++ [34] ++ rest) := by
    unfold StringText.render
    simp [quote]
  rw [hrender] at hrun ⊢
  exact ⟨_, run_value_string strtod hd hrun⟩

theorem run_empty_array (hd : d < kMaxDepth) (w : Ws) (rest : Bytes) (i : Nat) :
    ∃ i', value strtod (m + 1) ⟨[91] ++ w.s ++ [93] ++ rest, i, d⟩ =
      .ok (.array [], ⟨rest, i', d⟩) := by
  have hrender : [91] ++ w.s ++ [93] ++ rest = 91 :: (w.s ++ 93 :: rest) := by simp
  refine ⟨i + 1 + w.s.length + 1, ?_⟩
  rw [hrender, value_at strtod hd (by decide), if_neg (by decide), if_pos rfl,
    run_open w.all_ws (by decide), if_pos rfl]
  rfl

theorem run_empty_object (hd : d < kMaxDepth) (w : Ws) (rest : Bytes) (i : Nat) :
    ∃ i', value strtod (m + 1) ⟨[123] ++ w.s ++ [125] ++ rest, i, d⟩ =
      .ok (.object [], ⟨rest, i', d⟩) := by
  have hrender : [123] ++ w.s ++ [125] ++ rest = 123 :: (w.s ++ 125 :: rest) := by simp
  refine ⟨i + 1 + w.s.length + 1, ?_⟩
  rw [hrender, value_at strtod hd (by decide), if_pos rfl, run_open w.all_ws (by decide), if_pos rfl]
  rfl

/-- What the loop of `object` does behind a member. -/
def member_end (m : Nat) (o : JsonObject) : Parse JsonValue := do
  skip_ws
  match ← peek with
  | none => err "unterminated object"
  | some c =>
    if c = 44 then do
      bump 1
      members strtod m o
    else if c = 125 then do
      bump 1
      leave
      pure (.object o)
    else err "expected ',' or '\x7d'"

/-- A turn of the loop of `object`, up to what comes after the member. -/
theorem run_member {w : Bytes} (key : StringText) (colon colon' : Ws) (hm : key.render.length ≤ m)
    (hw : w.all is_ws = true) {v : Bytes} {a : JsonValue}
    (hvalue : ∀ i, ∃ i', value strtod m ⟨colon'.s ++ (v ++ rest), i, d⟩ = .ok (a, ⟨rest, i', d⟩))
    (i : Nat) {o : JsonObject} :
    ∃ i', members strtod (m + 1) o
        ⟨w ++ (key.render ++ (colon.s ++ 58 :: (colon'.s ++ (v ++ rest)))), i, d⟩ =
      member_end strtod m (Table.put o (parsed key) a) ⟨rest, i', d⟩ := by
  have hquote : ∀ tail, key.render ++ tail = quote :: (key.flatMap StringChar.render ++ [34] ++ tail) := by
    intro tail
    unfold StringText.render
    simp [quote]
  have hbefore := run_skip_ws hw (stops_cons (c := quote) (by decide)
    (key.flatMap StringChar.render ++ [34] ++ (colon.s ++ 58 :: (colon'.s ++ (v ++ rest))))) i d
  rw [← hquote] at hbefore
  have hkey := run_string key hm (colon.s ++ 58 :: (colon'.s ++ (v ++ rest))) (i + w.length) d
  have hcolon := run_skip_ws colon.all_ws (stops_cons (c := 58) (by decide)
    (colon'.s ++ (v ++ rest))) (i + w.length + key.render.length) d
  obtain ⟨i', hv⟩ := hvalue (i + w.length + key.render.length + colon.s.length + 1)
  refine ⟨i', ?_⟩
  rw [members, run_bind hbefore, hquote, run_peek, if_neg (by simp), ← hquote, run_bind hkey,
    run_bind hcolon, run_peek, if_neg (by simp)]
  have hbump : bump 1 ⟨58 :: (colon'.s ++ (v ++ rest)),
      i + w.length + key.render.length + colon.s.length, d⟩ =
      .ok ((), ⟨colon'.s ++ (v ++ rest), i + w.length + key.render.length + colon.s.length + 1, d⟩) :=
    rfl
  rw [run_bind hbump, run_bind hv]
  rfl

end Scalars

mutual

/-- The parser takes a value off the text, with the white space in front of it. -/
theorem run_value (v : Value) {n d : Nat} (hd : d + v.nesting < kMaxDepth)
    (hn : v.render.length < n) {w : Bytes} (hw : w.all is_ws = true) {rest : Bytes}
    (hrest : Follow rest) (i : Nat) :
    ∃ i', value strtod n ⟨w ++ (v.render ++ rest), i, d⟩ =
      .ok (v.eval parsed strtod, ⟨rest, i', d⟩) := by
  obtain ⟨m, rfl⟩ : ∃ m, n = m + 1 := ⟨n - 1, by omega⟩
  have hd' : d < kMaxDepth := by omega
  have hskip : value strtod (m + 1) ⟨w ++ (v.render ++ rest), i, d⟩ =
      value strtod (m + 1) ⟨v.render ++ rest, i + w.length, d⟩ := by
    obtain ⟨c, tail, hrender, hws, _⟩ := value_head v
    rw [hrender, List.cons_append]
    exact run_value_ws strtod hd' hw hws _ i
  rw [hskip]
  generalize i + w.length = i
  match v with
  | .null => exact run_null strtod hd' rest i
  | .bool b => exact run_bool strtod hd' b rest i
  | .number k => exact run_value_number strtod hd' k hrest i
  | .string s => exact run_value_text strtod hd' s (Nat.le_of_lt_succ hn) rest i
  | .empty_array w' => exact run_empty_array strtod hd' w' rest i
  | .empty_object w' => exact run_empty_object strtod hd' w' rest i
  | .array es =>
    -- one level deeper, the elements run behind the bracket
    have hlen : (Value.array es).render.length = es.render.length + 2 := by
      simp [Value.render]
    have hnesting : (Value.array es).nesting = es.nesting + 1 := rfl
    obtain ⟨c, tail, hbody, hws, hclose⟩ := es.body_head
    have hrender : (Value.array es).render ++ rest =
        91 :: (es.before.s ++ c :: (tail ++ 93 :: rest)) := by
      rw [Value.render, es.render_eq, hbody]
      simp
    obtain ⟨i', hrun⟩ := run_elements es (n := m) (d := d + 1) (by omega) (by omega) [] (w := []) rfl
      rest (i + 1 + es.before.s.length)
    refine ⟨i', ?_⟩
    rw [hrender, value_at strtod hd' (by decide), if_neg (by decide), if_pos rfl,
      run_open es.before.all_ws hws, if_neg (by simpa using hclose)]
    rw [List.nil_append, hbody] at hrun
    exact hrun
  | .object ms =>
    have hlen : (Value.object ms).render.length = ms.render.length + 2 := by
      simp [Value.render]
    have hnesting : (Value.object ms).nesting = ms.nesting + 1 := rfl
    obtain ⟨tail, hbody⟩ := ms.body_head
    have hrender : (Value.object ms).render ++ rest =
        123 :: (ms.before.s ++ 34 :: (tail ++ 125 :: rest)) := by
      rw [Value.render, ms.render_eq, hbody]
      simp
    obtain ⟨i', hrun⟩ := run_members ms (n := m) (d := d + 1) (by omega) (by omega) [] (w := []) rfl
      rest (i + 1 + ms.before.s.length)
    refine ⟨i', ?_⟩
    rw [hrender, value_at strtod hd' (by decide), if_pos rfl, run_open ms.before.all_ws (by decide),
      if_neg (by decide)]
    rw [List.nil_append, hbody, foldl_put] at hrun
    exact hrun

theorem run_elements (es : Elements) {n d : Nat} (hd : d + es.nesting < kMaxDepth)
    (hn : es.render.length + 2 ≤ n) (a : JsonArray) {w : Bytes} (hw : w.all is_ws = true)
    (rest : Bytes) (i : Nat) :
    ∃ i', elements strtod n a ⟨w ++ (es.body ++ 93 :: rest), i, d⟩ =
      .ok (.array (a ++ es.eval parsed strtod), ⟨rest, i', d - 1⟩) := by
  obtain ⟨m, rfl⟩ : ∃ m, n = m + 1 := ⟨n - 1, by omega⟩
  -- by recursion on the list: one call of `elements` for each entry
  match es with
  | .last before v after =>
    have hlen : (Elements.last before v after).render.length =
        before.s.length + v.render.length + after.s.length := by
      simp [Elements.render]
      omega
    have htext : (Elements.last before v after).body ++ 93 :: rest =
        v.render ++ (after.s ++ 93 :: rest) := by
      simp [Elements.body]
    obtain ⟨i₁, hvalue⟩ := run_value v (n := m) hd (by omega) hw
      (follow_ws after.all_ws (.inr (.inl rfl)) rest) i
    have hskip := run_skip_ws after.all_ws (stops_cons (c := 93) (by decide) rest) i₁ d
    refine ⟨i₁ + after.s.length + 1, ?_⟩
    rw [htext, elements, run_bind hvalue, run_bind hskip, run_peek]
    rfl
  | .more before v after es =>
    have hlen : (Elements.more before v after es).render.length =
        before.s.length + v.render.length + after.s.length + 1 + es.render.length := by
      simp [Elements.render]
      omega
    have hnesting : (Elements.more before v after es).nesting = max v.nesting es.nesting := rfl
    have htext : (Elements.more before v after es).body ++ 93 :: rest =
        v.render ++ (after.s ++ 44 :: (es.before.s ++ (es.body ++ 93 :: rest))) := by
      simp [Elements.body, es.render_eq]
    obtain ⟨i₁, hvalue⟩ := run_value v (n := m) (d := d) (by omega) (by omega) hw
      (follow_ws after.all_ws (.inl rfl) (es.before.s ++ (es.body ++ 93 :: rest))) i
    have hskip := run_skip_ws after.all_ws
      (stops_cons (c := 44) (by decide) (es.before.s ++ (es.body ++ 93 :: rest))) i₁ d
    obtain ⟨i', hrun⟩ := run_elements es (n := m) (d := d) (by omega) (by omega)
      (a ++ [v.eval parsed strtod]) es.before.all_ws rest (i₁ + after.s.length + 1)
    refine ⟨i', ?_⟩
    rw [htext, elements, run_bind hvalue, run_bind hskip, run_peek]
    rw [List.append_assoc] at hrun
    exact hrun

theorem run_members (ms : Members) {n d : Nat} (hd : d + ms.nesting < kMaxDepth)
    (hn : ms.render.length + 2 ≤ n) (o : JsonObject) {w : Bytes} (hw : w.all is_ws = true)
    (rest : Bytes) (i : Nat) :
    ∃ i', members strtod n o ⟨w ++ (ms.body ++ 125 :: rest), i, d⟩ =
      .ok (.object ((ms.eval parsed strtod).foldl (fun o e => Table.put o e.1 e.2) o),
        ⟨rest, i', d - 1⟩) := by
  obtain ⟨m, rfl⟩ : ∃ m, n = m + 1 := ⟨n - 1, by omega⟩
  -- each entry goes into the table under its key
  match ms with
  | .last before key colon colon' v after =>
    have hlen : (Members.last before key colon colon' v after).render.length = before.s.length +
        key.render.length + colon.s.length + 1 + colon'.s.length + v.render.length +
        after.s.length := by
      simp [Members.render]
      omega
    have htext : (Members.last before key colon colon' v after).body ++ 125 :: rest =
        key.render ++ (colon.s ++ 58 :: (colon'.s ++ (v.render ++ (after.s ++ 125 :: rest)))) := by
      simp [Members.body]
    obtain ⟨i₁, hmember⟩ := run_member strtod key colon colon' (m := m) (by omega) hw
      (run_value v (n := m) hd (by omega) colon'.all_ws
        (follow_ws after.all_ws (.inr (.inr rfl)) rest)) i
    have hskip := run_skip_ws after.all_ws (stops_cons (c := 125) (by decide) rest) i₁ d
    refine ⟨i₁ + after.s.length + 1, ?_⟩
    rw [htext, hmember, member_end, run_bind hskip, run_peek]
    rfl
  | .more before key colon colon' v after ms =>
    have hlen : (Members.more before key colon colon' v after ms).render.length = before.s.length +
        key.render.length + colon.s.length + 1 + colon'.s.length + v.render.length +
        after.s.length + 1 + ms.render.length := by
      simp [Members.render]
      omega
    have hnesting : (Members.more before key colon colon' v after ms).nesting =
        max v.nesting ms.nesting := rfl
    have htext : (Members.more before key colon colon' v after ms).body ++ 125 :: rest =
        key.render ++ (colon.s ++ 58 :: (colon'.s ++ (v.render ++
          (after.s ++ 44 :: (ms.before.s ++ (ms.body ++ 125 :: rest)))))) := by
      simp [Members.body, ms.render_eq]
    obtain ⟨i₁, hmember⟩ := run_member strtod key colon colon' (m := m) (by omega) hw
      (run_value v (n := m) (d := d) (by omega) (by omega) colon'.all_ws
        (follow_ws after.all_ws (.inl rfl) (ms.before.s ++ (ms.body ++ 125 :: rest)))) i
    have hskip := run_skip_ws after.all_ws
      (stops_cons (c := 44) (by decide) (ms.before.s ++ (ms.body ++ 125 :: rest))) i₁ d
    obtain ⟨i', hrun⟩ := run_members ms (n := m) (d := d) (by omega) (by omega)
      (Table.put o (parsed key) (v.eval parsed strtod)) ms.before.all_ws rest
      (i₁ + after.s.length + 1)
    refine ⟨i', ?_⟩
    rw [htext, hmember, member_end, run_bind hskip, run_peek]
    exact hrun

end

end Parser

/-- `json_parse` takes every text of the grammar within the depth limit, to its end. -/
theorem json_parse_render (strtod : Bytes → Double) (t : Document) (h : t.value.nesting < kMaxDepth) :
    json_parse strtod t.render = .ok (t.value.eval Parser.parsed strtod) := by
  -- a text of the grammar begins with white space or a value, never with 0xEF
  have hmark : ¬ utf8_bom <+: t.render := by
    rintro ⟨tail, htail⟩
    have hhead : t.render.head? = some 0xEF := by
      rw [← htail]
      rfl
    unfold Document.render at hhead
    cases hw : t.before.s with
    | nil =>
      obtain ⟨c, rest, hrender, _, _, hc⟩ := Parser.value_head t.value
      rw [hw, hrender] at hhead
      exact hc (Option.some.inj hhead)
    | cons c w =>
      have hws := List.all_eq_true.mp t.before.all_ws c (hw ▸ List.mem_cons_self)
      rw [hw] at hhead
      rw [show c = 0xEF from Option.some.inj hhead] at hws
      exact absurd hws (by decide)
  have hlen : t.value.render.length < 2 * t.render.length + 2 := by
    unfold Document.render
    rw [List.length_append, List.length_append]
    omega
  have hfollow : Parser.Follow (t.after.s ++ []) := by
    intro c hc
    rw [List.append_nil] at hc
    exact .inl (List.all_eq_true.mp t.after.all_ws c (List.mem_of_mem_head? hc))
  obtain ⟨i, hvalue⟩ := Parser.run_value strtod t.value (d := 0) (by omega) hlen t.before.all_ws
    hfollow 0
  have hend : Parser.Stops is_ws [] := by
    intro c hc
    cases hc
  have hskip : Parser.skip_ws ⟨t.after.s ++ [], i, 0⟩ = _ :=
    Parser.run_skip_ws t.after.all_ws hend i 0
  have htext : t.render = t.before.s ++ (t.value.render ++ (t.after.s ++ [])) := by
    simp [Document.render]
  rw [← htext] at hvalue
  have hdocument : parse_document strtod t.render = .ok (t.value.eval Parser.parsed strtod) := by
    unfold parse_document
    show (Parser.value strtod _ ⟨_, 0, 0⟩).bind _ = _
    rw [hvalue]
    dsimp only [Except.bind]
    rw [hskip]
    rfl
  unfold json_parse
  dsimp only
  rw [if_neg hmark, hdocument]

end CachedMoe
