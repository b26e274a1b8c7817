import CachedMoe.Framework.Regex
import CachedMoe.Text.Load

/-! # The hand-compiled pre-tokenizer

    The third split of the encoder is the regular expression of `tokenizer.json` with its
    backtracking resolved by hand. `word_regex` is that expression, as `kWant` has it; where the
    class table takes CR and LF for whitespace, `match_words` gives the length of its first match
    at every text, and the split cuts each piece at its matches. -/

namespace CachedMoe.Text

open Regex

/-! ### The expression -/

section Classes

variable (cls : Nat → Nat)

/-- The characters of a bracket. -/
def among (chars : String) (c : Nat) : Bool := chars.toList.any fun a => a.toNat = c

def letter (c : Nat) : Bool := has cls kL c
def mark (c : Nat) : Bool := has cls kM c
def punctuation (c : Nat) : Bool := has cls kP c
def symbol (c : Nat) : Bool := has cls kS c
def whitespace (c : Nat) : Bool := has cls kWS c

def ascii_punct_class : Regex Nat :=
  .one "[!\"#$%&'()*+,\\-./:;<=>?@\\[\\\\\\]^_`\x7b|\x7d~]"
    (among "!\"#$%&'()*+,-./:;<=>?@[\\]^_`\x7b|\x7d~")

def ascii_alpha_class : Regex Nat :=
  .one "[A-Za-z]" fun c => ('A'.toNat ≤ c && c ≤ 'Z'.toNat) || ('a'.toNat ≤ c && c ≤ 'z'.toNat)

def lead_class : Regex Nat :=
  .one "[^\r\n\\p\x7bL\x7d\\p\x7bP\x7d\\p\x7bS\x7d]" fun c =>
    !(among "\r\n" c || letter cls c || punctuation cls c || symbol cls c)

def letter_class : Regex Nat :=
  .one "[\\p\x7bL\x7d\\p\x7bM\x7d]" fun c => letter cls c || mark cls c

def blank_class : Regex Nat := .one " " (among " ")

def symbol_class : Regex Nat :=
  .one "[\\p\x7bP\x7d\\p\x7bS\x7d]" fun c => punctuation cls c || symbol cls c

def break_class : Regex Nat := .one "[\r\n]" (among "\r\n")

def space_class : Regex Nat := .one "\\s" (whitespace cls)

def nonspace_class : Regex Nat := .one "\\S" fun c => !whitespace cls c

/-- The expression of the third split. -/
def word_regex : Regex Nat :=
  .alt (.seq ascii_punct_class (.plus ascii_alpha_class)) <|
  .alt (.seq (.opt (lead_class cls)) (.plus (letter_class cls))) <|
  .alt (.seq (.opt blank_class) (.seq (.plus (symbol_class cls)) (.star break_class))) <|
  .alt (.seq (.star (space_class cls)) (.plus break_class)) <|
  .alt (.seq (.plus (space_class cls)) (.not_ahead (nonspace_class cls))) <|
  .plus (space_class cls)

/-- It is the one the tokenizer asks the file for. -/
theorem text_word_regex : kWant[2]? = some (utf8 (word_regex cls).text) := by
  rfl

end Classes

/-! ### The classes -/

theorem has_or (cls : Nat → Nat) (a b c : Nat) :
    has cls (a ||| b) c = (has cls a c || has cls b c) := by
  simp only [has, Nat.and_or_distrib_left, ne_eq, Nat.or_eq_zero_iff, not_and_or]
  exact Bool.decide_or ..

theorem among_break : among "\r\n" = crlf := by
  funext c
  simp [among, crlf, eq_comm]

theorem among_blank (c : Nat) : among " " c = decide (c = 0x20) := by
  simp [among, eq_comm]

theorem among_eq_false {chars : String} {n c : Nat}
    (hchars : (chars.toList.all fun a => a.toNat < n) = true) (hc : n ≤ c) :
    among chars c = false := by
  rw [among, List.any_eq_false]
  intro a ha
  have hlt : a.toNat < n := of_decide_eq_true (List.all_eq_true.mp hchars a ha)
  simp only [decide_eq_true_eq]
  omega

theorem among_punct :
    among "!\"#$%&'()*+,-./:;<=>?@[\\]^_`\x7b|\x7d~" = is_ascii_punct := by
  funext c
  rcases Nat.lt_or_ge c 0x7F with hlt | hge
  · exact (by decide +kernel : ∀ c < 0x7F, among "!\"#$%&'()*+,-./:;<=>?@[\\]^_`\x7b|\x7d~" c =
      is_ascii_punct c) c hlt
  · rw [among_eq_false (by decide) hge]
    simp only [is_ascii_punct, Bool.false_eq, decide_eq_false_iff_not]
    omega

theorem alpha_eq (c : Nat) :
    (('A'.toNat ≤ c && c ≤ 'Z'.toNat) || ('a'.toNat ≤ c && c ≤ 'z'.toNat)) = is_ascii_alpha c := by
  have hA : 'A'.toNat = 0x41 := rfl
  have hZ : 'Z'.toNat = 0x5A := rfl
  have ha : 'a'.toNat = 0x61 := rfl
  have hz : 'z'.toNat = 0x7A := rfl
  rw [hA, hZ, ha, hz]
  simp [is_ascii_alpha]

theorem lead_eq (cls : Nat → Nat) (c : Nat) :
    (!(among "\r\n" c || letter cls c || punctuation cls c || symbol cls c)) =
      (!crlf c && !has cls (kL ||| kP ||| kS) c) := by
  rw [among_break, has_or, has_or]
  simp only [letter, punctuation, symbol, Bool.not_or, Bool.and_assoc]

/-! ### The alternatives -/

section Alternatives

variable {cls : Nat → Nat} {c : Nat} {s : List Nat} {k : List Nat → Option Nat}

theorem run_of_eq (p : Nat → Bool) (s : List Nat) : run_of p s = reach p s := rfl

theorem next_is_iff {p : Nat → Bool} : next_is p s = true ↔ 0 < run_of p s :=
  reach_pos.symm

theorem run_plus {text : String} {p : Nat → Bool} (hk : ∀ t, (k t).isSome) :
    run (.plus (.one text p)) s k =
      if next_is p s then k (s.drop (run_of p s)) else none := by
  rw [run_plus_total text hk, ← run_of_eq]
  by_cases hpos : 0 < run_of p s
  · rw [if_pos (next_is_iff.mpr hpos), if_neg (Nat.ne_of_gt hpos)]
  · rw [if_neg fun h => hpos (next_is_iff.mp h), if_pos (Nat.eq_zero_of_not_pos hpos)]

/-- A1 -/
theorem run_ascii (hk : ∀ t, (k t).isSome) :
    run (.seq ascii_punct_class (.plus ascii_alpha_class)) (c :: s) k =
      if is_ascii_punct c && next_is is_ascii_alpha s then k (s.drop (run_of is_ascii_alpha s))
      else none := by
  have halpha : ascii_alpha_class = .one "[A-Za-z]" is_ascii_alpha :=
    congrArg _ (funext alpha_eq)
  rw [run, halpha, ascii_punct_class, among_punct, run]
  simp only [run_plus hk]
  cases is_ascii_punct c <;> simp

/-- A2 -/
theorem run_letters (hk : ∀ t, (k t).isSome) :
    run (.seq (.opt (lead_class cls)) (.plus (letter_class cls))) (c :: s) k =
      if match_letters cls c s > 0 then k ((c :: s).drop (match_letters cls c s)) else none := by
  have hletter : letter_class cls = .one "[\\p\x7bL\x7d\\p\x7bM\x7d]" (has cls (kL ||| kM)) :=
    congrArg _ (funext fun c => (has_or cls kL kM c).symm)
  rw [run, run, hletter, lead_class, run, lead_eq]
  simp only [run_plus hk]
  unfold match_letters
  cases hlead : (!crlf c && !has cls (kL ||| kP ||| kS) c) with
  | false =>
    simp [next_is_iff]
  | true =>
    cases hnext : next_is (has cls (kL ||| kM)) s with
    | true =>
      have hsome := hk (s.drop (run_of (has cls (kL ||| kM)) s))
      simp [Nat.add_comm 1, Option.or_of_isSome hsome]
    | false => simp [next_is_iff]

/-- `[\p{P}\p{S}]+[\r\n]*` -/
def symbol_run (cls : Nat → Nat) (s : List Nat) : Nat :=
  run_of (has cls (kP ||| kS)) s + run_of crlf (s.drop (run_of (has cls (kP ||| kS)) s))

theorem match_symbols_eq (cls : Nat → Nat) (c : Nat) (s : List Nat) :
    match_symbols cls c s = if decide (c = 0x20) && next_is (has cls (kP ||| kS)) s then
        1 + symbol_run cls s
      else if has cls (kP ||| kS) c then symbol_run cls (c :: s) else 0 := rfl

theorem run_symbol_run (hk : ∀ t, (k t).isSome) :
    run (.seq (.plus (symbol_class cls)) (.star break_class)) s k =
      if next_is (has cls (kP ||| kS)) s then k (s.drop (symbol_run cls s)) else none := by
  have hsymbol : symbol_class cls = .one "[\\p\x7bP\x7d\\p\x7bS\x7d]" (has cls (kP ||| kS)) :=
    congrArg _ (funext fun c => (has_or cls kP kS c).symm)
  have hbreak : break_class = .one "[\r\n]" crlf := congrArg _ among_break
  rw [run, hsymbol, hbreak]
  simp only [run_star_total _ hk]
  rw [run_plus fun t => hk _, List.drop_drop]
  rfl

/-- A3 -/
theorem run_symbols (hk : ∀ t, (k t).isSome) :
    run (.seq (.opt blank_class) (.seq (.plus (symbol_class cls)) (.star break_class))) (c :: s) k =
      if match_symbols cls c s > 0 then k ((c :: s).drop (match_symbols cls c s)) else none := by
  have hhead : next_is (has cls (kP ||| kS)) (c :: s) = has cls (kP ||| kS) c := by
    simp [next_is]
  rw [run, run, blank_class, run, among_blank, match_symbols_eq]
  simp only [run_symbol_run hk, hhead]
  -- without the blank the run starts at `c` itself
  have hplain : (if has cls (kP ||| kS) c then k ((c :: s).drop (symbol_run cls (c :: s)))
        else none) =
      if (if has cls (kP ||| kS) c then symbol_run cls (c :: s) else 0) > 0 then
        k ((c :: s).drop (if has cls (kP ||| kS) c then symbol_run cls (c :: s) else 0))
      else none := by
    cases hsymbol : has cls (kP ||| kS) c with
    | true =>
      have hpos : 0 < symbol_run cls (c :: s) :=
        Nat.add_pos_left (next_is_iff.mp (hhead.trans hsymbol)) _
      rw [if_pos rfl, if_pos rfl, if_pos hpos]
    | false => rfl
  cases hc : decide (c = 0x20) with
  | false => simpa using hplain
  | true =>
    cases hnext : next_is (has cls (kP ||| kS)) s with
    | true =>
      have hsome := hk (s.drop (symbol_run cls s))
      simp [Nat.add_comm 1, Option.or_of_isSome hsome]
    | false => simpa using hplain

theorem match_letters_le (c : Nat) (s : List Nat) :
    match_letters cls c s ≤ (c :: s).length := by
  unfold match_letters
  dsimp only
  split
  · have := reach_le (has cls (kL ||| kM)) s
    rw [run_of_eq, List.length_cons]
    omega
  · exact reach_le _ _

theorem symbol_run_le (s : List Nat) : symbol_run cls s ≤ s.length := by
  have hfirst := reach_le (has cls (kP ||| kS)) s
  have hsecond := reach_le crlf (s.drop (run_of (has cls (kP ||| kS)) s))
  rw [List.length_drop] at hsecond
  rw [symbol_run]
  rw [run_of_eq] at *
  rw [run_of_eq]
  omega

theorem match_symbols_le (c : Nat) (s : List Nat) :
    match_symbols cls c s ≤ (c :: s).length := by
  rw [match_symbols_eq]
  split
  · have hrun : symbol_run cls s ≤ s.length := symbol_run_le s
    rw [List.length_cons]
    omega
  · split
    · exact symbol_run_le _
    · exact Nat.zero_le _

/-! #### Whitespace -/

/-- The last line break of a run of whitespace ends at this place. -/
def last_break (ws : List Nat) : Nat :=
  ws.length - (ws.reverse.takeWhile fun c => !crlf c).length

theorem match_space_eq (cls : Nat → Nat) (s : List Nat) :
    match_space cls s =
      if last_break (s.takeWhile (has cls kWS)) > 0 then last_break (s.takeWhile (has cls kWS))
      else if run_of (has cls kWS) s = s.length then run_of (has cls kWS) s
      else if run_of (has cls kWS) s ≥ 2 then run_of (has cls kWS) s - 1
      else run_of (has cls kWS) s := rfl

/-- A run of whitespace in two: up to its last break, and the rest without one. -/
theorem break_split (ws : List Nat) : ∃ rest tail, ws = rest.reverse ++ tail ∧
    last_break ws = rest.length ∧ (∀ c ∈ tail, crlf c = false) ∧
      ∀ c r, rest = c :: r → crlf c = true := by
  refine ⟨ws.reverse.dropWhile fun c => !crlf c, (ws.reverse.takeWhile fun c => !crlf c).reverse,
    ?_, ?_, fun c hc => ?_, fun c r hrest => ?_⟩
  · rw [← List.reverse_append, List.takeWhile_append_dropWhile, List.reverse_reverse]
  · have hlen := congrArg List.length
      (List.takeWhile_append_dropWhile (p := fun c => !crlf c) (l := ws.reverse))
    rw [List.length_append, List.length_reverse] at hlen
    rw [last_break]
    omega
  · simpa using List.all_eq_true.mp List.all_takeWhile c (List.mem_reverse.mp hc)
  · have hne : (ws.reverse.dropWhile fun c => !crlf c) ≠ [] := by
      rw [hrest]
      exact List.cons_ne_nil _ _
    have hhead := List.head_dropWhile_not (fun c => !crlf c) hne
    simpa [hrest] using hhead

/-- From the last break of a run of whitespace to its end no line break follows. -/
theorem next_break {rest tail : List Nat} {n : Nat}
    (hws : ∀ c, crlf c = true → has cls kWS c = true)
    (hs : s = rest.reverse ++ (tail ++ s.dropWhile (has cls kWS)))
    (htail : ∀ c ∈ tail, crlf c = false) (hle : rest.length ≤ n)
    (hn : n ≤ rest.length + tail.length) : next_is crlf (s.drop n) = false := by
  have hdrop : s.drop n = tail.drop (n - rest.length) ++ s.dropWhile (has cls kWS) := by
    have hzero : n - rest.length - tail.length = 0 := by omega
    conv_lhs => rw [hs]
    rw [List.drop_append, List.drop_eq_nil_of_le (by simpa using hle), List.nil_append,
      List.length_reverse, List.drop_append, hzero, List.drop_zero]
  rw [hdrop, next_is]
  cases htl : tail.drop (n - rest.length) with
  | cons c u =>
    have hc : c ∈ tail := List.mem_of_mem_drop (htl ▸ List.mem_cons_self)
    simp [htail c hc]
  | nil =>
    have hhead := List.head?_dropWhile_not (has cls kWS) s
    cases hdw : s.dropWhile (has cls kWS) with
    | nil => rfl
    | cons c u =>
      rw [hdw] at hhead
      cases hc : crlf c with
      | false => simp [hc]
      | true =>
        have hyes := hws c hc
        simp [hyes] at hhead

/-- A4 -/
theorem run_breaks (hws : ∀ c, crlf c = true → has cls kWS c = true) (s : List Nat) :
    run (.seq (.star (space_class cls)) (.plus break_class)) s (accept s) =
      if last_break (s.takeWhile (has cls kWS)) > 0 then
        some (last_break (s.takeWhile (has cls kWS)))
      else none := by
  have hbreak : break_class = .one "[\r\n]" crlf := congrArg _ among_break
  have hspace : space_class cls = .one "\\s" (has cls kWS) := rfl
  rw [run, hspace, run_star_one, hbreak]
  simp only [run_plus (accept_isSome s)]
  obtain ⟨rest, tail, hsplit, hlast, htail, hhead⟩ := break_split (s.takeWhile (has cls kWS))
  have hs : s = rest.reverse ++ (tail ++ s.dropWhile (has cls kWS)) := by
    conv_lhs => rw [← List.takeWhile_append_dropWhile (p := has cls kWS) (l := s), hsplit]
    rw [List.append_assoc]
  have hreach : reach (has cls kWS) s = rest.length + tail.length := by
    rw [reach, hsplit, List.length_append, List.length_reverse]
  have hnone : ∀ n, rest.length ≤ n → n ≤ reach (has cls kWS) s →
      next_is crlf (s.drop n) = false := fun n hle hn =>
    next_break hws hs htail hle (hreach ▸ hn)
  rw [hlast]
  cases hrest : rest with
  | nil =>
    refine greedy_none fun i hi => ?_
    rw [hnone i (by rw [hrest]; exact Nat.zero_le i) hi]
    rfl
  | cons c r =>
    have hc : crlf c = true := hhead c r hrest
    have hlen : rest.length = r.length + 1 := by rw [hrest, List.length_cons]
    -- the match goes through the break at `r.length`
    have hdrop : s.drop r.length = c :: (tail ++ s.dropWhile (has cls kWS)) := by
      conv_lhs => rw [hs, hrest, List.reverse_cons, List.append_assoc, ← List.length_reverse,
        List.drop_left]
      rfl
    have hmore : s.drop (r.length + 1) = tail ++ s.dropWhile (has cls kWS) := by
      rw [← List.drop_drop, hdrop]
      rfl
    have hstop : run_of crlf (tail ++ s.dropWhile (has cls kWS)) = 0 := by
      have hno := hnone (r.length + 1) (Nat.le_of_eq hlen) (by omega)
      rw [hmore] at hno
      refine Nat.eq_zero_of_not_pos fun hpos => ?_
      rw [next_is_iff.mpr hpos] at hno
      cases hno
    have hone : run_of crlf (s.drop r.length) = 1 := by
      rw [hdrop, run_of_eq, reach_cons_pos hc, ← run_of_eq, hstop]
    have hlt : r.length + 1 ≤ s.length := by
      rw [hs, List.length_append, List.length_reverse, hlen]
      omega
    rw [greedy_skip (m := r.length) (by omega) fun i hlo hi => by
      rw [hnone i (by omega) hi]
      rfl]
    have hval : (if next_is crlf (s.drop r.length) then
        accept s ((s.drop r.length).drop (run_of crlf (s.drop r.length))) else none) =
        some (r.length + 1) := by
      rw [if_pos (next_is_iff.mpr (by rw [hone]; exact Nat.one_pos)), hone, List.drop_drop]
      exact accept_drop hlt
    rw [greedy_of_isSome (by rw [hval]; rfl), hval]
    rfl

/-- A5 -/
theorem run_trailing (s : List Nat) :
    run (.seq (.plus (space_class cls)) (.not_ahead (nonspace_class cls))) s (accept s) =
      if run_of (has cls kWS) s = 0 then none
      else if run_of (has cls kWS) s = s.length then some (run_of (has cls kWS) s)
      else if run_of (has cls kWS) s ≥ 2 then some (run_of (has cls kWS) s - 1) else none := by
  have hspace : space_class cls = .one "\\s" (has cls kWS) := rfl
  have hle : run_of (has cls kWS) s ≤ s.length := reach_le _ s
  rw [run, hspace, run_plus_one, ← run_of_eq, nonspace_class]
  simp only [run_not_ahead_one]
  by_cases hzero : run_of (has cls kWS) s = 0
  · rw [if_pos hzero, if_pos hzero]
  rw [if_neg hzero, if_neg hzero]
  obtain ⟨m, hm⟩ := Nat.exists_eq_succ_of_ne_zero hzero
  rw [hm] at hle ⊢
  rw [Nat.succ_sub_one]
  have hinside : ∀ n ≤ m, (s.drop n).head?.any (has cls kWS) = true := fun n hn =>
    head_drop_of_lt_reach (by rw [← run_of_eq, hm]; exact Nat.lt_succ_of_le hn)
  have hout : (s.drop (m + 1)).head?.any (has cls kWS) = false := by
    have := head_drop_reach (has cls kWS) s
    rw [← run_of_eq, hm] at this
    exact this
  by_cases hend : m + 1 = s.length
  · -- nothing follows the run
    rw [if_pos hend]
    have hval : (if (s.drop (m + 1)).head?.any (fun c => !whitespace cls c) then none
        else accept s (s.drop (m + 1))) = some (m + 1) := by
      rw [accept_drop hle, List.drop_eq_nil_of_le (Nat.le_of_eq hend.symm)]
      rfl
    rw [greedy_of_isSome (by rw [hval]; rfl), hval]
  · rw [if_neg hend]
    have hnone : (if (s.drop (m + 1)).head?.any (fun c => !whitespace cls c) then none
        else accept s (s.drop (m + 1))) = none := by
      cases hrest : s.drop (m + 1) with
      | nil =>
        have := List.drop_eq_nil_iff.mp hrest
        omega
      | cons c u =>
        rw [hrest] at hout
        have hc : has cls kWS c = false := by simpa using hout
        simp [whitespace, hc]
    cases m with
    | zero =>
      rw [greedy, hnone]
      rfl
    | succ m =>
      rw [if_pos (by omega), greedy, hnone, Option.none_or]
      have hval : (if (s.drop (m + 1)).head?.any (fun c => !whitespace cls c) then none
          else accept s (s.drop (m + 1))) = some (m + 1) := by
        have hyes := hinside (m + 1) (Nat.le_refl _)
        cases hrest : s.drop (m + 1) with
        | nil =>
          rw [hrest] at hyes
          cases hyes
        | cons c u =>
          rw [hrest] at hyes
          have hc : has cls kWS c = true := by simpa using hyes
          have hskip : (c :: u).head?.any (fun c => !whitespace cls c) = false := by
            simp [whitespace, hc]
          rw [hskip, ← hrest, accept_drop (by omega)]
          rfl
      rw [greedy_of_isSome (by rw [hval]; rfl), hval]

/-- A6 -/
theorem run_spaces (s : List Nat) : run (.plus (space_class cls)) s (accept s) =
    if run_of (has cls kWS) s = 0 then none else some (run_of (has cls kWS) s) := by
  have hspace : space_class cls = .one "\\s" (has cls kWS) := rfl
  rw [hspace, run_plus_total _ (accept_isSome s), accept_drop (reach_le _ s), run_of_eq]

theorem run_space (hws : ∀ c, crlf c = true → has cls kWS c = true) (s : List Nat) :
    run (.alt (.seq (.star (space_class cls)) (.plus break_class)) <|
        .alt (.seq (.plus (space_class cls)) (.not_ahead (nonspace_class cls))) <|
        .plus (space_class cls)) s (accept s) =
      if match_space cls s = 0 then none else some (match_space cls s) := by
  have hlast : last_break (s.takeWhile (has cls kWS)) ≤ run_of (has cls kWS) s := Nat.sub_le ..
  rw [run_alt, run_alt, run_breaks hws, run_trailing, run_spaces, match_space_eq]
  by_cases hbreak : last_break (s.takeWhile (has cls kWS)) > 0
  · simp [hbreak, Nat.ne_of_gt hbreak]
  · rw [if_neg hbreak, if_neg hbreak, Option.none_or]
    by_cases hzero : run_of (has cls kWS) s = 0
    · simp [hzero]
    · rw [if_neg hzero, if_neg hzero]
      by_cases hend : run_of (has cls kWS) s = s.length
      · rw [if_pos hend, if_pos hend, if_neg hzero]
        rfl
      · rw [if_neg hend, if_neg hend]
        by_cases htwo : run_of (has cls kWS) s ≥ 2
        · rw [if_pos htwo, if_pos htwo, if_neg (by omega)]
          rfl
        · rw [if_neg htwo, if_neg htwo, if_neg hzero]
          rfl

end Alternatives

/-! ### The split -/

section Split

variable {cls : Nat → Nat}

/-- At every text the hand-compiled matcher takes what the expression matches first. -/
theorem first_word_regex (hws : ∀ c, crlf c = true → has cls kWS c = true) (s : List Nat) :
    first (word_regex cls) s =
      if match_words cls s = 0 then none else some (match_words cls s) := by
  cases s with
  | nil => rfl
  | cons c s =>
    have hk := accept_isSome (c :: s)
    rw [first, word_regex, run_alt, run_alt, run_alt, run_ascii hk, run_letters hk, run_symbols hk,
      run_space hws, match_words]
    cases hascii : is_ascii_punct c && next_is is_ascii_alpha s with
    | true =>
      have hle : 1 + run_of is_ascii_alpha s ≤ (c :: s).length := by
        rw [List.length_cons, Nat.add_comm]
        exact Nat.succ_le_succ (reach_le _ s)
      have hdrop : s.drop (run_of is_ascii_alpha s) =
          (c :: s).drop (1 + run_of is_ascii_alpha s) := by
        rw [Nat.add_comm]
        rfl
      have hne : ¬ 1 + run_of is_ascii_alpha s = 0 := by omega
      rw [if_pos rfl, if_pos rfl, hdrop, accept_drop hle, if_neg hne]
      rfl
    | false =>
      rw [if_neg Bool.false_ne_true, if_neg Bool.false_ne_true, Option.none_or]
      by_cases hletters : match_letters cls c s > 0
      · rw [if_pos hletters, if_pos hletters, if_neg (Nat.ne_of_gt hletters),
          accept_drop (match_letters_le c s)]
        rfl
      · rw [if_neg hletters, if_neg hletters, Option.none_or]
        by_cases hsymbols : match_symbols cls c s > 0
        · rw [if_pos hsymbols, if_pos hsymbols, if_neg (Nat.ne_of_gt hsymbols),
            accept_drop (match_symbols_le c s)]
          rfl
        · rw [if_neg hsymbols, if_neg hsymbols, Option.none_or]

/-- A piece that is cut by a matcher of its own is cut at the matches of the expression, `last`
    being what no match has taken yet. -/
theorem isolate_eq_cut {α : Type} [DecidableEq α] {r : Regex α} {step : List α → Nat}
    (hstep : ∀ s, first r s = if step s = 0 then none else some (step s)) {fuel fuel' : Nat}
    {rest : List α} (hfuel : rest.length ≤ fuel) (hfuel' : rest.length ≤ fuel' + 1)
    (last : List α) : isolate step fuel last rest = cut r (split r fuel') last rest := by
  induction fuel generalizing fuel' rest last with
  | zero =>
    obtain rfl : rest = [] := List.length_eq_zero_iff.mp (Nat.le_zero.mp hfuel)
    rw [cut_nil]
    rfl
  | succ fuel ih =>
    cases rest with
    | nil =>
      rw [cut_nil]
      rfl
    | cons c s =>
      rw [isolate]
      have hfirst := hstep (c :: s)
      by_cases hzero : step (c :: s) = 0
      · rw [if_pos hzero] at hfirst ⊢
        rw [cut_gap hfirst]
        exact ih (Nat.le_of_succ_le_succ hfuel) (Nat.le_of_succ_le hfuel') _
      · rw [if_neg hzero] at hfirst ⊢
        rw [cut_match hfirst]
        -- the rest is shorter, and the split goes on with it
        have hdrop : ((c :: s).drop (step (c :: s))).length ≤ s.length := by
          rw [List.length_drop, List.length_cons]
          omega
        have hlen : s.length ≤ fuel := Nat.le_of_succ_le_succ hfuel
        have hlen' : s.length ≤ fuel' := Nat.le_of_succ_le_succ hfuel'
        have hmore : isolate step fuel [] ((c :: s).drop (step (c :: s))) =
            split r fuel' ((c :: s).drop (step (c :: s))) := by
          cases fuel' with
          | zero =>
            obtain hnil : (c :: s).drop (step (c :: s)) = [] :=
              List.length_eq_zero_iff.mp (Nat.le_zero.mp (hdrop.trans hlen'))
            rw [hnil]
            cases fuel <;> rfl
          | succ fuel'' => exact ih (hdrop.trans hlen) (hdrop.trans hlen') []
        rw [hmore]
        rfl

/-- The third split of the encoder takes at every text what the configured expression matches
    first, and cuts every piece at the expression's matches. -/
theorem word_split_eq (hws : ∀ c, crlf c = true → has cls kWS c = true) :
    (∀ s, first (word_regex cls) s =
      if match_words cls s = 0 then none else some (match_words cls s)) ∧
    ∀ pieces, split_isolated (match_words cls) pieces =
      pieces.flatMap fun p => split (word_regex cls) (p.length + 1) p := by
  refine ⟨first_word_regex hws, fun pieces => List.flatMap_congr fun p _ => ?_⟩
  exact isolate_eq_cut (first_word_regex hws) (Nat.le_refl _) (Nat.le_succ _) []

/-- The class table on ASCII. -/
def ascii_classes (c : Nat) : Nat :=
  if c = 0x20 ∨ 0x09 ≤ c ∧ c ≤ 0x0D then kWS
  else if is_ascii_alpha c then kL
  else if 0x30 ≤ c ∧ c ≤ 0x39 then kN
  else if among "$+<=>^`|~" c then kS
  else if is_ascii_punct c then kP
  else 0

/-- A word, a run of whitespace with a line break in it, a blank of its own, and a word again. -/
theorem word_split_ascii :
    split (word_regex ascii_classes) 8 [0x20, 0x61, 0x20, 0x0A, 0x20, 0x20, 0x62] =
      [[0x20, 0x61], [0x20, 0x0A], [0x20], [0x20, 0x62]] := by
  have hws : ∀ c, crlf c = true → has ascii_classes kWS c = true := by
    intro c hc
    rcases of_decide_eq_true hc with rfl | rfl <;> rfl
  have hsplit := (word_split_eq hws).2 [[0x20, 0x61, 0x20, 0x0A, 0x20, 0x20, 0x62]]
  rw [List.flatMap_singleton] at hsplit
  exact hsplit.symm.trans (by decide)

end Split

end CachedMoe.Text
