import Mathlib.Data.List.Basic

/-! # Leftmost-first Matching

    Regular expressions as a backtracking matcher reads them: the alternatives of `r|q` from the
    left, one more repetition before none, and each choice undone when what follows it fails.

    * `run`: the matcher, which passes what is left of the text to the rest of the pattern;
    * `first`: the length of the match at the start of a text;
    * `find`, `split`: the leftmost match, and a text cut at its matches;
    * `greedy`: a repeated class tries its counts from the longest run down.

    A match is not empty in `find` and `split`. -/

universe u v

inductive Regex (α : Type u) where
  /-- A class of symbols, and how it is written. -/
  | one (text : String) (p : α → Bool)
  | seq (r q : Regex α)
  | alt (r q : Regex α)
  | opt (r : Regex α)
  | star (r : Regex α)
  | plus (r : Regex α)
  /-- `(?!r)`. -/
  | not_ahead (r : Regex α)

namespace Regex

variable {α : Type u} {β : Type v}

/-! ### The matcher -/

/-- A repetition: once more, as long as that takes something, else on with the rest. -/
@[grind =] def again (m : List α → (List α → Option β) → Option β) :
    (fuel : Nat) → List α → (List α → Option β) → Option β
  | 0, s, k => k s
  | fuel + 1, s, k =>
    (m s fun t => if t.length < s.length then again m fuel t k else none).or (k s)

@[grind =] def run : Regex α → {β : Type v} → List α → (List α → Option β) → Option β
  | one _ p, _, s, k =>
    match s with
    | [] => none
    | c :: t => if p c then k t else none
  | seq r q, _, s, k => run r s fun t => run q t k
  | alt r q, _, s, k => (run r s k).or (run q s k)
  | opt r, _, s, k => (run r s k).or (k s)
  | star r, _, s, k => again (fun s k => run r s k) s.length s k
  | plus r, _, s, k => run r s fun t => again (fun s k => run r s k) t.length t k
  | not_ahead r, _, s, k => if (run r s fun _ => some PUnit.unit).isSome then none else k s

theorem run_alt (r q : Regex α) (s : List α) (k : List α → Option β) :
    run (alt r q) s k = (run r s k).or (run q s k) := rfl

/-- What is left says how much was taken. -/
def accept (s t : List α) : Option Nat := some (s.length - t.length)

/-- The length of the match at the start. -/
def first (r : Regex α) (s : List α) : Option Nat := run r s (accept s)

/-- Where the leftmost match starts, and its length. -/
@[grind =] def find (r : Regex α) : List α → Option (Nat × Nat)
  | [] => none
  | c :: s =>
    match first r (c :: s) with
    | some n => some (0, n)
    | none => (find r s).map fun p => (p.1 + 1, p.2)

/-- A piece, unless it is empty. -/
def piece [DecidableEq α] (s : List α) : List (List α) := if s = [] then [] else [s]

/-- A text cut at its leftmost match, what comes after by `next`; `last` stands before it. -/
def cut [DecidableEq α] (r : Regex α) (next : List α → List (List α)) (last s : List α) :
    List (List α) :=
  match find r s with
  | none => piece (last ++ s)
  | some (i, n) => piece (last ++ s.take i) ++ (s.drop i).take n :: next (s.drop (i + n))

/-- The matches of a text from the left and the gaps between them. -/
def split [DecidableEq α] (r : Regex α) : (fuel : Nat) → List α → List (List α)
  | 0, s => piece s
  | fuel + 1, s => cut r (split r fuel) [] s

/-- The pattern as it is written. -/
def text : Regex α → String
  | one t _ => t
  | seq r q => text r ++ text q
  | alt r q => text r ++ "|" ++ text q
  | opt r => text r ++ "?"
  | star r => text r ++ "*"
  | plus r => text r ++ "+"
  | not_ahead r => "(?!" ++ text r ++ ")"

/-! ### Repeated classes -/

/-- The counts from `n` down to 0. -/
@[grind =] def greedy (f : Nat → Option β) : Nat → Option β
  | 0 => f 0
  | n + 1 => (f (n + 1)).or (greedy f n)

variable {f : Nat → Option β} {k : List α → Option β} {p : α → Bool} {s : List α} {m n : Nat}

theorem greedy_succ (f : Nat → Option β) (n : Nat) :
    greedy f (n + 1) = (greedy (fun i => f (i + 1)) n).or (f 0) := by
  induction n with
  | zero => rfl
  | succ n ih =>
    rw [greedy, ih, greedy, Option.or_assoc]

theorem greedy_of_isSome (h : (f n).isSome) : greedy f n = f n := by
  cases n with
  | zero => rfl
  | succ n => exact Option.or_of_isSome h

/-- Counts that fail are passed over. -/
theorem greedy_skip (hle : m ≤ n) (h : ∀ i, m < i → i ≤ n → f i = none) :
    greedy f n = greedy f m := by
  induction n with
  | zero => rw [Nat.le_zero.mp hle]
  | succ n ih =>
    rcases Nat.eq_or_lt_of_le hle with rfl | hlt
    · rfl
    · rw [greedy, h (n + 1) hlt (Nat.le_refl _), Option.none_or]
      exact ih (Nat.le_of_lt_succ hlt) fun i hi hin => h i hi (Nat.le_succ_of_le hin)

theorem greedy_none (h : ∀ i ≤ n, f i = none) : greedy f n = none := by
  rw [greedy_skip (Nat.zero_le n) fun i _ hi => h i hi]
  exact h 0 (Nat.zero_le n)

/-- How far a class goes. -/
def reach (p : α → Bool) (s : List α) : Nat := (s.takeWhile p).length

theorem reach_cons_pos {c : α} (hc : p c = true) : reach p (c :: s) = reach p s + 1 := by
  simp [reach, hc]

theorem reach_cons_neg {c : α} (hc : ¬ p c = true) : reach p (c :: s) = 0 := by
  simp [reach, hc]

theorem again_one (text : String) {fuel : Nat} (hfuel : s.length ≤ fuel) :
    again (fun s k => run (one text p) s k) fuel s k =
      greedy (fun n => k (s.drop n)) (reach p s) := by
  induction s generalizing fuel with
  | nil =>
    cases fuel with
    | zero => rfl
    | succ fuel => rfl
  | cons c s ih =>
    cases fuel with
    | zero => simp at hfuel
    | succ fuel =>
      rw [again, run]
      by_cases hc : p c = true
      · rw [if_pos hc, if_pos (by simp), ih (Nat.le_of_succ_le_succ hfuel), reach_cons_pos hc,
          greedy_succ]
        rfl
      · rw [if_neg hc, reach_cons_neg hc]
        rfl

theorem run_star_one (text : String) :
    run (star (one text p)) s k = greedy (fun n => k (s.drop n)) (reach p s) :=
  again_one text (Nat.le_refl _)

theorem run_plus_one (text : String) :
    run (plus (one text p)) s k =
      if reach p s = 0 then none else greedy (fun n => k (s.drop (n + 1))) (reach p s - 1) := by
  cases s with
  | nil => rfl
  | cons c s =>
    rw [run, run]
    by_cases hc : p c = true
    · rw [if_pos hc, again_one text (Nat.le_refl _), reach_cons_pos hc,
        if_neg (Nat.succ_ne_zero _)]
      rfl
    · rw [if_neg hc, reach_cons_neg hc, if_pos rfl]

/-- When the rest of the pattern cannot fail, the whole run is taken. -/
theorem run_star_total (text : String) (hk : ∀ t, (k t).isSome) :
    run (star (one text p)) s k = k (s.drop (reach p s)) := by
  rw [run_star_one, greedy_of_isSome (hk _)]

theorem run_plus_total (text : String) (hk : ∀ t, (k t).isSome) :
    run (plus (one text p)) s k = if reach p s = 0 then none else k (s.drop (reach p s)) := by
  rw [run_plus_one]
  split
  · rfl
  · rename_i hpos
    rw [greedy_of_isSome (hk _), Nat.sub_add_cancel (Nat.pos_of_ne_zero hpos)]

theorem run_not_ahead_one (text : String) :
    run (not_ahead (one text p)) s k = if s.head?.any p then none else k s := by
  cases s with
  | nil => rfl
  | cons c s =>
    rw [run, run]
    by_cases hc : p c = true
    · simp [hc]
    · simp [hc]

theorem reach_le (p : α → Bool) (s : List α) : reach p s ≤ s.length :=
  (List.takeWhile_sublist p).length_le

/-- Where a class stops there is the end of the text or a symbol outside. -/
theorem head_drop_reach (p : α → Bool) (s : List α) : (s.drop (reach p s)).head?.any p = false := by
  induction s with
  | nil => rfl
  | cons c s ih =>
    by_cases hc : p c = true
    · simpa [reach, hc] using ih
    · simp [reach, hc]

theorem head_drop_of_lt_reach (h : n < reach p s) : (s.drop n).head?.any p = true := by
  induction s generalizing n with
  | nil => cases h
  | cons c s ih =>
    by_cases hc : p c = true
    · cases n with
      | zero => simpa using hc
      | succ n =>
        have h' : n < reach p s := by simpa [reach, hc] using h
        exact ih h'
    · simp [reach, hc] at h

theorem reach_pos : 0 < reach p s ↔ s.head?.any p = true := by
  cases s with
  | nil => simp [reach]
  | cons c s =>
    by_cases hc : p c = true
    · simp [reach, hc]
    · simp [reach, hc]

/-! ### Cutting -/

theorem cut_nil [DecidableEq α] (r : Regex α) (next : List α → List (List α)) (last : List α) :
    cut r next last [] = piece last := by
  simp [cut, find]

theorem cut_match [DecidableEq α] {r : Regex α} {next : List α → List (List α)} {c : α}
    (h : first r (c :: s) = some n) (last : List α) :
    cut r next last (c :: s) = piece last ++ (c :: s).take n :: next ((c :: s).drop n) := by
  simp [cut, find, h]

/-- Nothing matches at the first symbol. -/
theorem cut_gap [DecidableEq α] {r : Regex α} {next : List α → List (List α)} {c : α}
    (h : first r (c :: s) = none) (last : List α) :
    cut r next last (c :: s) = cut r next (last ++ [c]) s := by
  rw [cut, find, h, cut]
  cases hfind : find r s with
  | none => simp
  | some p => simp [Nat.add_right_comm]

theorem accept_isSome (s t : List α) : (accept s t).isSome := rfl

theorem accept_drop (h : n ≤ s.length) : accept s (s.drop n) = some n := by
  rw [accept, List.length_drop, Nat.sub_sub_self h]

end Regex
