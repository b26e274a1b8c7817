import CachedMoe.Core.JsonComplete
import Mathlib.Data.List.Chain

/-! # Surrogates of a JSON string

    Where the parser's reading of a text is what the text denotes. Escapes of high surrogates are
    taken in twos, so behind an even number of them the escape of a low one is cut off from the
    high one it belongs to; and only there. -/

namespace CachedMoe

open Json Text

namespace JsonText

/-! ### Code points -/

/-- Some low surrogate comes right behind a positive even number of high ones, where `run` high
    ones have come before. -/
@[grind =] def mispairs : Nat → List Nat → Bool
  | _, [] => false
  | run, u :: s =>
    if is_high u then mispairs (run + 1) s
    else if is_low u ∧ run ≠ 0 ∧ run % 2 = 0 then true
    else mispairs 0 s

theorem mispairs_high {u : Nat} (h : is_high u = true) (run : Nat) (s : List Nat) :
    mispairs run (u :: s) = mispairs (run + 1) s := by
  rw [mispairs, if_pos h]

theorem mispairs_low {run u : Nat} (h : is_high u = false) (hl : is_low u = true) (hrun : run ≠ 0)
    (heven : run % 2 = 0) (s : List Nat) : mispairs run (u :: s) = true := by
  rw [mispairs, if_neg (by simp [h]), if_pos ⟨hl, hrun, heven⟩]

theorem mispairs_other {run u : Nat} (h : is_high u = false)
    (hl : ¬ (is_low u = true ∧ run ≠ 0 ∧ run % 2 = 0)) (s : List Nat) :
    mispairs run (u :: s) = mispairs 0 s := by
  rw [mispairs, if_neg (by simp [h]), if_neg hl]

theorem not_low_of_high {u : Nat} (h : is_high u = true) : is_low u = false := by
  unfold is_high at h
  have hu := of_decide_eq_true h
  unfold is_low
  rw [decide_eq_false_iff_not]
  omega

theorem pair_plain {hi lo : Nat} (hhi : is_high hi = true) (hlo : is_low lo = true) :
    is_high (pair hi lo) = false ∧ is_low (pair hi lo) = false ∧ pair hi lo < 0x110000 := by
  unfold is_high at hhi
  unfold is_low at hlo
  have h₁ := of_decide_eq_true hhi
  have h₂ := of_decide_eq_true hlo
  unfold is_high is_low pair
  rw [decide_eq_false_iff_not, decide_eq_false_iff_not, Nat.shiftLeft_eq]
  omega

theorem join_high {u : Nat} (h : is_high u = true) (s : List Nat) :
    join_pairs none (u :: s) = join_pairs (some u) s := by
  rw [join_pairs, if_pos h]

theorem join_other {u : Nat} (h : is_high u = false) (s : List Nat) :
    join_pairs none (u :: s) = u :: join_pairs none s := by
  rw [join_pairs, if_neg (by simp [h])]

theorem join_low {hi u : Nat} (h : is_low u = true) (s : List Nat) :
    join_pairs (some hi) (u :: s) = pair hi u :: join_pairs none s := by
  rw [join_pairs, if_pos h]

theorem join_again {hi u : Nat} (h : is_high u = true) (s : List Nat) :
    join_pairs (some hi) (u :: s) = hi :: join_pairs (some u) s := by
  rw [join_pairs, if_neg (by simp [not_low_of_high h]), if_pos h]

theorem join_unpaired {hi u : Nat} (hl : is_low u = false) (h : is_high u = false) (s : List Nat) :
    join_pairs (some hi) (u :: s) = hi :: u :: join_pairs none s := by
  rw [join_pairs, if_neg (by simp [hl]), if_neg (by simp [h])]

/-! ### The two readings -/

/-- What the parser has read behind `run` high surrogates, of which `h` is the last: an even one
    is out, an odd one still waits. -/
def scan_behind (run h : Nat) (s : List Nat) : List Nat :=
  if run = 0 then Parser.scan_pairs none s
  else if run % 2 = 1 then Parser.scan_pairs (some h) s
  else h :: Parser.scan_pairs none s

/-- What the text denotes there. -/
def join_behind (run h : Nat) (s : List Nat) : List Nat :=
  if run = 0 then join_pairs none s else join_pairs (some h) s

theorem scan_behind_high {u : Nat} (hu : is_high u = true) (run h : Nat) (s : List Nat) :
    scan_behind run h (u :: s) = (if run = 0 then [] else [h]) ++ scan_behind (run + 1) u s := by
  unfold scan_behind
  rw [if_neg (Nat.succ_ne_zero run)]
  by_cases hzero : run = 0
  · rw [if_pos hzero, if_pos hzero, if_pos (by omega), Parser.scan_high hu]
    rfl
  rw [if_neg hzero, if_neg hzero]
  by_cases hodd : run % 2 = 1
  · rw [if_pos hodd, if_neg (by omega), Parser.scan_unpaired (not_low_of_high hu)]
    rfl
  · rw [if_neg hodd, if_pos (by omega), Parser.scan_high hu]
    rfl

theorem join_behind_high {u : Nat} (hu : is_high u = true) (run h : Nat) (s : List Nat) :
    join_behind run h (u :: s) = (if run = 0 then [] else [h]) ++ join_behind (run + 1) u s := by
  unfold join_behind
  rw [if_neg (Nat.succ_ne_zero run)]
  by_cases hzero : run = 0
  · rw [if_pos hzero, if_pos hzero, join_high hu]
    rfl
  · rw [if_neg hzero, if_neg hzero, join_again hu]
    rfl

/-- What `u` after `run` high surrogates adds, where it is none itself. -/
def settled (run h u : Nat) : List Nat :=
  if run = 0 then [u] else if is_low u then [pair h u] else [h, u]

theorem scan_behind_other {run u : Nat} (hu : is_high u = false)
    (hl : ¬ (is_low u = true ∧ run ≠ 0 ∧ run % 2 = 0)) (h : Nat) (s : List Nat) :
    scan_behind run h (u :: s) = settled run h u ++ scan_behind 0 h s := by
  unfold scan_behind settled
  rw [if_pos rfl]
  by_cases hzero : run = 0
  · rw [if_pos hzero, if_pos hzero, Parser.scan_other hu]
    rfl
  rw [if_neg hzero, if_neg hzero]
  by_cases hodd : run % 2 = 1
  · rw [if_pos hodd]
    cases hlow : is_low u with
    | true =>
      rw [Parser.scan_low hlow, if_pos rfl]
      rfl
    | false =>
      rw [Parser.scan_unpaired hlow, if_neg (by simp)]
      rfl
  · have hlow : is_low u = false := by
      by_contra hcon
      exact hl ⟨by simpa using hcon, hzero, by omega⟩
    rw [if_neg hodd, Parser.scan_other hu, hlow, if_neg (by simp)]
    rfl

theorem join_behind_other {u : Nat} (hu : is_high u = false) (run h : Nat) (s : List Nat) :
    join_behind run h (u :: s) = settled run h u ++ join_behind 0 h s := by
  unfold join_behind settled
  rw [if_pos rfl]
  by_cases hzero : run = 0
  · rw [if_pos hzero, if_pos hzero, join_other hu]
    rfl
  rw [if_neg hzero, if_neg hzero]
  cases hlow : is_low u with
  | true =>
    rw [join_low hlow, if_pos rfl]
    rfl
  | false =>
    rw [join_unpaired hlow hu, if_neg (by simp)]
    rfl

theorem scan_eq_join (s : List Nat) (run h : Nat) (hs : mispairs run s = false) :
    scan_behind run h s = join_behind run h s := by
  induction s generalizing run h with
  | nil =>
    unfold scan_behind join_behind
    split
    · rfl
    split
    · rfl
    · rfl
  | cons u s ih =>
    cases hu : is_high u with
    | true =>
      rw [mispairs_high hu] at hs
      rw [scan_behind_high hu, join_behind_high hu, ih _ _ hs]
    | false =>
      have hl : ¬ (is_low u = true ∧ run ≠ 0 ∧ run % 2 = 0) := by
        rintro ⟨hlow, hrun, heven⟩
        rw [mispairs_low hu hlow hrun heven] at hs
        cases hs
      rw [mispairs_other hu hl] at hs
      rw [scan_behind_other hu hl, join_behind_other hu, ih _ _ hs]

/-- No low surrogate comes right behind a high one. -/
def Separate (s : List Nat) : Prop := s.IsChain fun u v => ¬ (is_high u = true ∧ is_low v = true)

theorem Separate.cons_other {u : Nat} {s : List Nat} (hu : is_high u = false) (hs : Separate s) :
    Separate (u :: s) := by
  refine List.isChain_cons.mpr ⟨fun v _ hboth => ?_, hs⟩
  rw [hu] at hboth
  cases hboth.1

/-- What the text denotes behind a high surrogate starts with no low one. -/
theorem join_head {h : Nat} (hh : is_high h = true) (s : List Nat) :
    ∀ v ∈ (join_pairs (some h) s).head?, is_low v = false := by
  intro v hv
  cases s with
  | nil =>
    rw [← Option.some.inj hv]
    exact not_low_of_high hh
  | cons u s =>
    cases hl : is_low u with
    | true =>
      rw [join_low hl] at hv
      rw [← Option.some.inj hv]
      exact (pair_plain hh hl).2.1
    | false =>
      have hhead : (join_pairs (some h) (u :: s)).head? = some h := by
        cases hu : is_high u with
        | true => rw [join_again hu, List.head?_cons]
        | false => rw [join_unpaired hl hu, List.head?_cons]
      rw [hhead] at hv
      rw [← Option.some.inj hv]
      exact not_low_of_high hh

/-- A code point that a text denotes is none that could be joined to the next. -/
theorem join_separate (s : List Nat) : Separate (join_pairs none s) ∧
    ∀ h, is_high h = true → Separate (join_pairs (some h) s) := by
  induction s with
  | nil => exact ⟨List.isChain_nil, fun h _ => List.isChain_singleton h⟩
  | cons u s ih =>
    obtain ⟨hnone, hsome⟩ := ih
    cases hu : is_high u with
    | true =>
      refine ⟨?_, fun h hh => ?_⟩
      · rw [join_high hu]
        exact hsome u hu
      · rw [join_again hu]
        refine List.isChain_cons.mpr ⟨fun v hv hboth => ?_, hsome u hu⟩
        rw [join_head hu s v hv] at hboth
        cases hboth.2
    | false =>
      have hown := hnone.cons_other hu
      refine ⟨?_, fun h hh => ?_⟩
      · rw [join_other hu]
        exact hown
      · cases hl : is_low u with
        | true =>
          rw [join_low hl]
          exact hnone.cons_other (pair_plain hh hl).1
        | false =>
          rw [join_unpaired hl hu]
          refine List.isChain_cons.mpr ⟨fun v hv hboth => ?_, hown⟩
          rw [← Option.some.inj hv, hl] at hboth
          cases hboth.2

/-- A code point that the parser left behind its high surrogate. -/
theorem scan_mispaired (s : List Nat) (run h : Nat) (hh : run ≠ 0 → is_high h = true)
    (hs : mispairs run s = true) : ¬ Separate (scan_behind run h s) := by
  induction s generalizing run h with
  | nil => cases hs
  | cons u s ih =>
    intro hsep
    cases hu : is_high u with
    | true =>
      rw [mispairs_high hu] at hs
      rw [scan_behind_high hu] at hsep
      exact ih _ _ (fun _ => hu) hs hsep.right_of_append
    | false =>
      by_cases hl : is_low u = true ∧ run ≠ 0 ∧ run % 2 = 0
      · obtain ⟨hlow, hrun, heven⟩ := hl
        unfold scan_behind at hsep
        rw [if_neg hrun, if_neg (by omega), Parser.scan_other hu] at hsep
        exact (List.isChain_cons.mp hsep).1 u rfl ⟨hh hrun, hlow⟩
      · rw [mispairs_other hu hl] at hs
        rw [scan_behind_other hu hl] at hsep
        exact ih _ _ (fun hne => absurd rfl hne) hs hsep.right_of_append

/-! ### Bytes -/

theorem code_lt (c : StringChar) : c.code < 0x110000 := by
  cases c with
  | unescaped c hcontrol hmark hsolidus => exact Parser.char_lt c
  | escape e =>
    cases e with
    | _ => decide
  | unicode h₁ h₂ h₃ h₄ =>
    have h := Parser.hex_value_lt h₁ h₂ h₃ h₄
    show hex_value h₁ h₂ h₃ h₄ < 0x110000
    omega

theorem high_lt {h : Nat} (hh : is_high h = true) : h < 0x110000 := by
  unfold is_high at hh
  have hbound := of_decide_eq_true hh
  omega

theorem settled_lt {run h u : Nat} (hh : run ≠ 0 → is_high h = true) (hu : u < 0x110000) :
    ∀ v ∈ settled run h u, v < 0x110000 := by
  intro v hv
  unfold settled at hv
  split at hv
  · rw [List.mem_singleton.mp hv]
    exact hu
  next hrun =>
  split at hv
  next hlow =>
    rw [List.mem_singleton.mp hv]
    exact (pair_plain (hh hrun) hlow).2.2
  · rcases List.mem_pair.mp hv with rfl | rfl
    · exact high_lt (hh hrun)
    · exact hu

theorem join_behind_lt (s : List Nat) (hs : ∀ u ∈ s, u < 0x110000) (run h : Nat)
    (hh : run ≠ 0 → is_high h = true) : ∀ u ∈ join_behind run h s, u < 0x110000 := by
  induction s generalizing run h with
  | nil =>
    intro v hv
    unfold join_behind at hv
    split at hv
    · cases hv
    next hrun =>
      rw [List.mem_singleton.mp hv]
      exact high_lt (hh hrun)
  | cons u s ih =>
    have hs' : ∀ v ∈ s, v < 0x110000 := fun v hv => hs v (List.mem_cons_of_mem _ hv)
    intro v hv
    cases hu : is_high u with
    | true =>
      rw [join_behind_high hu] at hv
      rcases List.mem_append.mp hv with hv | hv
      · split at hv
        · cases hv
        next hrun =>
          rw [List.mem_singleton.mp hv]
          exact high_lt (hh hrun)
      · exact ih hs' _ _ (fun _ => hu) v hv
    | false =>
      rw [join_behind_other hu] at hv
      rcases List.mem_append.mp hv with hv | hv
      · exact settled_lt hh (hs u List.mem_cons_self) v hv
      · exact ih hs' _ _ (fun hne => absurd rfl hne) v hv

theorem scan_behind_lt (s : List Nat) (hs : ∀ u ∈ s, u < 0x110000) (run h : Nat)
    (hh : run ≠ 0 → is_high h = true) : ∀ u ∈ scan_behind run h s, u < 0x110000 := by
  induction s generalizing run h with
  | nil =>
    intro v hv
    unfold scan_behind at hv
    split at hv
    · cases hv
    next hrun =>
      have hv' : v = h := by
        split at hv
        · exact List.mem_singleton.mp hv
        · exact List.mem_singleton.mp hv
      rw [hv']
      exact high_lt (hh hrun)
  | cons u s ih =>
    have hs' : ∀ v ∈ s, v < 0x110000 := fun v hv => hs v (List.mem_cons_of_mem _ hv)
    intro v hv
    cases hu : is_high u with
    | true =>
      rw [scan_behind_high hu] at hv
      rcases List.mem_append.mp hv with hv | hv
      · split at hv
        · cases hv
        next hrun =>
          rw [List.mem_singleton.mp hv]
          exact high_lt (hh hrun)
      · exact ih hs' _ _ (fun _ => hu) v hv
    | false =>
      -- behind an even run the last high surrogate comes out before the low one
      by_cases hl : is_low u = true ∧ run ≠ 0 ∧ run % 2 = 0
      · obtain ⟨hlow, hrun, heven⟩ := hl
        unfold scan_behind at hv
        rw [if_neg hrun, if_neg (by omega), Parser.scan_other hu] at hv
        rcases List.mem_cons.mp hv with rfl | hv
        · exact high_lt (hh hrun)
        rcases List.mem_cons.mp hv with rfl | hv
        · exact hs v List.mem_cons_self
        · exact ih hs' 0 h (fun hne => absurd rfl hne) v hv
      · rw [scan_behind_other hu hl] at hv
        rcases List.mem_append.mp hv with hv | hv
        · exact settled_lt hh (hs u List.mem_cons_self) v hv
        · exact ih hs' _ _ (fun hne => absurd rfl hne) v hv

/-- Every low surrogate of the string belongs to the high one before it, as the parser sees it. -/
def StringText.paired (s : StringText) : Prop := mispairs 0 (s.map StringChar.code) = false

instance (s : StringText) : Decidable s.paired := inferInstanceAs (Decidable (_ = false))

section Strings

variable (s : StringText)

theorem parsed_codes : Parser.parsed s =
    (scan_behind 0 0 (s.map StringChar.code)).flatMap utf8_append :=
  rfl

theorem denote_codes : s.denote = (join_behind 0 0 (s.map StringChar.code)).flatMap utf8_append :=
  rfl

theorem codes_lt : ∀ u ∈ s.map StringChar.code, u < 0x110000 := by
  intro u hu
  obtain ⟨c, _, rfl⟩ := List.mem_map.mp hu
  exact code_lt c

theorem parsed_of_paired (h : s.paired) : Parser.parsed s = s.denote := by
  rw [parsed_codes, denote_codes, scan_eq_join _ 0 0 h]

/-- A string that the parser takes apart comes out as none that any text denotes. -/
theorem parsed_not_denoted (h : ¬ s.paired) (s' : StringText) : Parser.parsed s ≠ s'.denote := by
  intro heq
  rw [parsed_codes, denote_codes] at heq
  have hcodes := flatMap_utf8_injective
    (scan_behind_lt _ (codes_lt s) 0 0 fun hne => absurd rfl hne)
    (join_behind_lt _ (codes_lt s') 0 0 fun hne => absurd rfl hne) heq
  have hmispairs : mispairs 0 (s.map StringChar.code) = true := by
    unfold StringText.paired at h
    simpa using h
  refine scan_mispaired _ 0 0 (fun hne => absurd rfl hne) hmispairs ?_
  rw [hcodes]
  exact (join_separate _).1

theorem parsed_eq_denote : Parser.parsed s = s.denote ↔ s.paired := by
  refine ⟨fun h => ?_, parsed_of_paired s⟩
  by_contra hno
  exact parsed_not_denoted s hno s h

end Strings

/-! ### Values -/

def Members.keys : Members → List StringText
  | .last _ key _ _ _ _ => [key]
  | .more _ key _ _ _ _ ms => key :: ms.keys

mutual

/-- So it is with every string of the text that is part of its value. -/
@[grind =] def Value.paired : Value → Prop
  | .string s => s.paired
  | .array es => es.paired
  | .object ms => (∀ key ∈ ms.keys, key.paired) ∧ ms.paired
  | _ => True

def Elements.paired : Elements → Prop
  | .last _ v _ => v.paired
  | .more _ v _ es => v.paired ∧ es.paired

/-- Of the members of a key only the last one counts. -/
@[grind =] def Members.paired : Members → Prop
  | .last _ _ _ _ v _ => v.paired
  | .more _ key _ _ v _ ms => (key.denote ∈ ms.keys.map StringText.denote ∨ v.paired) ∧ ms.paired

end

theorem mem_keep_last {α : Type} {es : List (Bytes × α)} {k : Bytes} :
    k ∈ (keep_last es).map Prod.fst ↔ k ∈ es.map Prod.fst := by
  induction es with
  | nil => exact Iff.rfl
  | cons e es ih =>
    rw [keep_last]
    split
    next hagain =>
      rw [ih, List.map_cons, List.mem_cons]
      exact ⟨.inr, fun h => h.elim (fun heq => heq ▸ hagain) id⟩
    · rw [List.map_cons, List.map_cons, List.mem_cons, List.mem_cons, ih]

section Eval

variable (str : StringText → Bytes) (strtod : Bytes → Double)

theorem Members.eval_keys : (ms : Members) → (ms.eval str strtod).map Prod.fst = ms.keys.map str
  | .last _ _ _ _ _ _ => rfl
  | .more _ key _ _ v _ ms => by
    rw [Members.eval, Members.keys, List.map_cons, List.map_cons, ms.eval_keys]

/-- Both readings make the same object of the members only where no key is taken apart. -/
theorem Members.keys_paired {ms : Members} (h : keep_last (ms.eval Parser.parsed strtod) =
    keep_last (ms.eval StringText.denote strtod)) : ∀ key ∈ ms.keys, key.paired := by
  intro key hkey
  by_contra hno
  have hmem : Parser.parsed key ∈ (keep_last (ms.eval Parser.parsed strtod)).map Prod.fst := by
    rw [mem_keep_last, Members.eval_keys]
    exact List.mem_map_of_mem hkey
  rw [h, mem_keep_last, Members.eval_keys] at hmem
  obtain ⟨key', _, heq⟩ := List.mem_map.mp hmem
  exact parsed_not_denoted key hno key' heq.symm

theorem keys_parsed {keys : List StringText} (h : ∀ key ∈ keys, key.paired) :
    keys.map Parser.parsed = keys.map StringText.denote :=
  List.map_congr_left fun key hkey => parsed_of_paired key (h key hkey)

mutual

theorem Value.eval_parsed : (v : Value) →
    (v.eval Parser.parsed strtod = v.eval StringText.denote strtod ↔ v.paired)
  | .null => iff_of_true rfl trivial
  | .bool _ => iff_of_true rfl trivial
  | .number _ => iff_of_true rfl trivial
  | .string s => by
    rw [Value.eval, Value.eval, Value.paired, JsonValue.string.injEq]
    exact parsed_eq_denote s
  | .empty_array _ => iff_of_true rfl trivial
  | .array es => by
    rw [Value.eval, Value.eval, Value.paired, JsonValue.array.injEq]
    exact es.eval_parsed
  | .empty_object _ => iff_of_true rfl trivial
  | .object ms => by
    rw [Value.eval, Value.eval, Value.paired, JsonValue.object.injEq]
    constructor
    · intro h
      have hkeys := Members.keys_paired strtod h
      exact ⟨hkeys, (ms.eval_parsed hkeys).mp h⟩
    · rintro ⟨hkeys, hms⟩
      exact (ms.eval_parsed hkeys).mpr hms

theorem Elements.eval_parsed : (es : Elements) →
    (es.eval Parser.parsed strtod = es.eval StringText.denote strtod ↔ es.paired)
  | .last _ v _ => by
    rw [Elements.eval, Elements.eval, Elements.paired, List.cons_eq_cons, v.eval_parsed]
    exact and_iff_left rfl
  | .more _ v _ es => by
    rw [Elements.eval, Elements.eval, Elements.paired, List.cons_eq_cons, v.eval_parsed, es.eval_parsed]

theorem Members.eval_parsed : (ms : Members) → (∀ key ∈ ms.keys, key.paired) →
    (keep_last (ms.eval Parser.parsed strtod) = keep_last (ms.eval StringText.denote strtod) ↔ ms.paired)
  | .last _ key _ _ v _, hkeys => by
    have hkey : Parser.parsed key = key.denote := parsed_of_paired key (hkeys key List.mem_cons_self)
    show [(Parser.parsed key, _)] = [(key.denote, _)] ↔ v.paired
    rw [hkey, ← v.eval_parsed]
    simp
  | .more _ key _ _ v _ ms, hkeys => by
    have hkey : Parser.parsed key = key.denote := parsed_of_paired key (hkeys key List.mem_cons_self)
    have hrest : ∀ key ∈ ms.keys, key.paired := fun k hk => hkeys k (List.mem_cons_of_mem _ hk)
    rw [Members.eval, Members.eval, Members.paired, keep_last, keep_last, Members.eval_keys,
      Members.eval_keys, keys_parsed hrest, hkey, ← ms.eval_parsed hrest]
    split
    next hagain => exact ⟨fun h => ⟨.inl hagain, h⟩, And.right⟩
    next hlast =>
      rw [List.cons_eq_cons, Prod.mk.injEq, v.eval_parsed]
      exact ⟨fun h => ⟨.inr h.1.2, h.2⟩,
        fun h => ⟨⟨rfl, h.1.resolve_left hlast⟩, h.2⟩⟩

end

end Eval

end JsonText

open JsonText

/-- Every text of the grammar within the depth limit is taken to its end, and comes out as the
    value that it denotes exactly where no pair of surrogates in it is taken apart. -/
theorem json_parse_denotes_iff (strtod : Bytes → Double) (t : Document)
    (h : t.value.nesting < kMaxDepth) :
    (∃ v, json_parse strtod t.render = .ok v) ∧
      (json_parse strtod t.render = .ok (t.denote strtod) ↔ t.value.paired) := by
  rw [json_parse_render strtod t h, Except.ok.injEq]
  exact ⟨⟨_, rfl⟩, Value.eval_parsed strtod t.value⟩

namespace JsonText

/-- `\ud800`. -/
def high_escape : StringChar := .unicode { digit := 13 } { digit := 8 } { digit := 0 } { digit := 0 }

/-- `\udc00`. -/
def low_escape : StringChar := .unicode { digit := 13 } { digit := 12 } { digit := 0 } { digit := 0 }

def no_ws : Ws := { s := [], all_ws := rfl }

/-- `["\ud800\udc00",1]`. -/
def pair_and_one : Document where
  before := no_ws
  value := .array (.more no_ws (.string [high_escape, low_escape]) no_ws
    (.last no_ws (.number { minus := false, int := .nonzero 0 [], frac := none, exp := none }) no_ws))
  after := no_ws

/-- `"\ud800\ud800\udc00"`. -/
def late_pair : Document where
  before := no_ws
  value := .string [high_escape, high_escape, low_escape]
  after := no_ws

end JsonText

theorem json_parse_denotes_pair_and_one :
    json_parse (fun _ => .finite 1) pair_and_one.render = .ok (pair_and_one.denote fun _ => .finite 1) :=
  (json_parse_denotes_iff (fun _ => .finite 1) pair_and_one (by decide)).2.mpr
    ⟨show mispairs 0 [0xD800, 0xDC00] = false by decide, trivial⟩

/-- The pair behind a lone high surrogate is lost: the parser returns three surrogates. -/
theorem json_parse_late_pair : ¬ ∀ (strtod : Bytes → Double) (t : Document),
    t.value.nesting < kMaxDepth → json_parse strtod t.render = .ok (t.denote strtod) := by
  intro hall
  have hdenote := hall (fun _ => .finite 0) late_pair (by decide)
  rw [json_parse_render _ _ (by decide), Except.ok.injEq] at hdenote
  have hstring : Parser.parsed [high_escape, high_escape, low_escape] =
      StringText.denote [high_escape, high_escape, low_escape] :=
    JsonValue.string.inj hdenote
  exact absurd hstring (by decide)

end CachedMoe
