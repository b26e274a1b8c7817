import CachedMoe.Text.Tokenizer

/-! # Splitting a text

    What the splits of the encoder keep. Every match of a trie is one of the contents inserted, so
    the segments of `split_on` read as the same code points as the text; and a pre-tokenizer pass
    only cuts its pieces. -/

namespace CachedMoe.Text

/-! ### The tries hold what was inserted -/

namespace Trie

/-- `path` gives each node the bytes that lead to it; a node's id is that of an entry with these
    bytes as its content. -/
structure Sound (t : Trie) (entries : List (Bytes × Nat)) (path : Nat → Bytes) : Prop where
  root : path 0 = [] ∧ 0 < t.nodes.length
  edge : ∀ n b m, t.edges.find (n, b) = some m →
    n < t.nodes.length ∧ m < t.nodes.length ∧ path m = path n ++ [b]
  token : ∀ n, t.nodes.getD n (-1) ≥ 0 → (path n, (t.nodes.getD n (-1)).toNat) ∈ entries

theorem sound_empty : Sound {} [] fun _ => [] where
  root := ⟨rfl, Nat.one_pos⟩
  edge n b m h := by simp at h
  token n h := by
    cases n with
    | zero => simp at h
    | succ n => simp at h

theorem Sound.mono {t : Trie} {entries entries' : List (Bytes × Nat)} {path : Nat → Bytes}
    (h : t.Sound entries path) (hsub : entries ⊆ entries') : t.Sound entries' path :=
  { h with token := fun n hn => hsub (h.token n hn) }

/-- One byte of `insert`: a node that is made is new as long as node numbers fit 32 bits. -/
theorem Sound.descend {t : Trie} {entries : List (Bytes × Nat)} {path : Nat → Bytes} {n : Nat}
    (h : t.Sound entries path) (hn : n < t.nodes.length) (hfits : t.nodes.length < 2 ^ 32)
    (b : UInt8) :
    ∃ path', (Trie.descend (t, n) b).1.Sound entries path' ∧
      (Trie.descend (t, n) b).2 < (Trie.descend (t, n) b).1.nodes.length ∧
      path' (Trie.descend (t, n) b).2 = path n ++ [b] ∧
      (Trie.descend (t, n) b).1.nodes.length ≤ t.nodes.length + 1 := by
  cases hfind : t.edges.find (n, b) with
  | some m =>
    have hstep : Trie.descend (t, n) b = (t, m) := by
      simp only [Trie.descend, hfind]
    obtain ⟨-, hm, hpath⟩ := h.edge n b m hfind
    rw [hstep]
    exact ⟨path, h, hm, hpath, Nat.le_succ _⟩
  | none =>
    have hstep : Trie.descend (t, n) b =
        ({ nodes := t.nodes ++ [-1], edges := t.edges.put (n, b) t.nodes.length },
          t.nodes.length) := by
      simp only [Trie.descend, hfind, Nat.mod_eq_of_lt hfits]
    rw [hstep]
    simp only [List.length_append, List.length_singleton]
    -- The new node is reached by `path n ++ [b]`; the others keep their paths.
    refine ⟨fun m => if m = t.nodes.length then path n ++ [b] else path m, ?_, Nat.lt_succ_self _,
      if_pos rfl, Nat.le_refl _⟩
    refine { root := ?_, edge := ?_, token := ?_ }
    · refine ⟨?_, by simp⟩
      rw [if_neg (Nat.ne_of_lt h.root.2)]
      exact h.root.1
    · intro n' b' m' hedge
      simp only [Table.find_put, List.length_append, List.length_singleton] at hedge ⊢
      split at hedge
      next heq =>
        cases heq
        cases hedge
        rw [if_pos rfl, if_neg (Nat.ne_of_lt hn)]
        exact ⟨by omega, by omega, rfl⟩
      next =>
        obtain ⟨hn', hm', hpath⟩ := h.edge n' b' m' hedge
        rw [if_neg (Nat.ne_of_lt hn'), if_neg (Nat.ne_of_lt hm')]
        exact ⟨by omega, by omega, hpath⟩
    · intro m hm
      rw [List.getD_eq_getElem?_getD] at hm ⊢
      rcases Nat.lt_or_ge m t.nodes.length with hlt | hge
      · rw [List.getElem?_append_left hlt, ← List.getD_eq_getElem?_getD] at hm ⊢
        rw [if_neg (Nat.ne_of_lt hlt)]
        exact h.token m hm
      · have hnew : (t.nodes ++ [-1])[m]?.getD (-1) = -1 := by
          rw [List.getElem?_append_right hge]
          cases hdiff : m - t.nodes.length with
          | zero => rfl
          | succ k => rfl
        rw [hnew] at hm
        exact absurd hm (by decide)

theorem Sound.descend_all {t : Trie} {entries : List (Bytes × Nat)} {path : Nat → Bytes} {n : Nat}
    (h : t.Sound entries path) (hn : n < t.nodes.length) (s : Bytes)
    (hfits : t.nodes.length + s.length ≤ 2 ^ 32) :
    ∃ path', (s.foldl Trie.descend (t, n)).1.Sound entries path' ∧
      (s.foldl Trie.descend (t, n)).2 < (s.foldl Trie.descend (t, n)).1.nodes.length ∧
      path' (s.foldl Trie.descend (t, n)).2 = path n ++ s ∧
      (s.foldl Trie.descend (t, n)).1.nodes.length ≤ t.nodes.length + s.length := by
  induction s generalizing t n path with
  | nil => exact ⟨path, h, hn, (List.append_nil _).symm, Nat.le_refl _⟩
  | cons b s ih =>
    rw [List.length_cons] at hfits
    obtain ⟨path₁, h₁, hn₁, hpath₁, hlen₁⟩ := h.descend hn (by omega) b
    obtain ⟨path₂, h₂, hn₂, hpath₂, hlen₂⟩ := ih h₁ hn₁ (by omega)
    refine ⟨path₂, h₂, hn₂, ?_, ?_⟩
    · rw [List.foldl_cons, hpath₂, hpath₁, List.append_assoc, List.singleton_append]
    · rw [List.foldl_cons, List.length_cons]
      exact Nat.le_trans hlen₂ (by omega)

theorem Sound.insert {t : Trie} {entries : List (Bytes × Nat)} {path : Nat → Bytes}
    (h : t.Sound entries path) (s : Bytes) {id : Nat} (hid : id < 2 ^ 32)
    (hfits : t.nodes.length + s.length ≤ 2 ^ 32) :
    ∃ path', (t.insert s id).Sound (entries ++ [(s, id)]) path' ∧
      (t.insert s id).nodes.length ≤ t.nodes.length + s.length := by
  obtain ⟨path', h', hn, hpath, hlen⟩ := h.descend_all h.root.2 s hfits
  have hs : path' (s.foldl Trie.descend (t, 0)).2 = s := by
    rw [hpath, h.root.1, List.nil_append]
  refine ⟨path', ?_, by simpa [Trie.insert] using hlen⟩
  refine { root := ?_, edge := ?_, token := ?_ }
  · exact ⟨h'.root.1, by simpa [Trie.insert] using h'.root.2⟩
  · intro n b m hedge
    simpa [Trie.insert] using h'.edge n b m hedge
  · intro m hm
    simp only [Trie.insert] at hm ⊢
    rw [List.getD_eq_getElem?_getD] at hm ⊢
    by_cases heq : (s.foldl Trie.descend (t, 0)).2 = m
    · subst heq
      rw [List.getElem?_set_self hn, Option.getD_some] at hm ⊢
      have hcast : to_int32 id = id := by
        unfold to_int32 at hm ⊢
        split
        · rfl
        next hbig =>
          rw [if_neg hbig] at hm
          omega
      rw [hcast, Int.toNat_natCast, hs]
      exact List.mem_append_right _ List.mem_cons_self
    · rw [List.getElem?_set_ne heq, ← List.getD_eq_getElem?_getD] at hm ⊢
      exact List.mem_append_left _ (h'.token m hm)

/-- The loop of `longest_at`, `p` being the bytes read so far: it returns what it had, or a longer
    match. -/
theorem Sound.longest_from {t : Trie} {entries : List (Bytes × Nat)} {path : Nat → Bytes}
    (h : t.Sound entries path) {n : Nat} {p : Bytes} (hp : path n = p) (best id : Nat) (s : Bytes) :
    t.longest_from n p.length best id s = (best, id) ∨
      ∃ k id', t.longest_from n p.length best id s = (p.length + (k + 1), id') ∧
        k + 1 ≤ s.length ∧ (p ++ s.take (k + 1), id') ∈ entries := by
  induction s generalizing n p best id with
  | nil => exact Or.inl rfl
  | cons b s ih =>
    simp only [Trie.longest_from]
    cases hfind : t.edges.find (n, b) with
    | none => exact Or.inl rfl
    | some m =>
      have hm : path m = p ++ [b] := hp ▸ (h.edge n b m hfind).2.2
      have hlen : (p ++ [b]).length = p.length + 1 := by simp
      simp only
      split
      next htok =>
        -- A token ends here: the rest of the loop keeps it or finds a longer one.
        have htoken := h.token m htok
        rw [hm] at htoken
        right
        rcases ih hm (p.length + 1) (t.nodes.getD m (-1)).toNat with hsame | ⟨k, id', hk, hle, hmem⟩
        · rw [hlen] at hsame
          exact ⟨0, _, hsame, by simp, by simpa using htoken⟩
        · rw [hlen] at hk
          refine ⟨k + 1, id', by rw [hk]; congr 1; omega, by simpa using hle, ?_⟩
          rw [List.take_succ_cons]
          simpa using hmem
      next =>
        rcases ih hm best id with hsame | ⟨k, id', hk, hle, hmem⟩
        · rw [hlen] at hsame
          exact Or.inl hsame
        · right
          rw [hlen] at hk
          refine ⟨k + 1, id', by rw [hk]; congr 1; omega, by simpa using hle, ?_⟩
          rw [List.take_succ_cons]
          simpa using hmem

theorem Sound.longest_at {t : Trie} {entries : List (Bytes × Nat)} {path : Nat → Bytes}
    (h : t.Sound entries path) {s : Bytes} (hpos : (t.longest_at s).1 ≠ 0) :
    (s.take (t.longest_at s).1, (t.longest_at s).2) ∈ entries := by
  have hloop := h.longest_from h.root.1 0 0 s
  unfold Trie.longest_at at hpos ⊢
  rcases hloop with hnone | ⟨k, id', hk, -, hmem⟩
  · rw [List.length_nil] at hnone
    rw [hnone] at hpos
    exact absurd rfl hpos
  · rw [List.length_nil] at hk
    rw [hk, Nat.zero_add]
    simpa using hmem

end Trie

/-! ### Segments -/

/-- A text that begins with the start of a character and ends between characters: what stands
    before and after it is read as if it were not there. -/
def Standalone (s : Bytes) : Prop := Whole s ∧ ∃ b t, s = b :: t ∧ starts_char b

theorem Standalone.code_points {s : Bytes} (h : Standalone s) (before after : Bytes) :
    Text.code_points (before ++ (s ++ after)) =
      Text.code_points before ++ (Text.code_points s ++ Text.code_points after) := by
  obtain ⟨hwhole, b, t, rfl, hb⟩ := h
  rw [List.cons_append, code_points_append_starts before hb, ← List.cons_append,
    hwhole.code_points_append]

/-- The code points of a segment. -/
def Segment.codes (g : Segment) : List Nat := code_points g.text

/-- The entries of a trie that is searched. -/
structure Splits (trie : Trie) (entries : List (Bytes × Nat)) : Prop where
  sound : ∃ path, trie.Sound entries path
  standalone : ∀ e ∈ entries, Standalone e.1

section Segments

variable {trie : Trie} {entries : List (Bytes × Nat)}

theorem codes_push_text (s : Bytes) : (push_text s).flatMap Segment.codes = code_points s := by
  unfold push_text
  split
  next h => rw [h]; rfl
  next => simp [Segment.codes]

theorem Splits.longest_at (h : Splits trie entries) {s : Bytes} (hpos : (trie.longest_at s).1 ≠ 0) :
    (s.take (trie.longest_at s).1, (trie.longest_at s).2) ∈ entries := by
  obtain ⟨path, hsound⟩ := h.sound
  exact hsound.longest_at hpos

theorem Splits.codes_split_segment (h : Splits trie entries) {fuel : Nat} {rest : Bytes}
    (hfuel : rest.length ≤ fuel) (last : Bytes) :
    (split_segment trie fuel last rest).flatMap Segment.codes = code_points (last ++ rest) := by
  induction fuel generalizing last rest with
  | zero =>
    have hrest : rest = [] := List.length_eq_zero_iff.mp (Nat.le_zero.mp hfuel)
    subst hrest
    rw [split_segment, codes_push_text, List.append_nil]
  | succ fuel ih =>
    cases rest with
    | nil => rw [split_segment, codes_push_text, List.append_nil]
    | cons b s =>
      rw [List.length_cons] at hfuel
      simp only [split_segment]
      split
      next =>
        rw [ih (by omega), List.append_assoc, List.singleton_append]
      next hpos =>
        have hentry := h.standalone _ (h.longest_at hpos)
        have hdrop : ((b :: s).drop (trie.longest_at (b :: s)).1).length ≤ fuel := by
          rw [List.length_drop, List.length_cons]
          omega
        rw [List.flatMap_append, codes_push_text, List.flatMap_cons, ih hdrop, List.nil_append]
        calc code_points last ++ (code_points ((b :: s).take (trie.longest_at (b :: s)).1) ++
              code_points ((b :: s).drop (trie.longest_at (b :: s)).1))
            = code_points (last ++ ((b :: s).take (trie.longest_at (b :: s)).1 ++
                (b :: s).drop (trie.longest_at (b :: s)).1)) :=
              (hentry.code_points last _).symm
          _ = code_points (last ++ b :: s) := by rw [List.take_append_drop]

theorem not_mem_push_text {s : Bytes} {g : Segment} {id : Nat} (hg : g ∈ push_text s) :
    g.id ≠ some id := by
  unfold push_text at hg
  split at hg
  · cases hg
  · rw [List.mem_singleton.mp hg]
    exact (Option.some_ne_none id).symm

theorem Splits.token_split_segment (h : Splits trie entries) {fuel : Nat} {last rest : Bytes}
    {g : Segment} {id : Nat} (hg : g ∈ split_segment trie fuel last rest) (hid : g.id = some id) :
    (g.text, id) ∈ entries := by
  induction fuel generalizing last rest with
  | zero => exact absurd hid (not_mem_push_text hg)
  | succ fuel ih =>
    cases rest with
    | nil => exact absurd hid (not_mem_push_text hg)
    | cons b s =>
      simp only [split_segment] at hg
      split at hg
      next => exact ih hg
      next hpos =>
        rcases List.mem_append.mp hg with hg | hg
        · exact absurd hid (not_mem_push_text hg)
        rcases List.mem_cons.mp hg with rfl | hg
        · cases hid
          exact h.longest_at hpos
        · exact ih hg

/-- `split_on` keeps the code points of the text. -/
theorem Splits.codes_split_on (h : Splits trie entries) (segs : List Segment) :
    (split_on trie segs).flatMap Segment.codes = segs.flatMap Segment.codes := by
  unfold split_on
  split
  · rfl
  rw [List.flatMap_assoc]
  apply List.flatMap_congr
  intro g hg
  split
  · simp
  · rw [h.codes_split_segment (Nat.le_refl _), List.nil_append]
    rfl

theorem Splits.token_split_on (h : Splits trie entries) {segs : List Segment} {g : Segment}
    {id : Nat} (hg : g ∈ split_on trie segs) (hid : g.id = some id) :
    g ∈ segs ∨ (g.text, id) ∈ entries := by
  unfold split_on at hg
  split at hg
  · exact Or.inl hg
  obtain ⟨g', hg', hmem⟩ := List.mem_flatMap.mp hg
  split at hmem
  · rw [List.mem_singleton.mp hmem]
    exact Or.inl hg'
  · exact Or.inr (h.token_split_segment hmem hid)

end Segments

/-! ### Pre-tokenizer passes -/

section Passes

variable {α : Type}

theorem flatten_isolate (step : List α → Nat) {fuel : Nat} {rest : List α}
    (hfuel : rest.length ≤ fuel) (last : List α) :
    (isolate step fuel last rest).flatten = last ++ rest := by
  have hlast (last : List α) : (if last = [] then [] else [last]).flatten = last := by
    split
    next h => rw [h]; rfl
    next => exact List.flatten_singleton
  induction fuel generalizing last rest with
  | zero =>
    have hrest : rest = [] := List.length_eq_zero_iff.mp (Nat.le_zero.mp hfuel)
    subst hrest
    rw [isolate, hlast, List.append_nil]
  | succ fuel ih =>
    cases rest with
    | nil => rw [isolate, hlast, List.append_nil]
    | cons c s =>
      rw [List.length_cons] at hfuel
      simp only [isolate]
      split
      next => rw [ih (by omega), List.append_assoc, List.singleton_append]
      next hpos =>
        have hdrop : ((c :: s).drop (step (c :: s))).length ≤ fuel := by
          rw [List.length_drop, List.length_cons]
          omega
        rw [List.flatten_append, hlast, List.flatten_cons, ih hdrop, List.nil_append,
          List.take_append_drop]

/-- A pass only cuts: whatever it matches, the pieces are still the same code points. -/
theorem flatten_split_isolated (step : List α → Nat) (pieces : List (List α)) :
    (split_isolated step pieces).flatten = pieces.flatten := by
  induction pieces with
  | nil => rfl
  | cons p pieces ih =>
    unfold split_isolated at ih ⊢
    rw [List.flatMap_cons, List.flatten_append, ih, flatten_isolate step (Nat.le_refl _),
      List.nil_append, List.flatten_cons]

theorem flatten_words (cls : Nat → Nat) (cp : List Nat) :
    (Impl.words cls cp).flatten = cp.take (cp.length % 2 ^ 32) := by
  unfold Impl.words
  simp only
  rw [flatten_split_isolated, flatten_split_isolated, flatten_split_isolated,
    List.flatten_singleton]

end Passes

end CachedMoe.Text
