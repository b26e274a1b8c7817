import CachedMoe.Text.NaiveBpe
import CachedMoe.Text.RoundTrip

/-! # The queue of `bpe` finds the naive merges

    `Tokenizer::bpe` keeps the candidates of all merges it has ever seen in a queue and tells the
    stale ones by the token they would make. Every pair that merges now is in the queue; a candidate
    that would make the token of the pair at its position is that pair's, because a pair that has
    grown since spells more than the token does. -/

namespace CachedMoe.Text

variable {vocab : Table Bytes Nat} {merges : Table (Nat × Nat) (Nat × Nat)} {word : Bytes}

/-! ### Popping -/

theorem M.before_asymm {a b : M} (h : a.before b = true) : b.before a = false := by
  unfold M.before at h ⊢
  split at h
  · next hne =>
    rw [if_pos (Ne.symm hne)]
    simp only [decide_eq_true_eq, decide_eq_false_iff_not] at h ⊢
    omega
  · next heq =>
    rw [not_not] at heq
    rw [if_neg (by rw [heq]; simp)]
    simp only [decide_eq_true_eq, decide_eq_false_iff_not] at h ⊢
    omega

/-- Nothing that stays comes before an element that comes before one that stays. -/
theorem M.not_before_trans {a b c : M} (hab : b.before a = false) (hbc : c.before b = false) :
    c.before a = false := by
  unfold M.before at *
  split at hab <;> split at hbc <;> split <;>
    simp only [decide_eq_false_iff_not] at * <;> omega

/-- The candidate popped comes from the queue, and none that stays comes before it. -/
theorem pop_spec {q rest : List M} {top : M} (h : pop q = some (top, rest)) :
    (∀ m, m ∈ q ↔ m = top ∨ m ∈ rest) ∧ ∀ m ∈ rest, m.before top = false := by
  induction q generalizing top rest with
  | nil => cases h
  | cons m q ih =>
    rw [pop] at h
    cases hpop : pop q with
    | none =>
      rw [hpop] at h
      cases h
      rcases pop_cases q with ⟨_, rfl⟩ | ⟨top, q', hsome, _⟩
      · exact ⟨fun m' => by simp, fun m' hm' => absurd hm' List.not_mem_nil⟩
      · rw [hpop] at hsome
        cases hsome
    | some found =>
      obtain ⟨top', rest'⟩ := found
      obtain ⟨hmem, hleast⟩ := ih hpop
      rw [hpop] at h
      dsimp only at h
      split at h
      next hbefore =>
        cases h
        refine ⟨fun m' => ?_, fun m' hm' => ?_⟩
        · rw [List.mem_cons, hmem, List.mem_cons]
          tauto
        · rcases List.mem_cons.mp hm' with rfl | hm'
          · exact M.before_asymm hbefore
          · exact hleast m' hm'
      next hbefore =>
        cases h
        refine ⟨fun m' => by rw [List.mem_cons, hmem, List.mem_cons], fun m' hm' => ?_⟩
        rcases List.mem_cons.mp hm' with rfl | hm'
        · simpa using hbefore
        · exact M.not_before_trans (by simpa using hbefore) (hleast m' hm')

/-! ### Positions -/

/-- Stretches of one list that end at the same position. -/
theorem prefix_eq_of_sizes {pre pre' post post' : List Block} (h : pre ++ post = pre' ++ post')
    (hsizes : sizes pre = sizes pre') : pre = pre' := by
  induction pre generalizing pre' with
  | nil =>
    cases pre' with
    | nil => rfl
    | cons b pre' =>
      rw [sizes_nil, sizes_cons, Block.size] at hsizes
      omega
  | cons b pre ih =>
    cases pre' with
    | nil =>
      rw [sizes_nil, sizes_cons, Block.size] at hsizes
      omega
    | cons b' pre' =>
      rw [List.cons_append, List.cons_append, List.cons.injEq] at h
      obtain ⟨rfl, h⟩ := h
      rw [sizes_cons, sizes_cons] at hsizes
      rw [ih h (by omega)]

/-- The one that has more blocks is longer. -/
theorem length_le_of_sizes {pre pre' post post' : List Block} (h : pre ++ post = pre' ++ post')
    (hsizes : sizes pre ≤ sizes pre') : pre.length ≤ pre'.length := by
  induction pre generalizing pre' with
  | nil => exact Nat.zero_le _
  | cons b pre ih =>
    cases pre' with
    | nil =>
      rw [sizes_nil, sizes_cons, Block.size] at hsizes
      omega
    | cons b' pre' =>
      rw [List.cons_append, List.cons_append, List.cons.injEq] at h
      obtain ⟨rfl, h⟩ := h
      rw [sizes_cons, sizes_cons] at hsizes
      exact Nat.succ_le_succ (ih h (by omega))

theorem neighbours_cases {pre post before after : List Block} {b x y : Block}
    (h : pre ++ b :: post = before ++ x :: y :: after) :
    (∃ mid, pre = before ++ x :: y :: mid) ∨ (pre = before ++ [x] ∧ y = b ∧ after = post) ∨
    (before = pre ∧ x = b ∧ post = y :: after) ∨
    ∃ mid, before = pre ++ b :: mid ∧ post = mid ++ x :: y :: after := by
  induction pre generalizing before with
  | nil =>
    cases before with
    | nil =>
      cases h
      exact .inr (.inr (.inl ⟨rfl, rfl, rfl⟩))
    | cons p before =>
      cases h
      exact .inr (.inr (.inr ⟨before, rfl, rfl⟩))
  | cons p pre ih =>
    cases before with
    | nil =>
      cases pre with
      | nil =>
        cases h
        exact .inr (.inl ⟨rfl, rfl, rfl⟩)
      | cons p' pre =>
        cases h
        exact .inl ⟨pre, rfl⟩
    | cons p' before =>
      rw [List.cons_append, List.cons_append, List.cons.injEq] at h
      obtain ⟨rfl, h⟩ := h
      rcases ih h with ⟨mid, rfl⟩ | ⟨rfl, hy, hafter⟩ | ⟨rfl, hx, hpost⟩ | ⟨mid, rfl, hpost⟩
      · exact .inl ⟨mid, rfl⟩
      · exact .inr (.inl ⟨rfl, hy, hafter⟩)
      · exact .inr (.inr (.inl ⟨rfl, hx, hpost⟩))
      · exact .inr (.inr (.inr ⟨mid, rfl, hpost⟩))

/-! ### What a merge queues -/

theorem mem_candidate {m : M} {pos a b : Nat} (hpos : pos < 2 ^ 32) :
    m ∈ candidate merges pos a b ↔
      m.pos = pos ∧ merges.find (a, b) = some (m.rank, m.id) := by
  unfold candidate
  obtain ⟨p, rank, id⟩ := m
  cases merges.find (a, b) with
  | none => simp
  | some found =>
    obtain ⟨rank', id'⟩ := found
    rw [List.mem_singleton, Nat.mod_eq_of_lt hpos, M.mk.injEq, Option.some.injEq, Prod.mk.injEq]
    exact ⟨fun h => ⟨h.1, h.2.1.symm, h.2.2.symm⟩, fun h => ⟨h.1, h.2.1.symm, h.2.2.symm⟩⟩

theorem length_array (bs : List Block) : (array bs).length = sizes bs := by
  suffices hlayout : ∀ prev pos, (layout prev pos bs).length = sizes bs from hlayout _ _
  induction bs with
  | nil => exact fun _ _ => rfl
  | cons b bs ih =>
    intro prev pos
    rw [layout, List.length_cons, List.length_append, ih, sizes_cons, Block.size]
    omega

@[simp]
theorem Block.head_c (b : Block) (prev next : Int) : (b.head prev next).c = b.c :=
  rfl

theorem mem_push_neighbours {m : M} {pre post : List Block} {b : Block}
    (hsize : sizes (pre ++ b :: post) < 2 ^ 32) :
    m ∈ push_neighbours merges (array (pre ++ b :: post)) (sizes pre) ↔
      (∃ before x, pre = before ++ [x] ∧ m.pos = sizes before ∧
        merges.find (x.c, b.c) = some (m.rank, m.id)) ∨
      ∃ y after, post = y :: after ∧ m.pos = sizes pre ∧
        merges.find (b.c, y.c) = some (m.rank, m.id) := by
  unfold push_neighbours
  simp only [array_getD, List.mem_append, List.mem_ite_nil_right, Block.head_c]
  dsimp only [Block.head]
  have htotal := sizes_append pre (b :: post)
  refine or_congr ?_ ?_
  · rcases List.eq_nil_or_concat' pre with rfl | ⟨before, x, rfl⟩
    · -- the first block has no neighbour on its left
      constructor
      · rintro ⟨hge, _⟩
        rw [last_before] at hge
        omega
      · rintro ⟨before, x, hnil, _⟩
        cases before <;> cases hnil
    · have hget := array_getD before x (b :: post)
      have hbefore := sizes_append before [x]
      rw [last_before_concat, Nat.zero_add, Int.toNat_natCast, List.append_assoc,
        List.singleton_append, hget, Block.head_c, mem_candidate (by omega)]
      constructor
      · rintro ⟨_, h⟩
        exact ⟨before, x, rfl, h⟩
      · rintro ⟨before', x', heq, h⟩
        obtain ⟨rfl, hx⟩ := List.append_inj' heq rfl
        obtain rfl : x = x' := List.singleton_inj.mp hx
        exact ⟨by omega, h⟩
  · cases post with
    | nil =>
      rw [next_of, if_pos rfl]
      constructor
      · rintro ⟨⟨hlt, _⟩, _⟩
        omega
      · rintro ⟨y, after, hnil, _⟩
        cases hnil
    | cons y after =>
      have hget := array_getD (pre ++ [b]) y after
      rw [sizes_append, sizes_cons, sizes_nil, Nat.add_zero, List.append_assoc,
        List.singleton_append] at hget
      rw [sizes_cons, sizes_cons, Block.size, Block.size] at htotal
      rw [next_of, if_neg (List.cons_ne_nil _ _), Int.toNat_natCast, hget, Block.head_c,
        length_array, htotal, mem_candidate (by omega), Block.size]
      constructor
      · rintro ⟨_, h⟩
        exact ⟨y, after, rfl, h⟩
      · rintro ⟨y', after', heq, h⟩
        cases heq
        exact ⟨by omega, h⟩

/-! ### Candidates -/

/-- A candidate makes the token of the pair it was queued for; a pair at its position that spells no
    more than that token is this pair. -/
def Tracked (vocab : Table Bytes Nat) (merges : Table (Nat × Nat) (Nat × Nat)) (bs : List Block)
    (m : M) : Prop :=
  ∃ s, (s, m.id) ∈ vocab ∧ ∀ pre x y post, bs = pre ++ x :: y :: post → m.pos = sizes pre →
    s.length ≤ (spell x.bytes ++ spell y.bytes).length ∧
      (s.length = (spell x.bytes ++ spell y.bytes).length →
        merges.find (x.c, y.c) = some (m.rank, m.id))

/-- The queue has every pair that merges. -/
def Complete (merges : Table (Nat × Nat) (Nat × Nat)) (bs : List Block) (q : List M) : Prop :=
  ∀ pre x y post rank id, bs = pre ++ x :: y :: post →
    merges.find (x.c, y.c) = some (rank, id) → { pos := sizes pre, rank, id } ∈ q

/-- The queue has every pair that merges, and can tell which of its candidates are stale. -/
structure Queued (vocab : Table Bytes Nat) (merges : Table (Nat × Nat) (Nat × Nat))
    (bs : List Block) (q : List M) : Prop where
  complete : Complete merges bs q
  tracked : ∀ m ∈ q, Tracked vocab merges bs m

theorem tracked_candidate (hm : Naming vocab merges) {bs : List Block}
    (hbs : ∀ b ∈ bs, b.Spelled vocab) {m : M} {pre post : List Block} {x y : Block}
    (heq : bs = pre ++ x :: y :: post) (hpos : m.pos = sizes pre)
    (hfind : merges.find (x.c, y.c) = some (m.rank, m.id)) : Tracked vocab merges bs m := by
  have hx : x.Spelled vocab := hbs x (by rw [heq]; simp)
  have hy : y.Spelled vocab := hbs y (by rw [heq]; simp)
  refine ⟨_, hm.merged hx hy hfind, fun pre' x' y' post' heq' hpos' => ?_⟩
  obtain rfl : pre = pre' := prefix_eq_of_sizes (heq.symm.trans heq') (hpos.symm.trans hpos')
  have htail := List.append_cancel_left (heq.symm.trans heq')
  cases htail
  exact ⟨le_rfl, fun _ => hfind⟩

theorem Block.Spelled.spell_pos {b : Block} (h : b.Spelled vocab) : 0 < (spell b.bytes).length := by
  have hsize := h.size_eq
  have hle := length_le_length_spell b.bytes
  rw [Block.size] at hsize
  omega

/-- The candidate that is valid is the one of the pair at its position. -/
theorem Queued.valid_rank {bs : List Block} {q : List M} (h : Queued vocab merges bs q)
    (hm : Naming vocab merges) (hbs : ∀ b ∈ bs, b.Spelled vocab) {top : M} (htop : top ∈ q)
    {pre post : List Block} {x y : Block} (hvalid : Valid merges bs top pre x y post) :
    merges.find (x.c, y.c) = some (top.rank, top.id) := by
  obtain ⟨heq, hpos, rank, hfind⟩ := hvalid
  obtain ⟨s, hs, hspan⟩ := h.tracked top htop
  have hx : x.Spelled vocab := hbs x (by rw [heq]; simp)
  have hy : y.Spelled vocab := hbs y (by rw [heq]; simp)
  refine (hspan pre x y post heq hpos).2 ?_
  rw [hm.consistent _ _ _ hs (hm.merged hx hy hfind)]

theorem Complete.stale {bs : List Block} {q rest : List M} {top : M} (h : Complete merges bs q)
    (hpop : pop q = some (top, rest))
    (hstale : ∀ pre x y post, ¬ Valid merges bs top pre x y post) : Complete merges bs rest := by
  intro pre x y post rank id heq hfind
  rcases ((pop_spec hpop).1 _).mp (h pre x y post rank id heq hfind) with htop | hrest
  · exact absurd ⟨heq, by rw [← htop], rank, by rw [hfind, ← htop]⟩ (hstale pre x y post)
  · exact hrest

theorem Queued.stale {bs : List Block} {q rest : List M} {top : M} (h : Queued vocab merges bs q)
    (hpop : pop q = some (top, rest))
    (hstale : ∀ pre x y post, ¬ Valid merges bs top pre x y post) :
    Queued vocab merges bs rest where
  complete := h.complete.stale hpop hstale
  tracked m hm := h.tracked m (((pop_spec hpop).1 m).mpr (.inr hm))

/-- Joining two neighbours changes the pairs they are in, and these are queued anew. -/
theorem Complete.join {pre post : List Block} {b₁ b₂ J : Block} {q rest : List M} {top : M}
    (h : Complete merges (pre ++ b₁ :: b₂ :: post) q)
    (hpop : pop q = some (top, rest)) (hpos : top.pos = sizes pre)
    (hsize : sizes (pre ++ J :: post) < 2 ^ 32) (hJ : J.size = b₁.size + b₂.size) :
    Complete merges (pre ++ J :: post)
      (rest ++ push_neighbours merges (array (pre ++ J :: post)) (sizes pre)) := by
  intro pre' x y post' rank id heq hfind
  -- a pair that was there before is queued, and is not the pair popped
  have hkeep : ∀ before after, pre ++ b₁ :: b₂ :: post = before ++ x :: y :: after →
      sizes before = sizes pre' → sizes pre' ≠ sizes pre → ⟨sizes pre', rank, id⟩ ∈ rest := by
    intro before after hcut hsame hne
    have hmem := h before x y after rank id hcut hfind
    rcases ((pop_spec hpop).1 _).mp hmem with htop | hrest
    · rw [← htop] at hpos
      exact absurd (hsame.symm.trans hpos) hne
    · rw [hsame] at hrest
      exact hrest
  rw [List.mem_append, mem_push_neighbours hsize]
  rcases neighbours_cases heq with ⟨mid, rfl⟩ | ⟨rfl, rfl, rfl⟩ | ⟨rfl, rfl, rfl⟩ |
    ⟨mid, rfl, rfl⟩
  · refine .inl (hkeep pre' (mid ++ b₁ :: b₂ :: post) (by simp) rfl ?_)
    rw [sizes_append, sizes_cons, Block.size]
    omega
  · exact .inr (.inl ⟨pre', x, rfl, rfl, hfind⟩)
  · exact .inr (.inr ⟨y, post', rfl, rfl, hfind⟩)
  · refine .inl (hkeep (pre ++ b₁ :: b₂ :: mid) post' (by simp) ?_ ?_)
    · rw [sizes_append, sizes_append, sizes_cons, sizes_cons, sizes_cons, hJ, Nat.add_assoc]
    · rw [sizes_append, sizes_cons, Block.size]
      omega

theorem Queued.join (hm : Naming vocab merges) {pre post : List Block} {b₁ b₂ J : Block}
    {q rest : List M} {top : M} (h : Queued vocab merges (pre ++ b₁ :: b₂ :: post) q)
    (hpop : pop q = some (top, rest)) (hpos : top.pos = sizes pre)
    (hsize : sizes (pre ++ J :: post) < 2 ^ 32) (hJ : J.size = b₁.size + b₂.size)
    (hbytes : J.bytes = b₁.bytes ++ b₂.bytes)
    (hold : ∀ b ∈ pre ++ b₁ :: b₂ :: post, b.Spelled vocab)
    (hnew : ∀ b ∈ pre ++ J :: post, b.Spelled vocab) :
    Queued vocab merges (pre ++ J :: post)
      (rest ++ push_neighbours merges (array (pre ++ J :: post)) (sizes pre)) where
  complete := h.complete.join hpop hpos hsize hJ
  tracked m hmem := by
    rcases List.mem_append.mp hmem with hmem | hmem
    · obtain ⟨s, hs, hspan⟩ := h.tracked m (((pop_spec hpop).1 m).mpr (.inr hmem))
      have hspell : spell J.bytes = spell b₁.bytes ++ spell b₂.bytes := by
        rw [hbytes, spell_append]
      refine ⟨s, hs, fun pre' x y post' heq hpos' => ?_⟩
      rcases neighbours_cases heq with ⟨mid, rfl⟩ | ⟨rfl, rfl, rfl⟩ | ⟨rfl, rfl, rfl⟩ |
        ⟨mid, rfl, rfl⟩
      · exact hspan pre' x y (mid ++ b₁ :: b₂ :: post) (by simp) hpos'
      · -- the pair has grown on its right
        have hle := (hspan pre' x b₁ (b₂ :: post') (by simp) hpos').1
        have hgrown := (hold b₂ (by simp)).spell_pos
        rw [hspell]
        simp only [List.length_append] at hle ⊢
        exact ⟨by omega, fun heq => by omega⟩
      · -- the token has grown, and the pair is a new one
        have hle := (hspan pre' b₁ b₂ (y :: post') rfl hpos').1
        have hgrown := (hold y (by simp)).spell_pos
        rw [hspell]
        simp only [List.length_append] at hle ⊢
        exact ⟨by omega, fun heq => by omega⟩
      · refine hspan (pre ++ b₁ :: b₂ :: mid) x y post' (by simp) ?_
        rw [hpos', sizes_append, sizes_append, sizes_cons, sizes_cons, sizes_cons, hJ,
          Nat.add_assoc]
    · rcases (mem_push_neighbours hsize).mp hmem with ⟨before, x, rfl, hmpos, hfind⟩ |
        ⟨y, after, rfl, hmpos, hfind⟩
      · exact tracked_candidate hm hnew (List.append_assoc _ _ _) hmpos hfind
      · exact tracked_candidate hm hnew rfl hmpos hfind

/-! ### The least pair -/

theorem pair_of_cut {bs pre post : List Block} {x y : Block} {rank id : Nat}
    (heq : bs = pre ++ x :: y :: post) (hfind : merges.find (x.c, y.c) = some (rank, id)) :
    Naive.Pair merges (bs.map Block.c) pre.length rank id := by
  refine ⟨x.c, y.c, ?_, ?_, hfind⟩
  · rw [heq, List.map_append, List.getElem?_append_right (by simp)]
    simp
  · rw [heq, List.map_append, List.getElem?_append_right (by simp)]
    simp

theorem cut_of_pair {bs : List Block} {i rank id : Nat}
    (h : Naive.Pair merges (bs.map Block.c) i rank id) :
    ∃ pre x y post, bs = pre ++ x :: y :: post ∧ pre.length = i ∧
      merges.find (x.c, y.c) = some (rank, id) := by
  obtain ⟨a, b, ha, hb, hfind⟩ := h
  rw [List.getElem?_map, Option.map_eq_some_iff] at ha hb
  obtain ⟨x, hx, rfl⟩ := ha
  obtain ⟨y, hy, rfl⟩ := hb
  obtain ⟨hi, hx⟩ := List.getElem?_eq_some_iff.mp hx
  obtain ⟨hi', hy⟩ := List.getElem?_eq_some_iff.mp hy
  refine ⟨bs.take i, x, y, bs.drop (i + 2), ?_, List.length_take_of_le (by omega), hfind⟩
  rw [← hx, ← hy, ← List.drop_eq_getElem_cons hi', ← List.drop_eq_getElem_cons hi,
    List.take_append_drop]

/-- The candidate popped, when it is valid, is the pair the reference merges. -/
theorem Queued.least {bs : List Block} {q rest : List M} {top : M}
    (h : Queued vocab merges bs q) (hpop : pop q = some (top, rest)) {pre post : List Block}
    {x y : Block} (heq : bs = pre ++ x :: y :: post) (hpos : top.pos = sizes pre)
    (hfind : merges.find (x.c, y.c) = some (top.rank, top.id)) :
    Naive.Least merges (bs.map Block.c) pre.length top.rank top.id := by
  refine ⟨pair_of_cut heq hfind, fun j rank' id' hpair => ?_⟩
  obtain ⟨pre', x', y', post', heq', rfl, hfind'⟩ := cut_of_pair hpair
  have hmem := h.complete pre' x' y' post' rank' id' heq' hfind'
  have hcut := heq.symm.trans heq'
  rcases ((pop_spec hpop).1 _).mp hmem with htop | hrest
  · rw [← htop] at hpos ⊢
    exact .inr ⟨rfl, length_le_of_sizes hcut (Nat.le_of_eq hpos.symm)⟩
  · have hbefore := (pop_spec hpop).2 _ hrest
    unfold M.before at hbefore
    split at hbefore
    next hother =>
      have hle := of_decide_eq_false hbefore
      dsimp only at hle hother
      exact .inl (by omega)
    next hsame =>
      have hle := of_decide_eq_false hbefore
      dsimp only at hle hsame
      exact .inr ⟨(not_not.mp hsame).symm, length_le_of_sizes hcut (by omega)⟩

/-! ### The loop -/

theorem Covers.sizes_eq {bs : List Block} (h : Covers vocab word bs) : sizes bs = word.length := by
  rw [← h.word_eq, List.length_flatMap]
  unfold sizes
  congr 1
  exact List.map_congr_left fun b hb => (h.spelled b hb).size_eq

theorem size_le_sizes {bs : List Block} {b : Block} (hb : b ∈ bs) : b.size ≤ sizes bs :=
  List.single_le_sum (fun _ _ => Nat.zero_le _) _ (List.mem_map_of_mem hb)

theorem live_of_short {bs : List Block} (hword : sizes bs < 2 ^ 32) :
    ∀ b ∈ bs, b.size % 2 ^ 32 ≠ 0 := by
  intro b hb
  have hle := size_le_sizes hb
  rw [Nat.mod_eq_of_lt (by omega), Block.size]
  omega

/-- The queue drained, no two neighbours merge any more, whatever their tokens spell. -/
theorem bpe_loop_complete {fuel : Nat} {bs : List Block} {q : List M}
    (hdead : ∀ b ∈ bs, ∀ s ∈ b.dead, s.len = 0) (hword : sizes bs < 2 ^ 32)
    (hq : Complete merges bs q) (hfuel : q.length + 2 * bs.length ≤ fuel) :
    ∃ bs', bpe_loop merges fuel (array bs) q = array bs' ∧
      (∀ b ∈ bs', ∀ s ∈ b.dead, s.len = 0) ∧ sizes bs' < 2 ^ 32 ∧ Complete merges bs' [] := by
  induction fuel generalizing bs q with
  | zero =>
    obtain rfl : q = [] := List.length_eq_zero_iff.mp (by omega)
    exact ⟨bs, rfl, hdead, hword, hq⟩
  | succ fuel ih =>
    rw [bpe_loop]
    rcases pop_cases q with ⟨hpop, rfl⟩ | ⟨top, rest, hpop, hlen⟩
    · exact ⟨bs, rfl, hdead, hword, hq⟩
    rw [hpop]
    dsimp only
    rcases bpe_step_cases hdead (live_of_short hword) rest top with ⟨hstay, hstale⟩ |
      ⟨pre, x, y, post, dead, ⟨rfl, hpos, -⟩, hzero, hstep⟩
    · rw [hstay]
      dsimp only
      exact ih hdead hword (hq.stale hpop hstale) (by omega)
    · have hsize := Block.size_join x y top.id dead
      have hsame : sizes (pre ++ x.join y top.id dead :: post) = sizes (pre ++ x :: y :: post) := by
        rw [sizes_append, sizes_append, sizes_cons, sizes_cons, sizes_cons, hsize, Nat.add_assoc]
      have htwo := length_push_neighbours_le merges (array (pre ++ x.join y top.id dead :: post))
        (sizes pre)
      rw [hstep]
      refine ih ?_ (hsame ▸ hword) (hq.join hpop hpos (hsame ▸ hword) hsize) ?_
      · -- what the joined block has dead was dead, or is the symbol merged just now
        intro b hb s hs
        rcases List.mem_append.mp hb with hb | hb
        · exact hdead b (List.mem_append_left _ hb) s hs
        rcases List.mem_cons.mp hb with rfl | hb
        · rcases List.mem_append.mp hs with hs | hs
          · exact hdead x (by simp) s hs
          rcases List.mem_cons.mp hs with rfl | hs
          · exact hzero
          · exact hdead y (by simp) s hs
        · exact hdead b (by simp [hb]) s hs
      · simp only [List.length_append, List.length_cons] at hfuel htwo ⊢
        omega

/-- The queue drained, the blocks are the tokens the reference ends with. -/
theorem bpe_loop_naive (hm : Naming vocab merges) (hword : word.length < 2 ^ 32) {fuel : Nat}
    {bs : List Block} {q : List M} (h : Covers vocab word bs) (hq : Queued vocab merges bs q)
    (hfuel : q.length + 2 * bs.length ≤ fuel) :
    ∃ bs', bpe_loop merges fuel (array bs) q = array bs' ∧ Covers vocab word bs' ∧
      bs'.map Block.c = Naive.merge_all merges (bs.map Block.c) := by
  -- every pair of the reference would be in the queue
  have hdone : ∀ {bs : List Block}, Queued vocab merges bs [] →
      bs.map Block.c = Naive.merge_all merges (bs.map Block.c) := by
    intro bs hq
    refine (Naive.merge_all_stuck fun i rank id hpair => ?_).symm
    obtain ⟨pre, x, y, post, heq, -, hfind⟩ := cut_of_pair hpair
    exact absurd (hq.complete pre x y post rank id heq hfind) List.not_mem_nil
  induction fuel generalizing bs q with
  | zero =>
    obtain rfl : q = [] := List.length_eq_zero_iff.mp (by omega)
    exact ⟨bs, rfl, h, hdone hq⟩
  | succ fuel ih =>
    rw [bpe_loop]
    rcases pop_cases q with ⟨hpop, rfl⟩ | ⟨top, rest, hpop, hlen⟩
    · exact ⟨bs, rfl, h, hdone hq⟩
    rw [hpop]
    dsimp only
    rcases bpe_step_cases h.dead_len (live_of_short (h.sizes_eq ▸ hword)) rest top with ⟨hstay, hstale⟩ |
      ⟨pre, x, y, post, dead, hvalid, hdead, hstep⟩
    · rw [hstay]
      dsimp only
      exact ih h (hq.stale hpop hstale) (by omega)
    -- a valid top is the reference's next merge: the least pair of the word
    · have htop : top ∈ q := ((pop_spec hpop).1 top).mpr (.inl rfl)
      have hfind := hq.valid_rank hm h.spelled htop hvalid
      obtain ⟨rfl, hpos, -⟩ := hvalid
      have hjoin := h.join hm hfind hdead
      have hsizes := hjoin.sizes_eq
      have htwo := length_push_neighbours_le merges (array (pre ++ x.join y top.id dead :: post))
        (sizes pre)
      have hleast := hq.least hpop rfl hpos hfind
      have hsize := Block.size_join x y top.id dead
      have hqueued := hq.join hm hpop hpos (by omega) hsize rfl h.spelled hjoin.spelled
      rw [hstep]
      dsimp only
      obtain ⟨bs', hloop, hcovers, hnaive⟩ := ih hjoin hqueued (by
        simp only [List.length_append, List.length_cons] at hfuel htwo ⊢
        omega)
      have hmerge := Naive.merge_pair_at_append (pre.map Block.c) x.c y.c top.id (post.map Block.c)
      rw [List.length_map] at hmerge
      refine ⟨bs', hloop, hcovers, ?_⟩
      rw [hnaive, Naive.merge_all_step hleast]
      simp only [List.map_append, List.map_cons]
      rw [hmerge]
      rfl

/-! ### A word -/

section Word

variable {byte_id : List Nat}

/-- Blocks of one byte each. -/
theorem sizes_unit {bs : List Block} (h : ∀ b ∈ bs, b.size = 1) : sizes bs = bs.length := by
  induction bs with
  | nil => rfl
  | cons b bs ih =>
    rw [sizes_cons, h b List.mem_cons_self, ih fun b' hb' => h b' (List.mem_cons_of_mem b hb'),
      List.length_cons, Nat.add_comm]

theorem cut_at {bs : List Block} {i : Nat} (hi : i + 1 < bs.length) :
    ∃ pre x y post, bs = pre ++ x :: y :: post ∧ pre.length = i := by
  refine ⟨bs.take i, bs[i], bs[i + 1], bs.drop (i + 2), ?_, List.length_take_of_le (by omega)⟩
  rw [← List.drop_eq_getElem_cons hi, ← List.drop_eq_getElem_cons (by omega),
    List.take_append_drop]

theorem mem_candidate_unit {m : M} {pre post : List Block} {x y : Block}
    (hunit : ∀ b ∈ pre ++ x :: y :: post, b.size = 1) (hpos : sizes pre < 2 ^ 32) :
    m ∈ candidate merges (sizes pre) ((array (pre ++ x :: y :: post)).getD (sizes pre) default).c
        ((array (pre ++ x :: y :: post)).getD (sizes pre + 1) default).c ↔
      m.pos = sizes pre ∧ merges.find (x.c, y.c) = some (m.rank, m.id) := by
  have hx : x.size = 1 := hunit x (by simp)
  have hright := array_getD (pre ++ [x]) y post
  rw [sizes_append, sizes_cons, sizes_nil, Nat.add_zero, hx, List.append_assoc,
    List.singleton_append] at hright
  rw [array_getD, hright]
  exact mem_candidate hpos

theorem sizes_unit_cut {bs pre post : List Block} {x y : Block} (hunit : ∀ b ∈ bs, b.size = 1)
    (heq : bs = pre ++ x :: y :: post) : sizes pre = pre.length ∧ pre.length + 1 < bs.length := by
  subst heq
  exact ⟨sizes_unit fun b hb => hunit b (List.mem_append_left _ hb), by simp⟩

theorem mem_initial_queue {bs : List Block} (hunit : ∀ b ∈ bs, b.size = 1) (m : M) :
    m ∈ initial_queue merges (array bs) ↔ ∃ i, i + 1 < bs.length ∧
      m ∈ candidate merges i ((array bs).getD i default).c ((array bs).getD (i + 1) default).c := by
  unfold initial_queue
  rw [length_array, sizes_unit hunit, List.mem_flatMap]
  refine exists_congr fun i => and_congr_left fun _ => ?_
  rw [List.mem_range]
  omega

/-- The pairs of the word are queued before the first merge. -/
theorem complete_initial {bs : List Block} (hunit : ∀ b ∈ bs, b.size = 1)
    (hword : bs.length < 2 ^ 32) : Complete merges bs (initial_queue merges (array bs)) := by
  intro pre x y post rank id heq hfind
  obtain ⟨hsizes, hlt⟩ := sizes_unit_cut hunit heq
  refine (mem_initial_queue hunit _).mpr ⟨pre.length, hlt, ?_⟩
  rw [← hsizes, heq]
  rw [heq] at hunit
  exact (mem_candidate_unit hunit (by omega)).mpr ⟨rfl, hfind⟩

theorem queued_initial (hm : Naming vocab merges) {bs : List Block} (h : Covers vocab word bs)
    (hunit : ∀ b ∈ bs, b.size = 1) (hword : bs.length < 2 ^ 32) :
    Queued vocab merges bs (initial_queue merges (array bs)) := by
  refine ⟨complete_initial hunit hword, fun m hm' => ?_⟩
  obtain ⟨i, hi, hcand⟩ := (mem_initial_queue hunit m).mp hm'
  obtain ⟨pre, x, y, post, heq, rfl⟩ := cut_at hi
  obtain ⟨hsizes, -⟩ := sizes_unit_cut hunit heq
  rw [← hsizes, heq] at hcand
  rw [heq] at hunit
  obtain ⟨hpos, hfind⟩ := (mem_candidate_unit hunit (by omega)).mp hcand
  exact tracked_candidate hm h.spelled heq hpos hfind

theorem byte_block_unit (byte_id : List Nat) (word : Bytes) :
    ∀ b ∈ word.map (byte_block byte_id), b.size = 1 := by
  intro b hb
  obtain ⟨byte, -, rfl⟩ := List.mem_map.mp hb
  rfl

/-- The loop of `bpe` has turns enough for its queue. -/
theorem initial_fuel (byte_id : List Nat) (word : Bytes) :
    (initial_queue merges (array (word.map (byte_block byte_id)))).length +
      2 * (word.map (byte_block byte_id)).length ≤ 3 * word.length := by
  have hqueue := length_initial_queue_le merges (array (word.map (byte_block byte_id)))
  rw [length_array, sizes_unit (byte_block_unit byte_id word), List.length_map] at hqueue
  rw [List.length_map]
  omega

theorem map_byte_block (byte_id : List Nat) (word : Bytes) :
    (word.map (byte_block byte_id)).map Block.c = word.map fun b => byte_id.getD b.toNat 0 := by
  rw [List.map_map]
  rfl

/-- The queue finds the merges of the reference. -/
theorem bpe_naive {im : Impl} (hm : Naming im.vocab im.merges)
    (hbytes : Bytewise im.vocab im.byte_id) (hword : word.length < 2 ^ 32) :
    im.bpe word = Naive.bpe im word := by
  have hstuck : ∀ l : List Nat, l.length ≤ 1 → Naive.merge_all im.merges l = l := fun l hl =>
    Naive.merge_all_stuck fun _ _ _ => Naive.pair_short hl
  unfold Impl.bpe Naive.bpe
  split
  · exact (hstuck [] (Nat.zero_le 1)).symm
  next b => exact (hstuck [im.byte_id.getD b.toNat 0] (Nat.le_refl 1)).symm
  · dsimp only
    have hinit := hbytes.covers word
    have hqueued := queued_initial hm hinit (byte_block_unit im.byte_id word)
      (by rwa [List.length_map])
    rw [initial_syms_eq]
    obtain ⟨bs, hloop, hcovers, hnaive⟩ := bpe_loop_naive hm hword hinit hqueued
      (initial_fuel im.byte_id word)
    rw [hloop]
    refine (live_layout hcovers.dead_len (live_of_short (hcovers.sizes_eq ▸ hword)) _ _).trans ?_
    rw [hnaive, map_byte_block]

end Word

/-- What every loaded tokenizer has, whatever its added tokens are. -/
theorem naming_of_load_impl {path : Bytes} {doc : JsonValue} {im : Impl}
    (h : load_impl path doc = .ok im) (hids : Consistent im.vocab) :
    Naming im.vocab im.merges ∧ Bytewise im.vocab im.byte_id := by
  unfold load_impl at h
  obtain ⟨model, -, h⟩ := bind_eq_ok h
  obtain ⟨-, -, h⟩ := bind_eq_ok h
  obtain ⟨-, -, h⟩ := bind_eq_ok h
  obtain ⟨vobj, -, h⟩ := bind_eq_ok h
  obtain ⟨⟨vocab, max_id⟩, -, h⟩ := bind_eq_ok h
  obtain ⟨aarr, -, h⟩ := bind_eq_ok h
  obtain ⟨strings, -, h⟩ := bind_eq_ok h
  obtain ⟨st, -, h⟩ := bind_eq_ok h
  obtain ⟨byte_id, hbyte, h⟩ := bind_eq_ok h
  obtain ⟨marr, -, h⟩ := bind_eq_ok h
  obtain ⟨merges, hmerges, h⟩ := bind_eq_ok h
  cases h
  have hnone : Joins vocab [] := fun a b rank id hfind => by simp at hfind
  refine ⟨⟨fun s s' id hs hs' => hids (s, id) hs (s', id) hs' rfl, ?_⟩, bytewise_of_read hbyte⟩
  exact hnone.read_merges hmerges

/-! ### A file with merges -/

section MergeFile

def merge_model (es : List (Bytes × Nat)) (ms : List JsonValue) : JsonValue :=
  .object [(utf8 "type", .string (utf8 "BPE")), (utf8 "dropout", .null),
    (utf8 "vocab", .object ((byte_vocab ++ es).map fun e => (e.1, number e.2))),
    (utf8 "merges", .array ms)]

def merge_file (es : List (Bytes × Nat)) (ms : List JsonValue) : JsonValue :=
  .object [(utf8 "model", merge_model es ms),
    (utf8 "pre_tokenizer", .object
      [(utf8 "pretokenizers", .array (kWant.map split_step ++ [byte_level]))]),
    (utf8 "added_tokens", .array [])]

/-- The file loads, with the bytes as the tokens of the bytes. -/
theorem load_merge_file {es : List (Bytes × Nat)} {ms : List JsonValue} {n : Nat}
    {merges : Table (Nat × Nat) (Nat × Nat)} (hnodup : (Table.keys (byte_vocab ++ es)).Nodup)
    (hes : ∀ e ∈ es, e.2 < n) (hmax : es.foldl (fun m e => max m e.2) 255 + 1 = n)
    (hfits : 256 ≤ n ∧ n ≤ 512) (hmerges : read_merges (byte_vocab ++ es) 0 ms [] = .ok merges) :
    ∃ im, load_impl [] (merge_file es ms) = .ok im ∧ im.vocab = byte_vocab ++ es ∧
      im.merges = merges ∧ im.byte_id = List.range 256 := by
  have hid : ∀ e ∈ byte_vocab ++ es, e.2 < n := by
    intro e he
    rcases List.mem_append.mp he with he | he
    · exact Nat.lt_of_lt_of_le (mem_byte_vocab he).1 hfits.1
    · exact hes e he
  have hread : read_vocab ((byte_vocab ++ es).map fun e => (e.1, number e.2)) [] 0 =
      .ok (byte_vocab ++ es, n - 1) := by
    have hbytes : byte_vocab.foldl (fun m e => max m e.2) 0 = 255 := by decide +kernel
    have hstart : (Table.keys ([] ++ (byte_vocab ++ es))).Nodup := hnodup
    rw [read_vocab_of_nodup 0 hstart fun e he => Nat.lt_of_lt_of_le (hid e he) hfits.2,
      List.foldl_append, hbytes, ← hmax, Nat.add_sub_cancel]
    rfl
  have hsize : (n - 1 + 1) % 2 ^ 32 = n := by
    rw [Nat.sub_add_cancel (by omega), Nat.mod_eq_of_lt (by omega)]
  have hwrite : ∀ e ∈ byte_vocab ++ es, e.2 < (List.replicate n ([] : Bytes)).length := by
    intro e he
    rw [List.length_replicate]
    exact hid e he
  obtain ⟨strings, hstrings, -⟩ := write_vocab_ok
    (s := { str := List.replicate n [], flags := List.replicate n {} }) hwrite
  have hbyte := read_byte_ids_ok hnodup fun b hb =>
    List.mem_append_left es (byte_mem_byte_vocab hb)
  refine ⟨?_, ?_, ?_, ?_, ?_⟩
  · exact {
      vocab_size := n, str := strings.str, bytes := fill_bytes strings, flags := strings.flags,
      vocab := byte_vocab ++ es, added := [], merges, byte_id := List.range 256, raw_trie := {},
      norm_trie := {}, absent := fill_bytes_absent strings }
  -- the parts of the loader, in its order
  · unfold load_impl
    have hmodel : check_model [] (merge_file es ms) = .ok (merge_model es ms) := rfl
    have hpre : check_pre_tokenizer [] (merge_file es ms) = .ok () := rfl
    have hnorm : check_normalizer [] (merge_file es ms) = .ok () := rfl
    have hvobj : Load.of (((merge_model es ms).at_key (utf8 "vocab")).bind JsonValue.as_object) =
        .ok ((byte_vocab ++ es).map fun e => (e.1, number e.2)) := rfl
    have haarr : Load.of (((merge_file es ms).at_key (utf8 "added_tokens")).bind
        JsonValue.as_array) = .ok [] := rfl
    have hmarr : Load.of (((merge_model es ms).at_key (utf8 "merges")).bind JsonValue.as_array) =
        .ok ms := rfl
    have hadd : add_tokens [] { strings } = .ok { strings } := rfl
    refine bind_ok hmodel (bind_ok hpre (bind_ok hnorm (bind_ok hvobj (bind_ok hread
      (bind_ok haarr ?_)))))
    simp only [List.foldl_nil, hsize]
    exact bind_ok hstrings (bind_ok hadd (bind_ok hbyte (bind_ok hmarr (bind_ok hmerges rfl))))
  · rfl
  · rfl
  · dsimp only

theorem nodup_merge_file {es : List (Bytes × Nat)} (hes : (Table.keys es).Nodup)
    (hnew : ∀ k ∈ Table.keys es, ∀ b < 256, utf8_append (to_char b) ≠ k) :
    (Table.keys (byte_vocab ++ es)).Nodup := by
  have hkeys : Table.keys (byte_vocab ++ es) = Table.keys byte_vocab ++ Table.keys es :=
    List.map_append
  rw [hkeys]
  refine List.nodup_append.mpr ⟨nodup_byte_vocab, hes, fun k hk k' hk' => ?_⟩
  obtain ⟨e, he, rfl⟩ := List.mem_map.mp hk
  rw [(mem_byte_vocab he).2]
  exact hnew k' hk' e.2 (mem_byte_vocab he).1

end MergeFile

/-- Where an id names one string, a loaded tokenizer's `bpe` is naive BPE. -/
theorem bpe_merges_naively {path : Bytes} {doc : JsonValue} {im : Impl}
    (h : load_impl path doc = .ok im) (hids : Consistent im.vocab) {word : Bytes}
    (hword : word.length < 2 ^ 32) : im.bpe word = Naive.bpe im word :=
  have hnaming := naming_of_load_impl h hids
  bpe_naive hnaming.1 hnaming.2 hword

/-- `ab` is a token, and every other token a byte. -/
theorem bpe_merges_naively_ab : ∃ im,
    load_impl [] (merge_file [(utf8 "ab", 256)] [.string (utf8 "a b")]) = .ok im ∧
      im.bpe (utf8 "cab") = Naive.bpe im (utf8 "cab") := by
  have hmerges : read_merges (byte_vocab ++ [(utf8 "ab", 256)]) 0 [.string (utf8 "a b")] [] =
      .ok [((97, 98), (0, 256))] := by
    decide +kernel
  obtain ⟨im, hload, hvocab, -, -⟩ := load_merge_file
    (nodup_merge_file (by decide) (by decide +kernel)) (by decide) rfl (by decide) hmerges
  have hids : Consistent im.vocab := by
    rw [hvocab]
    intro e he e' he' hid
    have hname : ∀ e ∈ byte_vocab ++ [(utf8 "ab", 256)],
        e.1 = if e.2 < 256 then utf8_append (to_char e.2) else utf8 "ab" := by
      intro e he
      rcases List.mem_append.mp he with he | he
      · rw [if_pos (mem_byte_vocab he).1]
        exact (mem_byte_vocab he).2
      · rw [List.mem_singleton.mp he]
        rfl
    rw [hname e he, hname e' he', hid]
  exact ⟨im, hload, bpe_merges_naively hload hids (by decide)⟩

/-- No two neighbours are left that merge, in any tokenizer and any word of 32-bit length. -/
theorem bpe_fully_merged (im : Impl) {word : Bytes} (hword : word.length < 2 ^ 32)
    (i rank id : Nat) : ¬ Naive.Pair im.merges (im.bpe word) i rank id := by
  unfold Impl.bpe
  split
  · exact Naive.pair_short (Nat.zero_le 1)
  · exact Naive.pair_short (Nat.le_refl 1)
  · dsimp only
    have hunit := byte_block_unit im.byte_id word
    have hlen : (word.map (byte_block im.byte_id)).length < 2 ^ 32 := by rwa [List.length_map]
    have hnone : ∀ b ∈ word.map (byte_block im.byte_id), ∀ s ∈ b.dead, s.len = 0 := by
      intro b hb
      obtain ⟨byte, -, rfl⟩ := List.mem_map.mp hb
      exact nofun
    obtain ⟨bs, hloop, hdead, hsizes, hdone⟩ := bpe_loop_complete hnone
      (by rwa [sizes_unit hunit]) (complete_initial hunit hlen) (initial_fuel im.byte_id word)
    rw [initial_syms_eq, hloop]
    intro hpair
    have hlive := live_layout hdead (live_of_short hsizes) (-1) 0
    rw [show array bs = layout (-1) 0 bs from rfl, hlive] at hpair
    obtain ⟨pre, x, y, post, heq, -, hfind⟩ := cut_of_pair hpair
    exact List.not_mem_nil (hdone pre x y post rank id heq hfind)

/-- A file that merges `a` with `b`, and a word that has them side by side twice. -/
theorem bpe_fully_merged_ab : ∃ im,
    load_impl [] (merge_file [(utf8 "ab", 256)] [.string (utf8 "a b")]) = .ok im ∧
      ∀ i rank id, ¬ Naive.Pair im.merges (im.bpe (utf8 "cabab")) i rank id := by
  have hmerges : read_merges (byte_vocab ++ [(utf8 "ab", 256)]) 0 [.string (utf8 "a b")] [] =
      .ok [((97, 98), (0, 256))] := by
    decide +kernel
  obtain ⟨im, hload, -⟩ := load_merge_file
    (nodup_merge_file (by decide) (by decide +kernel)) (by decide) rfl (by decide) hmerges
  exact ⟨im, hload, bpe_fully_merged im (by decide)⟩

/-- `abc` has the id of `ab`: the candidate that was queued to make `abc` of `a` and `bc` makes
    `ab` of `a` and `b` instead. -/
theorem shared_id_not_naive : ∃ im,
    load_impl [] (merge_file
        [(utf8 "ab", 256), (utf8 "bc", 257), (utf8 "abc", 256), (utf8 "bcd", 258)]
        [.string (utf8 "b c"), .string (utf8 "a b"), .string (utf8 "bc d"),
          .string (utf8 "a bc")]) = .ok im ∧
      im.bpe (utf8 "abcd") ≠ Naive.bpe im (utf8 "abcd") := by
  have hmerges : read_merges (byte_vocab ++
        [(utf8 "ab", 256), (utf8 "bc", 257), (utf8 "abc", 256), (utf8 "bcd", 258)]) 0
      [.string (utf8 "b c"), .string (utf8 "a b"), .string (utf8 "bc d"), .string (utf8 "a bc")]
      [] = .ok [((98, 99), (0, 257)), ((97, 98), (1, 256)), ((257, 100), (2, 258)),
        ((97, 257), (3, 256))] := by
    decide +kernel
  obtain ⟨im, hload, -, hms, hbytes⟩ := load_merge_file
    (nodup_merge_file (by decide) (by decide +kernel)) (by decide) rfl (by decide) hmerges
  refine ⟨im, hload, ?_⟩
  unfold Impl.bpe Naive.bpe
  rw [hms, hbytes]
  decide

end CachedMoe.Text
