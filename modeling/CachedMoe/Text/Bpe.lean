import CachedMoe.Text.Alphabet
import Mathlib.Algebra.Order.BigOperators.Group.List

/-! # BPE keeps the word

    The symbols of `Tokenizer::bpe` are a list of blocks laid out in an array: a block's first
    symbol is live and holds its token, the others were merged into it. A turn of the loop leaves
    the blocks as they are or joins two neighbours, and the tokens always spell the word. -/

namespace CachedMoe.Text

/-! ### Blocks -/

/-- A token of the word, the bytes it covers, and the symbols merged into its first one. -/
structure Block where
  c : Nat
  bytes : Bytes
  dead : List Sym

namespace Block

def size (b : Block) : Nat := b.dead.length + 1

/-- The live symbol of a block at `pos`. -/
def head (b : Block) (prev : Int) (next : Int) : Sym :=
  { c := b.c, prev, next, len := b.size % 2 ^ 32 }

end Block

def sizes (bs : List Block) : Nat := (bs.map Block.size).sum

/-- The position after a block, or -1 after the last one. -/
def next_of (pos : Nat) (rest : List Block) : Int := if rest = [] then -1 else (pos : Int)

/-- The array of the blocks from `pos` on; `prev` is the position of the block before. -/
@[grind =] def layout : (prev : Int) → (pos : Nat) → List Block → List Sym
  | _, _, [] => []
  | prev, pos, b :: bs =>
    b.head prev (next_of (pos + b.size) bs) :: (b.dead ++ layout pos (pos + b.size) bs)

/-- The part of the array before a block, and the position of the last block in it. -/
@[grind =] def layout_before : (prev : Int) → (pos : Nat) → List Block → List Sym
  | _, _, [] => []
  | prev, pos, b :: bs =>
    b.head prev (pos + b.size : Nat) :: (b.dead ++ layout_before pos (pos + b.size) bs)

@[grind =] def last_before : (prev : Int) → (pos : Nat) → List Block → Int
  | prev, _, [] => prev
  | _, pos, b :: bs => last_before pos (pos + b.size) bs

section Layout

variable {prev : Int} {pos : Nat} {pre bs : List Block} {b : Block}

@[simp]
theorem sizes_nil : sizes [] = 0 :=
  rfl

@[simp]
theorem sizes_cons : sizes (b :: bs) = b.size + sizes bs := by
  unfold sizes
  rw [List.map_cons, List.sum_cons]

theorem length_layout_before : (layout_before prev pos bs).length = sizes bs := by
  induction bs generalizing prev pos with
  | nil => rfl
  | cons b bs ih =>
    rw [layout_before, List.length_cons, List.length_append, ih, sizes_cons, Block.size]
    omega

/-- The array cut at a block. -/
theorem layout_append : layout prev pos (pre ++ b :: bs) =
    layout_before prev pos pre ++
      layout (last_before prev pos pre) (pos + sizes pre) (b :: bs) := by
  induction pre generalizing prev pos with
  | nil => rfl
  | cons b' pre ih =>
    have hnext : next_of (pos + b'.size) (pre ++ b :: bs) = (pos + b'.size : Nat) := by
      unfold next_of
      rw [if_neg (by simp)]
    rw [List.cons_append, layout, layout_before, last_before, hnext, ih, sizes_cons,
      List.cons_append, List.append_assoc, Nat.add_assoc]

end Layout

theorem getD_middle {α : Type} {as bs : List α} {a d : α} {i : Nat} (hi : i = as.length) :
    (as ++ a :: bs).getD i d = a := by
  subst hi
  rw [List.getD_eq_getElem?_getD, List.getElem?_append_right (Nat.le_refl _), Nat.sub_self]
  rfl

theorem set_middle {α : Type} {as bs : List α} {a a' : α} {i : Nat} (hi : i = as.length) :
    (as ++ a :: bs).set i a' = as ++ a' :: bs := by
  subst hi
  rw [List.set_append_right _ _ (Nat.le_refl _), Nat.sub_self]
  rfl

/-! ### The invariant -/

/-- What `load` promises of the tables: an id names one string, strings fit 32-bit lengths, and
    a merge joins the strings of its two tokens. -/
structure Merging (vocab : Table Bytes Nat) (merges : Table (Nat × Nat) (Nat × Nat)) : Prop where
  consistent : ∀ s s' id, (s, id) ∈ vocab → (s', id) ∈ vocab → s = s'
  fits : ∀ s id, (s, id) ∈ vocab → s.length < 2 ^ 32
  joins : ∀ a b rank id, merges.find (a, b) = some (rank, id) →
    ∃ s t, (s, a) ∈ vocab ∧ (t, b) ∈ vocab ∧ (s ++ t, id) ∈ vocab

/-- An id names one string, and a merge joins the strings of its two tokens. -/
structure Naming (vocab : Table Bytes Nat) (merges : Table (Nat × Nat) (Nat × Nat)) : Prop where
  consistent : ∀ s s' id, (s, id) ∈ vocab → (s', id) ∈ vocab → s = s'
  joins : ∀ a b rank id, merges.find (a, b) = some (rank, id) →
    ∃ s t, (s, a) ∈ vocab ∧ (t, b) ∈ vocab ∧ (s ++ t, id) ∈ vocab

theorem Merging.naming {vocab : Table Bytes Nat} {merges : Table (Nat × Nat) (Nat × Nat)}
    (h : Merging vocab merges) : Naming vocab merges :=
  ⟨h.consistent, h.joins⟩

/-- The block's token is the one its bytes spell. -/
structure Block.Spelled (vocab : Table Bytes Nat) (b : Block) : Prop where
  token : (spell b.bytes, b.c) ∈ vocab
  size_eq : b.size = b.bytes.length
  dead_len : ∀ s ∈ b.dead, s.len = 0

section Invariant

variable {vocab : Table Bytes Nat} {merges : Table (Nat × Nat) (Nat × Nat)}

theorem Block.Spelled.size_lt {b : Block} (h : b.Spelled vocab) (hm : Merging vocab merges) :
    b.size < 2 ^ 32 := by
  have hfits := hm.fits _ _ h.token
  have hle := length_le_length_spell b.bytes
  rw [h.size_eq]
  omega

theorem Block.Spelled.len_ne_zero {b : Block} (h : b.Spelled vocab) (hm : Merging vocab merges)
    (prev next : Int) : (b.head prev next).len ≠ 0 := by
  have hlt := h.size_lt hm
  have hpos : 0 < b.size := Nat.succ_pos _
  show b.size % 2 ^ 32 ≠ 0
  rw [Nat.mod_eq_of_lt hlt]
  omega

theorem block_of_live {bs : List Block} (hbs : ∀ b ∈ bs, ∀ s ∈ b.dead, s.len = 0) {prev : Int}
    {pos i : Nat} (h : ((layout prev pos bs).getD i default).len ≠ 0) :
    ∃ pre b post, bs = pre ++ b :: post ∧ i = sizes pre := by
  induction bs generalizing prev pos i with
  | nil => exact absurd rfl h
  | cons b bs ih =>
    cases i with
    | zero => exact ⟨[], b, bs, rfl, rfl⟩
    | succ i =>
      rw [layout, List.getD_cons_succ, List.getD_eq_getElem?_getD] at h
      rcases Nat.lt_or_ge i b.dead.length with hlt | hge
      · rw [List.getElem?_append_left hlt, List.getElem?_eq_getElem hlt, Option.getD_some] at h
        exact absurd (hbs b List.mem_cons_self _ (List.getElem_mem hlt)) h
      · rw [List.getElem?_append_right hge, ← List.getD_eq_getElem?_getD] at h
        obtain ⟨pre, b', post, rfl, hi⟩ :=
          ih (fun b' hb' => hbs b' (List.mem_cons_of_mem b hb')) h
        refine ⟨b :: pre, b', post, rfl, ?_⟩
        rw [sizes_cons, Block.size]
        omega

/-- Two neighbours joined under the token `id`. -/
def Block.join (b₁ b₂ : Block) (id : Nat) (dead : Sym) : Block :=
  { c := id, bytes := b₁.bytes ++ b₂.bytes, dead := b₁.dead ++ dead :: b₂.dead }

theorem Block.size_join (b₁ b₂ : Block) (id : Nat) (dead : Sym) :
    (b₁.join b₂ id dead).size = b₁.size + b₂.size := by
  simp only [Block.join, Block.size, List.length_append, List.length_cons]
  omega

/-- The token of a merge names what its two blocks spell. -/
theorem Naming.merged (hm : Naming vocab merges) {b₁ b₂ : Block} (h₁ : b₁.Spelled vocab)
    (h₂ : b₂.Spelled vocab) {rank id : Nat}
    (hfind : merges.find (b₁.c, b₂.c) = some (rank, id)) :
    (spell b₁.bytes ++ spell b₂.bytes, id) ∈ vocab := by
  obtain ⟨s, t, hs, ht, hst⟩ := hm.joins _ _ _ _ hfind
  rw [hm.consistent _ _ _ hs h₁.token, hm.consistent _ _ _ ht h₂.token] at hst
  exact hst

theorem Block.Spelled.join {b₁ b₂ : Block} (h₁ : b₁.Spelled vocab) (h₂ : b₂.Spelled vocab)
    (hm : Naming vocab merges) {rank id : Nat} (hfind : merges.find (b₁.c, b₂.c) = some (rank, id))
    {dead : Sym} (hdead : dead.len = 0) : (b₁.join b₂ id dead).Spelled vocab where
  token := by
    have hst := hm.merged h₁ h₂ hfind
    rw [← spell_append] at hst
    exact hst
  size_eq := by
    rw [Block.size_join, h₁.size_eq, h₂.size_eq]
    exact (List.length_append).symm
  dead_len s hs := by
    rcases List.mem_append.mp hs with hs | hs
    · exact h₁.dead_len s hs
    rcases List.mem_cons.mp hs with rfl | hs
    · exact hdead
    · exact h₂.dead_len s hs

end Invariant

/-! ### One turn -/

/-- The writes of a merge, up to the link back from the neighbour's successor. -/
theorem merge_at_eq {as ds rest : List Sym} {cur right : Sym} {pos id : Nat}
    (hpos : pos = as.length) (hnext : cur.next = (pos + (ds.length + 1) : Nat)) :
    merge_at (as ++ cur :: (ds ++ right :: rest)) pos id =
      let sym := as ++
        { c := id, prev := cur.prev, next := right.next, len := (cur.len + right.len) % 2 ^ 32 } ::
          (ds ++ { right with len := 0 } :: rest)
      if right.next > -1 ∧ right.next.toNat < (as ++ cur :: (ds ++ right :: rest)).length then
        sym.set right.next.toNat { sym.getD right.next.toNat default with prev := pos }
      else sym := by
  have hnext_pos : cur.next.toNat = (as ++ cur :: ds).length := by
    rw [hnext, Int.toNat_natCast, List.length_append, List.length_cons, hpos]
  have hright : (as ++ cur :: (ds ++ right :: rest)).getD cur.next.toNat default = right := by
    rw [← List.cons_append, ← List.append_assoc]
    exact getD_middle hnext_pos
  -- The second write finds the neighbour where the first one left it.
  have hsecond (cur' : Sym) :
      (as ++ cur' :: (ds ++ right :: rest)).set cur.next.toNat
        { (as ++ cur' :: (ds ++ right :: rest)).getD cur.next.toNat default with len := 0 } =
      as ++ cur' :: (ds ++ { right with len := 0 } :: rest) := by
    have hpos' : cur.next.toNat = (as ++ cur' :: ds).length := by
      rw [hnext_pos, List.length_append, List.length_append, List.length_cons, List.length_cons]
    rw [← List.cons_append, ← List.append_assoc, getD_middle hpos', set_middle hpos',
      List.append_assoc, List.cons_append]
  unfold merge_at
  simp only
  rw [getD_middle hpos, hright, set_middle hpos, hsecond]

theorem merge_at_last {as ds rest : List Sym} {cur right : Sym} {pos id : Nat}
    (hpos : pos = as.length) (hnext : cur.next = (pos + (ds.length + 1) : Nat))
    (hlast : right.next = -1) :
    merge_at (as ++ cur :: (ds ++ right :: rest)) pos id =
      as ++ { c := id, prev := cur.prev, next := -1, len := (cur.len + right.len) % 2 ^ 32 } ::
        (ds ++ { right with len := 0 } :: rest) := by
  rw [merge_at_eq hpos hnext]
  simp only
  rw [if_neg (by rw [hlast]; simp), hlast]

theorem merge_at_inner {as ds ds' rest : List Sym} {cur right after : Sym} {pos id : Nat}
    (hpos : pos = as.length) (hnext : cur.next = (pos + (ds.length + 1) : Nat))
    (hafter : right.next = (pos + (ds.length + 1) + (ds'.length + 1) : Nat)) :
    merge_at (as ++ cur :: (ds ++ right :: (ds' ++ after :: rest))) pos id =
      as ++ { c := id, prev := cur.prev, next := right.next,
              len := (cur.len + right.len) % 2 ^ 32 } ::
        (ds ++ { right with len := 0 } :: (ds' ++ { after with prev := pos } :: rest)) := by
  have hlink (cur' right' : Sym) : right.next.toNat =
      (as ++ cur' :: (ds ++ right' :: ds')).length := by
    rw [hafter, Int.toNat_natCast]
    simp only [List.length_append, List.length_cons]
    omega
  have hassoc (cur' right' after' : Sym) :
      as ++ cur' :: (ds ++ right' :: (ds' ++ after' :: rest)) =
        (as ++ cur' :: (ds ++ right' :: ds')) ++ after' :: rest := by
    simp only [List.append_assoc, List.cons_append]
  have hbound : right.next.toNat <
      (as ++ cur :: (ds ++ right :: (ds' ++ after :: rest))).length := by
    rw [hassoc, List.length_append, ← hlink cur right, List.length_cons]
    omega
  rw [merge_at_eq hpos hnext]
  simp only
  rw [if_pos ⟨by omega, hbound⟩, hassoc, getD_middle (hlink _ _), set_middle (hlink _ _), ← hassoc]

/-- A merge turns the array of the blocks into that of the joined ones. -/
theorem merge_at_layout {prev : Int} {pos : Nat} {b₁ b₂ : Block} {bs : List Block}
    {as : List Sym} (hpos : pos = as.length) (id : Nat) :
    ∃ dead : Sym, dead.len = 0 ∧
      merge_at (as ++ layout prev pos (b₁ :: b₂ :: bs)) pos id =
        as ++ layout prev pos (b₁.join b₂ id dead :: bs) := by
  have hnext : next_of (pos + b₁.size) (b₂ :: bs) = (pos + (b₁.dead.length + 1) : Nat) :=
    if_neg (List.cons_ne_nil _ _)
  -- The joined block's head, with the two lengths added in 32 bits.
  have hhead (dead : Sym) (next : Int) :
      ({ c := id, prev := prev, next := next,
         len := (b₁.size % 2 ^ 32 + b₂.size % 2 ^ 32) % 2 ^ 32 } : Sym) =
        (b₁.join b₂ id dead).head prev next := by
    unfold Block.head
    rw [Block.size_join, ← Nat.add_mod]
    rfl
  have hsize (dead : Sym) : pos + (b₁.join b₂ id dead).size = pos + b₁.size + b₂.size := by
    rw [Block.size_join, Nat.add_assoc]
  refine ⟨{ b₂.head pos (next_of (pos + b₁.size + b₂.size) bs) with len := 0 }, rfl, ?_⟩
  cases bs with
  | nil =>
    rw [layout, layout, merge_at_last hpos hnext rfl, layout, layout]
    simp only [Block.join, List.append_assoc, List.cons_append]
    exact congrArg (as ++ · :: _) (hhead _ _)
  | cons b₃ bs =>
    have hafter : next_of (pos + b₁.size + b₂.size) (b₃ :: bs) =
        (pos + (b₁.dead.length + 1) + (b₂.dead.length + 1) : Nat) := if_neg (List.cons_ne_nil _ _)
    rw [layout, layout, layout, merge_at_inner hpos hnext hafter, layout, layout, hsize]
    simp only [Block.join, List.append_assoc, List.cons_append]
    exact congrArg (as ++ · :: _) (hhead _ _)

theorem length_candidate_le (merges : Table (Nat × Nat) (Nat × Nat)) (pos a b : Nat) :
    (candidate merges pos a b).length ≤ 1 := by
  unfold candidate
  split
  · exact Nat.zero_le 1
  · exact Nat.le_refl 1

theorem length_push_neighbours_le (merges : Table (Nat × Nat) (Nat × Nat)) (sym : List Sym)
    (pos : Nat) : (push_neighbours merges sym pos).length ≤ 2 := by
  have hif {p : Prop} [Decidable p] {l : List M} (hl : l.length ≤ 1) :
      (if p then l else []).length ≤ 1 := by
    split
    · exact hl
    · exact Nat.zero_le 1
  unfold push_neighbours
  simp only
  rw [List.length_append]
  exact Nat.add_le_add (hif (length_candidate_le _ _ _ _)) (hif (length_candidate_le _ _ _ _))

theorem length_initial_queue_le (merges : Table (Nat × Nat) (Nat × Nat)) (sym : List Sym) :
    (initial_queue merges sym).length ≤ sym.length := by
  unfold initial_queue
  rw [List.length_flatMap]
  calc _ ≤ ((List.range (sym.length - 1)).map fun _ => 1).sum :=
        List.sum_le_sum fun i _ => length_candidate_le _ _ _ _
    _ = sym.length - 1 := by simp
    _ ≤ sym.length := Nat.sub_le _ _

section Run

variable {vocab : Table Bytes Nat} {merges : Table (Nat × Nat) (Nat × Nat)} {word : Bytes}

/-- Blocks that spell the word. -/
structure Covers (vocab : Table Bytes Nat) (word : Bytes) (bs : List Block) : Prop where
  spelled : ∀ b ∈ bs, b.Spelled vocab
  word_eq : bs.flatMap Block.bytes = word

theorem Covers.live {bs : List Block} (h : Covers vocab word bs) (hm : Merging vocab merges) :
    ∀ b ∈ bs, b.size % 2 ^ 32 ≠ 0 :=
  fun b hb => (h.spelled b hb).len_ne_zero hm 0 0

theorem Covers.dead_len {bs : List Block} (h : Covers vocab word bs) :
    ∀ b ∈ bs, ∀ s ∈ b.dead, s.len = 0 :=
  fun b hb => (h.spelled b hb).dead_len

/-- The array of the whole word. -/
def array (bs : List Block) : List Sym := layout (-1) 0 bs

theorem Covers.join {pre post : List Block} {b₁ b₂ : Block}
    (h : Covers vocab word (pre ++ b₁ :: b₂ :: post)) (hm : Naming vocab merges) {rank id : Nat}
    (hfind : merges.find (b₁.c, b₂.c) = some (rank, id)) {dead : Sym} (hdead : dead.len = 0) :
    Covers vocab word (pre ++ b₁.join b₂ id dead :: post) where
  spelled b hb := by
    have h₁ := h.spelled b₁ (by simp)
    have h₂ := h.spelled b₂ (by simp)
    rcases List.mem_append.mp hb with hb | hb
    · exact h.spelled b (List.mem_append_left _ hb)
    rcases List.mem_cons.mp hb with rfl | hb
    · exact h₁.join h₂ hm hfind hdead
    · exact h.spelled b (by simp [hb])
  word_eq := by
    have hword := h.word_eq
    simp only [List.flatMap_append, List.flatMap_cons] at hword ⊢
    rw [← hword]
    simp only [Block.join, List.append_assoc]

theorem sizes_append (pre post : List Block) : sizes (pre ++ post) = sizes pre + sizes post := by
  unfold sizes
  rw [List.map_append, List.sum_append]

theorem last_before_concat (prev : Int) (pos : Nat) (pre : List Block) (b : Block) :
    last_before prev pos (pre ++ [b]) = (pos + sizes pre : Nat) := by
  induction pre generalizing prev pos with
  | nil => rfl
  | cons b' pre ih =>
    rw [List.cons_append, last_before, ih, sizes_cons, Nat.add_assoc]

/-- The symbol a block begins with. -/
theorem array_getD (pre : List Block) (b : Block) (post : List Block) :
    (array (pre ++ b :: post)).getD (sizes pre) default =
      b.head (last_before (-1) 0 pre) (next_of (sizes pre + b.size) post) := by
  unfold array
  rw [layout_append, Nat.zero_add, layout]
  exact getD_middle length_layout_before.symm

theorem merge_at_array (pre : List Block) (b₁ b₂ : Block) (post : List Block) (id : Nat) :
    ∃ dead : Sym, dead.len = 0 ∧
      merge_at (array (pre ++ b₁ :: b₂ :: post)) (sizes pre) id =
        array (pre ++ b₁.join b₂ id dead :: post) := by
  obtain ⟨dead, hdead, hmerge⟩ : ∃ dead : Sym, dead.len = 0 ∧
      merge_at (layout_before (-1) 0 pre ++
          layout (last_before (-1) 0 pre) (sizes pre) (b₁ :: b₂ :: post)) (sizes pre) id =
        layout_before (-1) 0 pre ++
          layout (last_before (-1) 0 pre) (sizes pre) (b₁.join b₂ id dead :: post) :=
    merge_at_layout length_layout_before.symm id
  refine ⟨dead, hdead, ?_⟩
  unfold array
  rw [layout_append, layout_append, Nat.zero_add, hmerge]

/-- What a candidate would merge now: the block at its position and the next one. -/
def Valid (merges : Table (Nat × Nat) (Nat × Nat)) (bs : List Block) (top : M)
    (pre : List Block) (b₁ b₂ : Block) (post : List Block) : Prop :=
  bs = pre ++ b₁ :: b₂ :: post ∧ top.pos = sizes pre ∧
    ∃ rank, merges.find (b₁.c, b₂.c) = some (rank, top.id)

/-- A turn leaves the blocks when the candidate is stale; else it joins the candidate's blocks. -/
theorem bpe_step_cases {bs : List Block} (hbs : ∀ b ∈ bs, ∀ s ∈ b.dead, s.len = 0)
    (hlive : ∀ b ∈ bs, b.size % 2 ^ 32 ≠ 0) (q : List M) (top : M) :
    (bpe_step merges (array bs) q top = (array bs, q) ∧
      ∀ pre b₁ b₂ post, ¬ Valid merges bs top pre b₁ b₂ post) ∨
    ∃ pre b₁ b₂ post dead, Valid merges bs top pre b₁ b₂ post ∧ dead.len = 0 ∧
      bpe_step merges (array bs) q top = (array (pre ++ b₁.join b₂ top.id dead :: post),
        q ++ push_neighbours merges (array (pre ++ b₁.join b₂ top.id dead :: post))
          (sizes pre)) := by
  -- the candidate's blocks are where its position says
  have hcur : ∀ {pre b₁ b₂ post}, Valid merges bs top pre b₁ b₂ post →
      (array bs).getD top.pos default =
        b₁.head (last_before (-1) 0 pre) (sizes pre + b₁.size : Nat) := by
    intro pre b₁ b₂ post hvalid
    obtain ⟨rfl, hpos, _⟩ := hvalid
    rw [hpos, array_getD, next_of, if_neg (List.cons_ne_nil _ _)]
  have hright : ∀ pre b₁ b₂ post, bs = pre ++ b₁ :: b₂ :: post →
      ((array bs).getD (sizes pre + b₁.size) default).c = b₂.c := by
    intro pre b₁ b₂ post heq
    have hget := array_getD (pre ++ [b₁]) b₂ post
    rw [sizes_append, sizes_cons, sizes_nil, Nat.add_zero, List.append_assoc,
      List.singleton_append] at hget
    rw [heq, hget]
    rfl
  have hturn : ∀ {pre b₁ b₂ post}, Valid merges bs top pre b₁ b₂ post →
      bpe_step merges (array bs) q top = (merge_at (array bs) top.pos top.id,
        q ++ push_neighbours merges (merge_at (array bs) top.pos top.id) top.pos) := by
    intro pre b₁ b₂ post hvalid
    have hbs₁ : b₁ ∈ bs := by
      rw [hvalid.1]
      simp
    obtain ⟨rank, hfind⟩ := hvalid.2.2
    unfold bpe_step
    rw [hcur hvalid]
    dsimp only [Block.head]
    rw [if_neg (by
      rintro (hdead | hlast)
      · exact hlive b₁ hbs₁ hdead
      · omega), Int.toNat_natCast, hright pre b₁ b₂ post hvalid.1, hfind]
    exact if_neg (not_not.mpr rfl)
  by_cases hvalid : ∃ pre b₁ b₂ post, Valid merges bs top pre b₁ b₂ post
  · obtain ⟨pre, b₁, b₂, post, hvalid⟩ := hvalid
    obtain ⟨dead, hdead, hmerge⟩ := merge_at_array pre b₁ b₂ post top.id
    refine .inr ⟨pre, b₁, b₂, post, dead, hvalid, hdead, ?_⟩
    rw [hturn hvalid, hvalid.2.1, hvalid.1, hmerge]
  · refine .inl ⟨?_, fun pre b₁ b₂ post h => hvalid ⟨pre, b₁, b₂, post, h⟩⟩
    unfold bpe_step
    dsimp only
    split
    · rfl
    next hskip =>
    obtain ⟨hlen, hnext⟩ := not_or.mp hskip
    obtain ⟨pre, b₁, post, hcut, hpos⟩ := block_of_live hbs hlen
    rw [hpos, hcut, array_getD] at hnext ⊢
    cases post with
    | nil => exact absurd rfl hnext
    | cons b₂ post =>
      have hnext_pos : (b₁.head (last_before (-1) 0 pre)
          (next_of (sizes pre + b₁.size) (b₂ :: post))).next.toNat = sizes pre + b₁.size := by
        show (next_of (sizes pre + b₁.size) (b₂ :: post)).toNat = _
        rw [next_of, if_neg (List.cons_ne_nil _ _), Int.toNat_natCast]
      rw [hnext_pos]
      have hr := hright pre b₁ b₂ post hcut
      rw [hcut] at hr
      rw [hr]
      dsimp only [Block.head]
      split
      · rfl
      next rank id hfind =>
      refine if_pos fun hid => hvalid ⟨pre, b₁, b₂, post, hcut, hpos, rank, ?_⟩
      rw [hfind, hid]

/-- A turn leaves the blocks, or joins two neighbours and queues at most two candidates. -/
theorem bpe_step_array {bs : List Block} (h : Covers vocab word bs) (hm : Merging vocab merges)
    (q : List M) (top : M) :
    ∃ bs' q', bpe_step merges (array bs) q top = (array bs', q') ∧ Covers vocab word bs' ∧
      q'.length + 2 * bs'.length ≤ q.length + 2 * bs.length := by
  rcases bpe_step_cases h.dead_len (h.live hm) q top with ⟨hstay, -⟩ |
    ⟨pre, b₁, b₂, post, dead, ⟨rfl, hpos, rank, hfind⟩, hdead, hstep⟩
  · exact ⟨bs, q, hstay, h, Nat.le_refl _⟩
  · refine ⟨_, _, hstep, h.join hm.naming hfind hdead, ?_⟩
    have htwo := length_push_neighbours_le merges (array (pre ++ b₁.join b₂ top.id dead :: post))
      (sizes pre)
    simp only [List.length_append, List.length_cons] at htwo ⊢
    omega

/-! ### The whole loop -/

theorem pop_cases (q : List M) :
    pop q = none ∧ q = [] ∨ ∃ top q', pop q = some (top, q') ∧ q'.length + 1 = q.length := by
  induction q with
  | nil => exact Or.inl ⟨rfl, rfl⟩
  | cons m q ih =>
    right
    rw [pop]
    rcases ih with ⟨hnone, rfl⟩ | ⟨top, q', hpop, hlen⟩
    · exact ⟨m, [], by rw [hnone], rfl⟩
    · rw [hpop]
      simp only
      split
      · exact ⟨top, m :: q', rfl, by rw [List.length_cons, List.length_cons, hlen]⟩
      · exact ⟨m, top :: q', rfl, by rw [List.length_cons, List.length_cons, hlen]⟩

/-- Whatever is popped when, the blocks spell the word to the end. -/
theorem bpe_loop_array {bs : List Block} (h : Covers vocab word bs) (hm : Merging vocab merges)
    (fuel : Nat) (q : List M) :
    ∃ bs', bpe_loop merges fuel (array bs) q = array bs' ∧ Covers vocab word bs' := by
  induction fuel generalizing bs q with
  | zero => exact ⟨bs, rfl, h⟩
  | succ fuel ih =>
    rw [bpe_loop]
    rcases pop_cases q with ⟨hpop, -⟩ | ⟨top, q', hpop, -⟩
    · rw [hpop]
      exact ⟨bs, rfl, h⟩
    · rw [hpop]
      obtain ⟨bs', q'', hstep, hcovers, -⟩ := bpe_step_array h hm q' top
      simp only
      rw [hstep]
      exact ih hcovers q''

end Run

/-! ### A word -/

section Word

variable {vocab : Table Bytes Nat} {merges : Table (Nat × Nat) (Nat × Nat)} {word : Bytes}

theorem live_layout {bs : List Block} (hbs : ∀ b ∈ bs, ∀ s ∈ b.dead, s.len = 0)
    (hlive : ∀ b ∈ bs, b.size % 2 ^ 32 ≠ 0) (prev : Int) (pos : Nat) :
    ((layout prev pos bs).filter fun s => s.len ≠ 0).map Sym.c = bs.map Block.c := by
  induction bs generalizing prev pos with
  | nil => rfl
  | cons b bs ih =>
    have hdead : b.dead.filter (fun s => decide (s.len ≠ 0)) = [] := by
      apply List.filter_eq_nil_iff.mpr
      intro s hs
      simp [hbs b List.mem_cons_self s hs]
    have hhead : (b.head prev (next_of (pos + b.size) bs)).len ≠ 0 := hlive b List.mem_cons_self
    rw [layout, List.filter_cons, if_pos (decide_eq_true hhead), List.filter_append, hdead,
      List.nil_append, List.map_cons, List.map_cons,
      ih (fun b' hb' => hbs b' (List.mem_cons_of_mem b hb'))
        fun b' hb' => hlive b' (List.mem_cons_of_mem b hb')]
    rfl

/-- The block of one byte. -/
def byte_block (byte_id : List Nat) (b : UInt8) : Block :=
  { c := byte_id.getD b.toNat 0, bytes := [b], dead := [] }

theorem initial_syms_from (byte_id : List Nat) (word : Bytes) (k n : Nat)
    (hn : n = k + word.length) :
    ((word.map fun b => byte_id.getD b.toNat 0).zipIdx k).map (fun (c, i) =>
        ({ c, prev := (i : Int) - 1, next := if i + 1 < n then (i + 1 : Nat) else -1, len := 1 }
          : Sym)) =
      layout ((k : Int) - 1) k (word.map (byte_block byte_id)) := by
  induction word generalizing k with
  | nil => rfl
  | cons b word ih =>
    rw [List.length_cons] at hn
    have hrest := ih (k + 1) (by omega)
    rw [Nat.cast_succ, Int.add_sub_cancel] at hrest
    have hnext : (if k + 1 < n then ((k + 1 : Nat) : Int) else -1) =
        next_of (k + 1) (word.map (byte_block byte_id)) := by
      unfold next_of
      cases word with
      | nil =>
        rw [List.length_nil] at hn
        rw [if_neg (by omega)]
        rfl
      | cons b' word =>
        rw [List.length_cons] at hn
        rw [if_pos (by omega), if_neg (by simp)]
    rw [List.map_cons, List.zipIdx_cons, List.map_cons, List.map_cons, layout, hrest]
    simp only [hnext]
    rfl

theorem initial_syms_eq (byte_id : List Nat) (word : Bytes) :
    initial_syms (word.map fun b => byte_id.getD b.toNat 0) =
      array (word.map (byte_block byte_id)) := by
  unfold initial_syms array
  rw [List.length_map]
  exact initial_syms_from byte_id word 0 word.length (Nat.zero_add _).symm

/-- What `load` promises of the byte table. -/
def Bytewise (vocab : Table Bytes Nat) (byte_id : List Nat) : Prop :=
  ∀ b : UInt8, (spell [b], byte_id.getD b.toNat 0) ∈ vocab

theorem Bytewise.covers {byte_id : List Nat} (h : Bytewise vocab byte_id) (word : Bytes) :
    Covers vocab word (word.map (byte_block byte_id)) where
  spelled b hb := by
    obtain ⟨byte, -, rfl⟩ := List.mem_map.mp hb
    exact { token := h byte, size_eq := rfl, dead_len := nofun }
  word_eq := by
    rw [List.flatMap_map]
    exact List.flatMap_singleton' word

/-- The tokens of a word, each spelled by its stretch of the word. -/
theorem bpe_covers {im : Impl} (hm : Merging im.vocab im.merges)
    (hbytes : Bytewise im.vocab im.byte_id) (word : Bytes) :
    ∃ bs, im.bpe word = bs.map Block.c ∧ Covers im.vocab word bs := by
  have hinit := hbytes.covers word
  unfold Impl.bpe
  split
  · exact ⟨[], rfl, hinit⟩
  next b => exact ⟨[byte_block im.byte_id b], rfl, hinit⟩
  · simp only
    rw [initial_syms_eq]
    obtain ⟨bs, hloop, hcovers⟩ := bpe_loop_array hinit hm (3 * word.length)
      (initial_queue im.merges (array (word.map (byte_block im.byte_id))))
    refine ⟨bs, ?_, hcovers⟩
    rw [hloop]
    exact live_layout hcovers.dead_len (hcovers.live hm) _ _

end Word

end CachedMoe.Text
