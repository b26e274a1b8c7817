import Mathlib

/-! # Packing regions into slabs

    Regions are placed one after another in a flat space that slabs tile from offset 0
    on. A region that would take its slab above a limit closes the slab and opens the
    next:

    * `align_up`: the next multiple, and how two grids compose;
    * `State.place`: one region, through `pad`, `close` and `put`;
    * `Packed`: what holds of the regions placed so far; each operation keeps it;
    * `copy`: bulk copies between the slabs of two packings.

    Nothing here names what the regions hold. -/

namespace Packing

/-! ### Alignment -/

/-- The least multiple of `a` from `v` on. -/
def align_up (v a : Nat) : Nat := (v + a - 1) / a * a

section Align

variable {v w a p : Nat}

theorem dvd_align_up (v a : Nat) : a ∣ align_up v a := Nat.dvd_mul_left a _

theorem le_align_up (ha : 0 < a) : v ≤ align_up v a := by
  have hdiv := Nat.div_add_mod (v + a - 1) a
  have hmod := Nat.mod_lt (v + a - 1) ha
  rw [Nat.mul_comm] at hdiv
  unfold align_up
  omega

/-- No multiple lies between `v` and `align_up v a`. -/
theorem align_up_le (ha : 0 < a) (hw : a ∣ w) (h : v ≤ w) : align_up v a ≤ w := by
  obtain ⟨k, rfl⟩ := hw
  have hquot : (v + a - 1) / a ≤ k := by
    apply Nat.le_of_lt_succ
    apply Nat.div_lt_of_lt_mul
    rw [Nat.mul_succ]
    omega
  unfold align_up
  rw [Nat.mul_comm a k]
  exact Nat.mul_le_mul_right a hquot

theorem align_up_mono (ha : 0 < a) (h : v ≤ w) : align_up v a ≤ align_up w a :=
  align_up_le ha (dvd_align_up w a) (h.trans (le_align_up ha))

/-- Aligning to a finer grid first changes nothing. -/
theorem align_up_align_up (ha : 0 < a) (hp : 0 < p) (hap : a ∣ p) :
    align_up (align_up v a) p = align_up v p := by
  apply Nat.le_antisymm
  · apply align_up_le hp (dvd_align_up v p)
    exact align_up_le ha (hap.trans (dvd_align_up v p)) (le_align_up hp)
  · exact align_up_mono hp (le_align_up ha)

theorem align_up_add (hp : 0 < p) (hw : p ∣ w) : align_up (w + v) p = w + align_up v p := by
  obtain ⟨k, rfl⟩ := hw
  have hsum : p * k + v + p - 1 = v + p - 1 + p * k := by omega
  unfold align_up
  rw [hsum, Nat.add_mul_div_left _ _ hp, Nat.add_mul, Nat.mul_comm k p, Nat.add_comm]

end Align

/-! ### Regions and slabs -/

structure Region where
  off : Nat
  bytes : Nat
  deriving Repr, DecidableEq

def Region.stop (r : Region) : Nat := r.off + r.bytes

/-- Where slab `i` starts: slabs are laid end to end. -/
def start (sizes : List Nat) (i : Nat) : Nat := (sizes.take i).sum

/-- Region `r` lies in slab `i`. -/
def Inside (sizes : List Nat) (r : Region) (i : Nat) : Prop :=
  i < sizes.length ∧ start sizes i ≤ r.off ∧ r.stop ≤ start sizes (i + 1)

section Slabs

variable {sizes : List Nat} {i j : Nat}

theorem start_length (sizes : List Nat) : start sizes sizes.length = sizes.sum := by
  rw [start, List.take_length]

theorem start_append (h : i ≤ sizes.length) (more : List Nat) :
    start (sizes ++ more) i = start sizes i := by
  rw [start, List.take_append_of_le_length h, start]

theorem start_succ (h : i < sizes.length) : start sizes (i + 1) = start sizes i + sizes[i] := by
  rw [start, start, List.take_succ_eq_append_getElem h, List.sum_append, List.sum_singleton]

theorem start_mono (sizes : List Nat) (h : i ≤ j) : start sizes i ≤ start sizes j := by
  obtain ⟨k, rfl⟩ := Nat.exists_eq_add_of_le h
  rw [start, start, List.take_add, List.sum_append]
  exact Nat.le_add_right _ _

end Slabs

/-! ### Placing -/

/-- The two grids: regions start on multiples of `align`, slabs on multiples of `page`. -/
structure Grid where
  align : Nat
  page : Nat
  align_pos : 0 < align
  page_pos : 0 < page
  align_dvd : align ∣ page

/-- The sizes of the slabs that are closed, and the end of what is placed. -/
structure State where
  sizes : List Nat := []
  off : Nat := 0
  deriving Repr, DecidableEq

namespace State

/-- The start of the open slab. -/
def base (s : State) : Nat := s.sizes.sum

def pad (g : Grid) (s : State) : State := { s with off := align_up s.off g.align }

/-- Ends the open slab at the next page and opens one there. -/
def close (g : Grid) (s : State) : State where
  sizes := s.sizes ++ [align_up s.off g.page - s.base]
  off := align_up s.off g.page

def put (s : State) (bytes : Nat) : State := { s with off := s.off + bytes }

/-- The state a region of `bytes` is put in: a new slab if the open one is in use and
    would end above the limit. -/
def ready (g : Grid) (limit : Nat) (s : State) (bytes : Nat) : State :=
  let s := s.pad g
  if bytes ≠ 0 ∧ s.off + bytes - s.base > limit ∧ s.off > s.base then s.close g else s

/-- Places one region. -/
def place (g : Grid) (limit : Nat) (s : State) (bytes : Nat) : Region × State :=
  let s := s.ready g limit bytes
  ({ off := s.off, bytes := bytes }, s.put bytes)

/-- Places regions in order. -/
def place_all (g : Grid) (limit : Nat) : State → List Nat → List Region × State
  | s, [] => ([], s)
  | s, bytes :: rest =>
    let (r, s) := s.place g limit bytes
    let (rs, s) := place_all g limit s rest
    (r :: rs, s)

end State

/-! ### What placing keeps -/

/-- The regions `rs` placed so far. A slab above the limit is the page-rounded span of one
    region that is itself above it. -/
structure Packed (g : Grid) (limit : Nat) (s : State) (rs : List Region) : Prop where
  page_dvd : g.page ∣ s.base
  base_le : s.base ≤ s.off
  sorted : rs.Pairwise fun r r' => r.stop ≤ r'.off
  stop_le : ∀ r ∈ rs, r.stop ≤ s.off
  aligned : ∀ r ∈ rs, g.align ∣ r.off
  inside : ∀ r ∈ rs, (∃ i, Inside s.sizes r i) ∨ s.base ≤ r.off
  closed_fits : ∀ i, ∀ h : i < s.sizes.length, (g.page ∣ limit → s.sizes[i] ≤ limit) ∨
    ∃ r ∈ rs, r.off = start s.sizes i ∧ limit < r.bytes ∧ s.sizes[i] = align_up r.bytes g.page
  open_fits : (g.page ∣ limit → s.off ≤ s.base + limit) ∨
    ∃ r ∈ rs, r.off = s.base ∧ limit < r.bytes ∧ s.off ≤ align_up r.stop g.align

namespace Packed

variable {g : Grid} {limit : Nat} {s : State} {rs : List Region}

theorem empty (g : Grid) (limit : Nat) : Packed g limit {} [] where
  page_dvd := Nat.dvd_zero _
  base_le := Nat.le_refl 0
  sorted := .nil
  stop_le := fun _ hr => absurd hr List.not_mem_nil
  aligned := fun _ hr => absurd hr List.not_mem_nil
  inside := fun _ hr => absurd hr List.not_mem_nil
  closed_fits := fun i h => absurd h (Nat.not_lt_zero i)
  open_fits := .inl fun _ => Nat.zero_le _

theorem pad (h : Packed g limit s rs) : Packed g limit (s.pad g) rs where
  page_dvd := h.page_dvd
  base_le := h.base_le.trans (le_align_up g.align_pos)
  sorted := h.sorted
  stop_le := fun r hr => (h.stop_le r hr).trans (le_align_up g.align_pos)
  aligned := h.aligned
  inside := h.inside
  closed_fits := h.closed_fits
  open_fits := by
    rcases h.open_fits with hsmall | ⟨r, hr, hoff, hbig, hle⟩
    · left
      intro hlimit
      apply align_up_le g.align_pos _ (hsmall hlimit)
      exact g.align_dvd.trans (Nat.dvd_add h.page_dvd hlimit)
    · right
      exact ⟨r, hr, hoff, hbig, align_up_le g.align_pos (dvd_align_up _ _) hle⟩

theorem base_close (h : Packed g limit s rs) : (s.close g).base = align_up s.off g.page := by
  have hle : s.base ≤ align_up s.off g.page := h.base_le.trans (le_align_up g.page_pos)
  have hsum : (s.close g).base = s.base + (align_up s.off g.page - s.base) := by
    simp only [State.base, State.close, List.sum_append, List.sum_singleton]
  omega

/-- Once the open slab is closed every region lies in a closed one. -/
theorem inside_close (h : Packed g limit s rs) {r : Region} (hr : r ∈ rs) :
    ∃ i, Inside (s.close g).sizes r i := by
  have hlen : (s.close g).sizes.length = s.sizes.length + 1 := by
    rw [State.close, List.length_append, List.length_singleton]
  rcases h.inside r hr with ⟨i, hi, hstart, hstop⟩ | hopen
  · refine ⟨i, by omega, ?_, ?_⟩
    · rwa [State.close, start_append hi.le]
    · rwa [State.close, start_append hi]
  · refine ⟨s.sizes.length, by omega, ?_, ?_⟩
    · rw [State.close, start_append le_rfl, start_length]
      exact hopen
    · rw [← hlen, start_length]
      change r.stop ≤ (s.close g).base
      rw [h.base_close]
      exact (h.stop_le r hr).trans (le_align_up g.page_pos)

theorem close (h : Packed g limit s rs) : Packed g limit (s.close g) rs where
  page_dvd := by
    rw [h.base_close]
    exact dvd_align_up _ _
  base_le := by
    rw [h.base_close]
    exact le_rfl
  sorted := h.sorted
  stop_le := fun r hr => (h.stop_le r hr).trans (le_align_up g.page_pos)
  aligned := h.aligned
  inside := fun r hr => .inl (h.inside_close hr)
  closed_fits := by
    intro i hi
    have hlen : (s.close g).sizes.length = s.sizes.length + 1 := by
      rw [State.close, List.length_append, List.length_singleton]
    by_cases hold : i < s.sizes.length
    · have hget : (s.close g).sizes[i] = s.sizes[i] := List.getElem_append_left hold
      rw [hget, State.close, start_append hold.le]
      exact h.closed_fits i hold
    · -- The slab just closed: its size is that of the open slab, rounded up.
      have heq : i = s.sizes.length := by omega
      subst heq
      have hget : (s.close g).sizes[s.sizes.length] = align_up s.off g.page - s.base := by
        simp [State.close]
      rw [hget, State.close, start_append le_rfl, start_length]
      rcases h.open_fits with hsmall | ⟨r, hr, hoff, hbig, hle⟩
      · left
        intro hlimit
        have := align_up_le g.page_pos (Nat.dvd_add h.page_dvd hlimit) (hsmall hlimit)
        omega
      · right
        refine ⟨r, hr, hoff, hbig, ?_⟩
        have hstop : r.stop = s.base + r.bytes := by rw [Region.stop, hoff]
        have hspan : align_up s.off g.page = align_up r.stop g.page := by
          apply Nat.le_antisymm
          · calc align_up s.off g.page
                ≤ align_up (align_up r.stop g.align) g.page := align_up_mono g.page_pos hle
              _ = align_up r.stop g.page :=
                align_up_align_up g.align_pos g.page_pos g.align_dvd
          · exact align_up_mono g.page_pos (h.stop_le r hr)
        rw [hspan, hstop, align_up_add g.page_pos h.page_dvd]
        omega
  open_fits := .inl fun _ => by
    rw [h.base_close]
    exact Nat.le_add_right _ _

/-- A region at the end of what is placed, if it keeps its slab within the limit or has
    the slab to itself. -/
theorem put (h : Packed g limit s rs) {bytes : Nat} (hoff : g.align ∣ s.off)
    (hroom : bytes = 0 ∨ s.off + bytes ≤ s.base + limit ∨ s.off = s.base) :
    Packed g limit (s.put bytes) (rs ++ [{ off := s.off, bytes := bytes }]) where
  page_dvd := h.page_dvd
  base_le := h.base_le.trans (Nat.le_add_right _ _)
  sorted := by
    rw [List.pairwise_append]
    refine ⟨h.sorted, List.pairwise_singleton _ _, ?_⟩
    intro r hr r' hr'
    rw [List.mem_singleton.mp hr']
    exact h.stop_le r hr
  stop_le := by
    intro r hr
    rcases List.mem_append.mp hr with hr | hr
    · exact (h.stop_le r hr).trans (Nat.le_add_right _ _)
    · rw [List.mem_singleton.mp hr]
      exact le_rfl
  aligned := by
    intro r hr
    rcases List.mem_append.mp hr with hr | hr
    · exact h.aligned r hr
    · rw [List.mem_singleton.mp hr]
      exact hoff
  inside := by
    intro r hr
    rcases List.mem_append.mp hr with hr | hr
    · exact h.inside r hr
    · rw [List.mem_singleton.mp hr]
      exact .inr h.base_le
  closed_fits := by
    intro i hi
    rcases h.closed_fits i hi with hsmall | ⟨r, hr, hbig⟩
    · exact .inl hsmall
    · exact .inr ⟨r, List.mem_append_left _ hr, hbig⟩
  open_fits := by
    -- nothing is added, or it fits, or it has the slab to itself
    rcases hroom with hzero | hfits | halone
    · subst hzero
      rcases h.open_fits with hsmall | ⟨r, hr, hbig⟩
      · exact .inl hsmall
      · exact .inr ⟨r, List.mem_append_left _ hr, hbig⟩
    · exact .inl fun _ => hfits
    · by_cases hbig : limit < bytes
      · right
        refine ⟨_, List.mem_append_right _ (List.mem_singleton_self _), halone, hbig, ?_⟩
        exact le_align_up g.align_pos
      · left
        intro _
        have hend : (s.put bytes).off = s.off + bytes := rfl
        have hbase : (s.put bytes).base = s.base := rfl
        omega

theorem ready (h : Packed g limit s rs) (bytes : Nat) :
    Packed g limit (s.ready g limit bytes) rs := by
  simp only [State.ready]
  split
  · exact h.pad.close
  · exact h.pad

/-- The place a region is put at. -/
theorem ready_room (h : Packed g limit s rs) (bytes : Nat) :
    g.align ∣ (s.ready g limit bytes).off ∧
    (bytes = 0 ∨ (s.ready g limit bytes).off + bytes ≤ (s.ready g limit bytes).base + limit ∨
      (s.ready g limit bytes).off = (s.ready g limit bytes).base) := by
  have hbase := h.pad.base_le
  simp only [State.ready]
  split
  · constructor
    · exact g.align_dvd.trans (dvd_align_up _ _)
    · right; right
      exact h.pad.base_close.symm
  · next hsame =>
    constructor
    · exact dvd_align_up _ _
    · omega

theorem place (h : Packed g limit s rs) (bytes : Nat) :
    Packed g limit (s.place g limit bytes).2 (rs ++ [(s.place g limit bytes).1]) :=
  (h.ready bytes).put (h.ready_room bytes).1 (h.ready_room bytes).2

theorem place_all (h : Packed g limit s rs) (l : List Nat) :
    Packed g limit (s.place_all g limit l).2 (rs ++ (s.place_all g limit l).1) := by
  induction l generalizing s rs with
  | nil =>
    rw [State.place_all, List.append_nil]
    exact h
  | cons bytes l ih =>
    have hrest := ih (h.place bytes)
    rw [List.append_assoc] at hrest
    exact hrest

end Packed

theorem bytes_place_all (g : Grid) (limit : Nat) (s : State) (l : List Nat) :
    (s.place_all g limit l).1.map Region.bytes = l := by
  induction l generalizing s with
  | nil => rfl
  | cons bytes l ih =>
    simp only [State.place_all, List.map_cons, ih]
    rfl

theorem eq_map_region {ι : Type*} {rs : List Region} {l : List ι} {off bytes : ι → Nat}
    (hoff : rs.map Region.off = l.map off) (hbytes : rs.map Region.bytes = l.map bytes) :
    rs = l.map fun i => { off := off i, bytes := bytes i } := by
  induction l generalizing rs with
  | nil => exact List.map_eq_nil_iff.mp hoff
  | cons i l ih =>
    cases rs with
    | nil => exact absurd hoff (List.cons_ne_nil _ _).symm
    | cons r rs =>
      rw [List.map_cons, List.map_cons, List.cons.injEq] at hoff hbytes
      rw [List.map_cons, ← ih hoff.2 hbytes.2, ← hoff.1, ← hbytes.1]

/-! ### Copies between slabs -/

section Copies

variable {α : Type*} {ι : Type*}

/-- `n` elements from offset `src.2` of slab `src.1` of `m'`, copied over those from
    offset `dst.2` of slab `dst.1` of `m` on. -/
def copy (m : Nat → Nat → α) (dst : Nat × Nat) (m' : Nat → Nat → α) (src : Nat × Nat) (n : Nat) :
    Nat → Nat → α := fun s o =>
  if s = dst.1 ∧ dst.2 ≤ o ∧ o < dst.2 + n then m' src.1 (src.2 + (o - dst.2)) else m s o

/-- The element at slab `s`, offset `o` is among the `n` from `dst` on. -/
def Covers (dst : Nat × Nat) (n s o : Nat) : Prop := s = dst.1 ∧ dst.2 ≤ o ∧ o < dst.2 + n

theorem copy_of_covers {m m' : Nat → Nat → α} {dst src : Nat × Nat} {n s o : Nat}
    (h : Covers dst n s o) : copy m dst m' src n s o = m' src.1 (src.2 + (o - dst.2)) :=
  if_pos h

theorem copy_of_not_covers {m m' : Nat → Nat → α} {dst src : Nat × Nat} {n s o : Nat}
    (h : ¬ Covers dst n s o) : copy m dst m' src n s o = m s o :=
  if_neg h

variable {dst src : ι → Nat × Nat} {n : ι → Nat} {s o : Nat}

theorem foldl_copy_of_not_covers {l : List ι} (m m' : Nat → Nat → α)
    (h : ∀ i ∈ l, ¬ Covers (dst i) (n i) s o) :
    l.foldl (fun m i => copy m (dst i) m' (src i) (n i)) m s o = m s o := by
  induction l generalizing m with
  | nil => rfl
  | cons i l ih =>
    rw [List.foldl_cons, ih _ fun j hj => h j (List.mem_cons_of_mem _ hj)]
    exact copy_of_not_covers (h i List.mem_cons_self)

/-- Of copies to places apart, each lands as if it were the only one. -/
theorem foldl_copy_of_mem (dst src : ι → Nat × Nat) (n : ι → Nat) (m m' : Nat → Nat → α)
    {l : List ι} {i : ι} (hi : i ∈ l)
    (hcov : Covers (dst i) (n i) s o)
    (hapart : ∀ j ∈ l, j ≠ i → ¬ Covers (dst j) (n j) s o) :
    l.foldl (fun m i => copy m (dst i) m' (src i) (n i)) m s o =
      m' (src i).1 ((src i).2 + (o - (dst i).2)) := by
  induction l generalizing m with
  | nil => exact absurd hi List.not_mem_nil
  | cons j l ih =>
    rw [List.foldl_cons]
    by_cases hl : i ∈ l
    · exact ih _ hl fun k hk => hapart k (List.mem_cons_of_mem _ hk)
    · have heq : i = j := by simpa [hl] using hi
      subst heq
      rw [foldl_copy_of_not_covers]
      · exact copy_of_covers hcov
      · intro k hk
        exact hapart k (List.mem_cons_of_mem _ hk) (fun heq => hl (heq ▸ hk))

end Copies

end Packing
