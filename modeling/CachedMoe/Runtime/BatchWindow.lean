import CachedMoe.Runtime.SpecStep
import Mathlib.Data.List.Perm.Basic
import Mathlib.Order.Bounds.Basic

/-! # The window lists of a verify batch

    `write_batch_window_lists` of `runtime/decode_layer.cpp`. The ring already holds every token
    of the batch when its rows attend, so a row leaves out the slots of the tokens after its own
    and reads the positions these overwrote from the overflow rows. -/

namespace CachedMoe.Runtime

open CachedMoe KvStore

/-! ### The lists -/

/-- The lists of a batch: list, row and entry. -/
structure BatchScratch where
  m_cap : Nat
  n_lists : Nat
  list_stride : Nat
  lists : Nat → Nat → Nat → Int

/-- `BatchScratch::create`, as far as the lists go. -/
def BatchScratch.create (sliding_window index_topk index_sources mcap : Nat)
    (lists : Nat → Nat → Nat → Int) : Result BatchScratch :=
  if mcap < 1 ∨ mcap > kMgtMaxM then
    fail .InvalidArgument s!"batch size {mcap} outside 1..{kMgtMaxM}"
  else
    .ok { m_cap := mcap
          n_lists := 1 + index_sources
          list_stride := sliding_window + kMgtMaxM - 1 + index_topk
          lists }

/-- The position ring slot `slot` holds once every position up to `q` is written. -/
def held_position (window q slot : Nat) : Int := q - ((q + window - slot) % window : Nat)

/-- Entry `i` of the ring half, for the query `mm` of a batch of `m` from `p0` on. -/
def ring_entry (window p0 m mm i : Nat) : Int :=
  let q := p0 + m - 1
  let P := p0 + mm
  let oldest := P % window + 1
  let slot := (oldest + i) % window
  let held := held_position window q slot
  if held ≥ 0 ∧ held ≤ P then slot else -1

/-- The entry of the overflow row of token `j`. -/
def overflow_entry (window p0 mm j : Nat) : Int :=
  if j > mm ∧ p0 + j ≥ window then (window + j - 1 : Nat) else -1

def batch_entry (window p0 m mm i : Nat) : Int :=
  if i < window then ring_entry window p0 m mm i
  else if i < window + m - 1 then overflow_entry window p0 mm (i - window + 1)
  else -1

def write_batch_window_lists (b : BatchScratch) (window p0 m : Nat) : BatchScratch :=
  { b with
    lists := fun li mm i =>
      if li < b.n_lists ∧ mm < m ∧ i < b.list_stride then batch_entry window p0 m mm i
      else b.lists li mm i }

def BatchScratch.row (b : BatchScratch) (li mm : Nat) : List Int :=
  (List.range b.list_stride).map (b.lists li mm)

/-- A row of a batch that fits the scratch fits its list. -/
theorem create_room {sliding_window index_topk index_sources mcap m : Nat}
    {lists : Nat → Nat → Nat → Int} {b : BatchScratch}
    (h : BatchScratch.create sliding_window index_topk index_sources mcap lists = .ok b)
    (hm : m ≤ b.m_cap) : sliding_window + m - 1 ≤ b.list_stride := by
  unfold BatchScratch.create at h
  split at h
  · cases h
  · cases h
    dsimp only at hm ⊢
    omega

/-! ### What an entry stands for -/

/-- The position an entry of a batch list stands for: what its ring slot holds, or what token `j`
    overwrote in overflow row `window + j - 1`. -/
def entry_position (window p0 m : Nat) (v : Int) : Int :=
  if v < window then held_position window (p0 + m - 1) v.toNat
  else p0 + (v - window + 1) - window

/-- The positions a row lists. -/
def listed (window p0 m : Nat) (row : List Int) : List Int :=
  (row.filter (· ≠ -1)).map (entry_position window p0 m)

/-- The positions a sequential step at `P` lists: entry `i` stands for `P - (window - 1 - i)`. -/
def decode_listed (kv : KvStore) (layer P : Nat) : List Int :=
  ((List.range kv.cfg.window).filter fun i => kv.top layer i ≠ -1).map fun (i : Nat) =>
    (P : Int) - ((kv.cfg.window : Int) - 1 - (i : Int))

/-- The positions `max 0 (P - window + 1)` to `P`. -/
def window_positions (window P : Nat) : List Int :=
  (List.range' (P + 1 - window) (P + 1 - (P + 1 - window))).map Int.ofNat

/-- What the `i`-th oldest place of the window of `P` holds, if there is such a position. -/
def place (window P i : Nat) : Option Int :=
  if window ≤ P + 1 + i then some ((P + 1 + i : Nat) - window : Int) else none

/-! ### The ring half -/

section Ring

variable {window m mm i : Nat} (p0 : Nat)

/-- The slot of entry `i` holds the position `i` places after the oldest one, a window earlier
    unless a later token of the batch has written it. -/
theorem held_position_entry (hm : 1 ≤ m) (hmw : m ≤ window) (hmm : mm < m) (hi : i < window) :
    held_position window (p0 + m - 1) (((p0 + mm) % window + 1 + i) % window) =
      if i < m - 1 - mm then ((p0 + mm + 1 + i : Nat) : Int)
      else ((p0 + mm + 1 + i : Nat) : Int) - window := by
  have hw : 0 < window := by omega
  have hslot : ((p0 + mm) % window + 1 + i) % window = (p0 + mm + 1 + i) % window := by
    rw [Nat.add_assoc, Nat.mod_add_mod, ← Nat.add_assoc]
  rw [hslot]
  have hdiv := Nat.div_add_mod (p0 + mm + 1 + i) window
  have hlt := Nat.mod_lt (p0 + mm + 1 + i) hw
  generalize (p0 + mm + 1 + i) % window = slot at hdiv hlt
  generalize hd : (p0 + mm + 1 + i) / window = d at hdiv
  unfold held_position
  -- the slot is `i + 1` places behind the row's own position, and the batch ends `m - 1 - mm`
  -- places behind that one
  by_cases hlate : i < m - 1 - mm
  · rw [if_pos hlate]
    have hback : p0 + m - 1 + window - slot = (m - 1 - mm - 1 - i) + window * (d + 1) := by
      rw [Nat.mul_add, Nat.mul_one]
      omega
    rw [hback, Nat.add_mul_mod_self_left, Nat.mod_eq_of_lt (by omega)]
    omega
  · rw [if_neg hlate]
    have hback : p0 + m - 1 + window - slot = (window + (m - 1 - mm) - 1 - i) + window * d := by
      omega
    rw [hback, Nat.add_mul_mod_self_left, Nat.mod_eq_of_lt (by omega)]
    omega

/-- An entry of the ring half lists its place of the window, unless a later token has taken its
    slot. -/
theorem ring_entry_position (hm : 1 ≤ m) (hmw : m ≤ window) (hmm : mm < m) (hi : i < window) :
    (if ring_entry window p0 m mm i ≠ -1 then
        some (entry_position window p0 m (ring_entry window p0 m mm i)) else none) =
      if i < m - 1 - mm then none else place window (p0 + mm) i := by
  have hheld := held_position_entry p0 hm hmw hmm hi
  have hslot : ((p0 + mm) % window + 1 + i) % window < window := Nat.mod_lt _ (by omega)
  have hentry : ring_entry window p0 m mm i =
      if 0 ≤ held_position window (p0 + m - 1) (((p0 + mm) % window + 1 + i) % window) ∧
          held_position window (p0 + m - 1) (((p0 + mm) % window + 1 + i) % window) ≤
            ((p0 + mm : Nat) : Int) then
        ((((p0 + mm) % window + 1 + i) % window : Nat) : Int)
      else -1 := rfl
  unfold place
  by_cases hlate : i < m - 1 - mm
  · rw [if_pos hlate] at hheld
    rw [hheld] at hentry
    rw [if_neg (by omega)] at hentry
    rw [hentry, if_neg (fun h => h rfl), if_pos hlate]
  rw [if_neg hlate] at hheld
  rw [hheld] at hentry
  rw [if_neg hlate]
  by_cases hold : window ≤ p0 + mm + 1 + i
  · rw [if_pos (by omega)] at hentry
    rw [hentry, if_pos (by omega), if_pos hold, entry_position, if_pos (by omega),
      Int.toNat_natCast, hheld]
  · rw [if_neg (by omega)] at hentry
    rw [hentry, if_neg (fun h => h rfl), if_neg hold]

end Ring

/-! ### The overflow rows -/

/-- The overflow row of a later token `j` lists the place whose slot `j` has taken. -/
theorem overflow_entry_position {window p0 m mm j : Nat} (hw : 0 < window) (hj : 1 ≤ j) :
    (if overflow_entry window p0 mm j ≠ -1 then
        some (entry_position window p0 m (overflow_entry window p0 mm j)) else none) =
      if mm < j then place window (p0 + mm) (j - 1 - mm) else none := by
  unfold place
  by_cases hlate : mm < j
  · have hsum : p0 + mm + 1 + (j - 1 - mm) = p0 + j := by omega
    rw [if_pos hlate, hsum]
    by_cases hold : window ≤ p0 + j
    · have hentry : overflow_entry window p0 mm j = ((window + j - 1 : Nat) : Int) :=
        if_pos ⟨hlate, hold⟩
      rw [hentry, if_pos (by omega), if_pos hold, entry_position, if_neg (by omega)]
      congr 1
      omega
    · have hentry : overflow_entry window p0 mm j = -1 := if_neg fun h => hold h.2
      rw [hentry, if_neg (fun h => h rfl), if_neg hold]
  · have hentry : overflow_entry window p0 mm j = -1 := if_neg fun h => hlate h.1
    rw [hentry, if_neg (fun h => h rfl), if_neg hlate]

/-! ### Rows -/

theorem listed_map {α : Type} (window p0 m : Nat) (f : α → Int) (l : List α) :
    listed window p0 m (l.map f) =
      l.filterMap fun i => if f i ≠ -1 then some (entry_position window p0 m (f i)) else none := by
  induction l with
  | nil => rfl
  | cons a l ih =>
    unfold listed at ih ⊢
    rw [List.map_cons, List.filterMap_cons]
    by_cases h : f a ≠ -1
    · rw [List.filter_cons_of_pos (by simpa using h), List.map_cons, ih, if_pos h]
    · rw [List.filter_cons_of_neg (by simpa using h), ih, if_neg h]

theorem range_split {d n : Nat} (h : d ≤ n) :
    List.range n = List.range d ++ List.range' d (n - d) := by
  have happend := @List.range'_append_1 0 d (n - d)
  rw [Nat.zero_add, Nat.add_sub_cancel' h] at happend
  rw [List.range_eq_range', List.range_eq_range', happend]

/-- The places of the window of `P` hold the positions of the window. -/
theorem filterMap_place {window P : Nat} :
    (List.range window).filterMap (place window P) = window_positions window P := by
  have hsplit : List.range window = List.range (window - (P + 1)) ++
      List.range' (window - (P + 1)) (min window (P + 1)) := by
    rw [range_split (Nat.sub_le window (P + 1))]
    congr 2
    omega
  have hyoung : (List.range (window - (P + 1))).filterMap (place window P) = [] := by
    rw [List.filterMap_eq_nil_iff]
    intro i hi
    have hlt := List.mem_range.mp hi
    exact if_neg (by omega)
  have hold : (List.range' (window - (P + 1)) (min window (P + 1))).filterMap (place window P) =
      (List.range' (window - (P + 1)) (min window (P + 1))).map
        fun i => ((P + 1 + i : Nat) - window : Int) := by
    rw [← List.filterMap_eq_map]
    apply List.filterMap_congr
    intro i hi
    have hge := (List.mem_range'_1.mp hi).1
    exact if_pos (by omega)
  rw [hsplit, List.filterMap_append, hyoung, hold, List.nil_append]
  unfold window_positions
  rw [List.range'_eq_map_range, List.range'_eq_map_range, List.map_map, List.map_map,
    show P + 1 - (P + 1 - window) = min window (P + 1) by omega]
  apply List.map_congr_left
  intro i _
  simp only [Function.comp_apply, Int.ofNat_eq_natCast]
  omega

/-- The overflow rows of the tokens after `mm` are the places whose slots these have taken. -/
theorem overflow_places {window p0 m mm : Nat} (hmm : mm < m) :
    (List.range' 1 (m - 1)).filterMap (fun j =>
        if mm < j then place window (p0 + mm) (j - 1 - mm) else none) =
      (List.range (m - 1 - mm)).filterMap (place window (p0 + mm)) := by
  have hsplit : List.range' 1 (m - 1) = List.range' 1 mm ++ List.range' (1 + mm) (m - 1 - mm) := by
    rw [List.range'_append_1]
    congr 1
    omega
  have hearly : (List.range' 1 mm).filterMap (fun j =>
      if mm < j then place window (p0 + mm) (j - 1 - mm) else none) = [] := by
    rw [List.filterMap_eq_nil_iff]
    intro j hj
    have hlt := (List.mem_range'_1.mp hj).2
    exact if_neg (by omega)
  rw [hsplit, List.filterMap_append, hearly, List.nil_append, List.range'_eq_map_range,
    List.filterMap_map]
  apply List.filterMap_congr
  intro i _
  simp only [Function.comp_apply]
  rw [if_pos (by omega), show 1 + mm + i - 1 - mm = i by omega]

theorem ring_places {window p0 m mm : Nat} (hmw : m ≤ window) :
    (List.range window).filterMap (fun i =>
        if i < m - 1 - mm then none else place window (p0 + mm) i) =
      (List.range' (m - 1 - mm) (window - (m - 1 - mm))).filterMap (place window (p0 + mm)) := by
  have hlate : (List.range (m - 1 - mm)).filterMap (fun i =>
      if i < m - 1 - mm then none else place window (p0 + mm) i) = [] := by
    rw [List.filterMap_eq_nil_iff]
    intro i hi
    exact if_pos (List.mem_range.mp hi)
  rw [range_split (show m - 1 - mm ≤ window by omega), List.filterMap_append, hlate,
    List.nil_append]
  apply List.filterMap_congr
  intro i hi
  have hge := (List.mem_range'_1.mp hi).1
  exact if_neg (by omega)

/-- The entries of a row, in the order they are written. -/
theorem row_eq {b : BatchScratch} {window p0 m mm li : Nat} (hmm : mm < m) (hli : li < b.n_lists)
    (hroom : window + m - 1 ≤ b.list_stride) :
    (write_batch_window_lists b window p0 m).row li mm =
      (List.range window).map (ring_entry window p0 m mm) ++
        ((List.range' 1 (m - 1)).map (overflow_entry window p0 mm) ++
          (List.range' (window + m - 1) (b.list_stride - (window + m - 1))).map fun _ => -1) := by
  have hsplit : List.range b.list_stride = List.range window ++
      (List.range' window (m - 1) ++
        List.range' (window + m - 1) (b.list_stride - (window + m - 1))) := by
    rw [range_split (show window ≤ b.list_stride by omega),
      show window + m - 1 = window + (m - 1) by omega, List.range'_append_1]
    congr 2
    omega
  have hentry : (write_batch_window_lists b window p0 m).row li mm =
      (List.range b.list_stride).map (batch_entry window p0 m mm) := by
    apply List.map_congr_left
    intro i hi
    exact if_pos ⟨hli, hmm, List.mem_range.mp hi⟩
  rw [hentry, hsplit, List.map_append, List.map_append]
  congr 1
  · apply List.map_congr_left
    intro i hi
    exact if_pos (List.mem_range.mp hi)
  congr 1
  · rw [List.range'_eq_map_range, List.range'_eq_map_range, List.map_map, List.map_map]
    apply List.map_congr_left
    intro i hi
    have hlt := List.mem_range.mp hi
    simp only [Function.comp_apply, batch_entry]
    rw [if_neg (by omega), if_pos (by omega), show window + i - window + 1 = 1 + i by omega]
  · apply List.map_congr_left
    intro i hi
    have hge := (List.mem_range'_1.mp hi).1
    unfold batch_entry
    rw [if_neg (by omega), if_neg (by omega)]

theorem listed_append (window p0 m : Nat) (as bs : List Int) :
    listed window p0 m (as ++ bs) = listed window p0 m as ++ listed window p0 m bs := by
  unfold listed
  rw [List.filter_append, List.map_append]

theorem listed_row {b : BatchScratch} {window m mm li : Nat} (p0 : Nat) (hm : 1 ≤ m)
    (hmw : m ≤ window) (hmm : mm < m) (hli : li < b.n_lists) (hroom : window + m - 1 ≤ b.list_stride) :
    (listed window p0 m ((write_batch_window_lists b window p0 m).row li mm)).Perm
      (window_positions window (p0 + mm)) := by
  have hring : listed window p0 m ((List.range window).map (ring_entry window p0 m mm)) =
      (List.range' (m - 1 - mm) (window - (m - 1 - mm))).filterMap (place window (p0 + mm)) := by
    rw [listed_map, ← ring_places hmw]
    apply List.filterMap_congr
    intro i hi
    exact ring_entry_position p0 hm hmw hmm (List.mem_range.mp hi)
  have hoverflow : listed window p0 m ((List.range' 1 (m - 1)).map (overflow_entry window p0 mm)) =
      (List.range (m - 1 - mm)).filterMap (place window (p0 + mm)) := by
    rw [listed_map, ← overflow_places hmm]
    apply List.filterMap_congr
    intro j hj
    exact overflow_entry_position (by omega) (List.mem_range'_1.mp hj).1
  have hrest : ∀ l : List Nat, listed window p0 m (l.map fun _ => -1) = [] := by
    intro l
    rw [listed_map, List.filterMap_eq_nil_iff]
    intro i _
    exact if_neg (by simp)
  rw [row_eq hmm hli hroom, listed_append, listed_append, hring, hoverflow, hrest, List.append_nil,
    ← filterMap_place, range_split (show m - 1 - mm ≤ window by omega), List.filterMap_append]
  exact List.perm_append_comm

/-! ### The sequential step -/

theorem set_decode_topk_top {kv kv' : KvStore} {layer P n_cmp n_sel : Nat}
    (h : kv.set_decode_topk layer P n_cmp n_sel = (.ok (), kv')) :
    ∀ i < kv.cfg.window, kv'.top layer i = kv.window_entry P i := by
  unfold KvStore.set_decode_topk at h
  split at h
  · cases h
  have hres := (reserve_keeps_rows kv (P + 1)).1
  generalize kv.reserve (P + 1) = res at h hres
  obtain ⟨r, kv₁⟩ := res
  cases r with
  | error err => cases h
  | ok _ =>
    dsimp only at h hres
    have hcounts := (set_counts_keeps kv₁ layer n_cmp (kv₁.cfg.window + n_sel)).1
    generalize kv₁.set_counts layer n_cmp (kv₁.cfg.window + n_sel) = res at h hcounts
    obtain ⟨r, kv₂⟩ := res
    have hkeeps := hres.trans hcounts
    cases r with
    | error err => cases h
    | ok _ =>
      obtain rfl := (Prod.mk.inj h).2
      intro i hi
      dsimp only at hkeeps ⊢
      rw [Function.update_self, hkeeps.cfg, if_pos hi]
      unfold window_entry
      rw [hkeeps.cfg, hkeeps.win_lo]

theorem decode_listed_eq {kv kv' : KvStore} {layer P n_cmp n_sel : Nat}
    (h : kv.set_decode_topk layer P n_cmp n_sel = (.ok (), kv')) :
    decode_listed kv' layer P =
      (window_positions kv.cfg.window P).filter fun x => (kv.win_lo : Int) ≤ x := by
  have hkeeps := (set_decode_topk_keeps kv layer P n_cmp n_sel).1
  rw [h] at hkeeps
  have htop := set_decode_topk_top h
  have hentry : ∀ i < kv.cfg.window, (kv'.top layer i ≠ -1 ↔
      kv.cfg.window ≤ P + 1 + i ∧ kv.win_lo ≤ P + 1 + i - kv.cfg.window) := by
    intro i hi
    rw [htop i hi, window_entry]
    split <;> omega
  unfold decode_listed
  rw [hkeeps.cfg, ← filterMap_place, List.filter_filterMap, ← List.filterMap_eq_map,
    List.filterMap_filter]
  apply List.filterMap_congr
  intro i hi
  have hiff := hentry i (List.mem_range.mp hi)
  unfold place
  by_cases hpos : kv.cfg.window ≤ P + 1 + i
  · rw [if_pos hpos]
    by_cases hfloor : kv.win_lo ≤ P + 1 + i - kv.cfg.window
    · rw [if_pos (by simpa using hiff.mpr ⟨hpos, hfloor⟩), Option.filter_some,
        if_pos (by simp; omega)]
      simp only [Function.comp_apply, Option.some.injEq]
      omega
    · rw [if_neg (by simpa using fun h => hfloor (hiff.mp h).2), Option.filter_some,
        if_neg (by simp; omega)]
  · rw [if_neg hpos, if_neg (by simpa using fun h => hpos (hiff.mp h).1)]
    rfl

theorem mem_window_positions {window P : Nat} {x : Int} :
    x ∈ window_positions window P ↔ ((P + 1 - window : Nat) : Int) ≤ x ∧ x ≤ P := by
  unfold window_positions
  rw [List.mem_map]
  constructor
  · rintro ⟨n, hn, rfl⟩
    have hn := List.mem_range'_1.mp hn
    simp only [Int.ofNat_eq_natCast]
    omega
  · intro hx
    refine ⟨x.toNat, List.mem_range'_1.mpr (by omega), ?_⟩
    simp only [Int.ofNat_eq_natCast]
    omega

/-- The floor leaves the window whole exactly where it is not above the oldest position. -/
theorem decode_listed_perm_iff {kv kv' : KvStore} {layer P n_cmp n_sel : Nat}
    (h : kv.set_decode_topk layer P n_cmp n_sel = (.ok (), kv')) :
    (decode_listed kv' layer P).Perm (window_positions kv.cfg.window P) ↔
      kv.win_lo ≤ P + 1 - kv.cfg.window := by
  have hpos := kv.cfg.window_pos
  rw [decode_listed_eq h]
  constructor
  · intro hperm
    have holdest : ((P + 1 - kv.cfg.window : Nat) : Int) ∈ window_positions kv.cfg.window P :=
      mem_window_positions.mpr ⟨Int.le_refl _, by omega⟩
    have hkept := (List.mem_filter.mp (hperm.mem_iff.mpr holdest)).2
    exact Int.ofNat_le.mp (of_decide_eq_true hkept)
  · intro hfloor
    have hall : (window_positions kv.cfg.window P).filter (fun x => (kv.win_lo : Int) ≤ x) =
        window_positions kv.cfg.window P := by
      rw [List.filter_eq_self]
      intro x hx
      have hge := (mem_window_positions.mp hx).1
      exact decide_eq_true (by omega)
    rw [hall]

/-! ### A batch against its steps -/

/-- Row `mm` of a batch lists the positions `max 0 (P - window + 1)` to `P`, each once, and these
    are the positions of a step at `P` exactly where the window floor is at most the oldest one. -/
theorem batch_window_sequential_iff {b : BatchScratch} {p0 m mm li : Nat} {kv kv' : KvStore}
    {layer n_cmp n_sel : Nat} (hm : 1 ≤ m) (hmw : m ≤ kv.cfg.window) (hmm : mm < m)
    (hli : li < b.n_lists) (hroom : kv.cfg.window + m - 1 ≤ b.list_stride)
    (h : kv.set_decode_topk layer (p0 + mm) n_cmp n_sel = (.ok (), kv')) :
    (listed kv.cfg.window p0 m
        ((write_batch_window_lists b kv.cfg.window p0 m).row li mm)).Perm
      (window_positions kv.cfg.window (p0 + mm)) ∧
    ((listed kv.cfg.window p0 m
        ((write_batch_window_lists b kv.cfg.window p0 m).row li mm)).Perm
      (decode_listed kv' layer (p0 + mm)) ↔ kv.win_lo ≤ p0 + mm + 1 - kv.cfg.window) := by
  have hrow := listed_row p0 hm hmw hmm hli hroom
  refine ⟨hrow, ?_⟩
  rw [← decode_listed_perm_iff h]
  exact ⟨fun hperm => hperm.symm.trans hrow, fun hperm => hrow.trans hperm.symm⟩

/-! #### A floor inside the window -/

/-- A four-slot store whose ring was rebuilt from position 3 on. -/
def floored_store : KvStore where
  cfg :=
    { layers := 1, window := 4, window_pos := KvStoreConfig.small_window_pos, latent_dim := 2,
      index_dim := 1, max_context := 64, max_ratio := 2, plane_of := [none], ratio := [0] }
  valid := true
  cap := 64
  win_lo := 3

def small_batch : BatchScratch where
  m_cap := 2
  n_lists := 1
  list_stride := 9
  lists := fun _ _ _ => 0

/-- The batch at positions 4 and 5 lists position 1 for its first row, which a step at 4 leaves
    out. -/
theorem batch_window_ignores_floor :
    ¬ ∀ (kv kv' : KvStore) (b : BatchScratch) (p0 m mm : Nat), 1 ≤ m → m ≤ kv.cfg.window → mm < m →
      0 < b.n_lists → kv.cfg.window + m - 1 ≤ b.list_stride →
      kv.set_decode_topk 0 (p0 + mm) 0 0 = (.ok (), kv') →
      (listed kv.cfg.window p0 m
          ((write_batch_window_lists b kv.cfg.window p0 m).row 0 mm)).Perm
        (decode_listed kv' 0 (p0 + mm)) := by
  intro h
  have hperm := h floored_store (floored_store.set_decode_topk 0 4 0 0).2 small_batch 4 2 0
    (by decide) (by decide) (by decide) (by decide) (by decide) rfl
  exact absurd hperm (by decide)

/-- Without the floor the row lists what the step does. -/
theorem batch_window_sequential_pair :
    (listed 4 4 2 ((write_batch_window_lists small_batch 4 4 2).row 0 0)).Perm
      (decode_listed ((floored_store.set_window_floor 0).set_decode_topk 0 4 0 0).2 0 4) := by
  have hstep : (floored_store.set_window_floor 0).set_decode_topk 0 (4 + 0) 0 0 =
      (.ok (), ((floored_store.set_window_floor 0).set_decode_topk 0 4 0 0).2) := rfl
  have hlists := @batch_window_sequential_iff small_batch 4 2 0 0 _ _ 0 0 0 (by decide) (by decide)
    (by decide) (by decide) (by decide) hstep
  exact hlists.2.mpr (by decide)

end CachedMoe.Runtime
