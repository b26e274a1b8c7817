import CachedMoe.Runtime.Reheat
import CachedMoe.Store.Stamps
import Mathlib.Tactic.NormNum

/-! # Heat over turns

    `note_heat` and `decay_heat` of `store/expert_store.cpp` over whole conversations. A turn is
    what the store does up to a boundary, and the boundary is a `decay_heat`.

    "The decay still ages the order: an expert that stops being routed falls by `factor` a turn
    relative to the hot end." The boundary divides every heat by the largest one and does not
    multiply by the factor, so the heats keep their ratios there (`relative_heat_decay`): an
    expert that is not noted falls, relative to the hot end, only as far as the hot end rises. -/

namespace CachedMoe.Runtime

open CachedMoe Store ExpertStore

variable {st st' : ExpertStore} {key : ExpertKey} {factor : ℚ} {turn : List Op}
  {turns : List (List Op)}

/-! ### Turns -/

/-- The operations that change the heat of a slot that is held. -/
def changes_heat : Op → Bool
  | .note_heat .. | .decay_heat _ => true
  | _ => false

/-- The operations of a turn in which `key` is not noted. -/
def passes_over (key : ExpertKey) : Op → Bool
  | .note_heat k _ _ => decide (k ≠ key)
  | .decay_heat _ => false
  | _ => true

/-- Scores are not negative, and `alpha` is a weight. -/
def IsAverage : Op → Prop
  | .note_heat _ score alpha => 0 ≤ score ∧ 0 ≤ alpha ∧ alpha ≤ 1
  | _ => True

/-- The store after the operations of a turn. -/
def play (st : ExpertStore) (turn : List Op) : ExpertStore := turn.foldl ExpertStore.apply st

/-- Of each turn the store it starts from, and the one its boundary is reached in. -/
def turns_from (factor : ℚ) : ExpertStore → List (List Op) → List (ExpertStore × ExpertStore)
  | _, [] => []
  | st, turn :: turns =>
    (st, play st turn) :: turns_from factor ((play st turn).decay_heat factor) turns

/-- The store after the turns, each with its boundary. -/
def after_turns (factor : ℚ) : ExpertStore → List (List Op) → ExpertStore
  | st, [] => st
  | st, turn :: turns => after_turns factor ((play st turn).decay_heat factor) turns

/-- The heat of an expert relative to the hot end. -/
def relative_heat (st : ExpertStore) (key : ExpertKey) : ℚ := heat_of st key / st.heat_max

/-- By how much a turn raises the hot end. -/
def growth (ends : ExpertStore × ExpertStore) : ℚ := ends.2.heat_max / ends.1.heat_max

/-- No turn notes `key`, and another resident expert ends each of them at the hot end. -/
structure PassedOver (factor : ℚ) (key : ExpertKey) (st : ExpertStore) (turns : List (List Op)) :
    Prop where
  passes : ∀ turn ∈ turns, ∀ op ∈ turn, passes_over key op
  hottest : ∀ ends ∈ turns_from factor st turns,
    ∃ k, k ≠ key ∧ ends.2.resident k ∧ heat_of ends.2 k = ends.2.heat_max

/-- `key` falls by `factor` a turn, and every boundary leaves the hot end at 1. -/
structure Ages (factor : ℚ) (key : ExpertKey) (st : ExpertStore) (turns : List (List Op)) :
    Prop where
  falls : relative_heat (after_turns factor st turns) key ≤
    factor ^ turns.length * relative_heat st key
  hot_end : ∀ ends ∈ turns_from factor st turns, (ends.2.decay_heat factor).heat_max = 1

/-- Every turn ends with some heat, and the turns raise the hot end as far as `key` has to fall,
    unless `key` has no heat to lose. -/
structure Outgrown (factor : ℚ) (key : ExpertKey) (st : ExpertStore) (turns : List (List Op)) :
    Prop where
  warm : ∀ ends ∈ turns_from factor st turns, 0 < ends.2.heat_max
  grows : (heat_of st key = 0 ∨ ∃ ends ∈ turns_from factor st turns, heat_of ends.2 key = 0) ∨
    1 ≤ factor ^ turns.length * ((turns_from factor st turns).map growth).prod

/-! ### The hot end -/

/-- The running maximum, from 0 up. -/
theorem foldl_hottest (heat : Nat → ℚ) (n : Nat) :
    (∀ i < n, heat i ≤ (List.range n).foldl (fun top i => if heat i > top then heat i else top) 0) ∧
      0 ≤ (List.range n).foldl (fun top i => if heat i > top then heat i else top) 0 := by
  induction n with
  | zero => exact ⟨fun i hi => absurd hi (Nat.not_lt_zero i), le_rfl⟩
  | succ n ih =>
    obtain ⟨hle, hpos⟩ := ih
    rw [List.range_succ, List.foldl_append, List.foldl_cons, List.foldl_nil]
    split
    next hlt =>
      refine ⟨fun i hi => ?_, hpos.trans hlt.le⟩
      rcases Nat.lt_succ_iff_lt_or_eq.mp hi with hi | rfl
      · exact (hle i hi).trans hlt.le
      · exact le_rfl
    next hge =>
      refine ⟨fun i hi => ?_, hpos⟩
      rcases Nat.lt_succ_iff_lt_or_eq.mp hi with hi | rfl
      · exact hle i hi
      · exact not_lt.mp hge

/-- Rescaling every heat rescales the maximum. -/
theorem foldl_hottest_scale (heat : Nat → ℚ) {c : ℚ} (hc : 0 < c) (n : Nat) :
    (List.range n).foldl (fun top i => if heat i * c > top then heat i * c else top) 0 =
      (List.range n).foldl (fun top i => if heat i > top then heat i else top) 0 * c := by
  induction n with
  | zero => simp
  | succ n ih =>
    rw [List.range_succ, List.foldl_append, List.foldl_append, ih]
    simp only [List.foldl_cons, List.foldl_nil, gt_iff_lt, mul_lt_mul_iff_left₀ hc]
    split
    · rfl
    · rfl

theorem heat_max_nonneg (st : ExpertStore) : 0 ≤ st.heat_max :=
  (foldl_hottest (fun i => (st.slots i).heat) st.slots_size).2

theorem le_heat_max {i : Nat} (hi : i < st.slots_size) : (st.slots i).heat ≤ st.heat_max :=
  (foldl_hottest (fun i => (st.slots i).heat) st.slots_size).1 i hi

theorem heat_of_held {i : Nat} (h : st.index key = some i) : heat_of st key = (st.slots i).heat := by
  rw [heat_of, slot_for_eq h, Option.getD_some]

theorem heat_of_absent (h : st.index key = none) : heat_of st key = 0 := by
  rw [heat_of, slot_for, h]
  rfl

theorem heat_of_le (hinv : Inv st) (key : ExpertKey) : heat_of st key ≤ st.heat_max := by
  cases h : st.index key with
  | none => exact (heat_of_absent h).trans_le (heat_max_nonneg st)
  | some i => exact (heat_of_held h).trans_le (le_heat_max ((hinv.index key i).mp h).1)

/-! ### The boundary -/

theorem decay_heat_warm (h1 : factor < 1) (hwarm : 0 < st.heat_max) :
    st.decay_heat factor = { st with slots := fun i =>
      { st.slots i with heat := (st.slots i).heat * (1 / st.heat_max) } } := by
  rw [ExpertStore.decay_heat, if_neg (not_le.mpr h1), if_neg (not_le.mpr hwarm)]

/-- A store without heat is left alone. -/
theorem decay_heat_cold (hcold : ¬ 0 < st.heat_max) : st.decay_heat factor = st := by
  rw [ExpertStore.decay_heat]
  split
  · rfl
  · exact if_pos (not_lt.mp hcold)

theorem heat_of_decay (h1 : factor < 1) (hwarm : 0 < st.heat_max) (key : ExpertKey) :
    heat_of (st.decay_heat factor) key = heat_of st key * (1 / st.heat_max) := by
  have hindex : (st.decay_heat factor).index = st.index := by rw [decay_heat_warm h1 hwarm]
  cases h : st.index key with
  | none => rw [heat_of_absent h, heat_of_absent (hindex ▸ h), zero_mul]
  | some i => rw [heat_of_held h, heat_of_held (hindex ▸ h), decay_heat_warm h1 hwarm]

theorem heat_max_decay (h1 : factor < 1) :
    (st.decay_heat factor).heat_max = 1 ↔ 0 < st.heat_max := by
  constructor
  · intro h
    by_contra hcold
    rw [decay_heat_cold hcold] at h
    rw [h] at hcold
    exact hcold one_pos
  · intro hwarm
    have hscale := foldl_hottest_scale (fun i => (st.slots i).heat) (one_div_pos.mpr hwarm)
      st.slots_size
    rw [decay_heat_warm h1 hwarm]
    calc _ = st.heat_max * (1 / st.heat_max) := hscale
      _ = 1 := mul_one_div_cancel hwarm.ne'

/-- The boundary leaves every expert where it was, relative to the hot end. -/
theorem relative_heat_decay (h1 : factor < 1) (hwarm : 0 < st.heat_max) (key : ExpertKey) :
    relative_heat (st.decay_heat factor) key = relative_heat st key := by
  rw [relative_heat, (heat_max_decay h1).mpr hwarm, heat_of_decay h1 hwarm, div_one, mul_one_div]
  rfl

/-! ### The turn -/

/-- A slot keeps its heat, or loses it. -/
def Cools (s s' : ExpertSlot) : Prop :=
  s'.heat = 0 ∨ s'.heat = s.heat ∧ (s'.state = .Free → s.state = .Free)

theorem Cools.refl (s : ExpertSlot) : Cools s s :=
  .inr ⟨rfl, id⟩

theorem Cools.trans {s s₁ s₂ : ExpertSlot} (h : Cools s s₁) (h' : Cools s₁ s₂) : Cools s s₂ := by
  rcases h' with hzero | ⟨hsame', hfree'⟩
  · exact .inl hzero
  rcases h with hzero | ⟨hsame, hfree⟩
  · exact .inl (hsame'.trans hzero)
  · exact .inr ⟨hsame'.trans hsame, fun h => hfree (hfree' h)⟩

theorem cools_update {i : Nat} {s : ExpertSlot} (h : Cools (st.slots i) s) (j : Nat) :
    Cools (st.slots j) (Function.update st.slots i s j) := by
  by_cases hj : j = i
  · subst hj
    rwa [Function.update_self]
  · rw [Function.update_of_ne hj]
    exact .refl _

theorem write_cools {op : Op} (hop : changes_heat op = false) (h : Write op st st') (j : Nat) :
    Cools (st.slots j) (st'.slots j) := by
  -- only a failed fill and a recycled slot lose their heat
  cases h with
  | note | decay => cases hop
  | count | path_b | evict_path | fix | complete => exact .refl _
  | guard_all =>
    dsimp only
    split
    · exact .inr ⟨rfl, id⟩
    · exact .refl _
  | stamp _ _ i token guard =>
    have hslot : Cools (st.slots i)
        { st.slots i with last_use_token := token, guard_timeline := guard } := .inr ⟨rfl, id⟩
    exact cools_update hslot j
  | guard _ _ i guard =>
    have hslot : Cools (st.slots i) { st.slots i with guard_timeline := guard } := .inr ⟨rfl, id⟩
    exact cools_update hslot j
  | pin _ _ i =>
    have hslot : Cools (st.slots i) { st.slots i with tier := .Pinned } := .inr ⟨rfl, id⟩
    exact cools_update hslot j
  | lay_out _ _ slot total part_offset part_bytes =>
    have hslot : Cools (st.slots slot)
        (laid_out (st.slots slot) total part_offset part_bytes) := .inr ⟨rfl, id⟩
    exact cools_update hslot j
  | land _ _ slot done failed =>
    have hslot : Cools (st.slots slot)
        { st.slots slot with runs_done := done, run_failed := failed } := .inr ⟨rfl, id⟩
    exact cools_update hslot j
  | reserve _ _ key tier slot =>
    have hslot : Cools (st.slots slot) (reserved_slot (st.slots slot) key tier) :=
      .inr ⟨rfl, fun hfree => by cases hfree⟩
    exact cools_update hslot j
  | settle _ _ slot ok token =>
    cases ok with
    | true =>
      have hslot : Cools (st.slots slot) (settled_slot (st.slots slot) token) :=
        .inr ⟨rfl, fun hfree => by cases hfree⟩
      exact cools_update hslot j
    | false =>
      have hslot : Cools (st.slots slot) (released_slot (st.slots slot)) := .inl rfl
      exact cools_update hslot j
  | recycle _ _ slot =>
    have hslot : Cools (st.slots slot) (released_slot (st.slots slot)) := .inl rfl
    exact cools_update hslot j

theorem fresh_slot_heat (pool : SlabPool) (j : Nat) : (fresh_slot pool j).heat = 0 := by
  unfold fresh_slot
  split
  · rfl
  · rfl

theorem init_cools (backing : Option SlabBacking) (cache : CacheConfig)
    (layers experts_per_layer : Nat) (j : Nat) :
    Cools (st.slots j) ((st.init backing cache layers experts_per_layer).2.slots j) := by
  unfold ExpertStore.init
  split
  · exact .refl _
  dsimp only
  split
  · exact .refl _
  · exact .inl (fresh_slot_heat _ j)

theorem init_heat {backing : Option SlabBacking} {cache : CacheConfig}
    {layers experts_per_layer : Nat}
    (h : st.init backing cache layers experts_per_layer = (.ok (), st')) (j : Nat) :
    (st'.slots j).heat = 0 := by
  unfold ExpertStore.init at h
  split at h
  · cases h
  dsimp only at h
  split at h
  · cases h
  · cases h
    exact fresh_slot_heat _ j

theorem apply_cools {op : Op} (hop : changes_heat op = false) (j : Nat) :
    Cools (st.slots j) ((st.apply op).slots j) := by
  cases hkeep : op.keeps_contents with
  | true =>
    exact apply_of_writes (R := fun st st' => ∀ j, Cools (st.slots j) (st'.slots j))
      (fun st j => .refl _) (fun st st₁ st₂ h h' j => (h j).trans (h' j))
      (fun st st' h => write_cools hop h) hkeep j
  | false =>
    cases op with
    | init backing cache layers experts_per_layer => exact init_cools _ _ _ _ j
    | reset => exact .inl rfl
    | _ => cases hkeep

theorem note_heat_slots (st : ExpertStore) (k : ExpertKey) (score alpha : ℚ) (j : Nat) :
    (st.note_heat k score alpha).slots j = st.slots j ∨
      st.index k = some j ∧ (st.note_heat k score alpha).slots j =
        { st.slots j with heat := (1 - alpha) * (st.slots j).heat + alpha * score } := by
  unfold ExpertStore.note_heat
  split
  · exact .inl rfl
  split
  · exact .inl rfl
  next i hi =>
    by_cases hj : j = i
    · subst hj
      exact .inr ⟨hi, Function.update_self _ _ _⟩
    · exact .inl (Function.update_of_ne hj _ _)

theorem decay_heat_slots (st : ExpertStore) (factor : ℚ) (j : Nat) : ∃ c, 0 ≤ c ∧
    (st.decay_heat factor).slots j = { st.slots j with heat := (st.slots j).heat * c } := by
  have hsame : st.slots j = { st.slots j with heat := (st.slots j).heat * 1 } := by
    rw [mul_one]
  unfold ExpertStore.decay_heat
  split
  · exact ⟨1, zero_le_one, hsame⟩
  split
  · exact ⟨1, zero_le_one, hsame⟩
  next hwarm => exact ⟨1 / st.heat_max, (one_div_pos.mpr (not_le.mp hwarm)).le, rfl⟩

/-- Slots that are not in use have no heat. -/
def FreeAreCold (st : ExpertStore) : Prop :=
  ∀ i, (st.slots i).state = .Free → (st.slots i).heat = 0

theorem FreeAreCold.apply (hcold : FreeAreCold st) (hinv : Inv st) (op : Op) :
    FreeAreCold (st.apply op) := by
  intro i hfree
  cases hop : changes_heat op with
  | false =>
    rcases apply_cools hop i with hzero | ⟨hsame, hwas⟩
    · exact hzero
    · rw [hsame, hcold i (hwas hfree)]
  | true =>
    cases op with
    | note_heat k score alpha =>
      rw [ExpertStore.apply] at hfree ⊢
      rcases note_heat_slots st k score alpha i with hsame | ⟨hheld, hnoted⟩
      · rw [hsame] at hfree ⊢
        exact hcold i hfree
      · -- a slot that is noted is in use
        rw [hnoted] at hfree
        exact absurd hfree ((hinv.index k i).mp hheld).2.1
    | decay_heat factor =>
      rw [ExpertStore.apply] at hfree ⊢
      obtain ⟨c, -, hscaled⟩ := decay_heat_slots st factor i
      rw [hscaled] at hfree ⊢
      show (st.slots i).heat * c = 0
      rw [hcold i hfree, zero_mul]
    | _ => cases hop

/-- Heats are averages of scores, and so not negative. -/
theorem apply_heat_nonneg {op : Op} (havg : IsAverage op) (hpos : ∀ j, 0 ≤ (st.slots j).heat)
    (j : Nat) : 0 ≤ ((st.apply op).slots j).heat := by
  cases hop : changes_heat op with
  | false =>
    rcases apply_cools hop j with hzero | ⟨hsame, -⟩
    · exact hzero.ge
    · exact hsame ▸ hpos j
  | true =>
    cases op with
    | note_heat k score alpha =>
      rw [ExpertStore.apply]
      rcases note_heat_slots st k score alpha j with hsame | ⟨-, hnoted⟩
      · exact hsame ▸ hpos j
      · obtain ⟨hscore, hlow, hhigh⟩ := havg
        rw [hnoted]
        exact add_nonneg (mul_nonneg (sub_nonneg.mpr hhigh) (hpos j)) (mul_nonneg hlow hscore)
    | decay_heat factor =>
      obtain ⟨c, hc, hscaled⟩ := decay_heat_slots st factor j
      rw [ExpertStore.apply, hscaled]
      exact mul_nonneg (hpos j) hc
    | _ => cases hop

/-- A slot that holds `key` held it before, or was free. -/
theorem index_from (hinv : Inv st) (op : Op) {i : Nat} (h : (st.apply op).index key = some i) :
    st.index key = some i ∨ (st.slots i).state = .Free := by
  cases hkeep : op.keeps_contents with
  | true =>
    obtain ⟨st₁, hbook, hmove⟩ := hinv.apply_effect hkeep
    rw [← hbook.index, ← (hbook.slots i).state]
    cases hmove with
    | stay heq => exact .inl (heq ▸ h)
    | publish _ _ hmove => exact .inl (hmove.index ▸ h)
    | pin _ _ hmove => exact .inl (hmove.index ▸ h)
    | fill j k s hmove =>
      rw [hmove.index] at h
      by_cases hk : key = k
      · subst hk
        rw [Function.update_self] at h
        cases h
        exact .inr (hmove.was_free (hbook.inv hinv)).2
      · rw [Function.update_of_ne hk] at h
        exact .inl h
    | drop j s hmove =>
      rw [hmove.index] at h
      by_cases hk : key = (st₁.slots j).key
      · subst hk
        rw [Function.update_self] at h
        cases h
      · rw [Function.update_of_ne hk] at h
        exact .inl h
  | false =>
    cases op with
    | init backing cache layers experts_per_layer =>
      rcases init_cases hinv.placed.slot_bytes backing cache layers experts_per_layer with
        hempty | hbook
      · rw [ExpertStore.apply, hempty.index] at h
        cases h
      · rw [ExpertStore.apply, hbook.index] at h
        exact .inl h
    | reset => cases h
    | _ => cases hkeep

theorem heat_of_note_heat (hinv : Inv st) {k : ExpertKey} (hne : k ≠ key) (score alpha : ℚ) :
    heat_of (st.note_heat k score alpha) key = heat_of st key := by
  have hindex := congrFun (show Keep st _ from note_heat_keep k score alpha).index key
  cases h : st.index key with
  | none => rw [heat_of_absent h, heat_of_absent (hindex.trans h)]
  | some j =>
    rw [heat_of_held h, heat_of_held (hindex.trans h)]
    unfold ExpertStore.note_heat
    split
    · rfl
    split
    · rfl
    next i hi =>
      have hj : j ≠ i := by
        rintro rfl
        exact hne (((hinv.index k j).mp hi).2.2.symm.trans ((hinv.index key j).mp h).2.2)
      simp only [ExpertStore.set_slot, Function.update_of_ne hj]

/-- An operation that passes an expert over leaves its heat, or evicts it. -/
theorem heat_of_apply (hinv : Inv st) (hcold : FreeAreCold st) {op : Op}
    (hpass : passes_over key op) :
    heat_of (st.apply op) key = heat_of st key ∨ heat_of (st.apply op) key = 0 := by
  cases hop : changes_heat op with
  | true =>
    cases op with
    | note_heat k score alpha => exact .inl (heat_of_note_heat hinv (of_decide_eq_true hpass) _ _)
    | decay_heat => cases hpass
    | _ => cases hop
  | false =>
    cases h : (st.apply op).index key with
    | none => exact .inr (heat_of_absent h)
    | some i =>
      rw [heat_of_held h]
      rcases apply_cools hop i with hzero | ⟨hsame, -⟩
      · exact .inr hzero
      rcases index_from hinv op h with hheld | hfree
      · exact .inl (hsame.trans (heat_of_held hheld).symm)
      · exact .inr (hsame.trans (hcold i hfree))

/-- The same for a whole turn. -/
theorem play_heat (hinv : Inv st) (hcold : FreeAreCold st)
    (hpass : ∀ op ∈ turn, passes_over key op) :
    Inv (play st turn) ∧ FreeAreCold (play st turn) ∧
      (heat_of (play st turn) key = heat_of st key ∨ heat_of (play st turn) key = 0) := by
  induction turn generalizing st with
  | nil => exact ⟨hinv, hcold, .inl rfl⟩
  | cons op turn ih =>
    have hop := heat_of_apply hinv hcold (hpass op List.mem_cons_self)
    obtain ⟨hinv', hcold', hheat⟩ := ih (hinv.apply op) (hcold.apply hinv op)
      fun op' hmem => hpass op' (List.mem_cons_of_mem op hmem)
    refine ⟨hinv', hcold', ?_⟩
    rcases hheat with hheat | hheat
    · rcases hop with hop | hop
      · exact .inl (hheat.trans hop)
      · exact .inr (hheat.trans hop)
    · exact .inr hheat

/-! ### Whole runs -/

/-- What is known of the store between two operations. -/
structure HeatInv (st : ExpertStore) : Prop where
  inv : Inv st
  cold : FreeAreCold st

/-- The stores that come about while the scores noted are averaged. -/
def averaging : LTS.System ExpertStore Op :=
  store_system.restrict fun _ op => IsAverage op

theorem reachable_heat (h : LTS.Reachable averaging st) :
    HeatInv st ∧ ∀ j, 0 ≤ (st.slots j).heat := by
  refine h.invariant (P := fun st => HeatInv st ∧ ∀ j, 0 ≤ (st.slots j).heat) ?_ ?_
  · rintro st ⟨st₀, backing, cache, layers, experts_per_layer, hinit⟩
    have hinv : Inv st :=
      reachable_inv (.of_init ⟨st₀, backing, cache, layers, experts_per_layer, hinit⟩)
    have hzero := init_heat hinit
    exact ⟨⟨hinv, fun j _ => hzero j⟩, fun j => (hzero j).ge⟩
  · rintro st op st' ⟨hheat, hpos⟩ ⟨hstep, havg⟩
    obtain rfl : st.apply op = st' := Option.some.inj hstep
    exact ⟨⟨hheat.inv.apply op, hheat.cold.apply hheat.inv op⟩, apply_heat_nonneg havg hpos⟩

theorem HeatInv.end_turn (h : HeatInv st) (hpass : ∀ op ∈ turn, passes_over key op)
    (factor : ℚ) : HeatInv ((play st turn).decay_heat factor) := by
  obtain ⟨hinv, hcold, -⟩ := play_heat h.inv h.cold hpass
  exact ⟨hinv.apply (.decay_heat factor), hcold.apply hinv (.decay_heat factor)⟩

/-- An expert that has no heat stays without. -/
theorem heat_of_after_turns (h : HeatInv st) (h1 : factor < 1)
    (hpass : ∀ turn ∈ turns, ∀ op ∈ turn, passes_over key op)
    (hwarm : ∀ ends ∈ turns_from factor st turns, 0 < ends.2.heat_max)
    (hlost : heat_of st key = 0 ∨ ∃ ends ∈ turns_from factor st turns, heat_of ends.2 key = 0) :
    heat_of (after_turns factor st turns) key = 0 := by
  induction turns generalizing st with
  | nil =>
    rcases hlost with hzero | ⟨ends, hmem, -⟩
    · exact hzero
    · cases hmem
  | cons turn turns ih =>
    have hpass₁ := hpass turn List.mem_cons_self
    have hdecay := heat_of_decay h1 (hwarm (st, play st turn) List.mem_cons_self) key
    refine ih (h.end_turn hpass₁ factor)
      (fun t ht => hpass t (List.mem_cons_of_mem turn ht))
      (fun ends hends => hwarm ends (List.mem_cons_of_mem _ hends)) ?_
    -- lost by the end of this turn, or in a later one
    have hplay : heat_of (play st turn) key = 0 →
        heat_of ((play st turn).decay_heat factor) key = 0 := by
      intro hzero
      rw [hdecay, hzero, zero_mul]
    rcases hlost with hzero | ⟨ends, hmem, hzero⟩
    · rcases (play_heat h.inv h.cold hpass₁).2.2 with hsame | hgone
      · exact .inl (hplay (hsame.trans hzero))
      · exact .inl (hplay hgone)
    · rcases List.mem_cons.mp hmem with rfl | hmem
      · exact .inl (hplay hzero)
      · exact .inr ⟨ends, hmem, hzero⟩

/-- An expert that keeps its heat falls as far as the hot end rises. -/
theorem relative_heat_after_turns (h : HeatInv st) (h1 : factor < 1) (hpos : 0 ≤ heat_of st key)
    (hpass : ∀ turn ∈ turns, ∀ op ∈ turn, passes_over key op)
    (hwarm : ∀ ends ∈ turns_from factor st turns, 0 < ends.2.heat_max)
    (hheat : heat_of st key ≠ 0)
    (hkept : ∀ ends ∈ turns_from factor st turns, heat_of ends.2 key ≠ 0) :
    0 < ((turns_from factor st turns).map growth).prod ∧
      relative_heat (after_turns factor st turns) key *
        ((turns_from factor st turns).map growth).prod = relative_heat st key := by
  induction turns generalizing st with
  | nil => exact ⟨one_pos, mul_one _⟩
  | cons turn turns ih =>
    have hpass₁ := hpass turn List.mem_cons_self
    have hwarm₁ : 0 < (play st turn).heat_max := hwarm (st, play st turn) List.mem_cons_self
    have hsame : heat_of (play st turn) key = heat_of st key :=
      (play_heat h.inv h.cold hpass₁).2.2.resolve_right
        (hkept (st, play st turn) List.mem_cons_self)
    have hlt : 0 < heat_of st key := lt_of_le_of_ne hpos hheat.symm
    have hmax : 0 < st.heat_max := hlt.trans_le (heat_of_le h.inv key)
    have hdecay := heat_of_decay h1 hwarm₁ key
    have hdecay_pos : 0 < heat_of ((play st turn).decay_heat factor) key := by
      rw [hdecay, hsame]
      exact mul_pos hlt (one_div_pos.mpr hwarm₁)
    obtain ⟨hprod, hrel⟩ := ih (h.end_turn hpass₁ factor) hdecay_pos.le
      (fun t ht => hpass t (List.mem_cons_of_mem turn ht))
      (fun ends hends => hwarm ends (List.mem_cons_of_mem _ hends)) hdecay_pos.ne'
      (fun ends hends => hkept ends (List.mem_cons_of_mem _ hends))
    have hgrowth : 0 < growth (st, play st turn) := div_pos hwarm₁ hmax
    rw [turns_from, after_turns, List.map_cons, List.prod_cons]
    refine ⟨mul_pos hgrowth hprod, ?_⟩
    calc _ = growth (st, play st turn) *
          relative_heat ((play st turn).decay_heat factor) key := by rw [← hrel, mul_left_comm]
      _ = growth (st, play st turn) * relative_heat (play st turn) key := by
          rw [relative_heat_decay h1 hwarm₁]
      _ = relative_heat st key := by
          rw [growth, relative_heat, relative_heat, hsame, div_mul_div_comm, mul_comm st.heat_max,
            mul_div_mul_left _ _ hwarm₁.ne']

theorem run_averaging (st : ExpertStore) {ops : List Op} (h : ∀ op ∈ ops, IsAverage op) :
    LTS.Run averaging st ops (play st ops) := by
  induction ops generalizing st with
  | nil => exact .nil st
  | cons op ops ih =>
    have hop : averaging.step st op (st.apply op) := ⟨rfl, h op List.mem_cons_self⟩
    exact .cons hop (ih (st.apply op) fun op' hmem => h op' (List.mem_cons_of_mem op hmem))

/-- An expert that no turn notes falls by `factor` a turn exactly when the turns raise the hot end
    that far, or the expert has no heat. -/
theorem heat_ages_iff (hreach : LTS.Reachable averaging st) (h0 : 0 ≤ factor) (h1 : factor < 1)
    (hpassed : PassedOver factor key st turns) :
    Ages factor key st turns ↔ Outgrown factor key st turns := by
  obtain ⟨hinv, hnonneg⟩ := reachable_heat hreach
  have hpos : 0 ≤ heat_of st key := by
    cases h : st.index key with
    | none => exact (heat_of_absent h).ge
    | some i => exact (heat_of_held h).ge.trans' (hnonneg i)
  have hwarm_iff : (∀ ends ∈ turns_from factor st turns,
      (ends.2.decay_heat factor).heat_max = 1) ↔
      ∀ ends ∈ turns_from factor st turns, 0 < ends.2.heat_max :=
    forall₂_congr fun ends _ => heat_max_decay h1
  have hbound : 0 ≤ factor ^ turns.length * relative_heat st key :=
    mul_nonneg (pow_nonneg h0 _) (div_nonneg hpos (heat_max_nonneg st))
  -- with the hot end settled, what is left is how far the expert falls
  suffices hfalls : (∀ ends ∈ turns_from factor st turns, 0 < ends.2.heat_max) →
      (relative_heat (after_turns factor st turns) key ≤
          factor ^ turns.length * relative_heat st key ↔
        (heat_of st key = 0 ∨ ∃ ends ∈ turns_from factor st turns, heat_of ends.2 key = 0) ∨
          1 ≤ factor ^ turns.length * ((turns_from factor st turns).map growth).prod) by
    constructor
    · rintro ⟨hle, htop⟩
      exact ⟨hwarm_iff.mp htop, (hfalls (hwarm_iff.mp htop)).mp hle⟩
    · rintro ⟨hwarm, hgrows⟩
      exact ⟨(hfalls hwarm).mpr hgrows, hwarm_iff.mpr hwarm⟩
  intro hwarm
  by_cases hlost : heat_of st key = 0 ∨ ∃ ends ∈ turns_from factor st turns, heat_of ends.2 key = 0
  · have hzero := heat_of_after_turns hinv h1 hpassed.passes hwarm hlost
    refine iff_of_true ?_ (.inl hlost)
    rw [relative_heat, hzero, zero_div]
    exact hbound
  · rw [or_iff_right hlost]
    obtain ⟨hheat, hkept⟩ := not_or.mp hlost
    push Not at hkept
    obtain ⟨hprod, hrel⟩ := relative_heat_after_turns hinv h1 hpos hpassed.passes hwarm hheat hkept
    have hstart : 0 < relative_heat st key :=
      have hlt : 0 < heat_of st key := lt_of_le_of_ne hpos (Ne.symm hheat)
      div_pos hlt (hlt.trans_le (heat_of_le hinv.inv key))
    have hend : 0 < relative_heat (after_turns factor st turns) key :=
      pos_of_mul_pos_left (hrel ▸ hstart) hprod.le
    rw [← hrel, mul_left_comm, le_mul_iff_one_le_right hend]

/-- Two experts, the second one twice as hot as the first. -/
def warm_pair_ops : List Op :=
  [.begin_fill_synthetic ⟨0, 1⟩ .Cached, .finish_run 0 true 5,
    .begin_fill_synthetic ⟨0, 2⟩ .Cached, .finish_run 1 true 6,
    .note_heat ⟨0, 1⟩ (1 / 2) 1, .note_heat ⟨0, 2⟩ 1 1]

def warm_pair : ExpertStore := play pair_store warm_pair_ops

theorem warm_pair_reachable : LTS.Reachable averaging warm_pair := by
  have hinit : averaging.init pair_store := ⟨{}, _, _, _, _, pair_store_init⟩
  have haverage : ∀ op ∈ warm_pair_ops, IsAverage op := by
    norm_num [warm_pair_ops, IsAverage]
  exact (LTS.Reachable.of_init hinit).run (run_averaging pair_store haverage)

/-- Two turns, each of which ends with the second expert at heat 2. -/
def louder_turns : List (List Op) :=
  [[.note_heat ⟨0, 2⟩ 2 1], [.touch ⟨0, 1⟩ 7 false, .note_heat ⟨0, 2⟩ 2 1]]

/-- The hot end doubles in each turn, and the first expert falls to a quarter. -/
theorem heat_ages_iff_louder : Ages (1 / 2) ⟨0, 1⟩ warm_pair louder_turns := by
  have hpassed : PassedOver (1 / 2) ⟨0, 1⟩ warm_pair louder_turns := by
    refine ⟨by decide, fun ends hends => ⟨⟨0, 2⟩, by decide, ?_⟩⟩
    revert ends
    decide +kernel
  refine (heat_ages_iff warm_pair_reachable (by norm_num) (by norm_num) hpassed).mpr ⟨?_, .inr ?_⟩
  · decide +kernel
  · decide +kernel

/-- One turn that notes the second expert, which stays where it is. -/
def steady_turn : List (List Op) := [[.note_heat ⟨0, 2⟩ 1 (1 / 8)]]

/-- The first expert is not noted, the second one ends at the hot end, and the first one has kept
    its half of it. -/
theorem steady_turn_ages_nothing :
    LTS.Reachable averaging warm_pair ∧ PassedOver (1 / 2) ⟨0, 1⟩ warm_pair steady_turn ∧
      relative_heat (after_turns (1 / 2) warm_pair steady_turn) ⟨0, 1⟩ =
        relative_heat warm_pair ⟨0, 1⟩ ∧
      ¬ Ages (1 / 2) ⟨0, 1⟩ warm_pair steady_turn := by
  have hpassed : PassedOver (1 / 2) ⟨0, 1⟩ warm_pair steady_turn := by
    refine ⟨by decide, fun ends hends => ⟨⟨0, 2⟩, by decide, ?_⟩⟩
    revert ends
    decide +kernel
  have hkept : relative_heat (after_turns (1 / 2) warm_pair steady_turn) ⟨0, 1⟩ = 1 / 2 := by
    decide +kernel
  have hstart : relative_heat warm_pair ⟨0, 1⟩ = 1 / 2 := by
    decide +kernel
  refine ⟨warm_pair_reachable, hpassed, hkept.trans hstart.symm, fun hages => ?_⟩
  have hfalls := hages.falls
  rw [hkept, hstart] at hfalls
  norm_num [steady_turn] at hfalls

end CachedMoe.Runtime
