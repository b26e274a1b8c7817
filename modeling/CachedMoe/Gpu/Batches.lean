import CachedMoe.Gpu.Prefill
import Mathlib.Data.List.Nodup

/-! # The batches of a layer

    How `run_moe` cuts a layer's experts into batches: every used expert is in one batch,
    and a batch that refills its transit segment leaves alone the slots that batches not
    yet computed read their weights from. The second is what the ring of at least two
    segments is for: when batch `i` is issued, batch `i - 1` still waits to be computed. -/

namespace CachedMoe.Gpu

open CachedMoe

variable {inp : Input} {L : Nat} {ahead : Nat → Option Nat}

/-- The experts of some batches, one batch after the other. -/
def experts_of (bts : List Batch) : List Nat := bts.flatMap Batch.experts

@[simp] theorem experts_of_nil : experts_of [] = [] := rfl

@[simp] theorem experts_of_cons (bt : Batch) (bts : List Batch) :
    experts_of (bt :: bts) = bt.experts ++ experts_of bts := rfl

theorem experts_of_append (bts bts' : List Batch) :
    experts_of (bts ++ bts') = experts_of bts ++ experts_of bts' :=
  List.flatMap_append

/-! ### The batches of the read-ahead -/

section AheadBatches

variable {seg : Nat → Nat} {l : List Nat}

theorem experts_ahead_batches : experts_of (ahead_batches seg l) = l := by
  induction l with
  | nil => rfl
  | cons e es ih =>
    rw [ahead_batches]
    cases h : ahead_batches seg es with
    | nil =>
      rw [h] at ih
      rw [← ih]
      rfl
    | cons b bs =>
      rw [h] at ih
      dsimp only
      split
      · rw [experts_of_cons, ← ih]
        rfl
      · rw [experts_of_cons, ih]
        rfl

theorem ahead_batch_seg {b : Batch} (hb : b ∈ ahead_batches seg l) :
    b.experts ≠ [] ∧ ∀ e ∈ b.experts, seg e = b.seg := by
  induction l generalizing b with
  | nil => cases hb
  | cons e es ih =>
    have hsingle : ([e] : List Nat) ≠ [] ∧ ∀ e' ∈ [e], seg e' = seg e :=
      ⟨List.cons_ne_nil _ _, fun e' he' => by rw [List.mem_singleton.mp he']⟩
    rw [ahead_batches] at hb
    cases h : ahead_batches seg es with
    | nil =>
      rw [h] at hb
      rw [List.mem_singleton.mp hb]
      exact hsingle
    | cons b' bs =>
      rw [h] at hb
      dsimp only at hb
      split at hb
      · rename_i hseg
        rcases List.mem_cons.mp hb with hb | hb
        · rw [hb]
          refine ⟨List.cons_ne_nil _ _, fun e' he' => ?_⟩
          rcases List.mem_cons.mp he' with he' | he'
          · rw [he']
          · rw [(ih (h ▸ List.mem_cons_self)).2 e' he', hseg]
        · exact ih (h ▸ List.mem_cons_of_mem _ hb)
      · rcases List.mem_cons.mp hb with hb | hb
        · rw [hb]
          exact hsingle
        · exact ih (h ▸ hb)

end AheadBatches

/-! ### The batches round the ring -/

section RestBatches

variable {K R : Nat}

theorem experts_rest_batches (hK : 0 < K) {fuel seg : Nat} {l : List Nat}
    (hfuel : l.length ≤ fuel) : experts_of (rest_batches K R fuel seg l) = l := by
  induction fuel generalizing seg l with
  | zero =>
    rw [List.length_eq_zero_iff.mp (Nat.le_zero.mp hfuel)]
    rfl
  | succ fuel ih =>
    cases l with
    | nil => rfl
    | cons e es =>
      have hdrop : ((e :: es).drop K).length ≤ fuel := by
        simp only [List.length_drop, List.length_cons] at hfuel ⊢
        omega
      show (e :: es).take K ++ experts_of (rest_batches K R fuel _ ((e :: es).drop K)) = e :: es
      rw [ih hdrop, List.take_append_drop]

end RestBatches

/-! ### Every used expert, once -/

theorem nodup_shard_sort {es : List Nat} (h : es.Nodup) : (inp.shard_sort L es).Nodup :=
  (List.perm_insertionSort _ es).nodup_iff.mpr h

theorem nodup_ahead_order : (inp.ahead_order L).Nodup :=
  (nodup_shard_sort (List.nodup_range.filter _)).sublist (List.take_sublist _ _)

theorem nodup_used_sorted : (inp.shard_sort L (inp.used L)).Nodup :=
  nodup_shard_sort (List.nodup_range.filter _)

theorem experts_batches :
    experts_of (inp.batches L ahead) = inp.used_ahead L ahead ++ inp.used_rest L ahead := by
  rw [Input.batches, experts_of_append, experts_ahead_batches,
    experts_rest_batches inp.pcfg.transit_slots_pos le_rfl]

theorem nodup_batches : (experts_of (inp.batches L ahead)).Nodup := by
  rw [experts_batches]
  refine List.Nodup.append (nodup_used_sorted.filter _) (nodup_used_sorted.filter _) ?_
  intro e h h'
  have hsome := (List.mem_filter.mp h).2
  have hnone := (List.mem_filter.mp h').2
  rw [hsome] at hnone
  cases hnone

/-! ### Refills -/

/-- The batch reads into its segment, over what the read-ahead may have put there. -/
def Batch.refills (ahead : Nat → Option Nat) (bt : Batch) : Prop :=
  ∃ e ∈ bt.experts.head?, ahead e = none

/-- The slots of a segment. -/
def slots_of (K seg : Nat) : List Nat := List.range' (seg * K) K

theorem mem_slots_of {K seg slot : Nat} (h : slot ∈ slots_of K seg) : slot / K = seg := by
  rw [slots_of, List.mem_range'_1] at h
  have hK : 0 < K := by omega
  rw [Nat.div_eq_iff hK]
  omega

/-- No expert of `es` has its weights in the segment. -/
def Clear (ahead : Nat → Option Nat) (K seg : Nat) (es : List Nat) : Prop :=
  ∀ e ∈ es, ∀ slot, ahead e = some slot → slot ∉ slots_of K seg

theorem Clear.of_none {K seg : Nat} {es : List Nat} (h : ∀ e ∈ es, ahead e = none) :
    Clear ahead K seg es := by
  intro e he slot hslot
  rw [h e he] at hslot
  cases hslot

/-- With `pe` the experts of the batch before: each refill leaves the slots of the batches
    that still have to be computed as they are. -/
def RefillSafe (ahead : Nat → Option Nat) (K : Nat) : List Nat → List Batch → Prop
  | _, [] => True
  | pe, bt :: bts =>
    (bt.refills ahead → Clear ahead K bt.seg (pe ++ experts_of (bt :: bts))) ∧
      RefillSafe ahead K bt.experts bts

/-- Batches without a refill in front change nothing but the batch before. -/
theorem RefillSafe.append {K : Nat} {pe : List Nat} {first rest : List Batch}
    (hfirst : ∀ b ∈ first, ¬ b.refills ahead)
    (hrest : RefillSafe ahead K ((first.getLast?.map Batch.experts).getD pe) rest) :
    RefillSafe ahead K pe (first ++ rest) := by
  induction first generalizing pe with
  | nil => exact hrest
  | cons b bs ih =>
    refine ⟨fun h => absurd h (hfirst b List.mem_cons_self), ?_⟩
    apply ih fun b' hb' => hfirst b' (List.mem_cons_of_mem _ hb')
    cases bs with
    | nil => exact hrest
    | cons b' bs =>
      rw [List.getLast?_cons_cons] at hrest
      rw [List.getLast?_eq_some_getLast (List.cons_ne_nil b' bs)] at hrest ⊢
      exact hrest

theorem RefillSafe.rest {K R : Nat} {pe : List Nat} {fuel seg : Nat} {l : List Nat}
    (hfuel : l.length ≤ fuel) (hK : 0 < K) (hl : ∀ e ∈ l, ahead e = none)
    (hpe : Clear ahead K seg pe) : RefillSafe ahead K pe (rest_batches K R fuel seg l) := by
  induction fuel generalizing pe seg l with
  | zero => exact trivial
  | succ fuel ih =>
    cases l with
    | nil => exact trivial
    | cons e es =>
      have hdrop : ((e :: es).drop K).length ≤ fuel := by
        simp only [List.length_drop, List.length_cons] at hfuel ⊢
        omega
      have hrec : RefillSafe ahead K ((e :: es).take K)
          (rest_batches K R fuel ((seg + 1) % R) ((e :: es).drop K)) :=
        ih hdrop (fun x hx => hl x (List.mem_of_mem_drop hx))
          (Clear.of_none fun x hx => hl x (List.mem_of_mem_take hx))
      refine ⟨fun _ => ?_, hrec⟩
      intro x hx slot hslot
      have hall : experts_of (⟨(e :: es).take K, seg⟩ ::
          rest_batches K R fuel ((seg + 1) % R) ((e :: es).drop K)) = e :: es := by
        rw [experts_of_cons, experts_rest_batches hK hdrop, List.take_append_drop]
      rcases List.mem_append.mp hx with hx | hx
      · exact hpe x hx slot hslot
      · rw [hall] at hx
        rw [hl x hx] at hslot
        cases hslot

theorem two_le_ring : 2 ≤ inp.ring :=
  Nat.le_max_left _ _

/-- The next segment of the ring is another one. -/
theorem next_seg_ne {R seg : Nat} (hR : 2 ≤ R) : (seg + 1) % R ≠ seg := by
  intro h
  have hlt : seg < R := h ▸ Nat.mod_lt _ (by omega)
  by_cases hwrap : seg + 1 = R
  · rw [hwrap, Nat.mod_self] at h
    omega
  · rw [Nat.mod_eq_of_lt (by omega)] at h
    omega

/-- The first refill follows the last batch of the read-ahead, whose segment is another. -/
theorem refill_safe : RefillSafe ahead inp.pcfg.transit_slots [] (inp.batches L ahead) := by
  have hnone : ∀ e ∈ inp.used_rest L ahead, ahead e = none := by
    intro e he
    have hsome := (List.mem_filter.mp he).2
    simpa using hsome
  rw [Input.batches]
  apply RefillSafe.append
  · rintro b hb ⟨e, he, hread⟩
    have hmem : e ∈ experts_of (ahead_batches (fun e => (ahead e).getD 0 / inp.pcfg.transit_slots)
        (inp.used_ahead L ahead)) :=
      List.mem_flatMap.mpr ⟨b, hb, List.mem_of_mem_head? he⟩
    rw [experts_ahead_batches] at hmem
    have hsome := (List.mem_filter.mp hmem).2
    rw [hread] at hsome
    cases hsome
  · apply RefillSafe.rest le_rfl inp.pcfg.transit_slots_pos hnone
    cases hlast : (ahead_batches (fun e => (ahead e).getD 0 / inp.pcfg.transit_slots)
        (inp.used_ahead L ahead)).getLast? with
    | none =>
      intro e he
      cases he
    | some b =>
      intro e he slot hslot hmem
      have hseg := (ahead_batch_seg (List.mem_of_getLast? hlast)).2 e he
      rw [hslot, Option.getD_some, mem_slots_of hmem] at hseg
      exact next_seg_ne two_le_ring hseg

end CachedMoe.Gpu
