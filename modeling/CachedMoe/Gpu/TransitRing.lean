import CachedMoe.Framework.Transfer
import CachedMoe.Gpu.Batches

/-! # The transit ring

    What `read_ahead` and `run_moe` of `gpu/vulkan/prefill_kernels.cpp` do with the buffers
    the experts' weights are read into, as long as nothing fails: the slots of the transit,
    which are the prefill's own, and the slots of the decode cache that its sink lends it.
    A layer's events are those of the monadic model of the prefill, with the buffers in
    place of the futures; a `use` is the address of an expert that goes into its job or that
    a dispatch reads through, and `done` the end of that dispatch. -/

namespace CachedMoe.Gpu

open CachedMoe CachedMoe.Store Transfer

/-- The weights of an expert: its layer and its number. -/
abbrev Weights := Nat × Nat

abbrev RingEvent := Event Weights Nat Dst

/-- A part of `run_moe`; its state is `landed`. -/
abbrev RingProgram := Program (Nat → Bool) Weights Nat Dst

/-- The experts a read-ahead has put in the transit, slot after slot. -/
structure AheadSlots where
  order : List Nat
  nodup : order.Nodup

/-- `ahead_.slot`. -/
def AheadSlots.slot (A : AheadSlots) (e : Nat) : Option Nat := A.order.idxOf? e

namespace Input

variable (inp : Input)

/-- What `read_ahead` puts there. -/
def read_ahead (L : Nat) : AheadSlots := ⟨inp.ahead_order L, nodup_ahead_order⟩

/-- `dest[e]`, once the expert is reserved. -/
def dest (L e : Nat) : Dest := (Gpu.reserve inp L e {}).1

/-! ### Events -/

/-- `read_expert`: every run of the expert goes out. -/
def starts (L e : Nat) (dst : Dst) : List RingEvent :=
  (List.range (inp.runs L e).length).map fun run => .start (L, e) run dst

/-- The futures of those reads are waited for. -/
def awaits (L e : Nat) (dst : Dst) : List RingEvent :=
  (List.range (inp.runs L e).length).map fun run => .await (L, e) run dst

/-- What `reserve` takes from the sink, and `release` gives back. -/
def takes (L e : Nat) : List RingEvent :=
  match (inp.dest L e).kind with
  | .Drop => []
  | .Fill => [.take (L, e) (.cache (inp.dest L e).slot) false]
  | .Resident => [.take (L, e) (.cache (inp.dest L e).slot) true]

def gives (L e : Nat) : List RingEvent :=
  if (inp.dest L e).kind = .Drop then [] else [.give (L, e) (.cache (inp.dest L e).slot)]

def ahead_events (L : Nat) (A : AheadSlots) : List RingEvent :=
  A.order.zipIdx.flatMap fun (e, i) => inp.starts L e (.transit i)

variable (L : Nat) (A : AheadSlots)

/-- The experts of a batch and their transit slots: `slot[e]`. -/
def placed (bt : Batch) : List (Nat × Nat) :=
  bt.experts.zipIdx.map fun (e, j) =>
    (e, (A.slot e).getD (bt.seg * inp.pcfg.transit_slots + j))

/-- The batch reads the expert itself. -/
def streams (e : Nat) : Prop := (inp.dest L e).kind ≠ .Resident ∧ A.slot e = none

instance (e : Nat) : Decidable (inp.streams L A e) := inferInstanceAs (Decidable (_ ∧ _))

/-- Where such a read goes. -/
def target (p : Nat × Nat) : Dst :=
  if (inp.dest L p.1).kind = .Fill then .cache (inp.dest L p.1).slot else .transit p.2

/-- The address an expert is computed from. -/
def base (p : Nat × Nat) : Dst :=
  if (inp.dest L p.1).kind ≠ .Drop then .cache (inp.dest L p.1).slot else .transit p.2

/-! ### `run_moe` -/

def land (slot : Nat) : RingProgram := fun landed =>
  match A.order[slot]? with
  | some e =>
    if landed slot = false then
      (inp.awaits L e (.transit slot), Function.update landed slot true)
    else ([], landed)
  | none => ([], landed)

instance (bt : Batch) : Decidable (bt.refills A.slot) :=
  inferInstanceAs (Decidable (∃ e ∈ bt.experts.head?, A.slot e = none))

/-- An expert is reserved, and its reads go out. -/
def reads (p : Nat × Nat) : List RingEvent :=
  inp.takes L p.1 ++ if inp.streams L A p.1 then inp.starts L p.1 (inp.target L p) else []

def issue (bt : Batch) : RingProgram :=
  Program.andThen
    (if bt.refills A.slot then .each (inp.land L A) (slots_of inp.pcfg.transit_slots bt.seg)
     else .emit [])
    (.emit ((inp.placed A bt).flatMap (inp.reads L A)))

/-- The jobs of the small experts come first. -/
def job_order (bt : Batch) : List (Nat × Nat) × List (Nat × Nat) :=
  (inp.placed A bt).partition fun p => inp.count L p.1 < inp.pcfg.coopmat_min_rows

/-- `compute` and `compute_coop`: the dispatch reads the experts' weights and is waited for. -/
def dispatch (ps : List (Nat × Nat)) : List RingEvent :=
  ps.map (fun p => .use (L, p.1) (inp.base L p)) ++ ps.map fun p => .done (L, p.1)

/-- The futures of the batch. -/
def futures (bt : Batch) : List RingEvent :=
  (inp.placed A bt).flatMap fun p =>
    if inp.streams L A p.1 then inp.awaits L p.1 (inp.target L p) else []

/-- A Fill the read-ahead brought in moves from the transit into its cache slot. -/
def copies (bt : Batch) : List RingEvent :=
  (inp.placed A bt).flatMap fun p =>
    if (A.slot p.1).isSome ∧ (inp.dest L p.1).kind = .Fill then
      [.copy (L, p.1) (.transit p.2) (.cache (inp.dest L p.1).slot)]
    else []

def jobs (bt : Batch) : List RingEvent :=
  let order := inp.job_order L A bt
  (order.1 ++ order.2).map (fun p => .use (L, p.1) (inp.base L p)) ++
    (inp.dispatch L order.1 ++ inp.dispatch L order.2)

def run_batch (bt : Batch) : RingProgram :=
  Program.andThen (.each (inp.land L A) (bt.experts.filterMap A.slot)) <|
    .emit <| inp.futures L A bt ++ (inp.copies L A bt ++ (inp.jobs L A bt ++
      (inp.placed A bt).flatMap fun p => inp.gives L p.1))

/-- `batches[i]` is issued, then `batches[i - 1]` computed. -/
def batch_loop : Option Batch → List Batch → RingProgram
  | none, [] => .emit []
  | some prev, [] => inp.run_batch L A prev
  | none, bt :: bts => (inp.issue L A bt).andThen (batch_loop (some bt) bts)
  | some prev, bt :: bts =>
    (inp.issue L A bt).andThen ((inp.run_batch L A prev).andThen (batch_loop (some bt) bts))

def run_moe : RingProgram :=
  Program.andThen (inp.batch_loop L A none (inp.batches L A.slot))
    -- the blind reads the routing did not choose
    (.each (inp.land L A) (List.range A.order.length))

def moe_events : List RingEvent := (inp.run_moe L A fun _ => false).1

/-- The layers of a prefill, each with what was read ahead for it: by the tail of the layer
    before, or by its own front. -/
def ring_events (ahead : Nat → AheadSlots) : List RingEvent :=
  (List.range inp.num_hidden_layers).flatMap fun L =>
    inp.ahead_events L (ahead L) ++ inp.moe_events L (ahead L)

/-! ### Buffers -/

/-- The routing chose the expert. -/
def needed (i : Weights) : Prop := i.2 ∈ inp.used i.1

/-- The experts' weights: each run covers its bytes of the slot, with the bytes of the image. -/
def weights (image : Weights → Fin layout.kExpertSlotBytes → UInt8) :
    Items Weights Nat (Fin layout.kExpertSlotBytes) UInt8 where
  parts := fun i => {run | run ∈ List.range (inp.runs i.1 i.2).length}
  span := fun i run => {n | ∃ r ∈ (inp.runs i.1 i.2)[run]?,
    r.slot_offset ≤ n.val ∧ n.val < r.slot_offset + r.aligned_bytes}
  bytes := image
  needed := inp.needed

end Input

/-- The transit is the prefill's own; the cache is the store's. -/
def Dst.own : Dst → Bool
  | .transit _ => true
  | .cache _ => false

variable {inp : Input} {L : Nat} {A : AheadSlots}
  {image : Weights → Fin layout.kExpertSlotBytes → UInt8}

/-! ### Slots -/

theorem AheadSlots.slot_eq_some {e slot : Nat} :
    A.slot e = some slot ↔ A.order[slot]? = some e := by
  rw [AheadSlots.slot, List.idxOf?_eq_some_iff, List.getElem?_eq_some_iff]
  constructor
  · rintro ⟨hlt, heq, -⟩
    exact ⟨hlt, heq⟩
  · rintro ⟨hlt, heq⟩
    refine ⟨hlt, heq, fun j hj hje => ?_⟩
    have hsame : j = slot := (A.nodup.getElem_inj_iff).mp (hje.trans heq.symm)
    omega

theorem AheadSlots.slot_inj {e e' slot : Nat} (h : A.slot e = some slot)
    (h' : A.slot e' = some slot) : e = e' := by
  rw [AheadSlots.slot_eq_some] at h h'
  exact Option.some.inj (h.symm.trans h')

theorem map_fst_placed (bt : Batch) : (inp.placed A bt).map Prod.fst = bt.experts := by
  rw [Input.placed, List.map_map]
  exact List.zipIdx_map_fst 0 bt.experts

theorem mem_placed {bt : Batch} {p : Nat × Nat} (h : p ∈ inp.placed A bt) : p.1 ∈ bt.experts := by
  rw [← map_fst_placed bt]
  exact List.mem_map_of_mem h

theorem placed_ahead {bt : Batch} {p : Nat × Nat} (h : p ∈ inp.placed A bt) {slot : Nat}
    (hslot : A.slot p.1 = some slot) : p.2 = slot := by
  obtain ⟨⟨e, j⟩, -, rfl⟩ := List.mem_map.mp h
  dsimp only at hslot ⊢
  rw [hslot, Option.getD_some]

/-- The slots of a batch that refills its segment. -/
theorem placed_fresh {bt : Batch} {p : Nat × Nat} (h : p ∈ inp.placed A bt)
    (hnone : A.slot p.1 = none) :
    ∃ j, bt.experts[j]? = some p.1 ∧ p.2 = bt.seg * inp.pcfg.transit_slots + j := by
  obtain ⟨q, hq, rfl⟩ := List.mem_map.mp h
  refine ⟨q.2, List.mem_zipIdx_iff_getElem?.mp hq, ?_⟩
  show (A.slot q.1).getD _ = _
  have hnone' : A.slot q.1 = none := hnone
  rw [hnone', Option.getD_none]

theorem nodup_placed {bt : Batch} (h : bt.experts.Nodup) : (inp.placed A bt).Nodup := by
  apply List.Nodup.of_map Prod.fst
  rw [map_fst_placed]
  exact h

/-! ### The batches -/

/-- A batch that refills its segment has no read-ahead experts, and room in the segment. -/
structure Refill (A : AheadSlots) (K : Nat) (bt : Batch) : Prop where
  fresh : ∀ e ∈ bt.experts, A.slot e = none
  fits : bt.experts.length ≤ K

theorem mem_rest_batches {K R fuel seg : Nat} {l : List Nat} {bt : Batch}
    (h : bt ∈ rest_batches K R fuel seg l) :
    (∀ e ∈ bt.experts, e ∈ l) ∧ bt.experts.length ≤ K ∧ bt.experts ≠ [] ∨ K = 0 := by
  induction fuel generalizing seg l with
  | zero => cases h
  | succ fuel ih =>
    cases l with
    | nil => cases h
    | cons e es =>
      rcases List.mem_cons.mp h with rfl | h
      · by_cases hK : K = 0
        · exact .inr hK
        · refine .inl ⟨fun x hx => List.mem_of_mem_take hx, List.length_take_le _ _, ?_⟩
          simpa using hK
      · rcases ih h with ⟨hmem, hlen⟩ | hK
        · exact .inl ⟨fun x hx => List.mem_of_mem_drop (hmem x hx), hlen⟩
        · exact .inr hK

/-- A batch is read ahead whole, or refills its segment whole. -/
theorem batch_cases {bt : Batch} (h : bt ∈ inp.batches L A.slot) :
    (¬ bt.refills A.slot ∧ ∀ e ∈ bt.experts, (A.slot e).isSome) ∨
      (bt.refills A.slot ∧ Refill A inp.pcfg.transit_slots bt) := by
  rcases List.mem_append.mp h with h | h
  · have hsome : ∀ e ∈ bt.experts, (A.slot e).isSome := by
      intro e he
      have hmem : e ∈ experts_of (ahead_batches
          (fun e => (A.slot e).getD 0 / inp.pcfg.transit_slots) (inp.used_ahead L A.slot)) :=
        List.mem_flatMap.mpr ⟨bt, h, he⟩
      rw [experts_ahead_batches] at hmem
      exact (List.mem_filter.mp hmem).2
    refine .inl ⟨?_, hsome⟩
    rintro ⟨e, he, hnone⟩
    have hyes := hsome e (List.mem_of_mem_head? he)
    rw [hnone] at hyes
    cases hyes
  · rcases mem_rest_batches h with ⟨hmem, hlen, hne⟩ | hK
    · have hfresh : ∀ e ∈ bt.experts, A.slot e = none := by
        intro e he
        simpa using (List.mem_filter.mp (hmem e he)).2
      refine .inr ⟨⟨bt.experts.head hne, List.head?_eq_some_head hne, ?_⟩, hfresh, hlen⟩
      exact hfresh _ (List.head_mem hne)
    · exact absurd hK inp.pcfg.transit_slots_pos.ne'

/-- Two refills in a row are of different segments. -/
def Apart (A : AheadSlots) (b b' : Batch) : Prop :=
  b.refills A.slot → b'.refills A.slot → b.seg ≠ b'.seg

theorem rest_batches_apart {K R fuel seg : Nat} {l : List Nat} (hR : 2 ≤ R) :
    (rest_batches K R fuel seg l).IsChain (Apart A) := by
  induction fuel generalizing seg l with
  | zero => exact .nil
  | succ fuel ih =>
    cases l with
    | nil => exact .nil
    | cons e es =>
      refine List.isChain_cons.mpr ⟨?_, ih⟩
      intro b hb _ _
      cases fuel with
      | zero => cases hb
      | succ fuel =>
        cases hdrop : (e :: es).drop K with
        | nil =>
          rw [hdrop] at hb
          cases hb
        | cons x xs =>
          rw [hdrop] at hb
          obtain rfl := Option.some.inj hb
          exact (next_seg_ne hR).symm

theorem batches_apart : (inp.batches L A.slot).IsChain (Apart A) := by
  have hahead : ∀ b ∈ ahead_batches (fun e => (A.slot e).getD 0 / inp.pcfg.transit_slots)
      (inp.used_ahead L A.slot), ∀ b', Apart A b b' := by
    rintro b hb b' ⟨e, he, hnone⟩
    have hmem : e ∈ experts_of (ahead_batches
        (fun e => (A.slot e).getD 0 / inp.pcfg.transit_slots) (inp.used_ahead L A.slot)) :=
      List.mem_flatMap.mpr ⟨b, hb, List.mem_of_mem_head? he⟩
    rw [experts_ahead_batches] at hmem
    have hsome := (List.mem_filter.mp hmem).2
    rw [hnone] at hsome
    cases hsome
  rw [Input.batches]
  refine List.isChain_append.mpr ⟨?_, rest_batches_apart two_le_ring, ?_⟩
  · exact (List.pairwise_of_forall_mem_list fun b hb b' _ => hahead b hb b').isChain
  · intro b hb b' _
    exact hahead b (List.mem_of_mem_getLast? hb) b'

/-! ### Where the loop over the batches is -/

/-- `prev` was issued, `bts` are to come. -/
structure InLoop (inp : Input) (L : Nat) (A : AheadSlots) (prev : Option Batch)
    (bts : List Batch) : Prop where
  mem : ∀ bt ∈ prev.toList ++ bts, bt ∈ inp.batches L A.slot
  safe : RefillSafe A.slot inp.pcfg.transit_slots (experts_of prev.toList) bts
  apart : (prev.toList ++ bts).IsChain (Apart A)
  nodup : (experts_of (prev.toList ++ bts)).Nodup

theorem InLoop.start : InLoop inp L A none (inp.batches L A.slot) where
  mem _ h := h
  safe := refill_safe
  apart := batches_apart
  nodup := nodup_batches

theorem InLoop.next {prev : Option Batch} {bt : Batch} {bts : List Batch}
    (h : InLoop inp L A prev (bt :: bts)) : InLoop inp L A (some bt) bts where
  mem b hb := h.mem b (List.mem_append_right _ hb)
  safe := by
    have hsafe := h.safe.2
    rw [Option.toList_some, experts_of_cons, experts_of_nil, List.append_nil]
    exact hsafe
  apart := (List.isChain_append.mp h.apart).2.1
  nodup := by
    have hnodup := h.nodup
    rw [experts_of_append] at hnodup
    exact (List.nodup_append.mp hnodup).2.1

theorem InLoop.nodup_experts {prev : Option Batch} {bts : List Batch} (h : InLoop inp L A prev bts)
    {bt : Batch} (hbt : bt ∈ prev.toList ++ bts) : bt.experts.Nodup := by
  obtain ⟨l₁, l₂, heq⟩ := List.append_of_mem hbt
  have hnodup := h.nodup
  rw [heq, experts_of_append, experts_of_cons] at hnodup
  exact (List.nodup_append.mp (List.nodup_append.mp hnodup).2.1).1

theorem InLoop.placed_apart {prev bt : Batch} {bts : List Batch}
    (h : InLoop inp L A (some prev) (bt :: bts)) :
    ∀ p ∈ inp.placed A bt, p.1 ∉ prev.experts := by
  intro p hp hmem
  have hnodup : (prev.experts ++ (bt.experts ++ experts_of bts)).Nodup := h.nodup
  exact (List.nodup_append.mp hnodup).2.2 p.1 hmem p.1 (List.mem_append_left _ (mem_placed hp)) rfl

/-! ### Jobs -/

/-- The parts of an expert's weights. -/
def parts_of (inp : Input) (L e : Nat) : Set (Weights × Nat) :=
  {x | x.1 = (L, e) ∧ x.2 ∈ List.range (inp.runs L e).length}

theorem parts_of_inj {e e' : Nat} {x : Weights × Nat} (h : x ∈ parts_of inp L e)
    (h' : x ∈ parts_of inp L e') : e = e' :=
  congrArg Prod.snd (h.1.symm.trans h'.1)

theorem whole_of_parts {e : Nat} {c : Cell Weights Nat} (h : parts_of inp L e ⊆ c.landed) :
    c.Whole (inp.weights image) (L, e) :=
  fun _ hrun => h ⟨rfl, hrun⟩

theorem mem_job_order {bt : Batch} {p : Nat × Nat} :
    p ∈ (inp.job_order L A bt).1 ∨ p ∈ (inp.job_order L A bt).2 ↔ p ∈ inp.placed A bt := by
  rw [Input.job_order, List.partition_eq_filter_filter]
  simp only [List.mem_filter, ← and_or_left]
  simp [Nat.lt_or_ge]

/-- The jobs and the dispatches of a batch go through whole experts, and leave them done. -/
theorem jobs_wp {dst : Dst} {bt : Batch} {c : Cell Weights Nat} {Q : Cell Weights Nat → Prop}
    (hwhole : ∀ p ∈ inp.placed A bt, inp.base L p = dst →
      c.mine = true ∧ parts_of inp L p.1 ⊆ c.landed)
    (hQ : ∀ done, (∀ e ∈ bt.experts, (L, e) ∈ done) → Q { c with done := c.done ∪ done }) :
    wp (inp.weights image) dst (inp.jobs L A bt) Q c := by
  have huse : ∀ (c' : Cell Weights Nat) (qs : List (Nat × Nat)), c'.mine = c.mine →
      c'.landed = c.landed → (∀ p ∈ qs, p ∈ inp.placed A bt) →
      ∀ ev ∈ qs.map fun p => (.use (L, p.1) (inp.base L p) : RingEvent),
        c'.Allows (inp.weights image) dst ev ∧ c'.apply (inp.weights image) dst ev = c' := by
    intro c' qs hmine hlanded hqs ev hev
    obtain ⟨p, hp, rfl⟩ := List.mem_map.mp hev
    refine ⟨fun hbase => ?_, rfl⟩
    obtain ⟨hyes, hparts⟩ := hwhole p (hqs p hp) hbase
    rw [← hmine] at hyes
    rw [← hlanded] at hparts
    exact ⟨hyes, whole_of_parts hparts⟩
  rw [Input.jobs, wp_append]
  refine wp_passive (huse c _ rfl rfl fun p hp => mem_job_order.mp (List.mem_append.mp hp)) ?_
  rw [wp_append, Input.dispatch, wp_append]
  refine wp_passive (huse c _ rfl rfl fun p hp => mem_job_order.mp (.inl hp)) (wp_dones ?_)
  rw [Input.dispatch, wp_append]
  refine wp_passive (huse _ _ rfl rfl fun p hp => mem_job_order.mp (.inr hp)) (wp_dones ?_)
  dsimp only
  rw [Set.union_assoc]
  apply hQ
  intro e he
  rw [← map_fst_placed (A := A)] at he
  obtain ⟨p, hp, rfl⟩ := List.mem_map.mp he
  exact (mem_job_order.mpr hp).imp (fun h => ⟨p, h, rfl⟩) fun h => ⟨p, h, rfl⟩

end CachedMoe.Gpu
