import CachedMoe.Core.Types
import CachedMoe.Framework.Interning
import CachedMoe.Framework.Region
import CachedMoe.Framework.System
import Mathlib.Data.List.Basic

/-! # The expert union of a verify batch

    `GpuMoeBridge::stage_batch_union` of `runtime/moe_bridge.cpp`: the distinct experts of a batch
    get a slot each, and the weight matrix says what every column takes from every slot. The
    table from experts to slots outlives the call; the next call erases the experts the last one
    has counted.

    Weights are any type with a zero, a one and an addition, which need not be associative. The
    answers of the store are inputs; activations and timings are left out. -/

namespace CachedMoe.Runtime

open CachedMoe LTS

/-! ### The bridge -/

def kMoeBatchMax : Nat := 6

def kUnionSlotsMax : Nat := kMoeBatchMax * 8 + 1

/-- `gpu::kSlotFp8`. -/
def kSlotFp8 : Nat := 2 ^ 31

/-- A row of the pointer table. -/
abbrev TableRow := ExpertPart → UInt64

structure UnionInfo where
  columns : Nat := 0
  /-- Distinct routed experts. -/
  routed : Nat := 0
  /-- `routed + 1`. -/
  slots : Nat := 0
  deriving Repr, DecidableEq

/-- The bridge and the buffers of its union runner. -/
structure UnionBridge (W : Type) where
  created : Bool
  n_routed_experts : Nat
  num_experts_per_tok : Nat
  union_info : UnionInfo := {}
  /-- Slot to expert id. -/
  union_ids : Nat → Nat := fun _ => 0
  /-- Expert id to slot, for the ids below `n_routed_experts + 1`. -/
  union_slot_of : Nat → Option Nat := fun _ => none
  ids : Nat → Nat
  slot_list : Nat → Nat
  list_count : Nat
  /-- `[m][slots]`. -/
  route_weights : Nat → W
  pointer_table : Nat → TableRow
  live_columns : Nat

/-- `union_runner_.dims().slots`. -/
def UnionBridge.slots {W : Type} (b : UnionBridge W) : Nat :=
  min kUnionSlotsMax (b.num_experts_per_tok * kMoeBatchMax + 1)

/-- `shared_index_`. -/
def UnionBridge.shared_index {W : Type} (b : UnionBridge W) : Nat := b.n_routed_experts

/-- A batch with the answers to its calls. -/
structure BatchCall (W : Type) where
  layer : Nat := 0
  m : Nat
  /-- `[m][topk]`. -/
  ids : Nat → Nat
  /-- `[m][topk]`. -/
  weights : Nat → W
  topk : Nat
  /-- `ExpertStore::table_row`. -/
  table_row : ExpertKey → Result TableRow
  /-- `bind_shared_into`. -/
  shared_row : Result TableRow

section Stage

variable {W : Type} [Zero W] [One W] [Add W] [DecidableEq W]

namespace BatchCall

/-- The cells `(m, s)` of a batch, column by column. -/
def cells (call : BatchCall W) : List (Nat × Nat) :=
  (List.range call.m).flatMap fun m => (List.range call.topk).map fun s => (m, s)

def expert (call : BatchCall W) (c : Nat × Nat) : Nat := call.ids (c.1 * call.topk + c.2)

def weight (call : BatchCall W) (c : Nat × Nat) : W := call.weights (c.1 * call.topk + c.2)

/-- The cells that are not skipped. -/
def live (call : BatchCall W) : List (Nat × Nat) :=
  call.cells.filter fun c => call.weight c ≠ 0

/-- The experts named with a weight, a cell at a time. -/
def named (call : BatchCall W) : List Nat := call.live.map call.expert

end BatchCall

/-- `union_experts`: every expert is looked for in the list so far. -/
def union_experts (call : BatchCall W) : List Nat :=
  if call.m = 0 ∨ call.m > kMoeBatchMax ∨ call.topk = 0 then []
  else Interning.firsts call.named

/-! ### The passes of a call -/

/-- The members the union pass works on. -/
structure UnionScratch where
  slot_of : Nat → Option Nat
  ids : Nat → Nat
  n_routed : Nat

/-- Erases the entries of the experts that the last call has counted. -/
def erase_previous (n_ids : Nat) (ids : Nat → Nat) (prev_routed : Nat)
    (slot_of : Nat → Option Nat) : Nat → Option Nat :=
  (List.range prev_routed).foldl
    (fun t u => if ids u < n_ids then Function.update t (ids u) none else t) slot_of

/-- The union pass over the experts of the live cells. -/
@[grind =]
def union_pass (layer n_ids slots : Nat) : List Nat → UnionScratch → Result Unit × UnionScratch
  | [], u => (.ok (), u)
  | e :: es, u =>
    if n_ids ≤ e then
      (fail .InvalidArgument s!"expert {e} is out of range for layer {layer}", u)
    else if u.slot_of e ≠ none then union_pass layer n_ids slots es u
    else if u.n_routed + 1 ≥ slots then
      (fail .InvalidArgument ("the batch's expert union is larger than the union " ++
        s!"runner's {slots} slots"), u)
    else
      union_pass layer n_ids slots es
        { slot_of := Function.update u.slot_of e (some u.n_routed)
          ids := Function.update u.ids u.n_routed e
          n_routed := u.n_routed + 1 }

/-- `w[m][union_slot_of_[e]] += weight` of a live cell. -/
def add_weight (call : BatchCall W) (slots : Nat) (slot_of : Nat → Option Nat) (w : Nat → W)
    (c : Nat × Nat) : Nat → W :=
  match slot_of (call.expert c) with
  | some u => Function.update w (c.1 * slots + u) (w (c.1 * slots + u) + call.weight c)
  -- not after a pass that succeeded: ~0u would be a write out of bounds
  | none => w

/-- The weight matrix: cleared, every live cell added to its expert's slot, the shared slot 1. -/
def fill_weights (call : BatchCall W) (slots n_routed : Nat) (slot_of : Nat → Option Nat)
    (w : Nat → W) : Nat → W :=
  let w := fun i => if i < call.m * slots then 0 else w i
  let w := call.live.foldl (add_weight call slots slot_of) w
  (List.range call.m).foldl (fun w m => Function.update w (m * slots + n_routed) 1) w

/-- The slot table and the pointer rows of the slots of `us`. -/
@[grind =]
def fill_table (call : BatchCall W) : List Nat → UnionBridge W → Result Unit × UnionBridge W
  | [], b => (.ok (), b)
  | u :: us, b =>
    let e := b.union_ids u
    let b := { b with ids := Function.update b.ids u e
                      slot_list := Function.update b.slot_list u u }
    match call.table_row ⟨UInt16.ofNat call.layer, UInt16.ofNat e⟩ with
    | .error err =>
      (fail err.code s!"at the verify batch's expert union (expert {e}): {err.message}", b)
    | .ok row =>
      fill_table call us { b with pointer_table := Function.update b.pointer_table e row }

/-- The scratch as the last call has left it. -/
def UnionBridge.scratch (b : UnionBridge W) : UnionScratch where
  slot_of := b.union_slot_of
  ids := b.union_ids
  n_routed := b.union_info.routed

/-- The ids that have an entry in `union_slot_of_`. -/
def UnionBridge.n_ids (b : UnionBridge W) : Nat := b.n_routed_experts + 1

/-- The union pass of a call, after the entries of the call before are erased. -/
def UnionBridge.pass (b : UnionBridge W) (call : BatchCall W) : Result Unit × UnionScratch :=
  union_pass call.layer b.n_ids b.slots call.named
    { slot_of := erase_previous b.n_ids b.union_ids b.union_info.routed b.union_slot_of
      ids := b.union_ids
      n_routed := 0 }

/-- `union_info_` counts no expert yet; an error in the pass leaves it so, and in the table what
    the pass has recorded. -/
def UnionBridge.after_pass (b : UnionBridge W) (call : BatchCall W) : UnionBridge W :=
  { b with
    union_info := { columns := call.m }
    union_slot_of := (b.pass call).2.slot_of
    union_ids := (b.pass call).2.ids }

/-- The slots of the experts and of the shared expert, for a pass that counted `n_routed`. -/
def stage_slots (b : UnionBridge W) (call : BatchCall W) (n_routed : Nat) :
    Result Unit × UnionBridge W :=
  let b := { b with
    union_info := { columns := call.m, routed := n_routed, slots := n_routed + 1 }
    route_weights := fill_weights call b.slots n_routed b.union_slot_of b.route_weights }
  match fill_table call (List.range n_routed) b with
  | (.error err, b) => (.error err, b)
  | (.ok (), b) =>
    match call.shared_row with
    | .error err => (.error err, b)
    | .ok row =>
      (.ok (), { b with
        pointer_table := Function.update b.pointer_table b.shared_index row
        ids := Function.update b.ids n_routed (b.shared_index ||| kSlotFp8)
        slot_list := Function.update b.slot_list n_routed n_routed
        list_count := n_routed + 1
        live_columns := call.m })

def stage_batch_union (b : UnionBridge W) (call : BatchCall W) : Result Unit × UnionBridge W :=
  if ¬ b.created then (fail .FailedPrecondition "MoE bridge is not created", b)
  else if call.m = 0 ∨ call.m > kMoeBatchMax then
    (fail .InvalidArgument
      s!"a verify batch of {call.m} columns; the interface takes 1..{kMoeBatchMax}", b)
  else
    match (b.pass call).1 with
    | .error err => (.error err, b.after_pass call)
    | .ok () => stage_slots (b.after_pass call) call (b.pass call).2.n_routed

/-! ### The scratch -/

namespace UnionScratch

/-- The experts that have a slot, in the order of their slots. -/
def keys (u : UnionScratch) : List Nat := (List.range u.n_routed).map u.ids

@[simp] theorem length_keys (u : UnionScratch) : u.keys.length = u.n_routed := by
  rw [keys, List.length_map, List.length_range]

/-- The table knows the counted experts and no other. -/
structure Recorded (n_ids : Nat) (u : UnionScratch) : Prop where
  exact : Interning.Exact u.slot_of u.keys
  range : ∀ e ∈ u.keys, e < n_ids

/-- An expert gets the next slot. -/
def record (u : UnionScratch) (e : Nat) : UnionScratch where
  slot_of := Function.update u.slot_of e (some u.n_routed)
  ids := Function.update u.ids u.n_routed e
  n_routed := u.n_routed + 1

@[simp] theorem keys_record (u : UnionScratch) (e : Nat) : (u.record e).keys = u.keys ++ [e] := by
  unfold keys record
  dsimp only
  rw [List.range_succ, List.map_append]
  congr 1
  · apply List.map_congr_left
    intro i hi
    exact Function.update_of_ne (Nat.ne_of_lt (List.mem_range.mp hi)) _ _
  · rw [List.map_singleton, Function.update_self]

theorem Recorded.record {n_ids e : Nat} {u : UnionScratch} (h : u.Recorded n_ids)
    (hnew : u.slot_of e = none) (he : e < n_ids) : (u.record e).Recorded n_ids := by
  constructor
  case exact =>
    have hpush := h.exact.push hnew
    rw [length_keys] at hpush
    rw [keys_record]
    exact hpush
  case range =>
    intro e' he'
    rw [keys_record, List.mem_append, List.mem_singleton] at he'
    rcases he' with hold | rfl
    · exact h.range e' hold
    · exact he

end UnionScratch

/-- Erasing the experts the last call has counted empties a table that knows no other. -/
theorem erase_previous_eq {n_ids : Nat} {u : UnionScratch} (h : u.Recorded n_ids) :
    erase_previous n_ids u.ids u.n_routed u.slot_of = fun _ => none := by
  have hall : ∀ (us : List Nat) (t : Nat → Option Nat), (∀ i ∈ us, u.ids i < n_ids) →
      us.foldl (fun t i => if u.ids i < n_ids then Function.update t (u.ids i) none else t) t =
        (us.map u.ids).foldl (fun t e => Function.update t e none) t := by
    intro us
    induction us with
    | nil => intro t _; rfl
    | cons i us ih =>
      intro t hrange
      rw [List.map_cons, List.foldl_cons, List.foldl_cons, if_pos (hrange i List.mem_cons_self)]
      exact ih _ fun j hj => hrange j (List.mem_cons_of_mem i hj)
  unfold erase_previous
  rw [hall _ _ fun i hi => h.range _ (List.mem_map_of_mem hi)]
  exact h.exact.erase_all

/-! ### The union pass -/

theorem union_pass_nil (layer n_ids slots : Nat) (u : UnionScratch) :
    union_pass layer n_ids slots [] u = (.ok (), u) := rfl

theorem union_pass_cons (layer n_ids slots e : Nat) (es : List Nat) (u : UnionScratch) :
    (n_ids ≤ e ∧ ∃ err, union_pass layer n_ids slots (e :: es) u = (.error err, u)) ∨
    (e < n_ids ∧ u.slot_of e ≠ none ∧
      union_pass layer n_ids slots (e :: es) u = union_pass layer n_ids slots es u) ∨
    (e < n_ids ∧ u.slot_of e = none ∧ slots ≤ u.n_routed + 1 ∧
      ∃ err, union_pass layer n_ids slots (e :: es) u = (.error err, u)) ∨
    (e < n_ids ∧ u.slot_of e = none ∧ u.n_routed + 1 < slots ∧
      union_pass layer n_ids slots (e :: es) u =
        union_pass layer n_ids slots es (u.record e)) := by
  rw [union_pass]
  by_cases hrange : n_ids ≤ e
  · rw [if_pos hrange]
    exact .inl ⟨hrange, _, rfl⟩
  rw [if_neg hrange]
  have hlt := Nat.lt_of_not_le hrange
  by_cases hold : u.slot_of e ≠ none
  · rw [if_pos hold]
    exact .inr (.inl ⟨hlt, hold, rfl⟩)
  rw [if_neg hold]
  have hnone := Decidable.not_not.mp hold
  by_cases hroom : u.n_routed + 1 ≥ slots
  · rw [if_pos hroom]
    exact .inr (.inr (.inl ⟨hlt, hnone, hroom, _, rfl⟩))
  · rw [if_neg hroom]
    exact .inr (.inr (.inr ⟨hlt, hnone, Nat.lt_of_not_le hroom, rfl⟩))

/-- The pass counts the first occurrences of its experts, and succeeds where all of them are in
    range and leave the shared expert a slot. -/
theorem union_pass_spec {layer n_ids slots : Nat} {es : List Nat} {u : UnionScratch}
    (h : u.Recorded n_ids) (hroom : u.n_routed < slots) :
    ((union_pass layer n_ids slots es u).1 = .ok () ↔
      (∀ e ∈ es, e < n_ids) ∧ (es.foldl Interning.note u.keys).length < slots) ∧
    ((union_pass layer n_ids slots es u).1 = .ok () →
      (union_pass layer n_ids slots es u).2.Recorded n_ids ∧
      (union_pass layer n_ids slots es u).2.keys = es.foldl Interning.note u.keys) := by
  induction es generalizing u with
  | nil =>
    rw [union_pass_nil]
    refine ⟨⟨fun _ => ⟨fun e he => (List.not_mem_nil he).elim, ?_⟩, fun _ => rfl⟩,
      fun _ => ⟨h, rfl⟩⟩
    rw [List.foldl_nil, UnionScratch.length_keys]
    exact hroom
  | cons e es ih =>
    rw [List.foldl_cons, List.forall_mem_cons]
    rcases union_pass_cons layer n_ids slots e es u with
      ⟨hrange, err, hpass⟩ | ⟨hrange, hold, hpass⟩ | ⟨hrange, hnew, hfull, err, hpass⟩ |
        ⟨hrange, hnew, hfree, hpass⟩
    · rw [hpass]
      exact ⟨⟨fun h => (by cases h), fun h => absurd h.1.1 (Nat.not_lt.mpr hrange)⟩,
        fun h => (by cases h)⟩
    · have hmem : e ∈ u.keys := by
        by_contra hmem
        exact hold (h.exact.none_iff.mpr hmem)
      rw [hpass, Interning.note, if_pos hmem, and_iff_right hrange]
      exact ih h hroom
    · have hmem := h.exact.none_iff.mp hnew
      obtain ⟨more, hmore⟩ := Interning.foldl_note_grows es (u.keys ++ [e])
      rw [hpass, Interning.note, if_neg hmem, hmore]
      refine ⟨⟨fun h => (by cases h), fun h => ?_⟩, fun h => (by cases h)⟩
      have hlen := h.2
      rw [List.length_append, List.length_append, UnionScratch.length_keys,
        List.length_singleton] at hlen
      omega
    · have hmem := h.exact.none_iff.mp hnew
      rw [hpass, Interning.note, if_neg hmem, and_iff_right hrange, ← UnionScratch.keys_record]
      exact ih (h.record hnew hrange) hfree

/-- An entry of the table outlives the pass. -/
theorem union_pass_keeps {layer n_ids slots e i : Nat} {es : List Nat} {u : UnionScratch}
    (h : u.slot_of e = some i) :
    (union_pass layer n_ids slots es u).2.slot_of e = some i := by
  induction es generalizing u with
  | nil => exact h
  | cons e' es ih =>
    rcases union_pass_cons layer n_ids slots e' es u with
      ⟨-, err, hpass⟩ | ⟨-, -, hpass⟩ | ⟨-, -, -, err, hpass⟩ | ⟨-, hnew, -, hpass⟩
    · rw [hpass]
      exact h
    · rw [hpass]
      exact ih h
    · rw [hpass]
      exact h
    · rw [hpass]
      apply ih
      have hne : e ≠ e' := by
        rintro rfl
        rw [hnew] at h
        cases h
      exact (Function.update_of_ne hne _ _).trans h

/-! ### The weight matrix -/

namespace BatchCall

/-- The sum of column `m`'s weights for expert `e`, in the order of their ranks. -/
def column_weight (call : BatchCall W) (m e : Nat) : W :=
  ((List.range call.topk).filter fun s =>
      call.expert (m, s) = e ∧ call.weight (m, s) ≠ 0).foldl
    (fun a s => a + call.weight (m, s)) 0

omit [One W] [Add W] [DecidableEq W] [Zero W] in
theorem mem_cells {call : BatchCall W} {c : Nat × Nat} :
    c ∈ call.cells ↔ c.1 < call.m ∧ c.2 < call.topk := by
  unfold cells
  simp only [List.mem_flatMap, List.mem_map, List.mem_range]
  constructor
  · rintro ⟨m, hm, s, hs, rfl⟩
    exact ⟨hm, hs⟩
  · rintro ⟨hm, hs⟩
    exact ⟨c.1, hm, c.2, hs, rfl⟩

omit [One W] [Add W] in
theorem mem_live {call : BatchCall W} {c : Nat × Nat} :
    c ∈ call.live ↔ (c.1 < call.m ∧ c.2 < call.topk) ∧ call.weight c ≠ 0 := by
  rw [live, List.mem_filter, mem_cells, decide_eq_true_iff]

omit [One W] [Add W] in
theorem mem_named {call : BatchCall W} {e : Nat} :
    e ∈ call.named ↔ ∃ m < call.m, ∃ s < call.topk,
      call.weight (m, s) ≠ 0 ∧ call.expert (m, s) = e := by
  rw [named, List.mem_map]
  constructor
  · rintro ⟨⟨m, s⟩, hc, he⟩
    obtain ⟨⟨hm, hs⟩, hw⟩ := mem_live.mp hc
    exact ⟨m, hm, s, hs, hw, he⟩
  · rintro ⟨m, hm, s, hs, hw, he⟩
    exact ⟨(m, s), mem_live.mpr ⟨⟨hm, hs⟩, hw⟩, he⟩

omit [Zero W] [One W] [Add W] [DecidableEq W] in
theorem filter_cells (call : BatchCall W) {m : Nat} (hm : m < call.m) (p : Nat → Bool) :
    call.cells.filter (fun c => c.1 = m && p c.2) =
      ((List.range call.topk).filter p).map fun s => (m, s) := by
  have hcolumn : ∀ m', ((List.range call.topk).map fun s => (m', s)).filter
      (fun c => c.1 = m && p c.2) =
        if m' = m then ((List.range call.topk).filter p).map fun s => (m, s) else [] := by
    intro m'
    rw [List.filter_map]
    split
    next h =>
      subst h
      congr 1
      apply List.filter_congr
      intro s _
      simp
    next h =>
      rw [List.map_eq_nil_iff, List.filter_eq_nil_iff]
      intro s _
      simp [h]
  -- the row occurs once among the rows
  have hsingle : ∀ ms : List Nat, ms.Nodup → m ∈ ms → ms.flatMap (fun m' =>
      if m' = m then ((List.range call.topk).filter p).map fun s => (m, s) else []) =
        ((List.range call.topk).filter p).map fun s => (m, s) := by
    intro ms
    induction ms with
    | nil => intro _ h; cases h
    | cons m' ms ih =>
      intro hnodup hmem
      obtain ⟨hnot, hnodup⟩ := List.nodup_cons.mp hnodup
      rw [List.flatMap_cons]
      by_cases h : m' = m
      · subst h
        have hrest : ms.flatMap (fun m'' => if m'' = m' then
            ((List.range call.topk).filter p).map fun s => (m', s) else []) = [] := by
          rw [List.flatMap_eq_nil_iff]
          intro m'' hm''
          refine if_neg fun heq => hnot ?_
          rw [← heq]
          exact hm''
        rw [if_pos rfl, hrest, List.append_nil]
      · rw [if_neg h, List.nil_append]
        exact ih hnodup ((List.mem_cons.mp hmem).resolve_left (Ne.symm h))
  unfold cells
  rw [List.filter_flatMap]
  simp only [hcolumn]
  exact hsingle _ List.nodup_range (List.mem_range.mpr hm)

omit [One W] [Add W] in
/-- The live cells of a column that name an expert. -/
theorem filter_live (call : BatchCall W) {m : Nat} (hm : m < call.m) (e : Nat) :
    call.live.filter (fun c => c.1 = m ∧ call.expert c = e) =
      ((List.range call.topk).filter fun s =>
        call.expert (m, s) = e ∧ call.weight (m, s) ≠ 0).map fun s => (m, s) := by
  rw [← filter_cells call hm, live, List.filter_filter]
  apply List.filter_congr
  rintro ⟨m', s⟩ _
  by_cases h : m' = m
  · subst h
    simp
  · simp [h]

end BatchCall

omit [Zero W] [One W] [DecidableEq W] in
/-- A loop that adds to a cell of a table, read at one cell. -/
theorem foldl_add_at {β : Type} (pos : β → Nat) (val : β → W) (l : List β) (w : Nat → W) (i : Nat) :
    l.foldl (fun w c => Function.update w (pos c) (w (pos c) + val c)) w i =
      (l.filter fun c => pos c = i).foldl (fun a c => a + val c) (w i) := by
  induction l generalizing w with
  | nil => rfl
  | cons c l ih =>
    rw [List.foldl_cons, ih]
    by_cases h : pos c = i
    · rw [List.filter_cons_of_pos (by simpa using h), List.foldl_cons, ← h, Function.update_self]
    · rw [List.filter_cons_of_neg (by simpa using h), Function.update_of_ne (Ne.symm h)]

section Fill

variable {call : BatchCall W} {slots n_routed m u : Nat} {slot_of : Nat → Option Nat}
  {keys : List Nat}

/-- The two parts of the matrix: the shared slot, and the sums over the live cells. -/
theorem fill_weights_cell (w : Nat → W) (hm : m < call.m) (hu : u < slots)
    (hroom : n_routed < slots)
    (hlive : ∀ c ∈ call.live, ∃ i, slot_of (call.expert c) = some i ∧ i < slots) :
    fill_weights call slots n_routed slot_of w (m * slots + u) =
      if u = n_routed then 1
      else (call.live.filter fun c => c.1 = m ∧ slot_of (call.expert c) = some u).foldl
        (fun a c => a + call.weight c) 0 := by
  unfold fill_weights
  by_cases hshared : u = n_routed
  · subst hshared
    rw [if_pos rfl]
    exact PointUpdate.foldl_update_of_agree (f := fun m => m * slots + u) (v := fun _ => 1)
      (g := fun _ => 1) _ (List.mem_range.mpr hm) fun _ _ => rfl
  have hcell : ∀ {m' i : Nat}, i < slots → (m' * slots + i = m * slots + u ↔ m' = m ∧ i = u) := by
    intro m' i hi
    constructor
    · intro h
      by_contra hne
      by_cases hrow : m' = m
      · subst hrow
        exact hne ⟨rfl, Nat.add_left_cancel h⟩
      · exact Region.row_index_ne hi hu hrow h
    · rintro ⟨rfl, rfl⟩
      rfl
  have hskip : ∀ m' ∈ List.range call.m, m' * slots + n_routed ≠ m * slots + u :=
    fun m' _ h => hshared ((hcell hroom).mp h).2.symm
  rw [if_neg hshared,
    PointUpdate.foldl_update_of_ne (fun m => m * slots + n_routed) (fun _ => 1) _ hskip]
  -- each live cell adds to the entry of its own expert
  have hloop : ∀ w : Nat → W, call.live.foldl (add_weight call slots slot_of) w =
      call.live.foldl (fun w c => Function.update w
        (c.1 * slots + (slot_of (call.expert c)).getD 0)
        (w (c.1 * slots + (slot_of (call.expert c)).getD 0) + call.weight c)) w := by
    intro w
    apply List.foldl_ext
    intro w c hc
    obtain ⟨i, hi, -⟩ := hlive c hc
    unfold add_weight
    rw [hi]
    rfl
  have hinside : m * slots + u < call.m * slots := by
    have hrow := Nat.mul_le_mul_right slots (Nat.succ_le_of_lt hm)
    rw [Nat.succ_mul] at hrow
    omega
  rw [hloop, foldl_add_at, if_pos hinside]
  congr 1
  apply List.filter_congr
  intro c hc
  obtain ⟨i, hi, hlt⟩ := hlive c hc
  apply decide_eq_decide.mpr
  rw [hi, Option.getD_some, Option.some.injEq]
  exact hcell hlt

/-- Column `m` of the matrix: a staged expert's slot has the sum of the column's weights for it,
    the shared slot 1, and the slots after it 0. -/
theorem fill_weights_at (w : Nat → W) (hexact : Interning.Exact slot_of keys)
    (hnamed : ∀ e ∈ call.named, e ∈ keys) (hroom : keys.length < slots) (hm : m < call.m)
    (hu : u < slots) :
    fill_weights call slots keys.length slot_of w (m * slots + u) =
      if u = keys.length then 1 else (keys[u]?).elim 0 (call.column_weight m) := by
  have hlive : ∀ c ∈ call.live, ∃ i, slot_of (call.expert c) = some i ∧ i < slots := by
    intro c hc
    obtain ⟨i, hi⟩ := List.mem_iff_getElem?.mp (hnamed _ (List.mem_map_of_mem hc))
    have hlt := (List.getElem?_eq_some_iff.mp hi).1
    exact ⟨i, (hexact _ _).mpr hi, by omega⟩
  rw [fill_weights_cell w hm hu hroom hlive]
  by_cases hshared : u = keys.length
  · rw [if_pos hshared, if_pos hshared]
  rw [if_neg hshared, if_neg hshared]
  cases hkey : keys[u]? with
  | some e =>
    have hslot : ∀ c : Nat × Nat, slot_of (call.expert c) = some u ↔ call.expert c = e := by
      intro c
      rw [hexact, hkey, Option.some.injEq]
      exact eq_comm
    simp only [hslot, Option.elim_some]
    rw [call.filter_live hm e, List.foldl_map]
    rfl
  | none =>
    have hnone : call.live.filter (fun c => c.1 = m ∧ slot_of (call.expert c) = some u) = [] := by
      rw [List.filter_eq_nil_iff]
      intro c _
      rw [decide_eq_true_iff]
      rintro ⟨-, hslot⟩
      rw [hexact, hkey] at hslot
      cases hslot
    rw [hnone]
    rfl

end Fill

/-! ### One call -/

omit [Zero W] [One W] [Add W] [DecidableEq W] in
/-- The table of slots writes the runner's buffers and nothing else. -/
theorem fill_table_spec (call : BatchCall W) (us : List Nat) (b : UnionBridge W) :
    ∃ ids list table, (fill_table call us b).2 =
        { b with ids := ids, slot_list := list, pointer_table := table } ∧
      ((fill_table call us b).1 = .ok () →
        ∀ u, (u ∈ us ∨ b.ids u = b.union_ids u ∧ b.slot_list u = u) →
          ids u = b.union_ids u ∧ list u = u) := by
  induction us generalizing b with
  | nil =>
    exact ⟨b.ids, b.slot_list, b.pointer_table, rfl,
      fun _ u hu => hu.resolve_left List.not_mem_nil⟩
  | cons u us ih =>
    rw [fill_table]
    dsimp only
    cases call.table_row ⟨UInt16.ofNat call.layer, UInt16.ofNat (b.union_ids u)⟩ with
    | error err => exact ⟨_, _, b.pointer_table, rfl, fun h => by cases h⟩
    | ok row =>
      dsimp only
      obtain ⟨ids, list, table, heq, hok⟩ := ih
        { b with
          ids := Function.update b.ids u (b.union_ids u)
          slot_list := Function.update b.slot_list u u
          pointer_table := Function.update b.pointer_table (b.union_ids u) row }
      refine ⟨ids, list, table, heq, fun h v hv => hok h v ?_⟩
      dsimp only
      by_cases heq : v = u
      · rw [heq, Function.update_self, Function.update_self]
        exact .inr ⟨rfl, rfl⟩
      · rw [Function.update_of_ne heq, Function.update_of_ne heq]
        exact hv.imp_left fun hmem => (List.mem_cons.mp hmem).resolve_left heq

/-- What a call is refused for before it touches the scratch. -/
def UnionBridge.Refused (b : UnionBridge W) (call : BatchCall W) : Prop :=
  ¬ b.created ∨ call.m = 0 ∨ call.m > kMoeBatchMax

/-- What a call can do. -/
theorem stage_batch_union_cases (b : UnionBridge W) (call : BatchCall W) :
    (b.Refused call ∧ (stage_batch_union b call).1 ≠ .ok () ∧ (stage_batch_union b call).2 = b) ∨
    (¬ b.Refused call ∧ (b.pass call).1 ≠ .ok () ∧ (stage_batch_union b call).1 ≠ .ok () ∧
      (stage_batch_union b call).2 = b.after_pass call) ∨
    (¬ b.Refused call ∧ (b.pass call).1 = .ok () ∧
      stage_batch_union b call =
        stage_slots (b.after_pass call) call (b.pass call).2.n_routed) := by
  have herror : ∀ err : Status, (Except.error err : Result Unit) ≠ .ok () := by
    intro err h
    cases h
  unfold stage_batch_union UnionBridge.Refused
  by_cases hcreated : ¬ b.created
  · rw [if_pos hcreated]
    exact .inl ⟨.inl hcreated, herror _, rfl⟩
  rw [if_neg hcreated]
  by_cases hm : call.m = 0 ∨ call.m > kMoeBatchMax
  · rw [if_pos hm]
    exact .inl ⟨.inr hm, herror _, rfl⟩
  rw [if_neg hm]
  have hgo : ¬ (¬ b.created ∨ call.m = 0 ∨ call.m > kMoeBatchMax) := not_or.mpr ⟨hcreated, hm⟩
  cases hpass : (b.pass call).1 with
  | error err => exact .inr (.inl ⟨hgo, herror err, herror err, rfl⟩)
  | ok _ => exact .inr (.inr ⟨hgo, rfl, rfl⟩)

/-- The slots of a call, once the pass has counted the experts. -/
theorem stage_slots_spec (b : UnionBridge W) (call : BatchCall W) (n_routed : Nat) :
    ∃ ids list count table live, (stage_slots b call n_routed).2 =
        { b with
          union_info := { columns := call.m, routed := n_routed, slots := n_routed + 1 }
          route_weights := fill_weights call b.slots n_routed b.union_slot_of b.route_weights
          ids := ids, slot_list := list, list_count := count, pointer_table := table
          live_columns := live } ∧
      ((stage_slots b call n_routed).1 = .ok () →
        (∀ u < n_routed, ids u = b.union_ids u) ∧ ids n_routed = b.shared_index ||| kSlotFp8 ∧
        count = n_routed + 1 ∧ ∀ u < count, list u = u) := by
  unfold stage_slots
  dsimp only
  obtain ⟨ids, list, table, heq, hok⟩ := fill_table_spec call (List.range n_routed)
    { b with
      union_info := { columns := call.m, routed := n_routed, slots := n_routed + 1 }
      route_weights := fill_weights call b.slots n_routed b.union_slot_of b.route_weights }
  generalize fill_table call (List.range n_routed) _ = res at heq hok
  obtain ⟨r, b'⟩ := res
  dsimp only at heq
  subst heq
  cases r with
  | error err => exact ⟨ids, list, _, table, _, rfl, fun h => by cases h⟩
  | ok _ =>
    dsimp only
    cases call.shared_row with
    | error err => exact ⟨ids, list, _, table, _, rfl, fun h => by cases h⟩
    | ok row =>
      refine ⟨_, _, _, _, _, rfl, fun _ => ⟨?_, Function.update_self _ _ _, rfl, ?_⟩⟩
      · intro u hu
        rw [Function.update_of_ne (Nat.ne_of_lt hu)]
        exact (hok rfl u (.inl (List.mem_range.mpr hu))).1
      · intro u hu
        by_cases hlast : u = n_routed
        · rw [hlast, Function.update_self]
        · rw [Function.update_of_ne hlast]
          exact (hok rfl u (.inl (List.mem_range.mpr (by omega)))).2

/-! ### What a call stages -/

/-- The experts the slot table names before the shared one. -/
def UnionBridge.staged (b : UnionBridge W) : List Nat :=
  (List.range b.union_info.routed).map b.ids

/-- `w[m][u]`. -/
def UnionBridge.route_weight (b : UnionBridge W) (m u : Nat) : W :=
  b.route_weights (m * b.slots + u)

/-- The staging of a batch: its experts, each in one slot, the shared expert behind them, and the
    weights. -/
structure Staged (call : BatchCall W) (b : UnionBridge W) : Prop where
  experts : b.staged = union_experts call
  distinct : b.staged.Nodup
  named : ∀ e, e ∈ b.staged ↔ ∃ m < call.m, ∃ s < call.topk,
    call.weight (m, s) ≠ 0 ∧ call.expert (m, s) = e
  room : b.staged.length < b.slots
  listed : b.list_count = b.staged.length + 1 ∧ ∀ u < b.list_count, b.slot_list u = u
  shared : b.ids b.staged.length = b.shared_index ||| kSlotFp8
  shared_weight : ∀ m < call.m, b.route_weight m b.staged.length = 1
  weight : ∀ m < call.m, ∀ u e, b.staged[u]? = some e → b.route_weight m u = call.column_weight m e
  rest : ∀ m < call.m, ∀ u, b.staged.length < u → u < b.slots → b.route_weight m u = 0

/-- The table knows the experts the last call has counted, and no other. -/
def UnionBridge.Counted (b : UnionBridge W) : Prop := b.scratch.Recorded b.n_ids

omit [Zero W] [One W] [Add W] [DecidableEq W] in
theorem slots_pos (b : UnionBridge W) : 0 < b.slots := by
  unfold UnionBridge.slots kUnionSlotsMax
  omega

theorem empty_recorded (n_ids : Nat) (ids : Nat → Nat) :
    UnionScratch.Recorded n_ids { slot_of := fun _ => none, ids, n_routed := 0 } :=
  ⟨Interning.Exact.empty, fun _ he => (List.not_mem_nil he).elim⟩

omit [One W] [Add W] in
/-- A pass over a table that knows the last call's experts starts from an empty one. -/
theorem UnionBridge.Counted.pass_eq {b : UnionBridge W} (h : b.Counted) (call : BatchCall W) :
    b.pass call = union_pass call.layer b.n_ids b.slots call.named
      { slot_of := fun _ => none, ids := b.union_ids, n_routed := 0 } := by
  have herased : erase_previous b.n_ids b.union_ids b.union_info.routed b.union_slot_of =
      fun _ => none := erase_previous_eq h
  unfold UnionBridge.pass
  rw [herased]

omit [One W] [Add W] in
theorem UnionBridge.Counted.pass_spec {b : UnionBridge W} (h : b.Counted) (call : BatchCall W) :
    ((b.pass call).1 = .ok () ↔ (∀ e ∈ call.named, e < b.n_ids) ∧
      (Interning.firsts call.named).length < b.slots) ∧
    ((b.pass call).1 = .ok () → (b.pass call).2.Recorded b.n_ids ∧
      (b.pass call).2.keys = Interning.firsts call.named) := by
  rw [h.pass_eq]
  exact union_pass_spec (empty_recorded b.n_ids b.union_ids) (slots_pos b)

/-- A call that succeeds on a table that knows the last call's experts stages its batch. -/
theorem UnionBridge.Counted.staged {b b' : UnionBridge W} {call : BatchCall W} (h : b.Counted)
    (hstage : stage_batch_union b call = (.ok (), b')) : Staged call b' := by
  rcases stage_batch_union_cases b call with
    ⟨-, herr, -⟩ | ⟨-, -, herr, -⟩ | ⟨hgo, hpass, heq⟩
  · exact absurd (congrArg Prod.fst hstage) herr
  · exact absurd (congrArg Prod.fst hstage) herr
  obtain ⟨hfits, hok⟩ := h.pass_spec call
  obtain ⟨hrec, hkeys⟩ := hok hpass
  obtain ⟨-, hroom⟩ := hfits.mp hpass
  obtain ⟨ids, list, count, table, live, hafter, hslots⟩ :=
    stage_slots_spec (b.after_pass call) call (b.pass call).2.n_routed
  rw [← heq, hstage] at hafter hslots
  obtain ⟨hids, hshared, hcount, hlist⟩ := hslots rfl
  dsimp only at hafter
  have hlen : (b.pass call).2.n_routed = (Interning.firsts call.named).length := by
    rw [← hkeys, UnionScratch.length_keys]
  have hstaged : b'.staged = Interning.firsts call.named := by
    rw [← hkeys, hafter]
    apply List.map_congr_left
    intro u hu
    exact hids u (List.mem_range.mp hu)
  have hslotseq : b'.slots = b.slots := by
    rw [hafter]
    rfl
  have hnamed : ∀ e ∈ call.named, e ∈ (b.pass call).2.keys := by
    intro e he
    rw [hkeys, Interning.mem_firsts]
    exact he
  -- the table knows every named expert, so no weight is left out
  have hweight : ∀ m < call.m, ∀ u < b.slots, b'.route_weight m u =
      if u = b'.staged.length then 1 else (b'.staged[u]?).elim 0 (call.column_weight m) := by
    intro m hm u hu
    rw [hstaged, ← hkeys]
    have hfill := fill_weights_at b.route_weights hrec.exact hnamed (by rwa [hkeys]) hm hu
    rw [← hfill, UnionScratch.length_keys, UnionBridge.route_weight, hslotseq, hafter]
    rfl
  have hroom' : b'.staged.length < b'.slots := by
    rw [hstaged, hslotseq]
    exact hroom
  constructor
  case experts =>
    rw [hstaged, union_experts]
    split
    next hbad =>
      rcases hbad with hm | hm | htopk
      · exact absurd (.inr (.inl hm)) hgo
      · exact absurd (.inr (.inr hm)) hgo
      · have hnil : call.named = [] := by
          rw [List.eq_nil_iff_forall_not_mem]
          intro e he
          obtain ⟨m, -, s, hs, -⟩ := BatchCall.mem_named.mp he
          omega
        rw [hnil]
        rfl
    next => rfl
  case distinct =>
    rw [hstaged]
    exact Interning.nodup_firsts _
  case named =>
    intro e
    rw [hstaged, Interning.mem_firsts, BatchCall.mem_named]
  case room => exact hroom'
  case listed =>
    rw [hstaged, ← hlen, hafter]
    exact ⟨hcount, hlist⟩
  case shared =>
    rw [hstaged, ← hlen, hafter]
    exact hshared
  case shared_weight =>
    intro m hm
    rw [hweight m hm _ (by rwa [← hslotseq]), if_pos rfl]
  case weight =>
    intro m hm u e hu
    have hlt := (List.getElem?_eq_some_iff.mp hu).1
    rw [hweight m hm u (by omega), if_neg (Nat.ne_of_lt hlt), hu]
    rfl
  case rest =>
    intro m hm u hu hlt
    rw [hweight m hm u (by rwa [← hslotseq]), if_neg (Nat.ne_of_gt hu),
      List.getElem?_eq_none (Nat.le_of_lt hu)]
    rfl

/-! ### Runs of calls -/

/-- All experts are in range, and they leave the shared one a slot. -/
def UnionBridge.Fits (b : UnionBridge W) (call : BatchCall W) : Prop :=
  (∀ e ∈ call.named, e < b.n_ids) ∧ (Interning.firsts call.named).length < b.slots

/-- The pass ends at its first expert. -/
def UnionBridge.Unrecorded (b : UnionBridge W) (call : BatchCall W) : Prop :=
  ∃ e es, call.named = e :: es ∧ (b.n_ids ≤ e ∨ b.slots = 1)

/-- The call does not fail in the pass with an expert recorded. -/
def UnionBridge.Approved (b : UnionBridge W) (call : BatchCall W) : Prop :=
  b.Refused call ∨ b.Fits call ∨ b.Unrecorded call

def bridge_next (b : UnionBridge W) (call : BatchCall W) : Option (UnionBridge W) :=
  some (stage_batch_union b call).2

/-- A bridge whose table is empty, and its calls. -/
def bridge_system : System (UnionBridge W) (BatchCall W) :=
  System.ofNext (fun b => b.union_slot_of = (fun _ => none) ∧ b.union_info.routed = 0) bridge_next

/-- An approved call leaves a table that knows the experts it has counted, and no other. -/
theorem UnionBridge.Counted.step {b : UnionBridge W} {call : BatchCall W} (h : b.Counted)
    (happroved : b.Approved call) : (stage_batch_union b call).2.Counted := by
  obtain ⟨hfits, hok⟩ := h.pass_spec call
  rcases stage_batch_union_cases b call with ⟨-, -, heq⟩ | ⟨hgo, hpass, -, heq⟩ | ⟨-, hpass, heq⟩
  · rw [heq]
    exact h
  · -- the pass has failed, so it has recorded nothing
    obtain ⟨e, es, hnamed, hfull⟩ :=
      (happroved.resolve_left hgo).resolve_left fun hfit => hpass (hfits.mpr hfit)
    have hempty : (b.pass call).2 =
        { slot_of := fun _ => none, ids := b.union_ids, n_routed := 0 } := by
      rw [h.pass_eq, hnamed]
      rcases union_pass_cons call.layer b.n_ids b.slots e es
          { slot_of := fun _ => none, ids := b.union_ids, n_routed := 0 } with
        ⟨-, err, herr⟩ | ⟨-, hold, -⟩ | ⟨-, -, -, err, herr⟩ | ⟨hrange, -, hfree, -⟩
      · rw [herr]
      · exact absurd rfl hold
      · rw [herr]
      · dsimp only at hfree
        omega
    rw [heq]
    unfold UnionBridge.Counted UnionBridge.scratch UnionBridge.after_pass
    rw [hempty]
    exact empty_recorded b.n_ids b.union_ids
  · obtain ⟨ids, list, count, table, live, hafter, -⟩ :=
      stage_slots_spec (b.after_pass call) call (b.pass call).2.n_routed
    rw [heq, hafter]
    exact (hok hpass).1

/-- A batch of one cell. -/
def single_call (e : Nat) (w : W) : BatchCall W where
  m := 1
  ids := fun _ => e
  weights := fun _ => w
  topk := 1
  table_row := fun _ => .ok fun _ => 0
  shared_row := .ok fun _ => 0

/-- An expert that the table knows while the last call has counted none gets no slot. -/
theorem skipped_expert {b : UnionBridge W} {e i : Nat} {w : W} (hcreated : b.created = true)
    (hrange : e < b.n_ids) (hw : w ≠ 0) (hstale : b.union_slot_of e = some i)
    (hrouted : b.union_info.routed = 0) :
    ∃ b', stage_batch_union b (single_call e w) = (.ok (), b') ∧ ¬ Staged (single_call e w) b' := by
  have hnamed : (single_call e w).named = [e] := by
    unfold BatchCall.named BatchCall.live BatchCall.cells
    rw [show (single_call e w).m = 1 from rfl, show (single_call e w).topk = 1 from rfl]
    simp [BatchCall.weight, BatchCall.expert, single_call, hw]
  have hpass : b.pass (single_call e w) =
      (.ok (), { slot_of := b.union_slot_of, ids := b.union_ids, n_routed := 0 }) := by
    unfold UnionBridge.pass
    rw [hnamed, hrouted]
    have hcons := union_pass_cons (single_call e w).layer b.n_ids b.slots e []
      { slot_of := b.union_slot_of, ids := b.union_ids, n_routed := 0 }
    dsimp only at hcons
    rcases hcons with ⟨hbad, -⟩ | ⟨-, -, heq⟩ | ⟨-, hnone, -⟩ | ⟨-, hnone, -⟩
    · omega
    · exact heq
    · rw [hstale] at hnone
      cases hnone
    · rw [hstale] at hnone
      cases hnone
  have hgo : ¬ b.Refused (single_call e w) := by
    rintro (hbad | hbad | hbad)
    · exact hbad hcreated
    · cases hbad
    · exact absurd hbad (show ¬ 1 > kMoeBatchMax by decide)
  rcases stage_batch_union_cases b (single_call e w) with ⟨hbad, -⟩ | ⟨-, hbad, -⟩ | ⟨-, -, heq⟩
  · exact absurd hbad hgo
  · rw [hpass] at hbad
    exact absurd rfl hbad
  rw [hpass] at heq
  refine ⟨_, heq, fun hstaged => ?_⟩
  have hmem := (hstaged.named e).mpr ⟨0, Nat.one_pos, 0, Nat.one_pos, hw, rfl⟩
  exact List.not_mem_nil hmem

/-- A call that fails with an expert recorded leaves it in the table: the next call that names it
    gives it no slot. -/
theorem UnionBridge.Counted.lost {b : UnionBridge W} {call : BatchCall W} (h : b.Counted)
    (happroved : ¬ b.Approved call) :
    ∃ next b', stage_batch_union (stage_batch_union b call).2 next = (.ok (), b') ∧
      ¬ Staged next b' := by
  obtain ⟨hgo, happroved⟩ := not_or.mp happroved
  obtain ⟨hunfit, hrecorded⟩ := not_or.mp happroved
  have hpass : (b.pass call).1 ≠ .ok () := fun hok => hunfit ((h.pass_spec call).1.mp hok)
  obtain ⟨e, es, hnamed⟩ : ∃ e es, call.named = e :: es := by
    cases hnamed : call.named with
    | nil =>
      refine absurd ⟨?_, ?_⟩ hunfit
      · rw [hnamed]
        exact fun e he => (List.not_mem_nil he).elim
      · rw [hnamed]
        exact slots_pos b
    | cons e es => exact ⟨e, es, rfl⟩
  have hfirst : ¬ (b.n_ids ≤ e ∨ b.slots = 1) := fun hfull => hrecorded ⟨e, es, hnamed, hfull⟩
  have hslots := slots_pos b
  have hrange : e < b.n_ids := Nat.lt_of_not_le fun hle => hfirst (.inl hle)
  -- the first expert has slot 0 in the table for good
  have hstale : (b.pass call).2.slot_of e = some 0 := by
    rw [h.pass_eq, hnamed]
    rcases union_pass_cons call.layer b.n_ids b.slots e es
        { slot_of := fun _ => none, ids := b.union_ids, n_routed := 0 } with
      ⟨hrange, -⟩ | ⟨-, hold, -⟩ | ⟨-, -, hfull, -⟩ | ⟨-, -, -, heq⟩
    · exact absurd (.inl hrange) hfirst
    · exact absurd rfl hold
    · exact absurd (.inr (by dsimp only at hfull; omega)) hfirst
    · rw [heq]
      exact union_pass_keeps (Function.update_self _ _ _)
  obtain ⟨m, -, s, -, hweight, -⟩ := BatchCall.mem_named.mp
    (show e ∈ call.named by rw [hnamed]; exact List.mem_cons_self)
  have hafter : (stage_batch_union b call).2 = b.after_pass call := by
    rcases stage_batch_union_cases b call with ⟨hbad, -⟩ | ⟨-, -, -, heq⟩ | ⟨-, hok, -⟩
    · exact absurd hbad hgo
    · exact heq
    · exact absurd hok hpass
  have hcreated : b.created = true := by
    by_contra hnot
    exact hgo (.inl hnot)
  rw [hafter]
  exact ⟨single_call e (call.weight (m, s)), skipped_expert hcreated hrange hweight hstale rfl⟩

/-- In a run whose calls are approved every call that succeeds stages its batch, and a call that is
    not approved spoils the staging of a later one. -/
theorem union_staged_of_approved {b : UnionBridge W}
    (h : Reachable (bridge_system.restrict UnionBridge.Approved) b) (call : BatchCall W) :
    (∀ b', stage_batch_union b call = (.ok (), b') → Staged call b') ∧
    (¬ b.Approved call → ∃ next b',
      stage_batch_union (stage_batch_union b call).2 next = (.ok (), b') ∧ ¬ Staged next b') := by
  have hcounted : b.Counted := by
    apply h.invariant
    · rintro b ⟨hslot_of, hrouted⟩
      unfold UnionBridge.Counted UnionBridge.scratch
      rw [hslot_of, hrouted]
      exact empty_recorded b.n_ids b.union_ids
    · rintro b call b' hb ⟨hstep, happroved⟩
      obtain rfl := Option.some.inj hstep
      exact hb.step happroved
  exact ⟨fun b' hstage => hcounted.staged hstage, fun hbad => hcounted.lost hbad⟩

end Stage

/-! #### An id out of range -/

/-- Four experts, two of them for a token. -/
def small_bridge : UnionBridge Nat where
  created := true
  n_routed_experts := 4
  num_experts_per_tok := 2
  ids := fun _ => 0
  slot_list := fun _ => 0
  list_count := 0
  route_weights := fun _ => 0
  pointer_table := fun _ _ => 0
  live_columns := 0

/-- One column that names experts 1 and `e`. -/
def pair_call (e : Nat) : BatchCall Nat where
  m := 1
  ids := fun i => if i = 0 then 1 else e
  weights := fun _ => 3
  topk := 2
  table_row := fun _ => .ok fun _ => 0
  shared_row := .ok fun _ => 0

/-- Expert 1 is recorded before expert 9 is refused, and the next call skips it. -/
theorem union_staging_loses_expert :
    ¬ ∀ (b b' : UnionBridge Nat) (call : BatchCall Nat), Reachable bridge_system b →
      stage_batch_union b call = (.ok (), b') → Staged call b' := by
  intro h
  have hinit : Reachable bridge_system small_bridge := .of_init ⟨rfl, rfl⟩
  have hreach : Reachable bridge_system (stage_batch_union small_bridge (pair_call 9)).2 :=
    hinit.step (l := pair_call 9) rfl
  have hstaged := h _ (stage_batch_union (stage_batch_union small_bridge (pair_call 9)).2
    (pair_call 2)).2 (pair_call 2) hreach rfl
  exact absurd hstaged.experts (by decide)

/-- The call after an approved one stages its two experts. -/
theorem union_staging_pair :
    ∃ b', stage_batch_union (stage_batch_union small_bridge (pair_call 2)).2 (pair_call 3) =
      (.ok (), b') ∧ Staged (pair_call 3) b' := by
  have happroved : small_bridge.Approved (pair_call 2) := .inr (.inl ⟨by decide, by decide⟩)
  have hinit : Reachable (bridge_system.restrict UnionBridge.Approved) small_bridge :=
    .of_init ⟨rfl, rfl⟩
  have hreach : Reachable (bridge_system.restrict UnionBridge.Approved)
      (stage_batch_union small_bridge (pair_call 2)).2 :=
    hinit.step (l := pair_call 2) ⟨rfl, happroved⟩
  exact ⟨_, rfl, (union_staged_of_approved hreach (pair_call 3)).1 _ rfl⟩

end CachedMoe.Runtime
