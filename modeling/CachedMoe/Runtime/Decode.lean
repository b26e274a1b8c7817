import CachedMoe.Runtime.Ring

/-! # The decode step

    `Engine::decode_step` of `runtime/engine.cpp` with its prologue, its layers and its epilogue, and
    `feed`, `set_context_tokens` and `reset_context` around it, for one decode stream.

    What the kernels compute and whether a call to the device succeeds is given: the answers of a
    stream are a function of how many calls it has made. A layer's answer says what its kernels
    leave in their buffers; where that goes is the model's. Expert residency, timings, profiles and
    the engram planes are left out. -/

namespace CachedMoe.Runtime

open CachedMoe KvStore

/-! ### Configuration -/

/-- What the decode path reads of `TextConfig`. -/
structure TextConfig where
  num_hidden_layers : Nat
  hidden_size : Nat
  head_dim : Nat
  index_head_dim : Nat
  index_topk : Nat
  sliding_window : Nat
  vocab_size : Nat
  compress_ratios : List Nat := []
  kv_source_layer_ids : List Nat := []
  index_source_layer_ids : List Nat := []
  dspark_target_layer_ids : List Nat := []
  deriving Repr, DecidableEq

namespace TextConfig

/-- 0 is a layer with a window only. -/
def compress_ratio (c : TextConfig) (L : Nat) : Nat := c.compress_ratios.getD L 0

def is_kv_source (c : TextConfig) (L : Nat) : Bool := c.kv_source_layer_ids.contains L

def is_index_source (c : TextConfig) (L : Nat) : Bool := c.index_source_layer_ids.contains L

def run_compressor (c : TextConfig) (L : Nat) : Bool := c.compress_ratio L ≠ 0 && c.is_kv_source L

/-- The compressed positions that a step at `position` may read. -/
def n_cmp (c : TextConfig) (L position : Nat) : Nat :=
  if c.compress_ratio L ≠ 0 then (position + 1) / c.compress_ratio L else 0

/-- The layer has a top-k list of its own. -/
def lists (c : TextConfig) (L : Nat) : Prop := c.compress_ratio L = 0 ∨ c.is_index_source L

instance (c : TextConfig) (L : Nat) : Decidable (c.lists L) := inferInstanceAs (Decidable (_ ∨ _))

/-- Whether the layer carries the members of an open group. -/
def carries (c : TextConfig) (L : Nat) : Bool := c.run_compressor L && 1 < c.compress_ratio L

end TextConfig

/-- `plane_of` after the layers of `Ls`; `cur` is the last source. -/
def planes_of (c : TextConfig) : List Nat → (cur : Option Nat) → List (Option Nat)
  | [], _ => []
  | L :: Ls, cur =>
    let cur := if c.is_kv_source L ∧ c.compress_ratio L ≠ 0 then some L else cur
    (if c.compress_ratio L ≠ 0 then cur else none) :: planes_of c Ls cur

def KvStoreConfig.for_model (c : TextConfig) (max_context initial_context : Nat)
    (hwindow : 0 < c.sliding_window) : KvStoreConfig where
  layers := c.num_hidden_layers
  window := c.sliding_window
  latent_dim := c.head_dim
  index_dim := c.index_head_dim
  index_topk := c.index_topk
  max_context := max_context
  initial_context := initial_context
  plane_of := planes_of c (List.range c.num_hidden_layers) none
  ratio := (List.range c.num_hidden_layers).map c.compress_ratio
  window_pos := hwindow

/-- `configuration::facts::MAX_CONTEXT`. -/
def kMaxIndexPositions : Nat := 1048576

/-- `layout::kSlidingWindow`, the slots of the draft window. -/
def kSlidingWindow : Nat := 128

/-! ### The state of a stream -/

/-- A slot of the draft window: `draft_position_`, `draft_mask_` and a row of `draft_hidden_`. -/
structure DraftSlot where
  position : Int := -1
  mask : UInt8 := 0
  hidden : Nat → UInt32 := fun _ => 0

abbrev DraftWindow := Nat → DraftSlot

/-- What `retain_prompt_state` keeps. -/
structure PromptState where
  ring : Option PromptRing := none
  tokens : List Nat := []
  /-- `prompt_first_`: the token of the step that ended the prompt. -/
  first : Option Nat := none
  draft : Option DraftWindow := none
  carry : Option KvRowBackup := none

/-- The members of `Stream` besides the KV store and the history. -/
structure StreamState where
  gpu_ready : Bool := true
  produce_ced : Bool := true
  draft : DraftWindow := fun _ => {}
  prompt : PromptState := {}
  /-- `next_position()` of the draft runtime; 0 when it is not seeded. -/
  dspark_next : Nat := 0
  /-- Calls to the device so far. -/
  calls : Nat := 0
  /-- Which layers have the rows of a position, for the step that recorded it last. -/
  rows : Nat → Nat → Bool := fun _ _ => false

abbrev DecodeStream := Engine StreamState

/-- A call to the device is made. -/
def tick (e : DecodeStream) : DecodeStream :=
  { e with rest := { e.rest with calls := e.rest.calls + 1 } }

/-! ### Answers of the device -/

/-- What the kernels of a layer leave for one position. -/
structure LayerRow where
  win_val : Nat → UInt8 := fun _ => 0
  win_scale : Nat → UInt8 := fun _ => 0
  /-- The token's member of the open group, and its score. -/
  carry_kv : Nat → UInt32 := fun _ => 0
  carry_score : Nat → UInt32 := fun _ => 0
  /-- The row of the group that the token completes, and its index key. -/
  cmp : Nat → UInt16 := fun _ => 0
  key : Nat → UInt16 := fun _ => 0
  /-- The mean over the residual streams. -/
  hidden : Nat → UInt32 := fun _ => 0

/-- The answers to a decode step. -/
structure StepAnswer where
  /-- The allocator's answers. -/
  slabs : Nat → Result Unit := fun _ => .ok ()
  embed_token : Result Unit := .ok ()
  timeline : Result Unit := .ok ()
  layer_begin : Nat → Result Unit := fun _ => .ok ()
  layer_gate : Nat → Result Unit := fun _ => .ok ()
  layer_moe : Nat → Result Unit := fun _ => .ok ()
  row : Nat → LayerRow := fun _ => {}
  /-- `collapse_and_sample`. -/
  sample : Result Nat := .ok 0

/-! ### Counts and lists of a step -/

/-- A round of the loop of `prepare_ced`. -/
def prepare_layer (c : TextConfig) (position L : Nat) (kv : KvStore) : Result Unit × KvStore :=
  let n_cmp := c.n_cmp L position
  if n_cmp > kMaxIndexPositions then
    (fail .ResourceExhausted (s!"layer {L} wants {n_cmp} compressed positions; the " ++
      s!"indexer's score plane holds {kMaxIndexPositions}"), kv)
  else
    let n_sel := min n_cmp c.index_topk
    if c.lists L then kv.set_decode_topk L position n_cmp n_sel
    else kv.set_counts L n_cmp (c.sliding_window + n_sel)

def prepare_layers (c : TextConfig) (position : Nat) : List Nat → KvStore → Result Unit × KvStore
  | [], kv => (.ok (), kv)
  | L :: Ls, kv =>
    match prepare_layer c position L kv with
    | (.error err, kv) => (.error err, kv)
    | (.ok (), kv) => prepare_layers c position Ls kv

def prepare_ced (c : TextConfig) (kv : KvStore) (position : Nat) : Result Unit × KvStore :=
  prepare_layers c position (List.range c.num_hidden_layers) kv

/-! ### A layer's writes -/

namespace KvStore

def put_ring_row (kv : KvStore) (L position : Nat) (r : LayerRow) : KvStore :=
  let c := kv.cfg
  let row := c.ring_row L (kv.ring_slot position)
  { kv with
    win_val := Region.write kv.win_val (row * c.latent_dim) (Region.read r.win_val 0 c.latent_dim)
    win_scale := Region.write kv.win_scale (row * c.window_scales)
      (Region.read r.win_scale 0 c.window_scales) }

/-- The owner index whose state a layer is handed. -/
def state_owner (kv : KvStore) (L : Nat) : Nat := (kv.owner_index L).getD 0

/-- Slot `slot` of the layer's `kv_state` and `score_state`, with `D` floats a slot. -/
def put_carry_slot (kv : KvStore) (L slot D : Nat) (carry score : List UInt32) : KvStore :=
  let c := kv.cfg
  let at_slot := kv.state_owner L * c.state_stride + slot * D
  let state := Region.write kv.state at_slot carry
  { kv with state := Region.write state (c.score_base + at_slot) score }

/-- The row of the group that `position` completes. -/
def put_group_row (kv : KvStore) (L row : Nat) (r : LayerRow) : KvStore :=
  let c := kv.cfg
  let oi := kv.state_owner L
  { kv with
    cmp := Function.update kv.cmp oi
      (Region.write (kv.cmp oi) (row * c.latent_dim) (Region.read r.cmp 0 c.latent_dim))
    key := Function.update kv.key oi
      (Region.write (kv.key oi) (row * c.index_dim) (Region.read r.key 0 c.index_dim)) }

/-- The compressor of a source: the token's slot of the open group, and the row it completes. -/
def put_compressed (kv : KvStore) (c : TextConfig) (L position : Nat) (r : LayerRow) : KvStore :=
  let ratio := c.compress_ratio L
  let kv := if c.carries L then
      kv.put_carry_slot L (position % ratio) c.head_dim (Region.read r.carry_kv 0 c.head_dim)
        (Region.read r.carry_score 0 c.head_dim)
    else kv
  if c.run_compressor L ∧ (position + 1) % ratio = 0 then kv.put_group_row L (position / ratio) r
  else kv

end KvStore

/-- `capture_draft_hidden`: the layers whose residual stream the draft reads have a part of the
    slot each. -/
def capture_draft_hidden (c : TextConfig) (L position : Nat) (hidden : Nat → UInt32)
    (w : DraftWindow) : DraftWindow :=
  match c.dspark_target_layer_ids.idxOf? L with
  | none => w
  | some part =>
    Function.update w (position % kSlidingWindow) <|
      let s := w (position % kSlidingWindow)
      { position := position
        mask := (if s.position = position then s.mask else 0) ||| UInt8.ofNat (2 ^ part)
        hidden := Region.write s.hidden (part * c.hidden_size)
          (Region.read hidden 0 c.hidden_size) }

/-! ### The step -/

/-- `history_[position] = token`, after the history was made long enough. -/
def record_token (history : List Nat) (position token : Nat) : List Nat :=
  (history ++ List.replicate (position + 1 - history.length) 0).set position token

/-- The parts of a step up to its epilogue. -/
inductive Phase where
  | prologue
  | layer_begin (L : Nat)
  | layer_gate (L : Nat)
  | layer_moe (L : Nat)
  deriving Repr, DecidableEq

/-- The token is in the history, and no row of the position is there. -/
def begin_step (a : StepAnswer) (e : DecodeStream) (token position : Nat) : DecodeStream where
  kv := { e.kv with allocate_slabs := a.slabs }
  history := record_token e.history position token
  rest := { e.rest with
    calls := e.rest.calls + 1
    rows := Function.update e.rest.rows position fun _ => false }

def step_prologue (c : TextConfig) (a : StepAnswer) (e : DecodeStream) (token position : Nat) :
    Result Unit × DecodeStream :=
  let e := begin_step a e token position
  match if e.rest.produce_ced then prepare_ced c e.kv position else (.ok (), e.kv) with
  | (.error err, kv) => (.error err, { e with kv := kv })
  | (.ok (), kv) =>
    match a.embed_token with
    | .error err => (.error err, { e with kv := kv })
    | .ok () => (a.timeline, { e with kv := kv })

/-- The buffers of the attention went out; the ring row and the compressor's rows are written. -/
def layer_begin (c : TextConfig) (a : StepAnswer) (e : DecodeStream) (L position : Nat) :
    Result Unit × DecodeStream :=
  match a.layer_begin L with
  | .error err => (.error err, e)
  | .ok () =>
    (.ok (), { e with
      kv := (e.kv.put_ring_row L position (a.row L)).put_compressed c L position (a.row L)
      rest := { e.rest with
        rows := Function.update e.rest.rows position
          (Function.update (e.rest.rows position) L true) } })

def layer_gate (c : TextConfig) (a : StepAnswer) (e : DecodeStream) (L position : Nat) :
    Result Unit × DecodeStream :=
  match a.layer_gate L with
  | .error err => (.error err, e)
  | .ok () =>
    (.ok (), { e with rest := { e.rest with
      draft := capture_draft_hidden c L position (a.row L).hidden e.rest.draft } })

def run_phase (c : TextConfig) (a : StepAnswer) (token position : Nat) :
    Phase → DecodeStream → Result Unit × DecodeStream
  | .prologue, e => step_prologue c a e token position
  | .layer_begin L, e => layer_begin c a e L position
  | .layer_gate L, e => layer_gate c a e L position
  | .layer_moe L, e => (a.layer_moe L, e)

/-- The phases in order, until one fails. -/
def run_phases (c : TextConfig) (a : StepAnswer) (token position : Nat) :
    List Phase → DecodeStream → Result Unit × DecodeStream
  | [], e => (.ok (), e)
  | p :: ps, e =>
    match run_phase c a token position p e with
    | (.error err, e) => (.error err, e)
    | (.ok (), e) => run_phases c a token position ps e

def run_layer (L : Nat) : List Phase := [.layer_begin L, .layer_gate L, .layer_moe L]

def step_phases (c : TextConfig) : List Phase :=
  .prologue :: (List.range c.num_hidden_layers).flatMap run_layer

/-- The step whose answers are `a`. -/
def decode_with (c : TextConfig) (a : StepAnswer) (e : DecodeStream) (token position : Nat) :
    Result Nat × DecodeStream :=
  if ¬ e.rest.gpu_ready then (fail .FailedPrecondition "call init_gpu() first", e)
  else
    match run_phases c a token position (step_phases c) e with
    | (.error err, e) => (.error err, e)
    | (.ok (), e) => (a.sample, e)

section Stream

variable (c : TextConfig) (steps : Nat → StepAnswer)

def decode_step (e : DecodeStream) (token position : Nat) : Result Nat × DecodeStream :=
  decode_with c (steps e.rest.calls) e token position

/-! ### The context -/

/-- A replayed step; its token is not used. -/
def replay_step : DecodeStep StreamState := fun e token position =>
  match decode_step c steps e token position with
  | (.error err, e) => (.error err, e)
  | (.ok _, e) => (.ok (), e)

/-- `reset_context` on the rest of the stream. -/
def reset_state (r : StreamState) : StreamState :=
  { r with
    draft := fun _ => {}
    prompt := { r.prompt with ring := none, first := none, draft := none }
    dspark_next := 0 }

/-- `set_context_tokens` on the rest of the stream, when `common` of the old tokens stay. -/
def truncate_prompt (r : StreamState) (common : Nat) : StreamState :=
  let p := r.prompt
  { r with prompt := { p with
      ring := p.ring.map fun ring => ring.truncate common
      first := if common < p.tokens.length then none else p.first
      draft := p.draft.map fun w s =>
        if (common : Int) ≤ (w s).position then { w s with position := -1 } else w s } }

def stream_parts : EngineParts StreamState where
  decode_step := replay_step c steps
  gpu_ready := StreamState.gpu_ready
  index_positions := kMaxIndexPositions
  reset_rest := reset_state
  truncate_prompt := truncate_prompt

def max_context (e : DecodeStream) : Nat := min e.kv.cfg.max_context kMaxIndexPositions

/-- The loop of `feed`: token `i` goes to `base + i`. -/
def feed_loop (base : Nat) : (i : Nat) → (last : Nat) → List Nat → DecodeStream →
    Result Nat × DecodeStream
  | _, last, [], e => (.ok last, e)
  | i, _, token :: tokens, e =>
    match decode_step c steps e token (base + i) with
    | (.error err, e) => (.error err, e)
    | (.ok r, e) => feed_loop base (i + 1) r tokens e

/-- The answer is the token that the last step produced. -/
def feed (e : DecodeStream) (tokens : List Nat) : Result Nat × DecodeStream :=
  if ¬ e.rest.gpu_ready then (fail .FailedPrecondition "call init_gpu() first", e)
  else if ¬ e.rest.produce_ced then
    (fail .FailedPrecondition "feed needs design 7.4's kernels on (begin_session)", e)
  else if tokens = [] then (fail .InvalidArgument "nothing to feed", e)
  else
    let base := e.history.length
    if base + tokens.length > max_context e then
      (fail .ResourceExhausted (s!"{base} + {tokens.length} tokens exceed the session's " ++
        s!"{max_context e}-position context"), e)
    else feed_loop c steps base 0 0 tokens e

end Stream

/-! ### What the counts and lists leave alone -/

/-- Everything but the planes, the counts, the lists and what the slots hold. -/
structure KeepsRows (kv kv' : KvStore) : Prop where
  cfg : kv'.cfg = kv.cfg
  valid : kv'.valid = kv.valid
  win_lo : kv'.win_lo = kv.win_lo
  win_val : kv'.win_val = kv.win_val
  win_scale : kv'.win_scale = kv.win_scale
  state : kv'.state = kv.state

theorem KeepsRows.refl (kv : KvStore) : KeepsRows kv kv := ⟨rfl, rfl, rfl, rfl, rfl, rfl⟩

theorem KeepsRows.trans {kv₁ kv₂ kv₃ : KvStore} (h : KeepsRows kv₁ kv₂) (h' : KeepsRows kv₂ kv₃) :
    KeepsRows kv₁ kv₃ where
  cfg := h'.cfg.trans h.cfg
  valid := h'.valid.trans h.valid
  win_lo := h'.win_lo.trans h.win_lo
  win_val := h'.win_val.trans h.win_val
  win_scale := h'.win_scale.trans h.win_scale
  state := h'.state.trans h.state

section Counts

variable (kv : KvStore)

theorem reserve_keeps_rows (n : Nat) :
    KeepsRows kv (kv.reserve n).2 ∧ (kv.reserve n).2.slot_pos = kv.slot_pos ∧
      (kv.reserve n).2.top = kv.top := by
  unfold KvStore.reserve
  split
  · exact ⟨.refl kv, rfl, rfl⟩
  split
  · exact ⟨.refl kv, rfl, rfl⟩
  split
  · exact ⟨.refl kv, rfl, rfl⟩
  dsimp only
  split
  · exact ⟨.refl kv, rfl, rfl⟩
  · exact ⟨⟨rfl, rfl, rfl, rfl, rfl, rfl⟩, rfl, rfl⟩

theorem set_counts_keeps (L n_cmp n_kv : Nat) :
    KeepsRows kv (kv.set_counts L n_cmp n_kv).2 ∧
      (kv.set_counts L n_cmp n_kv).2.slot_pos = kv.slot_pos ∧
      (kv.set_counts L n_cmp n_kv).2.top = kv.top := by
  unfold KvStore.set_counts
  split
  · exact ⟨.refl kv, rfl, rfl⟩
  cases kv.owner_index L with
  | none =>
    dsimp only
    split
    · exact ⟨.refl kv, rfl, rfl⟩
    · exact ⟨⟨rfl, rfl, rfl, rfl, rfl, rfl⟩, rfl, rfl⟩
  | some oi =>
    dsimp only
    split
    · exact ⟨.refl kv, rfl, rfl⟩
    have hkeeps := reserve_keeps_rows kv (n_cmp * kv.cfg.owner_ratio oi)
    generalize kv.reserve (n_cmp * kv.cfg.owner_ratio oi) = res at hkeeps
    obtain ⟨r, kv₁⟩ := res
    obtain ⟨⟨hcfg, hvalid, hlo, hval, hscale, hstate⟩, hslot⟩ := hkeeps
    cases r with
    | error err => exact ⟨⟨hcfg, hvalid, hlo, hval, hscale, hstate⟩, hslot⟩
    | ok _ => exact ⟨⟨hcfg, hvalid, hlo, hval, hscale, hstate⟩, hslot⟩

/-- A list is made for a layer: the slot of the position holds it. -/
theorem set_decode_topk_keeps (L position n_cmp n_sel : Nat) :
    KeepsRows kv (kv.set_decode_topk L position n_cmp n_sel).2 ∧
      ((kv.set_decode_topk L position n_cmp n_sel).1 = .ok () →
        (kv.set_decode_topk L position n_cmp n_sel).2.slot_pos =
          Function.update kv.slot_pos (kv.ring_slot position) position) ∧
      ∀ L' ≠ L, (kv.set_decode_topk L position n_cmp n_sel).2.top L' = kv.top L' := by
  unfold KvStore.set_decode_topk
  split
  · exact ⟨.refl kv, fun h => (by cases h), fun _ _ => rfl⟩
  have hres := reserve_keeps_rows kv (position + 1)
  cases hr : kv.reserve (position + 1) with
  | mk r kv₁ =>
    rw [hr] at hres
    cases r with
    | error err => exact ⟨hres.1, fun h => (by cases h), fun L' _ => congrFun hres.2.2 L'⟩
    | ok _ =>
      dsimp only
      have hcounts := set_counts_keeps kv₁ L n_cmp (kv₁.cfg.window + n_sel)
      cases hc : kv₁.set_counts L n_cmp (kv₁.cfg.window + n_sel) with
      | mk r kv₂ =>
        rw [hc] at hcounts
        have hkeeps := hres.1.trans hcounts.1
        cases r with
        | error err =>
          exact ⟨hkeeps, fun h => (by cases h),
            fun L' _ => congrFun (hcounts.2.2.trans hres.2.2) L'⟩
        | ok _ =>
          refine ⟨⟨hkeeps.cfg, hkeeps.valid, hkeeps.win_lo, hkeeps.win_val, hkeeps.win_scale,
            hkeeps.state⟩, fun _ => ?_, fun L' hne => ?_⟩
          · show Function.update kv₂.slot_pos (kv₂.ring_slot position) position = _
            rw [hcounts.2.1, hres.2.1, KvStore.ring_slot, hkeeps.cfg]
            rfl
          · dsimp only
            rw [Function.update_of_ne hne, hcounts.2.2, hres.2.2]

variable {kv} {c : TextConfig} {position : Nat}

theorem prepare_layer_keeps (L : Nat) :
    KeepsRows kv (prepare_layer c position L kv).2 ∧
      ((prepare_layer c position L kv).1 = .ok () →
        (prepare_layer c position L kv).2.slot_pos =
          if c.lists L then Function.update kv.slot_pos (kv.ring_slot position) position
          else kv.slot_pos) := by
  unfold prepare_layer
  dsimp only
  split
  · exact ⟨.refl kv, fun h => by cases h⟩
  split
  · have hkeeps := set_decode_topk_keeps kv L position (c.n_cmp L position)
      (min (c.n_cmp L position) c.index_topk)
    exact ⟨hkeeps.1, hkeeps.2.1⟩
  · have hkeeps := set_counts_keeps kv L (c.n_cmp L position)
      (c.sliding_window + min (c.n_cmp L position) c.index_topk)
    exact ⟨hkeeps.1, fun _ => hkeeps.2.1⟩

theorem prepare_layers_keeps (Ls : List Nat) :
    KeepsRows kv (prepare_layers c position Ls kv).2 ∧
      ((prepare_layers c position Ls kv).1 = .ok () →
        (prepare_layers c position Ls kv).2.slot_pos =
          if ∃ L ∈ Ls, c.lists L then Function.update kv.slot_pos (kv.ring_slot position) position
          else kv.slot_pos) := by
  induction Ls generalizing kv with
  | nil => exact ⟨.refl kv, fun _ => by simp [prepare_layers]⟩
  | cons L Ls ih =>
    rw [prepare_layers]
    have hstep := @prepare_layer_keeps kv c position L
    generalize prepare_layer c position L kv = res at hstep
    obtain ⟨r, kv₁⟩ := res
    cases r with
    | error err => exact ⟨hstep.1, fun h => by cases h⟩
    | ok _ =>
      refine ⟨hstep.1.trans ih.1, fun h => ?_⟩
      have hslot : kv₁.ring_slot position = kv.ring_slot position := by
        rw [KvStore.ring_slot, hstep.1.cfg]
        rfl
      rw [ih.2 h, hstep.2 rfl, hslot]
      by_cases hlists : c.lists L
      · have hsome : ∃ L' ∈ L :: Ls, c.lists L' := ⟨L, List.mem_cons_self, hlists⟩
        rw [if_pos hlists, if_pos hsome, Function.update_idem, ite_self]
      · simp [hlists]

theorem prepare_ced_keeps : KeepsRows kv (prepare_ced c kv position).2 :=
  (prepare_layers_keeps _).1

theorem prepare_ced_slot_pos (hlists : ∃ L < c.num_hidden_layers, c.lists L)
    (h : (prepare_ced c kv position).1 = .ok ()) :
    (prepare_ced c kv position).2.slot_pos =
      Function.update kv.slot_pos (kv.ring_slot position) position := by
  rw [prepare_ced, (prepare_layers_keeps _).2 h, if_pos]
  obtain ⟨L, hL, hl⟩ := hlists
  exact ⟨L, List.mem_range.mpr hL, hl⟩

end Counts

/-! ### What a step leaves -/

theorem record_token_end (history : List Nat) (token : Nat) :
    record_token history history.length token = history ++ [token] := by
  simp [record_token]

/-- A step that is taken again records what is there. -/
theorem record_token_again {history : List Nat} {position token : Nat}
    (h : history[position]? = some token) : record_token history position token = history := by
  obtain ⟨hlt, heq⟩ := List.getElem?_eq_some_iff.mp h
  have hlong : position + 1 - history.length = 0 := by omega
  rw [record_token, hlong, List.replicate_zero, List.append_nil, ← heq, List.set_getElem_self]

/-- Everything of a stream but its context, its draft window and what it counts. -/
structure KeepsStream (e e' : DecodeStream) : Prop where
  cfg : e'.kv.cfg = e.kv.cfg
  valid : e'.kv.valid = e.kv.valid
  gpu_ready : e'.rest.gpu_ready = e.rest.gpu_ready
  produce_ced : e'.rest.produce_ced = e.rest.produce_ced

theorem KeepsStream.refl (e : DecodeStream) : KeepsStream e e := ⟨rfl, rfl, rfl, rfl⟩

theorem KeepsStream.trans {e₁ e₂ e₃ : DecodeStream} (h : KeepsStream e₁ e₂)
    (h' : KeepsStream e₂ e₃) : KeepsStream e₁ e₃ where
  cfg := h'.cfg.trans h.cfg
  valid := h'.valid.trans h.valid
  gpu_ready := h'.gpu_ready.trans h.gpu_ready
  produce_ced := h'.produce_ced.trans h.produce_ced

section Step

variable {c : TextConfig} {a : StepAnswer} {e : DecodeStream} {token position : Nat}

/-- The compressor does not touch the ring. -/
theorem put_compressed_keeps (kv : KvStore) (c : TextConfig) (L position : Nat) (r : LayerRow) :
    (kv.put_compressed c L position r).cfg = kv.cfg ∧
      (kv.put_compressed c L position r).valid = kv.valid ∧
      (kv.put_compressed c L position r).slot_pos = kv.slot_pos ∧
      (kv.put_compressed c L position r).win_val = kv.win_val ∧
      (kv.put_compressed c L position r).win_scale = kv.win_scale := by
  unfold put_compressed
  dsimp only
  split
  · split
    · exact ⟨rfl, rfl, rfl, rfl, rfl⟩
    · exact ⟨rfl, rfl, rfl, rfl, rfl⟩
  · split
    · exact ⟨rfl, rfl, rfl, rfl, rfl⟩
    · exact ⟨rfl, rfl, rfl, rfl, rfl⟩

/-- The prologue: whatever happens, only the store changes once the step has begun. -/
theorem step_prologue_spec :
    ∃ kv, (step_prologue c a e token position).2 = { begin_step a e token position with kv := kv } ∧
      KeepsRows e.kv kv := by
  unfold step_prologue
  have hkeeps : KeepsRows e.kv (if (begin_step a e token position).rest.produce_ced then
      prepare_ced c (begin_step a e token position).kv position
      else (.ok (), (begin_step a e token position).kv)).2 := by
    have hslabs : KeepsRows e.kv (begin_step a e token position).kv := ⟨rfl, rfl, rfl, rfl, rfl, rfl⟩
    split
    · exact hslabs.trans prepare_ced_keeps
    · exact hslabs
  dsimp only
  generalize (if (begin_step a e token position).rest.produce_ced then _ else _) = res at hkeeps
  obtain ⟨r, kv⟩ := res
  cases r with
  | error err => exact ⟨kv, rfl, hkeeps⟩
  | ok _ =>
    cases a.embed_token with
    | error err => exact ⟨kv, rfl, hkeeps⟩
    | ok _ => exact ⟨kv, rfl, hkeeps⟩

theorem run_phase_keeps (p : Phase) : KeepsStream e (run_phase c a token position p e).2 := by
  cases p with
  | prologue =>
    obtain ⟨kv, heq, hkeeps⟩ := @step_prologue_spec c a e token position
    rw [run_phase, heq]
    exact ⟨hkeeps.cfg, hkeeps.valid, rfl, rfl⟩
  | layer_begin L =>
    simp only [run_phase, layer_begin]
    cases a.layer_begin L with
    | error err => exact .refl e
    | ok _ =>
      have hput := put_compressed_keeps (e.kv.put_ring_row L position (a.row L)) c L position (a.row L)
      exact ⟨hput.1, hput.2.1, rfl, rfl⟩
  | layer_gate L =>
    simp only [run_phase, layer_gate]
    cases a.layer_gate L with
    | error err => exact .refl e
    | ok _ => exact ⟨rfl, rfl, rfl, rfl⟩
  | layer_moe L => exact .refl e

/-- The prologue begins the step, and the layers leave the rest of the session alone. -/
theorem run_phase_eq (p : Phase) : ∃ kv draft rows, (run_phase c a token position p e).2 = {
    kv := kv
    history := if p = .prologue then record_token e.history position token else e.history
    rest := { e.rest with
      draft := draft
      calls := if p = .prologue then e.rest.calls + 1 else e.rest.calls
      rows := rows } } := by
  cases p with
  | prologue =>
    obtain ⟨kv, heq, _⟩ := @step_prologue_spec c a e token position
    exact ⟨kv, _, _, heq⟩
  | layer_begin L =>
    simp only [run_phase, layer_begin]
    cases a.layer_begin L <;> exact ⟨_, _, _, rfl⟩
  | layer_gate L =>
    simp only [run_phase, layer_gate]
    cases a.layer_gate L <;> exact ⟨_, _, _, rfl⟩
  | layer_moe L => exact ⟨_, _, _, rfl⟩

theorem run_phase_history (p : Phase) : (run_phase c a token position p e).2.history =
    if p = .prologue then record_token e.history position token else e.history := by
  obtain ⟨_, _, _, heq⟩ := @run_phase_eq c a e token position p
  rw [heq]

theorem run_phase_calls (p : Phase) : (run_phase c a token position p e).2.rest.calls =
    if p = .prologue then e.rest.calls + 1 else e.rest.calls := by
  obtain ⟨_, _, _, heq⟩ := @run_phase_eq c a e token position p
  rw [heq]

/-- The rows of the other positions are left alone. -/
theorem run_phase_rows_of_ne (p : Phase) {q : Nat} (hq : q ≠ position) :
    (run_phase c a token position p e).2.rest.rows q = e.rest.rows q := by
  cases p with
  | prologue =>
    obtain ⟨kv, heq, _⟩ := @step_prologue_spec c a e token position
    rw [run_phase, heq]
    exact Function.update_of_ne hq _ _
  | layer_begin L =>
    simp only [run_phase, layer_begin]
    cases a.layer_begin L with
    | error err => rfl
    | ok _ => exact Function.update_of_ne hq _ _
  | layer_gate L =>
    simp only [run_phase, layer_gate]
    cases a.layer_gate L <;> rfl
  | layer_moe L => rfl

theorem run_phase_rows_stay {p : Phase} (hp : p ≠ .prologue) {L : Nat}
    (h : e.rest.rows position L = true) :
    (run_phase c a token position p e).2.rest.rows position L = true := by
  cases p with
  | prologue => exact absurd rfl hp
  | layer_begin L' =>
    simp only [run_phase, layer_begin]
    cases a.layer_begin L' with
    | error err => exact h
    | ok _ =>
      show Function.update e.rest.rows position
        (Function.update (e.rest.rows position) L' true) position L = true
      rw [Function.update_self]
      by_cases hL : L = L'
      · rw [hL, Function.update_self]
      · rw [Function.update_of_ne hL, h]
  | layer_gate L' =>
    simp only [run_phase, layer_gate]
    cases a.layer_gate L' with
    | error err => exact h
    | ok _ => exact h
  | layer_moe L' => exact h

theorem layer_begin_rows {L : Nat} (h : (run_phase c a token position (.layer_begin L) e).1 = .ok ()) :
    (run_phase c a token position (.layer_begin L) e).2.rest.rows position L = true := by
  simp only [run_phase, layer_begin] at h ⊢
  cases hbegin : a.layer_begin L with
  | error err =>
    rw [hbegin] at h
    cases h
  | ok _ =>
    show Function.update e.rest.rows position
      (Function.update (e.rest.rows position) L true) position L = true
    rw [Function.update_self, Function.update_self]

/-! ### A whole step -/

theorem run_phases_cons (p : Phase) (ps : List Phase) :
    run_phases c a token position (p :: ps) e =
      match run_phase c a token position p e with
      | (.error err, e) => (.error err, e)
      | (.ok (), e) => run_phases c a token position ps e := rfl

/-- What every phase keeps, the phases up to the one that fails keep. -/
theorem run_phases_induction {P : DecodeStream → Prop} {ps : List Phase}
    (hstep : ∀ p ∈ ps, ∀ e, P e → P (run_phase c a token position p e).2) (h : P e) :
    P (run_phases c a token position ps e).2 := by
  induction ps generalizing e with
  | nil => exact h
  | cons p ps ih =>
    have hp := hstep p List.mem_cons_self e h
    rw [run_phases_cons]
    generalize run_phase c a token position p e = res at hp
    obtain ⟨r, e₁⟩ := res
    cases r with
    | error err => exact hp
    | ok _ => exact ih (fun p' hp' => hstep p' (List.mem_cons_of_mem _ hp')) hp

theorem layer_phases (c : TextConfig) {p : Phase}
    (h : p ∈ (List.range c.num_hidden_layers).flatMap run_layer) : p ≠ .prologue := by
  simp only [List.mem_flatMap, run_layer, List.mem_cons] at h
  rintro rfl
  obtain ⟨L, _, h | h | h | h⟩ := h
  all_goals cases h

theorem run_phases_keeps (ps : List Phase) : KeepsStream e (run_phases c a token position ps e).2 :=
  run_phases_induction (P := fun e' => KeepsStream e e')
    (fun p _ _ hkeeps => hkeeps.trans (run_phase_keeps p)) (.refl e)

theorem run_phases_rows_of_ne (ps : List Phase) {q : Nat} (hq : q ≠ position) :
    (run_phases c a token position ps e).2.rest.rows q = e.rest.rows q :=
  run_phases_induction (P := fun e' => e'.rest.rows q = e.rest.rows q)
    (fun p _ _ hrows => (run_phase_rows_of_ne p hq).trans hrows) rfl

theorem run_phases_rows {ps : List Phase} (hps : ∀ p ∈ ps, p ≠ .prologue)
    (h : (run_phases c a token position ps e).1 = .ok ()) {L : Nat}
    (hL : .layer_begin L ∈ ps ∨ e.rest.rows position L = true) :
    (run_phases c a token position ps e).2.rest.rows position L = true := by
  induction ps generalizing e with
  | nil =>
    rcases hL with hL | hL
    · cases hL
    · exact hL
  | cons p ps ih =>
    rw [run_phases_cons] at h ⊢
    have hstay := @run_phase_rows_stay c a e token position p (hps p List.mem_cons_self) L
    have hbegin := @layer_begin_rows c a e token position L
    cases hres : run_phase c a token position p e with
    | mk r e₁ =>
      rw [hres] at h hstay
      cases r with
      | error err => cases h
      | ok _ =>
        refine ih (fun p' hp' => hps p' (List.mem_cons_of_mem _ hp')) h ?_
        rcases hL with hL | hL
        · rcases List.mem_cons.mp hL with heq | hL
          · rw [heq, hres] at hbegin
            exact .inr (hbegin rfl)
          · exact .inl hL
        · exact .inr (hstay hL)

/-- The rows of a position are complete. -/
def Whole (c : TextConfig) (e : DecodeStream) (position : Nat) : Prop :=
  ∀ L < c.num_hidden_layers, e.rest.rows position L = true

theorem decode_with_keeps : KeepsStream e (decode_with c a e token position).2 := by
  unfold decode_with
  split
  · exact .refl e
  · have hkeeps := @run_phases_keeps c a e token position (step_phases c)
    generalize run_phases c a token position (step_phases c) e = res at hkeeps
    obtain ⟨r, e₁⟩ := res
    cases r with
    | error err => exact hkeeps
    | ok _ => exact hkeeps

/-- A step that was begun is a call, and has its token in the history, whether it fails or not. -/
theorem decode_with_begun (hready : e.rest.gpu_ready = true) :
    (decode_with c a e token position).2.history = record_token e.history position token ∧
      (decode_with c a e token position).2.rest.calls = e.rest.calls + 1 := by
  have hphases : (run_phases c a token position (step_phases c) e).2.history =
      record_token e.history position token ∧
      (run_phases c a token position (step_phases c) e).2.rest.calls = e.rest.calls + 1 := by
    rw [step_phases, run_phases_cons]
    have hhistory := @run_phase_history c a e token position .prologue
    have hcalls := @run_phase_calls c a e token position .prologue
    generalize run_phase c a token position .prologue e = res at hhistory hcalls
    obtain ⟨r, e₁⟩ := res
    cases r with
    | error err => exact ⟨hhistory, hcalls⟩
    | ok _ =>
      refine run_phases_induction (P := fun e' => e'.history = record_token e.history position token ∧
        e'.rest.calls = e.rest.calls + 1) ?_ ⟨hhistory, hcalls⟩
      intro p hp e₂ hrec
      rw [run_phase_history, if_neg (layer_phases c hp), run_phase_calls,
        if_neg (layer_phases c hp)]
      exact hrec
  unfold decode_with
  rw [if_neg (not_not.mpr hready)]
  generalize run_phases c a token position (step_phases c) e = res at hphases
  obtain ⟨r, e₁⟩ := res
  cases r with
  | error err => exact hphases
  | ok _ => exact hphases

theorem decode_with_rows_of_ne {q : Nat} (hq : q ≠ position) :
    (decode_with c a e token position).2.rest.rows q = e.rest.rows q := by
  have hrows := @run_phases_rows_of_ne c a e token position (step_phases c) q hq
  unfold decode_with
  split
  · rfl
  · generalize run_phases c a token position (step_phases c) e = res at hrows
    obtain ⟨r, e₁⟩ := res
    cases r with
    | error err => exact hrows
    | ok _ => exact hrows

/-- A step that returns was begun, and has left the rows of every layer. -/
theorem decode_with_ok {t : Nat} (h : (decode_with c a e token position).1 = .ok t) :
    e.rest.gpu_ready = true ∧ Whole c (decode_with c a e token position).2 position := by
  unfold decode_with at h ⊢
  split at h
  · cases h
  · next hready =>
    rw [if_neg hready]
    refine ⟨not_not.mp hready, fun L hL => ?_⟩
    have hbegun : Phase.layer_begin L ∈ (List.range c.num_hidden_layers).flatMap run_layer :=
      List.mem_flatMap.mpr ⟨L, List.mem_range.mpr hL, List.mem_cons_self⟩
    rw [step_phases, run_phases_cons] at h ⊢
    generalize run_phase c a token position .prologue e = res at h ⊢
    obtain ⟨r, e₁⟩ := res
    cases r with
    | error err => cases h
    | ok _ =>
      have hrows := @run_phases_rows c a e₁ token position _ (fun p hp => layer_phases c hp)
      dsimp only at h ⊢
      generalize run_phases c a token position _ e₁ = res at h hrows ⊢
      obtain ⟨r, e₂⟩ := res
      cases r with
      | error err => cases h
      | ok _ => exact hrows rfl (.inl hbegun)

end Step

/-! ### Feeding tokens -/

section Feed

variable {c : TextConfig} {steps : Nat → StepAnswer} {e : DecodeStream}

theorem feed_loop_cons (base i last token : Nat) (tokens : List Nat) :
    feed_loop c steps base i last (token :: tokens) e =
      match decode_step c steps e token (base + i) with
      | (.error err, e) => (.error err, e)
      | (.ok r, e) => feed_loop c steps base (i + 1) r tokens e := rfl

theorem feed_loop_keeps (base i last : Nat) (tokens : List Nat) :
    KeepsStream e (feed_loop c steps base i last tokens e).2 ∧
      ∀ q < base + i, (feed_loop c steps base i last tokens e).2.rest.rows q = e.rest.rows q := by
  induction tokens generalizing e i last with
  | nil => exact ⟨.refl e, fun q _ => rfl⟩
  | cons token tokens ih =>
    rw [feed_loop_cons, decode_step]
    have hkeeps := @decode_with_keeps c (steps e.rest.calls) e token (base + i)
    have hrows : ∀ q, q ≠ base + i → _ := fun q hq =>
      @decode_with_rows_of_ne c (steps e.rest.calls) e token (base + i) q hq
    generalize decode_with c (steps e.rest.calls) e token (base + i) = res at hkeeps hrows
    obtain ⟨r, e₁⟩ := res
    cases r with
    | error err => exact ⟨hkeeps, fun q hq => hrows q (by omega)⟩
    | ok t =>
      obtain ⟨hkeeps', hrows'⟩ := @ih e₁ (i + 1) t
      exact ⟨hkeeps.trans hkeeps', fun q hq => (hrows' q (by omega)).trans (hrows q (by omega))⟩

/-- The loop went through: the tokens are at the end of the history, with all their rows. -/
theorem feed_loop_ok {base i last r : Nat} {tokens : List Nat} (hbase : e.history.length = base + i)
    (h : (feed_loop c steps base i last tokens e).1 = .ok r) :
    (feed_loop c steps base i last tokens e).2.history = e.history ++ tokens ∧
      ∀ q, base + i ≤ q → q < base + i + tokens.length →
        Whole c (feed_loop c steps base i last tokens e).2 q := by
  induction tokens generalizing e i last with
  | nil => exact ⟨(List.append_nil _).symm, fun q hle hlt => absurd hlt (by simpa using hle)⟩
  | cons token tokens ih =>
    rw [feed_loop_cons, decode_step] at h ⊢
    have hok := @decode_with_ok c (steps e.rest.calls) e token (base + i)
    have hbegun := @decode_with_begun c (steps e.rest.calls) e token (base + i)
    generalize decode_with c (steps e.rest.calls) e token (base + i) = res at h hok hbegun ⊢
    obtain ⟨res, e₁⟩ := res
    cases res with
    | error err => cases h
    | ok t =>
      obtain ⟨hready, hwhole⟩ := hok rfl
      have happend : e₁.history = e.history ++ [token] := by
        rw [(hbegun hready).1, ← hbase, record_token_end]
      have hlen : e₁.history.length = base + (i + 1) := by
        rw [happend, List.length_append, hbase]
        rfl
      obtain ⟨hend, hrest⟩ := ih hlen h
      refine ⟨by rw [hend, happend, List.append_assoc]; rfl, fun q hle hlt => ?_⟩
      by_cases hq : q = base + i
      · -- the later steps are at later positions
        have hrows := (@feed_loop_keeps c steps e₁ base (i + 1) t tokens).2 q (by omega)
        intro L hL
        rw [hrows, hq]
        exact hwhole L hL
      · rw [List.length_cons] at hlt
        exact hrest q (by omega) (by omega)

theorem feed_keeps (tokens : List Nat) :
    KeepsStream e (feed c steps e tokens).2 ∧
      ∀ q < e.history.length, (feed c steps e tokens).2.rest.rows q = e.rest.rows q := by
  unfold feed
  dsimp only
  split
  · exact ⟨.refl e, fun _ _ => rfl⟩
  split
  · exact ⟨.refl e, fun _ _ => rfl⟩
  split
  · exact ⟨.refl e, fun _ _ => rfl⟩
  split
  · exact ⟨.refl e, fun _ _ => rfl⟩
  · exact feed_loop_keeps _ 0 0 tokens

/-- What was fed is the end of the history, with all its rows, and it fits the context. -/
theorem feed_ok {tokens : List Nat} {r : Nat} (h : (feed c steps e tokens).1 = .ok r) :
    (feed c steps e tokens).2.history = e.history ++ tokens ∧
      e.history.length + tokens.length ≤ max_context e ∧
      ∀ q, e.history.length ≤ q → q < e.history.length + tokens.length →
        Whole c (feed c steps e tokens).2 q := by
  unfold feed at h ⊢
  dsimp only at h ⊢
  split at h
  · cases h
  next hready =>
  split at h
  · cases h
  next hced =>
  split at h
  · cases h
  next hne =>
  split at h
  · cases h
  next hroom =>
  rw [if_neg hready, if_neg hced, if_neg hne, if_neg hroom]
  obtain ⟨hhistory, hwhole⟩ := feed_loop_ok (Nat.add_zero e.history.length).symm h
  exact ⟨hhistory, Nat.le_of_not_lt hroom, hwhole⟩

end Feed

end CachedMoe.Runtime
