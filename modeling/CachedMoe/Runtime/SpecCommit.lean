import CachedMoe.Framework.Journal
import CachedMoe.Runtime.SpecStep

/-! # What a speculative step commits

    The rows of a verification batch are written layer by layer, and the rows that are not emitted
    are taken back; decode steps write the same rows position by position. Each part of the context
    is a table (the rows of the ring, the slots of the carry, the slots of the draft window), a
    layer's writes for a position are updates of it, and both runs are lists of updates. -/

namespace CachedMoe.Runtime

open CachedMoe KvStore Journal

/-! ### The model that is served -/

/-- What the engine has made sure of once a session has begun: the store is the model's, a batch
    fits into the window, a group fits into the carry, and some layer lists its window. -/
structure Served (c : TextConfig) (kv : KvStore) : Prop where
  cfg : ∃ max_context initial_context hwindow,
    kv.cfg = KvStoreConfig.for_model c max_context initial_context hwindow
  columns : kMgtMaxM ≤ c.sliding_window
  ratios : ∀ L, c.compress_ratio L ≤ kv.cfg.max_ratio
  lists : ∃ L < c.num_hidden_layers, c.lists L

theorem Served.congr {c : TextConfig} {kv kv' : KvStore} (h : Served c kv)
    (hcfg : kv'.cfg = kv.cfg) : Served c kv' := by
  obtain ⟨hmodel, hcolumns, hratios, hlists⟩ := h
  rw [← hcfg] at hmodel hratios
  exact ⟨hmodel, hcolumns, hratios, hlists⟩

section Model

variable {c : TextConfig} {kv : KvStore}

theorem planes_of_getElem? (c : TextConfig) (Ls : List Nat) (cur : Option Nat) {i L : Nat}
    (hi : Ls[i]? = some L) (hrun : c.run_compressor L = true) :
    (planes_of c Ls cur)[i]? = some (some L) := by
  have hsource : c.is_kv_source L ∧ c.compress_ratio L ≠ 0 := by
    simpa [TextConfig.run_compressor, and_comm] using hrun
  induction Ls generalizing cur i with
  | nil => cases hi
  | cons L' Ls ih =>
    cases i with
    | zero =>
      obtain rfl : L' = L := by simpa using hi
      simp [planes_of, hsource]
    | succ i =>
      rw [planes_of]
      exact ih _ (by simpa using hi)

/-- A layer with a compressor owns the planes it writes. -/
theorem Served.owner (h : Served c kv) {L : Nat} (hL : L < c.num_hidden_layers)
    (hrun : c.run_compressor L = true) :
    ∃ oi < kv.cfg.owners.length, kv.owner_index L = some oi ∧ kv.cfg.owners.getD oi 0 = L := by
  obtain ⟨max_context, initial_context, hwindow, hcfg⟩ := h.cfg
  have hplane : kv.cfg.plane_of[L]? = some (some L) := by
    rw [hcfg]
    exact planes_of_getElem? c _ none (by simp [hL]) hrun
  have hlayers : L < kv.cfg.layers := by rw [hcfg]; exact hL
  have howner : kv.cfg.owner L = some L := by
    rw [KvStoreConfig.owner, if_neg (by omega), KvStoreConfig.per_source]
    have hne : kv.cfg.plane_of ≠ [] := by
      intro hnil
      rw [hnil] at hplane
      cases hplane
    simp [hne, List.getD, hplane]
  have hmem : L ∈ kv.cfg.owners := by
    simp [KvStoreConfig.owners, hlayers, howner]
  obtain ⟨oi, hoi, hget⟩ := List.getElem_of_mem hmem
  have hgetD : kv.cfg.owners.getD oi 0 = L := by simp [hoi, hget]
  refine ⟨oi, hoi, ?_, hgetD⟩
  rw [← hgetD]
  exact owner_index_owner kv hoi

end Model

/-! ### A layer's writes -/

/-- What a layer leaves of a token at `position`. -/
def put_layer (c : TextConfig) (e : DecodeStream) (L position : Nat) (r : LayerRow) :
    DecodeStream where
  kv := (e.kv.put_ring_row L position r).put_compressed c L position r
  history := e.history
  rest := { e.rest with draft := capture_draft_hidden c L position r.hidden e.rest.draft }

/-- A part of the context that the writes of layers update, and nothing else of a step does. -/
structure View {κ β : Type} [DecidableEq κ] (c : TextConfig) (cfg : KvStoreConfig)
    (view : DecodeStream → κ → β) (updates : Nat → Nat → LayerRow → List (Update κ β)) : Prop where
  keeps : ∀ e e', KeepsRows e.kv e'.kv → e'.rest.draft = e.rest.draft → view e' = view e
  put : ∀ e L position r, e.kv.cfg = cfg → L < c.num_hidden_layers →
    view (put_layer c e L position r) = apply (view e) (updates L position r)

section Runs

variable {c : TextConfig} {cfg : KvStoreConfig} {κ β : Type} [DecidableEq κ]
  {view : DecodeStream → κ → β} {updates : Nat → Nat → LayerRow → List (Update κ β)}

theorem put_layer_cfg (e : DecodeStream) (L position : Nat) (r : LayerRow) :
    (put_layer c e L position r).kv.cfg = e.kv.cfg ∧
      (put_layer c e L position r).kv.slot_pos = e.kv.slot_pos := by
  have hput := put_compressed_keeps (e.kv.put_ring_row L position r) c L position r
  exact ⟨hput.1, hput.2.2.1⟩

/-! ### Decode steps -/

section Steps

variable {a : StepAnswer} {token position : Nat} {e : DecodeStream}

theorem run_phases_append_ok {ps qs : List Phase} {e₁ : DecodeStream}
    (h : run_phases c a token position ps e = (.ok (), e₁)) :
    run_phases c a token position (ps ++ qs) e = run_phases c a token position qs e₁ := by
  induction ps generalizing e with
  | nil =>
    cases h
    rfl
  | cons p ps ih =>
    rw [List.cons_append, run_phases]
    rw [run_phases] at h
    cases hp : run_phase c a token position p e with
    | mk r e₂ =>
      rw [hp] at h
      cases r with
      | error err => cases h
      | ok _ => exact ih h

theorem run_phases_append_error {ps qs : List Phase} {e₁ : DecodeStream} {err : Status}
    (h : run_phases c a token position ps e = (.error err, e₁)) :
    run_phases c a token position (ps ++ qs) e = (.error err, e₁) := by
  induction ps generalizing e with
  | nil => cases h
  | cons p ps ih =>
    rw [List.cons_append, run_phases]
    rw [run_phases] at h
    cases hp : run_phase c a token position p e with
    | mk r e₂ =>
      rw [hp] at h
      cases r with
      | error err' => exact h
      | ok _ => exact ih h

/-- A layer that went through wrote what its answer says. -/
theorem run_layer_ok {L : Nat} {e₁ : DecodeStream}
    (h : run_phases c a token position (run_layer L) e = (.ok (), e₁)) :
    ∃ rows, e₁ = { put_layer c e L position (a.row L) with
      rest := { (put_layer c e L position (a.row L)).rest with rows := rows } } := by
  simp only [run_layer, run_phases, run_phase, layer_begin, layer_gate] at h
  cases hbegin : a.layer_begin L with
  | error err =>
    rw [hbegin] at h
    cases h
  | ok _ =>
    rw [hbegin] at h
    cases hgate : a.layer_gate L with
    | error err =>
      rw [hgate] at h
      cases h
    | ok _ =>
      rw [hgate] at h
      cases hmoe : a.layer_moe L with
      | error err =>
        rw [hmoe] at h
        cases h
      | ok _ =>
        rw [hmoe] at h
        cases h
        exact ⟨_, rfl⟩

theorem run_layers_view (hview : View c cfg view updates) {Ls : List Nat}
    (hLs : ∀ L ∈ Ls, L < c.num_hidden_layers) (he : e.kv.cfg = cfg) {e₁ : DecodeStream}
    (h : run_phases c a token position (Ls.flatMap run_layer) e = (.ok (), e₁)) :
    e₁.kv.slot_pos = e.kv.slot_pos ∧
      view e₁ = apply (view e) (Ls.flatMap fun L => updates L position (a.row L)) := by
  induction Ls generalizing e with
  | nil =>
    cases h
    exact ⟨rfl, rfl⟩
  | cons L Ls ih =>
    rw [List.flatMap_cons] at h
    cases hlayer : run_phases c a token position (run_layer L) e with
    | mk r e₂ =>
      cases r with
      | error err =>
        rw [run_phases_append_error hlayer] at h
        cases h
      | ok _ =>
        rw [run_phases_append_ok hlayer] at h
        obtain ⟨rows, heq⟩ := run_layer_ok hlayer
        have hput := put_layer_cfg (c := c) e L position (a.row L)
        have hone : view e₂ = apply (view e) (updates L position (a.row L)) := by
          rw [← hview.put e L position (a.row L) he (hLs L List.mem_cons_self), heq]
          exact hview.keeps _ _ (.refl _) rfl
        have hcfg : e₂.kv.cfg = cfg := by
          rw [heq]
          exact hput.1.trans he
        obtain ⟨hslot, hrest⟩ := ih (fun L' hL' => hLs L' (List.mem_cons_of_mem _ hL')) hcfg h
        refine ⟨?_, by rw [List.flatMap_cons, apply_append, ← hone, hrest]⟩
        rw [hslot, heq]
        exact hput.2

/-- A step that returns: its position is marked, and every layer's writes are there. -/
theorem decode_with_view (hview : View c cfg view updates) (he : e.kv.cfg = cfg)
    (hlists : ∃ L < c.num_hidden_layers, c.lists L) (hced : e.rest.produce_ced = true) {t : Nat}
    (h : (decode_with c a e token position).1 = .ok t) :
    (decode_with c a e token position).2.kv.slot_pos =
        Function.update e.kv.slot_pos (e.kv.ring_slot position) position ∧
      view (decode_with c a e token position).2 = apply (view e)
        ((List.range c.num_hidden_layers).flatMap fun L => updates L position (a.row L)) := by
  unfold decode_with at h ⊢
  split at h
  · cases h
  next hready =>
  rw [if_neg hready]
  rw [step_phases, run_phases] at h ⊢
  cases hprologue : run_phase c a token position .prologue e with
  | mk r e₁ =>
    rw [hprologue] at h
    cases r with
    | error err => cases h
    | ok _ =>
      dsimp only at h ⊢
      -- the prologue marks the position and writes no row
      have hfirst : e₁.kv.slot_pos =
          Function.update e.kv.slot_pos (e.kv.ring_slot position) position ∧
          KeepsRows e.kv e₁.kv ∧ e₁.rest.draft = e.rest.draft := by
        obtain ⟨kv, heq, hkeeps⟩ := @step_prologue_spec c a e token position
        have hslots := @prepare_ced_slot_pos (begin_step a e token position).kv c position hlists
        have hced' : (begin_step a e token position).rest.produce_ced = true := hced
        unfold run_phase step_prologue at hprologue
        dsimp only at hprologue
        rw [if_pos hced'] at hprologue
        unfold step_prologue at heq
        dsimp only at heq
        rw [if_pos hced'] at heq
        generalize prepare_ced c (begin_step a e token position).kv position = res
          at hslots hprologue heq
        obtain ⟨r, kv'⟩ := res
        cases r with
        | error err => cases hprologue
        | ok _ =>
          have hslots' := hslots rfl
          dsimp only at hprologue hslots' heq
          cases hembed : a.embed_token with
          | error err =>
            rw [hembed] at hprologue
            cases hprologue
          | ok _ =>
            rw [hembed] at hprologue heq
            obtain ⟨_, rfl⟩ := Prod.mk.inj hprologue
            have hkv : kv' = kv := congrArg Engine.kv heq
            subst hkv
            exact ⟨hslots', hkeeps, rfl⟩
      obtain ⟨hslot, hkeeps, hdraft⟩ := hfirst
      have hcfg : e₁.kv.cfg = cfg := hkeeps.cfg.trans he
      cases hlayers : run_phases c a token position
          ((List.range c.num_hidden_layers).flatMap run_layer) e₁ with
      | mk r e₂ =>
        rw [hlayers] at h
        cases r with
        | error err => cases h
        | ok _ =>
          have hrun := run_layers_view hview (fun L hL => List.mem_range.mp hL) hcfg hlayers
          rw [hview.keeps e e₁ hkeeps hdraft] at hrun
          exact ⟨hrun.1.trans hslot, hrun.2⟩

end Steps

/-- The slots of `n` positions from `p` on hold them. -/
def mark_slots (window p n : Nat) (slots : Nat → Int) : Nat → Int :=
  (List.range n).foldl (fun slots j => Function.update slots ((p + j) % window) (p + j : Nat)) slots

theorem mark_slots_succ (window p n : Nat) (slots : Nat → Int) :
    mark_slots window p (n + 1) slots =
      mark_slots window (p + 1) n (Function.update slots (p % window) (p : Nat)) := by
  rw [mark_slots, List.range_succ_eq_map, List.foldl_cons, List.foldl_map, mark_slots]
  congr 1
  funext slots j
  have hshift : p + j.succ = p + 1 + j := by omega
  rw [hshift]

/-- Tokens that were fed: each position is marked and has the writes of its rows. -/
theorem feed_loop_view (hview : View c cfg view updates) {steps : Nat → StepAnswer}
    (hlists : ∃ L < c.num_hidden_layers, c.lists L) {row : Nat → Nat → LayerRow} {base i last t : Nat}
    {tokens : List Nat} {e : DecodeStream} (he : e.kv.cfg = cfg)
    (hced : e.rest.produce_ced = true)
    (hrow : ∀ j < tokens.length, ∀ L < c.num_hidden_layers,
      (steps (e.rest.calls + j)).row L = row L (i + j))
    (h : (feed_loop c steps base i last tokens e).1 = .ok t) :
    (feed_loop c steps base i last tokens e).2.kv.slot_pos =
        mark_slots cfg.window (base + i) tokens.length e.kv.slot_pos ∧
      view (feed_loop c steps base i last tokens e).2 = apply (view e)
        ((List.range' i tokens.length).flatMap fun j =>
          (List.range c.num_hidden_layers).flatMap fun L => updates L (base + j) (row L j)) := by
  induction tokens generalizing e i last with
  | nil => exact ⟨rfl, rfl⟩
  | cons token tokens ih =>
    rw [feed_loop_cons, decode_step] at h ⊢
    have hok := @decode_with_view c cfg κ β _ view updates (steps e.rest.calls) token (base + i) e
      hview he hlists hced
    have hkeeps := @decode_with_keeps c (steps e.rest.calls) e token (base + i)
    have hbegun := @decode_with_begun c (steps e.rest.calls) e token (base + i)
    have hready := @decode_with_ok c (steps e.rest.calls) e token (base + i)
    generalize decode_with c (steps e.rest.calls) e token (base + i) = res
      at h hok hkeeps hbegun hready ⊢
    obtain ⟨r, e₁⟩ := res
    cases r with
    | error err => cases h
    | ok t' =>
      obtain ⟨hslot, hone⟩ := hok rfl
      have hcalls : e₁.rest.calls = e.rest.calls + 1 := (hbegun (hready rfl).1).2
      -- the rows behind are those of the tokens behind
      have hrow' : ∀ j < tokens.length, ∀ L < c.num_hidden_layers,
          (steps (e₁.rest.calls + j)).row L = row L (i + 1 + j) := by
        intro j hj L hL
        have hnext := hrow (j + 1) (by simpa using hj) L hL
        have hcall : e.rest.calls + (j + 1) = e₁.rest.calls + j := by omega
        have hindex : i + (j + 1) = i + 1 + j := by omega
        rwa [hcall, hindex] at hnext
      obtain ⟨hslot', hrest⟩ := ih (hkeeps.cfg.trans he) (hkeeps.produce_ced.trans hced) hrow' h
      constructor
      · rw [hslot', hslot, List.length_cons, mark_slots_succ, KvStore.ring_slot, he]
        rfl
      · rw [hrest, hone, ← apply_append, List.length_cons, List.range'_succ, List.flatMap_cons]
        have hfirst : ((List.range c.num_hidden_layers).flatMap fun L =>
            updates L (base + i) ((steps e.rest.calls).row L)) =
            (List.range c.num_hidden_layers).flatMap fun L => updates L (base + i) (row L i) :=
          List.flatMap_congr fun L hL =>
            congrArg (updates L (base + i)) (hrow 0 (by simp) L (List.mem_range.mp hL))
        rw [hfirst]

/-- The tokens go in behind the history. -/
theorem feed_view (hview : View c cfg view updates) {steps : Nat → StepAnswer}
    (hlists : ∃ L < c.num_hidden_layers, c.lists L) {row : Nat → Nat → LayerRow} {t : Nat}
    {tokens : List Nat} {e : DecodeStream} (he : e.kv.cfg = cfg)
    (hrow : ∀ j < tokens.length, ∀ L < c.num_hidden_layers,
      (steps (e.rest.calls + j)).row L = row L j)
    (h : (feed c steps e tokens).1 = .ok t) :
    (feed c steps e tokens).2.kv.slot_pos =
        mark_slots cfg.window e.history.length tokens.length e.kv.slot_pos ∧
      view (feed c steps e tokens).2 = apply (view e)
        ((List.range tokens.length).flatMap fun j => (List.range c.num_hidden_layers).flatMap
          fun L => updates L (e.history.length + j) (row L j)) := by
  unfold feed at h ⊢
  dsimp only at h ⊢
  split at h
  · cases h
  next hready =>
  split at h
  · cases h
  next hced =>
  split at h
  · cases h
  next hne =>
  split at h
  · cases h
  next hroom =>
  rw [if_neg hready, if_neg hced, if_neg hne, if_neg hroom]
  have hrow' : ∀ j < tokens.length, ∀ L < c.num_hidden_layers,
      (steps (e.rest.calls + j)).row L = row L (0 + j) := by
    intro j hj L hL
    rw [Nat.zero_add]
    exact hrow j hj L hL
  have hloop := feed_loop_view hview hlists he (not_not.mp hced) hrow' h
  rwa [Nat.add_zero, ← List.range_eq_range'] at hloop

/-! ### The batch -/

section Batch

variable {b : BatchAnswer} {p0 M : Nat}

/-- The rows of a batch at one layer, one after the other. -/
def put_rows (c : TextConfig) (b : BatchAnswer) (L p0 M : Nat) (e : DecodeStream) : DecodeStream :=
  (List.range M).foldl (fun e j => put_layer c e L (p0 + j) (b.row L j)) e

theorem put_batch_layer_eq (e : DecodeStream) (L : Nat) :
    (put_batch_layer c b e L p0 M).kv = (put_rows c b L p0 M e).kv ∧
      (put_batch_layer c b e L p0 M).rest.draft = (put_rows c b L p0 M e).rest.draft := by
  constructor
  · exact (List.foldl_hom Engine.kv fun e j => rfl)
  · exact (List.foldl_hom (fun e : DecodeStream => e.rest.draft) fun e j => rfl)

theorem put_batch_layer_view (p0 M : Nat) (hview : View c cfg view updates) {e : DecodeStream}
    (he : e.kv.cfg = cfg) {L : Nat} (hL : L < c.num_hidden_layers) :
    (put_batch_layer c b e L p0 M).kv.cfg = cfg ∧
      (put_batch_layer c b e L p0 M).kv.slot_pos = e.kv.slot_pos ∧
      view (put_batch_layer c b e L p0 M) = apply (view e)
        ((List.range M).flatMap fun j => updates L (p0 + j) (b.row L j)) := by
  obtain ⟨hkv, hdraft⟩ := @put_batch_layer_eq c b p0 M e L
  have hrows : ((put_rows c b L p0 M e).kv.cfg = cfg ∧
      (put_rows c b L p0 M e).kv.slot_pos = e.kv.slot_pos) ∧
      view (put_rows c b L p0 M e) = apply (view e)
        ((List.range M).flatMap fun j => updates L (p0 + j) (b.row L j)) := by
    refine view_foldl (V := view)
      (P := fun e' : DecodeStream => e'.kv.cfg = cfg ∧ e'.kv.slot_pos = e.kv.slot_pos) ?_ ⟨he, rfl⟩
    intro j _ e' he'
    have hput := put_layer_cfg (c := c) e' L (p0 + j) (b.row L j)
    exact ⟨⟨hput.1.trans he'.1, hput.2.trans he'.2⟩, hview.put e' L (p0 + j) (b.row L j) he'.1 hL⟩
  refine ⟨by rw [hkv]; exact hrows.1.1, by rw [hkv]; exact hrows.1.2, ?_⟩
  rw [← hrows.2]
  refine hview.keeps _ _ ?_ hdraft
  rw [hkv]
  exact .refl _

theorem put_batch_layers_view (p0 M : Nat) (hview : View c cfg view updates) {Ls : List Nat}
    (hLs : ∀ L ∈ Ls, L < c.num_hidden_layers) {e : DecodeStream} (he : e.kv.cfg = cfg) :
    ((Ls.foldl (fun e L => put_batch_layer c b e L p0 M) e).kv.cfg = cfg ∧
      (Ls.foldl (fun e L => put_batch_layer c b e L p0 M) e).kv.slot_pos = e.kv.slot_pos) ∧
      view (Ls.foldl (fun e L => put_batch_layer c b e L p0 M) e) = apply (view e)
        (Ls.flatMap fun L => (List.range M).flatMap fun j => updates L (p0 + j) (b.row L j)) := by
  refine view_foldl (V := view)
    (P := fun e' : DecodeStream => e'.kv.cfg = cfg ∧ e'.kv.slot_pos = e.kv.slot_pos) ?_ ⟨he, rfl⟩
  intro L hL e₁ he₁
  have hput := put_batch_layer_view (b := b) p0 M hview he₁.1 (hLs L hL)
  exact ⟨⟨hput.1, hput.2.1.trans he₁.2⟩, hput.2.2⟩

/-- A batch that went through: its positions are marked, and every row has the writes of every
    layer. -/
theorem forward_batch_view (hview : View c cfg view updates) {e e' : DecodeStream}
    (he : e.kv.cfg = cfg) (hlists : ∃ L < c.num_hidden_layers, c.lists L) {tokens : List Nat}
    {carries : List BatchCarry} (h : forward_batch c b e p0 tokens = (.ok carries, e')) :
    e'.kv.cfg = cfg ∧ e'.kv.slot_pos = mark_slots cfg.window p0 tokens.length
        (Function.update e.kv.slot_pos ((p0 + tokens.length - 1) % cfg.window)
          (p0 + tokens.length - 1 : Nat)) ∧
      view e' = apply (view e) ((List.range c.num_hidden_layers).flatMap fun L =>
        (List.range tokens.length).flatMap fun j => updates L (p0 + j) (b.row L j)) := by
  have hok : (forward_batch c b e p0 tokens).1 = .ok carries := by rw [h]
  obtain ⟨_, _, kv, hcounts, _, hstate⟩ := forward_batch_ok hok
  rw [h] at hstate
  dsimp only at hstate
  have hkeeps : KeepsRows e.kv kv := by
    have hprep := @prepare_ced_keeps (begin_batch b e p0 tokens).kv c (p0 + tokens.length - 1)
    rw [hcounts] at hprep
    exact ⟨hprep.cfg, hprep.valid, hprep.win_lo, hprep.win_val, hprep.win_scale, hprep.state⟩
  have hslot : kv.slot_pos = Function.update e.kv.slot_pos ((p0 + tokens.length - 1) % cfg.window)
      (p0 + tokens.length - 1 : Nat) := by
    have hprep := @prepare_ced_slot_pos (begin_batch b e p0 tokens).kv c (p0 + tokens.length - 1)
      hlists
    rw [hcounts] at hprep
    have hprep' : kv.slot_pos = _ := hprep rfl
    rw [hprep', KvStore.ring_slot]
    have hcfg : (begin_batch b e p0 tokens).kv.cfg = cfg := he
    rw [hcfg]
    rfl
  have hcfg : kv.cfg = cfg := hkeeps.cfg.trans he
  obtain ⟨⟨hcfg', hslot'⟩, hfinal⟩ := put_batch_layers_view (b := b) p0
    tokens.length hview (fun L hL => List.mem_range.mp hL)
    (show ({ begin_batch b e p0 tokens with kv := kv } : DecodeStream).kv.cfg = cfg from hcfg)
  have hfirst : view { begin_batch b e p0 tokens with kv := kv } = view e :=
    hview.keeps _ _ hkeeps rfl
  rw [hfirst] at hfinal
  generalize (List.range c.num_hidden_layers).foldl _ _ = e₁ at hstate hcfg' hslot' hfinal
  subst hstate
  refine ⟨hcfg', ?_, ?_⟩
  · rw [KvStore.mark_ring_written, mark_slots, hcfg', hslot', hslot]
  · rw [← hfinal]
    exact hview.keeps _ _ ⟨rfl, rfl, rfl, rfl, rfl, rfl⟩ rfl

end Batch

end Runs

/-! ### The parts of the context -/

/-- A row of the ring's values, and of its scales. -/
def ring_vals (e : DecodeStream) (r : Nat) : List UInt8 :=
  Region.read e.kv.win_val (r * e.kv.cfg.latent_dim) e.kv.cfg.latent_dim

def ring_scales (e : DecodeStream) (r : Nat) : List UInt8 :=
  Region.read e.kv.win_scale (r * e.kv.cfg.window_scales) e.kv.cfg.window_scales

/-- A slot of the carried state: those of `kv_state` come first, then those of `score_state`. -/
def carry_slots (e : DecodeStream) (r : Nat) : List UInt32 :=
  Region.read e.kv.state (r * e.kv.cfg.latent_dim) e.kv.cfg.latent_dim

section Parts

variable {c : TextConfig} {cfg : KvStoreConfig}

theorem ring_vals_view : View c cfg ring_vals fun L position r =>
    [.put (cfg.ring_row L (position % cfg.window)) (Region.read r.win_val 0 cfg.latent_dim)] where
  keeps := by
    intro e e' hkeeps _
    funext r
    rw [ring_vals, ring_vals, hkeeps.cfg, hkeeps.win_val]
  put := by
    intro e L position r he _
    have hput := put_compressed_keeps (e.kv.put_ring_row L position r) c L position r
    have hval : (put_layer c e L position r).kv.win_val = Region.write e.kv.win_val
        (cfg.ring_row L (position % cfg.window) * cfg.latent_dim)
        (Region.read r.win_val 0 cfg.latent_dim) := by
      rw [put_layer]
      dsimp only
      rw [hput.2.2.2.1, put_ring_row, he, KvStore.ring_slot, he]
    have hrows := Region.read_write_row e.kv.win_val
      (r := cfg.ring_row L (position % cfg.window)) (Region.length_read r.win_val 0 cfg.latent_dim)
    rw [← hval] at hrows
    unfold ring_vals
    rw [(put_layer_cfg e L position r).1, he]
    exact hrows

theorem ring_scales_view : View c cfg ring_scales fun L position r =>
    [.put (cfg.ring_row L (position % cfg.window))
      (Region.read r.win_scale 0 cfg.window_scales)] where
  keeps := by
    intro e e' hkeeps _
    funext r
    rw [ring_scales, ring_scales, hkeeps.cfg, hkeeps.win_scale]
  put := by
    intro e L position r he _
    have hput := put_compressed_keeps (e.kv.put_ring_row L position r) c L position r
    have hval : (put_layer c e L position r).kv.win_scale = Region.write e.kv.win_scale
        (cfg.ring_row L (position % cfg.window) * cfg.window_scales)
        (Region.read r.win_scale 0 cfg.window_scales) := by
      rw [put_layer]
      dsimp only
      rw [hput.2.2.2.2, put_ring_row, he, KvStore.ring_slot, he]
    have hrows := Region.read_write_row e.kv.win_scale
      (r := cfg.ring_row L (position % cfg.window))
      (Region.length_read r.win_scale 0 cfg.window_scales)
    rw [← hval] at hrows
    unfold ring_scales
    rw [(put_layer_cfg e L position r).1, he]
    exact hrows

/-- A layer's part of a slot of the draft window. -/
def capture_updates (c : TextConfig) (L position : Nat) (r : LayerRow) :
    List (Update Nat DraftSlot) :=
  match c.dspark_target_layer_ids.idxOf? L with
  | none => []
  | some part => [{
      key := position % kSlidingWindow
      change := fun s => {
        position := position
        mask := (if s.position = position then s.mask else 0) ||| UInt8.ofNat (2 ^ part)
        hidden := Region.write s.hidden (part * c.hidden_size)
          (Region.read r.hidden 0 c.hidden_size) } }]

theorem draft_view : View c cfg (fun e => e.rest.draft) (capture_updates c) where
  keeps := fun _ _ _ hdraft => hdraft
  put := by
    intro e L position r _ _
    show capture_draft_hidden c L position r.hidden e.rest.draft = _
    unfold capture_draft_hidden capture_updates
    cases c.dspark_target_layer_ids.idxOf? L with
    | none => rfl
    | some part => rfl

/-- The owner index of the planes that layer `L` reads. -/
def owner_at (cfg : KvStoreConfig) (L : Nat) : Nat :=
  ((cfg.owner L).bind fun o => cfg.owners.idxOf? o).getD 0

/-- A layer's member of the open group. -/
def carry_updates (c : TextConfig) (cfg : KvStoreConfig) (L position : Nat) (r : LayerRow) :
    List (Update Nat (List UInt32)) :=
  if c.carries L then
    let slot := owner_at cfg L * cfg.max_ratio + position % c.compress_ratio L
    [.put slot (Region.read r.carry_kv 0 c.head_dim),
      .put (cfg.owners.length * cfg.max_ratio + slot) (Region.read r.carry_score 0 c.head_dim)]
  else []

theorem carry_slots_put {e : DecodeStream} (he : e.kv.cfg = cfg) (hdim : cfg.latent_dim = c.head_dim)
    (L slot : Nat) {carry score : List UInt32} (hcarry : carry.length = c.head_dim)
    (hscore : score.length = c.head_dim) :
    carry_slots { e with kv := e.kv.put_carry_slot L slot c.head_dim carry score } =
      apply (carry_slots e)
        [.put (owner_at cfg L * cfg.max_ratio + slot) carry,
          .put (cfg.owners.length * cfg.max_ratio + (owner_at cfg L * cfg.max_ratio + slot)) score] := by
  have howner : e.kv.state_owner L = owner_at cfg L := by
    rw [KvStore.state_owner, KvStore.owner_index, he, owner_at]
  have hat : owner_at cfg L * cfg.state_stride + slot * c.head_dim =
      (owner_at cfg L * cfg.max_ratio + slot) * cfg.latent_dim := by
    rw [KvStoreConfig.state_stride, hdim, Nat.add_mul, Nat.mul_assoc]
  have hat' : cfg.score_base + (owner_at cfg L * cfg.state_stride + slot * c.head_dim) =
      (cfg.owners.length * cfg.max_ratio + (owner_at cfg L * cfg.max_ratio + slot)) *
        cfg.latent_dim := by
    rw [hat, KvStoreConfig.score_base, KvStoreConfig.state_stride, ← Nat.mul_assoc, ← Nat.add_mul]
  have hstate : (e.kv.put_carry_slot L slot c.head_dim carry score).state =
      Region.write (Region.write e.kv.state
        ((owner_at cfg L * cfg.max_ratio + slot) * cfg.latent_dim) carry)
        ((cfg.owners.length * cfg.max_ratio + (owner_at cfg L * cfg.max_ratio + slot)) *
          cfg.latent_dim) score := by
    rw [put_carry_slot, he, howner]
    dsimp only
    rw [hat', hat]
  unfold carry_slots
  have hcfg : (e.kv.put_carry_slot L slot c.head_dim carry score).cfg = cfg := he
  rw [hstate, hcfg, he, Region.read_write_row _ (hscore.trans hdim.symm),
    Region.read_write_row _ (hcarry.trans hdim.symm)]
  rfl

theorem carry_view (hdim : cfg.latent_dim = c.head_dim) :
    View c cfg carry_slots (carry_updates c cfg) where
  keeps := by
    intro e e' hkeeps _
    funext r
    rw [carry_slots, carry_slots, hkeeps.cfg, hkeeps.state]
  put := by
    intro e L position r he _
    have hstate : (put_layer c e L position r).kv.state = (if c.carries L then
        e.kv.put_carry_slot L (position % c.compress_ratio L) c.head_dim
          (Region.read r.carry_kv 0 c.head_dim) (Region.read r.carry_score 0 c.head_dim)
        else e.kv).state := by
      rw [put_layer, put_compressed]
      dsimp only
      split
      · split <;> rfl
      · split <;> rfl
    unfold carry_updates
    by_cases hL : c.carries L = true
    · rw [if_pos hL] at hstate ⊢
      rw [← carry_slots_put he hdim L (position % c.compress_ratio L)
        (Region.length_read r.carry_kv 0 c.head_dim)
        (Region.length_read r.carry_score 0 c.head_dim)]
      funext x
      rw [carry_slots, carry_slots, hstate, (put_layer_cfg e L position r).1]
      rfl
    · rw [if_neg hL] at hstate ⊢
      funext x
      rw [carry_slots, hstate, (put_layer_cfg e L position r).1]
      rfl

end Parts

/-! ### Taking rows back -/

section Restore

variable {d : Nat} {slots layers take : List Nat} {row : Nat → Nat → Nat}

/-- The bytes of a snapshot of the rows of `m`. -/
def snapshot_bytes (m : Nat → UInt8) (row : Nat → Nat → Nat) (d : Nat) (slots layers : List Nat) :
    List UInt8 :=
  layers.flatMap fun l => slots.flatMap fun sl => Region.read m (row l sl * d) d

/-- The bytes of the part of it that has the slots at the indices `take`. -/
def sub_bytes (bytes : List UInt8) (d : Nat) (slots layers take : List Nat) : List UInt8 :=
  (List.range layers.length).flatMap fun li => take.flatMap fun i =>
    snapshot_row bytes (li * slots.length + i) d

theorem snapshot_bytes_row (m : Nat → UInt8) {li i l sl : Nat} (hl : layers[li]? = some l)
    (hi : slots[i]? = some sl) :
    snapshot_row (snapshot_bytes m row d slots layers) (li * slots.length + i) d =
      Region.read m (row l sl * d) d :=
  Region.take_drop_flatMap_rows (fun _ _ _ _ => Region.length_read _ _ _) hl hi

theorem sub_bytes_row (m : Nat → UInt8) (htake : ∀ i ∈ take, i < slots.length) {li si l i : Nat}
    (hl : layers[li]? = some l) (hi : take[si]? = some i) :
    snapshot_row (sub_bytes (snapshot_bytes m row d slots layers) d slots layers take)
      (li * take.length + si) d = Region.read m (row l (slots.getD i 0) * d) d := by
  have hgetD : ∀ i ∈ take, slots[i]? = some (slots.getD i 0) := by
    intro i hi
    simp [htake i hi]
  have hrow : ∀ li ∈ List.range layers.length, ∀ i ∈ take, (snapshot_row
      (snapshot_bytes m row d slots layers) (li * slots.length + i) d).length = d := by
    intro li hli i hi
    rw [snapshot_bytes_row m (List.getElem?_eq_getElem (List.mem_range.mp hli)) (hgetD i hi),
      Region.length_read]
  have hlt : li < layers.length := (List.getElem?_eq_some_iff.mp hl).1
  have hsub := Region.take_drop_flatMap_rows hrow (i := li) (j := si) (b := li) (c := i)
    (by simp [hlt]) hi
  rw [snapshot_row, sub_bytes, hsub]
  exact snapshot_bytes_row m hl (hgetD i (List.mem_of_getElem? hi))

/-- The ring rows that a restore of some slots in some layers writes. -/
def restored_rows (c : KvStoreConfig) (slots layers : List Nat) : List Nat :=
  layers.flatMap fun l => slots.map fun sl => c.ring_row l sl

theorem snapshot_rows_keys (c : KvStoreConfig) (s : RingSnapshot) :
    (snapshot_rows s).map (fun r => c.ring_row r.1.1 r.1.2) = restored_rows c s.slot s.layer := by
  have hzip : ∀ {β : Type} (l : List Nat) (f : Nat → β), l.zipIdx.map (fun p => f p.1) = l.map f := by
    intro β l f
    have hfst := congrArg (List.map f) (List.zipIdx_map_fst 0 l)
    rwa [List.map_map] at hfst
  rw [snapshot_rows, restored_rows, List.map_flatMap]
  simp only [List.map_map, Function.comp_def]
  have hinner : ∀ l : Nat, s.slot.zipIdx.map (fun sl => c.ring_row l sl.1) =
      s.slot.map fun sl => c.ring_row l sl := fun l => hzip s.slot (c.ring_row l)
  simp only [hinner]
  rw [List.flatMap_def, List.flatMap_def, hzip s.layer fun l => s.slot.map fun sl => c.ring_row l sl]

theorem restore_rows_eq (c : KvStoreConfig) (m m₀ : Nat → UInt8) (s : RingSnapshot)
    (bytes : List UInt8) (hrow : ∀ r ∈ snapshot_rows s, snapshot_row bytes r.2 d =
      Region.read m₀ (c.ring_row r.1.1 r.1.2 * d) d) :
    (fun x => Region.read ((snapshot_rows s).foldl (fun m r =>
      Region.write m (c.ring_row r.1.1 r.1.2 * d) (snapshot_row bytes r.2 d)) m) (x * d) d) =
      restore (fun x => Region.read m (x * d) d) (fun x => Region.read m₀ (x * d) d)
        (restored_rows c s.slot s.layer) := by
  rw [Region.read_foldl_write_row (f := fun r : (Nat × Nat) × Nat => c.ring_row r.1.1 r.1.2)
    (v := fun r => snapshot_row bytes r.2 d)
    (fun r hr => by rw [hrow r hr, Region.length_read]), ← snapshot_rows_keys, restore,
    List.foldl_map]
  refine List.foldl_ext _ _ _ fun t r hr => ?_
  rw [hrow r hr]

theorem snapshot_ring_ok {kv : KvStore} {layers : List Nat} {snap : RingSnapshot}
    (h : kv.snapshot_ring slots layers = .ok snap) :
    snap = {
      latent_dim := kv.cfg.latent_dim
      slot := slots
      layer := layers
      position := slots.map kv.slot_pos
      val := snapshot_bytes kv.win_val kv.cfg.ring_row kv.cfg.latent_dim slots layers
      scale := snapshot_bytes kv.win_scale kv.cfg.ring_row kv.cfg.window_scales slots layers } := by
  unfold KvStore.snapshot_ring at h
  dsimp only at h
  split at h
  · cases h
  split at h
  · cases h
  split at h
  · cases h
  split at h
  · cases h
  split at h
  · cases h
  · cases h
    rfl

/-- A restore of a part of a snapshot, from a store of the same shape. -/
theorem restore_sub_ring {kv kv₀ kv' : KvStore} {snap : RingSnapshot} (hcfg : kv.cfg = kv₀.cfg)
    (hblock : kv₀.cfg.scale_block = 32)
    (hsnap : kv₀.snapshot_ring slots (List.range kv₀.cfg.layers) = .ok snap)
    (htake : ∀ i ∈ take, i < slots.length)
    (h : kv.restore_ring (sub_snapshot snap take) = (.ok (), kv')) :
    (fun r => Region.read kv'.win_val (r * kv.cfg.latent_dim) kv.cfg.latent_dim) =
        restore (fun r => Region.read kv.win_val (r * kv.cfg.latent_dim) kv.cfg.latent_dim)
          (fun r => Region.read kv₀.win_val (r * kv.cfg.latent_dim) kv.cfg.latent_dim)
          (restored_rows kv.cfg (take.map fun i => slots.getD i 0) (List.range kv₀.cfg.layers)) ∧
      (fun r => Region.read kv'.win_scale (r * kv.cfg.window_scales) kv.cfg.window_scales) =
        restore (fun r => Region.read kv.win_scale (r * kv.cfg.window_scales) kv.cfg.window_scales)
          (fun r => Region.read kv₀.win_scale (r * kv.cfg.window_scales) kv.cfg.window_scales)
          (restored_rows kv.cfg (take.map fun i => slots.getD i 0) (List.range kv₀.cfg.layers)) ∧
      kv'.slot_pos = restore kv.slot_pos kv₀.slot_pos (take.map fun i => slots.getD i 0) ∧
      kv'.cfg = kv.cfg ∧ kv'.state = kv.state := by
  have hsnap' := snapshot_ring_ok hsnap
  have hscales : kv₀.cfg.latent_dim / 32 = kv₀.cfg.window_scales := by
    rw [KvStoreConfig.window_scales, hblock]
  -- row `si` of the part is row `take[si]` of the snapshot, in every layer
  have hindex : ∀ r ∈ snapshot_rows (sub_snapshot snap take), ∃ li si i,
      (List.range kv₀.cfg.layers)[li]? = some r.1.1 ∧ take[si]? = some i ∧
        r.1.2 = slots.getD i 0 ∧ r.2 = li * take.length + si := by
    intro r hr
    subst hsnap'
    simp only [snapshot_rows, sub_snapshot, List.mem_flatMap, List.mem_map] at hr
    obtain ⟨l, hl, sl, hsl, rfl⟩ := hr
    have hl' := List.mem_zipIdx_iff_getElem?.mp hl
    have hsl' := List.mem_zipIdx_iff_getElem?.mp hsl
    rw [List.getElem?_map, Option.map_eq_some_iff] at hsl'
    obtain ⟨i, hi, heq⟩ := hsl'
    exact ⟨l.2, sl.2, i, hl', hi, heq.symm, by rw [List.length_map]⟩
  unfold KvStore.restore_ring at h
  dsimp only at h
  split at h
  · cases h
  split at h
  · cases h
  split at h
  · cases h
  split at h
  · cases h
  cases h
  have hslots : (sub_snapshot snap take).slot = take.map fun i => slots.getD i 0 := by
    rw [hsnap']
    rfl
  have hlayers : (sub_snapshot snap take).layer = List.range kv₀.cfg.layers := by rw [hsnap']; rfl
  refine ⟨?_, ?_, ?_, rfl, rfl⟩
  · have hrows := restore_rows_eq kv.cfg kv.win_val kv₀.win_val (sub_snapshot snap take)
      (sub_snapshot snap take).val (d := kv.cfg.latent_dim) ?_
    · rw [hslots, hlayers] at hrows
      exact hrows
    · intro r hr
      obtain ⟨li, si, i, hl, hi, hslot, hoff⟩ := hindex r hr
      rw [hslot, hoff, hcfg, hsnap']
      exact @sub_bytes_row _ _ _ _ kv₀.cfg.ring_row kv₀.win_val htake _ _ _ _ hl hi
  · have hrows := restore_rows_eq kv.cfg kv.win_scale kv₀.win_scale (sub_snapshot snap take)
      (sub_snapshot snap take).scale (d := kv.cfg.window_scales) ?_
    · rw [hslots, hlayers] at hrows
      exact hrows
    · intro r hr
      obtain ⟨li, si, i, hl, hi, hslot, hoff⟩ := hindex r hr
      rw [hslot, hoff, hcfg, hsnap']
      show snapshot_row (sub_bytes _ (kv₀.cfg.latent_dim / 32) slots _ take) _ _ = _
      rw [hscales]
      exact @sub_bytes_row _ _ _ _ kv₀.cfg.ring_row kv₀.win_scale htake _ _ _ _ hl hi
  · have hall : ((List.range kv.cfg.layers).all fun l =>
        (sub_snapshot snap take).layer.contains l) = true := by
      rw [hlayers, hcfg, List.all_eq_true]
      intro l hl
      simpa using hl
    have hpositions : (sub_snapshot snap take).position =
        take.map fun i => kv₀.slot_pos (slots.getD i 0) := by
      rw [hsnap']
      refine List.map_congr_left fun i hi => ?_
      have hlt := htake i hi
      simp [hlt]
    dsimp only
    rw [restored_positions, hall, hslots, hpositions, List.zip_map', List.map_map, List.foldl_map,
      restore, List.foldl_map]
    rfl

end Restore

/-! ### Slot positions -/

section Slots

variable {w p n : Nat} {slots : Nat → Int}

theorem mark_slots_last (w p n : Nat) (slots : Nat → Int) :
    mark_slots w p (n + 1) slots =
      Function.update (mark_slots w p n slots) ((p + n) % w) (p + n : Nat) := by
  rw [mark_slots, List.range_succ, List.foldl_append]
  rfl

theorem mark_slots_of_ne {s : Nat} (h : ∀ j < n, (p + j) % w ≠ s) :
    mark_slots w p n slots s = slots s := by
  induction n with
  | zero => rfl
  | succ n ih =>
    rw [mark_slots_last, Function.update_of_ne (Ne.symm (h n (Nat.lt_succ_self n)))]
    exact ih fun j hj => h j (Nat.lt_succ_of_lt hj)

theorem mark_slots_self (hn : n ≤ w) {j : Nat} (hj : j < n) :
    mark_slots w p n slots ((p + j) % w) = (p + j : Nat) := by
  induction n with
  | zero => omega
  | succ n ih =>
    rw [mark_slots_last]
    by_cases heq : j = n
    · rw [heq, Function.update_self]
    · rw [Function.update_of_ne (ring_slot_ne (by omega) (by omega)), ih (by omega) (by omega)]

theorem batch_slot_inj (hn : n ≤ w) {i j : Nat} (hi : i < n) (hj : j < n)
    (h : (p + i) % w = (p + j) % w) : i = j := by
  rcases Nat.lt_trichotomy i j with hlt | heq | hgt
  · exact absurd h (ring_slot_ne (by omega) (by omega))
  · exact heq
  · exact absurd h.symm (ring_slot_ne (by omega) (by omega))

theorem ring_slot_position_add {s : Nat} (hs : s < w) (h : ∀ j < n, (p + j) % w ≠ s) :
    ring_slot_position s (p + n) w = ring_slot_position s p w := by
  unfold ring_slot_position
  have hw : w ≠ 0 := by omega
  by_cases hp : p ≤ s
  · have hpn : p + n ≤ s := by
      by_contra hlt
      refine h (s - p) (by omega) ?_
      rw [Nat.add_sub_cancel' hp, Nat.mod_eq_of_lt hs]
    rw [if_pos (.inr hpn), if_pos (.inr hp)]
  · rw [if_neg (by omega), if_neg (by omega)]
    have hmod := Nat.div_add_mod (p - 1 - s) w
    have hlt := Nat.mod_lt (p - 1 - s) (Nat.pos_of_ne_zero hw)
    generalize hq : (p - 1 - s) / w = q at hmod ⊢
    -- the next position of the slot is not among the `n`
    have hnext : p + n ≤ s + w * (q + 1) := by
      by_contra hle
      rw [Nat.mul_succ] at hle
      refine h (s + w * (q + 1) - p) (by rw [Nat.mul_succ]; omega) ?_
      rw [Nat.add_sub_cancel' (by rw [Nat.mul_succ]; omega), Nat.add_mul_mod_self_left,
        Nat.mod_eq_of_lt hs]
    have hdiv : (p + n - 1 - s) / w = q := by
      rw [Nat.mul_succ] at hnext
      apply Nat.div_eq_of_lt_le
      · rw [Nat.mul_comm]
        omega
      · rw [Nat.mul_comm, Nat.mul_succ]
        omega
    rw [hdiv]

theorem resolved_resolved (s : Nat) (x : Int) (n' : Nat) :
    resolved w n' s (resolved w p s x) = resolved w p s x := by
  have hknown : resolved w p s x ≠ kSlotUnknown := by
    unfold resolved kSlotUnknown
    split
    · assumption
    · split
      · unfold kSlotEmpty
        omega
      · omega
  rw [resolved, if_pos hknown]

theorem resolved_add {s : Nat} (hs : s < w) (h : ∀ j < n, (p + j) % w ≠ s) (x : Int) :
    resolved w (p + n) s x = resolved w p s x := by
  rw [resolved, resolved, ring_slot_position_add hs h]

theorem resolved_position (s q : Nat) : resolved w n s (q : Nat) = (q : Nat) := by
  have hknown : ((q : Nat) : Int) ≠ kSlotUnknown := by
    unfold kSlotUnknown
    omega
  rw [resolved, if_pos hknown]

/-- A batch of `m` of which `n` rows stay leaves the slots that `n` steps leave. -/
theorem committed_slots {m s : Nat} (hn : 0 < n) (hnm : n ≤ m) (hm : m ≤ w) (hs : s < w)
    (slots : Nat → Int) :
    let before := fun s => resolved w p s (slots s)
    let batch := mark_slots w p m (Function.update before ((p + m - 1) % w) (p + m - 1 : Nat))
    let ring := restore batch before ((List.range' n (m - n)).map fun j => (p + j) % w)
    Function.update (fun s => resolved w (p + n) s (ring s)) ((p + n - 1) % w) (p + n - 1 : Nat) s =
      resolved w (p + n) s (mark_slots w p n slots s) := by
  dsimp only
  -- the slot of a row that stays; else of one taken back, or of none
  by_cases hrow : ∃ j < n, (p + j) % w = s
  · obtain ⟨j, hj, rfl⟩ := hrow
    rw [mark_slots_self (by omega) hj, resolved_position]
    by_cases hlast : j = n - 1
    · have hpos : p + n - 1 = p + j := by omega
      rw [hpos, Function.update_self]
    · have hother : (p + j) % w ≠ (p + n - 1) % w := ring_slot_ne (by omega) (by omega)
      rw [Function.update_of_ne hother, restore_eq, if_neg, mark_slots_self hm (by omega),
        resolved_position]
      intro hmem
      obtain ⟨i, hi, heq⟩ := List.mem_map.mp hmem
      rw [List.mem_range'_1] at hi
      have hij := batch_slot_inj hm (by omega) (by omega) heq
      omega
  · have hopen : ∀ j < n, (p + j) % w ≠ s := fun j hj heq => hrow ⟨j, hj, heq⟩
    have hlast : s ≠ (p + n - 1) % w := by
      have hprev := hopen (n - 1) (by omega)
      have hpos : p + (n - 1) = p + n - 1 := by omega
      rw [hpos] at hprev
      exact hprev.symm
    rw [Function.update_of_ne hlast, mark_slots_of_ne hopen, restore_eq]
    have hkept : resolved w (p + n) s (resolved w p s (slots s)) = resolved w (p + n) s (slots s) := by
      rw [resolved_resolved, resolved_add hs hopen]
    split
    · exact hkept
    · next hnot =>
      have hbatch : ∀ j < m, (p + j) % w ≠ s := by
        intro j hj heq
        by_cases hjn : j < n
        · exact hopen j hjn heq
        · exact hnot (List.mem_map.mpr ⟨j, List.mem_range'_1.mpr (by omega), heq⟩)
      have hend : s ≠ (p + m - 1) % w := by
        have hprev := hbatch (m - 1) (by omega)
        have hpos : p + (m - 1) = p + m - 1 := by omega
        rw [hpos] at hprev
        exact hprev.symm
      rw [mark_slots_of_ne hbatch, Function.update_of_ne hend]
      exact hkept

end Slots

/-! ### The committed context -/

section Commit

variable {c : TextConfig} {cfg : KvStoreConfig}

theorem restore_nil {κ β : Type} [DecidableEq κ] (t saved : κ → β) : restore t saved [] = t := rfl

/-- The ring after the rows from `n` on were taken back. -/
structure RingTaken (e₀ e₁ : DecodeStream) (ring : KvStore) (p0 n m : Nat) : Prop where
  vals : (fun r => Region.read ring.win_val (r * e₁.kv.cfg.latent_dim) e₁.kv.cfg.latent_dim) =
    restore (ring_vals e₁) (ring_vals e₀) (restored_rows e₁.kv.cfg
      ((List.range' n (m - n)).map fun j => (p0 + j) % e₁.kv.cfg.window)
      (List.range e₁.kv.cfg.layers))
  scales : (fun r => Region.read ring.win_scale (r * e₁.kv.cfg.window_scales)
      e₁.kv.cfg.window_scales) =
    restore (ring_scales e₁) (ring_scales e₀) (restored_rows e₁.kv.cfg
      ((List.range' n (m - n)).map fun j => (p0 + j) % e₁.kv.cfg.window)
      (List.range e₁.kv.cfg.layers))
  slots : ring.slot_pos = restore e₁.kv.slot_pos e₀.kv.slot_pos
    ((List.range' n (m - n)).map fun j => (p0 + j) % e₁.kv.cfg.window)
  cfg : ring.cfg = e₁.kv.cfg
  state : ring.state = e₁.kv.state

theorem ring_taken {e₀ e₁ : DecodeStream} {ring : KvStore} {snap : RingSnapshot} {p0 n m : Nat}
    (hcfg : e₁.kv.cfg = e₀.kv.cfg) (hblock : e₀.kv.cfg.scale_block = 32)
    (hlayers : e₀.kv.cfg.layers = c.num_hidden_layers)
    (hwindow : e₀.kv.cfg.window = c.sliding_window)
    (hsnap : e₀.kv.snapshot_ring (batch_slots c.sliding_window p0 m)
      (List.range c.num_hidden_layers) = .ok snap)
    (h : if m ≤ n then ring = e₁.kv
      else e₁.kv.restore_ring (sub_snapshot snap (List.range' n (m - n))) = (.ok (), ring)) :
    RingTaken e₀ e₁ ring p0 n m := by
  -- all rows stay, or the others come back from the snapshot
  by_cases hall : m ≤ n
  · rw [if_pos hall] at h
    subst h
    have hnone : m - n = 0 := by omega
    have hempty : ∀ c : KvStoreConfig, restored_rows c [] (List.range c.layers) = [] := by
      intro c
      simp [restored_rows]
    refine ⟨?_, ?_, ?_, rfl, rfl⟩
    · rw [hnone, List.range'_zero, List.map_nil, hempty, restore_nil]
      rfl
    · rw [hnone, List.range'_zero, List.map_nil, hempty, restore_nil]
      rfl
    · rw [hnone, List.range'_zero, List.map_nil, restore_nil]
  · rw [if_neg hall] at h
    rw [← hlayers] at hsnap
    have htake : ∀ i ∈ List.range' n (m - n), i < (batch_slots c.sliding_window p0 m).length := by
      intro i hi
      rw [List.mem_range'_1] at hi
      rw [batch_slots, List.length_map, List.length_range]
      omega
    have hslots : ((List.range' n (m - n)).map fun i =>
        (batch_slots c.sliding_window p0 m).getD i 0) =
        (List.range' n (m - n)).map fun j => (p0 + j) % e₁.kv.cfg.window := by
      refine List.map_congr_left fun i hi => ?_
      have hlt := htake i hi
      rw [batch_slots, List.length_map, List.length_range] at hlt
      rw [batch_slots, hcfg, hwindow]
      simp [hlt]
    have htaken := restore_sub_ring hcfg hblock hsnap htake h
    rw [hslots, ← hcfg] at htaken
    obtain ⟨hvals, hscales, hpos, hcfg', hstate⟩ := htaken
    refine ⟨?_, ?_, hpos, hcfg', hstate⟩
    · rw [hvals]
      unfold ring_vals
      rw [hcfg]
    · rw [hscales]
      unfold ring_scales
      rw [hcfg]

theorem ring_row_mod {s : Nat} (hs : s < cfg.window) (l : Nat) :
    cfg.ring_row l s % cfg.window = s := by
  rw [KvStoreConfig.ring_row, Nat.mul_comm, Nat.mul_add_mod, Nat.mod_eq_of_lt hs]

/-- The rows of a batch lie in different slots, so they can be written position by position, and
    taken back from any of them on. -/
theorem ring_rounds {β : Type} {t : Nat → β} {layers p0 n m : Nat} {v : Nat → Nat → β}
    (hn : n ≤ m) (hm : m ≤ cfg.window) :
    restore (apply t ((List.range layers).flatMap fun L => (List.range m).flatMap fun j =>
        [Update.put (cfg.ring_row L ((p0 + j) % cfg.window)) (v L j)])) t
        (restored_rows cfg ((List.range' n (m - n)).map fun j => (p0 + j) % cfg.window)
          (List.range layers)) =
      apply t ((List.range n).flatMap fun j => (List.range layers).flatMap fun L =>
        [Update.put (cfg.ring_row L ((p0 + j) % cfg.window)) (v L j)]) := by
  have hslot : ∀ j, (p0 + j) % cfg.window < cfg.window := fun j => Nat.mod_lt _ cfg.window_pos
  have hkey : ∀ L i L' j, cfg.ring_row L ((p0 + i) % cfg.window) =
      cfg.ring_row L' ((p0 + j) % cfg.window) → (p0 + i) % cfg.window = (p0 + j) % cfg.window := by
    intro L i L' j heq
    rw [← ring_row_mod (hslot i) L, heq, ring_row_mod (hslot j)]
  refine restore_rounds (g := fun j L =>
    [Update.put (cfg.ring_row L ((p0 + j) % cfg.window)) (v L j)]) ?_ hn ?_ ?_ t
  · intro i hi j hj L _ L' _ u hu u' hu' heq
    rw [List.mem_singleton] at hu hu'
    subst hu hu'
    exact batch_slot_inj hm (List.mem_range.mp hi) (List.mem_range.mp hj) (hkey L i L' j heq)
  · intro j hnj hjm L hL u hu
    rw [List.mem_singleton] at hu
    subst hu
    refine List.mem_flatMap.mpr ⟨L, hL, List.mem_map.mpr ⟨(p0 + j) % cfg.window, ?_, rfl⟩⟩
    exact List.mem_map.mpr ⟨j, List.mem_range'_1.mpr (by omega), rfl⟩
  · intro j hj L _ u hu hmem
    rw [List.mem_singleton] at hu
    subst hu
    obtain ⟨L', _, hrow⟩ := List.mem_flatMap.mp hmem
    obtain ⟨s, hs, heq⟩ := List.mem_map.mp hrow
    obtain ⟨i, hi, rfl⟩ := List.mem_map.mp hs
    rw [List.mem_range'_1] at hi
    have hij := batch_slot_inj hm (by omega) (by omega) (hkey L' i L j heq)
    omega

theorem capture_updates_key {L position : Nat} {r : LayerRow} {u : Update Nat DraftSlot}
    (hu : u ∈ capture_updates c L position r) : u.key = position % kSlidingWindow := by
  unfold capture_updates at hu
  split at hu
  · cases hu
  · rw [List.mem_singleton] at hu
    subst hu
    rfl

/-- The draft slots of a batch differ too. -/
theorem draft_rounds {t : DraftWindow} {layers p0 n m : Nat} {row : Nat → Nat → LayerRow}
    (hn : n ≤ m) (hm : m ≤ kSlidingWindow) :
    restore (apply t ((List.range layers).flatMap fun L => (List.range m).flatMap fun j =>
        capture_updates c L (p0 + j) (row L j))) t
        ((List.range' n (m - n)).map fun j => (p0 + j) % kSlidingWindow) =
      apply t ((List.range n).flatMap fun j => (List.range layers).flatMap fun L =>
        capture_updates c L (p0 + j) (row L j)) := by
  refine restore_rounds (g := fun j L => capture_updates c L (p0 + j) (row L j)) ?_ hn ?_ ?_ t
  · intro i hi j hj L _ L' _ u hu u' hu' heq
    rw [capture_updates_key hu, capture_updates_key hu'] at heq
    exact batch_slot_inj hm (List.mem_range.mp hi) (List.mem_range.mp hj) heq
  · intro j hnj hjm L hL u hu
    rw [capture_updates_key hu]
    exact List.mem_map.mpr ⟨j, List.mem_range'_1.mpr (by omega), rfl⟩
  · intro j hj L _ u hu hmem
    rw [capture_updates_key hu] at hmem
    obtain ⟨i, hi, heq⟩ := List.mem_map.mp hmem
    rw [List.mem_range'_1] at hi
    have hij := batch_slot_inj hm (by omega) (by omega) heq
    omega

theorem restore_draft_eq (w before : DraftWindow) {p0 n m : Nat} :
    restore_draft w (backup_draft before p0 m) p0 n m =
      restore w before ((List.range' n (m - n)).map fun j => (p0 + j) % kSlidingWindow) := by
  rw [restore_draft, restore, List.foldl_map]
  refine List.foldl_ext _ _ _ fun w' j hj => ?_
  rw [List.mem_range'_1] at hj
  have hlt : j < m := by omega
  simp [backup_draft, hlt]

theorem carry_key_lt {O R oi s : Nat} (hoi : oi < O) (hs : s < R) : oi * R + s < O * R := by
  calc oi * R + s < oi * R + R := by omega
    _ = (oi + 1) * R := (Nat.succ_mul oi R).symm
    _ ≤ O * R := Nat.mul_le_mul_right R hoi

theorem carry_updates_spec {kv : KvStore} (hserved : Served c kv) {L position : Nat}
    {r : LayerRow} (hL : L < c.num_hidden_layers) {u : Update Nat (List UInt32)}
    (hu : u ∈ carry_updates c kv.cfg L position r) :
    ∃ oi s, oi < kv.cfg.owners.length ∧ kv.cfg.owners.getD oi 0 = L ∧ s < kv.cfg.max_ratio ∧
      (u.key = oi * kv.cfg.max_ratio + s ∨
        u.key = kv.cfg.owners.length * kv.cfg.max_ratio + (oi * kv.cfg.max_ratio + s)) := by
  unfold carry_updates at hu
  split at hu
  · next hcarries =>
    obtain ⟨hrun, hratio⟩ : c.run_compressor L = true ∧ 1 < c.compress_ratio L := by
      simpa [TextConfig.carries] using hcarries
    obtain ⟨oi, hoi, howner, hget⟩ := hserved.owner hL hrun
    have hat : owner_at kv.cfg L = oi := by
      rw [KvStore.owner_index] at howner
      rw [owner_at, howner]
      rfl
    have hslot : position % c.compress_ratio L < kv.cfg.max_ratio :=
      Nat.lt_of_lt_of_le (Nat.mod_lt _ (by omega)) (hserved.ratios L)
    rw [hat] at hu
    refine ⟨oi, position % c.compress_ratio L, hoi, hget, hslot, ?_⟩
    rcases List.mem_cons.mp hu with rfl | hu
    · exact .inl rfl
    · rw [List.mem_singleton] at hu
      subst hu
      exact .inr rfl
  · cases hu

/-- The carries of two layers lie in the slots of two owners. -/
theorem carry_one_round {kv : KvStore} (hserved : Served c kv) {p0 n : Nat}
    {row : Nat → Nat → LayerRow} :
    OneRound (List.range c.num_hidden_layers) (List.range n)
      fun L j => carry_updates c kv.cfg L (p0 + j) (row L j) := by
  intro L hL L' hL' i _ j _ u hu u' hu' heq
  obtain ⟨oi, s, hoi, hget, hs, hkey⟩ := carry_updates_spec hserved (List.mem_range.mp hL) hu
  obtain ⟨oi', s', hoi', hget', hs', hkey'⟩ :=
    carry_updates_spec hserved (List.mem_range.mp hL') hu'
  have hlt := carry_key_lt hoi hs
  have hlt' := carry_key_lt hoi' hs'
  have hsame : oi * kv.cfg.max_ratio + s = oi' * kv.cfg.max_ratio + s' := by
    rcases hkey with hkey | hkey
    · rcases hkey' with hkey' | hkey'
      · omega
      · omega
    · rcases hkey' with hkey' | hkey'
      · omega
      · omega
  have howners : oi = oi' := by
    by_contra hne
    exact Region.row_index_ne hs hs' hne hsame
  rw [← hget, ← hget', howners]

theorem in_stride_of_slot {C : KvStoreConfig} {r j : Nat} (hj : j < C.latent_dim)
    (hr : r < C.owners.length * C.max_ratio + C.owners.length * C.max_ratio) :
    InStride C (List.range C.owners.length) (r * C.latent_dim + j) := by
  -- the slot of an owner, in either half
  have hhalf : ∀ r < C.owners.length * C.max_ratio, ∃ oi < C.owners.length,
      oi * C.state_stride ≤ r * C.latent_dim + j ∧
        r * C.latent_dim + j < oi * C.state_stride + C.state_stride := by
    intro r hr
    have hpos : 0 < C.max_ratio := by
      by_contra hzero
      rw [Nat.eq_zero_of_not_pos hzero, Nat.mul_zero] at hr
      omega
    have hmod := Nat.div_add_mod r C.max_ratio
    have hlt := Nat.mod_lt r hpos
    refine ⟨r / C.max_ratio, Nat.div_lt_of_lt_mul (by rwa [Nat.mul_comm] at hr), ?_, ?_⟩
    · calc r / C.max_ratio * C.state_stride
          = C.max_ratio * (r / C.max_ratio) * C.latent_dim := by
            rw [KvStoreConfig.state_stride, ← Nat.mul_assoc, Nat.mul_comm (r / C.max_ratio)]
        _ ≤ r * C.latent_dim := Nat.mul_le_mul_right _ (by omega)
        _ ≤ r * C.latent_dim + j := Nat.le_add_right _ _
    · calc r * C.latent_dim + j < (r + 1) * C.latent_dim := by
            rw [Nat.succ_mul]
            omega
        _ ≤ (C.max_ratio * (r / C.max_ratio) + C.max_ratio) * C.latent_dim :=
            Nat.mul_le_mul_right _ (by omega)
        _ = r / C.max_ratio * C.state_stride + C.state_stride := by
            rw [KvStoreConfig.state_stride, Nat.add_mul, ← Nat.mul_assoc,
              Nat.mul_comm (r / C.max_ratio)]
  by_cases hlow : r < C.owners.length * C.max_ratio
  · obtain ⟨oi, hoi, hrange⟩ := hhalf r hlow
    exact ⟨oi, List.mem_range.mpr hoi, .inl hrange⟩
  · obtain ⟨r', rfl⟩ := Nat.exists_eq_add_of_le (Nat.not_lt.mp hlow)
    obtain ⟨oi, hoi, hrange⟩ := hhalf r' (by omega)
    have hbase : (C.owners.length * C.max_ratio + r') * C.latent_dim =
        C.score_base + r' * C.latent_dim := by
      rw [Nat.add_mul, KvStoreConfig.score_base, KvStoreConfig.state_stride, Nat.mul_assoc]
    rw [hbase]
    exact ⟨oi, List.mem_range.mpr hoi, .inr (by omega)⟩

/-- A carry that changed in the owners' slots only is given back. -/
theorem restored_carry {kv₀ kv kv' : KvStore} {first end_ : Nat} (hcfg : kv.cfg = kv₀.cfg)
    (hsame : ∀ r, kv₀.cfg.owners.length * kv₀.cfg.max_ratio +
      kv₀.cfg.owners.length * kv₀.cfg.max_ratio ≤ r →
        Region.read kv.state (r * kv₀.cfg.latent_dim) kv₀.cfg.latent_dim =
          Region.read kv₀.state (r * kv₀.cfg.latent_dim) kv₀.cfg.latent_dim)
    (h : kv.restore_carry (backup_of kv₀ first end_) = (.ok (), kv')) (r : Nat) :
    Region.read kv'.state (r * kv₀.cfg.latent_dim) kv₀.cfg.latent_dim =
      Region.read kv₀.state (r * kv₀.cfg.latent_dim) kv₀.cfg.latent_dim := by
  obtain ⟨state, hstate, hspec⟩ := @restore_plane_carry_spec _ kv first end_ _
    (fun oi hoi => List.mem_range.mp hoi) hcfg
  have hkv' : kv'.state = state := by
    unfold KvStore.restore_carry at h
    split at h
    · cases h
    · rw [show (backup_of kv₀ first end_).planes =
        (List.range kv₀.cfg.owners.length).map (kv₀.backup_plane first end_) from rfl, hstate] at h
      cases h
      rfl
  rw [hkv']
  refine List.map_congr_left fun j hj => hspec _ ?_
  have hj' := List.mem_range.mp hj
  by_cases hr : r < kv₀.cfg.owners.length * kv₀.cfg.max_ratio +
      kv₀.cfg.owners.length * kv₀.cfg.max_ratio
  · exact .inl (in_stride_of_slot hj' hr)
  · right
    have hrow := congrArg (fun l => l[j]?) (hsame r (by omega))
    simpa only [Region.getElem?_read _ hj', Option.some.injEq] using hrow

/-- The members of the retained rows, written over the carry from before the batch. -/
theorem put_batch_carries (hdim : cfg.latent_dim = c.head_dim) {b : BatchAnswer} {p0 n m : Nat}
    (hn : n ≤ m) {Ls : List Nat} {e : DecodeStream} (he : e.kv.cfg = cfg) :
    carry_slots { e with
      kv := ((Ls.filter c.carries).map (batch_carry c b m)).foldl (put_batch_carry c p0 n) e.kv } =
      apply (carry_slots e) (Ls.flatMap fun L => (List.range n).flatMap fun j =>
        carry_updates c cfg L (p0 + j) (b.row L j)) := by
  -- one layer: a row after the other goes over the old carry
  have hone : ∀ (L : Nat) (kv : KvStore), kv.cfg = cfg → c.carries L = true →
      (put_batch_carry c p0 n kv (batch_carry c b m L)).cfg = cfg ∧
      carry_slots { e with kv := put_batch_carry c p0 n kv (batch_carry c b m L) } =
        apply (carry_slots { e with kv := kv }) ((List.range n).flatMap fun j =>
          carry_updates c cfg L (p0 + j) (b.row L j)) := by
    intro L kv hkv hL
    have hmember : ∀ j ∈ List.range n, ∀ f : LayerRow → Nat → UInt32,
        ((((List.range m).flatMap fun j => Region.read (f (b.row L j)) 0 c.head_dim).drop
          (j * c.head_dim)).take c.head_dim) = Region.read (f (b.row L j)) 0 c.head_dim := by
      intro j hj f
      have hjm : j < m := Nat.lt_of_lt_of_le (List.mem_range.mp hj) hn
      exact Region.take_drop_flatMap_row (fun _ _ => Region.length_read _ _ _) (by simp [hjm])
    refine view_foldl (V := fun kv => carry_slots { e with kv := kv })
      (P := fun kv : KvStore => kv.cfg = cfg) ?_ hkv
    intro j hj kv hkv
    refine ⟨hkv, ?_⟩
    have hput := carry_slots_put (c := c) (e := { e with kv := kv }) hkv hdim L
      ((p0 + j) % c.compress_ratio L) (Region.length_read (b.row L j).carry_kv 0 c.head_dim)
      (Region.length_read (b.row L j).carry_score 0 c.head_dim)
    have hkv_row : ((batch_carry c b m L).kv.drop (j * c.head_dim)).take c.head_dim =
        Region.read (b.row L j).carry_kv 0 c.head_dim := hmember j hj LayerRow.carry_kv
    have hscore_row : ((batch_carry c b m L).score.drop (j * c.head_dim)).take c.head_dim =
        Region.read (b.row L j).carry_score 0 c.head_dim := hmember j hj LayerRow.carry_score
    rw [carry_updates, if_pos hL, hkv_row, hscore_row]
    exact hput
  have hloop : ∀ (Ls : List Nat) (kv : KvStore), kv.cfg = cfg →
      carry_slots { e with
        kv := ((Ls.filter c.carries).map (batch_carry c b m)).foldl (put_batch_carry c p0 n) kv } =
      apply (carry_slots { e with kv := kv }) (Ls.flatMap fun L => (List.range n).flatMap fun j =>
        carry_updates c cfg L (p0 + j) (b.row L j)) := by
    intro Ls
    induction Ls with
    | nil => exact fun kv _ => rfl
    | cons L Ls ih =>
      intro kv hkv
      rw [List.flatMap_cons, apply_append]
      by_cases hL : c.carries L = true
      · obtain ⟨hcfg, hput⟩ := hone L kv hkv hL
        rw [List.filter_cons_of_pos hL, List.map_cons, List.foldl_cons, ih _ hcfg, hput]
      · have hnone : ((List.range n).flatMap fun j =>
            carry_updates c cfg L (p0 + j) (b.row L j)) = [] := by
          rw [List.flatMap_eq_nil_iff]
          intro j _
          rw [carry_updates, if_neg hL]
        rw [List.filter_cons_of_neg hL, ih _ hkv, hnone, apply_nil]
  exact hloop Ls e.kv he

end Commit

/-! ### Speculation and decode steps -/

/-- Two contexts agree on what the next step reads of them. A slot of the second whose position is
    not settled yet counts for what `resolve_ring` settles it to. -/
structure SameContext (e e' : DecodeStream) : Prop where
  history : e.history = e'.history
  vals : ring_vals e = ring_vals e'
  scales : ring_scales e = ring_scales e'
  slots : ∀ s < e.kv.cfg.window,
    e.kv.slot_pos s = (e'.kv.resolve_ring e'.history.length).slot_pos s
  carry : carry_slots e = carry_slots e'
  draft : e.rest.draft = e'.rest.draft

section Equal

variable {c : TextConfig} {steps answers : Nat → StepAnswer} {cfg : SpeculationConfig}
  {greedy : Bool} {a : SpecAnswer} {e : DecodeStream} {root max_new : Nat} {stops : List Nat}

/-- What a step of `m` rows of which `n` are emitted went through, from the context `e₀` that the
    verification starts from. -/
structure Trace (c : TextConfig) (b : BatchAnswer) (e₀ e₁ e' : DecodeStream) (ring carry : KvStore)
    (n m : Nat) : Prop where
  emitted : 0 < n ∧ n ≤ m
  fits : m ≤ e₀.kv.cfg.window ∧ m ≤ kSlidingWindow
  batch : ∃ tokens : List Nat, tokens.length = m ∧ forward_batch c b e₀ e₀.history.length tokens =
    (.ok (((List.range c.num_hidden_layers).filter c.carries).map (batch_carry c b m)), e₁)
  cfg : e₁.kv.cfg = e₀.kv.cfg
  layers : e₀.kv.cfg.layers = c.num_hidden_layers
  taken : RingTaken e₀ e₁ ring e₀.history.length n m
  restored : ring.restore_carry (backup_of e₀.kv e₀.history.length e₀.history.length) =
    (.ok (), carry)
  counted : prepare_ced c (((((List.range c.num_hidden_layers).filter c.carries).map
      (batch_carry c b m)).foldl (put_batch_carry c e₀.history.length n) carry).resolve_ring
    (e₀.history.length + n)) (e₀.history.length + n - 1) = (.ok (), e'.kv)
  draft : e'.rest.draft = restore_draft e₁.rest.draft
    (backup_draft e₀.rest.draft e₀.history.length m) e₀.history.length n m

/-- A step that succeeds, taken apart. -/
theorem speculative_trace {e' : DecodeStream} {rows : List Nat} (hserved : Served c e.kv)
    (h : speculative_step c steps cfg greedy a e root max_new stops = (.ok rows, e')) :
    ∃ e₀ e₁ ring carry m, e₀.kv = e.kv.resolve_ring e.history.length ∧ e₀.history = e.history ∧
      e₀.rest.draft = e.rest.draft ∧ Trace c a.batch e₀ e₁ e' ring carry rows.length m := by
  unfold speculative_step at h
  split at h
  · cases h
  next v e₀ hstarted =>
  have hstart := start_verification_ok hstarted
  unfold verify at h
  split at h
  · cases h
  next rows' e₁ hverified =>
  cases h
  obtain ⟨drafts, hinput, hdrafts⟩ := hstart.input
  obtain ⟨carries, e₁, accepted, last, hbatch, hemit, hpos, hlen, hhistory₁, hdone⟩ :=
    verify_and_commit_done hinput hverified
  obtain ⟨ring, carry, hring, hcarry, hcounts⟩ := hdone.store
  obtain ⟨max_context, initial_context, hwindow, hcfg⟩ := hserved.cfg
  have hbatch₁ : (forward_batch c a.batch e₀ e₀.history.length v.input).1 = .ok carries := by
    rw [hbatch]
  obtain ⟨_, _, _, _, hcarries, _⟩ := forward_batch_ok hbatch₁
  have hcfg₁ := (forward_batch_keeps (c := c) a.batch e₀ e₀.history.length v.input).cfg
  rw [hbatch] at hcfg₁
  -- the ring was resolved before the snapshot was taken
  have hkv : e₀.kv = e.kv.resolve_ring e.history.length := by
    rw [hstart.state]
    rfl
  have hhistory : e₀.history = e.history := by rw [hstart.state]; rfl
  have hdraft : e₀.rest.draft = e.rest.draft := by rw [hstart.state]; rfl
  have hcfg₀ : e₀.kv.cfg = KvStoreConfig.for_model c max_context initial_context hwindow := by
    rw [hkv]
    exact hcfg
  have hsnap := hstart.snap
  have hbackup := hstart.draft
  have htaken := hstart.carry
  have hcount := hstart.columns
  have hfit := hserved.columns
  have hbound : kMgtMaxM ≤ kSlidingWindow := by decide
  have hw : e₀.kv.cfg.window = c.sliding_window := by rw [hcfg₀]; rfl
  have hlayers : e₀.kv.cfg.layers = c.num_hidden_layers := by rw [hcfg₀]; rfl
  have hblock : e₀.kv.cfg.scale_block = 32 := by rw [hcfg₀]; rfl
  have hhistory' : (tick e).history = e₀.history := hhistory.symm
  have hkv' : (tick e).kv.resolve_ring (tick e).history.length = e₀.kv := hkv.symm
  have hdraft' : (tick e).rest.draft = e₀.rest.draft := hdraft.symm
  rw [hkv', hhistory'] at hsnap htaken
  rw [hdraft', hhistory'] at hbackup
  rw [htaken] at hcarry
  rw [hcarries] at hcounts hbatch
  refine ⟨e₀, e₁, ring, carry, v.input.length, hkv, hhistory, hdraft, {
    emitted := ⟨hpos, ?_⟩
    fits := ⟨by omega, by omega⟩
    batch := ⟨v.input, rfl, hbatch⟩
    cfg := hcfg₁
    layers := hlayers
    taken := ring_taken (c := c) hcfg₁ hblock hlayers hw hsnap hring
    restored := hcarry
    counted := hcounts
    draft := ?_ }⟩
  · rw [hinput, List.length_cons]
    omega
  · rw [hdone.rest, hbackup]

section Traced

variable {b : BatchAnswer} {e₀ e₁ e' : DecodeStream} {ring carry : KvStore} {n m : Nat}

/-- What the batch wrote of one part of the context. -/
theorem Trace.view (h : Trace c b e₀ e₁ e' ring carry n m)
    (hlists : ∃ L < c.num_hidden_layers, c.lists L) {κ β : Type} [DecidableEq κ]
    {view : DecodeStream → κ → β} {updates : Nat → Nat → LayerRow → List (Update κ β)}
    (hview : View c e₀.kv.cfg view updates) :
    e₁.kv.slot_pos = mark_slots e₀.kv.cfg.window e₀.history.length m
        (Function.update e₀.kv.slot_pos ((e₀.history.length + m - 1) % e₀.kv.cfg.window)
          (e₀.history.length + m - 1 : Nat)) ∧
      view e₁ = apply (view e₀) ((List.range c.num_hidden_layers).flatMap fun L =>
        (List.range m).flatMap fun j => updates L (e₀.history.length + j) (b.row L j)) := by
  obtain ⟨tokens, htokens, hbatch⟩ := h.batch
  have hrun := forward_batch_view hview rfl hlists hbatch
  rw [htokens] at hrun
  exact hrun.2

/-- After the commit only the carry and the slots change. -/
theorem Trace.store (h : Trace c b e₀ e₁ e' ring carry n m) :
    e'.kv.cfg = e₀.kv.cfg ∧ e'.kv.win_val = ring.win_val ∧ e'.kv.win_scale = ring.win_scale ∧
      e'.kv.state = ((((List.range c.num_hidden_layers).filter c.carries).map
        (batch_carry c b m)).foldl (put_batch_carry c e₀.history.length n) carry).state := by
  have hcounts := @prepare_ced_keeps (((((List.range c.num_hidden_layers).filter c.carries).map
    (batch_carry c b m)).foldl (put_batch_carry c e₀.history.length n) carry).resolve_ring
    (e₀.history.length + n)) c (e₀.history.length + n - 1)
  rw [h.counted] at hcounts
  obtain ⟨state, hput⟩ := put_batch_carry_keeps (c := c) e₀.history.length n carry
    (((List.range c.num_hidden_layers).filter c.carries).map (batch_carry c b m))
  obtain ⟨state', hcarry⟩ := restore_carry_keeps ring
    (backup_of e₀.kv e₀.history.length e₀.history.length)
  rw [h.restored] at hcarry
  have hcarry' : carry = { ring with state := state' } := hcarry
  refine ⟨?_, ?_, ?_, hcounts.state⟩
  · rw [hcounts.cfg, hput, hcarry', ← h.cfg, ← h.taken.cfg]
    rfl
  · rw [hcounts.win_val, hput, hcarry']
    rfl
  · rw [hcounts.win_scale, hput, hcarry']
    rfl

theorem Trace.vals (h : Trace c b e₀ e₁ e' ring carry n m)
    (hlists : ∃ L < c.num_hidden_layers, c.lists L) :
    ring_vals e' = apply (ring_vals e₀) ((List.range n).flatMap fun j =>
        (List.range c.num_hidden_layers).flatMap fun L => [Update.put
          (e₀.kv.cfg.ring_row L ((e₀.history.length + j) % e₀.kv.cfg.window))
          (Region.read (b.row L j).win_val 0 e₀.kv.cfg.latent_dim)]) ∧
      ring_scales e' = apply (ring_scales e₀) ((List.range n).flatMap fun j =>
        (List.range c.num_hidden_layers).flatMap fun L => [Update.put
          (e₀.kv.cfg.ring_row L ((e₀.history.length + j) % e₀.kv.cfg.window))
          (Region.read (b.row L j).win_scale 0 e₀.kv.cfg.window_scales)]) := by
  obtain ⟨hcfg', hval, hscale, _⟩ := h.store
  have hvals := h.taken.vals
  have hscales := h.taken.scales
  rw [h.cfg, h.layers] at hvals hscales
  constructor
  · have hring : ring_vals e' = fun r =>
        Region.read ring.win_val (r * e₀.kv.cfg.latent_dim) e₀.kv.cfg.latent_dim := by
      funext r
      rw [ring_vals, hval, hcfg']
    rw [hring, hvals, (h.view hlists ring_vals_view).2]
    exact ring_rounds h.emitted.2 h.fits.1
  · have hring : ring_scales e' = fun r =>
        Region.read ring.win_scale (r * e₀.kv.cfg.window_scales) e₀.kv.cfg.window_scales := by
      funext r
      rw [ring_scales, hscale, hcfg']
    rw [hring, hscales, (h.view hlists ring_scales_view).2]
    exact ring_rounds h.emitted.2 h.fits.1

theorem Trace.draft_window (h : Trace c b e₀ e₁ e' ring carry n m)
    (hlists : ∃ L < c.num_hidden_layers, c.lists L) :
    e'.rest.draft = apply e₀.rest.draft ((List.range n).flatMap fun j =>
      (List.range c.num_hidden_layers).flatMap fun L =>
        capture_updates c L (e₀.history.length + j) (b.row L j)) := by
  have hbatch : e₁.rest.draft = _ := (h.view hlists draft_view).2
  rw [h.draft, hbatch, restore_draft_eq]
  exact draft_rounds h.emitted.2 h.fits.2

theorem Trace.carry_state (h : Trace c b e₀ e₁ e' ring carry n m) (hserved : Served c e₀.kv)
    (hdim : e₀.kv.cfg.latent_dim = c.head_dim) :
    carry_slots e' = apply (carry_slots e₀) ((List.range n).flatMap fun j =>
      (List.range c.num_hidden_layers).flatMap fun L =>
        carry_updates c e₀.kv.cfg L (e₀.history.length + j) (b.row L j)) := by
  obtain ⟨hcfg', _, _, hstate⟩ := h.store
  have hbatch := (h.view hserved.lists (carry_view hdim)).2
  -- the batch wrote slots of owners only
  have hsame : ∀ r, e₀.kv.cfg.owners.length * e₀.kv.cfg.max_ratio +
      e₀.kv.cfg.owners.length * e₀.kv.cfg.max_ratio ≤ r →
        Region.read ring.state (r * e₀.kv.cfg.latent_dim) e₀.kv.cfg.latent_dim =
          Region.read e₀.kv.state (r * e₀.kv.cfg.latent_dim) e₀.kv.cfg.latent_dim := by
    intro r hr
    have hrow := congrFun hbatch r
    rw [apply_of_ne] at hrow
    · rw [carry_slots, carry_slots, h.cfg, ← h.taken.state] at hrow
      exact hrow
    · intro u hu hkey
      obtain ⟨L, hL, hu⟩ := List.mem_flatMap.mp hu
      obtain ⟨j, _, hu⟩ := List.mem_flatMap.mp hu
      obtain ⟨oi, s, hoi, _, hs, hat⟩ := carry_updates_spec hserved (List.mem_range.mp hL) hu
      have hlt := carry_key_lt hoi hs
      omega
  have hback := restored_carry (h.taken.cfg.trans h.cfg) hsame h.restored
  obtain ⟨state', hcarry⟩ := restore_carry_keeps ring
    (backup_of e₀.kv e₀.history.length e₀.history.length)
  rw [h.restored] at hcarry
  have hcfg : carry.cfg = e₀.kv.cfg := by
    have hcarry' : carry = { ring with state := state' } := hcarry
    rw [hcarry', ← h.cfg, ← h.taken.cfg]
  have hput := @put_batch_carries c _ hdim b e₀.history.length n m h.emitted.2
    (List.range c.num_hidden_layers) { e₀ with kv := carry } hcfg
  have hfirst : carry_slots { e₀ with kv := carry } = carry_slots e₀ := by
    funext r
    rw [carry_slots, carry_slots, hcfg]
    exact hback r
  have hlast : carry_slots e' = carry_slots { e₀ with
      kv := (((List.range c.num_hidden_layers).filter c.carries).map (batch_carry c b m)).foldl
        (put_batch_carry c e₀.history.length n) carry } := by
    obtain ⟨state, hfold⟩ := put_batch_carry_keeps (c := c) e₀.history.length n carry
      (((List.range c.num_hidden_layers).filter c.carries).map (batch_carry c b m))
    funext r
    rw [carry_slots, carry_slots, hstate, hcfg', hfold]
    dsimp only
    rw [hcfg]
  rw [hlast, hput, hfirst]
  exact apply_swap List.nodup_range (carry_one_round hserved) _

theorem Trace.slot_positions (h : Trace c b e₀ e₁ e' ring carry n m)
    (hlists : ∃ L < c.num_hidden_layers, c.lists L) {slots : Nat → Int}
    (hslots : e₀.kv.slot_pos = fun s => resolved e₀.kv.cfg.window e₀.history.length s (slots s))
    {s : Nat} (hs : s < e₀.kv.cfg.window) :
    e'.kv.slot_pos s = resolved e₀.kv.cfg.window (e₀.history.length + n) s
      (mark_slots e₀.kv.cfg.window e₀.history.length n slots s) := by
  have hbatch := (h.view hlists draft_view).1
  have hring := h.taken.slots
  rw [h.cfg, hbatch] at hring
  obtain ⟨state, hfold⟩ := put_batch_carry_keeps (c := c) e₀.history.length n carry
    (((List.range c.num_hidden_layers).filter c.carries).map (batch_carry c b m))
  obtain ⟨state', hcarry⟩ := restore_carry_keeps ring
    (backup_of e₀.kv e₀.history.length e₀.history.length)
  rw [h.restored] at hcarry
  have hcarry' : carry = { ring with state := state' } := hcarry
  have hcounts := @prepare_ced_slot_pos (((((List.range c.num_hidden_layers).filter
    c.carries).map (batch_carry c b m)).foldl (put_batch_carry c e₀.history.length n)
      carry).resolve_ring (e₀.history.length + n)) c (e₀.history.length + n - 1) hlists
    (by rw [h.counted])
  rw [h.counted] at hcounts
  have hcfg : ring.cfg = e₀.kv.cfg := h.taken.cfg.trans h.cfg
  have hfinal : e'.kv.slot_pos = Function.update (fun s => resolved e₀.kv.cfg.window
      (e₀.history.length + n) s (ring.slot_pos s))
      ((e₀.history.length + n - 1) % e₀.kv.cfg.window) (e₀.history.length + n - 1 : Nat) := by
    have hcounts' : e'.kv.slot_pos = _ := hcounts
    rw [hcounts', hfold, hcarry', KvStore.resolve_ring, KvStore.ring_slot]
    dsimp only
    rw [hcfg]
  have hcommitted := committed_slots (w := e₀.kv.cfg.window) (p := e₀.history.length) h.emitted.1
    h.emitted.2 h.fits.1 hs slots
  dsimp only at hcommitted
  rw [hfinal, hring, hslots]
  exact hcommitted

end Traced

/-- The rows that a step emits leave the context that decode steps of the same tokens leave. -/
theorem same_context {e' e'' : DecodeStream} {rows : List Nat} {t : Nat} (hserved : Served c e.kv)
    (hrow : ∀ j < rows.length, ∀ L < c.num_hidden_layers,
      (answers (e.rest.calls + j)).row L = a.batch.row L j)
    (h : speculative_step c steps cfg greedy a e root max_new stops = (.ok rows, e'))
    (hfeed : feed c answers e (root :: rows.dropLast) = (.ok t, e'')) : SameContext e' e'' := by
  obtain ⟨e₀, e₁, ring, carry, m, hkv, hhistory, hdraft, htrace⟩ := speculative_trace hserved h
  have hemitted := (@speculative_step_spec c steps cfg greedy a e root max_new stops).2.1 rows
    (by rw [h])
  rw [h] at hemitted
  obtain ⟨max_context, initial_context, hwindow, hcfg⟩ := hserved.cfg
  have hdim : e.kv.cfg.latent_dim = c.head_dim := by rw [hcfg]; rfl
  have hfed : (feed c answers e (root :: rows.dropLast)).1 = .ok t := by rw [hfeed]
  have hpos := htrace.emitted.1
  have hcount : (root :: rows.dropLast).length = rows.length := by
    rw [List.length_cons, List.length_dropLast]
    omega
  have hrow' : ∀ j < (root :: rows.dropLast).length, ∀ L < c.num_hidden_layers,
      (answers (e.rest.calls + j)).row L = a.batch.row L j := by
    rw [hcount]
    exact hrow
  have hcfg₀ : e₀.kv.cfg = e.kv.cfg := by rw [hkv]; rfl
  have hkeeps : KeepsRows e.kv e₀.kv := by
    rw [hkv]
    exact ⟨rfl, rfl, rfl, rfl, rfl, rfl⟩
  -- every part of the context, after the decode steps
  have hdecoded : ∀ {κ β : Type} [DecidableEq κ] {view : DecodeStream → κ → β}
      {updates : Nat → Nat → LayerRow → List (Update κ β)}, View c e₀.kv.cfg view updates →
      e''.kv.slot_pos = mark_slots e.kv.cfg.window e.history.length rows.length e.kv.slot_pos ∧
        view e'' = apply (view e₀) ((List.range rows.length).flatMap fun j =>
          (List.range c.num_hidden_layers).flatMap fun L =>
            updates L (e₀.history.length + j) (a.batch.row L j)) := by
    intro κ β _ view updates hview
    have hrun := feed_view hview hserved.lists hcfg₀.symm hrow' hfed
    rw [hfeed, hcount, hcfg₀] at hrun
    rw [hview.keeps e e₀ hkeeps hdraft, hhistory]
    exact hrun
  have hend := (feed_ok hfed).1
  rw [hfeed] at hend
  have hhistory' : e'.history = e''.history := hemitted.history.trans hend.symm
  have hlen : e''.history.length = e.history.length + rows.length := by
    rw [hend, List.length_append, hcount]
  have hkeeps'' := (@feed_keeps c answers e (root :: rows.dropLast)).1
  rw [hfeed] at hkeeps''
  obtain ⟨hvals, hscales⟩ := htrace.vals hserved.lists
  refine ⟨hhistory', ?_, ?_, fun s hs => ?_, ?_, ?_⟩
  · rw [hvals, (hdecoded ring_vals_view).2]
  · rw [hscales, (hdecoded ring_scales_view).2]
  · have hs' : s < e₀.kv.cfg.window := by
      rw [htrace.store.1] at hs
      exact hs
    have hslots : e₀.kv.slot_pos = fun s =>
        resolved e₀.kv.cfg.window e₀.history.length s (e.kv.slot_pos s) := by
      rw [hkv, hhistory]
      rfl
    rw [htrace.slot_positions hserved.lists hslots hs', KvStore.resolve_ring]
    dsimp only
    rw [(hdecoded draft_view).1, hlen, hkeeps''.cfg, hcfg₀, hhistory]
  · rw [htrace.carry_state (hserved.congr hcfg₀) (by rw [hcfg₀]; exact hdim),
      (hdecoded (carry_view (by rw [hcfg₀]; exact hdim))).2]
  · rw [htrace.draft_window hserved.lists]
    exact ((hdecoded draft_view).2).symm

/-- A step that fails once the verification has started empties the context. -/
theorem verification_failed {e₀ e' : DecodeStream} {v : Verification} {err : Status}
    (hstart : start_verification c cfg a (tick e) root max_new = (.ok v, e₀))
    (h : speculative_step c steps cfg greedy a e root max_new stops = (.error err, e')) :
    EmptyContext e' ∧ e'.rest.draft = fun _ => {} := by
  unfold speculative_step at h
  rw [hstart] at h
  dsimp only at h
  unfold verify at h
  split at h
  · next err' e₁ hverified =>
    cases h
    exact ⟨reset_context_empty _ e₁, rfl⟩
  · cases h

/-- Speculative commit and sequential decode. When the answers of the decode steps have the rows of
    the batch, what a step leaves of the context is what the decode steps of the root and of the
    emitted tokens but the last leave, for every length of the context, draft, acceptance and set
    of stops; a step that fails once the verification has started leaves an empty context. -/
theorem speculative_commit (hserved : Served c e.kv) :
    (∀ (answers : Nat → StepAnswer) (rows : List Nat) (t : Nat) (e' e'' : DecodeStream),
      (∀ j < rows.length, ∀ L < c.num_hidden_layers,
        (answers (e.rest.calls + j)).row L = a.batch.row L j) →
      speculative_step c steps cfg greedy a e root max_new stops = (.ok rows, e') →
      feed c answers e (root :: rows.dropLast) = (.ok t, e'') → SameContext e' e'') ∧
    ∀ (v : Verification) (err : Status) (e₀ e' : DecodeStream),
      start_verification c cfg a (tick e) root max_new = (.ok v, e₀) →
      speculative_step c steps cfg greedy a e root max_new stops = (.error err, e') →
      EmptyContext e' ∧ e'.rest.draft = fun _ => {} :=
  ⟨fun _ _ _ _ _ hrow h hfeed => same_context hserved hrow h hfeed,
    fun _ _ _ _ hstart h => verification_failed hstart h⟩

end Equal

/-! #### A prompt that was prefilled on the GPU -/

/-- A window layer, and a source whose groups have two tokens. -/
def two_layers : TextConfig where
  num_hidden_layers := 2
  hidden_size := 1
  head_dim := 1
  index_head_dim := 1
  index_topk := 4
  sliding_window := 8
  vocab_size := 100
  compress_ratios := [0, 2]
  kv_source_layer_ids := [1]
  index_source_layer_ids := [1]
  dspark_target_layer_ids := [0]

theorem two_layers_window : 0 < two_layers.sliding_window := by decide

/-- One token, whose ring row was seeded. -/
def seeded_stream : DecodeStream where
  kv := {
    cfg := KvStoreConfig.for_model two_layers 16 16 two_layers_window
    valid := true
    cap := 16
    slot_pos := fun s => if s = 0 then kSlotUnknown else kSlotEmpty }
  history := [5]
  rest := { dspark_next := 1 }

/-- Token 7 is drafted and accepted, and 9 follows. -/
def accepted_draft : SpecAnswer where
  draft := .ok [{ token := 7 }]
  argmax := fun _ => 9
  batch := { row := fun L j => { win_val := fun _ => (10 * L + j).toUInt8 } }

/-- Decode steps with the rows of the batch. -/
def same_rows (call : Nat) : StepAnswer where
  row := fun L => accepted_draft.batch.row L call

theorem seeded_served : Served two_layers seeded_stream.kv where
  cfg := ⟨16, 16, two_layers_window, rfl⟩
  columns := by decide
  ratios := by
    intro L
    show [0, 2].getD L 0 ≤ 8
    rcases L with _ | _ | L
    · decide
    · decide
    · exact Nat.zero_le 8
  lists := ⟨0, by decide, .inl rfl⟩

theorem speculative_commit_seeded :
    SameContext (speculative_step two_layers same_rows {} true accepted_draft seeded_stream 6 3 []).2
      (feed two_layers same_rows seeded_stream [6, 7]).2 :=
  (speculative_commit seeded_served).1 same_rows [7, 9] 0 _ _
    (fun j _ L _ => congrArg (accepted_draft.batch.row L) (Nat.zero_add j)) (Prod.ext rfl rfl)
    (Prod.ext rfl rfl)

/-- The step settles the seeded slot; decode steps leave it open. -/
theorem seeded_slot_settled :
    (speculative_step two_layers same_rows {} true accepted_draft seeded_stream 6 3 []).1 =
        .ok [7, 9] ∧
      (feed two_layers same_rows seeded_stream [6, 7]).1 = .ok 0 ∧
      (∀ j L, (same_rows (seeded_stream.rest.calls + j)).row L = accepted_draft.batch.row L j) ∧
      (speculative_step two_layers same_rows {} true accepted_draft seeded_stream 6 3
        []).2.kv.slot_pos 0 ≠ (feed two_layers same_rows seeded_stream [6, 7]).2.kv.slot_pos 0 := by
  refine ⟨rfl, rfl, fun j L => ?_, by decide⟩
  exact congrArg (accepted_draft.batch.row L) (Nat.zero_add j)

end CachedMoe.Runtime
