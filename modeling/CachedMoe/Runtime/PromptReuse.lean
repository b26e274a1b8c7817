import CachedMoe.Runtime.SpecCommit

/-! # Prompts that are used again

    `retain_prompt_state`, `recover_prompt_state` and `reuse_prompt` of `runtime/engine.cpp`, and
    `rollback_context` of `runtime/session.cpp`: the window of a prompt is kept aside while its
    answer is generated, and put back when the same prompt comes again. A rollback to a prefix
    keeps the ring and replays what the next step misses of it.

    The diagnostics and the counts of a replay are left out. -/

namespace CachedMoe.Runtime

open CachedMoe KvStore Journal

/-! ### The operations -/

/-- `hidden` tells whether the draft window is allocated, `greedy` whether sampling is greedy. -/
def retain_prompt_state (greedy hidden : Bool) (first : Option Nat) (e : DecodeStream) :
    Result Unit × DecodeStream :=
  let e := { e with rest := { e.rest with prompt := { e.rest.prompt with first := none } } }
  match first with
  | none => (.ok (), e)
  | some first =>
    let n := e.history.length
    if ¬ greedy ∨ n > 8192 then (.ok (), e)
    else
      match e.kv.backup_rows n n with
      | .error err => (.error err, e)
      | .ok carry =>
        match e.kv.retain_prompt_ring n with
        | (.error err, kv) => (.error err, { e with kv := kv })
        | (.ok ring, kv) =>
          (.ok (), { e with
            kv := kv
            rest := { e.rest with prompt := {
              ring := some ring
              tokens := e.history
              first := some first
              draft := if hidden then some e.rest.draft else none
              carry := some carry } } })

/-- The draft slots of the retained positions, then the ring. -/
def recover_prompt_state (e : DecodeStream) (keep : Nat) : DecodeStream :=
  let rest := match e.rest.prompt.draft with
    | none => e.rest
    | some w =>
      let lo := if keep ≥ kSlidingWindow then keep - kSlidingWindow else 0
      { e.rest with
        draft := fun s =>
          if s < kSlidingWindow ∧ (lo : Int) ≤ (w s).position ∧ (w s).position < keep then w s
          else e.rest.draft s
        dspark_next := 0 }
  { e with kv := e.kv.recover_prompt_ring e.rest.prompt.ring keep, rest := rest }

/-- The prompt that was retained is this one, and the context starts with it. -/
def reusable (greedy : Bool) (e : DecodeStream) (tokens : List Nat) : Bool :=
  greedy && e.rest.prompt.first.isSome && e.rest.prompt.ring.isSome &&
    tokens == e.rest.prompt.tokens && tokens.isPrefixOf e.history

section Operations

variable (c : TextConfig) (steps : Nat → StepAnswer)

/-- The answer is the token that ended the prompt, or none when nothing can be used again. -/
def reuse_prompt (greedy : Bool) (e : DecodeStream) (tokens : List Nat) :
    Result (Option Nat) × DecodeStream :=
  if ¬ reusable greedy e tokens then (.ok none, e)
  else
    let first := e.rest.prompt.first
    let carry := e.rest.prompt.carry.getD { first_pos := 0, end_pos := 0, planes := [] }
    let e := recover_prompt_state e tokens.length
    match e.kv.restore_carry carry with
    | (.error err, kv) => (.error err, { e with kv := kv })
    | (.ok (), kv) =>
      match set_context_tokens (stream_parts c steps) { e with kv := kv } tokens with
      | (.error err, e) => (.error err, e)
      | (.ok (), e) => (.ok first, e)

def plan_rollback (e : DecodeStream) (keep replay_max : Nat) : ReplayPlan × DecodeStream :=
  let e := { e with kv := e.kv.resolve_ring e.history.length }
  (plan_ring e.kv keep replay_max, e)

def rollback_context (e : DecodeStream) (keep replay_max : Nat) :
    Result ReplayStats × DecodeStream :=
  let n := e.history.length
  if keep > n then
    (fail .InvalidArgument s!"rollback to {keep} tokens of a {n}-token context", e)
  else if keep % 2 = 1 then
    (fail .InvalidArgument (s!"rollback to {keep} tokens: the point must be even, so no " ++
      "ratio-2 group is left open (see runtime/session.h)"), e)
  else if keep = n then (.ok { plan := { keep := keep } }, e)
  else
    let (plan, e) := plan_rollback e keep replay_max
    match set_context_tokens (stream_parts c steps) e (e.history.take keep) with
    | (.error err, e) => (.error err, e)
    | (.ok (), e) =>
      match run_replay (replay_step c steps) e plan with
      | (.error err, e) => (.error err, e)
      | (.ok (), e) => (.ok { plan := plan }, e)

end Operations

/-! ### Ring rows -/

/-- A row of the ring: values and scales. -/
abbrev RingRow := List UInt8 × List UInt8

namespace KvStore

/-- The row of a layer in a slot. -/
def slot_row (kv : KvStore) (L s : Nat) : RingRow :=
  let r := kv.cfg.ring_row L s
  (Region.read kv.win_val (r * kv.cfg.latent_dim) kv.cfg.latent_dim,
    Region.read kv.win_scale (r * kv.cfg.window_scales) kv.cfg.window_scales)

/-- The row of a layer in a slot of the retained ring. -/
def PromptRing.row (p : PromptRing) (c : KvStoreConfig) (L s : Nat) : RingRow :=
  (snapshot_row p.ring.val (c.ring_row L s) c.latent_dim,
    snapshot_row p.ring.scale (c.ring_row L s) c.window_scales)

/-- The retained ring has whole rows. -/
def PromptRing.Whole (p : PromptRing) (c : KvStoreConfig) : Prop :=
  ∀ L < c.layers, ∀ s < c.window, (p.row c L s).1.length = c.latent_dim ∧
    (p.row c L s).2.length = c.window_scales

end KvStore

theorem slot_row_congr {kv kv' : KvStore} (hcfg : kv'.cfg = kv.cfg)
    (hval : kv'.win_val = kv.win_val) (hscale : kv'.win_scale = kv.win_scale) :
    kv'.slot_row = kv.slot_row := by
  funext L s
  rw [KvStore.slot_row, KvStore.slot_row, hcfg, hval, hscale]

theorem ring_row_slot {cfg : KvStoreConfig} {L L' s s' : Nat} (hs : s < cfg.window)
    (hs' : s' < cfg.window) (h : cfg.ring_row L s = cfg.ring_row L' s') : L = L' ∧ s = s' := by
  have hslot : s = s' := by rw [← ring_row_mod hs L, h, ring_row_mod hs' L']
  subst hslot
  have hrow : L * cfg.window + s = L' * cfg.window + s := h
  exact ⟨Nat.eq_of_mul_eq_mul_right cfg.window_pos (by omega), rfl⟩

/-! ### What a retained ring has -/

theorem retain_prompt_ring_keeps (kv : KvStore) (n : Nat) :
    (kv.retain_prompt_ring n).2 = kv.resolve_ring n := by
  unfold retain_prompt_ring
  dsimp only
  split <;> rfl

/-- The retained ring has the rows of the store, and the positions of its slots from the window
    floor on. -/
theorem retain_prompt_ring_ok {kv kv' : KvStore} {n : Nat} {p : PromptRing}
    (h : kv.retain_prompt_ring n = (.ok p, kv')) :
    (∀ L < kv.cfg.layers, ∀ s < kv.cfg.window, p.row kv.cfg L s = kv.slot_row L s) ∧
      p.slot_pos = fun s =>
        if 0 ≤ resolved kv.cfg.window n s (kv.slot_pos s) ∧
            resolved kv.cfg.window n s (kv.slot_pos s) < kv.win_lo then kSlotEmpty
        else resolved kv.cfg.window n s (kv.slot_pos s) := by
  unfold retain_prompt_ring at h
  dsimp only at h
  split at h
  · cases h
  next ring hsnap =>
  have hring := snapshot_ring_ok hsnap
  obtain ⟨rfl, _⟩ := Prod.mk.inj h |>.imp_left Except.ok.inj
  refine ⟨fun L hL s hs => ?_, rfl⟩
  subst ring
  have hlayer : (List.range kv.cfg.layers)[L]? = some L := by simp [hL]
  have hslot : (List.range kv.cfg.window)[s]? = some s := by simp [hs]
  have hval := @snapshot_bytes_row kv.cfg.latent_dim _ _ kv.cfg.ring_row kv.win_val _ _ _ _
    hlayer hslot
  have hscale := @snapshot_bytes_row kv.cfg.window_scales _ _ kv.cfg.ring_row kv.win_scale _ _ _ _
    hlayer hslot
  rw [List.length_range] at hval hscale
  rw [PromptRing.row, KvStore.slot_row, KvStoreConfig.ring_row]
  exact Prod.ext hval hscale

/-! ### Recovering a ring -/

/-- The positions of the window of a step at `keep` that the retained ring has, with their slots. -/
def retained (c : KvStoreConfig) (p : PromptRing) (keep : Nat) : List (Nat × Nat) :=
  (List.range' (need_lo c.window keep) (keep - need_lo c.window keep)).filterMap fun position =>
    (retained_slot c p position).map fun slot => (position, slot)

theorem mem_retained {c : KvStoreConfig} {p : PromptRing} {keep : Nat} {y : Nat × Nat} :
    y ∈ retained c p keep ↔ (need_lo c.window keep ≤ y.1 ∧ y.1 < keep) ∧
      p.slot_pos (y.1 % c.window) = y.1 ∧ y.2 = y.1 % c.window := by
  have hlo : need_lo c.window keep ≤ keep := by
    unfold need_lo
    split <;> omega
  unfold retained retained_slot
  rw [List.mem_filterMap]
  constructor
  · rintro ⟨x, hx, hslot⟩
    rw [List.mem_range'_1] at hx
    split at hslot
    · next hpos =>
      cases hslot
      exact ⟨show need_lo c.window keep ≤ x ∧ x < keep by omega, hpos, rfl⟩
    · cases hslot
  · rintro ⟨hx, hpos, hslot⟩
    refine ⟨y.1, List.mem_range'_1.mpr (by omega), ?_⟩
    rw [if_pos hpos, ← hslot]
    rfl

/-- What recovering does to the ring: the slots of the retained positions of the window have them
    back, the others are left. -/
structure Recovered (kv kv' : KvStore) (p : PromptRing) (keep : Nat) : Prop where
  cfg : kv'.cfg = kv.cfg
  valid : kv'.valid = kv.valid
  taken : ∀ x, need_lo kv.cfg.window keep ≤ x → x < keep → p.slot_pos (x % kv.cfg.window) = x →
    kv'.slot_pos (x % kv.cfg.window) = x ∧
      ∀ L < kv.cfg.layers, kv'.slot_row L (x % kv.cfg.window) = p.row kv.cfg L (x % kv.cfg.window)
  left : ∀ s < kv.cfg.window,
    (∀ x, need_lo kv.cfg.window keep ≤ x → x < keep → p.slot_pos (x % kv.cfg.window) = x →
      x % kv.cfg.window ≠ s) →
    kv'.slot_pos s = kv.slot_pos s ∧ ∀ L < kv.cfg.layers, kv'.slot_row L s = kv.slot_row L s

section Recover

variable {cfg : KvStoreConfig} {p : PromptRing}

/-- The rows of some slots are set to those of a table. -/
def recover_updates (c : KvStoreConfig) (row : Nat → List UInt8) (ys : List (Nat × Nat)) :
    List (Update Nat (List UInt8)) :=
  ys.flatMap fun y => (List.range c.layers).map fun l =>
    Update.put (c.ring_row l y.2) (row (c.ring_row l y.2))

theorem recover_updates_taken (row t : Nat → List UInt8) {ys : List (Nat × Nat)} {y : Nat × Nat}
    (hy : y ∈ ys) {L : Nat} (hL : L < cfg.layers) :
    apply t (recover_updates cfg row ys) (cfg.ring_row L y.2) = row (cfg.ring_row L y.2) := by
  have hput : Update.put (cfg.ring_row L y.2) (row (cfg.ring_row L y.2)) ∈
      recover_updates cfg row ys :=
    List.mem_flatMap.mpr ⟨y, hy, List.mem_map.mpr ⟨L, List.mem_range.mpr hL, rfl⟩⟩
  refine apply_put ⟨_, hput, rfl⟩ (fun u hu hkey _ => ?_) t
  -- the key names the row
  obtain ⟨y', _, hu⟩ := List.mem_flatMap.mp hu
  obtain ⟨L', _, rfl⟩ := List.mem_map.mp hu
  exact congrArg row hkey

theorem recover_updates_left (row t : Nat → List UInt8) {ys : List (Nat × Nat)}
    (hys : ∀ y ∈ ys, y.2 < cfg.window) {s : Nat} (hs : s < cfg.window)
    (hfree : ∀ y ∈ ys, y.2 ≠ s) (L : Nat) :
    apply t (recover_updates cfg row ys) (cfg.ring_row L s) = t (cfg.ring_row L s) := by
  refine apply_of_ne (fun u hu hkey => ?_) t
  obtain ⟨y, hy, hu⟩ := List.mem_flatMap.mp hu
  obtain ⟨L', _, rfl⟩ := List.mem_map.mp hu
  exact hfree y hy (ring_row_slot (hys y hy) hs hkey).2

/-- The loop over layers writes the rows of one slot. -/
theorem recover_rows (cfg : KvStoreConfig) (row : Nat → List UInt8) {d : Nat} (y : Nat × Nat)
    (hrow : ∀ L < cfg.layers, (row (cfg.ring_row L y.2)).length = d) (m : Nat → UInt8) :
    (fun r => Region.read ((List.range cfg.layers).foldl (fun m l =>
      Region.write m (cfg.ring_row l y.2 * d) (row (cfg.ring_row l y.2))) m) (r * d) d) =
      apply (fun r => Region.read m (r * d) d) (recover_updates cfg row [y]) := by
  rw [Region.read_foldl_write_row (f := fun l => cfg.ring_row l y.2)
    (v := fun l => row (cfg.ring_row l y.2)) (fun l hl => hrow l (List.mem_range.mp hl)), apply,
    recover_updates, List.flatMap_cons, List.flatMap_nil, List.append_nil, List.foldl_map]
  rfl

/-- A loop over retained positions, as updates of tables of rows and of slots. -/
theorem recover_table {kv : KvStore} {ys : List (Nat × Nat)} (hcfg : kv.cfg = cfg)
    (hys : ∀ y ∈ ys, y.2 < cfg.window) (hwhole : p.Whole cfg) :
    let kv' := ys.foldl (fun kv y => recover_slot p kv y.1 y.2) kv
    (kv'.cfg = cfg ∧ kv'.valid = kv.valid) ∧
      (fun r => Region.read kv'.win_val (r * cfg.latent_dim) cfg.latent_dim) =
        apply (fun r => Region.read kv.win_val (r * cfg.latent_dim) cfg.latent_dim)
          (recover_updates cfg (fun r => snapshot_row p.ring.val r cfg.latent_dim) ys) ∧
      (fun r => Region.read kv'.win_scale (r * cfg.window_scales) cfg.window_scales) =
        apply (fun r => Region.read kv.win_scale (r * cfg.window_scales) cfg.window_scales)
          (recover_updates cfg (fun r => snapshot_row p.ring.scale r cfg.window_scales) ys) ∧
      kv'.slot_pos = apply kv.slot_pos (ys.map fun y => Update.put y.2 (y.1 : Int)) := by
  induction ys generalizing kv with
  | nil => exact ⟨⟨hcfg, rfl⟩, rfl, rfl, rfl⟩
  | cons y ys ih =>
    have hcfg₁ : (recover_slot p kv y.1 y.2).cfg = cfg := hcfg
    obtain ⟨hkeeps, hval, hscale, hslot⟩ :=
      ih hcfg₁ fun y' hy' => hys y' (List.mem_cons_of_mem _ hy')
    have hy := hys y List.mem_cons_self
    have hcons : ∀ row, recover_updates cfg row (y :: ys) =
        recover_updates cfg row [y] ++ recover_updates cfg row ys := by
      intro row
      rw [← List.singleton_append]
      exact List.flatMap_append
    refine ⟨hkeeps, ?_, ?_, hslot⟩
    · have hone := recover_rows cfg (fun r => snapshot_row p.ring.val r cfg.latent_dim) y
        (fun L hL => (hwhole L hL y.2 hy).1) kv.win_val
      rw [hcons, apply_append, ← hone]
      rw [← hcfg] at hval ⊢
      exact hval
    · have hone := recover_rows cfg (fun r => snapshot_row p.ring.scale r cfg.window_scales)
        y (fun L hL => (hwhole L hL y.2 hy).2) kv.win_scale
      rw [hcons, apply_append, ← hone]
      rw [← hcfg] at hscale ⊢
      exact hscale

theorem need_lo_eq {w keep : Nat} (hw : 0 < w) :
    (if keep ≥ w then keep - w + 1 else 0) = need_lo w keep := by
  unfold need_lo
  split <;> split <;> omega

/-- The floor apart, recovering is the loop over the retained positions. -/
theorem recover_prompt_ring_eq (kv : KvStore) (p : PromptRing) (keep : Nat) :
    ∃ win_lo, kv.recover_prompt_ring (some p) keep =
      { (retained kv.cfg p keep).foldl (fun kv y => recover_slot p kv y.1 y.2) kv with
        win_lo := win_lo } := by
  unfold recover_prompt_ring
  dsimp only
  rw [need_lo_eq kv.cfg.window_pos]
  show ∃ win_lo, (if retained kv.cfg p keep = [] then _ else _) = _
  split
  · exact ⟨_, rfl⟩
  · exact ⟨_, rfl⟩

theorem recover_prompt_ring_spec {kv : KvStore} {p : PromptRing} (keep : Nat)
    (hwhole : p.Whole kv.cfg) : Recovered kv (kv.recover_prompt_ring (some p) keep) p keep := by
  obtain ⟨win_lo, heq⟩ := recover_prompt_ring_eq kv p keep
  have hslots : ∀ y ∈ retained kv.cfg p keep, y.2 < kv.cfg.window := by
    intro y hy
    rw [(mem_retained.mp hy).2.2]
    exact Nat.mod_lt _ kv.cfg.window_pos
  obtain ⟨⟨hcfg, hvalid⟩, hval, hscale, hpos⟩ := recover_table rfl hslots hwhole
  rw [heq]
  generalize (retained kv.cfg p keep).foldl _ kv = kv₁ at hcfg hvalid hval hscale hpos ⊢
  have hrow : ∀ L s, KvStore.slot_row { kv₁ with win_lo := win_lo } L s =
      (apply (fun r => Region.read kv.win_val (r * kv.cfg.latent_dim) kv.cfg.latent_dim)
          (recover_updates kv.cfg (fun r => snapshot_row p.ring.val r kv.cfg.latent_dim)
            (retained kv.cfg p keep)) (kv.cfg.ring_row L s),
        apply (fun r => Region.read kv.win_scale (r * kv.cfg.window_scales) kv.cfg.window_scales)
          (recover_updates kv.cfg (fun r => snapshot_row p.ring.scale r kv.cfg.window_scales)
            (retained kv.cfg p keep)) (kv.cfg.ring_row L s)) := by
    intro L s
    rw [← hval, ← hscale, KvStore.slot_row]
    dsimp only
    rw [hcfg]
  refine ⟨hcfg, hvalid, fun x hx hxk hret => ?_, fun s hs hfree => ?_⟩
  · have hmem : (x, x % kv.cfg.window) ∈ retained kv.cfg p keep :=
      mem_retained.mpr ⟨⟨hx, hxk⟩, hret, rfl⟩
    refine ⟨?_, fun L hL => ?_⟩
    · show kv₁.slot_pos _ = _
      rw [hpos]
      refine apply_put ⟨_, List.mem_map.mpr ⟨_, hmem, rfl⟩, rfl⟩ ?_ _
      intro u hu hkey _
      -- the retained ring has one position in a slot
      obtain ⟨y, hy, rfl⟩ := List.mem_map.mp hu
      obtain ⟨_, hyret, hyslot⟩ := mem_retained.mp hy
      have hkey' : y.2 = x % kv.cfg.window := hkey
      rw [← hyslot, hkey', hret] at hyret
      exact hyret.symm
    · rw [hrow, PromptRing.row]
      exact Prod.ext (recover_updates_taken _ _ hmem hL) (recover_updates_taken _ _ hmem hL)
  · have hfree' : ∀ y ∈ retained kv.cfg p keep, y.2 ≠ s := by
      intro y hy heq
      obtain ⟨hyx, hyret, hyslot⟩ := mem_retained.mp hy
      exact hfree y.1 hyx.1 hyx.2 hyret (hyslot.symm.trans heq)
    refine ⟨?_, fun L _ => ?_⟩
    · show kv₁.slot_pos s = _
      rw [hpos]
      refine apply_of_ne (fun u hu hkey => ?_) _
      obtain ⟨y, hy, rfl⟩ := List.mem_map.mp hu
      exact hfree' y hy hkey
    · rw [hrow, KvStore.slot_row]
      exact Prod.ext (recover_updates_left _ _ hslots hs hfree' L)
        (recover_updates_left _ _ hslots hs hfree' L)

end Recover

/-! ### What the operations leave -/

section Left

variable {c : TextConfig} {steps : Nat → StepAnswer} {e e' : DecodeStream}

/-- Retaining resolves the ring, or leaves it; the retained prompt is the history, or nothing is
    retained. -/
theorem retain_prompt_state_spec (greedy hidden : Bool) (first : Option Nat) (e : DecodeStream) :
    (∃ kv, (kv = e.kv ∨ kv = e.kv.resolve_ring e.history.length) ∧
      (retain_prompt_state greedy hidden first e).2 = { e with
        kv := kv
        rest := { e.rest with prompt := { e.rest.prompt with first := none } } }) ∨
    ∃ ring p, p.ring = some ring ∧ p.tokens = e.history ∧
      e.kv.retain_prompt_ring e.history.length =
        (.ok ring, e.kv.resolve_ring e.history.length) ∧
      (retain_prompt_state greedy hidden first e).2 = { e with
        kv := e.kv.resolve_ring e.history.length
        rest := { e.rest with prompt := p } } := by
  unfold retain_prompt_state
  cases first with
  | none => exact .inl ⟨e.kv, .inl rfl, rfl⟩
  | some first =>
    dsimp only
    split
    · exact .inl ⟨e.kv, .inl rfl, rfl⟩
    split
    · exact .inl ⟨e.kv, .inl rfl, rfl⟩
    next carry _ =>
    have hkeeps := retain_prompt_ring_keeps e.kv e.history.length
    cases hring : e.kv.retain_prompt_ring e.history.length with
    | mk r kv =>
      rw [hring] at hkeeps
      dsimp only at hkeeps ⊢
      subst hkeeps
      cases r with
      | error err => exact .inl ⟨_, .inr rfl, rfl⟩
      | ok ring => exact .inr ⟨ring, _, rfl, rfl, rfl, rfl⟩

theorem set_context_tokens_ok {tokens : List Nat}
    (h : set_context_tokens (stream_parts c steps) e tokens = (.ok (), e')) :
    e' = { e with
      history := tokens
      rest := truncate_prompt e.rest <| common_prefix tokens e.history } := by
  unfold set_context_tokens at h
  dsimp only at h
  split at h
  · cases h
  split at h
  · cases h
  · cases h
    rfl

/-- A prompt that is used again: its window is recovered, and it is the context. -/
theorem reuse_prompt_ok {greedy : Bool} {tokens : List Nat} {first : Option Nat}
    (h : reuse_prompt c steps greedy e tokens = (.ok first, e')) :
    e' = e ∨ ∃ ring state rest, reusable greedy e tokens = true ∧
      e.rest.prompt.ring = some ring ∧ e.rest.prompt.tokens = tokens ∧ tokens <+: e.history ∧
      rest.prompt = e.rest.prompt ∧ rest.produce_ced = e.rest.produce_ced ∧
      e' = {
        kv := { e.kv.recover_prompt_ring (some ring) tokens.length with state := state }
        history := tokens
        rest := truncate_prompt rest <| common_prefix tokens e.history } := by
  unfold reuse_prompt at h
  split at h
  · cases h
    exact .inl rfl
  next hreusable =>
  -- the ring is recovered first, then the carries, then the context
  right
  have hreusable' := not_not.mp hreusable
  have hguard := hreusable'
  simp only [reusable, Bool.and_eq_true, Option.isSome_iff_exists, beq_iff_eq,
    List.isPrefixOf_iff_prefix] at hguard
  obtain ⟨⟨⟨_, ring, hring⟩, htokens⟩, hprefix⟩ := hguard
  dsimp only at h
  obtain ⟨state, hstate⟩ := restore_carry_keeps (recover_prompt_state e tokens.length).kv
    (e.rest.prompt.carry.getD { first_pos := 0, end_pos := 0, planes := [] })
  generalize (recover_prompt_state e tokens.length).kv.restore_carry _ = res at h hstate
  obtain ⟨r, kv⟩ := res
  obtain rfl : kv = _ := hstate
  cases r with
  | error err => cases h
  | ok _ =>
    dsimp only at h
    split at h
    · cases h
    next e₁ hset =>
    cases h
    have hkv : (recover_prompt_state e tokens.length).kv =
        e.kv.recover_prompt_ring (some ring) tokens.length := by
      rw [← hring]
      rfl
    refine ⟨ring, state, (recover_prompt_state e tokens.length).rest, hreusable', hring,
      htokens.symm, hprefix, ?_, ?_, ?_⟩
    · unfold recover_prompt_state
      dsimp only
      split <;> rfl
    · unfold recover_prompt_state
      dsimp only
      split <;> rfl
    · rw [set_context_tokens_ok hset, hkv]
      rfl

/-- A rollback that goes through: nothing was to be dropped, or the context is the prefix and the
    ring, resolved, was replayed. -/
theorem rollback_context_ok {keep replay_max : Nat} {st : ReplayStats}
    (h : rollback_context c steps e keep replay_max = (.ok st, e')) :
    (e' = e ∧ keep = e.history.length ∧ st.plan.steps = 0) ∨
      keep < e.history.length ∧ ∃ common,
        st.plan = plan_ring (e.kv.resolve_ring e.history.length) keep replay_max ∧
        run_replay (replay_step c steps) {
          kv := e.kv.resolve_ring e.history.length
          history := e.history.take keep
          rest := truncate_prompt e.rest common } st.plan = (.ok (), e') := by
  unfold rollback_context at h
  dsimp only at h
  split at h
  · cases h
  split at h
  · cases h
  split at h
  next hall =>
    cases h
    exact .inl ⟨rfl, hall, rfl⟩
  next hle _ hne =>
  refine .inr ⟨by omega, common_prefix (e.history.take keep) e.history, ?_⟩
  unfold plan_rollback at h
  dsimp only at h
  split at h
  · cases h
  next e₁ hset =>
  have hstate := set_context_tokens_ok hset
  split at h
  · cases h
  next e₂ hreplay =>
  cases h
  refine ⟨rfl, ?_⟩
  rw [hstate] at hreplay
  exact hreplay

end Left

end CachedMoe.Runtime
