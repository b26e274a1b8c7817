import CachedMoe.Framework.System
import CachedMoe.Runtime.WindowRing

/-! # The window ring over a session

    A session takes decode steps and speculative steps, resolves its ring, retains a prompt and
    uses it again, rolls back and resets. A run starts with an empty context, or with a prompt that
    was prefilled.

    What each operation leaves of the slots, of the window that the next step lists, and of the
    retained prompt. A step that fails on the way is one the caller drops or resets. -/

namespace CachedMoe.Runtime

open CachedMoe KvStore

/-! ### Runs -/

/-- The rows that a step has left in the ring for the last one of the tokens. -/
structure RingCommit where
  tokens : List Nat
  rows : Nat → RingRow

/-- The commits of `n` positions from `p` on, with the tokens of the history before them. -/
def commits_of (cfg : KvStoreConfig) (history : List Nat) (p n : Nat)
    (row : Nat → Nat → LayerRow) : List RingCommit :=
  (List.range n).map fun j =>
    { tokens := history.take (p + j + 1), rows := fun L => ring_row_of cfg (row L j) }

/-- A session, with all that was committed in it. -/
structure RingRun where
  stream : DecodeStream
  commits : List RingCommit := []

namespace RingRun

/-- The slot has the rows of position `x` in every layer; when the position is in the context,
    they are rows for the tokens of the context. -/
def slot_holds (c : TextConfig) (r : RingRun) (s x : Nat) : Prop :=
  ∃ k ∈ r.commits, k.tokens.length = x + 1 ∧
    (x < r.stream.history.length → k.tokens = r.stream.history.take (x + 1)) ∧
    ∀ L < c.num_hidden_layers, r.stream.kv.slot_row L s = k.rows L

inductive Action where
  | decode (token : Nat)
  | speculate (cfg : SpeculationConfig) (greedy : Bool) (a : SpecAnswer) (root max_new : Nat)
      (stops : List Nat)
  | resolve
  | retain (greedy hidden : Bool) (first : Option Nat)
  | reuse (greedy : Bool) (tokens : List Nat)
  | rollback (keep replay_max : Nat)
  | reset

section System

variable (c : TextConfig) (steps : Nat → StepAnswer)

/-- A speculative step may fail, the other operations go through. -/
def step (r : RingRun) : Action → Option RingRun
  | .decode token =>
    let n := r.stream.history.length
    match decode_step c steps r.stream token n with
    | (.error _, _) => none
    | (.ok _, e) => some {
        stream := e
        commits := commits_of r.stream.kv.cfg e.history n 1
          (fun L _ => (steps r.stream.rest.calls).row L) ++ r.commits }
  | .speculate cfg greedy a root max_new stops =>
    let n := r.stream.history.length
    match speculative_step c steps cfg greedy a r.stream root max_new stops with
    | (.error _, e) => some { r with stream := e }
    | (.ok rows, e) => some {
        stream := e
        commits := commits_of r.stream.kv.cfg e.history n rows.length a.batch.row ++ r.commits }
  | .resolve => some { r with
      stream := { r.stream with kv := r.stream.kv.resolve_ring r.stream.history.length } }
  | .retain greedy hidden first => some { r with
      stream := (retain_prompt_state greedy hidden first r.stream).2 }
  | .reuse greedy tokens =>
    match reuse_prompt c steps greedy r.stream tokens with
    | (.error _, _) => none
    | (.ok _, e) => some { r with stream := e }
  | .rollback keep replay_max =>
    match rollback_context c steps r.stream keep replay_max with
    | (.error _, _) => none
    | (.ok st, e) => some {
        stream := e
        commits := commits_of r.stream.kv.cfg e.history st.plan.first st.plan.steps
          (fun L i => (steps (r.stream.rest.calls + i)).row L) ++ r.commits }
  | .reset => some { r with stream := reset_context (stream_parts c steps) r.stream }

/-- What a reset leaves, or a prefill of the history: nothing is masked or retained, and the first
    slots, as many as there are tokens, have seeded rows of the last positions. -/
structure Loaded (r : RingRun) : Prop where
  served : Served c r.stream.kv
  valid : r.stream.kv.valid = true
  produce_ced : r.stream.rest.produce_ced = true
  win_lo : r.stream.kv.win_lo = 0
  prompt : r.stream.rest.prompt.ring = none
  slots : ∀ s < r.stream.kv.cfg.window, r.stream.kv.slot_pos s =
    if s < r.stream.history.length then kSlotUnknown else kSlotEmpty
  rows : ∀ s x : Nat, s < r.stream.kv.cfg.window →
    ring_slot_position s r.stream.history.length r.stream.kv.cfg.window = x → r.slot_holds c s x

def ring_system : LTS.System RingRun Action := LTS.System.ofNext (Loaded c) (step c steps)

/-! ### What is claimed -/

/-- Each slot is empty, or has the position whose rows it holds. -/
def SlotsExact (r : RingRun) : Prop :=
  SlotsHeld r.stream.kv.cfg.window r.stream.history.length r.stream.kv.slot_pos (r.slot_holds c)

/-- The action makes lists, for the last position of the context it leaves. -/
def Lists (r : RingRun) : Action → Prop
  | .decode _ => True
  | .speculate cfg greedy a root max_new stops =>
    ∃ rows, (speculative_step c steps cfg greedy a r.stream root max_new stops).1 = .ok rows
  | _ => False

/-- Every slot that is listed for a step at `p` holds the position that its entry stands for. -/
def ListsHeld (r : RingRun) (p : Nat) : Prop :=
  ∀ L < c.num_hidden_layers, c.lists L → ∀ i < r.stream.kv.cfg.window,
    r.stream.kv.top L i ≠ -1 →
      ∃ x : Nat, (x : Int) = (p : Int) - ((r.stream.kv.cfg.window : Int) - 1 - (i : Int)) ∧
        r.stream.kv.top L i = (x % r.stream.kv.cfg.window : Nat) ∧
        (r.stream.kv.resolve_ring r.stream.history.length).slot_pos
          (x % r.stream.kv.cfg.window) = x ∧
        r.slot_holds c (x % r.stream.kv.cfg.window) x

/-- The retained ring, or the ring itself, has the position. -/
def has_position (e : DecodeStream) (x : Nat) : Bool :=
  (e.rest.prompt.ring.any fun p => p.slot_pos (x % e.kv.cfg.window) == (x : Int)) ||
    e.kv.slot_pos (x % e.kv.cfg.window) == (x : Int)

/-- Where a prompt is used again, the whole window of the step after it is there. -/
def Covered (r : RingRun) : Action → Prop
  | .reuse greedy tokens => reusable greedy r.stream tokens = true →
      ∀ x < tokens.length, need_lo r.stream.kv.cfg.window tokens.length ≤ x →
        has_position r.stream x = true
  | _ => True

instance (r : RingRun) : (l : Action) → Decidable (Covered r l)
  | .reuse greedy tokens => inferInstanceAs (Decidable (reusable greedy r.stream tokens = true →
      ∀ x < tokens.length, need_lo r.stream.kv.cfg.window tokens.length ≤ x →
        has_position r.stream x = true))
  | .decode _ => .isTrue trivial
  | .speculate _ _ _ _ _ _ => .isTrue trivial
  | .resolve => .isTrue trivial
  | .retain _ _ _ => .isTrue trivial
  | .rollback _ _ => .isTrue trivial
  | .reset => .isTrue trivial

end System

/-! ### The books -/

/-- The slots of a session and of its retained prompt. -/
structure PromptHeld (c : TextConfig) (r : RingRun) (p : PromptRing) : Prop where
  whole : p.Whole r.stream.kv.cfg
  /-- The ring was resolved, and no prompt was prefilled since. -/
  known : ∀ s < r.stream.kv.cfg.window, r.stream.kv.slot_pos s ≠ kSlotUnknown
  rows : ∀ x : Nat, x < r.stream.rest.prompt.tokens.length →
    p.slot_pos (x % r.stream.kv.cfg.window) = x → ∃ k ∈ r.commits,
      k.tokens = r.stream.rest.prompt.tokens.take (x + 1) ∧
      ∀ L < c.num_hidden_layers, p.row r.stream.kv.cfg L (x % r.stream.kv.cfg.window) = k.rows L

structure Books (c : TextConfig) (r : RingRun) : Prop where
  served : Served c r.stream.kv
  valid : r.stream.kv.valid = true
  produce_ced : r.stream.rest.produce_ced = true
  slots : r.SlotsExact c
  prompt : ∀ p, r.stream.rest.prompt.ring = some p → PromptHeld c r p

/-- The positions that a step at the end of the context lists are in their slots. -/
def WindowKept (r : RingRun) : Prop :=
  WindowHeld r.stream.kv.cfg.window r.stream.history.length r.stream.kv.win_lo
    r.stream.kv.slot_pos

section Kept

variable {c : TextConfig} {steps : Nat → StepAnswer} {r : RingRun}

theorem Books.layers (h : Books c r) : r.stream.kv.cfg.layers = c.num_hidden_layers := by
  obtain ⟨max_context, initial_context, hwindow, hcfg⟩ := h.served.cfg
  rw [hcfg]
  rfl

/-- A slot that keeps its rows still has them for a position whose tokens stay. -/
theorem slot_holds.mono {r' : RingRun} {s x : Nat} (h : r.slot_holds c s x)
    (hcommits : r.commits ⊆ r'.commits)
    (htokens : x < r'.stream.history.length → x < r.stream.history.length ∧
      r'.stream.history.take (x + 1) = r.stream.history.take (x + 1))
    (hrows : ∀ L < c.num_hidden_layers, r'.stream.kv.slot_row L s = r.stream.kv.slot_row L s) :
    r'.slot_holds c s x := by
  obtain ⟨k, hk, hlen, hlead, hkrows⟩ := h
  refine ⟨k, hcommits hk, hlen, fun hlt => ?_, fun L hL => (hrows L hL).trans (hkrows L hL)⟩
  obtain ⟨hlt', htake⟩ := htokens hlt
  rw [htake, hlead hlt']

/-- What is retained of a prompt stays while its ring has no seeded slot. -/
theorem PromptHeld.mono {p : PromptRing} (h : PromptHeld c r p) {r' : RingRun}
    (hcfg : r'.stream.kv.cfg = r.stream.kv.cfg)
    (htokens : r'.stream.rest.prompt.tokens = r.stream.rest.prompt.tokens)
    (hcommits : r.commits ⊆ r'.commits)
    (hknown : ∀ s < r.stream.kv.cfg.window, r'.stream.kv.slot_pos s ≠ kSlotUnknown) :
    PromptHeld c r' p := by
  refine ⟨?_, ?_, ?_⟩
  · rw [hcfg]
    exact h.whole
  · rw [hcfg]
    exact hknown
  · rw [hcfg, htokens]
    intro x hx hret
    obtain ⟨k, hk, hrows⟩ := h.rows x hx hret
    exact ⟨k, hcommits hk, hrows⟩

theorem Loaded.books (h : Loaded c r) : Books c r where
  served := h.served
  valid := h.valid
  produce_ced := h.produce_ced
  slots := by
    intro s hs
    rw [h.slots s hs]
    by_cases hseeded : s < r.stream.history.length
    · right
      rw [if_pos hseeded]
      have hpos : ring_slot_position s r.stream.history.length r.stream.kv.cfg.window =
          ((s + (r.stream.history.length - 1 - s) / r.stream.kv.cfg.window *
            r.stream.kv.cfg.window : Nat) : Int) := by
        rw [ring_slot_position, if_neg (by omega)]
        omega
      refine ⟨_, ?_, ?_, h.rows s _ hs hpos⟩
      · rw [resolved, if_neg (not_not.mpr rfl), hpos, if_neg (by omega)]
      · rw [Nat.add_mul_mod_self_right, Nat.mod_eq_of_lt hs]
    · left
      rw [if_neg hseeded]
      rfl
  prompt := by
    intro p hp
    rw [h.prompt] at hp
    cases hp

theorem Loaded.window (h : Loaded c r) : r.WindowKept := by
  intro x _ hx hxn
  have hw := r.stream.kv.cfg.window_pos
  have hle := Nat.mod_le x r.stream.kv.cfg.window
  rw [h.slots _ (Nat.mod_lt x hw), if_pos (by omega), resolved, if_neg (not_not.mpr rfl),
    ring_slot_position_last hw hx hxn, if_neg (by omega)]

/-! ### Written positions -/

theorem mem_commits_of {cfg : KvStoreConfig} {history : List Nat} {p n j : Nat}
    {row : Nat → Nat → LayerRow} (hj : j < n) :
    { tokens := history.take (p + j + 1), rows := fun L => ring_row_of cfg (row L j) } ∈
      commits_of cfg history p n row :=
  List.mem_map.mpr ⟨j, List.mem_range.mpr hj, rfl⟩

/-- A step that appends `n` positions to the context. -/
structure Appended (c : TextConfig) (r : RingRun) (e : DecodeStream) (n : Nat)
    (row : Nat → Nat → LayerRow) : Prop where
  keeps : KeepsStream r.stream e
  prompt : e.rest.prompt = r.stream.rest.prompt
  history : r.stream.history <+: e.history
  length : e.history.length = r.stream.history.length + n
  some : 0 < n
  fits : n ≤ r.stream.kv.cfg.window
  wrote : Wrote c r.stream.kv e.kv r.stream.history.length n row

theorem Books.write (h : Books c r) {e : DecodeStream} {n : Nat} {row : Nat → Nat → LayerRow}
    (ha : Appended c r e n row) :
    Books c {
      stream := e
      commits := commits_of r.stream.kv.cfg e.history r.stream.history.length n row ++
        r.commits } where
  served := h.served.congr ha.keeps.cfg
  valid := ha.keeps.valid.trans h.valid
  produce_ced := ha.keeps.produce_ced.trans h.produce_ced
  slots := by
    unfold SlotsExact
    dsimp only
    rw [ha.keeps.cfg, ha.length]
    refine h.slots.write ha.fits ha.wrote.slots (fun j hj => ?_) fun s hs hfree x hx hheld => ?_
    · refine ⟨_, List.mem_append_left _ (mem_commits_of hj), ?_, fun _ => rfl,
        fun L hL => ha.wrote.written j hj L hL⟩
      dsimp only
      rw [List.length_take, ha.length]
      omega
    · refine hheld.mono (List.subset_append_right _ _) (fun hlt => ?_) (ha.wrote.kept s hs hfree)
      dsimp only at hlt ⊢
      rw [ha.length] at hlt
      by_cases hold : x < r.stream.history.length
      · obtain ⟨rest, hrest⟩ := ha.history
        rw [← hrest, List.take_append_of_le_length hold]
        exact ⟨hold, rfl⟩
      · -- a position of the step has the slot of the step
        refine absurd ?_ (hfree (x - r.stream.history.length) (by omega))
        rw [Nat.add_sub_cancel' (Nat.le_of_not_lt hold), hx]
  prompt := by
    intro p hp
    have hheld := h.prompt p (by rwa [ha.prompt] at hp)
    refine hheld.mono ha.keeps.cfg (by rw [ha.prompt]) (List.subset_append_right _ _) ?_
    exact fun s hs hunknown => hheld.known s hs (ha.wrote.settled s hs hunknown)

theorem WindowKept.write (h : r.WindowKept) {e : DecodeStream} {n : Nat}
    {row : Nat → Nat → LayerRow} (ha : Appended c r e n row) (ks : List RingCommit) :
    WindowKept { stream := e, commits := ks } := by
  unfold WindowKept
  dsimp only
  rw [ha.keeps.cfg, ha.length, ha.wrote.floor]
  exact WindowHeld.write h r.stream.kv.cfg.window_pos ha.fits ha.wrote.slots

/-- The positions that a step lists are in their slots once it is done. -/
theorem WindowKept.listed (h : r.WindowKept) {e : DecodeStream} {n : Nat}
    {row : Nat → Nat → LayerRow} (ha : Appended c r e n row) {x : Nat}
    (hlo : r.stream.kv.win_lo ≤ x) (hx : x < r.stream.history.length + n)
    (hspan : r.stream.history.length + n ≤ x + r.stream.kv.cfg.window) :
    resolved r.stream.kv.cfg.window (r.stream.history.length + n) (x % r.stream.kv.cfg.window)
      (e.kv.slot_pos (x % r.stream.kv.cfg.window)) = x := by
  have hslot := Nat.mod_lt x r.stream.kv.cfg.window_pos
  have hpos := ha.some
  rw [ha.wrote.slots _ hslot]
  by_cases hnew : r.stream.history.length ≤ x
  · obtain ⟨j, rfl⟩ := Nat.exists_eq_add_of_le hnew
    rw [mark_slots_self ha.fits (by omega), resolved_position]
  · have hfree : ∀ j < n, (r.stream.history.length + j) % r.stream.kv.cfg.window ≠
        x % r.stream.kv.cfg.window :=
      fun j hj => (ring_slot_ne (by omega) (by omega)).symm
    rw [mark_slots_of_ne hfree, resolved_add hslot hfree]
    refine h x hlo ?_ (by omega)
    unfold need_lo
    split <;> omega

/-- The lists of a step hold once it is done. -/
theorem WindowKept.lists_held (hwin : r.WindowKept) {e : DecodeStream} {n : Nat}
    {row : Nat → Nat → LayerRow} (ha : Appended c r e n row) {ks : List RingCommit}
    (hbooks : Books c { stream := e, commits := ks }) :
    ListsHeld c { stream := e, commits := ks } (e.history.length - 1) := by
  have hpos := ha.some
  have hlength := ha.length
  intro L hL hlists i hi hlisted
  dsimp only at hi hlisted ⊢
  rw [ha.wrote.cfg] at hi ⊢
  have hentry := ha.wrote.listed L hL hlists i hi
  rw [hentry] at hlisted ⊢
  have hfloor : (r.stream.kv.win_lo : Int) ≤ ((r.stream.history.length + n - 1 : Nat) : Int) -
      ((r.stream.kv.cfg.window : Int) - 1 - (i : Int)) := by
    unfold window_entry at hlisted
    dsimp only at hlisted
    split at hlisted
    · exact absurd rfl hlisted
    · omega
  obtain ⟨x, _, hxp, hsum, hslot⟩ := window_entry_slot r.stream.kv hi hlisted
  have hsettled := hwin.listed ha (x := x) (by omega) (by omega) (by omega)
  refine ⟨x, by omega, hslot, ?_, ?_⟩
  · show resolved e.kv.cfg.window e.history.length _ _ = _
    rw [ha.wrote.cfg, hlength]
    exact hsettled
  · have hheld := hbooks.slots (x % r.stream.kv.cfg.window)
    dsimp only at hheld
    rw [ha.wrote.cfg, hlength, hsettled] at hheld
    rcases hheld (Nat.mod_lt x r.stream.kv.cfg.window_pos) with hempty | ⟨x', hx', _, hheld⟩
    · unfold kSlotEmpty at hempty
      omega
    · obtain rfl : x = x' := Int.ofNat.inj hx'
      exact hheld

theorem Books.decoded (h : Books c r) {token t : Nat} {e : DecodeStream}
    (hdecode : decode_step c steps r.stream token r.stream.history.length = (.ok t, e)) :
    Appended c r e 1 fun L _ => (steps r.stream.rest.calls).row L := by
  unfold decode_step at hdecode
  have hok : (decode_with c (steps r.stream.rest.calls) r.stream token
      r.stream.history.length).1 = .ok t := by rw [hdecode]
  have hkeeps := @decode_with_keeps c (steps r.stream.rest.calls) r.stream token
    r.stream.history.length
  have hprompt := @decode_with_prompt c (steps r.stream.rest.calls) token
    r.stream.history.length r.stream
  have hhistory := (@decode_with_begun c (steps r.stream.rest.calls) r.stream token
    r.stream.history.length (decode_with_ok hok).1).1
  rw [hdecode] at hkeeps hprompt hhistory
  rw [record_token_end] at hhistory
  have hend : e.history = r.stream.history ++ [token] := hhistory
  exact {
    keeps := hkeeps
    prompt := hprompt
    history := ⟨[token], hend.symm⟩
    length := by rw [hend, List.length_append]; rfl
    some := Nat.one_pos
    fits := r.stream.kv.cfg.window_pos
    wrote := decode_with_wrote h.served h.produce_ced hdecode }

theorem Books.speculated (h : Books c r) {cfg : SpeculationConfig} {greedy : Bool} {a : SpecAnswer}
    {root max_new : Nat} {stops rows : List Nat} {e : DecodeStream}
    (hstep : speculative_step c steps cfg greedy a r.stream root max_new stops = (.ok rows, e)) :
    Appended c r e rows.length a.batch.row := by
  have hspec := @speculative_step_spec c steps cfg greedy a r.stream root max_new stops
  have hemitted := hspec.2.1 rows (by rw [hstep])
  have hkeeps := hspec.1
  rw [hstep] at hkeeps hemitted
  have hpos := List.length_pos_iff.mpr hemitted.rows_ne
  obtain ⟨e₀, _, _, _, m, hkv, _, _, htrace⟩ := speculative_trace h.served hstep
  have hfits : rows.length ≤ e₀.kv.cfg.window := Nat.le_trans htrace.emitted.2 htrace.fits.1
  rw [hkv] at hfits
  exact {
    keeps := hkeeps
    prompt := (speculative_step_floor h.served hstep).2
    history := ⟨_, hemitted.history.symm⟩
    length := by
      have hend := hemitted.history
      dsimp only at hend
      rw [hend, List.length_append, List.length_cons, List.length_dropLast]
      omega
    some := hpos
    fits := hfits
    wrote := speculative_step_wrote h.served hstep }

/-! ### Slots that stay -/

/-- The ring is resolved at most, and so is what was retained. -/
theorem Books.settle (h : Books c r) {kv : KvStore} {rest : StreamState}
    (hkv : kv = r.stream.kv ∨ kv = r.stream.kv.resolve_ring r.stream.history.length)
    (hced : rest.produce_ced = r.stream.rest.produce_ced)
    (hring : rest.prompt.ring = r.stream.rest.prompt.ring)
    (htokens : rest.prompt.tokens = r.stream.rest.prompt.tokens) :
    Books c { r with stream := { r.stream with kv := kv, rest := rest } } := by
  have hprompt : ∀ p, rest.prompt.ring = some p → PromptHeld c r p := fun p hp =>
    h.prompt p (hring.symm.trans hp)
  rcases hkv with rfl | rfl
  · exact ⟨h.served, h.valid, hced.trans h.produce_ced, h.slots, fun p hp =>
      (hprompt p hp).mono rfl htokens (List.Subset.refl _) (hprompt p hp).known⟩
  · exact ⟨h.served.congr rfl, h.valid, hced.trans h.produce_ced, h.slots.resolve, fun p hp =>
      (hprompt p hp).mono rfl htokens (List.Subset.refl _) fun s _ => resolved_ne_unknown s _⟩

theorem WindowKept.settle (h : r.WindowKept) {kv : KvStore} {rest : StreamState}
    (hkv : kv = r.stream.kv ∨ kv = r.stream.kv.resolve_ring r.stream.history.length) :
    WindowKept { r with stream := { r.stream with kv := kv, rest := rest } } := by
  rcases hkv with rfl | rfl
  · exact h
  · exact WindowHeld.resolve h

/-! ### Resets -/

/-- A reset empties the ring and what was retained. -/
theorem reset_loaded {e e' : DecodeStream} {ks : List RingCommit} (hserved : Served c e'.kv)
    (hvalid : e'.kv.valid = true) (hced : e'.rest.produce_ced = true)
    (heq : e' = reset_context (stream_parts c steps) e) :
    Loaded c { stream := e', commits := ks } := by
  subst heq
  have hclear : (reset_context (stream_parts c steps) e).kv = e.kv.clear := rfl
  have hvalid' : ¬ ¬ e.kv.valid = true := not_not.mpr ((clear_valid e.kv).symm.trans hvalid)
  refine ⟨hserved, hvalid, hced, ?_, rfl, fun s _ => ?_, fun s x _ hx => ?_⟩
  · dsimp only
    rw [hclear, KvStore.clear, if_neg hvalid']
  · dsimp only
    rw [hclear, KvStore.clear, if_neg hvalid']
    rfl
  · have hempty : ring_slot_position s 0 e.kv.clear.cfg.window = x := hx
    rw [ring_slot_position, if_pos (.inr (Nat.zero_le s))] at hempty
    omega

/-! ### Retained prompts -/

theorem Books.retain (h : Books c r) (greedy hidden : Bool) (first : Option Nat) :
    Books c { r with stream := (retain_prompt_state greedy hidden first r.stream).2 } := by
  rcases retain_prompt_state_spec greedy hidden first r.stream with
    ⟨kv, hkv, heq⟩ | ⟨ring, p, hring, htokens, hretain, heq⟩
  · rw [heq]
    exact h.settle hkv rfl rfl rfl
  rw [heq]
  obtain ⟨hrow, hpos⟩ := retain_prompt_ring_ok hretain
  refine ⟨h.served.congr rfl, h.valid, h.produce_ced, h.slots.resolve, fun p' hp' => ?_⟩
  obtain rfl : ring = p' := Option.some.inj (hring.symm.trans hp')
  refine ⟨fun L hL s hs => ?_, fun s _ => resolved_ne_unknown s _, fun x hx hret => ?_⟩
  · show (ring.row r.stream.kv.cfg L s).1.length = _ ∧ (ring.row r.stream.kv.cfg L s).2.length = _
    rw [hrow L hL s hs]
    exact ⟨Region.length_read _ _ _, Region.length_read _ _ _⟩
  · dsimp only at hx hret ⊢
    rw [htokens] at hx ⊢
    have hslot := Nat.mod_lt x r.stream.kv.cfg.window_pos
    -- a slot that is retained has its position
    have hsettled : resolved r.stream.kv.cfg.window r.stream.history.length
        (x % r.stream.kv.cfg.window)
        (r.stream.kv.slot_pos (x % r.stream.kv.cfg.window)) = x := by
      have hret' : ring.slot_pos (x % r.stream.kv.cfg.window) = x := hret
      rw [hpos] at hret'
      dsimp only at hret'
      split at hret'
      · unfold kSlotEmpty at hret'
        omega
      · exact hret'
    rcases h.slots _ hslot with hempty | ⟨x', hx', _, k, hk, _, hlead, hrows⟩
    · rw [hsettled] at hempty
      unfold kSlotEmpty at hempty
      omega
    · obtain rfl : x = x' := Int.ofNat.inj (hsettled.symm.trans hx')
      refine ⟨k, hk, hlead hx, fun L hL => ?_⟩
      rw [← hrows L hL]
      exact hrow L (by rwa [h.layers]) _ hslot

theorem WindowKept.retain (h : r.WindowKept) (greedy hidden : Bool) (first : Option Nat) :
    WindowKept { r with stream := (retain_prompt_state greedy hidden first r.stream).2 } := by
  rcases retain_prompt_state_spec greedy hidden first r.stream with
    ⟨kv, hkv, heq⟩ | ⟨ring, p, _, _, _, heq⟩
  · rw [heq]
    exact h.settle hkv
  · rw [heq]
    exact h.settle (.inr rfl)

/-- Dropping positions of the retained ring drops no row. -/
theorem PromptHeld.truncate {p : PromptRing} (h : PromptHeld c r p) (keep : Nat) :
    PromptHeld c r (p.truncate keep) := by
  refine ⟨h.whole, h.known, fun x hx hret => h.rows x hx ?_⟩
  unfold PromptRing.truncate at hret
  dsimp only at hret
  split at hret
  · unfold kSlotEmpty at hret
    omega
  · exact hret

/-! ### Prompts that are used again -/

section Reuse

variable {greedy : Bool} {tokens : List Nat} {first : Option Nat} {e' : DecodeStream}
  {kv' : KvStore} {p : PromptRing}

/-- What recovering leaves of the slots: each has its position of before, or a retained one. -/
theorem recovered_slot {kv : KvStore} {keep : Nat} (hrec : Recovered kv kv' p keep) {s : Nat}
    (hs : s < kv.cfg.window) :
    (∃ x, x < keep ∧ x % kv.cfg.window = s ∧ p.slot_pos s = x ∧ kv'.slot_pos s = x ∧
      ∀ L < kv.cfg.layers, kv'.slot_row L s = p.row kv.cfg L s) ∨
    (kv'.slot_pos s = kv.slot_pos s ∧ ∀ L < kv.cfg.layers, kv'.slot_row L s = kv.slot_row L s) := by
  by_cases hret : ∃ x : Nat, need_lo kv.cfg.window keep ≤ x ∧ x < keep ∧
      p.slot_pos (x % kv.cfg.window) = x ∧ x % kv.cfg.window = s
  · obtain ⟨x, hx, hxk, hret, rfl⟩ := hret
    obtain ⟨hpos, hrows⟩ := hrec.taken x hx hxk hret
    exact .inl ⟨x, hxk, rfl, hret, hpos, hrows⟩
  · exact .inr (hrec.left s hs fun x hx hxk hret' heq => hret ⟨x, hx, hxk, hret', heq⟩)

theorem recovered_ring {kv : KvStore} (keep : Nat) (hwhole : p.Whole kv.cfg)
    (state : Nat → UInt32) :
    Recovered kv { kv.recover_prompt_ring (some p) keep with state := state } p keep :=
  have hrec := recover_prompt_ring_spec keep hwhole
  ⟨hrec.cfg, hrec.valid, hrec.taken, hrec.left⟩

theorem Books.recover (h : Books c r) (hring : r.stream.rest.prompt.ring = some p)
    (htokens : r.stream.rest.prompt.tokens = tokens) (hlead : tokens <+: r.stream.history)
    {rest : StreamState} (hprompt : rest.prompt = r.stream.rest.prompt)
    (hced : rest.produce_ced = r.stream.rest.produce_ced) (state : Nat → UInt32) (common : Nat) :
    Books c { r with stream := {
      kv := { r.stream.kv.recover_prompt_ring (some p) tokens.length with state := state }
      history := tokens
      rest := truncate_prompt rest common } } := by
  obtain ⟨hwhole, hknown, hrows⟩ := h.prompt p hring
  have hrec := recovered_ring tokens.length hwhole state
  generalize ({ r.stream.kv.recover_prompt_ring (some p) tokens.length with
    state := state } : KvStore) = kv' at hrec ⊢
  have hknown' : ∀ s < r.stream.kv.cfg.window, kv'.slot_pos s ≠ kSlotUnknown := by
    intro s hs
    rcases recovered_slot hrec hs with ⟨x, _, _, _, hpos, _⟩ | ⟨hpos, _⟩
    · rw [hpos, kSlotUnknown]
      omega
    · rw [hpos]
      exact hknown s hs
  have hlength : tokens.length ≤ r.stream.history.length := hlead.length_le
  have htake : ∀ x, x < tokens.length →
      r.stream.history.take (x + 1) = tokens.take (x + 1) := by
    intro x hx
    obtain ⟨more, hmore⟩ := hlead
    rw [← hmore, List.take_append_of_le_length hx]
  refine ⟨h.served.congr hrec.cfg, hrec.valid.trans h.valid, hced.trans h.produce_ced, ?_, ?_⟩
  -- a slot holds a row of the prompt again, or what it held before
  · intro s hs
    dsimp only at hs ⊢
    rw [hrec.cfg] at hs ⊢
    rw [resolved_known (hknown' s hs)]
    rcases recovered_slot hrec hs with ⟨x, hx, hslot, hret, hpos, hrow⟩ | ⟨hpos, hrow⟩
    · right
      subst hslot
      obtain ⟨k, hk, htake', hkrows⟩ := hrows x (by rwa [htokens]) hret
      rw [htokens] at htake'
      refine ⟨x, hpos, rfl, k, hk, ?_, fun _ => htake', fun L hL => ?_⟩
      · rw [htake', List.length_take]
        omega
      · rw [← hkrows L hL]
        exact hrow L (by rwa [h.layers])
    · have hbefore := h.slots s hs
      rw [resolved_known (hknown s hs)] at hbefore
      rw [hpos]
      rcases hbefore with hempty | ⟨x, hx, hslot, hheld⟩
      · exact .inl hempty
      · exact .inr ⟨x, hx, hslot, hheld.mono (List.Subset.refl _) (fun hlt => ⟨by
          dsimp only at hlt; omega, (htake x hlt).symm⟩) fun L hL => hrow L (by rwa [h.layers])⟩
  · intro p' hp'
    have hp : p.truncate common = p' := by
      have hmap : rest.prompt.ring.map (fun ring => ring.truncate common) = some p' := hp'
      rw [hprompt, hring] at hmap
      exact Option.some.inj hmap
    subst hp
    refine PromptHeld.truncate ?_ common
    refine (h.prompt p hring).mono hrec.cfg ?_ (List.Subset.refl _) hknown'
    show rest.prompt.tokens = _
    rw [hprompt]

/-- A prompt whose window is there in full is used again with its window in the ring. -/
theorem WindowKept.recover (hbooks : Books c r) (hring : r.stream.rest.prompt.ring = some p)
    (hcovered : ∀ x < tokens.length, need_lo r.stream.kv.cfg.window tokens.length ≤ x →
      has_position r.stream x = true)
    (rest : StreamState) (state : Nat → UInt32) :
    WindowKept { r with stream := {
      kv := { r.stream.kv.recover_prompt_ring (some p) tokens.length with state := state }
      history := tokens
      rest := rest } } := by
  have hrec := recovered_ring tokens.length (hbooks.prompt p hring).whole state
  generalize ({ r.stream.kv.recover_prompt_ring (some p) tokens.length with
    state := state } : KvStore) = kv' at hrec ⊢
  intro x _ hx hxn
  dsimp only at hx hxn ⊢
  rw [hrec.cfg] at hx ⊢
  have hpos : kv'.slot_pos (x % r.stream.kv.cfg.window) = x := by
    have hthere := hcovered x hxn hx
    simp only [has_position, hring, Option.any_some, Bool.or_eq_true, beq_iff_eq] at hthere
    by_cases hret : p.slot_pos (x % r.stream.kv.cfg.window) = x
    · exact (hrec.taken x hx hxn hret).1
    · -- no other position of the window has its slot
      rw [(hrec.left _ (Nat.mod_lt x r.stream.kv.cfg.window_pos) ?_).1]
      · exact hthere.resolve_left hret
      · intro y hy hyn hyret heq
        have hspan := @need_lo_span r.stream.kv.cfg.window tokens.length
          r.stream.kv.cfg.window_pos
        rcases Nat.lt_trichotomy x y with hlt | rfl | hlt
        · exact ring_slot_ne hlt (by omega) heq.symm
        · exact hret hyret
        · exact ring_slot_ne hlt (by omega) heq
  rw [hpos]
  exact resolved_position _ _

end Reuse

/-! ### Replays -/

section Replay

/-- A session whose context is replayed, before position `q`. -/
structure Replaying (c : TextConfig) (steps : Nat → StepAnswer) (r : RingRun) (plan : ReplayPlan)
    (ks : List RingCommit) (q : Nat) (e : DecodeStream) : Prop where
  keeps : KeepsStream r.stream e
  history : e.history = r.stream.history
  prompt : e.rest.prompt = r.stream.rest.prompt
  calls : e.rest.calls = r.stream.rest.calls + (q - plan.first)
  floor : e.kv.win_lo = plan.first
  known : ∀ s < r.stream.kv.cfg.window, e.kv.slot_pos s ≠ kSlotUnknown
  slots : SlotsHeld r.stream.kv.cfg.window r.stream.history.length e.kv.slot_pos
    (slot_holds c { stream := e, commits := ks })
  window : ∀ x, need_lo r.stream.kv.cfg.window r.stream.history.length ≤ x →
    x < r.stream.history.length → plan.first ≤ x ∧ x < q ∨ plan.end_ ≤ x →
    e.kv.slot_pos (x % r.stream.kv.cfg.window) = x

/-- The rows of the replayed steps. -/
def replay_commits (steps : Nat → StepAnswer) (r : RingRun) (plan : ReplayPlan) :
    List RingCommit :=
  commits_of r.stream.kv.cfg r.stream.history plan.first plan.steps
    fun L i => (steps (r.stream.rest.calls + i)).row L

/-- One position is replayed and its rows put back. -/
theorem Replaying.step {plan : ReplayPlan} {q : Nat} {e e₁ : DecodeStream} {kv₁ : KvStore}
    {b : KvRowBackup} (hbooks : Books c r)
    (h : Replaying c steps r plan (replay_commits steps r plan ++ r.commits) q e)
    (hq : plan.first ≤ q ∧ q < plan.end_) (hend : plan.end_ ≤ r.stream.history.length)
    (hfirst : need_lo r.stream.kv.cfg.window r.stream.history.length ≤ plan.first + 1)
    (hstep : replay_step c steps e (r.stream.history.getD q 0) q = (.ok (), e₁))
    (hrestore : e₁.kv.restore_rows b q = (.ok (), kv₁)) :
    Replaying c steps r plan (replay_commits steps r plan ++ r.commits) (q + 1)
      { e₁ with kv := kv₁ } := by
  have hpos := r.stream.kv.cfg.window_pos
  obtain ⟨t, hdecode⟩ : ∃ t, decode_with c (steps e.rest.calls) e
      (r.stream.history.getD q 0) q = (.ok t, e₁) := by
    unfold replay_step decode_step at hstep
    split at hstep
    · cases hstep
    · next t e₂ heq =>
      cases hstep
      exact ⟨t, heq⟩
  have hok : (decode_with c (steps e.rest.calls) e (r.stream.history.getD q 0) q).1 = .ok t := by
    rw [hdecode]
  have hserved : Served c e.kv := hbooks.served.congr h.keeps.cfg
  have hced : e.rest.produce_ced = true := h.keeps.produce_ced.trans hbooks.produce_ced
  have hw := decode_with_wrote hserved hced hdecode
  have hkeeps := @decode_with_keeps c (steps e.rest.calls) e (r.stream.history.getD q 0) q
  have hprompt := @decode_with_prompt c (steps e.rest.calls) (r.stream.history.getD q 0) q e
  obtain ⟨hhistory, hcalls⟩ := @decode_with_begun c (steps e.rest.calls) e
    (r.stream.history.getD q 0) q (decode_with_ok hok).1
  rw [hdecode] at hkeeps hprompt hhistory hcalls
  obtain ⟨cmp, key, hkv₁⟩ := restore_rows_keeps e₁.kv b q
  rw [hrestore] at hkv₁
  obtain rfl : kv₁ = _ := hkv₁
  have hcfg : e.kv.cfg = r.stream.kv.cfg := h.keeps.cfg
  have hagain : e₁.history = r.stream.history := by
    rw [hhistory, h.history]
    refine record_token_again ?_
    have hlt : q < r.stream.history.length := by omega
    simp [hlt]
  -- one slot is written
  have hslots : ∀ s < r.stream.kv.cfg.window,
      e₁.kv.slot_pos s = Function.update e.kv.slot_pos (q % r.stream.kv.cfg.window) (q : Nat) s := by
    intro s hs
    have hsettled := hw.slots s (by rwa [hcfg])
    have hknown₁ : e₁.kv.slot_pos s ≠ kSlotUnknown := fun hunknown =>
      h.known s hs (hw.settled s (by rwa [hcfg]) hunknown)
    have hone : mark_slots e.kv.cfg.window q 1 e.kv.slot_pos s =
        Function.update e.kv.slot_pos (q % r.stream.kv.cfg.window) (q : Nat) s := by
      rw [hcfg]
      rfl
    have hknown' : Function.update e.kv.slot_pos (q % r.stream.kv.cfg.window) ((q : Nat) : Int) s ≠
        kSlotUnknown := by
      by_cases hslot : s = q % r.stream.kv.cfg.window
      · rw [hslot, Function.update_self, kSlotUnknown]
        omega
      · rw [Function.update_of_ne hslot]
        exact h.known s hs
    rw [hone, resolved_known hknown₁, resolved_known hknown'] at hsettled
    exact hsettled
  have hother : ∀ s < r.stream.kv.cfg.window, s ≠ q % r.stream.kv.cfg.window →
      ∀ L < c.num_hidden_layers, e₁.kv.slot_row L s = e.kv.slot_row L s := by
    intro s hs hne L hL
    refine hw.kept s (by rwa [hcfg]) (fun j hj => ?_) L hL
    obtain rfl : j = 0 := by omega
    rw [hcfg, Nat.add_zero]
    exact hne.symm
  refine {
    keeps := h.keeps.trans (hkeeps.trans ⟨rfl, rfl, rfl, rfl⟩)
    history := hagain
    prompt := hprompt.trans h.prompt
    calls := ?_
    floor := hw.floor.trans h.floor
    known := fun s hs hunknown => ?_
    slots := ?_
    window := fun x hx hxn hin => ?_ }
  · show e₁.rest.calls = _
    rw [hcalls, h.calls]
    omega
  · have hunknown' : e₁.kv.slot_pos s = kSlotUnknown := hunknown
    rw [hslots s hs] at hunknown'
    by_cases hslot : s = q % r.stream.kv.cfg.window
    · rw [hslot, Function.update_self, kSlotUnknown] at hunknown'
      omega
    · rw [Function.update_of_ne hslot] at hunknown'
      exact h.known s hs hunknown'
  · refine h.slots.rewrite hslots ?_ fun s hs hne x hx hheld => ?_
    · have hindex : q - plan.first < plan.steps := by
        unfold ReplayPlan.steps
        omega
      refine ⟨_, List.mem_append_left _ (mem_commits_of hindex), ?_, fun _ => ?_, fun L hL => ?_⟩
      · dsimp only
        rw [List.length_take]
        omega
      · dsimp only
        rw [hagain, Nat.add_sub_cancel' hq.1]
      · dsimp only
        have hwritten := hw.written 0 Nat.one_pos L hL
        rw [hcfg, Nat.add_zero, h.calls] at hwritten
        exact hwritten
    · refine hheld.mono (List.Subset.refl _) (fun hlt => ?_) (hother s hs hne)
      dsimp only at hlt ⊢
      rw [hagain] at hlt ⊢
      rw [h.history]
      exact ⟨hlt, rfl⟩
  · show e₁.kv.slot_pos _ = _
    rw [hslots _ (Nat.mod_lt x hpos)]
    by_cases hxq : x = q
    · rw [hxq, Function.update_self]
    · -- a needed position other than the replayed one has another slot
      rw [Function.update_of_ne (replayed_slot_ne hpos (by omega) ⟨hx, hxn⟩ hxq)]
      refine h.window x hx hxn ?_
      omega

theorem Replaying.loop {plan : ReplayPlan} {q n : Nat} {e e' : DecodeStream} {b : KvRowBackup}
    (hbooks : Books c r)
    (h : Replaying c steps r plan (replay_commits steps r plan ++ r.commits) q e)
    (hq : plan.first ≤ q) (hqn : q + n = plan.end_)
    (hend : plan.end_ ≤ r.stream.history.length)
    (hfirst : need_lo r.stream.kv.cfg.window r.stream.history.length ≤ plan.first + 1)
    (hloop : replay_loop (replay_step c steps) r.stream.history b q n e = (.ok (), e')) :
    Replaying c steps r plan (replay_commits steps r plan ++ r.commits) plan.end_ e' := by
  induction n generalizing q e with
  | zero =>
    cases hloop
    rwa [← hqn, Nat.add_zero]
  | succ n ih =>
    rw [replay_loop] at hloop
    split at hloop
    · cases hloop
    next e₁ hstep =>
    split at hloop
    · cases hloop
    next kv₁ hrestore =>
    exact ih (h.step hbooks ⟨hq, by omega⟩ hend hfirst hstep hrestore) (by omega) (by omega) hloop

/-- A replayed plan, cut or not, leaves a ring with the window that its floor admits. -/
theorem run_replay_books (hbooks : Books c r)
    (hknown : ∀ s < r.stream.kv.cfg.window, r.stream.kv.slot_pos s ≠ kSlotUnknown)
    {replay_max : Nat} {plan : ReplayPlan} {e' : DecodeStream}
    (hplan : plan = plan_ring r.stream.kv r.stream.history.length replay_max)
    (hrun : run_replay (replay_step c steps) r.stream plan = (.ok (), e')) :
    e'.history = r.stream.history ∧
      Books c { stream := e', commits := replay_commits steps r plan ++ r.commits } ∧
      WindowKept { stream := e', commits := replay_commits steps r plan ++ r.commits } := by
  have hcut := plan_ring_range r.stream.kv r.stream.history.length replay_max
  rw [← hplan] at hcut
  rcases hcut with ⟨hzero, hheld⟩ | ⟨hsteps, hfirst, hend, hheld⟩
  -- nothing to replay: the ring holds the window already
  · rw [run_replay, if_pos hzero] at hrun
    cases hrun
    have hnone : replay_commits steps r plan = [] := by
      rw [replay_commits, commits_of, hzero]
      rfl
    rw [hnone]
    refine ⟨rfl, hbooks, fun x _ hx hxn => ?_⟩
    dsimp only
    rw [slot_pos_of_ring_holds (hheld x hx hxn)]
    exact resolved_position _ _
  rw [run_replay, if_neg hsteps] at hrun
  split at hrun
  · cases hrun
  next b _ =>
  dsimp only at hrun
  split at hrun
  · cases hrun
  next e₁ hloop =>
  have hafter : ∀ x, need_lo r.stream.kv.cfg.window r.stream.history.length ≤ x →
      x < r.stream.history.length → plan.end_ ≤ x →
      r.stream.kv.slot_pos (x % r.stream.kv.cfg.window) = x := fun x hx hxn hend =>
    slot_pos_of_ring_holds (hheld x hx hxn (.inr hend))
  have hstart : Replaying c steps r plan (replay_commits steps r plan ++ r.commits) plan.first
      { r.stream with kv := r.stream.kv.set_window_floor plan.first } := {
    keeps := ⟨rfl, rfl, rfl, rfl⟩
    history := rfl
    prompt := rfl
    calls := by rw [Nat.sub_self]; rfl
    floor := rfl
    known := hknown
    slots := fun s hs => (hbooks.slots s hs).imp_right fun ⟨x, hx, hslot, hheld⟩ =>
      ⟨x, hx, hslot, hheld.mono (List.subset_append_right _ _) (fun hlt => ⟨hlt, rfl⟩)
        fun _ _ => rfl⟩
    window := fun x hx hxn hin => hafter x hx hxn (by omega) }
  have hlen : plan.first + plan.steps = plan.end_ := by
    unfold ReplayPlan.steps at hsteps ⊢
    omega
  have hdone := hstart.loop hbooks (Nat.le_refl _) hlen hend hfirst hloop
  obtain ⟨state, hstate⟩ := restore_carry_keeps e₁.kv b
  cases hcarry : e₁.kv.restore_carry b with
  | mk res kv₁ =>
    rw [hcarry] at hrun hstate
    cases hrun
    obtain rfl : kv₁ = _ := hstate
    have hcfg : e₁.kv.cfg = r.stream.kv.cfg := hdone.keeps.cfg
    refine ⟨hdone.history, ⟨hbooks.served.congr hcfg, hdone.keeps.valid.trans hbooks.valid,
      hdone.keeps.produce_ced.trans hbooks.produce_ced, ?_, fun p hp => ?_⟩, fun x hlo hx hxn => ?_⟩
    · have hslots := hdone.slots
      rw [← hcfg, ← hdone.history] at hslots
      exact hslots
    · have hring : r.stream.rest.prompt.ring = some p := by
        rw [← hdone.prompt]
        exact hp
      refine (hbooks.prompt p hring).mono hcfg ?_ (List.subset_append_right _ _) hdone.known
      show e₁.rest.prompt.tokens = _
      rw [hdone.prompt]
    · dsimp only at hlo hx hxn ⊢
      rw [hdone.floor] at hlo
      rw [hcfg, hdone.history] at hx
      rw [hdone.history] at hxn
      rw [hcfg, hdone.window x hx hxn (by omega)]
      exact resolved_position _ _

/-- A shorter context, whose ring has no seeded slot. -/
theorem Books.shorten (h : Books c r)
    (hknown : ∀ s < r.stream.kv.cfg.window, r.stream.kv.slot_pos s ≠ kSlotUnknown)
    (keep common : Nat) :
    Books c { r with stream := { r.stream with
      history := r.stream.history.take keep
      rest := truncate_prompt r.stream.rest common } } where
  served := h.served
  valid := h.valid
  produce_ced := h.produce_ced
  slots := by
    refine SlotsHeld.known h.slots hknown _ fun s hs x hx hheld => ?_
    refine hheld.mono (List.Subset.refl _) (fun hlt => ?_) fun _ _ => rfl
    dsimp only at hlt ⊢
    rw [List.length_take] at hlt
    rw [List.take_take, Nat.min_eq_left (by omega)]
    exact ⟨by omega, rfl⟩
  prompt := by
    intro p' hp'
    dsimp only [truncate_prompt] at hp'
    obtain ⟨p, hp, rfl⟩ := Option.map_eq_some_iff.mp hp'
    refine PromptHeld.truncate ?_ common
    exact (h.prompt p hp).mono rfl rfl (List.Subset.refl _) hknown

theorem Books.rollback (h : Books c r) {keep replay_max : Nat} {st : ReplayStats}
    {e' : DecodeStream}
    (hroll : rollback_context c steps r.stream keep replay_max = (.ok st, e')) :
    let r' : RingRun := {
      stream := e'
      commits := commits_of r.stream.kv.cfg e'.history st.plan.first st.plan.steps
        (fun L i => (steps (r.stream.rest.calls + i)).row L) ++ r.commits }
    Books c r' ∧ (keep < r.stream.history.length ∨ WindowKept r → WindowKept r') := by
  dsimp only
  rcases rollback_context_ok hroll with ⟨rfl, rfl, hzero⟩ | ⟨hkeep, common, hplan, hrun⟩
  · rw [hzero]
    exact ⟨h, fun hwin => hwin.resolve_left (lt_irrefl _)⟩
  have hresolved : Books c { r with stream := { r.stream with
      kv := r.stream.kv.resolve_ring r.stream.history.length } } :=
    h.settle (.inr rfl) rfl rfl rfl
  have hshort := hresolved.shorten (fun s _ => resolved_ne_unknown s _) keep common
  have hlength : (r.stream.history.take keep).length = keep := by
    rw [List.length_take]
    omega
  rw [← hlength] at hplan
  obtain ⟨hhistory, hbooks, hwindow⟩ := run_replay_books hshort
    (fun s _ => resolved_ne_unknown s _) hplan hrun
  rw [hhistory]
  exact ⟨hbooks, fun _ => hwindow⟩

end Replay

end Kept

end RingRun

end CachedMoe.Runtime
