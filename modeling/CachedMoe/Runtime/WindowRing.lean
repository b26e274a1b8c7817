import CachedMoe.Runtime.BatchWindow
import CachedMoe.Runtime.PromptReuse

/-! # The books of the window ring

    What `slot_pos_` of `runtime/kvstore.h` says of the slots, apart from what is in them: each
    slot is empty or has a position of its residue class, and the positions that a step lists are
    in their slots. The operations on the ring are writes of a run of positions, writes of one
    position of the context again, and slots put back; each keeps both.

    A decode step and the rows that a speculative step commits are writes of the first kind. -/

namespace CachedMoe.Runtime

open CachedMoe KvStore Journal

/-! ### Books -/

/-- Every slot is empty, or has a position of its residue class that it holds. Slots of a seeded
    ring count for what they settle to in a context of `n` tokens. -/
def SlotsHeld (w n : Nat) (slots : Nat → Int) (Held : Nat → Nat → Prop) : Prop :=
  ∀ s < w, resolved w n s (slots s) = kSlotEmpty ∨
    ∃ x : Nat, resolved w n s (slots s) = x ∧ x % w = s ∧ Held s x

/-- The positions that a step at `n` lists are in their slots. -/
def WindowHeld (w n lo : Nat) (slots : Nat → Int) : Prop :=
  ∀ x, lo ≤ x → need_lo w n ≤ x → x < n → resolved w n (x % w) (slots (x % w)) = x

section Books

variable {w n m p q lo : Nat} {slots slots' : Nat → Int} {Held Held' : Nat → Nat → Prop}

theorem resolved_known {s : Nat} {x : Int} (h : x ≠ kSlotUnknown) : resolved w n s x = x :=
  if_pos h

theorem need_lo_mono {k k' : Nat} (h : k ≤ k') : need_lo w k ≤ need_lo w k' := by
  unfold need_lo
  split <;> split <;> omega

/-- The window of a step is shorter than the ring. -/
theorem need_lo_span {k : Nat} (hw : 0 < w) : k < need_lo w k + w := by
  unfold need_lo
  split <;> omega

/-- A run of `m` positions from `p` on is written. -/
theorem SlotsHeld.write (h : SlotsHeld w p slots Held) (hm : m ≤ w)
    (hslots : ∀ s < w, resolved w (p + m) s (slots' s) =
      resolved w (p + m) s (mark_slots w p m slots s))
    (hnew : ∀ j < m, Held' ((p + j) % w) (p + j))
    (hold : ∀ s < w, (∀ j < m, (p + j) % w ≠ s) → ∀ x, x % w = s → Held s x → Held' s x) :
    SlotsHeld w (p + m) slots' Held' := by
  intro s hs
  rw [hslots s hs]
  by_cases hrow : ∃ j < m, (p + j) % w = s
  · obtain ⟨j, hj, rfl⟩ := hrow
    rw [mark_slots_self hm hj, resolved_position]
    exact .inr ⟨p + j, rfl, rfl, hnew j hj⟩
  · have hfree : ∀ j < m, (p + j) % w ≠ s := fun j hj heq => hrow ⟨j, hj, heq⟩
    rw [mark_slots_of_ne hfree, resolved_add hs hfree]
    exact (h s hs).imp_right fun ⟨x, hx, hslot, hheld⟩ => ⟨x, hx, hslot, hold s hs hfree x hslot hheld⟩

theorem WindowHeld.write (h : WindowHeld w p lo slots) (hw : 0 < w) (hm : m ≤ w)
    (hslots : ∀ s < w, resolved w (p + m) s (slots' s) =
      resolved w (p + m) s (mark_slots w p m slots s)) : WindowHeld w (p + m) lo slots' := by
  intro x hlo hx hxn
  have hspan := @need_lo_span w (p + m) hw
  rw [hslots _ (Nat.mod_lt x hw)]
  by_cases hnew : p ≤ x
  · obtain ⟨j, rfl⟩ := Nat.exists_eq_add_of_le hnew
    rw [mark_slots_self hm (by omega), resolved_position]
  · have hfree : ∀ j < m, (p + j) % w ≠ x % w := fun j hj => (ring_slot_ne (by omega) (by omega)).symm
    rw [mark_slots_of_ne hfree, resolved_add (Nat.mod_lt x hw) hfree]
    exact h x hlo (Nat.le_trans (need_lo_mono (Nat.le_add_right p m)) hx) (by omega)

/-- One position is written again. -/
theorem SlotsHeld.rewrite (h : SlotsHeld w n slots Held)
    (hslots : ∀ s < w, slots' s = Function.update slots (q % w) (q : Nat) s)
    (hnew : Held' (q % w) q)
    (hold : ∀ s < w, s ≠ q % w → ∀ x, x % w = s → Held s x → Held' s x) :
    SlotsHeld w n slots' Held' := by
  intro s hs
  rw [hslots s hs]
  by_cases hq : s = q % w
  · rw [hq, Function.update_self, resolved_position]
    exact .inr ⟨q, rfl, rfl, hnew⟩
  · rw [Function.update_of_ne hq]
    exact (h s hs).imp_right fun ⟨x, hx, hslot, hheld⟩ => ⟨x, hx, hslot, hold s hs hq x hslot hheld⟩

/-- A ring without seeded slots says the same in a context of another length. -/
theorem SlotsHeld.known (h : SlotsHeld w n slots Held) (hknown : ∀ s < w, slots s ≠ kSlotUnknown)
    (n' : Nat) (hold : ∀ s < w, ∀ x, x % w = s → Held s x → Held' s x) :
    SlotsHeld w n' slots Held' := by
  intro s hs
  have hsame := h s hs
  rw [resolved_known (hknown s hs)] at hsame ⊢
  exact hsame.imp_right fun ⟨x, hx, hslot, hheld⟩ => ⟨x, hx, hslot, hold s hs x hslot hheld⟩

theorem SlotsHeld.resolve (h : SlotsHeld w n slots Held) :
    SlotsHeld w n (fun s => resolved w n s (slots s)) Held := by
  intro s hs
  rw [resolved_resolved]
  exact h s hs

theorem WindowHeld.resolve (h : WindowHeld w n lo slots) :
    WindowHeld w n lo (fun s => resolved w n s (slots s)) := by
  intro x hlo hx hxn
  rw [resolved_resolved]
  exact h x hlo hx hxn

theorem resolved_ne_unknown (s : Nat) (x : Int) : resolved w n s x ≠ kSlotUnknown := by
  unfold resolved kSlotUnknown
  split
  · assumption
  · unfold kSlotEmpty
    split <;> omega

theorem ring_slot_position_last {x : Nat} (hw : 0 < w) (hx : need_lo w n ≤ x) (hxn : x < n) :
    ring_slot_position (x % w) n w = x := by
  have hspan := @need_lo_span w n hw
  have hdiv := Nat.mod_add_div x w
  have hle := Nat.mod_le x w
  have hlt := Nat.mod_lt x hw
  unfold ring_slot_position
  rw [if_neg (by omega)]
  have hquot : (n - 1 - x % w) / w = x / w := by
    apply Nat.div_eq_of_lt_le
    · rw [Nat.mul_comm]
      omega
    · rw [Nat.add_mul, Nat.one_mul, Nat.mul_comm]
      omega
  rw [hquot, Nat.mul_comm]
  omega

end Books

/-! ### The lists of a step -/

section Lists

variable {c : TextConfig} {kv kv' : KvStore} {position : Nat}

theorem window_entry_congr (hcfg : kv'.cfg = kv.cfg) (hlo : kv'.win_lo = kv.win_lo) :
    kv'.window_entry = kv.window_entry := by
  funext position i
  rw [window_entry, window_entry, hcfg, hlo]

theorem prepare_layer_top {L : Nat} (h : prepare_layer c position L kv = (.ok (), kv')) :
    (c.lists L → ∀ i < kv.cfg.window, kv'.top L i = kv.window_entry position i) ∧
      ∀ L' ≠ L, kv'.top L' = kv.top L' := by
  unfold prepare_layer at h
  dsimp only at h
  split at h
  · cases h
  split at h
  · refine ⟨fun _ => set_decode_topk_top h, fun L' hne => ?_⟩
    have hother := (set_decode_topk_keeps kv L position (c.n_cmp L position)
      (min (c.n_cmp L position) c.index_topk)).2.2 L' hne
    rwa [h] at hother
  · next hlists =>
    have htop := (set_counts_keeps kv L (c.n_cmp L position)
      (c.sliding_window + min (c.n_cmp L position) c.index_topk)).2.2
    rw [h] at htop
    exact ⟨fun hl => absurd hl hlists, fun L' _ => congrFun htop L'⟩

/-- Every layer that has a list gets that of the position; the lists of the others stay. -/
theorem prepare_layers_top {Ls : List Nat}
    (h : prepare_layers c position Ls kv = (.ok (), kv')) :
    (∀ L ∈ Ls, c.lists L → ∀ i < kv.cfg.window, kv'.top L i = kv.window_entry position i) ∧
      ∀ L ∉ Ls, kv'.top L = kv.top L := by
  induction Ls generalizing kv with
  | nil =>
    cases h
    exact ⟨fun L hL => absurd hL List.not_mem_nil, fun L _ => rfl⟩
  | cons L₀ Ls ih =>
    rw [prepare_layers] at h
    have hkeeps := (@prepare_layer_keeps kv c position L₀).1
    cases hlayer : prepare_layer c position L₀ kv with
    | mk r kv₁ =>
      rw [hlayer] at h hkeeps
      cases r with
      | error err => cases h
      | ok _ =>
        obtain ⟨hlist, hother⟩ := prepare_layer_top hlayer
        obtain ⟨hin, hout⟩ := ih h
        have hentry : kv₁.window_entry = kv.window_entry :=
          window_entry_congr hkeeps.cfg hkeeps.win_lo
        rw [hkeeps.cfg, hentry] at hin
        refine ⟨fun L hL hl i hi => ?_, fun L hL => ?_⟩
        · by_cases hmem : L ∈ Ls
          · exact hin L hmem hl i hi
          · obtain rfl : L = L₀ := (List.mem_cons.mp hL).resolve_right hmem
            rw [hout L hmem]
            exact hlist hl i hi
        · rw [hout L fun hmem => hL (List.mem_cons_of_mem _ hmem)]
          exact hother L fun heq => hL (heq ▸ List.mem_cons_self)

/-- A step lists the window of its position in every layer that has a list. -/
theorem prepare_ced_top (h : prepare_ced c kv position = (.ok (), kv')) {L : Nat}
    (hL : L < c.num_hidden_layers) (hlists : c.lists L) {i : Nat} (hi : i < kv.cfg.window) :
    kv'.top L i = kv.window_entry position i :=
  (prepare_layers_top h).1 L (List.mem_range.mpr hL) hlists i hi

end Lists

/-! ### Rows that are written -/

/-- What a layer leaves in the ring for a token. -/
def ring_row_of (cfg : KvStoreConfig) (r : LayerRow) : RingRow :=
  (Region.read r.win_val 0 cfg.latent_dim, Region.read r.win_scale 0 cfg.window_scales)

/-- The rows of `n` positions from `p` on, put into their slots. -/
def ring_puts (cfg : KvStoreConfig) (layers p n : Nat) (v : Nat → Nat → List UInt8) :
    List (Update Nat (List UInt8)) :=
  (List.range n).flatMap fun j => (List.range layers).flatMap fun L =>
    [Update.put (cfg.ring_row L ((p + j) % cfg.window)) (v L j)]

section Puts

variable {cfg : KvStoreConfig} {layers p n : Nat} {v : Nat → Nat → List UInt8}

theorem mem_ring_puts {u : Update Nat (List UInt8)} :
    u ∈ ring_puts cfg layers p n v ↔ ∃ j < n, ∃ L < layers,
      u = Update.put (cfg.ring_row L ((p + j) % cfg.window)) (v L j) := by
  simp [ring_puts, List.mem_flatMap]

theorem ring_puts_written (hn : n ≤ cfg.window) (t : Nat → List UInt8) {j L : Nat} (hj : j < n)
    (hL : L < layers) : apply t (ring_puts cfg layers p n v)
      (cfg.ring_row L ((p + j) % cfg.window)) = v L j := by
  refine apply_put ⟨_, mem_ring_puts.mpr ⟨j, hj, L, hL, rfl⟩, rfl⟩ (fun u hu hkey _ => ?_) t
  obtain ⟨j', hj', L', _, rfl⟩ := mem_ring_puts.mp hu
  obtain ⟨rfl, hslot⟩ := ring_row_slot (Nat.mod_lt _ cfg.window_pos) (Nat.mod_lt _ cfg.window_pos)
    hkey
  obtain rfl := batch_slot_inj hn hj' hj hslot
  rfl

theorem ring_puts_kept (t : Nat → List UInt8) {s : Nat} (hs : s < cfg.window)
    (hfree : ∀ j < n, (p + j) % cfg.window ≠ s) (L : Nat) :
    apply t (ring_puts cfg layers p n v) (cfg.ring_row L s) = t (cfg.ring_row L s) := by
  refine apply_of_ne (fun u hu hkey => ?_) t
  obtain ⟨j, hj, L', _, rfl⟩ := mem_ring_puts.mp hu
  exact hfree j hj (ring_row_slot (Nat.mod_lt _ cfg.window_pos) hs hkey).2

end Puts

/-- What a step leaves of the ring that writes `n` positions from `p` on and lists the window of
    the last one. -/
structure Wrote (c : TextConfig) (kv kv' : KvStore) (p n : Nat) (row : Nat → Nat → LayerRow) :
    Prop where
  cfg : kv'.cfg = kv.cfg
  floor : kv'.win_lo = kv.win_lo
  slots : ∀ s < kv.cfg.window, resolved kv.cfg.window (p + n) s (kv'.slot_pos s) =
    resolved kv.cfg.window (p + n) s (mark_slots kv.cfg.window p n kv.slot_pos s)
  settled : ∀ s < kv.cfg.window, kv'.slot_pos s = kSlotUnknown → kv.slot_pos s = kSlotUnknown
  written : ∀ j < n, ∀ L < c.num_hidden_layers,
    kv'.slot_row L ((p + j) % kv.cfg.window) = ring_row_of kv.cfg (row L j)
  kept : ∀ s < kv.cfg.window, (∀ j < n, (p + j) % kv.cfg.window ≠ s) →
    ∀ L < c.num_hidden_layers, kv'.slot_row L s = kv.slot_row L s
  listed : ∀ L < c.num_hidden_layers, c.lists L → ∀ i < kv.cfg.window,
    kv'.top L i = kv.window_entry (p + n - 1) i

/-- A table of rows after the updates of a step, slot by slot. -/
theorem rows_of_puts (c : TextConfig) (row : Nat → Nat → LayerRow) {e e' : DecodeStream}
    {p n : Nat} (hcfg : e'.kv.cfg = e.kv.cfg) (hn : n ≤ e.kv.cfg.window)
    (hvals : ring_vals e' = apply (ring_vals e) (ring_puts e.kv.cfg c.num_hidden_layers p n
      fun L j => Region.read (row L j).win_val 0 e.kv.cfg.latent_dim))
    (hscales : ring_scales e' = apply (ring_scales e) (ring_puts e.kv.cfg c.num_hidden_layers p n
      fun L j => Region.read (row L j).win_scale 0 e.kv.cfg.window_scales)) :
    (∀ j < n, ∀ L < c.num_hidden_layers,
      e'.kv.slot_row L ((p + j) % e.kv.cfg.window) = ring_row_of e.kv.cfg (row L j)) ∧
    ∀ s < e.kv.cfg.window, (∀ j < n, (p + j) % e.kv.cfg.window ≠ s) →
      ∀ L < c.num_hidden_layers, e'.kv.slot_row L s = e.kv.slot_row L s := by
  have hrow : ∀ (e : DecodeStream) L s, e.kv.slot_row L s =
      (ring_vals e (e.kv.cfg.ring_row L s), ring_scales e (e.kv.cfg.ring_row L s)) :=
    fun _ _ _ => rfl
  refine ⟨fun j hj L hL => ?_, fun s hs hfree L _ => ?_⟩
  · rw [hrow, hcfg, hvals, hscales, ring_puts_written hn _ hj hL, ring_puts_written hn _ hj hL]
    rfl
  · rw [hrow, hrow, hcfg, hvals, hscales, ring_puts_kept _ hs hfree, ring_puts_kept _ hs hfree]

/-! ### Decode steps -/

section Decode

variable {c : TextConfig} {cfg : KvStoreConfig} {a : StepAnswer} {token position : Nat}
  {e e' : DecodeStream}

/-- The layers of a step change no list, and no phase touches what is retained of a prompt. -/
theorem run_phase_top {p : Phase} (hp : p ≠ .prologue) :
    (run_phase c a token position p e).2.kv.top = e.kv.top := by
  cases p with
  | prologue => exact absurd rfl hp
  | layer_begin L =>
    simp only [run_phase, layer_begin]
    cases a.layer_begin L with
    | error err => rfl
    | ok _ =>
      show (put_compressed _ c L position (a.row L)).top = _
      unfold put_compressed
      dsimp only
      split <;> split <;> rfl
  | layer_gate L =>
    simp only [run_phase, layer_gate]
    cases a.layer_gate L <;> rfl
  | layer_moe L => rfl

theorem run_phase_prompt (p : Phase) :
    (run_phase c a token position p e).2.rest.prompt = e.rest.prompt := by
  obtain ⟨_, _, _, heq⟩ := @run_phase_eq c a e token position p
  rw [heq]

theorem decode_with_prompt :
    (decode_with c a e token position).2.rest.prompt = e.rest.prompt := by
  have hphases : (run_phases c a token position (step_phases c) e).2.rest.prompt =
      e.rest.prompt :=
    run_phases_induction (P := fun e' => e'.rest.prompt = e.rest.prompt)
      (fun p _ e₁ hprompt => (run_phase_prompt p).trans hprompt) rfl
  unfold decode_with
  split
  · rfl
  · generalize run_phases c a token position (step_phases c) e = res at hphases
    obtain ⟨r, e₁⟩ := res
    cases r with
    | error err => exact hphases
    | ok _ => exact hphases

/-- The lists that the prologue made are those of the step. -/
theorem decode_with_top (hced : e.rest.produce_ced = true) {t : Nat}
    (h : decode_with c a e token position = (.ok t, e')) {L : Nat} (hL : L < c.num_hidden_layers)
    (hlists : c.lists L) {i : Nat} (hi : i < e.kv.cfg.window) :
    e'.kv.top L i = e.kv.window_entry position i := by
  unfold decode_with at h
  split at h
  · cases h
  rw [step_phases, run_phases] at h
  cases hprologue : run_phase c a token position .prologue e with
  | mk r e₁ =>
    rw [hprologue] at h
    cases r with
    | error err => cases h
    | ok _ =>
      dsimp only at h
      -- only the prologue writes lists
      have htop₁ : e₁.kv.top L i = e.kv.window_entry position i := by
        have hced' : (begin_step a e token position).rest.produce_ced = true := hced
        unfold run_phase step_prologue at hprologue
        dsimp only at hprologue
        rw [if_pos hced'] at hprologue
        cases hprepare : prepare_ced c (begin_step a e token position).kv position with
        | mk r kv =>
          rw [hprepare] at hprologue
          cases r with
          | error err => cases hprologue
          | ok _ =>
            have hlist := prepare_ced_top hprepare hL hlists hi
            cases hembed : a.embed_token with
            | error err =>
              rw [hembed] at hprologue
              cases hprologue
            | ok _ =>
              rw [hembed] at hprologue
              obtain ⟨_, rfl⟩ := Prod.mk.inj hprologue
              exact hlist
      have hlayers : (run_phases c a token position
          ((List.range c.num_hidden_layers).flatMap run_layer) e₁).2.kv.top = e₁.kv.top :=
        run_phases_induction (P := fun e' => e'.kv.top = e₁.kv.top)
          (fun p hp e₂ htop => (run_phase_top (layer_phases c hp)).trans htop) rfl
      generalize run_phases c a token position _ e₁ = res at h hlayers
      obtain ⟨r, e₂⟩ := res
      cases r with
      | error err => cases h
      | ok _ =>
        obtain ⟨_, rfl⟩ := Prod.mk.inj h
        rw [← htop₁]
        exact congrFun (congrFun hlayers L) i

theorem win_lo_view : View c cfg (fun e (_ : Unit) => e.kv.win_lo) fun _ _ _ => [] where
  keeps := by
    intro e e' hkeeps _
    funext _
    exact hkeeps.win_lo
  put := by
    intro e L position r _ _
    funext _
    show (put_compressed _ c L position r).win_lo = _
    unfold put_compressed
    dsimp only
    split <;> split <;> rfl

/-- A decode step writes its position and lists the window of it. -/
theorem decode_with_wrote (hserved : Served c e.kv) (hced : e.rest.produce_ced = true) {t : Nat}
    (h : decode_with c a e token position = (.ok t, e')) :
    Wrote c e.kv e'.kv position 1 fun L _ => a.row L := by
  have hok : (decode_with c a e token position).1 = .ok t := by rw [h]
  have hcfg := (@decode_with_keeps c a e token position).cfg
  have hslots := (decode_with_view ring_vals_view rfl hserved.lists hced hok).1
  have hvals := (decode_with_view ring_vals_view rfl hserved.lists hced hok).2
  have hscales := (decode_with_view ring_scales_view rfl hserved.lists hced hok).2
  have hfloor := (decode_with_view win_lo_view rfl hserved.lists hced hok).2
  rw [h] at hcfg hslots hvals hscales hfloor
  have hone : ∀ v : Nat → List UInt8, ((List.range c.num_hidden_layers).flatMap fun L =>
      [Update.put (e.kv.cfg.ring_row L (position % e.kv.cfg.window)) (v L)]) =
      ring_puts e.kv.cfg c.num_hidden_layers position 1 fun L _ => v L := by
    intro v
    rw [ring_puts, List.range_one, List.flatMap_cons, List.flatMap_nil, List.append_nil,
      Nat.add_zero]
  rw [hone] at hvals hscales
  obtain ⟨hwritten, hkept⟩ := rows_of_puts c (fun L _ => a.row L) hcfg e.kv.cfg.window_pos hvals
    hscales
  refine ⟨hcfg, ?_, fun s hs => ?_, fun s hs hunknown => ?_, hwritten, hkept,
    fun L hL hl i hi => decode_with_top hced h hL hl hi⟩
  · have hsame := congrFun hfloor ()
    rw [List.flatMap_eq_nil_iff.mpr fun _ _ => rfl] at hsame
    exact hsame
  · rw [hslots]
    rfl
  · rw [hslots] at hunknown
    by_cases hslot : s = e.kv.ring_slot position
    · rw [hslot, Function.update_self, kSlotUnknown] at hunknown
      omega
    · rwa [Function.update_of_ne hslot] at hunknown

end Decode

/-! ### Speculative steps -/

section Speculate

variable {c : TextConfig} {steps : Nat → StepAnswer} {cfg : SpeculationConfig} {greedy : Bool}
  {a : SpecAnswer} {e e' : DecodeStream} {root max_new : Nat} {stops : List Nat}

theorem forward_batch_prompt {b : BatchAnswer} {p0 : Nat} {tokens : List Nat}
    {carries : List BatchCarry} (h : forward_batch c b e p0 tokens = (.ok carries, e')) :
    e'.rest.prompt = e.rest.prompt := by
  have hok : (forward_batch c b e p0 tokens).1 = .ok carries := by rw [h]
  obtain ⟨_, _, kv, _, _, hstate⟩ := forward_batch_ok hok
  rw [h] at hstate
  have hlayers : ∀ (Ls : List Nat) (e₁ : DecodeStream), (Ls.foldl (fun e L =>
      put_batch_layer c b e L p0 tokens.length) e₁).rest.prompt = e₁.rest.prompt := by
    intro Ls
    induction Ls with
    | nil => exact fun _ => rfl
    | cons L Ls ih => exact fun e₁ => ih _
  have hfinal : e' = _ := hstate
  rw [hfinal]
  exact hlayers _ _

/-- The window floor and what is retained of a prompt stay. -/
theorem speculative_step_floor (hserved : Served c e.kv) {rows : List Nat}
    (h : speculative_step c steps cfg greedy a e root max_new stops = (.ok rows, e')) :
    e'.kv.win_lo = e.kv.win_lo ∧ e'.rest.prompt = e.rest.prompt := by
  unfold speculative_step at h
  split at h
  · cases h
  next v e₀ hstarted =>
  have hstart := start_verification_ok hstarted
  unfold verify at h
  split at h
  · cases h
  next rows' e₁ hverified =>
  cases h
  obtain ⟨drafts, hinput, _⟩ := hstart.input
  obtain ⟨carries, e₁, _, _, hbatch, _, _, _, _, hdone⟩ := verify_and_commit_done hinput hverified
  obtain ⟨ring, carry, hring, hcarry, hcounts⟩ := hdone.store
  have hserved₀ : Served c e₀.kv := hserved.congr (by rw [hstart.state]; rfl)
  have hbatch_floor := (forward_batch_view win_lo_view rfl hserved₀.lists hbatch).2.2
  have hfloor₁ : e₁.kv.win_lo = e₀.kv.win_lo := by
    have hsame := congrFun hbatch_floor ()
    rw [List.flatMap_eq_nil_iff.mpr fun _ _ => List.flatMap_eq_nil_iff.mpr fun _ _ => rfl] at hsame
    exact hsame
  -- no part of the commit writes the floor
  have hfloor_ring : ring.win_lo = e₁.kv.win_lo := by
    split at hring
    · rw [hring]
    · obtain ⟨val, scale, slots, heq⟩ := restore_ring_keeps e₁.kv
        (sub_snapshot v.backup.snap (List.range' rows.length (v.input.length - rows.length)))
      rw [hring] at heq
      rw [show ring = _ from heq]
  obtain ⟨state, hstate⟩ := restore_carry_keeps ring v.backup.carry
  rw [hcarry] at hstate
  have hcarry' : carry = { ring with state := state } := hstate
  obtain ⟨state', hfold⟩ := put_batch_carry_keeps (c := c) e₀.history.length rows.length carry
    carries
  have hkeeps := @prepare_ced_keeps ((carries.foldl
    (put_batch_carry c e₀.history.length rows.length) carry).resolve_ring
      (e₀.history.length + rows.length)) c (e₀.history.length + rows.length - 1)
  rw [hcounts] at hkeeps
  have hlast : e'.kv.win_lo = carry.win_lo := by
    rw [hkeeps.win_lo, hfold]
    rfl
  constructor
  · rw [hlast, hcarry']
    show ring.win_lo = _
    rw [hfloor_ring, hfloor₁, hstart.state]
    rfl
  · rw [hdone.rest]
    show e₁.rest.prompt = _
    rw [forward_batch_prompt hbatch, hstart.state]
    rfl

/-- A speculative step writes the rows it emits, as decode steps do, and lists the window of the
    last one. -/
theorem speculative_step_wrote (hserved : Served c e.kv) {rows : List Nat}
    (h : speculative_step c steps cfg greedy a e root max_new stops = (.ok rows, e')) :
    Wrote c e.kv e'.kv e.history.length rows.length a.batch.row := by
  obtain ⟨e₀, e₁, ring, carry, m, hkv, hhistory, _, htrace⟩ := speculative_trace hserved h
  have hfloor := (speculative_step_floor hserved h).1
  have hcfg₀ : e₀.kv.cfg = e.kv.cfg := by rw [hkv]; rfl
  have hrow₀ : e₀.kv.slot_row = e.kv.slot_row := by
    rw [hkv]
    exact slot_row_congr rfl rfl rfl
  have hcfg' : e'.kv.cfg = e₀.kv.cfg := htrace.store.1
  have hfits : rows.length ≤ e₀.kv.cfg.window := Nat.le_trans htrace.emitted.2 htrace.fits.1
  have hslots₀ : e₀.kv.slot_pos = fun s =>
      resolved e₀.kv.cfg.window e₀.history.length s (e.kv.slot_pos s) := by
    rw [hkv, hhistory]
    rfl
  -- the slots are as that many decode steps leave them
  have hslots : ∀ s < e.kv.cfg.window, e'.kv.slot_pos s =
      resolved e.kv.cfg.window (e.history.length + rows.length) s
        (mark_slots e.kv.cfg.window e.history.length rows.length e.kv.slot_pos s) := by
    intro s hs
    have hpos := htrace.slot_positions hserved.lists hslots₀ (s := s) (by rwa [hcfg₀])
    rwa [hcfg₀, hhistory] at hpos
  obtain ⟨hvals, hscales⟩ := htrace.vals hserved.lists
  obtain ⟨hwritten, hkept⟩ := rows_of_puts c a.batch.row hcfg' hfits hvals hscales
  rw [hcfg₀, hhistory] at hwritten hkept
  rw [hrow₀] at hkept
  refine ⟨hcfg'.trans hcfg₀, hfloor, fun s hs => ?_, fun s hs hunknown => ?_, hwritten, hkept,
    fun L hL hl i hi => ?_⟩
  · rw [hslots s hs, resolved_resolved]
  · rw [hslots s hs] at hunknown
    exact absurd hunknown (resolved_ne_unknown s _)
  · have hkeeps := @prepare_ced_keeps (((((List.range c.num_hidden_layers).filter
      c.carries).map (batch_carry c a.batch m)).foldl
        (put_batch_carry c e₀.history.length rows.length) carry).resolve_ring
          (e₀.history.length + rows.length)) c (e₀.history.length + rows.length - 1)
    rw [htrace.counted] at hkeeps
    have hcounted : e'.kv.cfg = _ := hkeeps.cfg
    have hlist := prepare_ced_top htrace.counted hL hl (i := i)
      (by rw [← hcounted, hcfg', hcfg₀]; exact hi)
    rw [hlist, ← window_entry_congr hkeeps.cfg hkeeps.win_lo, hhistory]
    exact congrFun (congrFun (window_entry_congr (hcfg'.trans hcfg₀) hfloor) _) i

/-- A step that fails leaves the ring, resolved at most, or an empty context. -/
theorem speculative_step_failed {err : Status}
    (h : speculative_step c steps cfg greedy a e root max_new stops = (.error err, e')) :
    (∃ kv rest, (kv = e.kv ∨ kv = e.kv.resolve_ring e.history.length) ∧
      rest.prompt = e.rest.prompt ∧ e' = { e with kv := kv, rest := rest }) ∨
    ∃ e₁, e' = reset_context (stream_parts c steps) e₁ := by
  unfold speculative_step at h
  obtain ⟨kv, next, hstate, hkv⟩ := @start_verification_keeps c cfg a (tick e) root max_new
  split at h
  · next err' e₀ hstart =>
    cases h
    rw [hstart] at hstate
    exact .inl ⟨kv, { (tick e).rest with dspark_next := next }, hkv, rfl, hstate⟩
  · unfold verify at h
    split at h
    · next e₁ _ =>
      cases h
      exact .inr ⟨e₁, rfl⟩
    · cases h

end Speculate

end CachedMoe.Runtime
