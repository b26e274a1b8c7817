import CachedMoe.Core.Types
import CachedMoe.Framework.System
import Mathlib.Logic.Function.Basic

/-! # The background miss queue

    Resident-only routing of `runtime/engine.cpp`: `route_resident_only` parks the LRU stamp of
    every expert it asks for in `rr_demand_`, and `flush_resident_backfill` queues the misses,
    drops those older than a few steps and fetches the newest ones with their parked stamps.

    The queue has one entry for each miss and the map one stamp for each expert; whatever takes
    an entry off the queue erases the stamp. The answers of the store, of the engine's other
    parts and of `fetch` are inputs; a fetch with stamp 0 is stamped when it is submitted. -/

namespace CachedMoe.Runtime

open CachedMoe LTS

/-! ### State -/

structure RrMiss where
  key : ExpertKey
  step : Nat
  deriving Repr, DecidableEq

/-- What happened to the stamps, for the statements below; the engine keeps no such record. -/
inductive StampEvent where
  | requested (key : ExpertKey) (stamp : Nat)
  | erased (key : ExpertKey)
  /-- `rr_demand_.clear()`. -/
  | cleared
  /-- `fetch` was called with this stamp. -/
  | fetched (key : ExpertKey) (stamp : Nat)
  deriving Repr, DecidableEq

structure MissQueue where
  streams : Nat := 1
  /-- The stream `cur_` points to. -/
  cur : Nat := 0
  clock : Nat := 0
  /-- `access_clock_` of the planner. -/
  access_clock : Nat := 0
  rr_pending : Nat → List ExpertKey := fun _ => []
  /-- Oldest at the front. -/
  rr_queue : List RrMiss := []
  rr_queue_steps : Nat := 2
  rr_outstanding : Nat := 0
  rr_outstanding_cap : Nat := 24
  rr_inflight_cap : Nat := 48
  rr_demand : Nat → Option Nat := fun _ => none
  /-- In the loop of `flush_resident_backfill` that drains the queue. -/
  draining : Bool := false
  /-- The last event first. -/
  log : List StampEvent := []

/-- `(layer << 16) | expert`. -/
def rr_pack (k : ExpertKey) : Nat := k.layer.toNat * 2 ^ 16 + k.expert.toNat

def resident_queue_cutoff (now_step keep_steps : Nat) : Nat :=
  let keep_steps := if keep_steps = 0 then 1 else keep_steps
  if now_step ≥ keep_steps then now_step - keep_steps + 1 else 0

namespace MissQueue

/-- `rr_demand_[rr_pack(key)] = stamp`. -/
def request (stamp : Nat) (s : MissQueue) (key : ExpertKey) : MissQueue :=
  { s with
    rr_demand := Function.update s.rr_demand (rr_pack key) (some stamp)
    log := .requested key stamp :: s.log }

/-- `rr_demand_.erase(rr_pack(key))`. -/
def erase (s : MissQueue) (key : ExpertKey) : MissQueue :=
  { s with
    rr_demand := Function.update s.rr_demand (rr_pack key) none
    log := .erased key :: s.log }

def set_pending (s : MissQueue) (keys : List ExpertKey) : MissQueue :=
  { s with rr_pending := Function.update s.rr_pending s.cur keys }

/-! ### Steps -/

inductive RrAction where
  /-- Another stream goes on. -/
  | switch (stream : Nat)
  | set_clock (clock : Nat)
  /-- A stamp is drawn elsewhere. -/
  | tick
  /-- The layer's misses are collected anew. -/
  | begin_layer
  /-- `route_resident_only` on a row. `stall1` is the index of the missing expert that a P0 fetch
      brought in time, `layer_held` whether any expert of the layer is resident. -/
  | route (layer : Nat) (ids : List Nat) (resident : ExpertKey → Bool) (stall1 : Option Nat)
      (layer_held : Bool)
  /-- `flush_resident_backfill` up to its second loop. -/
  | flush (fixed_cache : Bool)
  /-- A turn of its second loop: the chunks in flight, whether the store holds the key, whether
      `fetch` took it. -/
  | drain (inflight : Nat) (held accepted : Bool)
  /-- A fetch has called back. -/
  | complete
  /-- The switch to plain decoding. -/
  | off_plain

def route_resident_only (s : MissQueue) (layer : Nat) (ids : List Nat)
    (resident : ExpertKey → Bool) (stall1 : Option Nat) (layer_held : Bool) : MissQueue :=
  let keys := ids.map fun id => ⟨UInt16.ofNat layer, UInt16.ofNat id⟩
  let stamp := s.access_clock + 1
  let missing := keys.filter fun key => !resident key
  let s := missing.foldl (request stamp) { s with access_clock := stamp }
  let stall := stall1.bind fun i => missing[i]?
  let s := match stall with
    | none => s
    | some key => s.erase key
  let missing := match stall with
    | none => missing
    | some _ => missing.eraseIdx (stall1.getD 0)
  -- a layer with nothing resident falls through to the ordinary demand path
  if missing.length = keys.length ∧ ¬ layer_held then s
  else s.set_pending (s.rr_pending s.cur ++ missing)

/-- The first loop of `flush_resident_backfill`, over the queue from its front. -/
def drop_stale (cutoff : Nat) : List RrMiss → MissQueue → MissQueue
  | [], s => { s with rr_queue := [] }
  | m :: rest, s =>
    if m.step < cutoff then drop_stale cutoff rest (s.erase m.key)
    else { s with rr_queue := m :: rest }

def start_flush (s : MissQueue) : MissQueue :=
  let queue := s.rr_queue ++ (s.rr_pending s.cur).map fun key => { key, step := s.clock }
  let s := drop_stale (resident_queue_cutoff s.clock s.rr_queue_steps) queue (s.set_pending [])
  { s with draining := true }

/-- The newest miss, when the loop's condition holds. -/
def newest (s : MissQueue) (inflight : Nat) : Option RrMiss :=
  if s.rr_outstanding < s.rr_outstanding_cap ∧ inflight < s.rr_inflight_cap then
    s.rr_queue.getLast?
  else none

/-- A turn on the newest miss. -/
def take (s : MissQueue) (m : RrMiss) (held accepted : Bool) : MissQueue :=
  let s := { s with rr_queue := s.rr_queue.dropLast }
  if held then s.erase m.key
  else
    let stamp := (s.rr_demand (rr_pack m.key)).getD 0
    let s := { s with log := .fetched m.key stamp :: s.log }
    if accepted then { s with rr_outstanding := s.rr_outstanding + 1 }.erase m.key
    else s

def step (s : MissQueue) : RrAction → Option MissQueue
  | .switch stream =>
    if s.draining = false ∧ stream < s.streams then some { s with cur := stream } else none
  | .set_clock clock => if s.draining = false then some { s with clock := clock } else none
  | .tick => some { s with access_clock := s.access_clock + 1 }
  | .begin_layer => if s.draining = false then some (s.set_pending []) else none
  | .route layer ids resident stall1 layer_held =>
    if s.draining = false then some (s.route_resident_only layer ids resident stall1 layer_held)
    else none
  | .flush fixed_cache =>
    if s.draining = false then
      some (if fixed_cache then s.set_pending [] else s.start_flush)
    else none
  | .drain inflight held accepted =>
    if s.draining = false then none
    else
      match s.newest inflight with
      | none => some { s with draining := false }
      | some m => some (s.take m held accepted)
  | .complete =>
    if s.rr_outstanding = 0 then none
    else some { s with rr_outstanding := s.rr_outstanding - 1 }
  | .off_plain =>
    -- refused with more than one stream
    if s.draining = false ∧ s.streams = 1 then
      some { s.set_pending [] with
        rr_queue := [], rr_demand := fun _ => none, log := .cleared :: s.log }
    else none

/-- Nothing was asked for yet. -/
def miss_system : System MissQueue RrAction :=
  System.ofNext
    (fun s => s.rr_pending = (fun _ => []) ∧ s.rr_queue = [] ∧ s.rr_demand = (fun _ => none) ∧
      s.draining = false ∧ s.log = [])
    step

/-! ### The record -/

/-- The stamp of the latest request. -/
def latest (key : ExpertKey) : List StampEvent → Option Nat
  | [] => none
  | .requested k stamp :: rest => if k = key then some stamp else latest key rest
  | .erased _ :: rest => latest key rest
  | .cleared :: rest => latest key rest
  | .fetched _ _ :: rest => latest key rest

/-- The stamp was not erased since the latest request. -/
def kept (key : ExpertKey) : List StampEvent → Bool
  | [] => false
  | .requested k _ :: rest => decide (k = key) || kept key rest
  | .erased k :: rest => decide (k ≠ key) && kept key rest
  | .cleared :: _ => false
  | .fetched _ _ :: rest => kept key rest

/-- Every fetch passed the stamp of the latest request before it. -/
def Faithful : List StampEvent → Prop
  | [] => True
  | .requested _ _ :: rest => Faithful rest
  | .erased _ :: rest => Faithful rest
  | .cleared :: rest => Faithful rest
  | .fetched key stamp :: rest => latest key rest = some stamp ∧ Faithful rest

variable {s s' s₁ : MissQueue} {key : ExpertKey} {log : List StampEvent}

theorem latest_of_kept (h : kept key log = true) : ∃ stamp, latest key log = some stamp := by
  induction log with
  | nil => cases h
  | cons e log ih =>
    cases e with
    | requested k stamp =>
      rw [latest]
      by_cases hk : k = key
      · exact ⟨stamp, if_pos hk⟩
      · rw [if_neg hk]
        exact ih (by simpa [kept, hk] using h)
    | erased k => exact ih (by simp [kept] at h; exact h.2)
    | cleared => cases h
    | fetched k stamp => exact ih h

theorem rr_pack_inj {k k' : ExpertKey} (h : rr_pack k = rr_pack k') : k = k' := by
  unfold rr_pack at h
  have hlt := k.expert.toNat_lt
  have hlt' := k'.expert.toNat_lt
  have hlayer : k.layer = k'.layer := UInt16.toNat_inj.mp (by omega)
  have hexpert : k.expert = k'.expert := UInt16.toNat_inj.mp (by omega)
  cases k
  cases k'
  simp only [ExpertKey.mk.injEq]
  exact ⟨hlayer, hexpert⟩

/-- The map has the stamps that were not erased, and 0 is none of them. -/
structure Books (s : MissQueue) : Prop where
  demand : ∀ key, s.rr_demand (rr_pack key) = if kept key s.log then latest key s.log else none
  positive : ∀ key stamp, latest key s.log = some stamp → 0 < stamp

/-- No fetch was called in between. -/
structure Quiet (s s' : MissQueue) : Prop where
  books : Books s → Books s'
  faithful : Faithful s'.log ↔ Faithful s.log

theorem Quiet.refl (s : MissQueue) : Quiet s s :=
  ⟨id, Iff.rfl⟩

theorem Quiet.trans (h : Quiet s s₁) (h' : Quiet s₁ s') : Quiet s s' :=
  ⟨h'.books ∘ h.books, h'.faithful.trans h.faithful⟩

/-- The map and the record are as they were. -/
theorem Quiet.of_eq (hdemand : s'.rr_demand = s.rr_demand) (hlog : s'.log = s.log) :
    Quiet s s' where
  books h := by
    constructor
    · intro key
      rw [hdemand, hlog]
      exact h.demand key
    · rw [hlog]
      exact h.positive
  faithful := by rw [hlog]

theorem quiet_request {stamp : Nat} (hstamp : 0 < stamp) (s : MissQueue) (key : ExpertKey) :
    Quiet s (s.request stamp key) where
  books h := by
    constructor
    · intro key'
      simp only [request, kept, latest]
      by_cases hkey : key = key'
      · subst hkey
        simp
      · rw [Function.update_of_ne fun heq => hkey (rr_pack_inj heq).symm, h.demand]
        simp [hkey]
    · intro key' stamp' hlatest
      simp only [request, latest] at hlatest
      split at hlatest
      · cases hlatest
        exact hstamp
      · exact h.positive key' stamp' hlatest
  faithful := Iff.rfl

theorem quiet_erase (s : MissQueue) (key : ExpertKey) : Quiet s (s.erase key) where
  books h := by
    constructor
    · intro key'
      simp only [erase, kept, latest]
      by_cases hkey : key = key'
      · subst hkey
        simp
      · rw [Function.update_of_ne fun heq => hkey (rr_pack_inj heq).symm, h.demand]
        simp [hkey]
    · exact h.positive
  faithful := Iff.rfl

theorem quiet_requests {stamp : Nat} (hstamp : 0 < stamp) (keys : List ExpertKey) (s : MissQueue) :
    Quiet s (keys.foldl (request stamp) s) := by
  induction keys generalizing s with
  | nil => exact .refl s
  | cons key keys ih => exact (quiet_request hstamp s key).trans (ih _)

theorem quiet_route (s : MissQueue) (layer : Nat) (ids : List Nat) (resident : ExpertKey → Bool)
    (stall1 : Option Nat) (layer_held : Bool) :
    Quiet s (s.route_resident_only layer ids resident stall1 layer_held) := by
  unfold route_resident_only
  dsimp only
  have hstamp : Quiet s { s with access_clock := s.access_clock + 1 } := .of_eq rfl rfl
  have hrequests := hstamp.trans (quiet_requests (Nat.succ_pos s.access_clock)
    ((ids.map fun id => ⟨UInt16.ofNat layer, UInt16.ofNat id⟩).filter fun key => !resident key) _)
  generalize List.foldl _ _ _ = s₁ at hrequests ⊢
  cases (stall1.bind _ : Option ExpertKey) with
  | none =>
    dsimp only
    split
    · exact hrequests
    · exact hrequests.trans (.of_eq rfl rfl)
  | some key =>
    have herased := hrequests.trans (quiet_erase s₁ key)
    dsimp only
    split
    · exact herased
    · exact herased.trans (.of_eq rfl rfl)

theorem quiet_drop_stale (cutoff : Nat) (queue : List RrMiss) (s : MissQueue) :
    Quiet s (drop_stale cutoff queue s) := by
  induction queue generalizing s with
  | nil => exact .of_eq rfl rfl
  | cons m rest ih =>
    rw [drop_stale]
    split
    · exact (quiet_erase s m.key).trans (ih _)
    · exact .of_eq rfl rfl

/-! ### One step -/

/-- A miss that is to be fetched has its stamp: since the latest request no other miss of the key
    went stale, was found held or was fetched, and no P0 fetch brought the key. -/
def Kept (s : MissQueue) : RrAction → Prop
  | .drain inflight false _ => ∀ m, s.newest inflight = some m → kept m.key s.log = true
  | _ => True

/-- A turn that calls `fetch` passes the latest stamp just when that is kept. -/
theorem take_spec (h : Books s) (m : RrMiss) (accepted : Bool) :
    Books (s.take m false accepted) ∧
      (Faithful (s.take m false accepted).log ↔ Faithful s.log ∧ kept m.key s.log = true) := by
  let stamp := (s.rr_demand (rr_pack m.key)).getD 0
  let s₁ : MissQueue := { s with
    rr_queue := s.rr_queue.dropLast, log := .fetched m.key stamp :: s.log }
  have hbooks : Books s₁ := ⟨h.demand, h.positive⟩
  have hstamp : latest m.key s.log = some stamp ↔ kept m.key s.log = true := by
    show latest m.key s.log = some ((s.rr_demand (rr_pack m.key)).getD 0) ↔ _
    rw [h.demand]
    cases hkept : kept m.key s.log with
    | true =>
      obtain ⟨st, hlatest⟩ := latest_of_kept hkept
      simp [hlatest]
    | false =>
      -- no request was stamped 0
      refine iff_of_false (fun hzero => ?_) Bool.false_ne_true
      exact absurd (h.positive _ _ hzero) (Nat.lt_irrefl 0)
  have hfaithful : Faithful s₁.log ↔ Faithful s.log ∧ kept m.key s.log = true := by
    rw [← hstamp]
    exact And.comm
  cases accepted with
  | false => exact ⟨hbooks, hfaithful⟩
  | true =>
    have herase := quiet_erase { s₁ with rr_outstanding := s.rr_outstanding + 1 } m.key
    exact ⟨herase.books ⟨hbooks.demand, hbooks.positive⟩, herase.faithful.trans hfaithful⟩

/-- The log stays faithful exactly when the step keeps its stamp. -/
theorem step_spec {a : RrAction} (h : Books s) (hstep : s.step a = some s') :
    Books s' ∧ (Faithful s'.log ↔ Faithful s.log ∧ s.Kept a) := by
  have hquiet : Quiet s s' → s.Kept a →
      Books s' ∧ (Faithful s'.log ↔ Faithful s.log ∧ s.Kept a) := by
    intro hq hkept
    exact ⟨hq.books h, hq.faithful.trans (and_iff_left hkept).symm⟩
  -- only a fetch looks at a stamp
  cases a with
  | switch stream =>
    simp only [step, Option.ite_none_right_eq_some, Option.some.injEq] at hstep
    obtain ⟨-, rfl⟩ := hstep
    exact hquiet (.of_eq rfl rfl) trivial
  | set_clock clock =>
    simp only [step, Option.ite_none_right_eq_some, Option.some.injEq] at hstep
    obtain ⟨-, rfl⟩ := hstep
    exact hquiet (.of_eq rfl rfl) trivial
  | tick =>
    cases hstep
    exact hquiet (.of_eq rfl rfl) trivial
  | begin_layer =>
    simp only [step, Option.ite_none_right_eq_some, Option.some.injEq] at hstep
    obtain ⟨-, rfl⟩ := hstep
    exact hquiet (.of_eq rfl rfl) trivial
  | route layer ids resident stall1 layer_held =>
    simp only [step, Option.ite_none_right_eq_some, Option.some.injEq] at hstep
    obtain ⟨-, rfl⟩ := hstep
    exact hquiet (quiet_route s layer ids resident stall1 layer_held) trivial
  | flush fixed_cache =>
    simp only [step, Option.ite_none_right_eq_some, Option.some.injEq] at hstep
    obtain ⟨-, rfl⟩ := hstep
    cases fixed_cache with
    | true => exact hquiet (.of_eq rfl rfl) trivial
    | false =>
      have hpending : Quiet s (s.set_pending []) := .of_eq rfl rfl
      exact hquiet ((hpending.trans (quiet_drop_stale _ _ _)).trans (.of_eq rfl rfl)) trivial
  | drain inflight held accepted =>
    rw [step] at hstep
    split at hstep
    · cases hstep
    cases hnewest : s.newest inflight with
    | none =>
      rw [hnewest] at hstep
      cases hstep
      refine hquiet (.of_eq rfl rfl) ?_
      cases held with
      | true => trivial
      | false =>
        intro m hm
        rw [hnewest] at hm
        cases hm
    | some m =>
      rw [hnewest] at hstep
      cases hstep
      cases held with
      | true =>
        have hpopped : Quiet s { s with rr_queue := s.rr_queue.dropLast } := .of_eq rfl rfl
        exact hquiet (hpopped.trans (quiet_erase _ m.key)) trivial
      | false =>
        obtain ⟨hbooks, hfaithful⟩ := take_spec h m accepted
        refine ⟨hbooks, hfaithful.trans (and_congr_right fun _ => ⟨fun hkept m' hm' => ?_, ?_⟩)⟩
        · rw [hnewest] at hm'
          cases hm'
          exact hkept
        · exact fun hkept => hkept m hnewest
  | complete =>
    rw [step] at hstep
    split at hstep
    · cases hstep
    · cases hstep
      exact hquiet (.of_eq rfl rfl) trivial
  | off_plain =>
    simp only [step, Option.ite_none_right_eq_some, Option.some.injEq] at hstep
    obtain ⟨-, rfl⟩ := hstep
    refine hquiet ⟨fun _ => ⟨fun key => rfl, h.positive⟩, Iff.rfl⟩ trivial

/-! ### Runs -/

theorem books_init (h : miss_system.init s) : Books s ∧ Faithful s.log := by
  obtain ⟨-, -, hdemand, -, hlog⟩ := h
  refine ⟨⟨fun key => ?_, fun key stamp hlatest => ?_⟩, ?_⟩
  · rw [hdemand, hlog]
    rfl
  · rw [hlog] at hlatest
    cases hlatest
  · rw [hlog]
    trivial

/-- In every run, each fetch passes the stamp of the latest request exactly when every miss that is
    fetched has kept its stamp. -/
theorem demand_stamp_iff {as : List RrAction} (hinit : miss_system.init s)
    (hrun : Run miss_system s as s') :
    Faithful s'.log ↔ Run (miss_system.restrict Kept) s as s' := by
  obtain ⟨hbooks, hfaithful⟩ := books_init hinit
  have hall : Faithful s'.log ↔ Faithful s.log ∧ Run (miss_system.restrict Kept) s as s' :=
    hrun.restrict_iff (Q := fun s => Faithful s.log) (fun _ _ _ h hs => step_spec h hs) hbooks
  exact hall.trans (and_iff_right hfaithful)

instance : (log : List StampEvent) → Decidable (Faithful log)
  | [] => .isTrue trivial
  | .requested _ _ :: rest => instDecidableFaithful rest
  | .erased _ :: rest => instDecidableFaithful rest
  | .cleared :: rest => instDecidableFaithful rest
  | .fetched key stamp :: rest =>
    have := instDecidableFaithful rest
    inferInstanceAs (Decidable (latest key rest = some stamp ∧ Faithful rest))

/-! #### A miss asked for twice -/

/-- Room for one fetch; nothing is resident. -/
def one_fetch : MissQueue := { rr_outstanding_cap := 1 }

/-- The misses of a layer, of which one is fetched. -/
def layer_of (clock : Nat) (ids : List Nat) : List RrAction :=
  [.set_clock clock, .begin_layer, .route 0 ids (fun _ => false) none true, .flush false,
    .drain 0 false true]

instance (s : MissQueue) : (a : RrAction) → Decidable (s.Kept a)
  | .drain inflight false _ =>
    decidable_of_iff ((s.newest inflight).all fun m => kept m.key s.log) (Option.all_eq_true _ _)
  | .drain _ true _ => .isTrue trivial
  | .switch _ => .isTrue trivial
  | .set_clock _ => .isTrue trivial
  | .tick => .isTrue trivial
  | .begin_layer => .isTrue trivial
  | .route _ _ _ _ _ => .isTrue trivial
  | .flush _ => .isTrue trivial
  | .complete => .isTrue trivial
  | .off_plain => .isTrue trivial

/-- Two experts miss; both are fetched, the second when the first is complete, and a later step
    asks for one of them again. -/
def missed_again : List RrAction :=
  layer_of 1 [1, 2] ++ [.complete, .drain 0 false true, .drain 0 false true, .complete] ++
    layer_of 3 [1]

/-- Each fetch of the expert has the stamp of its own miss. -/
theorem demand_stamp_again : ∃ s', Run miss_system one_fetch missed_again s' ∧
    .fetched ⟨0, 1⟩ 1 ∈ s'.log ∧ .fetched ⟨0, 1⟩ 2 ∈ s'.log ∧ Faithful s'.log := by
  obtain ⟨s', hrun, hfetched⟩ : ∃ s', Run (System.ofNext miss_system.init (guarded step Kept))
      one_fetch missed_again s' ∧
        decide (.fetched ⟨0, 1⟩ 1 ∈ s'.log ∧ .fetched ⟨0, 1⟩ 2 ∈ s'.log) = true :=
    Run.of_execute (guarded step Kept) one_fetch missed_again
      (fun s => decide (.fetched ⟨0, 1⟩ 1 ∈ s.log ∧ .fetched ⟨0, 1⟩ 2 ∈ s.log)) (by decide)
  rw [← restrict_ofNext] at hrun
  have hplain : Run miss_system one_fetch missed_again s' :=
    hrun.mono fun s a s' (h : (miss_system.restrict Kept).step s a s') => h.1
  have hinit : miss_system.init one_fetch := ⟨rfl, rfl, rfl, rfl, rfl⟩
  obtain ⟨hfirst, hagain⟩ := of_decide_eq_true hfetched
  exact ⟨s', hplain, hfirst, hagain, (demand_stamp_iff hinit hplain).mpr hrun⟩

/-- The first request of an expert goes stale at the step that asks for it again: the stamp of the
    second request is erased with it. -/
theorem stale_twin_erases : ∃ s', Run miss_system one_fetch
    (layer_of 1 [1, 2] ++ [.drain 0 false true] ++ (layer_of 3 [1]).take 4 ++
      [.complete, .drain 0 false true]) s' ∧ ¬ Faithful s'.log := by
  obtain ⟨s', hrun, hlog⟩ : ∃ s', Run (System.ofNext miss_system.init step) one_fetch
      (layer_of 1 [1, 2] ++ [.drain 0 false true] ++ (layer_of 3 [1]).take 4 ++
        [.complete, .drain 0 false true]) s' ∧ (!decide (Faithful s'.log)) = true :=
    Run.of_execute step one_fetch
      (layer_of 1 [1, 2] ++ [.drain 0 false true] ++ (layer_of 3 [1]).take 4 ++
        [.complete, .drain 0 false true])
      (fun s => !decide (Faithful s.log)) (by decide)
  exact ⟨s', hrun, by simpa using hlog⟩

end MissQueue

end CachedMoe.Runtime
