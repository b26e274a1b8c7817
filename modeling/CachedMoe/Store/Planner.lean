import CachedMoe.Framework.System
import CachedMoe.Store.Fill

/-! # Expert fetches and their groups

    `Planner::fetch`, `plan_layer` and `backfill_pump` of `store/planner.cpp`, as a system of
    steps: the caller's thread, which reserves a slot, hands one request per run to the I/O
    engine and accounts for the runs it could not hand over, and the dispatcher thread, which
    reports the runs as they land. A layer plan's `FetchGroup::pending` and a backfill's
    `inflight` count the same thing, the experts not yet reported, and both are a `FetchGroup`
    here.

    The counters are integers, so that an extra `--pending` shows as `-1`, where the
    `uint32_t` wraps. -/

namespace CachedMoe.Store

open CachedMoe

/-! ### State -/

/-- Where a call of `fetch` stands. -/
inductive FetchPhase where
  /-- Counted by the caller; `begin_fill` comes next. -/
  | reserving
  /-- `begin_fill` found no free slot; `reclaim` is running. -/
  | reclaiming
  /-- `reclaim` freed a slot; `begin_fill` is tried once more. -/
  | retrying
  /-- Runs below `next` are with the engine. -/
  | submitting (next : Nat)
  /-- The error branch: runs from `next` on are still to be accounted for. -/
  | aborting (next : Nat)
  /-- An error is on its way back to the caller. -/
  | failed
  /-- The caller is done with the call. -/
  | returned
  deriving Repr, DecidableEq

/-- One expert fetch, with the `FetchState` its run callbacks share. -/
structure Fetch where
  group : Nat := 0
  key : ExpertKey := {}
  entry : ExpertEntry
  stamp : Nat := 0
  phase : FetchPhase := .reserving
  slot : Nat := 0
  run_count : Nat := 0
  /-- Runs the engine has and has not reported. -/
  inflight : List Nat := []
  ok : Bool := true
  /-- Settling reports whose `on_done` has not run yet. -/
  due : Nat := 0
  /-- How often the expert was taken off its group's counter. -/
  reports : Nat := 0
  /-- How many of its runs were reported to the store. -/
  done : Nat := 0

/-- `FetchGroup` of a layer plan, or the counter of a `Backfill`. -/
structure FetchGroup where
  pending : Int := 0
  failed : Bool := false
  deriving Repr, DecidableEq

structure Planner where
  store : ExpertStore
  /-- Fetches `0 .. count - 1` have been started. -/
  fetches : Nat → Fetch
  count : Nat := 0
  groups : Nat → FetchGroup := fun _ => {}

/-- The fetch holds a slot some of whose runs are not reported. -/
def Fetch.live (f : Fetch) : Bool := f.done < f.run_count

namespace Planner

def set_fetch (s : Planner) (f : Nat) (r : Fetch) : Planner :=
  { s with fetches := Function.update s.fetches f r }

def set_group (s : Planner) (g : Nat) (v : FetchGroup) : Planner :=
  { s with groups := Function.update s.groups g v }

def push (s : Planner) (r : Fetch) : Planner :=
  { s.set_fetch s.count r with count := s.count + 1 }

/-- A live fetch owns the slot. -/
def owns (s : Planner) (slot : Nat) : Bool :=
  (List.range s.count).any fun f => (s.fetches f).live && (s.fetches f).slot == slot

/-! ### Steps -/

/-- Actions of the threads. -/
inductive Action where
  /-- Any other use of the store: lookups, evictions, streamed admissions and their reports. -/
  | store (op : Op)
  /-- `++pending`, and the call of `fetch`. -/
  | start (group : Nat) (key : ExpertKey) (entry : ExpertEntry) (stamp : Nat)
  | begin_fill (f : Nat)
  | reclaim (f : Nat) (freed : Bool)
  /-- The next run's `submit`, accepted or refused. -/
  | submit (f : Nat) (accepted : Bool)
  | submitted (f : Nat)
  /-- One `finish_run` of the error branch. -/
  | abort (f : Nat)
  /-- The caller's `--pending` for a call that returned an error. -/
  | return_error (f : Nat)
  /-- Run `i` landed: the run callback up to `finish_run`. -/
  | complete (f i : Nat) (ok : Bool)
  /-- `on_done` of the settling report. -/
  | report (f : Nat)

/-- `fetch` after `begin_fill` has answered. -/
def reserved (r : Fetch) : Result Reservation → Fetch
  | .ok res => { r with phase := .submitting 0, slot := res.slot, run_count := res.run_count }
  | .error e =>
    if r.phase = .reserving ∧ e.code = .ResourceExhausted then { r with phase := .reclaiming }
    else { r with phase := .failed }

/-- The run callback after `finish_run` has answered. -/
def landed (r : Fetch) (i : Nat) (ok : Bool) (settled : Result Bool) : Fetch :=
  { r with
    inflight := r.inflight.erase i
    ok := r.ok && ok
    done := r.done + 1
    due := match settled with
      | .ok true => r.due + 1
      | _ => r.due }

def take_off (g : FetchGroup) (ok : Bool) : FetchGroup :=
  { pending := g.pending - 1, failed := g.failed || !ok }

def step (s : Planner) : Action → Option Planner
  | .store op =>
    if op.keeps_contents ∧ ∀ slot, op.finishes = some slot → ¬ s.owns slot then
      some { s with store := s.store.apply op }
    else none
  | .start group key entry stamp =>
    let s := s.set_group group { s.groups group with pending := (s.groups group).pending + 1 }
    some (s.push { group, key, entry, stamp })
  | .begin_fill f =>
    let r := s.fetches f
    if f < s.count ∧ (r.phase = .reserving ∨ r.phase = .retrying) then
      let (res, st) := s.store.begin_fill r.key r.entry .Cached
      some { s.set_fetch f (reserved r res) with store := st }
    else none
  | .reclaim f freed =>
    let r := s.fetches f
    if f < s.count ∧ r.phase = .reclaiming then
      some (s.set_fetch f { r with phase := if freed then .retrying else .failed })
    else none
  | .submit f accepted =>
    let r := s.fetches f
    match r.phase with
    | .submitting next =>
      if f < s.count ∧ next < r.run_count then
        if accepted then
          some (s.set_fetch f { r with phase := .submitting (next + 1)
                                       inflight := next :: r.inflight })
        else some (s.set_fetch f { r with phase := .aborting next, ok := false })
      else none
    | _ => none
  | .submitted f =>
    let r := s.fetches f
    if f < s.count ∧ r.phase = .submitting r.run_count then
      some (s.set_fetch f { r with phase := .returned })
    else none
  | .abort f =>
    let r := s.fetches f
    match r.phase with
    | .aborting next =>
      if f < s.count ∧ next < r.run_count then
        let phase := if next + 1 = r.run_count then .failed else .aborting (next + 1)
        let st := (s.store.finish_run r.slot false r.stamp).2
        some { s.set_fetch f { r with phase, done := r.done + 1 } with store := st }
      else none
    | _ => none
  | .return_error f =>
    let r := s.fetches f
    if f < s.count ∧ r.phase = .failed then
      let g := { s.groups r.group with pending := (s.groups r.group).pending - 1 }
      some ((s.set_group r.group g).set_fetch f
        { r with phase := .returned, reports := r.reports + 1 })
    else none
  | .complete f i ok =>
    let r := s.fetches f
    if f < s.count ∧ i ∈ r.inflight then
      let (settled, st) := s.store.finish_run r.slot ok r.stamp
      some { s.set_fetch f (landed r i ok settled) with store := st }
    else none
  | .report f =>
    let r := s.fetches f
    if f < s.count ∧ 0 < r.due then
      some ((s.set_group r.group (take_off (s.groups r.group) r.ok)).set_fetch f
        { r with due := r.due - 1, reports := r.reports + 1 })
    else none

end Planner

open Planner

/-- Runs start with a store fresh from `init` and no fetch. -/
def planner_system : LTS.System Planner Action :=
  .ofNext
    (fun s => s.count = 0 ∧ s.groups = (fun _ => {}) ∧
      ∃ st₀ backing cache layers experts_per_layer,
        ExpertStore.init st₀ backing cache layers experts_per_layer = (.ok (), s.store))
    Planner.step

/-! ### Accounting of one fetch -/

/-- What is known of a fetch in each phase: its runs are reported to the store, with the
    engine, or not handed over yet, and it is reported, or about to be, once the last of
    them is. -/
def Fetch.Accounted (r : Fetch) : Prop :=
  match r.phase with
  | .reserving | .reclaiming | .retrying =>
    r.run_count = 0 ∧ r.done = 0 ∧ r.inflight = [] ∧ r.due = 0 ∧ r.reports = 0
  | .submitting next =>
    0 < r.run_count ∧ next ≤ r.run_count ∧ r.done + r.inflight.length = next ∧
      r.due + r.reports = if r.done = r.run_count then 1 else 0
  | .aborting next =>
    next < r.run_count ∧ r.done + r.inflight.length = next ∧ r.due = 0 ∧ r.reports = 0
  | .failed => r.done = r.run_count ∧ r.inflight = [] ∧ r.due = 0 ∧ r.reports = 0
  | .returned =>
    r.done + r.inflight.length = r.run_count ∧
      r.due + r.reports = if r.done = r.run_count then 1 else 0

/-- A fetch is taken off its counter once at most, and then all its runs are reported. -/
theorem Fetch.Accounted.once {r : Fetch} (h : r.Accounted) :
    r.due + r.reports ≤ 1 ∧ (r.reports = 1 → r.done = r.run_count ∧ r.inflight = []) := by
  unfold Fetch.Accounted at h
  split at h
  · omega
  · omega
  · omega
  · obtain ⟨hpos, hle, hsum, hcount⟩ := h
    split at hcount
    · refine ⟨by omega, fun _ => ⟨‹_›, List.length_eq_zero_iff.mp (by omega)⟩⟩
    · omega
  · omega
  · omega
  · obtain ⟨hsum, hcount⟩ := h
    split at hcount
    · refine ⟨by omega, fun _ => ⟨‹_›, List.length_eq_zero_iff.mp (by omega)⟩⟩
    · omega

/-- Not handed-over runs leave room: a run with the engine means that not all are reported. -/
theorem Fetch.Accounted.live_of_inflight {r : Fetch} (h : r.Accounted) {i : Nat}
    (hi : i ∈ r.inflight) : r.done < r.run_count ∧ r.due = 0 ∧ r.reports = 0 := by
  have hlen : 0 < r.inflight.length := List.length_pos_of_mem hi
  unfold Fetch.Accounted at h
  split at h
  · rw [h.2.2.1] at hi
    cases hi
  · rw [h.2.2.1] at hi
    cases hi
  · rw [h.2.2.1] at hi
    cases hi
  · obtain ⟨_, _, hsum, hcount⟩ := h
    split at hcount <;> omega
  · omega
  · rw [h.2.1] at hi
    cases hi
  · obtain ⟨hsum, hcount⟩ := h
    split at hcount <;> omega

/-- A run of an accounted fetch lands; the answer of `finish_run` says whether it was the last. -/
theorem Fetch.Accounted.landed {r : Fetch} (h : r.Accounted) {i : Nat} (hi : i ∈ r.inflight)
    (ok : Bool) : (landed r i ok (.ok (decide (r.done + 1 = r.run_count)))).Accounted := by
  obtain ⟨hlt, hdue, hrep⟩ := h.live_of_inflight hi
  have hpos : 0 < r.inflight.length := List.length_pos_of_mem hi
  have hlen : (r.inflight.erase i).length + 1 = r.inflight.length := by
    rw [List.length_erase_of_mem hi]
    omega
  have hnew : (Planner.landed r i ok (.ok (decide (r.done + 1 = r.run_count)))).due =
      if r.done + 1 = r.run_count then 1 else 0 := by
    by_cases hlast : r.done + 1 = r.run_count
    · simp [Planner.landed, hlast, hdue]
    · simp [Planner.landed, hlast, hdue]
  -- a run is out only while the fetch submits, aborts or has returned
  cases hphase : r.phase with
  | submitting next =>
    simp only [Fetch.Accounted, hphase] at h
    obtain ⟨hruns, hle, hsum, _⟩ := h
    have hphase' : (Planner.landed r i ok (.ok (decide (r.done + 1 = r.run_count)))).phase =
        .submitting next := hphase
    simp only [Fetch.Accounted, hphase', hnew]
    refine ⟨hruns, hle, ?_, ?_⟩
    · simp only [Planner.landed]
      omega
    · simp only [Planner.landed, hrep, Nat.add_zero]
  | aborting next =>
    simp only [Fetch.Accounted, hphase] at h
    obtain ⟨hnext, hsum, _, _⟩ := h
    have hphase' : (Planner.landed r i ok (.ok (decide (r.done + 1 = r.run_count)))).phase =
        .aborting next := hphase
    simp only [Fetch.Accounted, hphase', hnew]
    refine ⟨hnext, ?_, if_neg (by omega), hrep⟩
    simp only [Planner.landed]
    omega
  | returned =>
    simp only [Fetch.Accounted, hphase] at h
    have hphase' : (Planner.landed r i ok (.ok (decide (r.done + 1 = r.run_count)))).phase =
        .returned := hphase
    simp only [Fetch.Accounted, hphase', hnew]
    refine ⟨?_, ?_⟩
    · simp only [Planner.landed]
      omega
    · simp only [Planner.landed, hrep, Nat.add_zero]
  | _ =>
    simp only [Fetch.Accounted, hphase] at h
    simp [h] at hi

theorem Fetch.Accounted.reported {r : Fetch} (h : r.Accounted) (hdue : 0 < r.due) :
    ({ r with due := r.due - 1, reports := r.reports + 1 } : Fetch).Accounted := by
  have hsum : r.due - 1 + (r.reports + 1) = r.due + r.reports := by omega
  cases hphase : r.phase with
  | submitting next =>
    simp only [Fetch.Accounted, hphase, hsum] at h ⊢
    exact h
  | returned =>
    simp only [Fetch.Accounted, hphase, hsum] at h ⊢
    exact h
  | _ =>
    simp only [Fetch.Accounted, hphase] at h
    omega

/-! ### The invariant -/

/-- The fetches of group `g` not yet reported. -/
def unreported (s : Planner) (g : Nat) : Nat :=
  PointUpdate.count (Finset.range s.count) s.fetches fun r => r.group = g ∧ r.reports = 0

structure PlannerInv (s : Planner) : Prop where
  store : Inv s.store
  accounted : ∀ f < s.count, (s.fetches f).Accounted
  fills : ∀ f < s.count, (s.fetches f).live →
    FillAt s.store (s.fetches f).slot (s.fetches f).run_count (s.fetches f).done
  apart : ∀ f < s.count, ∀ f' < s.count, (s.fetches f).live → (s.fetches f').live →
    (s.fetches f).slot = (s.fetches f').slot → f = f'
  pending : ∀ g, (s.groups g).pending = unreported s g

variable {s s' : Planner}

/-- One fetch, the store and the groups change: what has to be shown. -/
theorem PlannerInv.update (h : PlannerInv s) {f : Nat} {r : Fetch} {st : ExpertStore}
    {groups : Nat → FetchGroup} (hf : f < s.count) (hst : Inv st) (hr : r.Accounted)
    (hfill : r.live → FillAt st r.slot r.run_count r.done)
    (hkeep : ∀ f' < s.count, f' ≠ f → (s.fetches f').live →
      FillAt st (s.fetches f').slot (s.fetches f').run_count (s.fetches f').done)
    (hapart : ∀ f' < s.count, f' ≠ f → r.live → (s.fetches f').live →
      (s.fetches f').slot ≠ r.slot)
    (hpending : ∀ g, (groups g).pending +
        (if (s.fetches f).group = g ∧ (s.fetches f).reports = 0 then 1 else 0 : Nat) =
      (s.groups g).pending + (if r.group = g ∧ r.reports = 0 then 1 else 0 : Nat)) :
    PlannerInv { s with store := st, fetches := Function.update s.fetches f r, groups := groups } := by
  refine ⟨hst, ?_, ?_, ?_, ?_⟩
  · intro f' hf'
    by_cases heq : f' = f
    · subst heq
      simpa using hr
    · simpa [Function.update_of_ne heq] using h.accounted f' hf'
  · intro f' hf' hlive
    by_cases heq : f' = f
    · subst heq
      simp only [Function.update_self] at hlive ⊢
      exact hfill hlive
    · simp only [Function.update_of_ne heq] at hlive ⊢
      exact hkeep f' hf' heq hlive
  · intro f₁ hf₁ f₂ hf₂ hlive₁ hlive₂ hslot
    by_cases h₁ : f₁ = f <;> by_cases h₂ : f₂ = f
    · rw [h₁, h₂]
    · subst h₁
      simp only [Function.update_self, Function.update_of_ne h₂] at hlive₁ hlive₂ hslot
      exact absurd hslot.symm (hapart f₂ hf₂ h₂ hlive₁ hlive₂)
    · subst h₂
      simp only [Function.update_self, Function.update_of_ne h₁] at hlive₁ hlive₂ hslot
      exact absurd hslot (hapart f₁ hf₁ h₁ hlive₂ hlive₁)
    · simp only [Function.update_of_ne h₁, Function.update_of_ne h₂] at hlive₁ hlive₂ hslot
      exact h.apart f₁ hf₁ f₂ hf₂ hlive₁ hlive₂ hslot
  -- the count changes by what the changed fetch owes before and after
  · intro g
    have hcount := PointUpdate.count_update_add (fun r : Fetch => r.group = g ∧ r.reports = 0)
      (Finset.mem_range.mpr hf) s.fetches r
    have hold := h.pending g
    have hnew := hpending g
    unfold unreported at hold ⊢
    dsimp only at hnew ⊢
    omega

/-- A step within a phase that concerns neither the fill nor the counter. -/
theorem PlannerInv.same_fill (h : PlannerInv s) {f : Nat} {r : Fetch} (hf : f < s.count)
    (hr : r.Accounted) (hslot : r.slot = (s.fetches f).slot)
    (hruns : r.run_count = (s.fetches f).run_count) (hdone : r.done = (s.fetches f).done)
    (hgroup : r.group = (s.fetches f).group) (hreports : r.reports = (s.fetches f).reports) :
    PlannerInv (s.set_fetch f r) := by
  have hlive : r.live = (s.fetches f).live := by rw [Fetch.live, Fetch.live, hruns, hdone]
  refine h.update hf h.store hr ?_ ?_ ?_ ?_
  · intro hl
    rw [hslot, hruns, hdone]
    exact h.fills f hf (hlive ▸ hl)
  · intro f' hf' _ hl
    exact h.fills f' hf' hl
  · intro f' hf' hne hl hl' heq
    exact hne (h.apart f' hf' f hf hl' (hlive ▸ hl) (heq.trans hslot))
  · intro g
    rw [hgroup, hreports]

/-- The fills of the other fetches do not notice a report on the slot of a live one. -/
theorem PlannerInv.keep_others (h : PlannerInv s) {f : Nat} (hf : f < s.count)
    (hlive : (s.fetches f).live) (ok : Bool) :
    ∀ f' < s.count, f' ≠ f → (s.fetches f').live →
      FillAt (s.store.finish_run (s.fetches f).slot ok (s.fetches f).stamp).2 (s.fetches f').slot
        (s.fetches f').run_count (s.fetches f').done := by
  intro f' hf' hne hlive'
  obtain ⟨hsize, hother⟩ := finish_run_other s.store (s.fetches f).slot ok (s.fetches f).stamp
  refine (h.fills f' hf' hlive').of_slots hsize (hother _ ?_)
  intro heq
  exact hne (h.apart f' hf' f hf hlive' hlive heq)

theorem PlannerInv.count_run (h : PlannerInv s) {f : Nat} {r : Fetch} (hf : f < s.count)
    (hlive : (s.fetches f).live) (ok : Bool) (hr : r.Accounted)
    (hslot : r.slot = (s.fetches f).slot) (hruns : r.run_count = (s.fetches f).run_count)
    (hdone : r.done = (s.fetches f).done + 1) (hgroup : r.group = (s.fetches f).group)
    (hreports : r.reports = (s.fetches f).reports) :
    PlannerInv { s.set_fetch f r with
      store := (s.store.finish_run (s.fetches f).slot ok (s.fetches f).stamp).2 } := by
  have hdl : (s.fetches f).done < (s.fetches f).run_count := by simpa [Fetch.live] using hlive
  have hfill := (h.fills f hf hlive).finish_run hdl ok (s.fetches f).stamp
  refine h.update hf (h.store.apply (.finish_run _ ok _)) hr ?_ (h.keep_others hf hlive ok) ?_ ?_
  · intro hl
    have hl' : r.done < r.run_count := by simpa [Fetch.live] using hl
    rw [hdone, hruns] at hl'
    rw [hslot, hruns, hdone]
    exact hfill.2.1 hl'
  · intro f' hf' hne hl hl' heq
    exact hne (h.apart f' hf' f hf hl' hlive (heq.trans hslot))
  · intro g
    rw [hgroup, hreports]
    rfl

theorem PlannerInv.take_off (h : PlannerInv s) {f : Nat} {r : Fetch} {v : FetchGroup}
    (hf : f < s.count) (hr : r.Accounted) (hslot : r.slot = (s.fetches f).slot)
    (hruns : r.run_count = (s.fetches f).run_count) (hdone : r.done = (s.fetches f).done)
    (hold : (s.fetches f).reports = 0)
    (hreports : r.reports = 1)
    (hv : v.pending = (s.groups (s.fetches f).group).pending - 1) :
    PlannerInv ((s.set_group (s.fetches f).group v).set_fetch f r) := by
  have hlive : r.live = (s.fetches f).live := by rw [Fetch.live, Fetch.live, hruns, hdone]
  refine h.update hf h.store hr ?_ ?_ ?_ ?_
  · intro hl
    rw [hslot, hruns, hdone]
    exact h.fills f hf (hlive ▸ hl)
  · intro f' hf' _ hl
    exact h.fills f' hf' hl
  · intro f' hf' hne hl hl' heq
    exact hne (h.apart f' hf' f hf hl' (hlive ▸ hl) (heq.trans hslot))
  · intro g
    rw [hold, hreports]
    by_cases hg : (s.fetches f).group = g
    · subst hg
      simp [set_group, hv]
    · have hne : g ≠ (s.fetches f).group := fun heq => hg heq.symm
      simp [set_group, Function.update_of_ne hne, hg]

/-! ### The steps -/

theorem PlannerInv.store_step (h : PlannerInv s) {op : Op} (hop : op.keeps_contents)
    (howner : ∀ slot, op.finishes = some slot → ¬ s.owns slot) :
    PlannerInv { s with store := s.store.apply op } := by
  refine ⟨h.store.apply op, h.accounted, ?_, h.apart, h.pending⟩
  intro f hf hlive
  refine (h.fills f hf hlive).apply h.store hop ?_
  intro hfin
  apply howner _ hfin
  rw [owns, List.any_eq_true]
  exact ⟨f, List.mem_range.mpr hf, by simp [show (s.fetches f).live = true from hlive]⟩

theorem push_old (s : Planner) (r : Fetch) {f : Nat} (hf : f < s.count) :
    (s.push r).fetches f = s.fetches f :=
  Function.update_of_ne (Nat.ne_of_lt hf) _ _

theorem push_new (s : Planner) (r : Fetch) : (s.push r).fetches s.count = r :=
  Function.update_self _ _ _

/-- A new fetch, not live yet, enters its group's count. -/
theorem PlannerInv.push (h : PlannerInv s) {r : Fetch} {v : FetchGroup} (hr : r.Accounted)
    (hdead : r.live = false) (hreports : r.reports = 0)
    (hv : v.pending = (s.groups r.group).pending + 1) :
    PlannerInv ((s.set_group r.group v).push r) := by
  have hold : ∀ {f}, f < s.count → ((s.set_group r.group v).push r).fetches f = s.fetches f :=
    fun {f} hf => push_old (s.set_group r.group v) r hf
  have hnew : ((s.set_group r.group v).push r).fetches s.count = r :=
    push_new (s.set_group r.group v) r
  have hcases : ∀ {f}, f < s.count + 1 → f < s.count ∨ f = s.count := by
    intro f hf
    omega
  -- the new fetch fills no slot yet, so the fills are those of the old ones
  refine ⟨h.store, ?_, ?_, ?_, ?_⟩
  · intro f hf
    rcases hcases hf with hlt | rfl
    · rw [hold hlt]
      exact h.accounted f hlt
    · rw [hnew]
      exact hr
  · intro f hf hl
    rcases hcases hf with hlt | rfl
    · rw [hold hlt] at hl ⊢
      exact h.fills f hlt hl
    · rw [hnew, hdead] at hl
      cases hl
  · intro f hf f' hf' hl hl' heq
    rcases hcases hf with hlt | rfl
    · rcases hcases hf' with hlt' | rfl
      · rw [hold hlt] at hl heq
        rw [hold hlt'] at hl' heq
        exact h.apart f hlt f' hlt' hl hl' heq
      · rw [hnew, hdead] at hl'
        cases hl'
    · rw [hnew, hdead] at hl
      cases hl
  · intro g
    have hpending := h.pending g
    have hsucc : unreported ((s.set_group r.group v).push r) g =
        unreported s g + if r.group = g ∧ r.reports = 0 then 1 else 0 := by
      refine (PointUpdate.count_range_succ _ s.count _).trans ?_
      rw [hnew]
      congr 1
      apply PointUpdate.count_congr
      intro f hf
      rw [hold (Finset.mem_range.mp hf)]
    rw [hsucc, hreports]
    by_cases hg : r.group = g
    · subst hg
      simp [Planner.push, set_group, set_fetch, hv, hpending]
    · have hne : g ≠ r.group := fun heq => hg heq.symm
      simp [Planner.push, set_group, set_fetch, Function.update_of_ne hne, hg, hpending]

/-- `begin_fill` gives the fetch a slot no live fetch has, or fails and leaves the store. -/
theorem PlannerInv.begin_fill_step (h : PlannerInv s) {f : Nat}
    (hs : s.step (.begin_fill f) = some s') : PlannerInv s' := by
  simp only [step] at hs
  split at hs
  next hen =>
    obtain ⟨hf, hphase⟩ := hen
    have hacc := h.accounted f hf
    have hfresh : (s.fetches f).run_count = 0 ∧ (s.fetches f).done = 0 ∧
        (s.fetches f).inflight = [] ∧ (s.fetches f).due = 0 ∧ (s.fetches f).reports = 0 := by
      rcases hphase with hp | hp
      · simpa [Fetch.Accounted, hp] using hacc
      · simpa [Fetch.Accounted, hp] using hacc
    obtain ⟨hruns, hdone, hin, hdue, hrep⟩ := hfresh
    cases hres : s.store.begin_fill (s.fetches f).key (s.fetches f).entry .Cached with
    | mk res st =>
      rw [hres] at hs
      cases hs
      cases res with
      | error e =>
        obtain rfl := begin_fill_error hres
        have hr : (reserved (s.fetches f) (.error e)).Accounted := by
          unfold reserved
          dsimp only
          split
          · exact ⟨hruns, hdone, hin, hdue, hrep⟩
          · exact ⟨by rw [hdone, hruns], hin, hdue, hrep⟩
        refine h.same_fill hf hr ?_ ?_ ?_ ?_ ?_ <;>
          (unfold reserved; dsimp only; split <;> rfl)
      | ok res =>
        obtain ⟨hpos, hfill, hfree, hsize, hother⟩ := begin_fill_ok h.store hres
        have hst : Inv st := by
          have := h.store.apply (.begin_fill (s.fetches f).key (s.fetches f).entry .Cached)
          simpa only [ExpertStore.apply, hres] using this
        -- the slot was Free, so it is nobody's
        have hnew : ∀ f' < s.count, (s.fetches f').live → (s.fetches f').slot ≠ res.slot := by
          intro f' hf' hl heq
          have := (h.fills f' hf' hl).filling
          rw [heq, hfree] at this
          cases this
        refine h.update hf hst ?_ ?_ ?_ ?_ ?_
        · refine ⟨hpos, Nat.zero_le _, ?_, ?_⟩
          · simp [reserved, hdone, hin]
          · have hlt : ¬ (s.fetches f).done = res.run_count := by omega
            simp [reserved, hdue, hrep, hlt]
        · intro _
          simpa [reserved, hdone] using hfill
        · intro f' hf' _ hl
          exact (h.fills f' hf' hl).of_slots hsize (hother _ (hnew f' hf' hl))
        · intro f' hf' _ _ hl
          exact hnew f' hf' hl
        · intro g
          rfl
  · cases hs

theorem PlannerInv.reclaim_step (h : PlannerInv s) {f : Nat} {freed : Bool}
    (hs : s.step (.reclaim f freed) = some s') : PlannerInv s' := by
  simp only [step] at hs
  split at hs
  next hen =>
    obtain ⟨hf, hphase⟩ := hen
    have hacc := h.accounted f hf
    simp only [Fetch.Accounted, hphase] at hacc
    obtain ⟨hruns, hdone, hin, hdue, hrep⟩ := hacc
    cases hs
    refine h.same_fill hf ?_ rfl rfl rfl rfl rfl
    cases freed with
    | true => exact ⟨hruns, hdone, hin, hdue, hrep⟩
    | false => exact ⟨by rw [hdone, hruns], hin, hdue, hrep⟩
  · cases hs

theorem PlannerInv.submit_step (h : PlannerInv s) {f : Nat} {accepted : Bool}
    (hs : s.step (.submit f accepted) = some s') : PlannerInv s' := by
  simp only [step] at hs
  split at hs
  next next hphase =>
    split at hs
    next hen =>
      obtain ⟨hf, hnext⟩ := hen
      have hacc := h.accounted f hf
      simp only [Fetch.Accounted, hphase] at hacc
      obtain ⟨hpos, _, hsum, hcount⟩ := hacc
      rw [if_neg (by omega)] at hcount
      split at hs
      · cases hs
        refine h.same_fill hf ⟨hpos, hnext, ?_, ?_⟩ rfl rfl rfl rfl rfl
        · simp only [List.length_cons]
          omega
        · dsimp only
          rw [if_neg (by omega), hcount]
      · cases hs
        refine h.same_fill hf ⟨hnext, hsum, ?_, ?_⟩ rfl rfl rfl rfl rfl
        · dsimp only
          omega
        · dsimp only
          omega
    · cases hs
  · cases hs

theorem PlannerInv.submitted_step (h : PlannerInv s) {f : Nat}
    (hs : s.step (.submitted f) = some s') : PlannerInv s' := by
  simp only [step] at hs
  split at hs
  next hen =>
    obtain ⟨hf, hphase⟩ := hen
    have hacc := h.accounted f hf
    simp only [Fetch.Accounted, hphase] at hacc
    obtain ⟨_, _, hsum, hcount⟩ := hacc
    cases hs
    exact h.same_fill hf ⟨hsum, hcount⟩ rfl rfl rfl rfl rfl
  · cases hs

/-- One report of the error branch; the last one finds no run with the engine. -/
theorem PlannerInv.abort_step (h : PlannerInv s) {f : Nat}
    (hclear : ∀ next, (s.fetches f).phase = .aborting next → next + 1 = (s.fetches f).run_count →
      (s.fetches f).inflight = [])
    (hs : s.step (.abort f) = some s') : PlannerInv s' := by
  simp only [step] at hs
  split at hs
  next next hphase =>
    split at hs
    next hen =>
      obtain ⟨hf, hnext⟩ := hen
      have hacc := h.accounted f hf
      simp only [Fetch.Accounted, hphase] at hacc
      obtain ⟨_, hsum, hdue, hrep⟩ := hacc
      have hlive : (s.fetches f).live := by
        simp only [Fetch.live, decide_eq_true_eq]
        omega
      cases hs
      refine h.count_run hf hlive false ?_ rfl rfl rfl rfl rfl
      split
      next hlast =>
        have hempty := hclear next hphase hlast
        refine ⟨?_, hempty, hdue, hrep⟩
        rw [hempty, List.length_nil] at hsum
        dsimp only
        omega
      next hmore =>
        refine ⟨?_, ?_, hdue, hrep⟩
        · dsimp only
          omega
        · dsimp only
          omega
    · cases hs
  · cases hs

theorem PlannerInv.return_error_step (h : PlannerInv s) {f : Nat}
    (hs : s.step (.return_error f) = some s') : PlannerInv s' := by
  simp only [step] at hs
  split at hs
  next hen =>
    obtain ⟨hf, hphase⟩ := hen
    have hacc := h.accounted f hf
    simp only [Fetch.Accounted, hphase] at hacc
    obtain ⟨hdone, hin, hdue, hrep⟩ := hacc
    cases hs
    refine h.take_off hf ⟨?_, ?_⟩ rfl rfl rfl hrep ?_ rfl
    · simp [hin, hdone]
    · simp [hdue, hrep, hdone]
    · simp [hrep]
  · cases hs

/-- A run lands: it is counted, and when it is the last one the report is due. -/
theorem PlannerInv.complete_step (h : PlannerInv s) {f i : Nat} {ok : Bool}
    (hs : s.step (.complete f i ok) = some s') : PlannerInv s' := by
  simp only [step] at hs
  split at hs
  next hen =>
    obtain ⟨hf, hi⟩ := hen
    have hacc := h.accounted f hf
    obtain ⟨hlt, hdue, hrep⟩ := hacc.live_of_inflight hi
    have hlive : (s.fetches f).live := by simpa [Fetch.live] using hlt
    have hanswer := ((h.fills f hf hlive).finish_run hlt ok (s.fetches f).stamp).1
    cases hs
    refine h.count_run hf hlive ok ?_ rfl rfl rfl rfl rfl
    rw [hanswer]
    exact hacc.landed hi ok
  · cases hs

theorem PlannerInv.report_step (h : PlannerInv s) {f : Nat}
    (hs : s.step (.report f) = some s') : PlannerInv s' := by
  simp only [step] at hs
  split at hs
  next hen =>
    obtain ⟨hf, hdue⟩ := hen
    have hacc := h.accounted f hf
    obtain ⟨honce, _⟩ := hacc.once
    cases hs
    refine h.take_off hf (hacc.reported hdue) rfl rfl rfl (by omega) ?_ rfl
    dsimp only
    omega
  · cases hs

/-! ### Whole runs -/

/-- The step that accounts for the last run of a failed call finds none of its runs still
    with the engine. -/
def AbortsClear (s : Planner) : Action → Prop
  | .abort f => ∀ next, (s.fetches f).phase = .aborting next →
      next + 1 = (s.fetches f).run_count → (s.fetches f).inflight = []
  | _ => True

instance (s : Planner) (a : Action) : Decidable (AbortsClear s a) :=
  match a with
  | .abort f =>
    match hp : (s.fetches f).phase with
    | .aborting next =>
      decidable_of_iff (next + 1 = (s.fetches f).run_count → (s.fetches f).inflight = [])
        ⟨fun h n hn => by rw [hp] at hn; cases hn; exact h, fun h => h next hp⟩
    | .reserving | .reclaiming | .retrying | .submitting _ | .failed | .returned =>
      isTrue fun n hn => by rw [hp] at hn; cases hn
  | .store _ | .start .. | .begin_fill _ | .reclaim .. | .submit .. | .submitted _
  | .return_error _ | .complete .. | .report _ => isTrue trivial

theorem PlannerInv.step (h : PlannerInv s) {a : Action} (hclear : AbortsClear s a)
    (hs : s.step a = some s') : PlannerInv s' := by
  cases a with
  | store op =>
    simp only [Planner.step] at hs
    split at hs
    next hen =>
      cases hs
      exact h.store_step hen.1 hen.2
    · cases hs
  | start group key entry stamp =>
    cases hs
    exact h.push ⟨rfl, rfl, rfl, rfl, rfl⟩ rfl rfl rfl
  | begin_fill f => exact h.begin_fill_step hs
  | reclaim f freed => exact h.reclaim_step hs
  | submit f accepted => exact h.submit_step hs
  | submitted f => exact h.submitted_step hs
  | abort f => exact h.abort_step hclear hs
  | return_error f => exact h.return_error_step hs
  | complete f i ok => exact h.complete_step hs
  | report f => exact h.report_step hs

theorem reachable_planner_inv (h : LTS.Reachable (planner_system.restrict AbortsClear) s) :
    PlannerInv s := by
  refine h.invariant ?_ ?_
  · intro s hs
    obtain ⟨hcount, hgroups, st₀, backing, cache, layers, experts, hinit⟩ := hs
    have hempty := init_empty st₀ backing cache layers experts (by rw [hinit])
    rw [hinit] at hempty
    refine ⟨hempty.inv, ?_, ?_, ?_, ?_⟩
    · intro f hf
      omega
    · intro f hf
      omega
    · intro f hf
      omega
    · intro g
      rw [hgroups, unreported, hcount]
      rfl
  · intro s a s' hinv hstep
    exact hinv.step hstep.2 hstep.1

/-- A fetch whose call has returned, and whose runs and callback are all through. -/
def Fetch.finished (r : Fetch) : Prop := r.phase = .returned ∧ r.inflight = [] ∧ r.due = 0

/-- Fetch-group accounting. In every run in which the error branch of `fetch` accounts for its
    last run only when none of the call's runs is still with the engine: no fetch is taken off
    its counter twice, each one that is through was taken off exactly once and has all its
    runs reported, and a group's counter is the number of its fetches not yet reported, so that
    it is never negative, and zero exactly when all are. -/
theorem fetch_groups_agree (h : LTS.Reachable (planner_system.restrict AbortsClear) s) :
    (∀ f < s.count, (s.fetches f).reports ≤ 1) ∧
    (∀ f < s.count, (s.fetches f).finished → (s.fetches f).reports = 1) ∧
    (∀ g, (s.groups g).pending = unreported s g) ∧
    (∀ g, 0 ≤ (s.groups g).pending) ∧
    (∀ g, (s.groups g).pending = 0 ↔ ∀ f < s.count, (s.fetches f).group = g →
      (s.fetches f).reports = 1 ∧ (s.fetches f).done = (s.fetches f).run_count) := by
  have hinv := reachable_planner_inv h
  refine ⟨?_, ?_, hinv.pending, ?_, ?_⟩
  · intro f hf
    have := (hinv.accounted f hf).once.1
    omega
  · intro f hf hfin
    obtain ⟨hphase, hin, hdue⟩ := hfin
    have hacc := hinv.accounted f hf
    simp only [Fetch.Accounted, hphase, hin, List.length_nil, Nat.add_zero] at hacc
    rw [if_pos hacc.1] at hacc
    omega
  · intro g
    rw [hinv.pending g]
    exact Int.natCast_nonneg _
  · intro g
    rw [hinv.pending g, Int.natCast_eq_zero]
    constructor
    · intro hzero f hf hg
      have honce := (hinv.accounted f hf).once
      have hne : (s.fetches f).reports ≠ 0 := by
        intro hrep
        have := PointUpdate.count_pos (fun r : Fetch => r.group = g ∧ r.reports = 0)
          (Finset.mem_range.mpr hf) (f := s.fetches) ⟨hg, hrep⟩
        unfold unreported at hzero
        omega
      have hone : (s.fetches f).reports = 1 := by omega
      exact ⟨hone, (honce.2 hone).1⟩
    · intro hall
      apply PointUpdate.count_eq_zero
      intro f hf hbad
      have := (hall f (Finset.mem_range.mp hf) hbad.1).1
      omega

/-! ### A refused run -/

def fresh_planner : Planner := { store := small_store, fetches := fun _ => { entry := two_runs } }

theorem fresh_planner_init : planner_system.init fresh_planner :=
  ⟨rfl, rfl, {}, _, _, _, _, small_store_init⟩

/-- The second run is refused while the first is with the engine, and that one lands last:
    its report settles the slot the caller has already accounted for. -/
def refused_run : List Action :=
  [.start 0 ⟨0, 5⟩ two_runs 1, .begin_fill 0, .submit 0 true, .submit 0 false, .abort 0,
    .return_error 0, .complete 0 0 true, .report 0]

theorem refused_run_reported_twice :
    ¬ ∀ s, LTS.Reachable planner_system s →
      (s.fetches 0).reports ≤ 1 ∧ (s.groups 0).pending = unreported s 0 ∧
        0 ≤ (s.groups 0).pending := by
  intro h
  obtain ⟨s, hreach, hs⟩ := LTS.Reachable.of_execute Planner.step refused_run
    (fun s => (s.fetches 0).reports = 2 ∧ (s.groups 0).pending = -1) fresh_planner_init
    (by decide +kernel)
  have := (h s hreach).1
  simp only [Bool.decide_and, Bool.and_eq_true, decide_eq_true_eq] at hs
  omega

/-- The same refusal, with the first run landing before the error branch is through. -/
def cleared_run : List Action :=
  [.start 0 ⟨0, 5⟩ two_runs 1, .begin_fill 0, .submit 0 true, .submit 0 false,
    .complete 0 0 true, .abort 0, .return_error 0]

theorem fetch_groups_agree_cleared :
    ∃ s, LTS.Reachable (planner_system.restrict AbortsClear) s ∧ (s.fetches 0).finished ∧
      (s.fetches 0).reports = 1 ∧ 0 ≤ (s.groups 0).pending := by
  obtain ⟨s, hreach, hs⟩ := LTS.Reachable.of_guarded Planner.step AbortsClear cleared_run
    (fun s => 0 < s.count ∧ (s.fetches 0).phase = .returned ∧ (s.fetches 0).inflight = [] ∧
      (s.fetches 0).due = 0) fresh_planner_init (by decide +kernel)
  simp only [Bool.decide_and, Bool.and_eq_true, decide_eq_true_eq] at hs
  obtain ⟨hcount, hfin⟩ := hs
  have h := fetch_groups_agree hreach
  exact ⟨s, hreach, hfin, h.2.1 0 hcount hfin, h.2.2.2.1 0⟩

end CachedMoe.Store
