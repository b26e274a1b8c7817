import CachedMoe.Framework.System
import CachedMoe.Framework.Table
import CachedMoe.Runtime.KvFile
import Mathlib.Data.List.Sort

/-! # The disk writer

    `KvDiskWriter` of `runtime/session.cpp`: callers queue snapshots of named sessions, one
    thread writes them. A later snapshot of a name replaces the one that waits; a caller whose
    snapshot does not fit the queue's budget waits for room; `discard` takes back what is not
    written yet. A step is what a thread does under one hold of `mutex_`. -/

namespace CachedMoe.Runtime

open CachedMoe

/-! ### State -/

/-- A snapshot in the queue. A `save` is told of its outcome by the order it got. -/
structure Pending where
  snapshot : ParkedContext
  order : Nat
  completions : List Nat := []
  deriving Repr, DecidableEq

/-- A snapshot that was queued, for the record. -/
structure Snap where
  name : Bytes
  snapshot : ParkedContext
  order : Nat
  deriving Repr, DecidableEq

def Pending.snap (name : Bytes) (p : Pending) : Snap := ⟨name, p.snapshot, p.order⟩

structure WriterStats where
  queued : Nat := 0
  written : Nat := 0
  coalesced : Nat := 0
  errors : Nat := 0
  backpressure : Nat := 0
  deriving Repr, DecidableEq

/-- A call of `enqueue`, or of `save` when `wants` is set. -/
structure Caller where
  name : Bytes
  snapshot : ParkedContext
  wants : Bool := false
  deriving Repr, DecidableEq

structure KvDiskWriter where
  queue_budget : Nat := 2 ^ 28
  pending : Table Bytes Pending := []
  pending_bytes : Nat := 0
  stats : WriterStats := {}
  stopping : Bool := false
  busy : Bool := false
  writing : Bytes := []
  /-- The snapshot of the write under way, and its completions. -/
  snapshot : ParkedContext := {}
  job : List Nat := []
  /-- The thread has returned. -/
  exited : Bool := false
  /-- Calls that wait for room. -/
  waiting : List Caller := []
  /-- The outcomes of the `save`s that are done. -/
  done : Nat → Option (Result Unit) := fun _ => none
  /-- All snapshots that were queued, and those whose write was attempted, in order. -/
  enqueued : List Snap := []
  attempts : List Snap := []
  /-- The snapshots that `discard` was called for before their write was attempted. -/
  discarded : List Snap := []

namespace KvDiskWriter

/-! ### Steps -/

def has_space (w : KvDiskWriter) (name : Bytes) (bytes : Nat) : Bool :=
  let previous := (w.pending.find name).elim 0 fun p => p.snapshot.bytes
  let other_bytes := w.pending_bytes - previous
  other_bytes = 0 || (bytes ≤ w.queue_budget && other_bytes ≤ w.queue_budget - bytes)

/-- `queue`, once there is room. -/
def insert (w : KvDiskWriter) (c : Caller) : KvDiskWriter :=
  let order := w.stats.queued + 1
  let old := w.pending.find c.name
  let completions := (old.elim [] Pending.completions) ++ (if c.wants then [order] else [])
  let entry : Pending := { snapshot := c.snapshot, order, completions }
  { w with
    pending := w.pending.put c.name entry
    pending_bytes := w.pending_bytes - (old.elim 0 fun p => p.snapshot.bytes) + c.snapshot.bytes
    stats := { w.stats with
      queued := order
      coalesced := w.stats.coalesced + (if old.isSome then 1 else 0) }
    enqueued := w.enqueued ++ [entry.snap c.name] }

/-- The outcomes of `completions` are set to `r`. -/
def complete (w : KvDiskWriter) (completions : List Nat) (r : Result Unit) :
    Nat → Option (Result Unit) :=
  fun i => if i ∈ completions then some r else w.done i

def cancelled : Result Unit := fail .Cancelled "KV snapshot discarded during reset"

/-- The first part of `discard`, before it waits. -/
def discard (w : KvDiskWriter) (name : Bytes) : KvDiskWriter :=
  let discarded := w.discarded ++
    w.enqueued.filter fun e => e.name == name && decide (e ∉ w.attempts ∧ e ∉ w.discarded)
  match w.pending.find name with
  | none => { w with discarded }
  | some p =>
    { w with
      pending := w.pending.erase name
      pending_bytes := w.pending_bytes - p.snapshot.bytes
      done := w.complete p.completions cancelled
      discarded }

/-- `discard` goes on when the name is not being written. -/
def can_return (w : KvDiskWriter) (name : Bytes) : Bool := !w.busy || w.writing != name

/-- `std::min_element` by `order`. -/
@[grind =] def min_element : Table Bytes Pending → Option (Bytes × Pending)
  | [] => none
  | e :: es =>
    match min_element es with
    | none => some e
    | some m => if m.2.order < e.2.order then some m else some e

/-- The writer takes the oldest entry, to call `write_` for it. -/
def take (w : KvDiskWriter) : Option KvDiskWriter :=
  if w.exited ∨ w.busy then none
  else
    match min_element w.pending with
    | none => none
    | some (name, p) =>
      some { w with
        pending := w.pending.erase name
        pending_bytes := w.pending_bytes - p.snapshot.bytes
        snapshot := p.snapshot
        job := p.completions
        busy := true
        writing := name
        attempts := w.attempts ++ [p.snap name] }

/-- `write_` has returned `r`. -/
def finish (w : KvDiskWriter) (r : Result Unit) : Option KvDiskWriter :=
  if w.busy then
    some { w with
      stats :=
        match r with
        | .ok _ => { w.stats with written := w.stats.written + 1 }
        | .error _ => { w.stats with errors := w.stats.errors + 1 }
      done := w.complete w.job r
      job := []
      busy := false
      writing := [] }
  else none

/-- `flush` returns. -/
def flushed (w : KvDiskWriter) : Bool := w.pending.isEmpty && !w.busy

inductive Action where
  | queue (c : Caller)
  /-- A waiting call finds room. -/
  | wake (i : Nat)
  | discard (name : Bytes)
  | discard_return (name : Bytes)
  | flush
  | take
  | finish (r : Result Unit)
  /-- The destructor. -/
  | stop
  | exit

def step (w : KvDiskWriter) : Action → Option KvDiskWriter
  | .queue c =>
    if w.stopping then none
    else if w.has_space c.name c.snapshot.bytes then some (w.insert c)
    else
      some { w with
        stats := { w.stats with backpressure := w.stats.backpressure + 1 }
        waiting := w.waiting ++ [c] }
  | .wake i =>
    match w.waiting[i]? with
    | none => none
    | some c =>
      if w.has_space c.name c.snapshot.bytes then
        some (insert { w with waiting := w.waiting.eraseIdx i } c)
      else none
  | .discard name => if w.stopping then none else some (w.discard name)
  | .discard_return name => if w.can_return name then some w else none
  | .flush => if w.flushed then some w else none
  | .take => w.take
  | .finish r => w.finish r
  | .stop => if w.waiting = [] then some { w with stopping := true } else none
  | .exit =>
    if w.stopping ∧ w.pending = [] ∧ ¬ w.busy then some { w with exited := true } else none

end KvDiskWriter

open KvDiskWriter

def writer_system : LTS.System KvDiskWriter KvDiskWriter.Action :=
  .ofNext (fun w => ∃ queue_budget, w = { queue_budget }) KvDiskWriter.step

/-! ### The queue and its record -/

namespace KvDiskWriter

/-- The last write attempted for a name. -/
def last_write (w : KvDiskWriter) (name : Bytes) : Option Snap :=
  (w.attempts.filter fun e => e.name == name).getLast?

/-- The newest snapshot of a name that was not discarded. -/
def newest (w : KvDiskWriter) (name : Bytes) : Option Snap :=
  (w.enqueued.filter fun e => e.name == name && decide (e ∉ w.discarded)).getLast?

end KvDiskWriter

structure WriterInv (w : KvDiskWriter) : Prop where
  keys : w.pending.keys.Nodup
  bytes : w.pending_bytes = (w.pending.map fun e => e.2.snapshot.bytes).sum
  budget : w.pending_bytes ≤ w.queue_budget ∨ w.pending.length ≤ 1
  orders : w.enqueued.Pairwise fun e e' => e.order < e'.order
  queued : ∀ e ∈ w.enqueued, e.order ≤ w.stats.queued
  recorded : ∀ e ∈ w.pending, e.2.snap e.1 ∈ w.enqueued
  attempted : ∀ e ∈ w.attempts, e ∈ w.enqueued
  in_order : w.attempts.Pairwise fun e e' => e.order < e'.order
  /-- What waits is newer than all that was written. -/
  ahead : ∀ e ∈ w.attempts, ∀ e' ∈ w.pending, e.order < e'.2.order
  dropped : ∀ e ∈ w.discarded, e ∈ w.enqueued ∧ e ∉ w.attempts
  kept : ∀ e ∈ w.pending, e.2.snap e.1 ∉ w.discarded
  newest : ∀ name, w.newest name =
    ((w.pending.find name).map (Pending.snap name)).or (w.last_write name)
  fate : ∀ e ∈ w.enqueued, e ∈ w.attempts ∨ e ∈ w.discarded ∨
    (∃ p, w.pending.find e.name = some p ∧ p.snap e.name = e) ∨
    ∃ e' ∈ w.enqueued, e'.name = e.name ∧ e.order < e'.order

/-- The part of the state the invariant is about. -/
structure SameQueue (w w' : KvDiskWriter) : Prop where
  queue_budget : w'.queue_budget = w.queue_budget
  pending : w'.pending = w.pending
  pending_bytes : w'.pending_bytes = w.pending_bytes
  queued : w'.stats.queued = w.stats.queued
  enqueued : w'.enqueued = w.enqueued
  attempts : w'.attempts = w.attempts
  discarded : w'.discarded = w.discarded

section Step

variable {w w' : KvDiskWriter}

theorem WriterInv.of_same (h : WriterInv w) (hsame : SameQueue w w') : WriterInv w' := by
  obtain ⟨hbudget, hpending, hbytes, hqueued, henqueued, hattempts, hdiscarded⟩ := hsame
  refine ⟨?_, ?_, ?_, ?_, ?_, ?_, ?_, ?_, ?_, ?_, ?_, ?_, ?_⟩
  · rw [hpending]
    exact h.keys
  · rw [hpending, hbytes]
    exact h.bytes
  · rw [hpending, hbytes, hbudget]
    exact h.budget
  · rw [henqueued]
    exact h.orders
  · rw [henqueued, hqueued]
    exact h.queued
  · rw [hpending, henqueued]
    exact h.recorded
  · rw [hattempts, henqueued]
    exact h.attempted
  · rw [hattempts]
    exact h.in_order
  · rw [hattempts, hpending]
    exact h.ahead
  · rw [hdiscarded, henqueued, hattempts]
    exact h.dropped
  · rw [hpending, hdiscarded]
    exact h.kept
  · unfold KvDiskWriter.newest KvDiskWriter.last_write
    rw [hpending, hdiscarded, henqueued, hattempts]
    exact h.newest
  · rw [hpending, hdiscarded, henqueued, hattempts]
    exact h.fate

theorem WriterInv.init (queue_budget : Nat) : WriterInv { queue_budget } :=
  ⟨.nil, rfl, .inl (Nat.zero_le _), .nil, nofun, nofun, nofun, .nil, nofun, nofun, nofun,
    fun _ => rfl, nofun⟩

/-- A queue that takes no room is empty. -/
theorem sum_bytes_eq_zero {t : Table Bytes Pending}
    (h : (t.map fun e => e.2.snapshot.bytes).sum = 0) : t = [] := by
  cases t with
  | nil => rfl
  | cons e t =>
    have hpos := e.2.snapshot.bytes_pos
    rw [List.map_cons, List.sum_cons] at h
    omega

/-! ### Queueing -/

/-- What queueing `p` for `name` does. -/
structure Queued (w w' : KvDiskWriter) (name : Bytes) (p : Pending) : Prop where
  queue_budget : w'.queue_budget = w.queue_budget
  pending : w'.pending = w.pending.put name p
  pending_bytes : w'.pending_bytes =
    w.pending_bytes - ((w.pending.find name).elim 0 fun p => p.snapshot.bytes) + p.snapshot.bytes
  order : p.order = w.stats.queued + 1
  queued : w'.stats.queued = w.stats.queued + 1
  enqueued : w'.enqueued = w.enqueued ++ [p.snap name]
  attempts : w'.attempts = w.attempts
  discarded : w'.discarded = w.discarded

theorem insert_queued (w : KvDiskWriter) (c : Caller) :
    ∃ p, p.snapshot = c.snapshot ∧ Queued w (w.insert c) c.name p :=
  ⟨_, rfl, rfl, rfl, rfl, rfl, rfl, rfl, rfl, rfl⟩

namespace Queued

variable {name : Bytes} {p : Pending}

theorem order_lt (hq : Queued w w' name p) (h : WriterInv w) {e : Snap} (he : e ∈ w.enqueued) :
    e.order < p.order := by
  have hle := h.queued e he
  rw [hq.order]
  omega

theorem fresh (hq : Queued w w' name p) (h : WriterInv w) : p.snap name ∉ w.enqueued :=
  fun hmem => lt_irrefl _ (hq.order_lt h hmem)

theorem mem_enqueued (hq : Queued w w' name p) {e : Snap} :
    e ∈ w'.enqueued ↔ e ∈ w.enqueued ∨ e = p.snap name := by
  rw [hq.enqueued, List.mem_append, List.mem_singleton]

theorem mem_pending (hq : Queued w w' name p) {e : Bytes × Pending} :
    e ∈ w'.pending ↔ (e ∈ w.pending ∧ e.1 ≠ name) ∨ e = (name, p) := by
  rw [hq.pending, Table.mem_put]

theorem bytes (hq : Queued w w' name p) (h : WriterInv w) :
    w'.pending_bytes = (w'.pending.map fun e => e.2.snapshot.bytes).sum := by
  have hput := Table.sum_put h.keys (fun p => p.snapshot.bytes) name p
  have herase := Table.sum_erase h.keys (fun p => p.snapshot.bytes) name
  rw [hq.pending, hq.pending_bytes, h.bytes]
  omega

theorem budget (hq : Queued w w' name p) (h : WriterInv w)
    (hspace : w.has_space name p.snapshot.bytes) :
    w'.pending_bytes ≤ w'.queue_budget ∨ w'.pending.length ≤ 1 := by
  have herase := Table.sum_erase h.keys (fun p => p.snapshot.bytes) name
  have hbytes := h.bytes
  simp only [has_space, Bool.or_eq_true, decide_eq_true_eq, Bool.and_eq_true] at hspace
  rw [hq.pending_bytes, hq.queue_budget, hq.pending]
  rcases hspace with hzero | ⟨hfits, hothers⟩
  · right
    have hnil : w.pending.erase name = [] := sum_bytes_eq_zero (by omega)
    simp [Table.put, hnil]
  · left
    omega

theorem newest (hq : Queued w w' name p) (h : WriterInv w) (name' : Bytes) :
    w'.newest name' = ((w'.pending.find name').map (Pending.snap name')).or (w'.last_write name') := by
  have hkept : p.snap name ∉ w.discarded := fun hmem => hq.fresh h (h.dropped _ hmem).1
  unfold KvDiskWriter.newest KvDiskWriter.last_write
  rw [hq.pending, hq.enqueued, hq.attempts, hq.discarded, Table.find_put, List.filter_append]
  by_cases heq : name' = name
  · have hsel : ((p.snap name).name == name && decide (p.snap name ∉ w.discarded)) = true := by
      rw [Bool.and_eq_true]
      exact ⟨beq_self_eq_true _, decide_eq_true hkept⟩
    have hlast : [p.snap name].filter (fun e => e.name == name && decide (e ∉ w.discarded)) =
        [p.snap name] := List.filter_cons_of_pos hsel
    rw [if_pos heq, heq, hlast]
    simp
  · have hother : ((p.snap name).name == name') = false := by
      simpa [Pending.snap] using Ne.symm heq
    rw [if_neg heq, List.filter_cons_of_neg (by simp [hother]), List.filter_nil, List.append_nil]
    exact h.newest name'

/-- What waited under the name before is superseded. -/
theorem fate (hq : Queued w w' name p) (h : WriterInv w) {e : Snap} (he : e ∈ w'.enqueued) :
    e ∈ w'.attempts ∨ e ∈ w'.discarded ∨
      (∃ p, w'.pending.find e.name = some p ∧ p.snap e.name = e) ∨
      ∃ e' ∈ w'.enqueued, e'.name = e.name ∧ e.order < e'.order := by
  rw [hq.attempts, hq.discarded, hq.pending, Table.find_put]
  rcases hq.mem_enqueued.mp he with hold | rfl
  · by_cases hname : e.name = name
    · refine .inr (.inr (.inr ⟨p.snap name, hq.mem_enqueued.mpr (.inr rfl), hname.symm, ?_⟩))
      exact hq.order_lt h hold
    · rw [if_neg hname]
      refine (h.fate e hold).imp_right (Or.imp_right (Or.imp_right ?_))
      intro hnewer
      obtain ⟨e', he', hnewer⟩ := hnewer
      exact ⟨e', hq.mem_enqueued.mpr (.inl he'), hnewer⟩
  · exact .inr (.inr (.inl ⟨p, if_pos rfl, rfl⟩))

theorem inv (hq : Queued w w' name p) (h : WriterInv w) (hspace : w.has_space name p.snapshot.bytes) :
    WriterInv w' := by
  refine ⟨?_, hq.bytes h, hq.budget h hspace, ?_, ?_, ?_, ?_, ?_, ?_, ?_, ?_, hq.newest h,
    fun e he => hq.fate h he⟩
  · rw [hq.pending]
    exact Table.nodup_put h.keys
  · rw [hq.enqueued, List.pairwise_append]
    refine ⟨h.orders, List.pairwise_singleton _ _, ?_⟩
    intro e he e' he'
    rw [List.mem_singleton.mp he']
    exact hq.order_lt h he
  · intro e he
    rw [hq.queued]
    rcases hq.mem_enqueued.mp he with hold | rfl
    · exact (h.queued e hold).trans (Nat.le_succ _)
    · exact hq.order.le
  · intro e he
    rcases hq.mem_pending.mp he with ⟨hold, _⟩ | rfl
    · exact hq.mem_enqueued.mpr (.inl (h.recorded e hold))
    · exact hq.mem_enqueued.mpr (.inr rfl)
  · rw [hq.attempts]
    intro e he
    exact hq.mem_enqueued.mpr (.inl (h.attempted e he))
  · rw [hq.attempts]
    exact h.in_order
  · rw [hq.attempts]
    intro e he e' he'
    rcases hq.mem_pending.mp he' with ⟨hold, _⟩ | rfl
    · exact h.ahead e he e' hold
    · exact hq.order_lt h (h.attempted e he)
  · rw [hq.attempts, hq.discarded]
    intro e he
    exact ⟨hq.mem_enqueued.mpr (.inl (h.dropped e he).1), (h.dropped e he).2⟩
  · rw [hq.discarded]
    intro e he
    rcases hq.mem_pending.mp he with ⟨hold, _⟩ | rfl
    · exact h.kept e hold
    · exact fun hmem => hq.fresh h (h.dropped _ hmem).1

end Queued

/-! ### Taking back -/

theorem mem_discard {name : Bytes} {e : Snap} :
    e ∈ (w.discard name).discarded ↔
      e ∈ w.discarded ∨ (e ∈ w.enqueued ∧ e.name = name ∧ e ∉ w.attempts) := by
  have hmem : e ∈ w.discarded ++ w.enqueued.filter
      (fun e => e.name == name && decide (e ∉ w.attempts ∧ e ∉ w.discarded)) ↔
      e ∈ w.discarded ∨ (e ∈ w.enqueued ∧ e.name = name ∧ e ∉ w.attempts) := by
    rw [List.mem_append, List.mem_filter, Bool.and_eq_true, beq_iff_eq, decide_eq_true_eq]
    by_cases h : e ∈ w.discarded
    · simp [h]
    · simp [h]
  unfold KvDiskWriter.discard
  dsimp only
  split
  · exact hmem
  · exact hmem

theorem discard_same (w : KvDiskWriter) (name : Bytes) :
    (w.discard name).queue_budget = w.queue_budget ∧ (w.discard name).stats = w.stats ∧
    (w.discard name).enqueued = w.enqueued ∧ (w.discard name).attempts = w.attempts ∧
    (w.discard name).pending = w.pending.erase name ∧
    (w.discard name).pending_bytes =
      w.pending_bytes - (w.pending.find name).elim 0 fun p => p.snapshot.bytes := by
  unfold KvDiskWriter.discard
  cases hfind : w.pending.find name with
  | none => exact ⟨rfl, rfl, rfl, rfl, (Table.erase_of_find_none hfind).symm, rfl⟩
  | some p => exact ⟨rfl, rfl, rfl, rfl, rfl, rfl⟩

/-- After a `discard` the newest snapshot of the name is the last one written. -/
theorem WriterInv.newest_discard (h : WriterInv w) (name : Bytes) :
    (w.enqueued.filter fun e => e.name == name && decide (e ∉ (w.discard name).discarded)) =
      w.attempts.filter fun e => e.name == name := by
  refine List.Pairwise.eq_of_mem_iff (r := fun e e' : Snap => e.order < e'.order)
    (h.orders.filter _) (h.in_order.filter _) ?_
  intro e
  rw [List.mem_filter, List.mem_filter, Bool.and_eq_true, beq_iff_eq, decide_eq_true_eq,
    mem_discard]
  constructor
  · intro hleft
    obtain ⟨hmem, hname, hnot⟩ := hleft
    refine ⟨?_, hname⟩
    by_contra hno
    exact hnot (.inr ⟨hmem, hname, hno⟩)
  · intro hright
    obtain ⟨hmem, hname⟩ := hright
    refine ⟨h.attempted e hmem, hname, ?_⟩
    intro hdrop
    rcases hdrop with hold | ⟨_, _, hno⟩
    · exact (h.dropped e hold).2 hmem
    · exact hno hmem

theorem WriterInv.discard (h : WriterInv w) (name : Bytes) : WriterInv (w.discard name) := by
  obtain ⟨hbudget, hstats, henqueued, hattempts, hpending, hbytes⟩ := discard_same w name
  have herase := Table.sum_erase h.keys (fun p => p.snapshot.bytes) name
  have hlength : (w.pending.erase name).length ≤ w.pending.length := List.length_filter_le _ _
  have hsum := h.bytes
  refine ⟨?_, ?_, ?_, ?_, ?_, ?_, ?_, ?_, ?_, ?_, ?_, ?_, ?_⟩
  · rw [hpending]
    exact Table.nodup_erase h.keys
  · rw [hpending, hbytes]
    omega
  · rw [hpending, hbytes, hbudget]
    rcases h.budget with hle | hone
    · left
      omega
    · right
      omega
  · rw [henqueued]
    exact h.orders
  · rw [henqueued, hstats]
    exact h.queued
  · rw [henqueued, hpending]
    intro e he
    exact h.recorded e (Table.mem_erase.mp he).1
  · rw [henqueued, hattempts]
    exact h.attempted
  · rw [hattempts]
    exact h.in_order
  · rw [hattempts, hpending]
    intro e he e' he'
    exact h.ahead e he e' (Table.mem_erase.mp he').1
  · rw [henqueued, hattempts]
    intro e he
    rcases mem_discard.mp he with hold | ⟨hmem, _, hno⟩
    · exact h.dropped e hold
    · exact ⟨hmem, hno⟩
  · rw [hpending]
    intro e he hmem
    obtain ⟨he, hne⟩ := Table.mem_erase.mp he
    rcases mem_discard.mp hmem with hold | ⟨_, hname, _⟩
    · exact h.kept e he hold
    · exact hne hname
  · intro name'
    unfold KvDiskWriter.newest KvDiskWriter.last_write
    rw [hpending, henqueued, hattempts, Table.find_erase]
    by_cases heq : name' = name
    · rw [if_pos heq, heq, h.newest_discard name]
      rfl
    · -- the other names keep what they have
      rw [if_neg heq]
      have hfilter : (w.enqueued.filter fun e =>
          e.name == name' && decide (e ∉ (w.discard name).discarded)) =
          w.enqueued.filter fun e => e.name == name' && decide (e ∉ w.discarded) := by
        refine List.filter_congr fun e _ => ?_
        by_cases hname : e.name = name'
        · have hne : e.name ≠ name := fun hno => heq (hname.symm.trans hno)
          simp [mem_discard, hne]
        · rw [beq_eq_false_iff_ne.mpr hname, Bool.false_and, Bool.false_and]
      rw [hfilter]
      exact h.newest name'
  · rw [henqueued, hattempts, hpending]
    intro e he
    by_cases hname : e.name = name
    · by_cases hatt : e ∈ w.attempts
      · exact .inl hatt
      · exact .inr (.inl (mem_discard.mpr (.inr ⟨he, hname, hatt⟩)))
    · rw [Table.find_erase, if_neg hname]
      refine (h.fate e he).imp_right (Or.imp_left ?_)
      exact fun hold => mem_discard.mpr (.inl hold)

/-! ### Writing -/

theorem min_element_none {t : Table Bytes Pending} : min_element t = none ↔ t = [] := by
  cases t with
  | nil => simp [min_element]
  | cons e t =>
    unfold min_element
    split
    · simp
    · split
      · simp
      · simp

/-- The entry with the least order. -/
theorem min_element_spec {t : Table Bytes Pending} {m : Bytes × Pending} (h : min_element t = some m) :
    m ∈ t ∧ ∀ e ∈ t, m.2.order ≤ e.2.order := by
  induction t generalizing m with
  | nil => cases h
  | cons e t ih =>
    unfold min_element at h
    split at h
    next hnone =>
      cases h
      rw [min_element_none.mp hnone]
      simp
    next m' hm' =>
      obtain ⟨hmem, hle⟩ := ih hm'
      split at h
      next hlt =>
        cases h
        refine ⟨List.mem_cons_of_mem e hmem, ?_⟩
        intro e' he'
        rcases List.mem_cons.mp he' with rfl | htail
        · exact hlt.le
        · exact hle e' htail
      next hge =>
        cases h
        refine ⟨List.mem_cons_self, ?_⟩
        intro e' he'
        rcases List.mem_cons.mp he' with rfl | htail
        · exact le_rfl
        · exact (not_lt.mp hge).trans (hle e' htail)

/-- What taking `p` of `name` off the queue does. -/
structure Taken (w w' : KvDiskWriter) (name : Bytes) (p : Pending) : Prop where
  idle : w.exited = false ∧ w.busy = false
  mem : (name, p) ∈ w.pending
  least : ∀ e ∈ w.pending, p.order ≤ e.2.order
  queue_budget : w'.queue_budget = w.queue_budget
  pending : w'.pending = w.pending.erase name
  pending_bytes : w'.pending_bytes = w.pending_bytes - p.snapshot.bytes
  stats : w'.stats = w.stats
  busy : w'.busy = true
  writing : w'.writing = name
  enqueued : w'.enqueued = w.enqueued
  attempts : w'.attempts = w.attempts ++ [p.snap name]
  discarded : w'.discarded = w.discarded

theorem take_taken (h : w.take = some w') : ∃ name p, Taken w w' name p := by
  unfold KvDiskWriter.take at h
  split at h
  · cases h
  next hidle =>
  rw [not_or] at hidle
  split at h
  · cases h
  next name p hmin =>
    cases h
    obtain ⟨hmem, hleast⟩ := min_element_spec hmin
    exact ⟨name, p, ⟨by simpa using hidle.1, by simpa using hidle.2⟩, hmem, hleast, rfl, rfl, rfl,
      rfl, rfl, rfl, rfl, rfl, rfl⟩

namespace Taken

variable {name : Bytes} {p : Pending}

theorem find (ht : Taken w w' name p) (h : WriterInv w) : w.pending.find name = some p :=
  Table.find_of_mem h.keys ht.mem

/-- What is left is newer. -/
theorem order_lt (ht : Taken w w' name p) (h : WriterInv w) {e : Bytes × Pending}
    (he : e ∈ w'.pending) : p.order < e.2.order := by
  rw [ht.pending] at he
  obtain ⟨he, hne⟩ := Table.mem_erase.mp he
  refine lt_of_le_of_ne (ht.least e he) ?_
  -- two entries of one order would be one snapshot of the record
  intro heq
  have hsnap := h.recorded _ ht.mem
  have hsnap' := h.recorded e he
  have hne' : p.snap name ≠ e.2.snap e.1 := fun hsame => hne (congrArg Snap.name hsame).symm
  have hordered := List.pairwise_iff_getElem.mp h.orders
  obtain ⟨i, hi, hi'⟩ := List.getElem_of_mem hsnap
  obtain ⟨j, hj, hj'⟩ := List.getElem_of_mem hsnap'
  rcases lt_trichotomy i j with hlt | rfl | hgt
  · have hord := hordered i j hi hj hlt
    rw [hi', hj'] at hord
    exact absurd heq (ne_of_lt hord)
  · exact hne' (hi'.symm.trans hj')
  · have hord := hordered j i hj hi hgt
    rw [hi', hj'] at hord
    exact absurd heq.symm (ne_of_lt hord)

theorem newest (ht : Taken w w' name p) (h : WriterInv w) (name' : Bytes) :
    w'.newest name' = ((w'.pending.find name').map (Pending.snap name')).or (w'.last_write name') := by
  have hbefore := h.newest name'
  unfold KvDiskWriter.newest KvDiskWriter.last_write at hbefore ⊢
  rw [ht.enqueued, ht.discarded, ht.attempts, ht.pending, Table.find_erase, hbefore,
    List.filter_append]
  by_cases heq : name' = name
  · have hlast : [p.snap name].filter (fun e => e.name == name) = [p.snap name] :=
      List.filter_cons_of_pos (beq_self_eq_true _)
    rw [if_pos heq, heq, ht.find h, hlast]
    simp
  · have hnone : [p.snap name].filter (fun e => e.name == name') = [] :=
      List.filter_cons_of_neg (by simpa [Pending.snap] using Ne.symm heq)
    rw [if_neg heq, hnone, List.append_nil]

theorem inv (ht : Taken w w' name p) (h : WriterInv w) : WriterInv w' := by
  have herase := Table.sum_erase h.keys (fun p => p.snapshot.bytes) name
  have hlength : (w.pending.erase name).length ≤ w.pending.length := List.length_filter_le _ _
  have hsum := h.bytes
  rw [ht.find h, Option.elim_some] at herase
  -- the entry goes from the queue to the attempts
  refine ⟨?_, ?_, ?_, ?_, ?_, ?_, ?_, ?_, ?_, ?_, ?_, ht.newest h, ?_⟩
  · rw [ht.pending]
    exact Table.nodup_erase h.keys
  · rw [ht.pending, ht.pending_bytes]
    omega
  · rw [ht.pending, ht.pending_bytes, ht.queue_budget]
    rcases h.budget with hle | hone
    · left
      omega
    · right
      omega
  · rw [ht.enqueued]
    exact h.orders
  · rw [ht.enqueued, ht.stats]
    exact h.queued
  · rw [ht.enqueued, ht.pending]
    intro e he
    exact h.recorded e (Table.mem_erase.mp he).1
  · rw [ht.enqueued, ht.attempts]
    intro e he
    rcases List.mem_append.mp he with hold | hlast
    · exact h.attempted e hold
    · rw [List.mem_singleton.mp hlast]
      exact h.recorded _ ht.mem
  · rw [ht.attempts, List.pairwise_append]
    refine ⟨h.in_order, List.pairwise_singleton _ _, ?_⟩
    intro e he e' he'
    rw [List.mem_singleton.mp he']
    exact h.ahead e he _ ht.mem
  · rw [ht.attempts]
    intro e he e' he'
    rcases List.mem_append.mp he with hold | hlast
    · rw [ht.pending] at he'
      exact h.ahead e hold e' (Table.mem_erase.mp he').1
    · rw [List.mem_singleton.mp hlast]
      exact ht.order_lt h he'
  · rw [ht.discarded, ht.enqueued, ht.attempts]
    intro e he
    obtain ⟨hmem, hnot⟩ := h.dropped e he
    refine ⟨hmem, ?_⟩
    rw [List.mem_append, List.mem_singleton]
    intro hatt
    rcases hatt with hold | rfl
    · exact hnot hold
    · exact h.kept _ ht.mem he
  · rw [ht.discarded, ht.pending]
    intro e he
    exact h.kept e (Table.mem_erase.mp he).1
  · rw [ht.discarded, ht.enqueued, ht.attempts, ht.pending]
    intro e he
    rcases h.fate e he with hatt | hdrop | ⟨p', hfind, hsnap⟩ | hnewer
    · exact .inl (List.mem_append_left _ hatt)
    · exact .inr (.inl hdrop)
    · by_cases hname : e.name = name
      · left
        rw [hname, ht.find h] at hfind
        obtain rfl : p = p' := Option.some.inj hfind
        rw [← hsnap, hname]
        exact List.mem_append_right _ List.mem_cons_self
      · right
        right
        left
        rw [Table.find_erase, if_neg hname]
        exact ⟨p', hfind, hsnap⟩
    · exact .inr (.inr (.inr hnewer))

end Taken

/-! ### Whole runs -/

theorem step_inv (h : WriterInv w) {a : Action} (hstep : w.step a = some w') : WriterInv w' := by
  cases a with
  | queue c =>
    simp only [KvDiskWriter.step] at hstep
    split at hstep
    · cases hstep
    split at hstep
    next hspace =>
      cases hstep
      obtain ⟨p, hp, hq⟩ := insert_queued w c
      exact hq.inv h (hp ▸ hspace)
    -- no room: the caller waits
    next =>
      cases hstep
      exact h.of_same ⟨rfl, rfl, rfl, rfl, rfl, rfl, rfl⟩
  | wake i =>
    simp only [KvDiskWriter.step] at hstep
    split at hstep
    · cases hstep
    next c hc =>
    split at hstep
    next hspace =>
      cases hstep
      have hsame : WriterInv { w with waiting := w.waiting.eraseIdx i } :=
        h.of_same ⟨rfl, rfl, rfl, rfl, rfl, rfl, rfl⟩
      obtain ⟨p, hp, hq⟩ := insert_queued { w with waiting := w.waiting.eraseIdx i } c
      exact hq.inv hsame (hp ▸ hspace)
    · cases hstep
  | discard name =>
    simp only [KvDiskWriter.step] at hstep
    split at hstep
    · cases hstep
    · cases hstep
      exact h.discard name
  | take =>
    obtain ⟨name, p, ht⟩ := take_taken hstep
    exact ht.inv h
  | finish r =>
    simp only [KvDiskWriter.step, KvDiskWriter.finish] at hstep
    split at hstep
    · cases hstep
      refine h.of_same ⟨rfl, rfl, rfl, ?_, rfl, rfl, rfl⟩
      cases r with
      | ok _ => rfl
      | error _ => rfl
    · cases hstep
  | discard_return name | flush | stop | exit =>
    simp only [KvDiskWriter.step] at hstep
    split at hstep
    · cases hstep
      exact h.of_same ⟨rfl, rfl, rfl, rfl, rfl, rfl, rfl⟩
    · cases hstep

theorem reachable_writer_inv (h : LTS.Reachable writer_system w) : WriterInv w := by
  refine h.invariant ?_ ?_
  · intro w hinit
    obtain ⟨queue_budget, rfl⟩ := hinit
    exact .init queue_budget
  · intro w a w' hw hstep
    exact step_inv hw hstep

/-- The thread returns only when it has nothing left to do, and then no one queues. -/
structure Ended (w : KvDiskWriter) : Prop where
  waiting : w.stopping = true → w.waiting = []
  exited : w.exited = true → w.stopping = true ∧ w.pending = [] ∧ w.busy = false

theorem step_ended (h : Ended w) {a : Action} (hstep : w.step a = some w') : Ended w' := by
  cases a with
  | queue c =>
    simp only [KvDiskWriter.step] at hstep
    split at hstep
    · cases hstep
    next hrunning =>
    have hexited : w.exited ≠ true := fun hx => hrunning (h.exited hx).1
    split at hstep
    · cases hstep
      exact ⟨h.waiting, fun hx => absurd hx hexited⟩
    · cases hstep
      exact ⟨fun hs => absurd hs hrunning, fun hx => absurd hx hexited⟩
  | wake i =>
    simp only [KvDiskWriter.step] at hstep
    split at hstep
    · cases hstep
    next c hc =>
    -- a stopped writer has no caller waiting
    have hrunning : w.stopping ≠ true := by
      intro hs
      rw [h.waiting hs] at hc
      cases hc
    split at hstep
    · cases hstep
      exact ⟨fun hs => absurd hs hrunning, fun hx => absurd (h.exited hx).1 hrunning⟩
    · cases hstep
  | discard name =>
    simp only [KvDiskWriter.step] at hstep
    split at hstep
    · cases hstep
    next hrunning =>
      cases hstep
      have hsame : (w.discard name).waiting = w.waiting ∧ (w.discard name).stopping = w.stopping ∧
          (w.discard name).exited = w.exited := by
        unfold KvDiskWriter.discard
        dsimp only
        split
        · exact ⟨rfl, rfl, rfl⟩
        · exact ⟨rfl, rfl, rfl⟩
      refine ⟨?_, ?_⟩
      · intro hs
        exact absurd (hsame.2.1.symm.trans hs) hrunning
      · intro hx
        exact absurd (h.exited (hsame.2.2.symm.trans hx)).1 hrunning
  | take =>
    simp only [KvDiskWriter.step, KvDiskWriter.take] at hstep
    split at hstep
    · cases hstep
    next hidle =>
    rw [not_or] at hidle
    split at hstep
    · cases hstep
    · cases hstep
      exact ⟨h.waiting, fun hx => absurd hx hidle.1⟩
  | finish r =>
    simp only [KvDiskWriter.step, KvDiskWriter.finish] at hstep
    split at hstep
    next hbusy =>
      cases hstep
      refine ⟨h.waiting, fun hx => ?_⟩
      obtain ⟨hs, hnil, _⟩ := h.exited hx
      exact ⟨hs, hnil, rfl⟩
    · cases hstep
  | discard_return name | flush =>
    simp only [KvDiskWriter.step] at hstep
    split at hstep
    · cases hstep
      exact h
    · cases hstep
  | stop =>
    simp only [KvDiskWriter.step] at hstep
    split at hstep
    next hnone =>
      cases hstep
      exact ⟨fun _ => hnone, fun hx => ⟨rfl, (h.exited hx).2⟩⟩
    · cases hstep
  | exit =>
    simp only [KvDiskWriter.step] at hstep
    split at hstep
    next hdone =>
      cases hstep
      exact ⟨h.waiting, fun _ => ⟨hdone.1, hdone.2.1, by simpa using hdone.2.2⟩⟩
    · cases hstep

/-- From every state the thread alone can write what is queued, and then `flush` returns. -/
theorem drain (h : Ended w) :
    ∃ as w', LTS.Run writer_system w as w' ∧ (∀ a ∈ as, a = .take ∨ a = .finish (.ok ())) ∧
      w'.flushed = true := by
  induction hn : 2 * w.pending.length + w.busy.toNat using Nat.strong_induction_on
    generalizing w with
  | _ n ih =>
    cases hbusy : w.busy with
    | true =>
      -- a write under way comes to its end
      have hstep : ∃ w', w.step (.finish (.ok ())) = some w' ∧ w'.pending = w.pending ∧
          w'.busy = false := by
        refine ⟨_, if_pos hbusy, rfl, rfl⟩
      obtain ⟨w', hstep, hpending, hidle⟩ := hstep
      obtain ⟨as, w'', hrun, has, hflushed⟩ := ih _ (by
        rw [← hn, hpending, hidle, hbusy]
        simp) (step_ended h hstep) rfl
      refine ⟨.finish (.ok ()) :: as, w'', .cons hstep hrun, ?_, hflushed⟩
      intro a ha
      rcases List.mem_cons.mp ha with rfl | htail
      · exact .inr rfl
      · exact has a htail
    | false =>
      cases hmin : min_element w.pending with
      | none =>
        refine ⟨[], w, .nil w, nofun, ?_⟩
        simp [KvDiskWriter.flushed, min_element_none.mp hmin, hbusy]
      | some m =>
        obtain ⟨hmem, _⟩ := min_element_spec hmin
        have hexited : ¬ w.exited = true := by
          intro hx
          rw [(h.exited hx).2.1] at hmem
          cases hmem
        have hstep : ∃ w', w.step .take = some w' ∧ w'.pending = w.pending.erase m.1 ∧
            w'.busy = true := by
          simp only [KvDiskWriter.step, KvDiskWriter.take, hbusy, hmin]
          rw [if_neg (by simpa using hexited)]
          exact ⟨_, rfl, rfl, rfl⟩
        obtain ⟨w', hstep, hpending, hbusy'⟩ := hstep
        have hless : (w.pending.erase m.1).length < w.pending.length := by
          refine List.length_filter_lt_length_iff_exists.mpr ⟨m, hmem, ?_⟩
          simp
        obtain ⟨as, w'', hrun, has, hflushed⟩ := ih _ (by
          rw [← hn, hpending, hbusy', hbusy]
          simp only [Bool.toNat_true, Bool.toNat_false]
          omega) (step_ended h hstep) rfl
        refine ⟨.take :: as, w'', .cons hstep hrun, ?_, hflushed⟩
        intro a ha
        rcases List.mem_cons.mp ha with rfl | htail
        · exact .inl rfl
        · exact has a htail

theorem reachable_ended (h : LTS.Reachable writer_system w) : Ended w := by
  refine h.invariant ?_ ?_
  · intro w hinit
    obtain ⟨queue_budget, rfl⟩ := hinit
    exact ⟨nofun, nofun⟩
  · intro w a w' hw hstep
    exact step_ended hw hstep

/-- Only a call for its own name discards a snapshot. -/
theorem step_discarded {a : Action} (hstep : w.step a = some w') {e : Snap}
    (he : e ∈ w'.discarded) : e ∈ w.discarded ∨ a = .discard e.name := by
  cases a with
  | discard name =>
    simp only [KvDiskWriter.step] at hstep
    split at hstep
    · cases hstep
    · cases hstep
      rcases mem_discard.mp he with hold | ⟨_, hname, _⟩
      · exact .inl hold
      · exact .inr (by rw [hname])
  | take =>
    obtain ⟨name, p, ht⟩ := take_taken hstep
    rw [ht.discarded] at he
    exact .inl he
  | queue c =>
    simp only [KvDiskWriter.step] at hstep
    split at hstep
    · cases hstep
    split at hstep
    · cases hstep
      exact .inl he
    · cases hstep
      exact .inl he
  | wake i =>
    simp only [KvDiskWriter.step] at hstep
    split at hstep
    · cases hstep
    split at hstep
    · cases hstep
      exact .inl he
    · cases hstep
  | finish r =>
    simp only [KvDiskWriter.step, KvDiskWriter.finish] at hstep
    split at hstep
    · cases hstep
      exact .inl he
    · cases hstep
  | discard_return name | flush | stop | exit =>
    simp only [KvDiskWriter.step] at hstep
    split at hstep
    · cases hstep
      exact .inl he
    · cases hstep

/-- In every state of every run:
    * `pending_bytes_` is the size of what is queued, within the budget or of one entry;
    * the writes were attempted in the order of queueing;
    * when `flush` returns, the last write attempted for a name is its newest snapshot that
      was not discarded;
    * a snapshot that is neither written, nor discarded, nor waiting has a newer one of its
      own name, and only a call for its own name discards it;
    * the thread can always get to where `flush` returns. -/
theorem kv_disk_writer_ordering (h : LTS.Reachable writer_system w) :
    w.pending_bytes = (w.pending.map fun e => e.2.snapshot.bytes).sum ∧
    (w.pending_bytes ≤ w.queue_budget ∨ w.pending.length ≤ 1) ∧
    w.attempts.Sublist w.enqueued ∧
    (∀ w', writer_system.step w .flush w' → ∀ name, w'.last_write name = w'.newest name) ∧
    (∀ e ∈ w.enqueued, e ∈ w.attempts ∨ e ∈ w.discarded ∨
      (∃ p, w.pending.find e.name = some p ∧ p.snap e.name = e) ∨
      ∃ e' ∈ w.enqueued, e'.name = e.name ∧ e.order < e'.order) ∧
    (∀ a w', writer_system.step w a w' → ∀ e ∈ w'.discarded,
      e ∈ w.discarded ∨ a = .discard e.name) ∧
    ∃ as w', LTS.Run writer_system w as w' ∧ (∀ a ∈ as, a = .take ∨ a = .finish (.ok ())) ∧
      writer_system.step w' .flush w' := by
  have hinv := reachable_writer_inv h
  refine ⟨hinv.bytes, hinv.budget, ?_, ?_, hinv.fate, ?_, ?_⟩
  · have hsub : w.attempts.Subperm w.enqueued := by
      refine List.subperm_of_subset ?_ hinv.attempted
      exact hinv.in_order.imp fun hlt heq => absurd (heq ▸ hlt) (lt_irrefl _)
    exact List.sublist_of_subperm_of_pairwise (r := fun e e' : Snap => e.order < e'.order) hsub
      hinv.in_order hinv.orders
  · intro w' hflush name
    have hstep : w.step .flush = some w' := hflush
    simp only [KvDiskWriter.step] at hstep
    split at hstep
    next hdone =>
      cases hstep
      have hnil : w.pending = [] := by
        simp only [KvDiskWriter.flushed, Bool.and_eq_true, List.isEmpty_iff] at hdone
        exact hdone.1
      rw [hinv.newest name, hnil]
      rfl
    · cases hstep
  · intro a w' hstep e he
    exact step_discarded hstep he
  · obtain ⟨as, w', hrun, has, hflushed⟩ := drain (reachable_ended h)
    exact ⟨as, w', hrun, has, if_pos hflushed⟩

end Step

/-! #### A budget of two snapshots -/

/-- A snapshot of one token: 36 bytes. -/
def one_token (t : UInt32) : ParkedContext := { tokens := [t] }

def one_call (name : Char) (t : UInt32) : KvDiskWriter.Action :=
  .queue { name := chars [name], snapshot := one_token t }

def small_writer : KvDiskWriter := { queue_budget := 72 }

theorem small_writer_init : writer_system.init small_writer := ⟨72, rfl⟩

/-- While `a` is written, a newer snapshot of it and two of `b` are queued, and `c` has to
    wait; then `b` is discarded, and `c` gets in. -/
def crowded_run : List KvDiskWriter.Action :=
  [one_call 'a' 1, .take, one_call 'b' 2, one_call 'a' 3, one_call 'b' 4, one_call 'c' 5,
    .discard (chars ['b']), .wake 0, .finish (.ok ()), .take, .finish (.ok ()), .take,
    .finish (.ok ())]

theorem kv_disk_writer_ordering_crowded :
    ∃ w, LTS.Reachable writer_system w ∧ writer_system.step w .flush w ∧
      w.last_write (chars ['a']) = some ⟨chars ['a'], one_token 3, 3⟩ ∧
      w.newest (chars ['a']) = some ⟨chars ['a'], one_token 3, 3⟩ ∧
      w.newest (chars ['b']) = none := by
  obtain ⟨w, hreach, hw⟩ := LTS.Reachable.of_execute KvDiskWriter.step crowded_run
    (fun w => w.flushed ∧ w.last_write (chars ['a']) = some ⟨chars ['a'], one_token 3, 3⟩ ∧
      w.last_write (chars ['b']) = none) small_writer_init (by decide)
  simp only [Bool.decide_and, Bool.and_eq_true, decide_eq_true_eq] at hw
  obtain ⟨hflushed, ha, hb⟩ := hw
  have hflush : writer_system.step w .flush w := if_pos hflushed
  have hlast := (kv_disk_writer_ordering hreach).2.2.2.1 w hflush
  exact ⟨w, hreach, hflush, ha, (hlast _).symm.trans ha, (hlast _).symm.trans hb⟩

end CachedMoe.Runtime
