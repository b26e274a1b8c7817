import Mathlib.Data.List.TakeWhile
import CachedMoe.Storage.Request

/-! # The engine moves its requests

    Every step of the engine is, for each request, one `Move` of its life: `Base.step_moves`.
    So what holds of one request through all moves holds of every request in every reachable
    state of the engine. `Base` adds what ties the requests to the engine's tables: the queues
    hold requests of their class, once each, and `chunk_owner_` names for every chunk in flight
    the request it was issued for. -/

namespace CachedMoe.Storage

open CachedMoe

namespace Engine

/-! ### Views -/

def flights_of (s : Engine) (p : Nat) : List PickedChunk := s.wire.filter fun w => w.owner == p

def finish_of (s : Engine) (p : Nat) : Option FinishStep :=
  match s.finishing with
  | none => none
  | some (q, f) => if q = p then some f else none

def cancelling_of (s : Engine) (p : Nat) : Nat := s.cancel_calls.countP fun c => c.1 == p

def queued_of (s : Engine) (p : Nat) : Bool := decide (p ∈ s.queues (s.reqs p).req.priority)

/-- What the engine has of request `p`. -/
def view (s : Engine) (p : Nat) : View where
  r := s.reqs p
  flights := s.flights_of p
  finish := s.finish_of p
  queued := s.queued_of p
  cancelling := s.cancelling_of p

variable {s s' : Engine} {p q : Nat}

@[simp] theorem set_req_self (s : Engine) (p : Nat) (r : Pending) : (s.set_req p r).reqs p = r :=
  Function.update_self _ _ _

theorem set_req_of_ne (s : Engine) {p q : Nat} (r : Pending) (h : q ≠ p) :
    (s.set_req p r).reqs q = s.reqs q :=
  Function.update_of_ne h _ _

theorem finish_of_self {f : FinishStep} (h : s.finishing = some (p, f)) :
    s.finish_of p = some f := by
  simp [finish_of, h]

theorem finish_of_ne {f : FinishStep} (h : s.finishing = some (p, f)) (hne : q ≠ p) :
    s.finish_of q = none := by
  simp [finish_of, h, hne.symm]

theorem finish_of_none (h : s.finishing = none) : s.finish_of q = none := by
  simp [finish_of, h]

theorem finish_of_eq_some {f : FinishStep} (h : s.finish_of p = some f) :
    s.finishing = some (p, f) := by
  unfold finish_of at h
  split at h
  · cases h
  next q g hs =>
    split at h
    next hq =>
      cases h
      rw [hs, hq]
    · cases h

/-- A request the step does not look at. -/
theorem view_eq (hr : s'.reqs q = s.reqs q) (hw : s'.flights_of q = s.flights_of q)
    (hf : s'.finish_of q = s.finish_of q)
    (hq : q ∈ s'.queues (s.reqs q).req.priority ↔ q ∈ s.queues (s.reqs q).req.priority)
    (hc : s'.cancelling_of q = s.cancelling_of q) : s'.view q = s.view q := by
  simp [view, queued_of, hr, hw, hf, hq, hc]

end Engine

open Engine

/-! ### The tables -/

structure Base (s : Engine) : Prop where
  views : ∀ p < s.count, (s.view p).Inv
  queue_lt : ∀ pr p, p ∈ s.queues pr → p < s.count ∧ (s.reqs p).req.priority = pr
  queue_nodup : ∀ pr, (s.queues pr).Nodup
  wire_lt : ∀ w ∈ s.wire, w.owner < s.count ∧ w.req.chunk_id < s.next_chunk_id
  wire_nodup : (s.wire.map fun w => w.req.chunk_id).Nodup
  /-- The completion of a chunk is credited to the request it was issued for. -/
  owner : ∀ w ∈ s.wire, s.chunk_owner w.req.chunk_id = some w.inflight
  finishing_lt : ∀ p f, s.finishing = some (p, f) → p < s.count
  cancel_lt : ∀ c ∈ s.cancel_calls, c.1 < s.count

variable {cfg : Config} {s s' : Engine} {p q : Nat}

/-- The rest of the engine: the step changes none of the tables. -/
structure SameTables (s s' : Engine) : Prop where
  count : s'.count = s.count
  queues : s'.queues = s.queues
  chunk_owner : s'.chunk_owner = s.chunk_owner
  wire : s'.wire = s.wire
  next_chunk_id : s'.next_chunk_id = s.next_chunk_id
  finishing : s'.finishing = s.finishing
  cancel_calls : s'.cancel_calls = s.cancel_calls

theorem SameTables.trans {s₁ s₂ s₃ : Engine} (h : SameTables s₁ s₂) (h' : SameTables s₂ s₃) :
    SameTables s₁ s₃ :=
  ⟨h'.count.trans h.count, h'.queues.trans h.queues, h'.chunk_owner.trans h.chunk_owner,
    h'.wire.trans h.wire, h'.next_chunk_id.trans h.next_chunk_id, h'.finishing.trans h.finishing,
    h'.cancel_calls.trans h.cancel_calls⟩

theorem SameTables.view_eq (h : SameTables s s') (hr : s'.reqs q = s.reqs q) :
    s'.view q = s.view q := by
  apply Engine.view_eq hr
  · rw [flights_of, flights_of, h.wire]
  · rw [finish_of, finish_of, h.finishing]
  · rw [h.queues]
  · rw [cancelling_of, cancelling_of, h.cancel_calls]

/-- With the tables unchanged, the view of the request at hand follows the request. -/
theorem SameTables.view_self (h : SameTables s s')
    (hpr : (s'.reqs p).req.priority = (s.reqs p).req.priority) :
    s'.view p = { s.view p with r := s'.reqs p } := by
  simp [view, queued_of, flights_of, finish_of, cancelling_of, h.wire, h.finishing,
    h.cancel_calls, h.queues, hpr]

theorem Base.of_tables (h : Base s) (ht : SameTables s s')
    (hpr : ∀ q < s.count, (s'.reqs q).req.priority = (s.reqs q).req.priority)
    (hviews : ∀ q < s.count, (s'.view q).Inv) : Base s' := by
  refine ⟨?_, ?_, ?_, ?_, ?_, ?_, ?_, ?_⟩
  · rw [ht.count]
    exact hviews
  · intro pr q hq
    rw [ht.queues] at hq
    obtain ⟨hlt, hp⟩ := h.queue_lt pr q hq
    rw [ht.count]
    exact ⟨hlt, (hpr q hlt).trans hp⟩
  · rw [ht.queues]
    exact h.queue_nodup
  · rw [ht.wire, ht.count, ht.next_chunk_id]
    exact h.wire_lt
  · rw [ht.wire]
    exact h.wire_nodup
  · rw [ht.wire, ht.chunk_owner]
    exact h.owner
  · rw [ht.finishing, ht.count]
    exact h.finishing_lt
  · rw [ht.cancel_calls, ht.count]
    exact h.cancel_lt

/-- Every request makes one move. -/
def Moves (cfg : Config) (l : Option Completion) (s s' : Engine) : Prop :=
  ∀ q < s.count, Move cfg l (s.view q) (s'.view q)

theorem Moves.inv (h : Base s) {l : Option Completion} (hm : Moves cfg l s s') : ∀ q < s.count, (s'.view q).Inv := by
  intro q hq
  exact (h.views q hq).move (hm q hq)

theorem Moves.of_tables (ht : SameTables s s') (hother : ∀ q, q ≠ p → s'.reqs q = s.reqs q)
    (hself : p < s.count → Move cfg none (s.view p) (s'.view p)) : Moves cfg none s s' := by
  intro q hq
  by_cases hqp : q = p
  · subst hqp
    exact hself hq
  · rw [ht.view_eq (hother q hqp)]
    exact .stay _ _

/-! ### submit -/

theorem set_req_tables (s : Engine) (p : Nat) (r : Pending) : SameTables s (s.set_req p r) :=
  ⟨rfl, rfl, rfl, rfl, rfl, rfl, rfl⟩

theorem give_back_route_tables (s : Engine) (r : Pending) : SameTables s (s.give_back_route r) := by
  unfold give_back_route
  split
  · exact ⟨rfl, rfl, rfl, rfl, rfl, rfl, rfl⟩
  · exact ⟨rfl, rfl, rfl, rfl, rfl, rfl, rfl⟩

theorem give_back_route_reqs (s : Engine) (r : Pending) :
    (s.give_back_route r).reqs = s.reqs := by
  unfold give_back_route
  split
  · rfl
  · rfl

/-- A request that has just entered `submit`. -/
structure Fresh (r : Pending) : Prop where
  phase : r.phase = .routed
  chunks : r.chunks = []
  next : r.next_chunk = 0
  issued : r.issued_chunks = 0
  done : r.done_chunks = 0
  failed : r.failed = false
  results : r.results = []
  cancels : r.cancels = 0
  raced : r.raced = false

/-- What `enter` does to the tables: one more request. -/
theorem enter_cases (cfg : Config) (s : Engine) (req : IoRequest) :
    ∃ r, Fresh r ∧ r.req.priority = req.priority ∧ (s.enter cfg req).count = s.count + 1 ∧
      (s.enter cfg req).reqs = Function.update s.reqs s.count r ∧
      (s.enter cfg req).queues = s.queues ∧ (s.enter cfg req).chunk_owner = s.chunk_owner ∧
      (s.enter cfg req).wire = s.wire ∧ (s.enter cfg req).next_chunk_id = s.next_chunk_id ∧
      (s.enter cfg req).finishing = s.finishing ∧
      (s.enter cfg req).cancel_calls = s.cancel_calls := by
  unfold enter
  split
  · exact ⟨_, ⟨rfl, rfl, rfl, rfl, rfl, rfl, rfl, rfl, rfl⟩, rfl, rfl, rfl, rfl, rfl, rfl, rfl, rfl, rfl⟩
  · exact ⟨_, ⟨rfl, rfl, rfl, rfl, rfl, rfl, rfl, rfl, rfl⟩, rfl, rfl, rfl, rfl, rfl, rfl, rfl, rfl, rfl⟩
  · exact ⟨_, ⟨rfl, rfl, rfl, rfl, rfl, rfl, rfl, rfl, rfl⟩, rfl, rfl, rfl, rfl, rfl, rfl, rfl, rfl, rfl⟩

theorem Fresh.inv {r : Pending} (h : Fresh r) : View.Inv { r := r } := by
  have hacc : r.phase.accepted = false := by rw [h.phase]; rfl
  constructor
  case next_le => simp [h.next]
  case issued_le => simp [h.issued]
  case flights => simp [h.done, h.issued]
  case whole => simp [h.issued, h.next]
  case abandoned => simp [h.failed]
  case chunks => simp [h.phase]
  case draft => exact fun _ => ⟨h.next, h.failed, h.results, h.cancels, h.raced, rfl, rfl, rfl⟩
  case held => simp
  case finished => simp [h.results]
  case settled => simp
  case located => simp [View.Located, h.phase]

/-- Entering leaves the other requests alone ... -/
theorem enter_view_of_lt (cfg : Config) (req : IoRequest) (hq : q < s.count) :
    (s.enter cfg req).view q = s.view q := by
  obtain ⟨r, _, _, _, hreqs, hqueues, _, hwire, _, hfin, hcalls⟩ := enter_cases cfg s req
  apply Engine.view_eq
  · rw [hreqs, Function.update_of_ne (Nat.ne_of_lt hq)]
  · rw [flights_of, flights_of, hwire]
  · rw [finish_of, finish_of, hfin]
  · rw [hqueues]
  · rw [cancelling_of, cancelling_of, hcalls]

/-- ... and nothing in the tables names the new one. -/
theorem Base.enter_view_count (h : Base s) (cfg : Config) (req : IoRequest) :
    (s.enter cfg req).view s.count = { r := (s.enter cfg req).reqs s.count } := by
  obtain ⟨r, _, _, _, _, hqueues, _, hwire, _, hfin, hcalls⟩ := enter_cases cfg s req
  have hfl : (s.enter cfg req).flights_of s.count = [] := by
    rw [flights_of, hwire, List.filter_eq_nil_iff]
    intro w hw
    have := (h.wire_lt w hw).1
    simp only [beq_iff_eq]
    omega
  have hf : (s.enter cfg req).finish_of s.count = none := by
    cases hs : (s.enter cfg req).finish_of s.count with
    | none => rfl
    | some f =>
      have := h.finishing_lt _ f (hfin ▸ finish_of_eq_some hs)
      omega
  have hq : (s.enter cfg req).queued_of s.count = false := by
    rw [queued_of, hqueues, decide_eq_false_iff_not]
    intro hmem
    exact Nat.lt_irrefl _ (h.queue_lt _ _ hmem).1
  have hc : (s.enter cfg req).cancelling_of s.count = 0 := by
    rw [cancelling_of, hcalls, List.countP_eq_zero]
    intro c hc
    have := h.cancel_lt c hc
    simp only [beq_iff_eq]
    omega
  simp [view, hfl, hf, hq, hc]

theorem Base.enter (h : Base s) (cfg : Config) (req : IoRequest) :
    Moves cfg none s (s.enter cfg req) ∧ Base (s.enter cfg req) := by
  obtain ⟨r, hfresh, _, hcount, hreqs, hqueues, howner, hwire, hid, hfin, hcalls⟩ :=
    enter_cases cfg s req
  have hold : ∀ q < s.count, (s.enter cfg req).view q = s.view q :=
    fun q hq => enter_view_of_lt cfg req hq
  have hnew : (s.enter cfg req).view s.count = { r := r } := by
    rw [h.enter_view_count cfg req, hreqs, Function.update_self]
  -- the new request is the last; the others keep their view
  refine ⟨?_, ?_, ?_, ?_, ?_, ?_, ?_, ?_, ?_⟩
  · intro q hq
    rw [hold q hq]
    exact .stay _ _
  · intro q hq
    rw [hcount] at hq
    by_cases hlt : q < s.count
    · rw [hold q hlt]
      exact h.views q hlt
    · obtain rfl : q = s.count := by omega
      rw [hnew]
      exact hfresh.inv
  · intro pr q hq
    rw [hqueues] at hq
    obtain ⟨hlt, hpr⟩ := h.queue_lt pr q hq
    rw [hcount, hreqs, Function.update_of_ne (Nat.ne_of_lt hlt)]
    exact ⟨by omega, hpr⟩
  · rw [hqueues]
    exact h.queue_nodup
  · intro w hw
    rw [hwire] at hw
    obtain ⟨hlt, hcid⟩ := h.wire_lt w hw
    rw [hcount, hid]
    exact ⟨by omega, hcid⟩
  · rw [hwire]
    exact h.wire_nodup
  · rw [hwire, howner]
    exact h.owner
  · intro q f hf
    rw [hfin] at hf
    have := h.finishing_lt q f hf
    rw [hcount]
    omega
  · intro c hc
    rw [hcalls] at hc
    have := h.cancel_lt c hc
    rw [hcount]
    omega

theorem check_early_ok {req : IoRequest} {u : Unit} (h : check_early req = .ok u) :
    req.dst ≠ 0 ∧ req.bytes ≠ 0 := by
  unfold check_early at h
  split at h
  · cases h
  next hdst =>
    split at h
    · cases h
    next hbytes => exact ⟨hdst, hbytes⟩

theorem check_guarded_ok {req : IoRequest} {u : Unit} (h : check_guarded cfg req = .ok u) :
    min req.bytes ((cfg.files req.file).size - req.file_off) ≠ 0 := by
  unfold check_guarded at h
  dsimp only at h
  split at h
  · cases h
  split at h
  · cases h
  split at h
  · cases h
  split at h
  · cases h
  next hsize => exact hsize

/-- The checks, the plan and the striping touch no table. -/
theorem plan_tables (cfg : Config) (s : Engine) (p : Nat) : SameTables s (s.plan cfg p) := by
  unfold Engine.plan
  dsimp only
  split
  · exact set_req_tables s p _
  split
  · exact (give_back_route_tables s _).trans (set_req_tables _ p _)
  split
  · exact set_req_tables s p _
  · exact ⟨rfl, rfl, rfl, rfl, rfl, rfl, rfl⟩

theorem plan_reqs (cfg : Config) (s : Engine) (p : Nat) (hp : (s.reqs p).phase = .routed) :
    ∃ r, (s.plan cfg p).reqs = Function.update s.reqs p r ∧
      r.req.priority = (s.reqs p).req.priority ∧ r.phase.accepted = false ∧
      Move cfg none (s.view p) { s.view p with r := r } := by
  unfold Engine.plan
  dsimp only
  split
  · refine ⟨{ s.reqs p with phase := .rejected }, rfl, rfl, rfl, ?_⟩
    exact .reject (v := s.view p) hp
  next hearly =>
    have hbytes := (check_early_ok hearly).2
    split
    · refine ⟨{ s.reqs p with phase := .rejected, started := fun _ => false }, ?_, rfl, rfl, ?_⟩
      · show Function.update (s.give_back_route (s.reqs p)).reqs p _ = _
        rw [give_back_route_reqs]
      · exact .reject (v := s.view p) hp
    next hguard =>
      have hsize := check_guarded_ok hguard
      split
      next hmask =>
        exact ⟨planned cfg (s.reqs p), rfl, rfl, rfl, .plan (v := s.view p) hp hbytes hsize hmask⟩
      next mask hmask =>
        refine ⟨striped (planned cfg (s.reqs p)) (s.stripe cfg (planned cfg (s.reqs p)) mask),
          rfl, rfl, rfl, ?_⟩
        exact .stripe (v := s.view p) s hp hbytes hsize hmask

theorem Base.plan (h : Base s) (cfg : Config) (hp : (s.reqs p).phase = .routed) :
    Moves cfg none s (s.plan cfg p) ∧ Base (s.plan cfg p) := by
  obtain ⟨r, hreqs, hpr, _, hmove⟩ := plan_reqs cfg s p hp
  have ht := plan_tables cfg s p
  have hself : (s.plan cfg p).reqs p = r := by rw [hreqs, Function.update_self]
  have hother : ∀ q, q ≠ p → (s.plan cfg p).reqs q = s.reqs q := by
    intro q hq
    rw [hreqs, Function.update_of_ne hq]
  have hm : Moves cfg none s (s.plan cfg p) := by
    refine Moves.of_tables ht hother fun _ => ?_
    rw [ht.view_self (hself ▸ hpr), hself]
    exact hmove
  refine ⟨hm, h.of_tables ht ?_ (Moves.inv h hm)⟩
  intro q _
  by_cases hq : q = p
  · rw [hq, hself, hpr]
  · rw [hother q hq]

/-- A step that changes one queue, by a request of its class. -/
theorem Base.of_queue (h : Base s) {l : List Nat} {r : Pending} {f : Option FinishStep} {n : Nat}
    (hp : p < s.count)
    (hpr : r.req.priority = (s.reqs p).req.priority)
    (hreqs : s'.reqs = Function.update s.reqs p r)
    (hqueues : s'.queues = Function.update s.queues r.req.priority l) (hnodup : l.Nodup)
    (hmem : ∀ q, q ≠ p → (q ∈ l ↔ q ∈ s.queues r.req.priority))
    (hcount : s'.count = s.count) (howner : s'.chunk_owner = s.chunk_owner)
    (hwire : s'.wire = s.wire) (hid : s'.next_chunk_id = s.next_chunk_id)
    (hfin : ∀ q, q ≠ p → s'.finish_of q = s.finish_of q)
    (hfinlt : ∀ q f, s'.finishing = some (q, f) → q < s.count)
    (hcalls : ∀ q, q ≠ p → s'.cancelling_of q = s.cancelling_of q)
    (hcallslt : ∀ c ∈ s'.cancel_calls, c.1 < s.count)
    (hf : s'.finish_of p = f) (hn : s'.cancelling_of p = n)
    (hself : Move cfg none (s.view p) ⟨r, s.flights_of p, f, decide (p ∈ l), n⟩) :
    Moves cfg none s s' ∧ Base s' := by
  have hr : s'.reqs p = r := by rw [hreqs, Function.update_self]
  have hother : ∀ q, q ≠ p → s'.reqs q = s.reqs q := by
    intro q hq
    rw [hreqs, Function.update_of_ne hq]
  have hin : ∀ q, q ≠ p → ∀ pr, q ∈ s'.queues pr ↔ q ∈ s.queues pr := by
    intro q hq pr
    rw [hqueues]
    by_cases heq : pr = r.req.priority
    · rw [heq, Function.update_self]
      exact hmem q hq
    · rw [Function.update_of_ne heq]
  -- the other requests keep their view
  have hm : Moves cfg none s s' := by
    intro q _
    by_cases hq : q = p
    · subst hq
      have : s'.view q = ⟨r, s.flights_of q, f, decide (q ∈ l), n⟩ := by
        simp [view, queued_of, flights_of, hr, hwire, hqueues, hf, hn]
      rw [this]
      exact hself
    · rw [Engine.view_eq (hother q hq) (by rw [flights_of, flights_of, hwire]) (hfin q hq)
        (hin q hq _) (hcalls q hq)]
      exact .stay _ _
  refine ⟨hm, ?_, ?_, ?_, ?_, ?_, ?_, ?_, ?_⟩
  · rw [hcount]
    exact Moves.inv h hm
  · intro pr q hq
    rw [hcount]
    by_cases hqp : q = p
    · subst hqp
      refine ⟨hp, ?_⟩
      rw [hr]
      by_contra hne
      rw [hqueues, Function.update_of_ne (Ne.symm hne)] at hq
      exact hne (hpr.trans (h.queue_lt pr q hq).2)
    · rw [hother q hqp]
      exact h.queue_lt pr q ((hin q hqp pr).mp hq)
  · intro pr
    rw [hqueues]
    by_cases heq : pr = r.req.priority
    · rw [heq, Function.update_self]
      exact hnodup
    · rw [Function.update_of_ne heq]
      exact h.queue_nodup pr
  · rw [hwire, hcount, hid]
    exact h.wire_lt
  · rw [hwire]
    exact h.wire_nodup
  · rw [hwire, howner]
    exact h.owner
  · rw [hcount]
    exact hfinlt
  · rw [hcount]
    exact hcallslt

theorem Base.enqueue (h : Base s) (cfg : Config) (hp : p < s.count)
    (hphase : (s.reqs p).phase = .planned) :
    Moves cfg none s (s.enqueue p) ∧ Base (s.enqueue p) := by
  have hout : p ∉ s.queues (s.reqs p).req.priority := by
    have := ((h.views p hp).draft (by show (s.reqs p).phase.accepted = false; rw [hphase]; rfl)).queued
    simpa [view, queued_of] using this
  refine h.of_queue (l := s.queues (s.reqs p).req.priority ++ [p])
    (r := { s.reqs p with phase := .queued }) hp rfl rfl rfl ?_ ?_ rfl rfl rfl rfl
    (fun _ _ => rfl) h.finishing_lt (fun _ _ => rfl) h.cancel_lt rfl rfl ?_
  · exact List.nodup_append.mpr ⟨h.queue_nodup _, List.nodup_singleton p, by
      intro a ha b hb heq
      rw [List.mem_singleton.mp hb] at heq
      exact hout (heq ▸ ha)⟩
  · intro q hq
    simp [hq]
  · have hmove := @Move.enqueue cfg (s.view p) hphase
    have hmem : decide (p ∈ s.queues (s.reqs p).req.priority ++ [p]) = true := by simp
    rw [hmem]
    exact hmove

/-! ### cancel -/

theorem cancel_cases (s : Engine) (p : Nat) :
    (s.cancel p).2 = s ∨
    ∃ pr, p ∈ s.queues pr ∧ (s.reqs p).next_chunk = 0 ∧ (s.cancel p).1 = .ok () ∧
      (s.cancel p).2 = { s.set_req p (taken (s.reqs p) (s.finishing == some (p, .requeue))) with
        queues := Function.update s.queues pr ((s.queues pr).erase p)
        outstanding_requests := s.outstanding_requests - 1
        cancel_calls := (p, false) :: s.cancel_calls } := by
  unfold Engine.cancel
  split
  · exact .inl rfl
  next pr hfind =>
    have hmem := List.find?_some hfind
    dsimp only
    split
    · exact .inl rfl
    next hnext => exact .inr ⟨pr, by simpa using hmem, by simpa using hnext, rfl, rfl⟩

theorem requeue_beq (s : Engine) (p : Nat) :
    (s.finishing == some (p, .requeue)) = (s.finish_of p == some .requeue) := by
  unfold finish_of
  cases hf : s.finishing with
  | none => rfl
  | some qf =>
    obtain ⟨q, f⟩ := qf
    by_cases hq : q = p
    · simp [hq]
    · simp [hq]

theorem Base.cancel (h : Base s) (cfg : Config) (p : Nat) :
    Moves cfg none s (s.cancel p).2 ∧ Base (s.cancel p).2 := by
  rcases cancel_cases s p with hsame | ⟨pr, hmem, hnext, _, heq⟩
  · rw [hsame]
    exact ⟨fun q _ => .stay _ _, h⟩
  · obtain ⟨hp, rfl⟩ := h.queue_lt pr p hmem
    rw [heq]
    refine h.of_queue (l := (s.queues (s.reqs p).req.priority).erase p)
      (r := taken (s.reqs p) (s.finishing == some (p, .requeue))) hp rfl rfl rfl ?_ ?_ rfl rfl rfl rfl
      (fun _ _ => rfl) h.finishing_lt ?_ ?_ rfl (n := s.cancelling_of p + 1) ?_ ?_
    · exact (h.queue_nodup _).erase p
    · intro q hq
      exact List.mem_erase_of_ne hq
    · intro q hq
      simp [cancelling_of, hq.symm]
    · intro c hc
      rcases List.mem_cons.mp hc with rfl | hc
      · exact hp
      · exact h.cancel_lt c hc
    · simp [cancelling_of]
    · have hmove := @Move.cancel cfg (s.view p) (by simpa [view, queued_of] using hmem) hnext
      have hout : decide (p ∈ (s.queues (s.reqs p).req.priority).erase p) = false := by
        simpa using (h.queue_nodup _).not_mem_erase
      rw [hout, requeue_beq]
      exact hmove

/-- The queues stay; the `cancel` calls change. -/
theorem Base.of_calls (h : Base s) {l : List (Nat × Bool)} {r : Pending} (hp : p < s.count)
    (hreqs : s'.reqs = Function.update s.reqs p r)
    (hpr : r.req.priority = (s.reqs p).req.priority) (hcount : s'.count = s.count)
    (hqueues : s'.queues = s.queues) (howner : s'.chunk_owner = s.chunk_owner)
    (hwire : s'.wire = s.wire) (hid : s'.next_chunk_id = s.next_chunk_id)
    (hfin : s'.finishing = s.finishing) (hcalls : s'.cancel_calls = l)
    (hother : ∀ q, q ≠ p → l.countP (fun c => c.1 == q) = s.cancelling_of q)
    (hlt : ∀ c ∈ l, c.1 < s.count)
    (hself : Move cfg none (s.view p)
      { s.view p with r := r, cancelling := l.countP (fun c => c.1 == p) }) :
    Moves cfg none s s' ∧ Base s' := by
  -- the queue of its priority is set to what it was
  refine h.of_queue (l := s.queues r.req.priority) (f := s.finish_of p)
    (n := l.countP fun c => c.1 == p) hp hpr hreqs ?_ (h.queue_nodup _) (fun _ _ => Iff.rfl) hcount
    howner hwire hid ?_ ?_ ?_ ?_ ?_ ?_ ?_
  · rw [Function.update_eq_self, hqueues]
  · intro q _
    rw [finish_of, finish_of, hfin]
  · rw [hfin]
    exact h.finishing_lt
  · intro q hq
    rw [cancelling_of, hcalls]
    exact hother q hq
  · rw [hcalls]
    exact hlt
  · rw [finish_of, finish_of, hfin]
  · rw [cancelling_of, hcalls]
  · rw [hpr]
    exact hself

theorem Base.uncharge (h : Base s) (cfg : Config) (hmem : (p, false) ∈ s.cancel_calls) :
    Moves cfg none s (s.uncharge p) ∧ Base (s.uncharge p) := by
  have hpos : 0 < s.cancelling_of p := by
    rw [cancelling_of, List.countP_pos_iff]
    exact ⟨_, hmem, by simp⟩
  have hp : p < s.count := h.cancel_lt _ hmem
  have hcount : ∀ q, ((p, true) :: s.cancel_calls.erase (p, false)).countP (fun c => c.1 == q) =
      s.cancelling_of q := by
    intro q
    rw [cancelling_of, (List.perm_cons_erase hmem).countP_eq, List.countP_cons, List.countP_cons]
  have hlt : ∀ c ∈ (p, true) :: s.cancel_calls.erase (p, false), c.1 < s.count := by
    intro c hc
    rcases List.mem_cons.mp hc with rfl | hc
    · exact h.cancel_lt (p, false) hmem
    · exact h.cancel_lt c (List.mem_of_mem_erase hc)
  unfold Engine.uncharge
  dsimp only
  split
  · refine h.of_calls (l := (p, true) :: s.cancel_calls.erase (p, false))
      (r := unstriped (s.reqs p)) hp rfl rfl rfl rfl rfl rfl rfl rfl rfl
      (fun q _ => hcount q) hlt ?_
    rw [hcount p]
    exact .uncharge (v := s.view p) hpos
  · refine h.of_calls (l := (p, true) :: s.cancel_calls.erase (p, false))
      (r := s.reqs p) hp ?_ rfl rfl rfl rfl rfl rfl rfl rfl
      (fun q _ => hcount q) hlt ?_
    · rw [Function.update_eq_self]
    · rw [hcount p]
      exact .stay _ _

theorem Base.call_cancelled (h : Base s) (cfg : Config) (hmem : (p, true) ∈ s.cancel_calls) :
    Moves cfg none s (s.call_cancelled p) ∧ Base (s.call_cancelled p) := by
  have hpos : 0 < s.cancelling_of p := by
    rw [cancelling_of, List.countP_pos_iff]
    exact ⟨_, hmem, by simp⟩
  have hcount : ∀ q, s.cancelling_of q =
      (s.cancel_calls.erase (p, true)).countP (fun c => c.1 == q) + if p = q then 1 else 0 := by
    intro q
    rw [cancelling_of, (List.perm_cons_erase hmem).countP_eq, List.countP_cons]
    simp
  refine h.of_calls (l := s.cancel_calls.erase (p, true))
    (r := { s.reqs p with phase := .done, cancels := (s.reqs p).cancels + 1 })
    (h.cancel_lt _ hmem) rfl rfl rfl rfl rfl rfl rfl rfl rfl ?_ ?_ ?_
  · intro q hq
    rw [hcount q, if_neg hq.symm, Nat.add_zero]
  · intro c hc
    exact h.cancel_lt c (List.mem_of_mem_erase hc)
  · have hp := hcount p
    rw [if_pos rfl] at hp
    have hmove := @Move.call_cancelled cfg (s.view p) hpos
    have hsub : (s.view p).cancelling - 1 =
        (s.cancel_calls.erase (p, true)).countP (fun c => c.1 == p) := by
      show s.cancelling_of p - 1 = _
      omega
    rw [hsub] at hmove
    exact hmove

/-! ### Issuing chunks -/

theorem mem_of_dropped {l : List Nat} {f : Nat → Bool} (h : q ∈ l) (hno : q ∉ l.dropWhile f) :
    f q = true := by
  rw [← List.takeWhile_append_dropWhile (p := f) (l := l), List.mem_append] at h
  exact List.mem_takeWhile_imp (h.resolve_right hno)

/-- A request in the queue stays, or leaves it exhausted. -/
theorem pop_view (s : Engine) (q : Nat) :
    s.pop_issued.view q = s.view q ∨
    exhausted (s.reqs q) = true ∧ s.pop_issued.view q = { s.view q with queued := false } := by
  by_cases hin : q ∈ s.queues (s.reqs q).req.priority
  · by_cases hin' : q ∈ s.pop_issued.queues (s.reqs q).req.priority
    · exact .inl (Engine.view_eq rfl rfl rfl (iff_of_true hin' hin) rfl)
    · have hq : s.pop_issued.queued_of q = false := decide_eq_false hin'
      refine .inr ⟨mem_of_dropped hin hin', ?_⟩
      show View.mk _ _ _ (s.pop_issued.queued_of q) _ = _
      rw [hq]
      rfl
  · refine .inl (Engine.view_eq rfl rfl rfl (iff_of_false ?_ hin) rfl)
    exact fun hmem => hin (List.dropWhile_subset _ hmem)

theorem pop_moves (cfg : Config) (s : Engine) (q : Nat) :
    Move cfg none (s.view q) (s.pop_issued.view q) := by
  rcases pop_view s q with heq | ⟨hex, heq⟩
  · rw [heq]
    exact .stay _ _
  · rw [heq]
    exact .dequeue (v := s.view q) hex

theorem Base.pop (h : Base s) (cfg : Config) : Base s.pop_issued := by
  refine ⟨?_, ?_, ?_, h.wire_lt, h.wire_nodup, h.owner, h.finishing_lt, h.cancel_lt⟩
  · intro q hq
    exact (h.views q hq).move (pop_moves cfg s q)
  · intro pr q hq
    exact h.queue_lt pr q (List.dropWhile_subset _ hq)
  · intro pr
    exact (h.queue_nodup pr).sublist (List.dropWhile_sublist _)

/-- The request the dispatcher takes is at the front of its queue. -/
theorem select_front {waiters : Nat} {rescued : Bool} (h : s.select waiters = some (p, rescued)) :
    ∃ pr, (s.queues pr).head? = some p := by
  unfold select at h
  split at h
  next q hq =>
    cases h
    unfold rescue at hq
    split at hq
    next l hl =>
      split at hq
      · cases hq
        exact ⟨.Engram, by rw [hl]; rfl⟩
      · cases hq
    · cases hq
  · rw [Option.map_eq_some_iff] at h
    obtain ⟨q, hq, heq⟩ := h
    cases heq
    unfold first_queued at hq
    rw [Option.bind_eq_some_iff] at hq
    obtain ⟨pr, _, hhead⟩ := hq
    exact ⟨pr, hhead⟩

/-- After the fully issued requests have left, a front has a chunk to issue. -/
theorem pop_front {pr : IoPriority} (h : (s.pop_issued.queues pr).head? = some p) :
    (s.reqs p).next_chunk < (s.reqs p).chunks.length := by
  have hnot := List.head?_dropWhile_not (fun q => exhausted (s.reqs q)) (s.queues pr)
  have hhead : ((s.queues pr).dropWhile fun q => exhausted (s.reqs q)).head? = some p := h
  rw [hhead] at hnot
  simpa [exhausted] using hnot

theorem issue_chunk_eq (cfg : Config) {c : Chunk}
    (hc : (s.reqs p).chunks[(s.reqs p).next_chunk]? = some c) :
    s.issue_chunk cfg p =
      { s.set_req p (issued (s.reqs p)) with
        next_chunk_id := s.next_chunk_id + 1
        chunk_owner := Function.update s.chunk_owner s.next_chunk_id
          (some (picked cfg (s.reqs p) p s.next_chunk_id c).inflight)
        wire := picked cfg (s.reqs p) p s.next_chunk_id c :: s.wire
        stage := Function.update s.stage s.next_chunk_id .picked
        inflight_ops := s.inflight_ops + 1
        inflight_bytes := s.inflight_bytes + c.bytes
        inflight_class := Function.update s.inflight_class (s.reqs p).req.priority
          (s.inflight_class (s.reqs p).req.priority + 1) } := by
  simp only [Engine.issue_chunk, hc]

theorem Base.issue_chunk (h : Base s) (cfg : Config) {pr : IoPriority} (hmem : p ∈ s.queues pr)
    (hfin : s.finishing = none) {c : Chunk}
    (hc : (s.reqs p).chunks[(s.reqs p).next_chunk]? = some c) :
    (∀ q, q ≠ p → (s.issue_chunk cfg p).view q = s.view q) ∧
    Move cfg none (s.view p) ((s.issue_chunk cfg p).view p) ∧ Base (s.issue_chunk cfg p) := by
  obtain ⟨hp, rfl⟩ := h.queue_lt pr p hmem
  have heq := issue_chunk_eq cfg hc
  have hcount : (s.issue_chunk cfg p).count = s.count := by rw [heq]; rfl
  have hqueues : (s.issue_chunk cfg p).queues = s.queues := by rw [heq]; rfl
  have hreqs : (s.issue_chunk cfg p).reqs = Function.update s.reqs p (issued (s.reqs p)) := by
    rw [heq]
    rfl
  have hwire : (s.issue_chunk cfg p).wire =
      picked cfg (s.reqs p) p s.next_chunk_id c :: s.wire := by rw [heq]
  have howner : (s.issue_chunk cfg p).chunk_owner = Function.update s.chunk_owner s.next_chunk_id
      (some (picked cfg (s.reqs p) p s.next_chunk_id c).inflight) := by rw [heq]
  have hid : (s.issue_chunk cfg p).next_chunk_id = s.next_chunk_id + 1 := by rw [heq]
  have hfin' : (s.issue_chunk cfg p).finishing = none := by rw [heq]; exact hfin
  have hcalls : (s.issue_chunk cfg p).cancel_calls = s.cancel_calls := by rw [heq]; rfl
  have hother : ∀ q, q ≠ p → (s.issue_chunk cfg p).view q = s.view q := by
    intro q hq
    apply Engine.view_eq
    · rw [hreqs, Function.update_of_ne hq]
    · rw [flights_of, flights_of, hwire, List.filter_cons_of_neg]
      simpa [picked] using hq.symm
    · rw [finish_of_none hfin', finish_of_none hfin]
    · rw [hqueues]
    · rw [cancelling_of, cancelling_of, hcalls]
  have hself : Move cfg none (s.view p) ((s.issue_chunk cfg p).view p) := by
    have hview : (s.issue_chunk cfg p).view p =
        { s.view p with
          r := issued (s.reqs p)
          flights := picked cfg (s.reqs p) p s.next_chunk_id c :: s.flights_of p } := by
      simp [view, queued_of, flights_of, finish_of, cancelling_of, hreqs, hwire, hqueues, hfin',
        hfin, hcalls, issued, picked]
    rw [hview]
    exact .issue (v := s.view p) p s.next_chunk_id (by simpa [view, queued_of] using hmem)
      (finish_of_none hfin) hc
  refine ⟨hother, hself, ?_, ?_, ?_, ?_, ?_, ?_, ?_, ?_⟩
  · intro q hq
    rw [hcount] at hq
    by_cases hqp : q = p
    · subst hqp
      exact (h.views q hq).move hself
    · rw [hother q hqp]
      exact h.views q hq
  · intro pr q hq
    rw [hqueues] at hq
    obtain ⟨hlt, hpr⟩ := h.queue_lt pr q hq
    rw [hcount, hreqs]
    refine ⟨hlt, ?_⟩
    by_cases hqp : q = p
    · subst hqp
      rw [Function.update_self]
      exact hpr
    · rw [Function.update_of_ne hqp, hpr]
  · rw [hqueues]
    exact h.queue_nodup
  · intro w hw
    rw [hwire] at hw
    rw [hcount, hid]
    rcases List.mem_cons.mp hw with rfl | hw
    · exact ⟨hp, Nat.lt_succ_self _⟩
    · obtain ⟨hlt, hcid⟩ := h.wire_lt w hw
      exact ⟨hlt, Nat.lt_succ_of_lt hcid⟩
  · rw [hwire, List.map_cons, List.nodup_cons]
    refine ⟨?_, h.wire_nodup⟩
    -- the id is new
    intro hin
    obtain ⟨w, hw, heq⟩ := List.mem_map.mp hin
    have hlt := (h.wire_lt w hw).2
    rw [heq] at hlt
    exact Nat.lt_irrefl _ hlt
  · intro w hw
    rw [hwire] at hw
    rw [howner]
    rcases List.mem_cons.mp hw with rfl | hw
    · exact Function.update_self _ _ _
    · rw [Function.update_of_ne (Nat.ne_of_lt (h.wire_lt w hw).2)]
      exact h.owner w hw
  · intro q f hf
    rw [hfin'] at hf
    cases hf
  · rw [hcalls, hcount]
    exact h.cancel_lt

/-- What an iteration of `issue_ready_chunks` does: exhausted requests leave, and one chunk
    may go out. -/
theorem issue_cases (cfg : Config) (s : Engine) (waiters : Nat) (recent : Bool) :
    s.issue cfg waiters recent = s.pop_issued ∨
    ∃ p pr c, p ∈ s.pop_issued.queues pr ∧ (s.reqs p).chunks[(s.reqs p).next_chunk]? = some c ∧
      s.issue cfg waiters recent = s.pop_issued.issue_chunk cfg p := by
  unfold Engine.issue
  dsimp only
  split
  · exact .inl rfl
  next p rescued hsel =>
    split
    · exact .inl rfl
    · obtain ⟨pr, hhead⟩ := select_front hsel
      exact .inr ⟨p, pr, _, List.mem_of_mem_head? hhead,
        List.getElem?_eq_getElem (pop_front hhead), rfl⟩

theorem Base.issue (h : Base s) (cfg : Config) (waiters : Nat) (recent : Bool)
    (hfin : s.finishing = none) :
    Moves cfg none s (s.issue cfg waiters recent) ∧ Base (s.issue cfg waiters recent) := by
  rcases issue_cases cfg s waiters recent with heq | ⟨p, pr, c, hmem, hc, heq⟩
  · rw [heq]
    exact ⟨fun q _ => pop_moves cfg s q, h.pop cfg⟩
  · rw [heq]
    obtain ⟨hother, hself, hbase⟩ := (h.pop cfg).issue_chunk cfg hmem hfin hc
    refine ⟨?_, hbase⟩
    intro q _
    by_cases hq : q = p
    · subst hq
      -- the front of a queue did not leave it
      have hview : s.pop_issued.view q = s.view q := by
        rcases pop_view s q with heq | ⟨hex, _⟩
        · exact heq
        · have hlt := (List.getElem?_eq_some_iff.mp hc).1
          simp only [exhausted, decide_eq_true_eq] at hex
          exact absurd hlt (by omega)
      rw [← hview]
      exact hself
    · rw [hother q hq]
      exact pop_moves cfg s q

/-! ### Completions -/

theorem find_chunk_some {cid : Nat} {w : PickedChunk} (h : s.find_chunk cid = some w) :
    w ∈ s.wire ∧ w.req.chunk_id = cid := by
  refine ⟨List.mem_of_find?_eq_some h, ?_⟩
  simpa using List.find?_some h

/-- A completion, as it reaches the request it was issued for. -/
structure Completes (cfg : Config) (s s' : Engine) (w : PickedChunk) (moved : Nat) (status : Status)
    (junk : Nat → UInt8) : Prop where
  mem : w ∈ s.wire
  idle : s.finishing = none
  eq : s' = (s.land cfg w moved status junk).handle_completion w.req.chunk_id moved status

namespace Completes

variable {w : PickedChunk} {moved : Nat} {status : Status} {junk : Nat → UInt8}

/-- The request after its chunk is counted. -/
def after (cfg : Config) (s : Engine) (w : PickedChunk) (moved : Nat) (status : Status)
    (junk : Nat → UInt8) : Pending :=
  discharged (counted (landed cfg (s.reqs w.owner) w moved status junk) moved status) w.inflight
    (status.code == .Ok)

theorem after_priority (cfg : Config) (s : Engine) (w : PickedChunk) (moved : Nat) (status : Status)
    (junk : Nat → UInt8) :
    (completed (after cfg s w moved status junk)).req.priority = (s.reqs w.owner).req.priority := by
  have hd : ∀ (r : Pending) (c : InflightChunk) (ok : Bool), (discharged r c ok).req = r.req := by
    intro r c ok
    unfold discharged
    split
    · rfl
    · rfl
  have hc : ∀ r : Pending, (counted r moved status).req = r.req := by
    intro r
    unfold counted
    dsimp only
    split
    · rfl
    · rfl
  have hcomp : ∀ r : Pending, (completed r).req = r.req := by
    intro r
    unfold completed
    split
    · rfl
    · rfl
  rw [hcomp, after, hd, hc]
  rfl

theorem fields (hb : Base s) (h : Completes cfg s s' w moved status junk) :
    s'.reqs = Function.update s.reqs w.owner (completed (after cfg s w moved status junk)) ∧
    s'.count = s.count ∧ s'.queues = s.queues ∧
    s'.chunk_owner = Function.update s.chunk_owner w.req.chunk_id none ∧
    s'.wire = s.wire.erase w ∧ s'.next_chunk_id = s.next_chunk_id ∧
    s'.cancel_calls = s.cancel_calls ∧
    s'.finishing = if (after cfg s w moved status junk).complete then some (w.owner, .release)
      else none := by
  have howner : (s.land cfg w moved status junk).chunk_owner w.req.chunk_id = some w.inflight :=
    hb.owner w h.mem
  have hreq : (s.land cfg w moved status junk).reqs w.owner =
      landed cfg (s.reqs w.owner) w moved status junk := set_req_self s w.owner _
  rw [h.eq]
  unfold Engine.handle_completion
  rw [howner]
  dsimp only
  refine ⟨?_, rfl, rfl, rfl, rfl, rfl, rfl, ?_⟩
  · show Function.update (Function.update s.reqs w.owner _) w.owner _ = _
    rw [Function.update_idem, show w.inflight.owner = w.owner from rfl, hreq]
    rfl
  · rw [show w.inflight.owner = w.owner from rfl, hreq]
    show (if _ then _ else s.finishing) = _
    rw [h.idle]
    rfl

theorem base (hb : Base s) (h : Completes cfg s s' w moved status junk) :
    Moves cfg (some (w, moved, status)) s s' ∧ Base s' := by
  obtain ⟨hreqs, hcount, hqueues, howner, hwire, hid, hcalls, hfin⟩ := h.fields hb
  have hlt := (hb.wire_lt w h.mem).1
  have hother : ∀ q, q ≠ w.owner → s'.view q = s.view q := by
    intro q hq
    apply Engine.view_eq
    · rw [hreqs, Function.update_of_ne hq]
    · rw [flights_of, flights_of, hwire, ← List.erase_filter, List.erase_of_not_mem]
      simp [hq.symm]
    · rw [finish_of_none h.idle]
      split at hfin
      · exact finish_of_ne hfin hq
      · exact finish_of_none hfin
    · rw [hqueues]
    · rw [cancelling_of, cancelling_of, hcalls]
  have hself : Move cfg (some (w, moved, status)) (s.view w.owner) (s'.view w.owner) := by
    have hflight : w ∈ s.flights_of w.owner := List.mem_filter.mpr ⟨h.mem, by simp⟩
    have hfinish : s'.finish_of w.owner =
        if (after cfg s w moved status junk).complete then some .release else none := by
      rw [finish_of, hfin]
      split
      next hc => simpa using hc
      next hc =>
        split at hc
        · cases hc
          rename_i hcomp
          simp [hcomp]
        · cases hc
    have hview : s'.view w.owner =
        { s.view w.owner with
          r := completed (after cfg s w moved status junk)
          flights := (s.flights_of w.owner).erase w
          finish := if (after cfg s w moved status junk).complete then some .release else none } := by
      simp only [view, queued_of, cancelling_of, hfinish, hqueues, hcalls, hreqs,
        Function.update_self, after_priority]
      rw [flights_of, hwire, ← List.erase_filter]
      rfl
    rw [hview]
    exact .complete (v := s.view w.owner) moved status junk hflight (finish_of_none h.idle) rfl
  have hm : Moves cfg (some (w, moved, status)) s s' := by
    intro q _
    by_cases hq : q = w.owner
    · rw [hq]
      exact hself
    · rw [hother q hq]
      exact .stay _ _
  refine ⟨hm, ?_, ?_, ?_, ?_, ?_, ?_, ?_, ?_⟩
  · rw [hcount]
    exact Moves.inv hb hm
  · intro pr q hq
    rw [hqueues] at hq
    obtain ⟨hq', hpr⟩ := hb.queue_lt pr q hq
    rw [hcount, hreqs]
    refine ⟨hq', ?_⟩
    by_cases hqp : q = w.owner
    · rw [hqp, Function.update_self, after_priority, ← hqp, hpr]
    · rw [Function.update_of_ne hqp, hpr]
  · rw [hqueues]
    exact hb.queue_nodup
  · intro w' hw'
    rw [hwire] at hw'
    rw [hcount, hid]
    exact hb.wire_lt w' (List.mem_of_mem_erase hw')
  · rw [hwire]
    exact hb.wire_nodup.sublist (List.erase_sublist.map _)
  · intro w' hw'
    rw [hwire] at hw'
    -- ids are distinct, so the other chunks keep their owner
    have hnodup : s.wire.Nodup := hb.wire_nodup.of_map _
    obtain ⟨hne, hmem⟩ := hnodup.mem_erase_iff.mp hw'
    have hcid : w'.req.chunk_id ≠ w.req.chunk_id := fun heq =>
      hne (List.inj_on_of_nodup_map hb.wire_nodup hmem h.mem heq)
    rw [howner, Function.update_of_ne hcid]
    exact hb.owner w' hmem
  · intro q f hf
    rw [hfin] at hf
    rw [hcount]
    split at hf
    · cases hf
      exact hlt
    · cases hf
  · rw [hcalls, hcount]
    exact hb.cancel_lt

end Completes

/-! ### finish -/

theorem give_back_tables (s : Engine) (r : Pending) : SameTables s (s.give_back r) := by
  unfold give_back
  split
  · exact ⟨(give_back_route_tables s r).count, (give_back_route_tables s r).queues,
      (give_back_route_tables s r).chunk_owner, (give_back_route_tables s r).wire,
      (give_back_route_tables s r).next_chunk_id, (give_back_route_tables s r).finishing,
      (give_back_route_tables s r).cancel_calls⟩
  split
  · exact ⟨rfl, rfl, rfl, rfl, rfl, rfl, rfl⟩
  · exact ⟨rfl, rfl, rfl, rfl, rfl, rfl, rfl⟩

theorem give_back_reqs (s : Engine) (r : Pending) : (s.give_back r).reqs = s.reqs := by
  unfold give_back
  split
  · exact give_back_route_reqs s r
  split
  · rfl
  · rfl

/-- The queues stay; `finish` takes its next step. -/
theorem Base.of_finish (h : Base s) {r : Pending} {f : FinishStep} {g : Option FinishStep}
    (hf : s.finishing = some (p, f)) (hreqs : s'.reqs = Function.update s.reqs p r)
    (hpr : r.req.priority = (s.reqs p).req.priority) (hcount : s'.count = s.count)
    (hqueues : s'.queues = s.queues) (howner : s'.chunk_owner = s.chunk_owner)
    (hwire : s'.wire = s.wire) (hid : s'.next_chunk_id = s.next_chunk_id)
    (hcalls : s'.cancel_calls = s.cancel_calls) (hnext : s'.finishing = g.map fun k => (p, k))
    (hself : Move cfg none (s.view p) { s.view p with r := r, finish := g }) :
    Moves cfg none s s' ∧ Base s' := by
  have hp : p < s.count := h.finishing_lt p f hf
  have hfin : ∀ q, s'.finish_of q = if q = p then g else none := by
    intro q
    cases g with
    | none => rw [finish_of_none hnext, ite_self]
    | some k =>
      split
      next hq => exact hq ▸ finish_of_self hnext
      next hq => exact finish_of_ne hnext hq
  -- the queue of its priority is set to what it was
  refine h.of_queue (l := s.queues r.req.priority) (f := g) (n := s.cancelling_of p) hp hpr hreqs ?_
    (h.queue_nodup _) (fun _ _ => Iff.rfl) hcount howner hwire hid ?_ ?_ ?_ ?_ ?_ ?_ ?_
  · rw [Function.update_eq_self, hqueues]
  · intro q hq
    rw [hfin, if_neg hq, finish_of_ne hf hq]
  · intro q k hk
    rw [hnext] at hk
    obtain ⟨_, _, heq⟩ := Option.map_eq_some_iff.mp hk
    cases heq
    exact hp
  · intro q _
    rw [cancelling_of, cancelling_of, hcalls]
  · rw [hcalls]
    exact h.cancel_lt
  · rw [hfin, if_pos rfl]
  · rw [cancelling_of, cancelling_of, hcalls]
  · rw [hpr]
    exact hself

theorem released_priority (r : Pending) : (released r).req.priority = r.req.priority := by
  unfold released
  split
  · rfl
  split
  · rfl
  · rfl

theorem Base.release (h : Base s) (cfg : Config) (hf : s.finishing = some (p, .release)) :
    Moves cfg none s (s.release p) ∧ Base (s.release p) := by
  have ht := give_back_tables s (s.reqs p)
  refine h.of_finish (r := released (s.reqs p))
    (g := some (if (s.reqs p).fails_over then .reset else .deliver (s.reqs p).result)) hf ?_
    (released_priority _) ht.count ht.queues ht.chunk_owner ht.wire ht.next_chunk_id
    ht.cancel_calls rfl ?_
  · show Function.update (s.give_back (s.reqs p)).reqs p _ = _
    rw [give_back_reqs]
  · exact .release (v := s.view p) (finish_of_self hf)

theorem Base.reset (h : Base s) (cfg : Config) (hf : s.finishing = some (p, .reset)) :
    Moves cfg none s (s.reset p) ∧ Base (s.reset p) := by
  refine h.of_finish (r := (s.reqs p).retry) (g := some .requeue) hf rfl rfl rfl rfl rfl rfl rfl
    rfl rfl ?_
  exact .reset (v := s.view p) (finish_of_self hf)

theorem Base.requeue (h : Base s) (cfg : Config) (hf : s.finishing = some (p, .requeue)) :
    Moves cfg none s (s.requeue p) ∧ Base (s.requeue p) := by
  refine h.of_queue
    (l := p :: (s.queues (s.reqs p).req.priority).filter fun q => q != p)
    (r := { s.reqs p with phase := .queued }) (h.finishing_lt p _ hf) rfl rfl rfl ?_ ?_ rfl rfl rfl
    rfl ?_ ?_ (fun _ _ => rfl) h.cancel_lt (f := none) rfl rfl ?_
  · rw [List.nodup_cons]
    refine ⟨?_, (h.queue_nodup _).filter _⟩
    intro hin
    simpa using (List.mem_filter.mp hin).2
  · intro q hq
    simp [hq]
  · intro q hq
    exact (finish_of_ne hf hq).symm
  · intro q f hq
    cases hq
  · have hmem : decide (p ∈ p :: (s.queues (s.reqs p).req.priority).filter fun q => q != p) = true := by
      simp
    rw [hmem]
    exact .requeue (v := s.view p) (finish_of_self hf)

theorem Base.deliver (h : Base s) (cfg : Config) {res : IoResult}
    (hf : s.finishing = some (p, .deliver res)) :
    Moves cfg none s (s.deliver p res) ∧ Base (s.deliver p res) := by
  refine h.of_finish (r := { s.reqs p with phase := .done, results := (s.reqs p).results ++ [res] })
    (g := some .settle) hf rfl rfl rfl rfl rfl rfl rfl rfl rfl ?_
  exact .deliver (v := s.view p) (finish_of_self hf)

theorem Base.settle (h : Base s) (cfg : Config) (hf : s.finishing = some (p, .settle)) :
    Moves cfg none s (s.settle p) ∧ Base (s.settle p) := by
  refine h.of_finish (r := s.reqs p) (g := none) hf ?_ rfl rfl rfl rfl rfl rfl rfl rfl ?_
  · rw [Function.update_eq_self]
    rfl
  · exact .settle (v := s.view p) (finish_of_self hf)

/-! ### All steps -/

theorem Base.same (h : Base s) (cfg : Config) (ht : SameTables s s') (hr : s'.reqs = s.reqs) :
    Moves cfg none s s' ∧ Base s' := by
  have hm : Moves cfg none s s' := by
    intro q _
    rw [ht.view_eq (congrFun hr q)]
    exact .stay _ _
  exact ⟨hm, h.of_tables ht (fun q _ => by rw [hr]) (Moves.inv h hm)⟩

theorem Base.finish (h : Base s) (cfg : Config) (hs : s.finish = some s') :
    Moves cfg none s s' ∧ Base s' := by
  unfold Engine.finish at hs
  split at hs
  · cases hs
  next hf =>
    cases hs
    exact h.release cfg hf
  next hf =>
    cases hs
    exact h.reset cfg hf
  next hf =>
    cases hs
    exact h.requeue cfg hf
  next hf =>
    cases hs
    exact h.deliver cfg hf
  next hf =>
    cases hs
    exact h.settle cfg hf

/-- The completion an action reports: of a reaped chunk, or of a refused one. -/
def Engine.completion (s : Engine) : Action → Option Completion
  | .poll cid moved status _ => (s.find_chunk cid).map fun w => (w, moved, status)
  | .refusal cid =>
    match s.find_chunk cid, s.stage cid with
    | some w, .refused status => some (w, 0, status)
    | _, _ => none
  | _ => none

/-- The two actions that report a completion of chunk `cid`. -/
def Reports (cid : Nat) (a : Action) : Prop :=
  (∃ moved status junk, a = .poll cid moved status junk) ∨ a = .refusal cid

theorem step_completes {cid : Nat} {a : Action} (ha : Reports cid a)
    (hs : s.step cfg a = some s') :
    ∃ w moved status junk, w.req.chunk_id = cid ∧ s.completion a = some (w, moved, status) ∧
      Completes cfg s s' w moved status junk := by
  rcases ha with ⟨moved, status, junk, rfl⟩ | rfl
  · simp only [step] at hs
    split at hs
    next w hw =>
      obtain ⟨hmem, rfl⟩ := find_chunk_some hw
      split at hs
      next hen =>
        cases hs
        exact ⟨w, moved, status, junk, rfl, by simp [Engine.completion, hw], hmem, hen.1, rfl⟩
      · cases hs
    · cases hs
  · simp only [step] at hs
    split at hs
    next w status hw hstage =>
      obtain ⟨hmem, rfl⟩ := find_chunk_some hw
      split at hs
      next hidle =>
        cases hs
        exact ⟨w, 0, status, _, rfl, by simp [Engine.completion, hw, hstage], hmem, hidle, rfl⟩
      · cases hs
    · cases hs

/-- The actions that write only what no request is known by. -/
def Engine.Action.adjusts : Action → Bool
  | .do_submit .. | .drop_source _ | .readmit_source _ | .thermal .. | .set_p0_depth .. => true
  | _ => false

/-- All that a step can be. -/
inductive StepCase (cfg : Config) (s : Engine) : Action → Engine → Prop where
  | enter {req : IoRequest} (hopen : (cfg.files req.file).is_open = true) :
      StepCase cfg s (.submit req) (s.enter cfg req)
  | closed {req : IoRequest} (hclosed : ¬ (cfg.files req.file).is_open = true) :
      StepCase cfg s (.submit req) s
  | plan {p : Nat} (hp : p < s.count) (hphase : (s.reqs p).phase = .routed) :
      StepCase cfg s (.plan p) (s.plan cfg p)
  | enqueue {p : Nat} (hp : p < s.count) (hphase : (s.reqs p).phase = .planned) :
      StepCase cfg s (.enqueue p) (s.enqueue p)
  | cancel {p : Nat} : StepCase cfg s (.cancel p) (s.cancel p).2
  | uncharge {p : Nat} (hcall : (p, false) ∈ s.cancel_calls) :
      StepCase cfg s (.uncharge p) (s.uncharge p)
  | call_cancelled {p : Nat} (hcall : (p, true) ∈ s.cancel_calls) :
      StepCase cfg s (.call_cancelled p) (s.call_cancelled p)
  | issue {waiters : Nat} {recent : Bool} (hidle : s.finishing = none) :
      StepCase cfg s (.issue waiters recent) (s.issue cfg waiters recent)
  | completes {a : Action} {s' : Engine} {cid moved : Nat} {w : PickedChunk} {status : Status}
      {junk : Nat → UInt8} (ha : Reports cid a) (hcid : w.req.chunk_id = cid)
      (hl : s.completion a = some (w, moved, status))
      (hc : Completes cfg s s' w moved status junk) : StepCase cfg s a s'
  | finish {s' : Engine} (hs : s.finish = some s') : StepCase cfg s .finish s'
  | adjusts {a : Action} (ha : a.adjusts = true) (stage : Nat → Stage) (src_health : SourceHealth)
      (thermal : ThermalGate) (tune : Tuning)
      (htune : tune = s.tune ∨ ∃ depth qd bytes, a = .set_p0_depth depth qd bytes) :
      StepCase cfg s a { s with stage, src_health, thermal, tune }

theorem step_cases {a : Action} (hs : s.step cfg a = some s') : StepCase cfg s a s' := by
  cases a with
  | submit req =>
    simp only [step] at hs
    split at hs
    next hopen =>
      cases hs
      exact .enter hopen
    next hclosed =>
      cases hs
      exact .closed hclosed
  | plan p =>
    simp only [step, Option.ite_none_right_eq_some, Option.some.injEq] at hs
    obtain ⟨⟨hp, hphase⟩, rfl⟩ := hs
    exact .plan hp hphase
  | enqueue p =>
    simp only [step, Option.ite_none_right_eq_some, Option.some.injEq] at hs
    obtain ⟨⟨hp, hphase⟩, rfl⟩ := hs
    exact .enqueue hp hphase
  | cancel p =>
    cases hs
    exact .cancel
  | uncharge p =>
    simp only [step, Option.ite_none_right_eq_some, Option.some.injEq] at hs
    obtain ⟨hcall, rfl⟩ := hs
    exact .uncharge hcall
  | call_cancelled p =>
    simp only [step, Option.ite_none_right_eq_some, Option.some.injEq] at hs
    obtain ⟨hcall, rfl⟩ := hs
    exact .call_cancelled hcall
  | issue waiters recent =>
    simp only [step, Option.ite_none_right_eq_some, Option.some.injEq] at hs
    obtain ⟨hidle, rfl⟩ := hs
    exact .issue hidle
  | poll cid moved status junk =>
    -- a polled chunk and a refused one complete alike
    have ha : Reports cid (.poll cid moved status junk) := .inl ⟨_, _, _, rfl⟩
    obtain ⟨w, moved, status, junk, hcid, hl, hc⟩ := step_completes ha hs
    exact .completes ha hcid hl hc
  | refusal cid =>
    obtain ⟨w, moved, status, junk, hcid, hl, hc⟩ := step_completes (.inr rfl) hs
    exact .completes (.inr rfl) hcid hl hc
  | finish => exact .finish hs
  | do_submit cid answer =>
    simp only [step, Option.ite_none_right_eq_some, Option.some.injEq] at hs
    obtain ⟨-, rfl⟩ := hs
    exact .adjusts rfl _ s.src_health s.thermal s.tune (.inl rfl)
  | readmit_source src =>
    simp only [step, Option.ite_none_right_eq_some, Option.some.injEq] at hs
    obtain ⟨-, rfl⟩ := hs
    exact .adjusts rfl s.stage _ s.thermal s.tune (.inl rfl)
  | drop_source src =>
    cases hs
    exact .adjusts rfl s.stage _ s.thermal s.tune (.inl rfl)
  | thermal src temp_c =>
    cases hs
    exact .adjusts rfl s.stage s.src_health _ s.tune (.inl rfl)
  | set_p0_depth depth qd bytes =>
    cases hs
    exact .adjusts rfl s.stage s.src_health s.thermal _ (.inr ⟨depth, qd, bytes, rfl⟩)

theorem completion_of_adjusts {a : Action} (ha : a.adjusts = true) : s.completion a = none := by
  cases a with
  | do_submit | drop_source | readmit_source | thermal | set_p0_depth => rfl
  | _ => cases ha

/-- The engine refines the life of its requests: every step is one move of each. -/
theorem Base.step_moves (h : Base s) {a : Action} (hs : s.step cfg a = some s') :
    Moves cfg (s.completion a) s s' ∧ Base s' := by
  cases step_cases hs with
  | enter => exact h.enter cfg _
  | closed => exact h.same cfg ⟨rfl, rfl, rfl, rfl, rfl, rfl, rfl⟩ rfl
  | plan _ hphase => exact h.plan cfg hphase
  | enqueue hp hphase => exact h.enqueue cfg hp hphase
  | cancel => exact h.cancel cfg _
  | uncharge hcall => exact h.uncharge cfg hcall
  | call_cancelled hcall => exact h.call_cancelled cfg hcall
  | issue hidle => exact h.issue cfg _ _ hidle
  | completes _ _ hl hc =>
    rw [hl]
    exact hc.base h
  | finish hs => exact h.finish cfg hs
  | adjusts ha =>
    rw [completion_of_adjusts ha]
    exact h.same cfg ⟨rfl, rfl, rfl, rfl, rfl, rfl, rfl⟩ rfl

/-- Only `submit` brings in a request. -/
theorem Base.step_count (h : Base s) {a : Action} (hs : s.step cfg a = some s') :
    s'.count = s.count ∨ ∃ req, s' = s.enter cfg req := by
  -- the tables of the other steps are as long as before
  cases step_cases hs with
  | @enter req => exact .inr ⟨req, rfl⟩
  | @plan p => exact .inl (plan_tables cfg s p).count
  | @cancel p =>
    left
    rcases cancel_cases s p with heq | ⟨_, _, _, _, heq⟩
    · rw [heq]
    · rw [heq]
      rfl
  | @uncharge p =>
    left
    unfold Engine.uncharge
    dsimp only
    split
    · rfl
    · rfl
  | @issue waiters recent =>
    left
    rcases issue_cases cfg s waiters recent with heq | ⟨p, _, c, _, hc, heq⟩
    · rw [heq]
      rfl
    · rw [heq, issue_chunk_eq cfg (s := s.pop_issued) hc]
      rfl
  | completes _ _ _ hc => exact .inl (hc.fields h).2.1
  | finish hs =>
    unfold Engine.finish at hs
    left
    split at hs
    · cases hs
    · cases hs
      exact (give_back_tables s _).count
    · cases hs
      rfl
    · cases hs
      rfl
    · cases hs
      rfl
    · cases hs
      rfl
  | closed | enqueue | call_cancelled | adjusts => exact .inl rfl

theorem base_init (h : (engine_system cfg).init s) : Base s := by
  obtain ⟨hcount, hqueues, _, hwire, _, _, _, _, hfin, hcalls⟩ := h
  refine ⟨?_, ?_, ?_, ?_, ?_, ?_, ?_, ?_⟩
  · intro p hp
    omega
  · simp [hqueues]
  · simp [hqueues]
  · simp [hwire]
  · simp [hwire]
  · simp [hwire]
  · simp [hfin]
  · simp [hcalls]

/-- What a fresh request has and every move keeps, every request has in every run. -/
theorem reachable_views {ok : Engine → Action → Prop} {P : View → Prop}
    (hnew : ∀ (s : Engine) (req : IoRequest), P { r := (s.enter cfg req).reqs s.count })
    (hmove : ∀ (s : Engine) (a : Action) (v v' : View), ok s a → v.Inv → P v →
      Move cfg (s.completion a) v v' → P v')
    (h : LTS.Reachable ((engine_system cfg).restrict ok) s) :
    Base s ∧ ∀ p < s.count, P (s.view p) := by
  apply h.invariant (P := fun s => Base s ∧ ∀ p < s.count, P (s.view p))
  · intro s hs
    have hs : (engine_system cfg).init s := hs
    refine ⟨base_init hs, ?_⟩
    intro p hp
    rw [hs.1] at hp
    cases hp
  · intro s a s' ⟨hb, hviews⟩ ⟨hs, hok⟩
    have hs : s.step cfg a = some s' := hs
    obtain ⟨hm, hb'⟩ := hb.step_moves hs
    refine ⟨hb', ?_⟩
    intro p hp
    by_cases hlt : p < s.count
    · exact hmove s a _ _ hok (hb.views p hlt) (hviews p hlt) (hm p hlt)
    · -- the request that has just entered
      rcases hb.step_count hs with hcount | ⟨req, rfl⟩
      · omega
      · obtain ⟨_, _, _, hcount, _⟩ := enter_cases cfg s req
        obtain rfl : p = s.count := by omega
        rw [hb.enter_view_count cfg req]
        exact hnew s req

end CachedMoe.Storage
