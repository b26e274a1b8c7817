import CachedMoe.Storage.Refinement

/-! # The depth counters

    `inflight_ops_`, `inflight_bytes_` and `inflight_class_` are kept apart from the chunks they
    count: a chunk is added when it is picked, and taken off when its completion is handled.
    `Metered` says that they agree with the chunks in flight, and holds in every run that starts
    with all three at 0. -/

namespace CachedMoe.Storage

open CachedMoe Engine

/-- The chunks of a class in flight. -/
def class_flights (s : Engine) (pr : IoPriority) : Nat :=
  s.wire.countP fun w => (s.reqs w.owner).req.priority == pr

def flight_bytes (s : Engine) : Nat := (s.wire.map fun w => w.req.bytes).sum

/-- An engine whose counters start at 0. -/
def Unmetered (s : Engine) : Prop :=
  s.inflight_ops = 0 ∧ s.inflight_bytes = 0 ∧ s.inflight_class = fun _ => 0

structure Metered (s : Engine) : Prop where
  ops : s.inflight_ops = s.wire.length
  bytes : s.inflight_bytes = flight_bytes s
  classes : ∀ pr, s.inflight_class pr = class_flights s pr

variable {cfg : Config} {s s' : Engine} {p : Nat}

/-! ### A request keeps its class -/

theorem Move.priority {l : Option Completion} {v v' : View} (h : Move cfg l v v') :
    v'.r.req.priority = v.r.req.priority := by
  cases h with
  | stay | dequeue | reject | plan | stripe | enqueue | cancel | uncharge | call_cancelled | issue
  | reset | requeue | deliver | settle => rfl
  | release => exact released_priority v.r
  | complete moved status junk hw hf hr =>
    subst hr
    exact Completes.after_priority cfg { reqs := fun _ => v.r } _ moved status junk

theorem Base.priority_kept (h : Base s) {a : Action} (hs : s.step cfg a = some s')
    {w : PickedChunk} (hw : w ∈ s.wire) :
    (s'.reqs w.owner).req.priority = (s.reqs w.owner).req.priority :=
  ((h.step_moves hs).1 w.owner (h.wire_lt w hw).1).priority

/-! ### Steps that leave the counters alone -/

structure SameMeters (s s' : Engine) : Prop where
  wire : s'.wire = s.wire
  ops : s'.inflight_ops = s.inflight_ops
  bytes : s'.inflight_bytes = s.inflight_bytes
  classes : s'.inflight_class = s.inflight_class
  tune : s'.tune = s.tune

theorem give_back_route_meters (s : Engine) (r : Pending) : SameMeters s (s.give_back_route r) := by
  unfold give_back_route
  split
  · exact ⟨rfl, rfl, rfl, rfl, rfl⟩
  · exact ⟨rfl, rfl, rfl, rfl, rfl⟩

theorem give_back_meters (s : Engine) (r : Pending) : SameMeters s (s.give_back r) := by
  unfold give_back
  split
  · have h := give_back_route_meters s r
    exact ⟨h.wire, h.ops, h.bytes, h.classes, h.tune⟩
  split
  · exact ⟨rfl, rfl, rfl, rfl, rfl⟩
  · exact ⟨rfl, rfl, rfl, rfl, rfl⟩

theorem enter_meters (cfg : Config) (s : Engine) (req : IoRequest) :
    SameMeters s (s.enter cfg req) := by
  unfold enter
  dsimp only
  split
  · exact ⟨rfl, rfl, rfl, rfl, rfl⟩
  · exact ⟨rfl, rfl, rfl, rfl, rfl⟩
  · exact ⟨rfl, rfl, rfl, rfl, rfl⟩

theorem plan_meters (cfg : Config) (s : Engine) (p : Nat) : SameMeters s (s.plan cfg p) := by
  unfold plan
  dsimp only
  split
  · exact ⟨rfl, rfl, rfl, rfl, rfl⟩
  split
  · have h := give_back_route_meters s (s.reqs p)
    exact ⟨h.wire, h.ops, h.bytes, h.classes, h.tune⟩
  split
  · exact ⟨rfl, rfl, rfl, rfl, rfl⟩
  · exact ⟨rfl, rfl, rfl, rfl, rfl⟩

theorem finish_meters (hs : s.finish = some s') : SameMeters s s' := by
  unfold Engine.finish at hs
  split at hs
  · cases hs
  next p _ =>
    cases hs
    have h := give_back_meters s (s.reqs p)
    exact ⟨h.wire, h.ops, h.bytes, h.classes, h.tune⟩
  · cases hs
    exact ⟨rfl, rfl, rfl, rfl, rfl⟩
  · cases hs
    exact ⟨rfl, rfl, rfl, rfl, rfl⟩
  · cases hs
    exact ⟨rfl, rfl, rfl, rfl, rfl⟩
  · cases hs
    exact ⟨rfl, rfl, rfl, rfl, rfl⟩

theorem uncharge_meters (s : Engine) (p : Nat) : SameMeters s (s.uncharge p) := by
  unfold uncharge
  dsimp only
  split
  · exact ⟨rfl, rfl, rfl, rfl, rfl⟩
  · exact ⟨rfl, rfl, rfl, rfl, rfl⟩

/-- The chunks in flight change when one is picked and when its completion is handled, and
    nowhere else. -/
theorem step_meters {a : Action} (hs : s.step cfg a = some s') :
    SameMeters s s' ∨ (∃ waiters recent, a = .issue waiters recent) ∨ (∃ cid, Reports cid a) ∨
      ∃ depth qd bytes, a = .set_p0_depth depth qd bytes := by
  cases step_cases hs with
  | @enter req => exact .inl (enter_meters cfg s req)
  | @plan p => exact .inl (plan_meters cfg s p)
  | @cancel p =>
    rcases cancel_cases s p with heq | ⟨_, _, _, _, heq⟩
    · rw [heq]
      exact .inl ⟨rfl, rfl, rfl, rfl, rfl⟩
    · rw [heq]
      exact .inl ⟨rfl, rfl, rfl, rfl, rfl⟩
  | @uncharge p => exact .inl (uncharge_meters s p)
  | @issue waiters recent => exact .inr (.inl ⟨waiters, recent, rfl⟩)
  | @completes _ _ cid _ _ _ _ ha => exact .inr (.inr (.inl ⟨cid, ha⟩))
  | finish hs => exact .inl (finish_meters hs)
  | adjusts _ _ _ _ _ htune =>
    rcases htune with rfl | hset
    · exact .inl ⟨rfl, rfl, rfl, rfl, rfl⟩
    · exact .inr (.inr (.inr hset))
  | closed | enqueue | call_cancelled => exact .inl ⟨rfl, rfl, rfl, rfl, rfl⟩

/-! ### Steps that count -/

theorem class_flights_congr {wire : List PickedChunk}
    (hpr : ∀ w ∈ wire, (s'.reqs w.owner).req.priority = (s.reqs w.owner).req.priority)
    (pr : IoPriority) :
    (wire.countP fun w => (s'.reqs w.owner).req.priority == pr) =
      wire.countP fun w => (s.reqs w.owner).req.priority == pr := by
  apply List.countP_congr
  intro w hw
  rw [hpr w hw]

theorem Metered.same (h : Metered s) (hb : Base s) {a : Action} (hs : s.step cfg a = some s')
    (hm : SameMeters s s') : Metered s' := by
  refine ⟨?_, ?_, ?_⟩
  · rw [hm.ops, hm.wire, h.ops]
  · rw [hm.bytes, h.bytes, flight_bytes, flight_bytes, hm.wire]
  · intro pr
    rw [hm.classes, h.classes, class_flights, class_flights, hm.wire,
      class_flights_congr fun w hw => hb.priority_kept hs hw]

theorem Metered.issue_chunk (h : Metered s) {c : Chunk}
    (hc : (s.reqs p).chunks[(s.reqs p).next_chunk]? = some c) :
    Metered (s.issue_chunk cfg p) := by
  have hpr : ∀ q, ((s.issue_chunk cfg p).reqs q).req.priority = (s.reqs q).req.priority := by
    intro q
    rw [issue_chunk_eq cfg hc]
    by_cases hq : q = p
    · rw [hq]
      show (Function.update s.reqs p _ p).req.priority = _
      rw [Function.update_self]
      rfl
    · show (Function.update s.reqs p _ q).req.priority = _
      rw [Function.update_of_ne hq]
  refine ⟨?_, ?_, ?_⟩
  · rw [issue_chunk_eq cfg hc]
    show s.inflight_ops + 1 = s.wire.length + 1
    rw [h.ops]
  · rw [issue_chunk_eq cfg hc]
    show s.inflight_bytes + c.bytes = (List.map _ (_ :: s.wire)).sum
    rw [List.map_cons, List.sum_cons, h.bytes, flight_bytes, Nat.add_comm]
    rfl
  · intro pr
    rw [class_flights, class_flights_congr fun w _ => hpr w.owner, issue_chunk_eq cfg hc]
    show Function.update s.inflight_class (s.reqs p).req.priority _ pr = List.countP _ (_ :: s.wire)
    rw [List.countP_cons]
    by_cases heq : pr = (s.reqs p).req.priority
    · rw [heq, Function.update_self, h.classes, if_pos (by simp [picked])]
      rfl
    · rw [Function.update_of_ne heq, h.classes, if_neg (by simpa [picked] using fun e => heq e.symm)]
      rfl

theorem Metered.issue (h : Metered s) (waiters : Nat) (recent : Bool) :
    Metered (s.issue cfg waiters recent) := by
  have hpop : Metered s.pop_issued := ⟨h.ops, h.bytes, h.classes⟩
  rcases issue_cases cfg s waiters recent with heq | ⟨p, _, c, _, hc, heq⟩
  · rw [heq]
    exact hpop
  · rw [heq]
    exact hpop.issue_chunk hc

/-- The counters after a completion. -/
theorem Completes.meters {w : PickedChunk} {moved : Nat} {status : Status} {junk : Nat → UInt8}
    (hb : Base s) (h : Completes cfg s s' w moved status junk) :
    s'.inflight_ops = s.inflight_ops - 1 ∧ s'.inflight_bytes = s.inflight_bytes - w.req.bytes ∧
      s'.inflight_class = Function.update s.inflight_class (s.reqs w.owner).req.priority
        (s.inflight_class (s.reqs w.owner).req.priority - 1) := by
  have howner : (s.land cfg w moved status junk).chunk_owner w.req.chunk_id = some w.inflight :=
    hb.owner w h.mem
  have hreq : (s.land cfg w moved status junk).reqs w.owner =
      landed cfg (s.reqs w.owner) w moved status junk := set_req_self s w.owner _
  rw [h.eq]
  unfold Engine.handle_completion
  rw [howner]
  refine ⟨rfl, rfl, ?_⟩
  dsimp only
  rw [show w.inflight.owner = w.owner from rfl, hreq]
  rfl

/-- The completion of a chunk is handled. -/
theorem Metered.complete (h : Metered s) (hb : Base s) {a : Action} (hs : s.step cfg a = some s')
    {w : PickedChunk} {moved : Nat} {status : Status} {junk : Nat → UInt8}
    (hc : Completes cfg s s' w moved status junk) : Metered s' := by
  obtain ⟨hops, hbytes, hclass⟩ := hc.meters hb
  have hwire : s'.wire = s.wire.erase w := (hc.fields hb).2.2.2.2.1
  refine ⟨?_, ?_, ?_⟩
  · rw [hops, hwire, List.length_erase_of_mem hc.mem, h.ops]
  · have hsum := List.sum_map_erase (fun w : PickedChunk => w.req.bytes) hc.mem
    rw [hbytes, flight_bytes, hwire, h.bytes, flight_bytes]
    omega
  · intro pr
    rw [hclass, class_flights, hwire, class_flights_congr
      fun v hv => hb.priority_kept hs (List.mem_of_mem_erase hv), List.countP_erase]
    by_cases heq : pr = (s.reqs w.owner).req.priority
    · rw [heq, Function.update_self, h.classes, class_flights, if_pos ⟨hc.mem, by simp⟩]
    · rw [Function.update_of_ne heq, h.classes, class_flights, if_neg]
      · rfl
      · intro ⟨_, hcls⟩
        have hcls : (s.reqs w.owner).req.priority = pr := by simpa using hcls
        exact heq hcls.symm

/-! ### All steps -/

theorem Metered.step (h : Metered s) (hb : Base s) {a : Action} (hs : s.step cfg a = some s') :
    Metered s' := by
  rcases step_meters hs with hm | ⟨waiters, recent, rfl⟩ | ⟨cid, hr⟩ | ⟨_, _, _, rfl⟩
  · exact h.same hb hs hm
  · simp only [Engine.step] at hs
    split at hs
    · cases hs
      exact h.issue waiters recent
    · cases hs
  · obtain ⟨w, moved, status, junk, _, _, hc⟩ := step_completes hr hs
    exact h.complete hb hs hc
  · cases hs
    exact ⟨h.ops, h.bytes, h.classes⟩

/-- What the code starts from: nothing in flight, and the counters at 0. -/
def metered_system (cfg : Config) : LTS.System Engine Action :=
  (engine_system cfg).starting Unmetered

theorem metered_init (h : (metered_system cfg).init s) : Base s ∧ Metered s := by
  obtain ⟨hinit, hops, hbytes, hclass⟩ := h
  have hwire : s.wire = [] := hinit.2.2.2.1
  refine ⟨base_init hinit, ?_, ?_, ?_⟩
  · rw [hops, hwire]
    rfl
  · rw [hbytes, flight_bytes, hwire]
    rfl
  · intro pr
    rw [hclass, class_flights, hwire]
    rfl

theorem reachable_metered (h : LTS.Reachable (metered_system cfg) s) : Base s ∧ Metered s := by
  apply h.invariant (P := fun s => Base s ∧ Metered s)
  · intro s hs
    exact metered_init hs
  · intro s a s' ⟨hb, hm⟩ hs
    have hs : s.step cfg a = some s' := hs
    exact ⟨(hb.step_moves hs).2, hm.step hb hs⟩

end CachedMoe.Storage
