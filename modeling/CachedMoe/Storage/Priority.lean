import CachedMoe.Storage.Completion
import CachedMoe.Storage.Meters

/-! # Strict priority

    `issue_ready_chunks` picks the next chunk under the engine's lock: the front of the highest
    class that has one, except that the front of P2 passes a P0 backlog while a consumer waits
    for engram rows, within bounds of its own. The backend gets the chunk after the lock is
    released, so a request of a higher class may have come in by then: a chunk that has been
    picked is not taken back. -/

namespace CachedMoe.Storage

open CachedMoe Engine

/-- The underlying value of the enumerator: P0 is the highest class. -/
def class_rank : IoPriority → Nat
  | .BlockingMiss => 0
  | .Lookahead => 1
  | .Engram => 2
  | .Backfill => 3

/-- A request of the class waits with a chunk that has not been issued. -/
def Unissued (s : Engine) (pr : IoPriority) : Prop :=
  ∃ p ∈ s.queues pr, (s.reqs p).next_chunk < (s.reqs p).chunks.length

/-- No class above the chunk's has a chunk to issue. -/
def NoneHigher (s : Engine) (w : PickedChunk) : Prop :=
  ∀ pr, class_rank pr < class_rank (s.reqs w.owner).req.priority → ¬ Unissued s pr

/-- The engram rescue, with its bounds. -/
structure Rescued (s : Engine) (waiters : Nat) (w : PickedChunk) : Prop where
  waiting : waiters ≠ 0
  engram : (s.reqs w.owner).req.priority = .Engram
  pages : (s.reqs w.owner).req.bytes ≤ 2 * kPageSize
  in_flight : class_flights s .Engram < kEngramWaitChunks
  depth : s.wire.length < s.rescue_qd
  bytes : flight_bytes s < s.tune.bg_inflight_bytes

/-- The chunk may go out. -/
def InOrder (s : Engine) (waiters : Nat) (w : PickedChunk) : Prop :=
  NoneHigher s w ∨ Rescued s waiters w

variable {cfg : Config} {s₀ s s' : Engine} {p : Nat} {w : PickedChunk}

/-! ### What is selected -/

/-- The front of the first class with one: the classes above have none. -/
theorem first_queued_highest (h : s.first_queued = some p) :
    ∃ pr, (s.queues pr).head? = some p ∧ ∀ pr', class_rank pr' < class_rank pr → s.queues pr' = [] := by
  unfold first_queued at h
  rw [Option.bind_eq_some_iff] at h
  obtain ⟨pr, hfind, hhead⟩ := h
  refine ⟨pr, hhead, ?_⟩
  intro pr' hlt
  obtain ⟨_, before, after, hsplit, hbefore⟩ := List.find?_eq_some_iff_append.mp hfind
  -- the classes are tried in the order of their ranks
  have hmem : pr' ∈ before := by
    have hsorted : List.Pairwise (fun a b => class_rank a < class_rank b) priorities := by decide
    rw [hsplit, List.pairwise_append] at hsorted
    have hin : pr' ∈ before ++ pr :: after := by
      rw [← hsplit]
      cases pr' with
      | BlockingMiss | Lookahead | Engram | Backfill => decide
    rcases List.mem_append.mp hin with hin | hin
    · exact hin
    · rcases List.mem_cons.mp hin with rfl | hin
      · exact absurd hlt (Nat.lt_irrefl _)
      · have hgt := List.rel_of_pairwise_cons hsorted.2.1 hin
        omega
  simpa using hbefore pr' hmem

/-- A queue that is empty without its fully issued requests has nothing to issue. -/
theorem popped_empty {pr : IoPriority} (h : s.pop_issued.queues pr = []) : ¬ Unissued s pr := by
  rintro ⟨p, hmem, hlt⟩
  have hall : ∀ p ∈ s.queues pr, exhausted (s.reqs p) = true := List.dropWhile_eq_nil_iff.mp h
  have hex := hall p hmem
  simp only [exhausted, decide_eq_true_eq] at hex
  omega

theorem rescue_bounds {waiters : Nat} (h : s.rescue waiters = some p) :
    p ∈ s.queues .Engram ∧ waiters ≠ 0 ∧ (s.reqs p).req.bytes ≤ 2 * kPageSize ∧
      s.inflight_ops < s.rescue_qd ∧ s.inflight_class .Engram < kEngramWaitChunks ∧
      s.inflight_bytes < s.tune.bg_inflight_bytes := by
  unfold rescue at h
  split at h
  next q l hl =>
    split at h
    next hb =>
      cases h
      obtain ⟨hwait, _, hpages, hops, hcls, hbytes⟩ := hb
      exact ⟨by rw [hl]; exact List.mem_cons_self, hwait, hpages, hops, hcls, hbytes⟩
    · cases h
  · cases h

theorem select_in_order (hb : Base s) (hm : Metered s) {waiters : Nat} {rescued : Bool}
    (h : s.pop_issued.select waiters = some (p, rescued)) (hw : w.owner = p) :
    InOrder s waiters w := by
  subst hw
  unfold select at h
  split at h
  next q hq =>
    cases h
    obtain ⟨hmem, hwait, hpages, hops, hcls, hbytes⟩ := rescue_bounds hq
    have hpr := (hb.queue_lt _ _ (List.dropWhile_subset _ hmem)).2
    -- the counters are those of the chunks in flight
    right
    refine ⟨hwait, hpr, hpages, ?_, ?_, ?_⟩
    · rw [← hm.classes]
      exact hcls
    · rw [← hm.ops]
      exact hops
    · rw [← hm.bytes]
      exact hbytes
  · rw [Option.map_eq_some_iff] at h
    obtain ⟨q, hq, heq⟩ := h
    cases heq
    obtain ⟨pr, hhead, hempty⟩ := first_queued_highest hq
    have hpr : (s.reqs w.owner).req.priority = pr :=
      (hb.queue_lt pr _ (List.dropWhile_subset _ (List.mem_of_mem_head? hhead))).2
    left
    intro pr' hlt
    rw [hpr] at hlt
    exact popped_empty (hempty pr' hlt)

/-! ### What goes out -/

theorem issue_in_order (hb : Base s) (hm : Metered s) {waiters : Nat} {recent : Bool}
    (hno : w ∉ s.wire) (hw : w ∈ (s.issue cfg waiters recent).wire) : InOrder s waiters w := by
  unfold Engine.issue at hw
  dsimp only at hw
  split at hw
  · exact absurd hw hno
  next p rescued hsel =>
    split at hw
    · exact absurd hw hno
    · unfold Engine.issue_chunk at hw
      dsimp only at hw
      split at hw
      · exact absurd hw hno
      next c hc =>
        rcases List.mem_cons.mp hw with rfl | hw
        · exact select_in_order hb hm hsel rfl
        · exact absurd hw hno

/-- A chunk gets in flight by being picked. -/
theorem newly_issued (hb : Base s) (hm : Metered s) {a : Action} (hs : s.step cfg a = some s')
    (hno : w ∉ s.wire) (hw : w ∈ s'.wire) :
    ∃ waiters recent, a = .issue waiters recent ∧ InOrder s waiters w := by
  rcases step_meters hs with hsame | ⟨waiters, recent, rfl⟩ | ⟨cid, hr⟩ | ⟨_, _, _, rfl⟩
  · rw [hsame.wire] at hw
    exact absurd hw hno
  · refine ⟨waiters, recent, rfl, ?_⟩
    simp only [step] at hs
    split at hs
    · cases hs
      exact issue_in_order hb hm hno hw
    · cases hs
  · obtain ⟨v, moved, status, junk, _, _, hc⟩ := step_completes hr hs
    rw [(hc.fields hb).2.2.2.2.1] at hw
    exact absurd (List.mem_of_mem_erase hw) hno
  · cases hs
    exact absurd hw hno

/-- Every chunk with the submitters or the backend was issued in order: when it was picked, no
    higher class had an unissued chunk, or it was the engram rescue within its bounds. -/
theorem issued_in_priority_order {as : List Action} (hinit : (metered_system cfg).init s₀)
    (hrun : LTS.Run (metered_system cfg) s₀ as s) (hw : w ∈ s.wire) :
    ∃ before waiters recent after t t', as = before ++ .issue waiters recent :: after ∧
      LTS.Run (metered_system cfg) s₀ before t ∧ t.step cfg (.issue waiters recent) = some t' ∧
      LTS.Run (metered_system cfg) t' after s ∧ w ∉ t.wire ∧ w ∈ t'.wire ∧
      InOrder t waiters w := by
  have hnone : w ∉ s₀.wire := by
    have hempty : s₀.wire = [] := hinit.1.2.2.2.1
    simp [hempty]
  obtain ⟨before, a, after, t, t', heq, hbefore, hturn, hafter, hno, hyes⟩ :=
    hrun.turning_point (P := fun s => w ∈ s.wire) hnone hw
  obtain ⟨hb, hm⟩ := reachable_metered ⟨s₀, before, hinit, hbefore⟩
  have hs : t.step cfg a = some t' := hturn
  obtain ⟨waiters, recent, rfl, horder⟩ := newly_issued hb hm hs hno hyes
  exact ⟨before, waiters, recent, after, t, t', heq, hbefore, hs, hafter, hno, hyes, horder⟩

/-! ### A backlog of blocking misses -/

def two_misses : IoRequest := { bytes := 8192, dst := 4096, priority := .BlockingMiss }

/-- One row of the engram tables. -/
def engram_row : IoRequest := { bytes := 4096, dst := 4096, priority := .Engram }

theorem shallow_metered : (metered_system mirrored).init shallow :=
  ⟨shallow_init, rfl, rfl, rfl⟩

/-- A consumer waits for the row behind the backlog. -/
def rescue_run : List Action :=
  [.submit two_misses, .plan 0, .enqueue 0, .submit engram_row, .plan 1, .enqueue 1, .issue 1 true]

theorem issued_in_priority_order_rescue :
    ∃ s w, LTS.Run (metered_system mirrored) shallow rescue_run s ∧ w ∈ s.wire ∧
      (s.reqs w.owner).req = engram_row ∧ Unissued s .BlockingMiss ∧
      ∃ t waiters, w ∉ t.wire ∧ InOrder t waiters w := by
  obtain ⟨s, hrun, hs⟩ := LTS.Run.of_execute (Engine.step mirrored) shallow rescue_run
    (fun s => s.wire.any (fun w => (s.reqs w.owner).req == engram_row) &&
      (s.queues .BlockingMiss).any fun p => decide ((s.reqs p).next_chunk < (s.reqs p).chunks.length))
    (by decide)
  rw [Bool.and_eq_true, List.any_eq_true, List.any_eq_true] at hs
  obtain ⟨⟨w, hw, hreq⟩, p, hp, hlt⟩ := hs
  obtain ⟨_, waiters, _, _, t, _, _, _, _, _, hno, _, horder⟩ :=
    issued_in_priority_order shallow_metered hrun hw
  exact ⟨s, w, hrun, hw, eq_of_beq hreq, ⟨p, hp, of_decide_eq_true hlt⟩, t, waiters, hno, horder⟩

/-- A backfill chunk has been picked when a blocking miss comes in, and reaches the backend
    ahead of it. -/
theorem picked_chunk_passes_blocking_miss :
    ¬ ∀ (cfg : Config) (s s' : Engine) (w : PickedChunk) (answer : Result Unit),
      LTS.Reachable (metered_system cfg) s → w ∈ s.wire →
      s.step cfg (.do_submit w.req.chunk_id answer) = some s' → ∃ waiters, InOrder s waiters w := by
  intro h
  obtain ⟨s, hrun, hs⟩ := LTS.Run.of_execute (Engine.step mirrored) shallow
    [.submit two_pages, .plan 0, .enqueue 0, .issue 0 false, .submit two_misses, .plan 1, .enqueue 1]
    (fun s => s.wire.any (fun w => w.req.chunk_id == 1 &&
      (s.reqs w.owner).req.priority == .Backfill) && s.stage 1 == .picked &&
      (s.queues .BlockingMiss).any fun p => decide ((s.reqs p).next_chunk < (s.reqs p).chunks.length))
    (by decide)
  simp only [Bool.and_eq_true, List.any_eq_true, beq_iff_eq, decide_eq_true_eq] at hs
  obtain ⟨⟨⟨w, hw, hid, hpr⟩, hstage⟩, p, hp, hlt⟩ := hs
  have hstep : s.step mirrored (.do_submit w.req.chunk_id (.ok ())) =
      some { s with stage := Function.update s.stage 1 .accepted } := by
    rw [hid]
    simp only [step, hstage, if_true]
  obtain ⟨waiters, horder⟩ := h mirrored s _ w _ ⟨shallow, _, shallow_metered, hrun⟩ hw hstep
  rcases horder with hnone | hrescue
  · exact hnone .BlockingMiss (by rw [hpr]; decide) ⟨p, hp, hlt⟩
  · have hengram := hrescue.engram
    rw [hpr] at hengram
    cases hengram

end CachedMoe.Storage
