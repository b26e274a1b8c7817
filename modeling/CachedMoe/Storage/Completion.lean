import CachedMoe.Framework.Update
import CachedMoe.Storage.Refinement

/-! # Exactly-once completion

    `finish` resets a request it retries before it takes the lock to requeue it, and the
    request may still be in its queue: a `cancel` in between takes it for one that was never
    issued and calls it back, and the requeued request is called back again. In every run
    without such a `cancel` each accepted request is called back exactly once. -/

namespace CachedMoe.Storage

open CachedMoe Engine

variable {cfg : Config} {s s' : Engine} {p : Nat}

/-- No `cancel` finds the request `finish` has reset and is about to requeue. -/
def NoRace (s : Engine) : Action → Prop
  | .cancel p =>
    ¬ (s.finishing = some (p, .requeue) ∧ p ∈ s.queues (s.reqs p).req.priority)
  | _ => True

/-- Accepted and still counted as outstanding by the engine's threads. -/
def Pending.waiting (r : Pending) : Bool := r.phase == .queued || r.phase == .finishing

def Pending.weight (r : Pending) : Nat := if r.waiting then 1 else 0

/-- Requests accepted and not yet called back or taken by a `cancel`. -/
def waiting (s : Engine) : Nat :=
  PointUpdate.count (Finset.range s.count) s.reqs fun r => r.waiting

/-- The request whose callback has run and that still counts as outstanding. -/
def settling (s : Engine) : Nat :=
  match s.finishing with
  | some (_, .settle) => 1
  | _ => 0

/-- Every thread is through: no chunk to issue or in flight, no `finish` and no `cancel` at work. -/
structure Quiet (s : Engine) : Prop where
  queues : ∀ pr, ∀ p ∈ s.queues pr, exhausted (s.reqs p) = true
  wire : s.wire = []
  finishing : s.finishing = none
  cancels : s.cancel_calls = []

/-! ### The outstanding requests -/

/-- The counter, in runs without a race. -/
structure Counted (s : Engine) : Prop where
  base : Base s
  raced : ∀ p < s.count, (s.reqs p).raced = false
  outstanding : s.outstanding_requests = waiting s + settling s

/-- One request changes. -/
theorem waiting_update {r : Pending} (hp : p < s.count) (hcount : s'.count = s.count)
    (hreqs : s'.reqs = Function.update s.reqs p r) :
    waiting s' + (s.reqs p).weight = waiting s + r.weight := by
  unfold waiting
  rw [hcount, hreqs]
  exact PointUpdate.count_update_add (fun r => Pending.waiting r) (Finset.mem_range.mpr hp) _ _

theorem raced_update {r : Pending} (h : ∀ q < s.count, (s.reqs q).raced = false)
    (hcount : s'.count = s.count) (hreqs : s'.reqs = Function.update s.reqs p r)
    (hr : r.raced = false) : ∀ q < s'.count, (s'.reqs q).raced = false := by
  intro q hq
  rw [hcount] at hq
  rw [hreqs]
  by_cases hqp : q = p
  · rw [hqp, Function.update_self, hr]
  · rw [Function.update_of_ne hqp, h q hq]

/-- A step that changes one request, the counter and the place in `finish`. -/
theorem Counted.of_update (h : Counted s) (hbase : Base s') {r : Pending} (hp : p < s.count)
    (hcount : s'.count = s.count) (hreqs : s'.reqs = Function.update s.reqs p r)
    (hraced : r.raced = false)
    (hout : s'.outstanding_requests + (s.reqs p).weight + settling s =
      s.outstanding_requests + r.weight + settling s') : Counted s' := by
  refine ⟨hbase, raced_update h.raced hcount hreqs hraced, ?_⟩
  have hupd := waiting_update hp hcount hreqs
  have hold := h.outstanding
  omega

/-- A step that leaves the requests and the counter alone. -/
theorem Counted.same (h : Counted s) (hbase : Base s') (hcount : s'.count = s.count)
    (hreqs : s'.reqs = s.reqs) (hout : s'.outstanding_requests = s.outstanding_requests)
    (hfin : s'.finishing = s.finishing) : Counted s' := by
  refine ⟨hbase, ?_, ?_⟩
  · rw [hcount, hreqs]
    exact h.raced
  · rw [hout, h.outstanding, waiting, waiting, settling, settling, hcount, hreqs, hfin]

/-! ### Weights -/

theorem weight_of_phase (r r' : Pending) (h : r'.phase = r.phase) : r'.weight = r.weight := by
  simp [Pending.weight, Pending.waiting, h]

theorem weight_one {r : Pending} (h : r.phase = .queued ∨ r.phase = .finishing) : r.weight = 1 := by
  rcases h with hp | hp
  · simp [Pending.weight, Pending.waiting, hp]
  · simp [Pending.weight, Pending.waiting, hp]

theorem weight_zero {r : Pending} (hq : r.phase ≠ .queued) (hf : r.phase ≠ .finishing) :
    r.weight = 0 := by
  simp [Pending.weight, Pending.waiting, hq, hf]

theorem weight_draft {r : Pending} (h : r.phase.accepted = false) : r.weight = 0 := by
  apply weight_zero
  · intro hp
    rw [hp] at h
    cases h
  · intro hp
    rw [hp] at h
    cases h

theorem settling_of {f : FinishStep} (h : s.finishing = some (p, f)) (hf : f ≠ .settle) :
    settling s = 0 := by
  unfold settling
  rw [h]
  cases f with
  | settle => exact absurd rfl hf
  | release | reset | requeue | deliver _ => rfl

theorem settling_none (h : s.finishing = none) : settling s = 0 := by
  unfold settling
  rw [h]

theorem settling_settle (h : s.finishing = some (p, .settle)) : settling s = 1 := by
  unfold settling
  rw [h]

/-! ### The steps -/

theorem Counted.enter (h : Counted s) (req : IoRequest) : Counted (s.enter cfg req) := by
  obtain ⟨r, hfresh, _, hcount, hreqs, _, _, _, _, hfin, _⟩ := enter_cases cfg s req
  have hout : (s.enter cfg req).outstanding_requests = s.outstanding_requests := by
    unfold Engine.enter
    split
    · rfl
    · rfl
    · rfl
  have hwait : waiting (s.enter cfg req) = waiting s := by
    unfold waiting
    rw [hcount, PointUpdate.count_range_succ, hreqs, Function.update_self,
      if_neg (by simp [Pending.waiting, hfresh.phase]), Nat.add_zero]
    apply PointUpdate.count_congr
    intro q hq
    rw [Function.update_of_ne (Nat.ne_of_lt (Finset.mem_range.mp hq))]
  refine ⟨(h.base.enter cfg req).2, ?_, ?_⟩
  · intro q hq
    rw [hreqs]
    rw [hcount] at hq
    by_cases hq' : q = s.count
    · rw [hq', Function.update_self, hfresh.raced]
    · rw [Function.update_of_ne hq']
      exact h.raced q (by omega)
  · rw [hout, h.outstanding, hwait, settling, settling, hfin]

theorem Counted.plan (h : Counted s) (hp : p < s.count) (hphase : (s.reqs p).phase = .routed) :
    Counted (s.plan cfg p) := by
  obtain ⟨r, hreqs, _, hacc, hmove⟩ := plan_reqs cfg s p hphase
  have ht := plan_tables cfg s p
  have hout : (s.plan cfg p).outstanding_requests = s.outstanding_requests := by
    unfold Engine.plan
    dsimp only
    split
    · rfl
    split
    · unfold give_back_route
      split
      · rfl
      · rfl
    split
    · rfl
    · rfl
  have hinv := (h.base.views p hp).move hmove
  have hold : (s.reqs p).weight = 0 := weight_draft (by rw [hphase]; rfl)
  refine h.of_update (h.base.plan cfg hphase).2 hp ht.count hreqs (hinv.draft hacc).raced ?_
  rw [hout, hold, weight_draft hacc, settling, settling, ht.finishing]

theorem Counted.enqueue (h : Counted s) (cfg : Config) (hp : p < s.count) (hphase : (s.reqs p).phase = .planned) :
    Counted (s.enqueue p) := by
  have hold : (s.reqs p).weight = 0 := weight_draft (by rw [hphase]; rfl)
  have hnew : Pending.weight { s.reqs p with phase := .queued } = 1 := weight_one (.inl rfl)
  refine h.of_update (h.base.enqueue cfg hp hphase).2 hp rfl rfl (h.raced p hp) ?_
  rw [hold, hnew]
  show s.outstanding_requests + 1 + (0 : Nat) + (settling s : Int) = _ + _ + (settling s : Int)
  simp

/-- `cancel` takes a request that counts, and only one `finish` does not have. -/
theorem Counted.cancel (h : Counted s) (cfg : Config) (hrace : NoRace s (.cancel p)) :
    Counted (s.cancel p).2 := by
  have hbase := (h.base.cancel cfg p).2
  rcases cancel_cases s p with hsame | ⟨pr, hmem, hnext, _, heq⟩
  · rw [hsame]
    exact h
  · obtain ⟨hp, rfl⟩ := h.base.queue_lt pr p hmem
    have hinv := h.base.views p hp
    have hraced := h.raced p hp
    have hno : s.finishing ≠ some (p, .requeue) := fun hf => hrace ⟨hf, hmem⟩
    have hq : (s.view p).queued = true := decide_eq_true hmem
    have hpos := hinv.chunks_pos (hinv.accepted (.inl hq))
    have hfin : (s.view p).finish = none := by
      by_contra hf
      have hheld := (hinv.held hf).2
      have hnr : (s.view p).finish ≠ some .requeue := fun hr => hno (finish_of_eq_some hr)
      rw [if_neg hnr] at hheld
      have hnext' : (s.view p).r.next_chunk = 0 := hnext
      omega
    have hphase := (hinv.active hraced (.inr ⟨hq, hfin, hnext.trans_lt hpos⟩)
      (hinv.accepted (.inl hq))).1
    have hold : (s.reqs p).weight = 1 := weight_one (.inl hphase)
    have hnew : (taken (s.reqs p) (s.finishing == some (p, .requeue))).weight = 0 :=
      weight_zero (by simp [taken]) (by simp [taken])
    rw [heq] at hbase ⊢
    refine h.of_update hbase hp rfl rfl ?_ ?_
    · simp [taken, hraced, hno]
    · rw [hold, hnew]
      show s.outstanding_requests - 1 + ((1 : Nat) : Int) + (settling s : Int) =
        s.outstanding_requests + ((0 : Nat) : Int) + (settling s : Int)
      omega

theorem Counted.uncharge (h : Counted s) (cfg : Config) (hmem : (p, false) ∈ s.cancel_calls) :
    Counted (s.uncharge p) := by
  have hbase := (h.base.uncharge cfg hmem).2
  have hp := h.base.cancel_lt _ hmem
  unfold Engine.uncharge at hbase ⊢
  dsimp only at hbase ⊢
  split
  next hany =>
    rw [if_pos hany] at hbase
    refine h.of_update hbase hp rfl rfl (h.raced p hp) ?_
    rw [weight_of_phase (s.reqs p) (unstriped (s.reqs p)) rfl]
    rfl
  next hany =>
    rw [if_neg hany] at hbase
    exact h.same hbase rfl rfl rfl rfl

theorem Counted.call_cancelled (h : Counted s) (cfg : Config) (hmem : (p, true) ∈ s.cancel_calls) :
    Counted (s.call_cancelled p) := by
  have hp := h.base.cancel_lt _ hmem
  have hinv := h.base.views p hp
  have hpos : 0 < (s.view p).cancelling := List.countP_pos_iff.mpr ⟨_, hmem, by simp⟩
  have hacc := hinv.accepted (.inr (.inr hpos))
  have hloc := hinv.located (h.raced p hp)
  have hold : (s.reqs p).weight = 0 := by
    apply weight_zero
    · intro hq
      have hq' : (s.view p).r.phase = .queued := hq
      simp only [View.Located, hq'] at hloc
      omega
    · intro hf
      have hf' : (s.view p).r.phase = .finishing := hf
      simp only [View.Located, hf'] at hloc
      omega
  have hnew : Pending.weight { s.reqs p with phase := .done, cancels := (s.reqs p).cancels + 1 } = 0 :=
    weight_zero (by simp) (by simp)
  refine h.of_update (h.base.call_cancelled cfg hmem).2 hp rfl rfl (h.raced p hp) ?_
  rw [hold, hnew]
  rfl

theorem Counted.issue (h : Counted s) (cfg : Config) (waiters : Nat) (recent : Bool)
    (hfin : s.finishing = none) : Counted (s.issue cfg waiters recent) := by
  have hbase := (h.base.issue cfg waiters recent hfin).2
  rcases issue_cases cfg s waiters recent with heq | ⟨p, pr, c, hmem, hc, heq⟩
  · rw [heq] at hbase ⊢
    exact h.same hbase rfl rfl rfl rfl
  · rw [heq] at hbase ⊢
    have hp := ((h.base.pop cfg).queue_lt pr p hmem).1
    have hc' : (s.pop_issued.reqs p).chunks[(s.pop_issued.reqs p).next_chunk]? = some c := hc
    rw [issue_chunk_eq cfg hc'] at hbase ⊢
    refine h.of_update (r := issued (s.reqs p)) hbase hp rfl rfl (h.raced p hp) ?_
    rw [weight_of_phase (s.reqs p) (issued (s.reqs p)) rfl]
    rfl

/-- A completion moves a request on to `finish`; it counts before and after. -/
theorem Counted.complete (h : Counted s) {w : PickedChunk} {moved : Nat} {status : Status}
    {junk : Nat → UInt8} (hc : Completes cfg s s' w moved status junk) : Counted s' := by
  obtain ⟨hreqs, hcount, _, _, _, _, _, hfin⟩ := hc.fields h.base
  have hp := (h.base.wire_lt w hc.mem).1
  have hinv := h.base.views w.owner hp
  have hflight : w ∈ (s.view w.owner).flights := List.mem_filter.mpr ⟨hc.mem, by simp⟩
  have hphase := (hinv.active (h.raced _ hp) (.inl (List.ne_nil_of_mem hflight))
    (hinv.accepted_of_flights hflight)).1
  have hold : (s.reqs w.owner).weight = 1 := weight_one (.inl hphase)
  obtain ⟨_, _, _, hafter, hkept, _⟩ :=
    (completion_counts cfg (s.reqs w.owner) w moved status junk).completed
  have hnew : (completed (Completes.after cfg s w moved status junk)).weight = 1 :=
    weight_one (hafter.imp_left (·.trans hphase))
  have hraced : (completed (Completes.after cfg s w moved status junk)).raced = false :=
    hkept.trans (h.raced _ hp)
  have hset : settling s' = 0 := by
    split at hfin
    · exact settling_of hfin (by decide)
    · exact settling_none hfin
  have hout : s'.outstanding_requests = s.outstanding_requests := by
    rw [hc.eq]
    unfold Engine.handle_completion
    split
    · rfl
    · rfl
  refine h.of_update (hc.base h.base).2 hp hcount hreqs hraced ?_
  rw [hold, hnew, hset, settling_none hc.idle, hout]

theorem Counted.release (h : Counted s) (cfg : Config) (hf : s.finishing = some (p, .release)) :
    Counted (s.release p) := by
  have hp := h.base.finishing_lt p _ hf
  have ht := give_back_tables s (s.reqs p)
  have hcourse := released_course (s.reqs p)
  have hnext : settling (s.release p) = 0 := by
    refine settling_of (p := p) (f := if (s.reqs p).fails_over then .reset
      else .deliver (s.reqs p).result) rfl ?_
    split <;> simp
  have hout : (s.give_back (s.reqs p)).outstanding_requests = s.outstanding_requests := by
    unfold give_back give_back_route give_back_stripe
    split
    · rfl
    split
    · rfl
    · rfl
  refine h.of_update (h.base.release cfg hf).2 hp ht.count ?_ (hcourse.raced.trans (h.raced p hp)) ?_
  · show Function.update (s.give_back (s.reqs p)).reqs p _ = _
    rw [give_back_reqs]
  · rw [weight_of_phase _ _ hcourse.phase, hnext, settling_of hf (by decide)]
    show (s.give_back (s.reqs p)).outstanding_requests + _ + _ = _
    rw [hout]

theorem Counted.reset (h : Counted s) (cfg : Config) (hf : s.finishing = some (p, .reset)) :
    Counted (s.reset p) := by
  have hp := h.base.finishing_lt p _ hf
  refine h.of_update (r := (s.reqs p).retry) (h.base.reset cfg hf).2 hp rfl rfl (h.raced p hp) ?_
  rw [weight_of_phase (s.reqs p) (s.reqs p).retry rfl, settling_of hf (by decide)]
  rfl

/-- The phase of a request `finish` has not called back. -/
theorem Counted.finishing (h : Counted s) {f : FinishStep} (hf : s.finishing = some (p, f))
    (hs : f ≠ .settle) : p < s.count ∧ (s.reqs p).weight = 1 := by
  have hp := h.base.finishing_lt p _ hf
  have hview : (s.view p).finish = some f := finish_of_self hf
  have hphase := ((h.base.views p hp).finishing (h.raced p hp) (by simp [hview])
    (by simpa [hview] using hs)).1
  exact ⟨hp, weight_one (.inr hphase)⟩

theorem Counted.requeue (h : Counted s) (cfg : Config) (hf : s.finishing = some (p, .requeue)) :
    Counted (s.requeue p) := by
  obtain ⟨hp, hold⟩ := h.finishing hf (by decide)
  have hnew : Pending.weight { s.reqs p with phase := .queued } = 1 := weight_one (.inl rfl)
  refine h.of_update (h.base.requeue cfg hf).2 hp rfl rfl (h.raced p hp) ?_
  rw [hold, hnew, settling_of hf (by decide)]
  rfl

theorem Counted.deliver (h : Counted s) (cfg : Config) {res : IoResult}
    (hf : s.finishing = some (p, .deliver res)) : Counted (s.deliver p res) := by
  obtain ⟨hp, hold⟩ := h.finishing hf (by simp)
  have hnew : Pending.weight
      { s.reqs p with phase := .done, results := (s.reqs p).results ++ [res] } = 0 :=
    weight_zero (by simp) (by simp)
  refine h.of_update (h.base.deliver cfg hf).2 hp rfl rfl (h.raced p hp) ?_
  rw [hold, hnew, settling_of hf (by simp), settling_settle (s := s.deliver p res) rfl]
  show s.outstanding_requests + ((1 : Nat) : Int) + ((0 : Nat) : Int) = _
  omega

theorem Counted.settle (h : Counted s) (cfg : Config) (hf : s.finishing = some (p, .settle)) :
    Counted (s.settle p) := by
  refine ⟨(h.base.settle cfg hf).2, h.raced, ?_⟩
  show s.outstanding_requests - 1 = (waiting s : Int) + (0 : Nat)
  have := h.outstanding
  rw [settling_settle hf] at this
  omega

theorem Counted.finish (h : Counted s) (cfg : Config) (hs : s.finish = some s') : Counted s' := by
  unfold Engine.finish at hs
  split at hs
  · cases hs
  next hf =>
    cases hs
    exact h.release cfg hf
  next hf =>
    cases hs
    exact h.reset cfg hf
  next hf =>
    cases hs
    exact h.requeue cfg hf
  next hf =>
    cases hs
    exact h.deliver cfg hf
  next hf =>
    cases hs
    exact h.settle cfg hf

theorem Counted.step (h : Counted s) {a : Action} (hrace : NoRace s a)
    (hs : s.step cfg a = some s') : Counted s' := by
  have hbase := (h.base.step_moves hs).2
  cases step_cases hs with
  | enter => exact h.enter _
  | closed => exact h
  | plan hp hphase => exact h.plan hp hphase
  | enqueue hp hphase => exact h.enqueue cfg hp hphase
  | cancel => exact h.cancel cfg hrace
  | uncharge hcall => exact h.uncharge cfg hcall
  | call_cancelled hcall => exact h.call_cancelled cfg hcall
  | issue hidle => exact h.issue cfg _ _ hidle
  | completes _ _ _ hc => exact h.complete hc
  | finish hs => exact h.finish cfg hs
  | adjusts => exact h.same hbase rfl rfl rfl rfl

theorem reachable_counted (h : LTS.Reachable ((engine_system cfg).restrict NoRace) s) :
    Counted s := by
  refine h.invariant ?_ ?_
  · intro s hs
    have hbase := base_init (show (engine_system cfg).init s from hs)
    obtain ⟨hcount, _, _, _, hout, _, _, _, hfin, _⟩ := hs
    refine ⟨hbase, ?_, ?_⟩
    · intro p hp
      omega
    · rw [hout, settling_none hfin, waiting, hcount]
      rfl
  · intro s a s' hc hs
    exact hc.step hs.2 hs.1

/-! ### Exactly once -/

/-- An accepted request of a quiet engine has been called back. -/
theorem Base.called_once (h : Base s) (hraced : (s.reqs p).raced = false) (hquiet : Quiet s)
    (hp : p < s.count) (hacc : (s.reqs p).phase.accepted = true) : (s.reqs p).calls = 1 := by
  have hinv := h.views p hp
  have hflights : (s.view p).flights = [] := by simp [view, flights_of, hquiet.wire]
  have hfinish : (s.view p).finish = none := finish_of_none hquiet.finishing
  have hcancel : (s.view p).cancelling = 0 := by simp [view, cancelling_of, hquiet.cancels]
  have hloc := hinv.located hraced
  unfold View.Located at hloc
  cases hphase : (s.view p).r.phase with
  | routed | planned | rejected =>
    rw [show (s.reqs p).phase = _ from hphase] at hacc
    cases hacc
  | queued =>
    simp only [hphase] at hloc
    obtain ⟨_, _, _, hq, hlt | hfl⟩ := hloc
    · have hmem : p ∈ s.queues (s.reqs p).req.priority := of_decide_eq_true (hq hlt)
      have hex := hquiet.queues _ p hmem
      simp only [exhausted, decide_eq_true_eq] at hex
      exact absurd hlt (Nat.not_lt.mpr hex)
    · exact absurd hflights hfl
  | finishing =>
    simp only [hphase] at hloc
    exact absurd hfinish hloc.2.1
  | cancelled =>
    simp only [hphase] at hloc
    omega
  | done =>
    simp only [hphase] at hloc
    exact hloc.1

theorem Counted.calls_le_one (h : Counted s) (hp : p < s.count) : (s.reqs p).calls ≤ 1 := by
  have hinv := h.base.views p hp
  have hloc := hinv.located (h.raced p hp)
  unfold View.Located at hloc
  cases hphase : (s.view p).r.phase with
  | routed | planned | rejected =>
    have hd := hinv.draft (by rw [hphase]; rfl)
    show (s.view p).r.calls ≤ 1
    rw [Pending.calls, hd.results, hd.cancels]
    exact Nat.zero_le _
  | queued | finishing | cancelled =>
    simp only [hphase] at hloc
    exact hloc.1.trans_le (Nat.zero_le _)
  | done =>
    simp only [hphase] at hloc
    exact hloc.1.le

/-- A request that still waits has not been called back. -/
theorem Counted.waiting_uncalled (h : Counted s) (hp : p < s.count)
    (hw : (s.reqs p).waiting = true) :
    (s.reqs p).phase.accepted = true ∧ (s.reqs p).calls = 0 := by
  have hloc := (h.base.views p hp).located (h.raced p hp)
  unfold View.Located at hloc
  simp only [Pending.waiting, Bool.or_eq_true, beq_iff_eq] at hw
  rcases hw with hphase | hphase
  · simp only [show (s.view p).r.phase = _ from hphase] at hloc
    exact ⟨by rw [hphase]; rfl, hloc.1⟩
  · simp only [show (s.view p).r.phase = _ from hphase] at hloc
    exact ⟨by rw [hphase]; rfl, hloc.1⟩

/-- The completion of a chunk is credited to the request it was issued for, and to no other. -/
theorem Base.credits (h : Base s) {cid : Nat} {a : Action} (ha : Reports cid a)
    (hs : s.step cfg a = some s') :
    ∃ w ∈ s.wire, w.req.chunk_id = cid ∧
      (s'.reqs w.owner).done_chunks = (s.reqs w.owner).done_chunks + 1 ∧
      ∀ q, q ≠ w.owner → s'.reqs q = s.reqs q := by
  obtain ⟨w, moved, status, junk, hcid, _, hc⟩ := step_completes ha hs
  obtain ⟨hreqs, _⟩ := hc.fields h
  refine ⟨w, hc.mem, hcid, ?_, ?_⟩
  · have hdone := (completion_counts cfg (s.reqs w.owner) w moved status junk).done
    obtain ⟨ph, heq, _⟩ :=
      completed_eq (Completes.after cfg s w moved status junk)
    rw [hreqs, Function.update_self, heq]
    exact hdone
  · intro q hq
    rw [hreqs, Function.update_of_ne hq]

/-- Exactly-once completion. In every run in which no `cancel` finds a request between the
    unlocked reset and the requeue of `finish`: no request is called back twice; once every
    thread is through, each accepted one has been called back; a chunk's completion counts for
    the request it was issued for; and the counter is 0 when all are called back (1 while
    `finish` is between the callback and the decrement, which come in that order). -/
theorem called_back_exactly_once (h : LTS.Reachable ((engine_system cfg).restrict NoRace) s) :
    (∀ p < s.count, (s.reqs p).calls ≤ 1) ∧
    (Quiet s → ∀ p < s.count, (s.reqs p).phase.accepted = true → (s.reqs p).calls = 1) ∧
    (∀ w ∈ s.wire, s.chunk_owner w.req.chunk_id = some w.inflight) ∧
    (∀ cid a s', Reports cid a → s.step cfg a = some s' →
      ∃ w ∈ s.wire, w.req.chunk_id = cid ∧
        (s'.reqs w.owner).done_chunks = (s.reqs w.owner).done_chunks + 1 ∧
        ∀ q, q ≠ w.owner → s'.reqs q = s.reqs q) ∧
    s.outstanding_requests = waiting s + settling s ∧
    ((∀ p < s.count, (s.reqs p).phase.accepted = true → (s.reqs p).calls = 1) →
      s.outstanding_requests = settling s) := by
  have hc := reachable_counted h
  refine ⟨fun p hp => hc.calls_le_one hp, fun hq p hp => hc.base.called_once (hc.raced p hp) hq hp, hc.base.owner,
    fun cid a s' ha hs => hc.base.credits ha hs, hc.outstanding, ?_⟩
  intro hall
  have hnone : waiting s = 0 := by
    apply PointUpdate.count_eq_zero
    intro p hp hw
    obtain ⟨hacc, hcalls⟩ := hc.waiting_uncalled (Finset.mem_range.mp hp) hw
    have := hall p (Finset.mem_range.mp hp) hacc
    omega
  rw [hc.outstanding, hnone]
  simp

/-! ### A request routed to a failing mirror -/

/-- Two sources with the same two-page files; every request is routed to the mirror, file 1. -/
def mirrored : Config where
  files := fun _ => { size := 8192, content := fun i => UInt8.ofNat i }
  alts := fun f => if f = 0 then some (fun i => if i < 2 then some i else none) else none
  mirrors_on := true
  pick_source := fun _ _ _ => 1
  p0_chunk_bytes := 4096
  bg_chunk_bytes := 4096
  p0_chunk_pos := by decide
  bg_chunk_pos := by decide
  alts_primary := by
    intro f row h
    split at h
    next hf =>
      cases h
      rw [hf]
      rfl
    · cases h
  alts_size := fun _ _ _ _ _ _ => rfl
  alts_content := fun _ _ _ _ _ _ => rfl

/-- A backfill of two chunks. -/
def two_pages : IoRequest := { bytes := 8192, dst := 4096 }

/-- The background classes get one chunk in flight. -/
def shallow : Engine := { reqs := fun _ => { req := two_pages }, tune := { bg_qd := 1 } }

theorem shallow_init : (engine_system mirrored).init shallow :=
  ⟨rfl, rfl, rfl, rfl, rfl, rfl, rfl, rfl, rfl, rfl⟩

def io_error : Status := { code := .Io, message := "read error" }

/-- The first chunk goes to the mirror and fails; the second one is never issued there. -/
def mirror_fails : List Action :=
  [.submit two_pages, .plan 0, .enqueue 0, .issue 0 false, .do_submit 1 (.ok ()), .issue 0 false,
    .poll 1 0 io_error (fun _ => 0), .finish, .finish]

/-- Both chunks are read from the primary and the request is called back. -/
def primary_answers : List Action :=
  [.finish, .issue 0 false, .do_submit 2 (.ok ()), .poll 2 4096 Status.success (fun _ => 0),
    .issue 0 false, .do_submit 3 (.ok ()), .poll 3 4096 Status.success (fun _ => 0), .finish,
    .finish, .finish]

/-- `cancel` runs between the reset and the requeue: the request is called back as cancelled
    and, after the retry, once more. -/
theorem raced_cancel_called_twice :
    ¬ ∀ s, LTS.Reachable (engine_system mirrored) s →
      (∀ p < s.count, (s.reqs p).calls ≤ 1) ∧
      ((∀ p < s.count, (s.reqs p).phase.accepted = true → 1 ≤ (s.reqs p).calls) →
        s.finishing = none → s.outstanding_requests = 0) := by
  intro h
  obtain ⟨s, hreach, hs⟩ := LTS.Reachable.of_execute (Engine.step mirrored)
    (mirror_fails ++ [.cancel 0, .uncharge 0, .call_cancelled 0] ++ primary_answers)
    (fun s => s.count = 1 ∧ (s.reqs 0).calls = 2 ∧ s.outstanding_requests = -1) shallow_init
    (by decide +kernel)
  simp only [Bool.decide_and, Bool.and_eq_true, decide_eq_true_eq] at hs
  have := (h s hreach).1 0 (by omega)
  omega

instance (s : Engine) (a : Action) : Decidable (NoRace s a) :=
  match a with
  | .cancel _ => inferInstanceAs (Decidable (¬ _))
  | .submit _ | .plan _ | .enqueue _ | .uncharge _ | .call_cancelled _ | .issue .. | .do_submit ..
  | .poll .. | .refusal _ | .finish | .drop_source _ | .readmit_source _ | .thermal ..
  | .set_p0_depth .. => isTrue trivial

theorem called_back_exactly_once_failover :
    ∃ s, LTS.Reachable ((engine_system mirrored).restrict NoRace) s ∧ (s.reqs 0).retries = 1 ∧
      (s.reqs 0).calls = 1 ∧ s.outstanding_requests = 0 := by
  obtain ⟨s, hreach, hs⟩ := LTS.Reachable.of_guarded (Engine.step mirrored) NoRace
    (mirror_fails ++ primary_answers ++ [.cancel 0, .issue 0 false])
    (fun s => s.count = 1 ∧ (s.reqs 0).phase.accepted = true ∧ (s.reqs 0).retries = 1 ∧
      (∀ pr ∈ priorities, s.queues pr = []) ∧ s.wire = [] ∧ s.finishing = none ∧
      s.cancel_calls = []) shallow_init (by decide +kernel)
  simp only [Bool.decide_and, Bool.and_eq_true, decide_eq_true_eq] at hs
  obtain ⟨hcount, hacc, hretries, hqueues, hwire, hfin, hcalls⟩ := hs
  have hquiet : Quiet s := by
    refine ⟨?_, hwire, hfin, hcalls⟩
    intro pr p hp
    rw [hqueues pr (by cases pr <;> decide)] at hp
    cases hp
  obtain ⟨_, honce, _, _, _, hzero⟩ := called_back_exactly_once hreach
  refine ⟨s, hreach, hretries, honce hquiet 0 (by omega) hacc, ?_⟩
  rw [hzero (honce hquiet), settling_none hfin]
  rfl

end CachedMoe.Storage
