import CachedMoe.Storage.Completion

/-! # Draining

    `IoEngine::drain` waits for `outstanding_requests_` to reach 0. `finish` runs a request's
    callback before it takes the request off that count; `cancel` takes it off first and calls
    back afterwards. So a `drain` that returns while a `cancel` is under way returns before the
    cancelled request has been called back, and that is the only way it returns too early in a
    run without the race of `NoRace`. -/

namespace CachedMoe.Storage

open CachedMoe Engine

/-- The wait of `drain` is over. -/
def drain_returns (running : Bool) (s : Engine) : Bool := s.outstanding_requests == 0 || !running

/-- Every request accepted in `s₀` has been called back in `s`, and the call has returned. -/
def Delivered_since (s₀ s : Engine) : Prop :=
  ∀ p < s₀.count, (s₀.reqs p).phase.accepted = true → 1 ≤ (s.reqs p).calls

/-- No `cancel` under way in `s` has a request that was accepted in `s₀`. -/
def NoneCancelling (s₀ s : Engine) : Prop :=
  ∀ c ∈ s.cancel_calls, c.1 < s₀.count → (s₀.reqs c.1).phase.accepted = false

variable {cfg : Config} {s₀ s s' : Engine} {p : Nat}

/-! ### Accepted requests stay accepted -/

theorem Move.accepted {l : Option Completion} {v v' : View} (h : Move cfg l v v')
    (hacc : v.r.phase.accepted = true) : v'.r.phase.accepted = true := by
  cases h with
  | stay | dequeue | uncharge | issue | reset | settle => exact hacc
  | enqueue | cancel | call_cancelled | requeue | deliver => rfl
  | reject h | plan h | stripe _ h =>
    rw [h] at hacc
    cases hacc
  | release hf =>
    show (released v.r).phase.accepted = true
    rw [(released_course v.r).phase]
    exact hacc
  | complete moved status junk hw hf hr =>
    rename_i w r
    have hcounts := completion_counts cfg v.r w moved status junk
    rw [← hr] at hcounts
    obtain ⟨_, _, _, hphase, _⟩ := hcounts.completed
    show (completed r).phase.accepted = true
    rcases hphase with h | h
    · rw [h]
      exact hacc
    · rw [h]
      rfl

/-- What was accepted in `s₀` is accepted in `s`. -/
structure StillAccepted (s₀ s : Engine) : Prop where
  count : s₀.count ≤ s.count
  accepted : ∀ p < s₀.count, (s₀.reqs p).phase.accepted = true → (s.reqs p).phase.accepted = true

theorem StillAccepted.step (h : StillAccepted s₀ s) (hb : Base s) {a : Action}
    (hs : s.step cfg a = some s') : StillAccepted s₀ s' := by
  have hcount : s.count ≤ s'.count := by
    rcases hb.step_count hs with heq | ⟨req, rfl⟩
    · exact heq.ge
    · obtain ⟨_, _, _, heq, _⟩ := enter_cases cfg s req
      omega
  refine ⟨h.count.trans hcount, ?_⟩
  intro p hp hacc
  exact ((hb.step_moves hs).1 p (hp.trans_le h.count)).accepted (h.accepted p hp hacc)

/-- The rest of a run without a race. -/
theorem Counted.run {as : List Action} (h : Counted s₀)
    (hrun : LTS.Run ((engine_system cfg).restrict NoRace) s₀ as s) :
    Counted s ∧ StillAccepted s₀ s := by
  refine hrun.invariant (P := fun s => Counted s ∧ StillAccepted s₀ s) ?_ ?_
  · intro s a s' ⟨hc, hstill⟩ ⟨hs, hrace⟩
    have hs : s.step cfg a = some s' := hs
    exact ⟨hc.step hrace hs, hstill.step hc.base hs⟩
  · exact ⟨h, le_rfl, fun _ _ hacc => hacc⟩

/-! ### Nothing outstanding -/

/-- With nothing outstanding, an accepted request has been called back, or a `cancel` has it
    and has not called it back yet. -/
theorem Counted.drained (h : Counted s) (hout : s.outstanding_requests = 0) (hp : p < s.count)
    (hacc : (s.reqs p).phase.accepted = true) :
    (s.reqs p).calls = 1 ∧ s.cancelling_of p = 0 ∨
      (s.reqs p).calls = 0 ∧ s.cancelling_of p = 1 := by
  have hloc := (h.base.views p hp).located (h.raced p hp)
  have hnone : (s.reqs p).weight = 0 := by
    have htotal := h.outstanding
    rw [hout] at htotal
    have hzero : waiting s = 0 := by omega
    by_contra hw
    have hwaits : (s.reqs p).waiting = true := by
      by_contra hno
      exact hw (by simp [Pending.weight, hno])
    have hpos := PointUpdate.count_pos (f := s.reqs) (P := fun r => Pending.waiting r)
      (Finset.mem_range.mpr hp) hwaits
    unfold waiting at hzero
    omega
  unfold View.Located at hloc
  cases hphase : (s.view p).r.phase with
  | routed | planned | rejected =>
    rw [show (s.reqs p).phase = _ from hphase] at hacc
    cases hacc
  | queued =>
    have hone := weight_one (r := s.reqs p) (.inl hphase)
    omega
  | finishing =>
    have hone := weight_one (r := s.reqs p) (.inr hphase)
    omega
  | cancelled =>
    simp only [hphase] at hloc
    exact .inr ⟨hloc.1, hloc.2.2.1⟩
  | done =>
    simp only [hphase] at hloc
    exact .inl ⟨hloc.1, hloc.2.2.1⟩

/-- A call of `cancel` has a request if and only if the table of its calls names it. -/
theorem cancelling_pos (s : Engine) (p : Nat) : 0 < s.cancelling_of p ↔ ∃ c ∈ s.cancel_calls, c.1 = p := by
  rw [cancelling_of, List.countP_pos_iff]
  simp

/-- When `drain` returns in a running engine, the requests accepted before its call have all
    been called back if and only if no `cancel` under way has one of them. -/
theorem drain_delivers {as : List Action}
    (h : LTS.Reachable ((engine_system cfg).restrict NoRace) s₀)
    (hrun : LTS.Run ((engine_system cfg).restrict NoRace) s₀ as s)
    (hdrain : drain_returns true s = true) : Delivered_since s₀ s ↔ NoneCancelling s₀ s := by
  obtain ⟨hc, hstill⟩ := (reachable_counted h).run hrun
  have hout : s.outstanding_requests = 0 := by simpa [drain_returns] using hdrain
  constructor
  · intro hall c hmem hlt
    by_contra hno
    have hacc : (s₀.reqs c.1).phase.accepted = true := by simpa using hno
    have hone := hall c.1 hlt hacc
    have hcancel : 0 < s.cancelling_of c.1 := (cancelling_pos s c.1).mpr ⟨c, hmem, rfl⟩
    have hcase := hc.drained hout (hlt.trans_le hstill.count) (hstill.accepted c.1 hlt hacc)
    omega
  · intro hnone p hp hacc
    rcases hc.drained hout (hp.trans_le hstill.count) (hstill.accepted p hp hacc) with hone | hcancel
    · exact hone.1.ge
    · -- the request would be in the hands of a `cancel`
      obtain ⟨c, hmem, rfl⟩ := (cancelling_pos s p).mp (by omega)
      rw [hnone c hmem hp] at hacc
      cases hacc

/-! ### A cancelled backfill -/

/-- A request is accepted ... -/
def one_accepted : List Action := [.submit two_pages, .plan 0, .enqueue 0]

/-- ... and a `cancel` runs to its end. -/
def cancelled_through : List Action := [.cancel 0, .uncharge 0, .call_cancelled 0]

theorem drain_delivers_cancelled :
    ∃ s₀ s, (s₀.reqs 0).phase.accepted = true ∧ drain_returns true s = true ∧
      Delivered_since s₀ s := by
  obtain ⟨s₀, s, hreach, hrun, hs⟩ := LTS.Reachable.of_guarded_run (Engine.step mirrored) NoRace
    one_accepted cancelled_through
    (fun s₀ s => (s₀.reqs 0).phase.accepted && drain_returns true s && s.cancel_calls.isEmpty)
    shallow_init (by decide)
  simp only [Bool.and_eq_true, List.isEmpty_iff] at hs
  obtain ⟨⟨hacc, hdrain⟩, hcalls⟩ := hs
  refine ⟨s₀, s, hacc, hdrain, (drain_delivers hreach hrun hdrain).mpr ?_⟩
  intro c hmem
  rw [hcalls] at hmem
  cases hmem

/-- `drain` returns after the `cancel` has taken the request off the count, and before it has
    called it back. -/
theorem drain_returns_before_cancel_calls_back :
    ¬ ∀ (cfg : Config) (s₀ s : Engine) (as : List Action),
      LTS.Reachable (engine_system cfg) s₀ → LTS.Run (engine_system cfg) s₀ as s →
      drain_returns true s = true → Delivered_since s₀ s := by
  intro h
  obtain ⟨s₀, s, hreach, hrun, hs⟩ := LTS.Reachable.of_execute_run (Engine.step mirrored)
    one_accepted [.cancel 0]
    (fun s₀ s => s₀.count == 1 && (s₀.reqs 0).phase.accepted && drain_returns true s &&
      (s.reqs 0).calls == 0) shallow_init (by decide)
  simp only [Bool.and_eq_true, beq_iff_eq] at hs
  obtain ⟨⟨⟨hcount, hacc⟩, hdrain⟩, hcalls⟩ := hs
  have hone := h mirrored s₀ s _ hreach hrun hdrain 0 (by omega) hacc
  omega

end CachedMoe.Storage
