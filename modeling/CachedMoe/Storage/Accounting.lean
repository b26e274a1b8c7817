import Mathlib.Algebra.Order.BigOperators.Group.Finset
import CachedMoe.Storage.Failover

/-! # The router's accounts

    `src_outstanding_`, `src_inflight_` and `p0_outstanding_` are counters that `submit` raises
    and `handle_completion`, `finish` and `cancel` lower again. They are exact in every run in
    which two things do not happen, each of which leaves a charge that nobody gives back:

    * `submit` refuses a request it has routed for its null destination or its zero length,
      before the guard over the routed bytes is armed;
    * `cancel` takes a request that is routed whole, or one of class P0. -/

namespace CachedMoe.Storage

open CachedMoe Engine

/-! ### What a request is charged with -/

/-- The bytes a request is charged with on source `i`. -/
def Pending.charge (r : Pending) (i : Nat) : Nat :=
  if r.routed then (if i = r.source then r.req.bytes else 0) else r.src_charged i

/-- Source `i` counts the request as in flight. -/
def Pending.on_source (r : Pending) (i : Nat) : Bool :=
  if r.routed then i == r.source else r.src_used i

namespace Engine

/-- The router carries the request: from its routing until `finish` or `cancel` gives its
    charges back. -/
def carried (s : Engine) (p : Nat) : Bool :=
  match (s.reqs p).phase with
  | .routed | .planned | .queued => true
  | .finishing => s.finish_of p == some .release
  | .cancelled => s.cancel_calls.contains (p, false)
  | .rejected | .done => false

/-- A P0 request that is accepted and not through `finish`. -/
def blocking (s : Engine) (p : Nat) : Bool :=
  (s.reqs p).req.priority == .BlockingMiss &&
    match (s.reqs p).phase with
    | .queued | .finishing => true
    | .done => s.finish_of p == some .settle
    | .routed | .planned | .rejected | .cancelled => false

/-- `submit`, the dispatcher or `cancel` still has the request. -/
def live (s : Engine) (p : Nat) : Bool :=
  match (s.reqs p).phase with
  | .routed | .planned | .queued | .finishing | .cancelled => true
  | .done => s.finish_of p == some .settle
  | .rejected => false

def load (s : Engine) (p i : Nat) : Nat := if s.carried p then (s.reqs p).charge i else 0

def share (s : Engine) (p i : Nat) : Nat := if s.carried p && (s.reqs p).on_source i then 1 else 0

def blocks (s : Engine) (p : Nat) : Nat := if s.blocking p then 1 else 0

end Engine

/-- No step leaves a charge behind: `submit` refuses no routed request for its null destination
    or its zero length, and `cancel` takes none that is routed whole or of class P0. -/
def NoLeak (s : Engine) : Action → Prop
  | .plan p => (s.reqs p).routed = true → (s.reqs p).req.dst ≠ 0 ∧ (s.reqs p).req.bytes ≠ 0
  | .cancel p =>
    p ∈ s.queues (s.reqs p).req.priority → (s.reqs p).next_chunk = 0 →
      (s.reqs p).routed = false ∧ (s.reqs p).req.priority ≠ .BlockingMiss
  | _ => True

/-! ### The charges of one request -/

/-- What holds of a request's charges in every run. -/
structure View.Charges (v : View) : Prop where
  /-- A retried request is charged to no source. -/
  clear : 0 < v.r.retries → v.r.routed = false ∧ v.r.chunk_src = [] ∧ ∀ i, v.r.src_used i = false
  raced : v.r.raced = true → 0 < v.r.retries
  requeued : v.finish = some .requeue → 0 < v.r.retries
  fresh : v.r.phase = .routed → v.r.retries = 0 ∧ v.r.chunk_src = [] ∧
    (∀ i, v.r.src_used i = false) ∧ (v.r.stripe_mask.isSome = true → v.r.routed = false)
  /-- A request routed whole is not striped. -/
  whole : v.r.routed = true → v.r.chunk_src = [] ∧ ∀ i, v.r.src_used i = false
  used : ∀ i, v.r.src_used i = true → i < kMaxIoSources
  charged : ∀ i, v.r.src_used i = false → v.r.src_charged i = 0
  given : v.finish = some .reset → ∀ i, v.r.src_charged i = 0
  src : ∀ w ∈ v.flights, v.r.chunk_src = [] → w.src = none

variable {cfg : Config} {v v' : View}

/-- Where a request is does not matter to its charges, which may only go back. -/
theorem View.Charges.congr (h : v.Charges) {r : Pending} {f : Option FinishStep}
    {flights : List PickedChunk} (queued : Bool) (cancelling : Nat)
    (hretries : r.retries = v.r.retries) (hrouted : r.routed = v.r.routed)
    (hsrc : r.chunk_src = v.r.chunk_src) (hused : r.src_used = v.r.src_used)
    (hcharged : ∀ i, v.r.src_charged i = 0 → r.src_charged i = 0) (hmask : r.stripe_mask = v.r.stripe_mask)
    (hraced : r.raced = true → v.r.raced = true ∨ v.finish = some .requeue)
    (hphase : r.phase = .routed → v.r.phase = .routed)
    (hf : f = v.finish ∨ f ≠ some .requeue ∧ f ≠ some .reset)
    (hflights : ∀ w ∈ flights, w ∈ v.flights ∨ (v.r.chunk_src = [] → w.src = none)) :
    View.Charges
      { r := r, flights := flights, finish := f, queued := queued, cancelling := cancelling } := by
  -- only the charges differ, and only towards 0
  constructor
  case clear =>
    dsimp only
    rw [hretries, hrouted, hsrc, hused]
    exact h.clear
  case raced =>
    intro hr
    dsimp only
    rw [hretries]
    rcases hraced hr with hr | hr
    · exact h.raced hr
    · exact h.requeued hr
  case requeued =>
    intro hr
    dsimp only at hr ⊢
    rw [hretries]
    rcases hf with hf | hf
    · exact h.requeued (hf ▸ hr)
    · exact absurd hr hf.1
  case fresh =>
    intro hp
    dsimp only
    rw [hretries, hsrc, hused, hmask, hrouted]
    exact h.fresh (hphase hp)
  case whole =>
    dsimp only
    rw [hrouted, hsrc, hused]
    exact h.whole
  case used =>
    dsimp only
    rw [hused]
    exact h.used
  case charged =>
    intro i hi
    dsimp only at hi
    rw [hused] at hi
    exact hcharged i (h.charged i hi)
  case given =>
    intro hr i
    rcases hf with hf | hf
    · exact hcharged i (h.given (hf ▸ hr) i)
    · exact absurd hr hf.2
  case src =>
    intro w hw hempty
    dsimp only at hw hempty
    rw [hsrc] at hempty
    rcases hflights w hw with hw | hw
    · exact h.src w hw hempty
    · exact hw hempty

/-- A request that counts on no source has nothing left to give back. -/
theorem View.Charges.no_charge (h : v.Charges) (hnone : any_source v.r.src_used = false) (i : Nat) :
    v.r.src_used i = false ∧ v.r.src_charged i = 0 := by
  have hi : v.r.src_used i = false := by
    by_contra hyes
    have hyes : v.r.src_used i = true := by simpa using hyes
    have hany : any_source v.r.src_used = true := by
      rw [any_source, List.any_eq_true]
      exact ⟨i, List.mem_range.mpr (h.used i hyes), hyes⟩
    rw [hany] at hnone
    cases hnone
  exact ⟨hi, h.charged i hi⟩

/-- `finish` has given back what the request was charged with. -/
theorem View.Charges.released (h : v.Charges) :
    (∀ i, (released v.r).src_charged i = 0) ∧ (released v.r).retries = v.r.retries ∧
      (released v.r).routed = v.r.routed ∧ (released v.r).chunk_src = v.r.chunk_src ∧
      (released v.r).src_used = v.r.src_used ∧ (released v.r).stripe_mask = v.r.stripe_mask := by
  unfold Engine.released
  split
  next hrouted =>
    exact ⟨fun i => h.charged i ((h.whole hrouted).2 i), rfl, rfl, rfl, rfl, rfl⟩
  · split
    · refine ⟨?_, rfl, rfl, rfl, rfl, rfl⟩
      intro i
      show (if i < kMaxIoSources ∧ v.r.src_used i = true then 0 else v.r.src_charged i) = 0
      split
      · rfl
      next hno =>
        apply h.charged
        by_contra hyes
        have hyes : v.r.src_used i = true := by simpa using hyes
        exact hno ⟨h.used i hyes, hyes⟩
    next hnone =>
      exact ⟨fun i => (h.no_charge (by simpa using hnone) i).2, rfl, rfl, rfl, rfl, rfl⟩

theorem View.Charges.release (h : v.Charges) :
    View.Charges
      { v with
        r := Engine.released v.r
        finish := some (if v.r.fails_over then .reset else .deliver v.r.result) } := by
  obtain ⟨hzero, hretries, hrouted, hsrc, hused, hmask⟩ := h.released
  have hcourse := released_course v.r
  -- nothing is charged any more
  constructor
  case clear =>
    dsimp only
    rw [hretries, hrouted, hsrc, hused]
    exact h.clear
  case raced =>
    dsimp only
    rw [hretries, hcourse.raced]
    exact h.raced
  case requeued =>
    intro hr
    split at hr
    · cases hr
    · cases hr
  case fresh =>
    dsimp only
    rw [hretries, hrouted, hsrc, hused, hmask, hcourse.phase]
    exact h.fresh
  case whole =>
    dsimp only
    rw [hrouted, hsrc, hused]
    exact h.whole
  case used =>
    dsimp only
    rw [hused]
    exact h.used
  case charged =>
    intro i _
    exact hzero i
  case given =>
    intro _
    exact hzero
  case src =>
    dsimp only
    rw [hsrc]
    exact h.src

theorem View.Charges.reset (h : v.Charges) (hinv : v.Inv) (hf : v.finish = some .reset) :
    View.Charges { v with r := v.r.retry, finish := some .requeue } := by
  have hne : v.finish ≠ none := by simp [hf]
  have hacc := hinv.accepted (.inr (.inl hne))
  constructor
  case clear => exact fun _ => ⟨rfl, rfl, fun _ => rfl⟩
  case raced => exact fun _ => Nat.succ_pos _
  case requeued => exact fun _ => Nat.succ_pos _
  case fresh =>
    intro hp
    rw [show v.r.phase = _ from hp] at hacc
    cases hacc
  case whole =>
    intro hr
    cases hr
  case used =>
    intro i hi
    cases hi
  case charged =>
    intro i _
    exact h.given hf i
  case given =>
    intro hr
    cases hr
  case src =>
    intro w hw
    rw [show v.flights = [] from (hinv.held hne).1] at hw
    cases hw

/-- What is known of the charges while the chunks of a request are routed one by one. -/
structure Booked (t₀ t : Striping) : Prop where
  used : ∀ i, t.used i = true → i < kMaxIoSources
  charged : ∀ i, t.used i = false → t.charged i = 0
  outstanding : ∀ i, t.outstanding i = t₀.outstanding i + t.charged i
  inflight : ∀ i, t.inflight i = t₀.inflight i + if t.used i then 1 else 0

theorem Booked.chunk {t₀ t : Striping} (h : Booked t₀ t) (mask : Mask)
    (row : Nat → Option Nat) (c : Chunk) : Booked t₀ (stripe_chunk cfg mask row t c) := by
  have hlt := stripe_source_lt cfg mask row t c
  unfold stripe_chunk
  generalize stripe_source cfg mask row t c = src at hlt
  -- the chunk's source alone changes
  constructor
  case used =>
    intro i hi
    dsimp only at hi
    by_cases heq : i = src
    · exact heq ▸ hlt
    · rw [Function.update_of_ne heq] at hi
      exact h.used i hi
  case charged =>
    intro i hi
    dsimp only [bump] at hi ⊢
    by_cases heq : i = src
    · rw [heq, Function.update_self] at hi
      cases hi
    · rw [Function.update_of_ne heq] at hi ⊢
      exact h.charged i hi
  case outstanding =>
    intro i
    have hi := h.outstanding i
    dsimp only [bump]
    by_cases heq : i = src
    · subst heq
      rw [Function.update_self, Function.update_self]
      omega
    · rw [Function.update_of_ne heq, Function.update_of_ne heq]
      exact hi
  case inflight =>
    intro i
    have hi := h.inflight i
    show (if t.used src then t.inflight else bump t.inflight src 1) i =
      t₀.inflight i + if Function.update t.used src true i then 1 else 0
    by_cases heq : i = src
    · subst heq
      rw [Function.update_self]
      cases hu : t.used i with
      | true => simpa [hu] using hi
      | false => simpa [hu, bump] using hi
    · rw [Function.update_of_ne heq]
      split
      · exact hi
      · rw [bump, Function.update_of_ne heq]
        exact hi

/-- Striping raises the counters of each source by what it charges there. -/
theorem stripe_booked (cfg : Config) (s : Engine) (r : Pending) (mask : Mask) :
    Booked { outstanding := s.src_outstanding, inflight := s.src_inflight }
      (s.stripe cfg r mask) := by
  unfold Engine.stripe
  refine List.foldlRecOn (motive := Booked _) r.chunks _ ?_ ?_
  · exact ⟨by simp, by simp, by simp, by simp⟩
  · intro t ht c _
    exact ht.chunk mask r.src_file c

theorem View.Inv.no_flights (hinv : v.Inv) (hacc : v.r.phase.accepted = false) :
    v.flights = [] := by
  have h1 := hinv.issued_le
  have h2 := hinv.flights
  have h3 := (hinv.draft hacc).next
  exact List.length_eq_zero_iff.mp (by omega)

theorem View.Charges.stripe (h : v.Charges) (hinv : v.Inv) (hp : v.r.phase = .routed) {mask : Mask}
    (hmask : v.r.stripe_mask = some mask) (s : Engine) :
    View.Charges
      { v with r := striped (planned cfg v.r) (s.stripe cfg (planned cfg v.r) mask) } := by
  have hacc : v.r.phase.accepted = false := by rw [hp]; rfl
  obtain ⟨hretries, _, _, hrouted⟩ := h.fresh hp
  have hrouted : v.r.routed = false := hrouted (by simp [hmask])
  have hd := hinv.draft hacc
  have hbooked := stripe_booked cfg s (planned cfg v.r) mask
  constructor
  case clear =>
    intro hr
    rw [show (striped (planned cfg v.r) _).retries = 0 from hretries] at hr
    cases hr
  case raced =>
    intro hr
    rw [show (striped (planned cfg v.r) _).raced = false from hd.raced] at hr
    cases hr
  case requeued =>
    intro hr
    rw [show v.finish = none from hd.finish] at hr
    cases hr
  case fresh =>
    intro hr
    cases hr
  case whole =>
    intro hr
    rw [show (striped (planned cfg v.r) _).routed = false from hrouted] at hr
    cases hr
  case used => exact hbooked.used
  case charged => exact hbooked.charged
  case given =>
    intro hr
    rw [show v.finish = none from hd.finish] at hr
    cases hr
  case src =>
    intro w hw
    rw [show v.flights = [] from hinv.no_flights hacc] at hw
    cases hw

theorem completion_charges (cfg : Config) (r : Pending) (w : PickedChunk) (moved : Nat)
    (status : Status) (junk : Nat → UInt8) :
    let r₁ := completed (discharged (counted (landed cfg r w moved status junk) moved status)
      w.inflight (status.code == .Ok))
    r₁.routed = r.routed ∧ r₁.source = r.source ∧ r₁.src_used = r.src_used ∧
      r₁.src_charged = (discharged r w.inflight (status.code == .Ok)).src_charged := by
  have hcompleted : ∀ r₁ : Pending, (completed r₁).routed = r₁.routed ∧
      (completed r₁).source = r₁.source ∧ (completed r₁).src_used = r₁.src_used ∧
      (completed r₁).src_charged = r₁.src_charged := by
    intro r₁
    obtain ⟨ph, heq, _⟩ := completed_eq r₁
    rw [heq]
    exact ⟨rfl, rfl, rfl, rfl⟩
  have hcounted : ∀ r₁ : Pending, (counted r₁ moved status).routed = r₁.routed ∧
      (counted r₁ moved status).source = r₁.source ∧
      (counted r₁ moved status).src_used = r₁.src_used ∧
      (counted r₁ moved status).src_charged = r₁.src_charged := by
    intro r₁
    unfold counted
    dsimp only
    split
    · exact ⟨rfl, rfl, rfl, rfl⟩
    · exact ⟨rfl, rfl, rfl, rfl⟩
  obtain ⟨c1, c2, c3, c4⟩ := hcounted (landed cfg r w moved status junk)
  dsimp only
  rw [(hcompleted _).1, (hcompleted _).2.1, (hcompleted _).2.2.1, (hcompleted _).2.2.2]
  unfold discharged
  split
  · exact ⟨c1, c2, c3, c4⟩
  · refine ⟨c1, c2, c3, ?_⟩
    dsimp only
    rw [c4]
    rfl

theorem discharged_zero (r : Pending) (c : InflightChunk) (ok : Bool) (i : Nat)
    (h : r.src_charged i = 0) : (discharged r c ok).src_charged i = 0 := by
  unfold discharged
  split
  · exact h
  · dsimp only
    rw [Function.update_apply]
    split
    next heq =>
      rw [← heq, h]
      exact Nat.zero_sub _
    · exact h

theorem View.Charges.move (h : v.Charges) (hinv : v.Inv) {l : Option Completion}
    (hm : Move cfg l v v') : v'.Charges := by
  -- the moves that write charges have a lemma each
  cases hm with
  | stay => exact h
  | dequeue =>
    exact h.congr false v.cancelling rfl rfl rfl rfl (fun _ => id) rfl .inl id (.inl rfl)
      (fun _ => .inl)
  | reject hp =>
    exact h.congr v.queued v.cancelling rfl rfl rfl rfl (fun _ => id) rfl .inl
      (fun hr => by cases hr) (.inl rfl) (fun _ => .inl)
  | plan hp =>
    exact h.congr v.queued v.cancelling rfl rfl rfl rfl (fun _ => id) rfl .inl
      (fun hr => by cases hr) (.inl rfl) (fun _ => .inl)
  | stripe s hp _ _ hmask => exact h.stripe hinv hp hmask s
  | enqueue =>
    exact h.congr true v.cancelling rfl rfl rfl rfl (fun _ => id) rfl .inl (fun hr => by cases hr)
      (.inl rfl) (fun _ => .inl)
  | cancel =>
    refine h.congr false (v.cancelling + 1) rfl rfl rfl rfl (fun _ => id) rfl ?_
      (fun hr => by cases hr) (.inl rfl) (fun _ => .inl)
    intro hr
    simpa [taken] using hr
  | uncharge =>
    refine h.congr v.queued v.cancelling rfl rfl rfl rfl ?_ rfl .inl id (.inl rfl) (fun _ => .inl)
    intro i hi
    show (if _ then 0 else v.r.src_charged i) = 0
    rw [hi, ite_self]
  | call_cancelled =>
    exact h.congr v.queued (v.cancelling - 1) rfl rfl rfl rfl (fun _ => id) rfl .inl
      (fun hr => by cases hr) (.inl rfl) (fun _ => .inl)
  | @issue _ c p cid =>
    refine h.congr v.queued v.cancelling rfl rfl rfl rfl (fun _ => id) rfl .inl id (.inl rfl) ?_
    intro w hw
    rcases List.mem_cons.mp hw with rfl | hw
    · refine .inr fun hempty => ?_
      simp [picked, hempty]
    · exact .inl hw
  | @complete _ w moved status junk hw _ r hr =>
    obtain ⟨hrouted, _, hused, hcharged⟩ := completion_charges cfg v.r w moved status junk
    rw [← hr] at hrouted hused hcharged
    have ht := completion_transfers cfg v.r w moved status junk
    have hcounts := completion_counts cfg v.r w moved status junk
    rw [← hr] at ht hcounts
    obtain ⟨_, _, _, hphase, hraced, _⟩ := hcounts.completed
    have hrouted' : (completed r).phase = .routed → v.r.phase = .routed := by
      intro hp
      rcases hphase with hphase | hphase
      · exact hphase.symm.trans hp
      · rw [hphase] at hp
        cases hp
    refine h.congr v.queued v.cancelling ht.retries hrouted ht.chunk_src hused ?_ ht.stripe_mask
      (fun hp => .inl (hraced ▸ hp)) hrouted' ?_ (fun w hw => .inl (List.mem_of_mem_erase hw))
    · intro i hi
      rw [hcharged]
      exact discharged_zero v.r _ _ i hi
    · split
      · exact .inr ⟨by simp, by simp⟩
      · exact .inr ⟨by simp, by simp⟩
  | release => exact h.release
  | reset hf => exact h.reset hinv hf
  | requeue =>
    exact h.congr true v.cancelling rfl rfl rfl rfl (fun _ => id) rfl .inl (fun hr => by cases hr)
      (.inr ⟨by simp, by simp⟩) (fun _ => .inl)
  | deliver =>
    exact h.congr v.queued v.cancelling rfl rfl rfl rfl (fun _ => id) rfl .inl
      (fun hr => by cases hr) (.inr ⟨by simp, by simp⟩) (fun _ => .inl)
  | settle =>
    exact h.congr v.queued v.cancelling rfl rfl rfl rfl (fun _ => id) rfl .inl id
      (.inr ⟨by simp, by simp⟩) (fun _ => .inl)

theorem enter_charges (cfg : Config) (s : Engine) (req : IoRequest) :
    View.Charges { r := (s.enter cfg req).reqs s.count } := by
  unfold Engine.enter
  dsimp only
  split
  · rw [set_req_self]
    exact ⟨by simp, by simp, by simp, by simp, by simp, by simp, by simp, by simp, by simp⟩
  · rw [set_req_self]
    exact ⟨by simp, by simp, by simp, by simp, by simp, by simp, by simp, by simp, by simp⟩
  · rw [set_req_self]
    exact ⟨by simp, by simp, by simp, by simp, by simp, by simp, by simp, by simp, by simp⟩

/-! ### The books -/

variable {s s' : Engine} {p q : Nat}

/-- The counters are the sums of what the requests are charged with. -/
structure Books (s : Engine) : Prop where
  outstanding : ∀ i, s.src_outstanding i = ∑ p ∈ Finset.range s.count, s.load p i
  inflight : ∀ i, s.src_inflight i = ∑ p ∈ Finset.range s.count, s.share p i
  p0 : s.p0_outstanding = ∑ p ∈ Finset.range s.count, s.blocks p

theorem Books.load_le (h : Books s) (hp : p < s.count) (i : Nat) :
    s.load p i ≤ s.src_outstanding i := by
  rw [h.outstanding i]
  exact Finset.single_le_sum (f := fun p => s.load p i) (fun _ _ => Nat.zero_le _)
    (Finset.mem_range.mpr hp)

theorem Books.share_le (h : Books s) (hp : p < s.count) (i : Nat) :
    s.share p i ≤ s.src_inflight i := by
  rw [h.inflight i]
  exact Finset.single_le_sum (f := fun p => s.share p i) (fun _ _ => Nat.zero_le _)
    (Finset.mem_range.mpr hp)

theorem Books.blocks_le (h : Books s) (hp : p < s.count) : s.blocks p ≤ s.p0_outstanding := by
  rw [h.p0]
  exact Finset.single_le_sum (f := fun p => s.blocks p) (fun _ _ => Nat.zero_le _)
    (Finset.mem_range.mpr hp)

/-- The accounts of request `q` are the same before and after the step. -/
structure SameAccounts (s s' : Engine) (q : Nat) : Prop where
  load : ∀ i, s'.load q i = s.load q i
  share : ∀ i, s'.share q i = s.share q i
  blocks : s'.blocks q = s.blocks q

/-- A request that stays where it is, with its charges. -/
theorem SameAccounts.of_place (hphase : (s'.reqs q).phase = (s.reqs q).phase)
    (hcharge : (s'.reqs q).charge = (s.reqs q).charge)
    (hsource : (s'.reqs q).on_source = (s.reqs q).on_source)
    (hclass : (s'.reqs q).req.priority = (s.reqs q).req.priority)
    (hfinish : s'.finish_of q = s.finish_of q)
    (hcall : (q, false) ∈ s'.cancel_calls ↔ (q, false) ∈ s.cancel_calls) : SameAccounts s s' q := by
  have hcarried : s'.carried q = s.carried q := by simp [Engine.carried, hphase, hfinish, hcall]
  have hblocking : s'.blocking q = s.blocking q := by
    simp [Engine.blocking, hphase, hclass, hfinish]
  refine ⟨?_, ?_, ?_⟩
  · intro i
    rw [Engine.load, Engine.load, hcarried, hcharge]
  · intro i
    rw [Engine.share, Engine.share, hcarried, hsource]
  · rw [Engine.blocks, Engine.blocks, hblocking]

/-- A request the step does not look at. -/
theorem SameAccounts.of_req (hreq : s'.reqs q = s.reqs q) (hfinish : s'.finish_of q = s.finish_of q)
    (hcall : (q, false) ∈ s'.cancel_calls ↔ (q, false) ∈ s.cancel_calls) : SameAccounts s s' q :=
  .of_place (by rw [hreq]) (by rw [hreq]) (by rw [hreq]) (by rw [hreq]) hfinish hcall

/-- The counters change by as much as the accounts of request `p`. -/
structure Balanced (s s' : Engine) (p : Nat) : Prop where
  outstanding : ∀ i, s'.src_outstanding i + s.load p i = s.src_outstanding i + s'.load p i
  inflight : ∀ i, s'.src_inflight i + s.share p i = s.src_inflight i + s'.share p i
  p0 : s'.p0_outstanding + s.blocks p = s.p0_outstanding + s'.blocks p

theorem Books.of_step (h : Books s) (hp : p < s.count) (hcount : s'.count = s.count)
    (hother : ∀ q, q ≠ p → SameAccounts s s' q) (hbal : Balanced s s' p) : Books s' := by
  have hmem := Finset.mem_range.mpr hp
  constructor
  case outstanding =>
    intro i
    have hsum := PointUpdate.sum_agree_add hmem (g := fun q => s.load q i)
      fun q _ hq => (hother q hq).load i
    have hold := h.outstanding i
    have hnew := hbal.outstanding i
    rw [hcount]
    omega
  case inflight =>
    intro i
    have hsum := PointUpdate.sum_agree_add hmem (g := fun q => s.share q i)
      fun q _ hq => (hother q hq).share i
    have hold := h.inflight i
    have hnew := hbal.inflight i
    rw [hcount]
    omega
  case p0 =>
    have hsum := PointUpdate.sum_agree_add hmem (g := fun q => s.blocks q)
      fun q _ hq => (hother q hq).blocks
    have hold := h.p0
    have hnew := hbal.p0
    rw [hcount]
    omega

theorem SameAccounts.balanced (h : SameAccounts s s' p)
    (hout : s'.src_outstanding = s.src_outstanding) (hin : s'.src_inflight = s.src_inflight)
    (hp0 : s'.p0_outstanding = s.p0_outstanding) : Balanced s s' p := by
  refine ⟨?_, ?_, ?_⟩
  · intro i
    rw [hout, h.load i]
  · intro i
    rw [hin, h.share i]
  · rw [hp0, h.blocks]

/-- The accounts of every request and the counters stay. -/
theorem Books.same (h : Books s) (hcount : s'.count = s.count)
    (hout : s'.src_outstanding = s.src_outstanding) (hin : s'.src_inflight = s.src_inflight)
    (hp0 : s'.p0_outstanding = s.p0_outstanding) (hall : ∀ q, SameAccounts s s' q) : Books s' := by
  constructor
  case outstanding =>
    intro i
    rw [hout, h.outstanding i, hcount]
    exact Finset.sum_congr rfl fun q _ => ((hall q).load i).symm
  case inflight =>
    intro i
    rw [hin, h.inflight i, hcount]
    exact Finset.sum_congr rfl fun q _ => ((hall q).share i).symm
  case p0 =>
    rw [hp0, h.p0, hcount]
    exact Finset.sum_congr rfl fun q _ => (hall q).blocks.symm

/-- A request that weighs on no counter, wherever it is. -/
structure Pending.Idle (r : Pending) : Prop where
  routed : r.routed = false
  used : ∀ i, r.src_used i = false
  charged : ∀ i, r.src_charged i = 0
  class_ne : r.req.priority ≠ .BlockingMiss

theorem charge_zero {r : Pending} (hrouted : r.routed = false) (h : ∀ i, r.src_charged i = 0)
    (i : Nat) : r.charge i = 0 := by
  simp [Pending.charge, hrouted, h i]

theorem on_source_false {r : Pending} (hrouted : r.routed = false) (h : ∀ i, r.src_used i = false)
    (i : Nat) : r.on_source i = false := by
  simp [Pending.on_source, hrouted, h i]

theorem SameAccounts.of_idle (h : (s.reqs q).Idle) (h' : (s'.reqs q).Idle) :
    SameAccounts s s' q := by
  refine ⟨?_, ?_, ?_⟩
  · intro i
    simp [Engine.load, charge_zero h.routed h.charged, charge_zero h'.routed h'.charged]
  · intro i
    simp [Engine.share, on_source_false h.routed h.used, on_source_false h'.routed h'.used]
  · simp [Engine.blocks, Engine.blocking, h.class_ne, h'.class_ne]

/-- A request that is not carried before and after, and blocks as before. -/
theorem SameAccounts.of_uncarried (h : s.carried q = false) (h' : s'.carried q = false)
    (hblocking : s'.blocking q = s.blocking q) : SameAccounts s s' q := by
  refine ⟨?_, ?_, ?_⟩
  · intro i
    simp [Engine.load, h, h']
  · intro i
    simp [Engine.share, h, h']
  · simp [Engine.blocks, hblocking]

/-- What a `cancel` takes: only requests whose charges it gives back, none of class P0. -/
structure Pending.Givable (r : Pending) : Prop where
  routed : r.phase = .cancelled → r.routed = false
  class_ne : r.phase = .cancelled ∨ r.raced = true → r.req.priority ≠ .BlockingMiss

/-- What holds in the runs that leave no charge behind. -/
structure Ledger (s : Engine) : Prop where
  base : Base s
  charges : ∀ p < s.count, (s.view p).Charges
  givable : ∀ p < s.count, (s.reqs p).Givable
  books : Books s

theorem Ledger.idle (h : Ledger s) (hp : p < s.count) (hraced : (s.reqs p).raced = true) :
    (s.reqs p).Idle := by
  have hc := h.charges p hp
  obtain ⟨hrouted, _, hused⟩ := hc.clear (hc.raced hraced)
  exact ⟨hrouted, hused, fun i => hc.charged i (hused i), (h.givable p hp).class_ne (.inr hraced)⟩

theorem Ledger.of_step (h : Ledger s) {a : Action} (hs : s.step cfg a = some s')
    (hcount : s'.count = s.count) (hgivable : ∀ q < s.count, (s'.reqs q).Givable)
    (hbooks : Books s') : Ledger s' := by
  obtain ⟨hm, hb⟩ := h.base.step_moves hs
  refine ⟨hb, ?_, fun q hq => hgivable q (hcount ▸ hq), hbooks⟩
  intro q hq
  rw [hcount] at hq
  exact (h.charges q hq).move (h.base.views q hq) (hm q hq)

theorem Ledger.of_request (h : Ledger s) {a : Action} (hs : s.step cfg a = some s') {r : Pending}
    (hcount : s'.count = s.count) (hreqs : s'.reqs = Function.update s.reqs p r)
    (hgivable : r.Givable) (hbooks : Books s') : Ledger s' := by
  refine h.of_step hs hcount ?_ hbooks
  intro q hq
  rw [hreqs]
  by_cases heq : q = p
  · rw [heq, Function.update_self]
    exact hgivable
  · rw [Function.update_of_ne heq]
    exact h.givable q hq

/-- No request changes, and no counter. -/
theorem Ledger.of_same (h : Ledger s) {a : Action} (hs : s.step cfg a = some s')
    (hcount : s'.count = s.count) (hreqs : s'.reqs = s.reqs)
    (hfin : s'.finishing = s.finishing) (hcalls : s'.cancel_calls = s.cancel_calls)
    (hout : s'.src_outstanding = s.src_outstanding) (hin : s'.src_inflight = s.src_inflight)
    (hp0 : s'.p0_outstanding = s.p0_outstanding) : Ledger s' := by
  refine h.of_step hs hcount (fun q hq => ?_) (h.books.same hcount hout hin hp0 fun q => ?_)
  · rw [hreqs]
    exact h.givable q hq
  · exact .of_req (by rw [hreqs]) (by rw [finish_of, finish_of, hfin]) (by rw [hcalls])

/-! ### submit -/

theorem Ledger.enter (h : Ledger s) {req : IoRequest}
    (hs : s.step cfg (.submit req) = some (s.enter cfg req)) : Ledger (s.enter cfg req) := by
  obtain ⟨r, hfresh, _, hcount, hreqs, _, _, _, _, hfin, hcalls⟩ := enter_cases cfg s req
  obtain ⟨_, hb⟩ := h.base.step_moves hs
  have hr : (s.enter cfg req).reqs s.count = r := by rw [hreqs, Function.update_self]
  have hold : ∀ q < s.count, (s.enter cfg req).reqs q = s.reqs q := by
    intro q hq
    rw [hreqs, Function.update_of_ne (Nat.ne_of_lt hq)]
  have hsame : ∀ q ∈ Finset.range s.count, SameAccounts s (s.enter cfg req) q := fun q hq =>
    .of_req (hold q (Finset.mem_range.mp hq)) (by rw [finish_of, finish_of, hfin]) (by rw [hcalls])
  -- the counters rise by the charge of the new request
  have hnew : (∀ i, (s.enter cfg req).src_outstanding i = s.src_outstanding i + r.charge i) ∧
      (∀ i, (s.enter cfg req).src_inflight i =
        s.src_inflight i + if r.on_source i then 1 else 0) ∧
      (s.enter cfg req).p0_outstanding = s.p0_outstanding := by
    rw [← hr]
    unfold Engine.enter
    dsimp only
    split
    · simp [Pending.charge, Pending.on_source, set_req]
    · simp [Pending.charge, Pending.on_source, set_req]
    next source file _ =>
      refine ⟨?_, ?_, rfl⟩
      · intro i
        by_cases hi : i = source
        · simp [bump, Pending.charge, hi]
        · simp [bump, Pending.charge, hi]
      · intro i
        by_cases hi : i = source
        · simp [bump, Pending.on_source, hi]
        · simp [bump, Pending.on_source, hi]
  have hcarried : (s.enter cfg req).carried s.count = true := by
    simp [Engine.carried, hr, hfresh.phase]
  have hblocks : (s.enter cfg req).blocks s.count = 0 := by
    simp [Engine.blocks, Engine.blocking, hr, hfresh.phase]
  refine ⟨hb, ?_, ?_, ?_, ?_, ?_⟩
  · intro q hq
    rw [hcount] at hq
    by_cases hlt : q < s.count
    · rw [enter_view_of_lt cfg req hlt]
      exact h.charges q hlt
    · obtain rfl : q = s.count := by omega
      rw [h.base.enter_view_count cfg req]
      exact enter_charges cfg s req
  · intro q hq
    rw [hcount] at hq
    by_cases hlt : q < s.count
    · rw [hold q hlt]
      exact h.givable q hlt
    · obtain rfl : q = s.count := by omega
      rw [hr]
      exact ⟨by simp [hfresh.phase], by simp [hfresh.phase, hfresh.raced]⟩
  · intro i
    rw [hcount, Finset.sum_range_succ, Finset.sum_congr rfl fun q hq => (hsame q hq).load i,
      ← h.books.outstanding i, Engine.load, hcarried, hr]
    exact hnew.1 i
  · intro i
    rw [hcount, Finset.sum_range_succ, Finset.sum_congr rfl fun q hq => (hsame q hq).share i,
      ← h.books.inflight i, Engine.share, hcarried, hr]
    exact hnew.2.1 i
  · rw [hcount, Finset.sum_range_succ, Finset.sum_congr rfl fun q hq => (hsame q hq).blocks,
      ← h.books.p0, hblocks]
    exact hnew.2.2

/-- A request not yet planned is carried, and charged only when it is routed whole. -/
theorem Ledger.routed_accounts (h : Ledger s) (hp : p < s.count)
    (hphase : (s.reqs p).phase = .routed) :
    (∀ i, s.load p i = (s.reqs p).charge i) ∧
      (∀ i, s.share p i = if (s.reqs p).on_source i then 1 else 0) ∧ s.blocks p = 0 ∧
      ((s.reqs p).routed = false → ∀ i, (s.reqs p).charge i = 0 ∧ (s.reqs p).on_source i = false) := by
  have hc := h.charges p hp
  obtain ⟨_, _, hused, _⟩ := hc.fresh hphase
  refine ⟨?_, ?_, ?_, ?_⟩
  · intro i
    simp [Engine.load, Engine.carried, hphase]
  · intro i
    simp [Engine.share, Engine.carried, hphase]
  · simp [Engine.blocks, Engine.blocking, hphase]
  · intro hrouted i
    exact ⟨charge_zero hrouted (fun i => hc.charged i (hused i)) i,
      on_source_false hrouted hused i⟩

/-- A rejected request is carried no more. -/
theorem rejected_accounts (h : (s.reqs p).phase = .rejected) :
    (∀ i, s.load p i = 0) ∧ (∀ i, s.share p i = 0) ∧ s.blocks p = 0 := by
  refine ⟨?_, ?_, ?_⟩
  · intro i
    simp [Engine.load, Engine.carried, h]
  · intro i
    simp [Engine.share, Engine.carried, h]
  · simp [Engine.blocks, Engine.blocking, h]

theorem give_back_route_counters (s : Engine) (r : Pending) (i : Nat) (hrouted : r.routed = true) :
    (s.give_back_route r).src_outstanding i = s.src_outstanding i - r.charge i ∧
      (s.give_back_route r).src_inflight i =
        s.src_inflight i - if r.on_source i then 1 else 0 := by
  unfold give_back_route
  rw [if_pos hrouted]
  by_cases hi : i = r.source
  · simp [Pending.charge, Pending.on_source, hrouted, hi]
  · simp [Pending.charge, Pending.on_source, hrouted, hi]

/-- `plan` moves the counters as it moves the charges of its request. -/
theorem Ledger.plan_balanced (h : Ledger s) (hok : NoLeak s (.plan p)) (hp : p < s.count)
    (hphase : (s.reqs p).phase = .routed) : Balanced s (s.plan cfg p) p := by
  obtain ⟨hload, hshare, hblocks, hfree⟩ := h.routed_accounts hp hphase
  unfold Engine.plan
  dsimp only
  split
  next hearly =>
    -- refused before the guard: nothing was routed
    have hrouted : (s.reqs p).routed = false := by
      by_contra hno
      obtain ⟨hdst, hbytes⟩ := hok (by simpa using hno)
      simp [check_early, hdst, hbytes] at hearly
    obtain ⟨hload', hshare', hblocks'⟩ := rejected_accounts
      (s := s.set_req p { s.reqs p with phase := .rejected }) (p := p) (by rw [set_req_self])
    refine ⟨?_, ?_, ?_⟩
    · intro i
      rw [hload i, (hfree hrouted i).1, hload' i]
      rfl
    · intro i
      rw [hshare i, (hfree hrouted i).2, hshare' i]
      rfl
    · rw [hblocks, hblocks']
      rfl
  split
  · -- refused by a check the guard covers
    obtain ⟨hload', hshare', hblocks'⟩ := rejected_accounts
      (s := (s.give_back_route (s.reqs p)).set_req p
        { s.reqs p with phase := .rejected, started := fun _ => false }) (p := p)
      (by rw [set_req_self])
    have hle := h.books.load_le hp
    have hle' := h.books.share_le hp
    refine ⟨?_, ?_, ?_⟩
    · intro i
      rw [hload' i, hload i]
      show (s.give_back_route (s.reqs p)).src_outstanding i + (s.reqs p).charge i = _
      cases hrouted : (s.reqs p).routed with
      | true =>
        have := hle i
        rw [hload i] at this
        rw [(give_back_route_counters s (s.reqs p) i hrouted).1]
        omega
      | false => simp [give_back_route, hrouted, (hfree hrouted i).1]
    · intro i
      rw [hshare' i, hshare i]
      show (s.give_back_route (s.reqs p)).src_inflight i + _ = _
      cases hrouted : (s.reqs p).routed with
      | true =>
        have := hle' i
        rw [hshare i] at this
        rw [(give_back_route_counters s (s.reqs p) i hrouted).2]
        omega
      | false => simp [give_back_route, hrouted, (hfree hrouted i).2]
    · rw [hblocks', hblocks]
      show (s.give_back_route (s.reqs p)).p0_outstanding + 0 = s.p0_outstanding + 0
      unfold give_back_route
      split
      · rfl
      · rfl
  split
  next hmask =>
    refine ⟨?_, ?_, ?_⟩
    · intro i
      rw [hload i]
      simp [Engine.load, Engine.carried, planned, Pending.charge, set_req]
    · intro i
      rw [hshare i]
      simp [Engine.share, Engine.carried, planned, Pending.on_source, set_req]
    · rw [hblocks]
      simp [Engine.blocks, Engine.blocking, planned, set_req]
  next mask hmask =>
    have hrouted : (s.reqs p).routed = false :=
      ((h.charges p hp).fresh hphase).2.2.2 (by
        show (s.reqs p).stripe_mask.isSome = true
        rw [show (s.reqs p).stripe_mask = some mask from hmask]
        rfl)
    have hb := stripe_booked cfg s (planned cfg (s.reqs p)) mask
    have hr : (planned cfg (s.reqs p)).routed = false := hrouted
    refine ⟨?_, ?_, ?_⟩
    · intro i
      rw [hload i, (hfree hrouted i).1]
      simpa [Engine.load, Engine.carried, striped, planned, Pending.charge, set_req, hrouted]
        using hb.outstanding i
    · intro i
      rw [hshare i, (hfree hrouted i).2]
      simpa [Engine.share, Engine.carried, striped, planned, Pending.on_source, set_req, hrouted]
        using hb.inflight i
    · rw [hblocks]
      simp [Engine.blocks, Engine.blocking, striped, planned, set_req]

theorem Ledger.plan (h : Ledger s) (hok : NoLeak s (.plan p)) (hp : p < s.count)
    (hphase : (s.reqs p).phase = .routed)
    (hs : s.step cfg (.plan p) = some (s.plan cfg p)) : Ledger (s.plan cfg p) := by
  have ht := plan_tables cfg s p
  obtain ⟨r, hreqs, _, hacc, hmove⟩ := plan_reqs cfg s p hphase
  have hnr : r.raced = false := (((h.base.views p hp).move hmove).draft hacc).raced
  have hnc : r.phase ≠ .cancelled := by
    intro hc
    rw [hc] at hacc
    cases hacc
  refine h.of_request hs ht.count hreqs ⟨fun hc => absurd hc hnc, by simp [hnc, hnr]⟩
    (h.books.of_step hp ht.count ?_ (h.plan_balanced hok hp hphase))
  intro q hq
  refine .of_req ?_ (by rw [finish_of, finish_of, ht.finishing]) (by rw [ht.cancel_calls])
  rw [hreqs, Function.update_of_ne hq]

theorem Ledger.enqueue (h : Ledger s) (hp : p < s.count) (hphase : (s.reqs p).phase = .planned)
    (hs : s.step cfg (.enqueue p) = some (s.enqueue p)) : Ledger (s.enqueue p) := by
  have hd := (h.base.views p hp).draft (by
    show (s.reqs p).phase.accepted = false
    rw [hphase]
    rfl)
  have hnr : (s.reqs p).raced = false := hd.raced
  refine h.of_request hs rfl rfl ⟨by simp, by simp [hnr]⟩ (h.books.of_step hp rfl ?_ ?_)
  · intro q hq
    exact .of_req (set_req_of_ne s _ hq) rfl Iff.rfl
  · refine ⟨?_, ?_, ?_⟩
    · intro i
      simp [Engine.load, Engine.carried, Engine.enqueue, set_req, hphase, Pending.charge]
    · intro i
      simp [Engine.share, Engine.carried, Engine.enqueue, set_req, hphase, Pending.on_source]
    · by_cases hclass : (s.reqs p).req.priority = .BlockingMiss
      · simp [Engine.blocks, Engine.blocking, Engine.enqueue, set_req, hphase, hclass]
      · simp [Engine.blocks, Engine.blocking, Engine.enqueue, set_req, hclass]

/-! ### cancel -/

/-- What a `cancel` takes has issued nothing: it waits in its queue, or it is idle. -/
theorem Ledger.taken_phase (h : Ledger s) (hp : p < s.count)
    (hmem : p ∈ s.queues (s.reqs p).req.priority) (hnext : (s.reqs p).next_chunk = 0)
    (hclass : (s.reqs p).req.priority ≠ .BlockingMiss) :
    (s.reqs p).phase = .queued ∨ (s.reqs p).Idle := by
  have hinv := h.base.views p hp
  have hc := h.charges p hp
  have hq : (s.view p).queued = true := decide_eq_true hmem
  have hacc := hinv.accepted (.inl hq)
  by_cases hfin : (s.view p).finish = none
  · cases hraced : (s.reqs p).raced with
    | true => exact .inr (h.idle hp hraced)
    | false =>
      have hlt : (s.view p).r.next_chunk < (s.view p).r.chunks.length :=
        hnext.trans_lt (hinv.chunks_pos hacc)
      exact .inl (hinv.active hraced (.inr ⟨hq, hfin, hlt⟩) hacc).1
  · -- `finish` is about to requeue it
    have hre : (s.view p).finish = some .requeue := by
      by_contra hno
      have hheld := (hinv.held hfin).2
      have hpos := hinv.chunks_pos hacc
      rw [if_neg hno] at hheld
      have hnext' : (s.view p).r.next_chunk = 0 := hnext
      omega
    obtain ⟨hrouted, _, hused⟩ := hc.clear (hc.requeued hre)
    exact .inr ⟨hrouted, hused, fun i => hc.charged i (hused i), hclass⟩

theorem Ledger.cancel (h : Ledger s) (hok : NoLeak s (.cancel p))
    (hs : s.step cfg (.cancel p) = some (s.cancel p).2) : Ledger (s.cancel p).2 := by
  rcases cancel_cases s p with hsame | ⟨pr, hmem, hnext, _, heq⟩
  · rw [hsame]
    exact h
  · obtain ⟨hp, rfl⟩ := h.base.queue_lt pr p hmem
    obtain ⟨hrouted, hclass⟩ := hok hmem hnext
    rw [heq] at hs ⊢
    refine h.of_request hs rfl rfl ⟨fun _ => hrouted, fun _ => hclass⟩
      (h.books.of_step hp rfl ?_ (SameAccounts.balanced ?_ rfl rfl rfl))
    · intro q hq
      refine .of_req (set_req_of_ne s _ hq) rfl ?_
      simp [hq]
    · rcases h.taken_phase hp hmem hnext hclass with hphase | hidle
      · refine ⟨?_, ?_, ?_⟩
        · intro i
          simp [Engine.load, Engine.carried, hphase, set_req, taken, Pending.charge]
        · intro i
          simp [Engine.share, Engine.carried, hphase, set_req, taken, Pending.on_source]
        · simp [Engine.blocks, Engine.blocking, set_req, taken, hclass]
      · refine .of_idle hidle ?_
        show (Function.update s.reqs p _ p).Idle
        rw [Function.update_self]
        exact ⟨hidle.routed, hidle.used, hidle.charged, hidle.class_ne⟩

theorem Base.only_call (h : Base s) {b : Bool} (hmem : (p, b) ∈ s.cancel_calls)
    (hraced : (s.reqs p).raced = false) :
    (s.reqs p).phase = .cancelled ∧ s.finish_of p = none ∧
      ∀ c, (p, c) ∉ s.cancel_calls.erase (p, b) := by
  have hp := h.cancel_lt _ hmem
  have hinv := h.views p hp
  have hpos : 0 < (s.view p).cancelling := List.countP_pos_iff.mpr ⟨_, hmem, by simp⟩
  have hacc := hinv.accepted (.inr (.inr hpos))
  have hloc := hinv.located hraced
  unfold View.Located at hloc
  cases hphase : (s.view p).r.phase with
  | routed | planned | rejected =>
    rw [hphase] at hacc
    cases hacc
  | queued | finishing | done =>
    simp only [hphase] at hloc
    omega
  | cancelled =>
    simp only [hphase] at hloc
    obtain ⟨_, hfin, hone, _⟩ := hloc
    refine ⟨hphase, hfin, ?_⟩
    intro c hc
    have hcount : s.cancel_calls.countP (fun c => c.1 == p) = 1 := hone
    rw [(List.perm_cons_erase hmem).countP_eq, List.countP_cons] at hcount
    have hpos : 0 < (s.cancel_calls.erase (p, b)).countP (fun c => c.1 == p) :=
      List.countP_pos_iff.mpr ⟨_, hc, by simp⟩
    simp only [beq_self_eq_true, if_true] at hcount
    omega

theorem give_back_stripe_counters (hc : (s.view p).Charges) (hrouted : (s.reqs p).routed = false)
    (i : Nat) :
    (s.give_back_stripe (s.reqs p)).src_outstanding i =
        s.src_outstanding i - (s.reqs p).charge i ∧
      (s.give_back_stripe (s.reqs p)).src_inflight i =
        s.src_inflight i - if (s.reqs p).on_source i then 1 else 0 := by
  unfold give_back_stripe
  cases hused : (s.reqs p).src_used i with
  | true =>
    have hlt := hc.used i hused
    simp [Pending.charge, Pending.on_source, hrouted, hused, hlt]
  | false =>
    have hzero : (s.reqs p).src_charged i = 0 := hc.charged i hused
    simp [Pending.charge, Pending.on_source, hrouted, hused, hzero]

theorem Ledger.uncharge_balanced (h : Ledger s) (hmem : (p, false) ∈ s.cancel_calls) :
    Balanced s (s.uncharge p) p := by
  have hp := h.base.cancel_lt _ hmem
  have hc := h.charges p hp
  cases hraced : (s.reqs p).raced with
  | true =>
    have hidle := h.idle hp hraced
    have hnone : any_source (s.reqs p).src_used = false := by
      simp [any_source, hidle.used]
    unfold Engine.uncharge
    rw [if_neg (by simp [hnone])]
    exact SameAccounts.balanced (.of_idle hidle hidle) rfl rfl rfl
  | false =>
    obtain ⟨hphase, _, honly⟩ := h.base.only_call hmem hraced
    have hrouted := (h.givable p hp).routed hphase
    have hload : ∀ i, s.load p i = (s.reqs p).charge i := by
      intro i
      simp [Engine.load, Engine.carried, hphase, hmem]
    have hshare : ∀ i, s.share p i = if (s.reqs p).on_source i then 1 else 0 := by
      intro i
      simp [Engine.share, Engine.carried, hphase, hmem]
    have hblocks : s.blocks p = 0 := by simp [Engine.blocks, Engine.blocking, hphase]
    -- after the step no call is left that would give charges back
    have hafter : ∀ s' : Engine, (s'.reqs p).phase = .cancelled →
        s'.cancel_calls = (p, true) :: s.cancel_calls.erase (p, false) →
        (∀ i, s'.load p i = 0) ∧ (∀ i, s'.share p i = 0) ∧ s'.blocks p = 0 := by
      intro s' hphase' hcalls
      have hcarried : s'.carried p = false := by
        simp [Engine.carried, hphase', hcalls, honly false]
      refine ⟨?_, ?_, ?_⟩
      · intro i
        simp [Engine.load, hcarried]
      · intro i
        simp [Engine.share, hcarried]
      · simp [Engine.blocks, Engine.blocking, hphase']
    unfold Engine.uncharge
    dsimp only
    split
    · obtain ⟨hload', hshare', hblocks'⟩ := hafter
        ((give_back_stripe { s with cancel_calls := (p, true) :: s.cancel_calls.erase (p, false) }
          (s.reqs p)).set_req p (unstriped (s.reqs p))) (by rw [set_req_self]; exact hphase) rfl
      have hcounters := give_back_stripe_counters hc hrouted
      refine ⟨?_, ?_, ?_⟩
      · intro i
        have hle := h.books.load_le hp i
        rw [hload i] at hle
        rw [hload' i, hload i]
        show (s.give_back_stripe (s.reqs p)).src_outstanding i + _ = _
        rw [(hcounters i).1]
        omega
      · intro i
        have hle := h.books.share_le hp i
        rw [hshare i] at hle
        rw [hshare' i, hshare i]
        show (s.give_back_stripe (s.reqs p)).src_inflight i + _ = _
        rw [(hcounters i).2]
        omega
      · rw [hblocks', hblocks]
        rfl
    next hnone =>
      obtain ⟨hload', hshare', hblocks'⟩ := hafter
        { s with cancel_calls := (p, true) :: s.cancel_calls.erase (p, false) } hphase rfl
      have hnone' : any_source (s.reqs p).src_used = false := by simpa using hnone
      have hzero := hc.no_charge hnone'
      refine ⟨?_, ?_, ?_⟩
      · intro i
        rw [hload' i, hload i, charge_zero hrouted (fun i => (hzero i).2) i]
      · intro i
        rw [hshare' i, hshare i, on_source_false hrouted (fun i => (hzero i).1) i]
        rfl
      · rw [hblocks', hblocks]

theorem Ledger.uncharge (h : Ledger s) (hmem : (p, false) ∈ s.cancel_calls)
    (hs : s.step cfg (.uncharge p) = some (s.uncharge p)) : Ledger (s.uncharge p) := by
  have hp := h.base.cancel_lt _ hmem
  have hgivable := h.givable p hp
  have hbal := h.uncharge_balanced hmem
  have hcall : ∀ q, q ≠ p → ((q, false) ∈ (p, true) :: s.cancel_calls.erase (p, false) ↔
      (q, false) ∈ s.cancel_calls) := by
    intro q hq
    simp [List.mem_erase_of_ne, hq]
  unfold Engine.uncharge at hs hbal ⊢
  dsimp only at hs hbal ⊢
  split
  next hany =>
    rw [if_pos hany] at hs hbal
    refine h.of_request hs rfl rfl ⟨hgivable.routed, hgivable.class_ne⟩
      (h.books.of_step hp rfl ?_ hbal)
    intro q hq
    exact .of_req (set_req_of_ne _ _ hq) rfl (hcall q hq)
  next hany =>
    rw [if_neg hany] at hs hbal
    refine h.of_step hs rfl h.givable (h.books.of_step hp rfl ?_ hbal)
    intro q hq
    exact .of_req rfl rfl (hcall q hq)

theorem Ledger.call_cancelled (h : Ledger s) (hmem : (p, true) ∈ s.cancel_calls)
    (hs : s.step cfg (.call_cancelled p) = some (s.call_cancelled p)) :
    Ledger (s.call_cancelled p) := by
  have hp := h.base.cancel_lt _ hmem
  have hgivable := h.givable p hp
  refine h.of_request hs rfl rfl ⟨by simp, fun hr => hgivable.class_ne (.inr (by simpa using hr))⟩
    (h.books.of_step hp rfl ?_ (SameAccounts.balanced ?_ rfl rfl rfl))
  · intro q hq
    refine .of_req (set_req_of_ne s _ hq) rfl ?_
    simp [Engine.call_cancelled, List.mem_erase_of_ne, hq]
  · cases hraced : (s.reqs p).raced with
    | true =>
      have hidle := h.idle hp hraced
      refine .of_idle hidle ?_
      show (Function.update s.reqs p _ p).Idle
      rw [Function.update_self]
      exact ⟨hidle.routed, hidle.used, hidle.charged, hidle.class_ne⟩
    | false =>
      obtain ⟨hphase, hfin, honly⟩ := h.base.only_call hmem hraced
      have hfin' : (s.call_cancelled p).finish_of p = none := hfin
      have hno : (p, false) ∉ s.cancel_calls := by
        intro hin
        exact honly false ((List.mem_erase_of_ne (by simp)).mpr hin)
      apply SameAccounts.of_uncarried
      · simp [Engine.carried, hphase, hno]
      · simp [Engine.carried, Engine.call_cancelled, set_req]
      · unfold Engine.blocking
        rw [hfin']
        simp [hphase, Engine.call_cancelled, set_req]

/-! ### Issuing and completing chunks -/

theorem Ledger.issue (h : Ledger s) {waiters : Nat} {recent : Bool}
    (hs : s.step cfg (.issue waiters recent) = some (s.issue cfg waiters recent)) :
    Ledger (s.issue cfg waiters recent) := by
  rcases issue_cases cfg s waiters recent with heq | ⟨p, pr, c, hmem, hc, heq⟩
  · rw [heq] at hs ⊢
    exact h.of_same hs rfl rfl rfl rfl rfl rfl rfl
  · have hp := ((h.base.pop cfg).queue_lt pr p hmem).1
    have hc' : (s.pop_issued.reqs p).chunks[(s.pop_issued.reqs p).next_chunk]? = some c := hc
    have hgivable := h.givable p hp
    rw [heq, issue_chunk_eq cfg hc'] at hs ⊢
    refine h.of_request (p := p) (r := issued (s.reqs p)) hs rfl rfl
      ⟨hgivable.routed, hgivable.class_ne⟩
      (h.books.of_step hp rfl ?_ (SameAccounts.balanced ?_ rfl rfl rfl))
    · intro q hq
      exact .of_req (set_req_of_ne _ _ hq) rfl Iff.rfl
    · have hself : Function.update s.reqs p (issued (s.reqs p)) p = issued (s.reqs p) :=
        Function.update_self _ _ _
      refine .of_place ?_ ?_ ?_ ?_ rfl Iff.rfl
      · show (Function.update s.reqs p (issued (s.reqs p)) p).phase = _
        rw [hself]
        rfl
      · show (Function.update s.reqs p (issued (s.reqs p)) p).charge = _
        rw [hself]
        rfl
      · show (Function.update s.reqs p (issued (s.reqs p)) p).on_source = _
        rw [hself]
        rfl
      · show (Function.update s.reqs p (issued (s.reqs p)) p).req.priority = _
        rw [hself]
        rfl

theorem completes_counters {w : PickedChunk} {moved : Nat} {status : Status} {junk : Nat → UInt8}
    (hb : Base s) (h : Completes cfg s s' w moved status junk) :
    s'.src_outstanding = discharge s.src_outstanding (s.reqs w.owner) w.inflight ∧
      s'.src_inflight = s.src_inflight ∧ s'.p0_outstanding = s.p0_outstanding := by
  have howner : (s.land cfg w moved status junk).chunk_owner w.req.chunk_id = some w.inflight :=
    hb.owner w h.mem
  have hcharged : (counted ((s.land cfg w moved status junk).reqs w.owner) moved status).src_charged =
      (s.reqs w.owner).src_charged := by
    rw [show (s.land cfg w moved status junk).reqs w.owner =
      landed cfg (s.reqs w.owner) w moved status junk from set_req_self s w.owner _]
    unfold counted
    dsimp only
    split
    · rfl
    · rfl
  rw [h.eq]
  unfold Engine.handle_completion
  rw [howner]
  refine ⟨?_, rfl, rfl⟩
  show discharge s.src_outstanding _ w.inflight = _
  unfold discharge
  split
  · rfl
  · rw [show w.inflight.owner = w.owner from rfl, hcharged]

/-- A completion moves the counters as it moves the charges of its request. -/
theorem Ledger.complete_balanced (h : Ledger s) {w : PickedChunk} {moved : Nat} {status : Status}
    {junk : Nat → UInt8} (hc : Completes cfg s s' w moved status junk) :
    Balanced s s' w.owner := by
  obtain ⟨hreqs, _, _, _, _, _, hcalls, hfin⟩ := hc.fields h.base
  obtain ⟨hout, hin, hp0⟩ := completes_counters h.base hc
  have hp := (h.base.wire_lt w hc.mem).1
  have hinv := h.base.views w.owner hp
  have hch := h.charges w.owner hp
  have hflight : w ∈ (s.view w.owner).flights := List.mem_filter.mpr ⟨hc.mem, by simp⟩
  have hself : s'.reqs w.owner = completed (Completes.after cfg s w moved status junk) := by
    rw [hreqs, Function.update_self]
  have hkeep := completion_charges cfg (s.reqs w.owner) w moved status junk
  have hreq := (completion_transfers cfg (s.reqs w.owner) w moved status junk).req
  have hcounts := completion_counts cfg (s.reqs w.owner) w moved status junk
  change (completed (Completes.after cfg s w moved status junk)).req = _ at hreq
  change Counts _ (Completes.after cfg s w moved status junk) _ at hcounts
  obtain ⟨hrouted, hsource, hused, hcharged⟩ := hkeep
  change (completed (Completes.after cfg s w moved status junk)).routed = _ at hrouted
  change (completed (Completes.after cfg s w moved status junk)).source = _ at hsource
  change (completed (Completes.after cfg s w moved status junk)).src_used = _ at hused
  change (completed (Completes.after cfg s w moved status junk)).src_charged = _ at hcharged
  rw [← hself] at hreq hrouted hsource hused hcharged
  have hplain : (s.reqs w.owner).chunk_src = [] → w.src = none := hch.src w hflight
  cases hraced : (s.reqs w.owner).raced with
  | true =>
    have hidle := h.idle hp hraced
    have hnone := hplain (hch.clear (hch.raced hraced)).2.1
    have hsame : (discharged (s.reqs w.owner) w.inflight (status.code == .Ok)).src_charged =
        (s.reqs w.owner).src_charged := by
      simp [discharged, PickedChunk.inflight, hnone]
    refine SameAccounts.balanced (.of_idle hidle ?_) ?_ hin hp0
    · exact ⟨hrouted.trans hidle.routed, fun i => by rw [hused]; exact hidle.used i,
        fun i => by rw [hcharged, hsame]; exact hidle.charged i,
        by rw [hreq]; exact hidle.class_ne⟩
    · rw [hout]
      simp [discharge, PickedChunk.inflight, hnone]
  | false =>
    have hphase : (s.reqs w.owner).phase = .queued :=
      (hinv.active hraced (.inl (List.ne_nil_of_mem hflight)) (hinv.accepted_of_flights hflight)).1
    -- in its queue or handed to `finish`, the request is carried on
    have hafter : s'.carried w.owner = true ∧ s'.blocking w.owner = s.blocking w.owner := by
      unfold Engine.carried Engine.blocking
      rw [hreq, hphase, hself]
      by_cases hcomp : (Completes.after cfg s w moved status junk).complete = true
      · have hf : s'.finishing = some (w.owner, .release) := by rw [hfin, if_pos hcomp]
        simp [completed, hcomp, finish_of_self hf]
      · have hp' : (Completes.after cfg s w moved status junk).phase = .queued :=
          hcounts.phase.trans hphase
        simp [completed, hcomp, hp']
    have hbefore : s.carried w.owner = true := by simp [Engine.carried, hphase]
    have hload : ∀ i, s.load w.owner i = (s.reqs w.owner).charge i := by
      intro i
      simp [Engine.load, hbefore]
    have hload' : ∀ i, s'.load w.owner i = (s'.reqs w.owner).charge i := by
      intro i
      simp [Engine.load, hafter.1]
    refine ⟨?_, ?_, ?_⟩
    · intro i
      have hle := h.books.load_le hp i
      rw [hload i] at hle
      rw [hload i, hload' i, hout]
      cases hsrc : w.src with
      | none =>
        simp [discharge, discharged, PickedChunk.inflight, hsrc, Pending.charge, hrouted, hsource,
          hreq, hcharged]
      | some j =>
        have hr : (s.reqs w.owner).routed = false := by
          by_contra hno
          have hyes : (s.reqs w.owner).routed = true := by simpa using hno
          have hnone := hplain (hch.whole hyes).1
          rw [hsrc] at hnone
          cases hnone
        rw [Pending.charge, hr] at hle
        have hle' : (s.reqs w.owner).src_charged i ≤ s.src_outstanding i := hle
        simp only [discharge, discharged, PickedChunk.inflight, hsrc, Pending.charge, hrouted, hr,
          hcharged]
        by_cases hi : i = j
        · subst hi
          simp only [Function.update_self, Bool.false_eq_true, if_false]
          omega
        · simp [Function.update_of_ne hi]
    · intro i
      rw [hin, Engine.share, Engine.share, hbefore, hafter.1, Pending.on_source, Pending.on_source,
        hrouted, hsource, hused]
    · rw [hp0, Engine.blocks, Engine.blocks, hafter.2]

theorem Ledger.complete (h : Ledger s) {a : Action} {w : PickedChunk} {moved : Nat}
    {status : Status} {junk : Nat → UInt8} (hc : Completes cfg s s' w moved status junk)
    (hs : s.step cfg a = some s') : Ledger s' := by
  obtain ⟨hreqs, hcount, _, _, _, _, hcalls, hfin⟩ := hc.fields h.base
  have hp := (h.base.wire_lt w hc.mem).1
  have hgivable := h.givable w.owner hp
  have hrouted : (completed (Completes.after cfg s w moved status junk)).routed =
      (s.reqs w.owner).routed := (completion_charges cfg _ w moved status junk).1
  have hreq : (completed (Completes.after cfg s w moved status junk)).req = (s.reqs w.owner).req :=
    (completion_transfers cfg _ w moved status junk).req
  have hcounts : Counts _ (Completes.after cfg s w moved status junk) _ :=
    completion_counts cfg (s.reqs w.owner) w moved status junk
  have hkeep : (completed (Completes.after cfg s w moved status junk)).raced =
        (s.reqs w.owner).raced ∧
      ((completed (Completes.after cfg s w moved status junk)).phase = .cancelled →
        (s.reqs w.owner).phase = .cancelled) := by
    unfold completed
    split
    · exact ⟨hcounts.raced, fun hp => by cases hp⟩
    · exact ⟨hcounts.raced, fun hp => hcounts.phase ▸ hp⟩
  refine h.of_request hs hcount hreqs ⟨?_, ?_⟩
    (h.books.of_step hp hcount ?_ (h.complete_balanced hc))
  · intro hcan
    rw [hrouted]
    exact hgivable.routed (hkeep.2 hcan)
  · intro hcan
    rw [hreq]
    rw [hkeep.1] at hcan
    exact hgivable.class_ne (hcan.imp_left hkeep.2)
  · intro q hq
    refine .of_req ?_ ?_ (by rw [hcalls])
    · rw [hreqs, Function.update_of_ne hq]
    · rw [finish_of_none hc.idle]
      split at hfin
      · exact finish_of_ne hfin hq
      · exact finish_of_none hfin

/-! ### finish -/

theorem Base.finish_phase (h : Base s) {f : FinishStep} (hf : s.finishing = some (p, f))
    (hraced : (s.reqs p).raced = false) :
    (s.reqs p).phase = if f = .settle then .done else .finishing := by
  have hp := h.finishing_lt p f hf
  have hinv := h.views p hp
  have hself := finish_of_self hf
  have hne : (s.view p).finish ≠ none := by
    show s.finish_of p ≠ none
    simp [hself]
  by_cases hset : f = .settle
  · rw [if_pos hset]
    have hacc := hinv.accepted (.inr (.inl hne))
    have hloc := hinv.located hraced
    unfold View.Located at hloc
    cases hphase : (s.view p).r.phase with
    | routed | planned | rejected =>
      rw [hphase] at hacc
      cases hacc
    | queued | cancelled =>
      simp only [hphase] at hloc
      exact absurd hloc.2.1 hne
    | finishing =>
      simp only [hphase] at hloc
      exact absurd (hself.trans (by rw [hset])) hloc.2.2.1
    | done => exact hphase
  · rw [if_neg hset]
    refine (hinv.finishing hraced hne ?_).1
    show s.finish_of p ≠ some .settle
    simp [hself, hset]

theorem Ledger.of_finish (h : Ledger s) {f : FinishStep} (hf : s.finishing = some (p, f))
    (hs : s.step cfg .finish = some s') {r : Pending} (hcount : s'.count = s.count)
    (hreqs : s'.reqs = Function.update s.reqs p r) (hcalls : s'.cancel_calls = s.cancel_calls)
    (hfin : ∀ q, q ≠ p → s'.finish_of q = none) (hgivable : r.Givable)
    (hbal : Balanced s s' p) : Ledger s' := by
  refine h.of_request hs hcount hreqs hgivable
    (h.books.of_step (h.base.finishing_lt p f hf) hcount ?_ hbal)
  intro q hq
  refine .of_req ?_ ?_ (by rw [hcalls])
  · rw [hreqs, Function.update_of_ne hq]
  · rw [hfin q hq, finish_of_ne hf hq]

/-- The charges `finish` gives back are those the request is carried with. -/
theorem give_back_counters (hc : (s.view p).Charges) (i : Nat) :
    (s.give_back (s.reqs p)).src_outstanding i = s.src_outstanding i - (s.reqs p).charge i ∧
      (s.give_back (s.reqs p)).src_inflight i =
        s.src_inflight i - (if (s.reqs p).on_source i then 1 else 0) ∧
      (s.give_back (s.reqs p)).p0_outstanding = s.p0_outstanding := by
  unfold give_back
  split
  next hrouted =>
    obtain ⟨hout, hin⟩ := give_back_route_counters s (s.reqs p) i hrouted
    refine ⟨hout, hin, ?_⟩
    unfold give_back_route
    split
    · rfl
    · rfl
  next hrouted =>
    have hrouted : (s.reqs p).routed = false := by simpa using hrouted
    split
    · obtain ⟨hout, hin⟩ := give_back_stripe_counters hc hrouted i
      exact ⟨hout, hin, rfl⟩
    next hnone =>
      have hnone : any_source (s.reqs p).src_used = false := by simpa using hnone
      have hzero := hc.no_charge hnone
      rw [charge_zero hrouted (fun i => (hzero i).2) i,
        on_source_false hrouted (fun i => (hzero i).1) i]
      exact ⟨rfl, rfl, rfl⟩

/-- `finish` gives back what the request still carries. -/
theorem Ledger.release (h : Ledger s) (hf : s.finishing = some (p, .release))
    (hs : s.step cfg .finish = some (s.release p)) : Ledger (s.release p) := by
  have hp := h.base.finishing_lt p _ hf
  have hc := h.charges p hp
  have hgivable := h.givable p hp
  have hcourse := released_course (s.reqs p)
  have hclass := released_priority (s.reqs p)
  have hrouted : (released (s.reqs p)).routed = (s.reqs p).routed := hc.released.2.2.1
  have ht := give_back_tables s (s.reqs p)
  have hself : (s.release p).reqs p = released (s.reqs p) := set_req_self _ p _
  have hfin' : (s.release p).finish_of p =
      some (if (s.reqs p).fails_over then .reset else .deliver (s.reqs p).result) :=
    finish_of_self rfl
  refine h.of_finish (r := released (s.reqs p)) hf hs ht.count ?_ ht.cancel_calls
    (fun q hq => finish_of_ne rfl hq)
    ⟨?_, ?_⟩ ?_
  · show Function.update (s.give_back (s.reqs p)).reqs p _ = _
    rw [give_back_reqs]
  · rw [hcourse.phase, hrouted]
    exact hgivable.routed
  · rw [hcourse.phase, hcourse.raced, hclass]
    exact hgivable.class_ne
  · have hcounters := give_back_counters hc
    -- a cancelled one has nothing left; else its load and its share go
    cases hraced : (s.reqs p).raced with
    | true =>
      have hidle := h.idle hp hraced
      refine SameAccounts.balanced (.of_idle hidle ?_) ?_ ?_ (hcounters 0).2.2
      · rw [hself]
        obtain ⟨hzero, _, _, _, hused, _⟩ := hc.released
        have hused : (released (s.reqs p)).src_used = (s.reqs p).src_used := hused
        exact ⟨hrouted.trans hidle.routed, fun i => by rw [hused]; exact hidle.used i, hzero,
          by rw [hclass]; exact hidle.class_ne⟩
      · funext i
        show (s.give_back (s.reqs p)).src_outstanding i = _
        rw [(hcounters i).1, charge_zero hidle.routed hidle.charged i]
        rfl
      · funext i
        show (s.give_back (s.reqs p)).src_inflight i = _
        rw [(hcounters i).2.1, on_source_false hidle.routed hidle.used i]
        rfl
    | false =>
      have hphase : (s.reqs p).phase = .finishing := h.base.finish_phase hf hraced
      have hbefore : s.carried p = true := by simp [Engine.carried, hphase, finish_of_self hf]
      have hafter : (s.release p).carried p = false := by
        unfold Engine.carried
        rw [hself, hcourse.phase, hphase, hfin']
        cases (s.reqs p).fails_over with
        | true => rfl
        | false => rfl
      refine ⟨?_, ?_, ?_⟩
      · intro i
        have hle := h.books.load_le hp i
        rw [Engine.load, hbefore] at hle
        rw [Engine.load, Engine.load, hbefore, hafter]
        have hle' : (s.reqs p).charge i ≤ s.src_outstanding i := hle
        show (s.give_back (s.reqs p)).src_outstanding i + (s.reqs p).charge i =
          s.src_outstanding i + 0
        rw [(hcounters i).1]
        omega
      · intro i
        have hle := h.books.share_le hp i
        rw [Engine.share, hbefore] at hle
        rw [Engine.share, Engine.share, hbefore, hafter]
        have hle' : (if (s.reqs p).on_source i = true then 1 else 0) ≤ s.src_inflight i := hle
        show (s.give_back (s.reqs p)).src_inflight i +
          (if (s.reqs p).on_source i = true then 1 else 0) = s.src_inflight i + 0
        rw [(hcounters i).2.1]
        omega
      · have hsame : (s.release p).blocking p = s.blocking p := by
          simp [Engine.blocking, hself, hcourse.phase, hphase, hclass]
        rw [Engine.blocks, Engine.blocks, hsame]
        show (s.give_back (s.reqs p)).p0_outstanding + _ = _
        rw [(hcounters 0).2.2]

theorem Ledger.reset (h : Ledger s) (hf : s.finishing = some (p, .reset))
    (hs : s.step cfg .finish = some (s.reset p)) : Ledger (s.reset p) := by
  have hp := h.base.finishing_lt p _ hf
  have hc := h.charges p hp
  have hgivable := h.givable p hp
  have hself : (s.reset p).reqs p = (s.reqs p).retry := set_req_self _ p _
  have hfin' : (s.reset p).finish_of p = some .requeue := finish_of_self rfl
  refine h.of_finish hf hs rfl rfl rfl (fun q hq => finish_of_ne rfl hq)
    ⟨fun _ => rfl, hgivable.class_ne⟩ (SameAccounts.balanced ?_ rfl rfl rfl)
  cases hraced : (s.reqs p).raced with
  | true =>
    have hidle := h.idle hp hraced
    refine .of_idle hidle ?_
    rw [hself]
    exact ⟨rfl, fun _ => rfl, hidle.charged, hidle.class_ne⟩
  | false =>
    have hphase : (s.reqs p).phase = .finishing := h.base.finish_phase hf hraced
    have hphase' : (s.reqs p).retry.phase = .finishing := hphase
    apply SameAccounts.of_uncarried
    · simp [Engine.carried, hphase, finish_of_self hf]
    · simp [Engine.carried, hself, hphase', hfin']
    · simp [Engine.blocking, hself, hphase, Pending.retry]

/-- The retry is charged to no source. -/
theorem Ledger.requeue (h : Ledger s) (hf : s.finishing = some (p, .requeue))
    (hs : s.step cfg .finish = some (s.requeue p)) : Ledger (s.requeue p) := by
  have hp := h.base.finishing_lt p _ hf
  have hc := h.charges p hp
  have hgivable := h.givable p hp
  have hself : (s.requeue p).reqs p = { s.reqs p with phase := .queued } := set_req_self _ p _
  obtain ⟨hrouted, _, hused⟩ := hc.clear (hc.requeued (finish_of_self hf))
  have hrouted : (s.reqs p).routed = false := hrouted
  have hused : ∀ i, (s.reqs p).src_used i = false := hused
  have hcharged : ∀ i, (s.reqs p).src_charged i = 0 := fun i => hc.charged i (hused i)
  refine h.of_finish hf hs rfl rfl rfl (fun q _ => finish_of_none rfl)
    ⟨by simp, fun hr => hgivable.class_ne (.inr (by simpa using hr))⟩
    (SameAccounts.balanced ⟨?_, ?_, ?_⟩ rfl rfl rfl)
  · intro i
    simp [Engine.load, hself, Pending.charge, hrouted, hcharged]
  · intro i
    simp [Engine.share, hself, Pending.on_source, hrouted, hused]
  · cases hraced : (s.reqs p).raced with
    | true =>
      have hclass := hgivable.class_ne (.inr hraced)
      simp [Engine.blocks, Engine.blocking, hself, hclass]
    | false =>
      have hphase : (s.reqs p).phase = .finishing := h.base.finish_phase hf hraced
      simp [Engine.blocks, Engine.blocking, hself, hphase]

theorem Ledger.deliver (h : Ledger s) {res : IoResult} (hf : s.finishing = some (p, .deliver res))
    (hs : s.step cfg .finish = some (s.deliver p res)) : Ledger (s.deliver p res) := by
  have hp := h.base.finishing_lt p _ hf
  have hgivable := h.givable p hp
  have hself : (s.deliver p res).reqs p =
      { s.reqs p with phase := .done, results := (s.reqs p).results ++ [res] } := set_req_self _ p _
  have hfin' : (s.deliver p res).finish_of p = some .settle := finish_of_self rfl
  refine h.of_finish hf hs rfl rfl rfl (fun q hq => finish_of_ne rfl hq)
    ⟨by simp, fun hr => hgivable.class_ne (.inr (by simpa using hr))⟩
    (SameAccounts.balanced ?_ rfl rfl rfl)
  cases hraced : (s.reqs p).raced with
  | true =>
    have hidle := h.idle hp hraced
    refine .of_idle hidle ?_
    rw [hself]
    exact ⟨hidle.routed, hidle.used, hidle.charged, hidle.class_ne⟩
  | false =>
    have hphase : (s.reqs p).phase = .finishing := h.base.finish_phase hf hraced
    apply SameAccounts.of_uncarried
    · simp [Engine.carried, hphase, finish_of_self hf]
    · simp [Engine.carried, hself]
    · simp [Engine.blocking, hself, hphase, hfin']

theorem Ledger.settle (h : Ledger s) (hf : s.finishing = some (p, .settle))
    (hs : s.step cfg .finish = some (s.settle p)) : Ledger (s.settle p) := by
  have hp := h.base.finishing_lt p _ hf
  have hgivable := h.givable p hp
  have hfin' : (s.settle p).finish_of p = none := finish_of_none rfl
  refine h.of_finish (r := s.reqs p) hf hs rfl ?_ rfl (fun q _ => finish_of_none rfl) hgivable ?_
  · rw [Function.update_eq_self]
    rfl
  · have hreq : (s.settle p).reqs p = s.reqs p := rfl
    cases hraced : (s.reqs p).raced with
    | true =>
      have hidle := h.idle hp hraced
      refine SameAccounts.balanced (.of_idle hidle hidle) rfl rfl ?_
      simp [Engine.settle, hidle.class_ne]
    | false =>
      have hphase : (s.reqs p).phase = .done := h.base.finish_phase hf hraced
      refine ⟨?_, ?_, ?_⟩
      · intro i
        simp [Engine.load, Engine.carried, hphase, Engine.settle]
      · intro i
        simp [Engine.share, Engine.carried, hphase, Engine.settle]
      · have hle := h.books.blocks_le hp
        unfold Engine.blocks Engine.blocking at hle ⊢
        rw [hreq, hfin']
        rw [hphase, finish_of_self hf] at hle ⊢
        by_cases hclass : (s.reqs p).req.priority = .BlockingMiss
        · simp only [hclass, beq_self_eq_true, Bool.and_self, if_true] at hle
          simp [Engine.settle, hclass]
          omega
        · simp [Engine.settle, hclass]

/-! ### All steps -/

theorem Ledger.finish (h : Ledger s) (hs : s.step cfg .finish = some s') : Ledger s' := by
  have hs' := hs
  simp only [Engine.step, Engine.finish] at hs'
  split at hs'
  · cases hs'
  next hf =>
    cases hs'
    exact h.release hf hs
  next hf =>
    cases hs'
    exact h.reset hf hs
  next hf =>
    cases hs'
    exact h.requeue hf hs
  next hf =>
    cases hs'
    exact h.deliver hf hs
  next hf =>
    cases hs'
    exact h.settle hf hs

theorem Ledger.step (h : Ledger s) {a : Action} (hok : NoLeak s a)
    (hs : s.step cfg a = some s') : Ledger s' := by
  cases step_cases hs with
  | enter => exact h.enter hs
  | closed => exact h
  | plan hp hphase => exact h.plan hok hp hphase hs
  | enqueue hp hphase => exact h.enqueue hp hphase hs
  | cancel => exact h.cancel hok hs
  | uncharge hcall => exact h.uncharge hcall hs
  | call_cancelled hcall => exact h.call_cancelled hcall hs
  | issue => exact h.issue hs
  | completes _ _ _ hc => exact h.complete hc hs
  | finish => exact h.finish hs
  | adjusts => exact h.of_same hs rfl rfl rfl rfl rfl rfl rfl

theorem reachable_ledger (h : LTS.Reachable ((engine_system cfg).restrict NoLeak) s) :
    Ledger s := by
  apply h.invariant
  · intro s hs
    have hinit : (engine_system cfg).init s := hs
    obtain ⟨hcount, _, _, _, _, hp0, hout, hin, _, _⟩ := hs
    refine ⟨base_init hinit, ?_, ?_, ?_, ?_, ?_⟩
    · intro p hp
      omega
    · intro p hp
      omega
    · simp [hcount, hout]
    · simp [hcount, hin]
    · simp [hcount, hp0]
  · intro s a s' hl hs
    exact hl.step hs.2 hs.1

/-- The router's accounts. In every run in which `submit` refuses no routed request for its null
    destination or its zero length and `cancel` takes none that is routed whole or of class P0,
    the counters of every source are the sums over the requests it carries, the P0 counter is
    the number of P0 requests not through `finish`, and all are 0 when no request is live. -/
theorem accounts_exact (h : LTS.Reachable ((engine_system cfg).restrict NoLeak) s) :
    (∀ i, s.src_outstanding i =
      ∑ p ∈ (Finset.range s.count).filter (fun p => s.carried p), (s.reqs p).charge i) ∧
    (∀ i, s.src_inflight i =
      ((Finset.range s.count).filter fun p => s.carried p && (s.reqs p).on_source i).card) ∧
    s.p0_outstanding = ((Finset.range s.count).filter fun p => s.blocking p).card ∧
    (∀ p < s.count, s.carried p = true ∨ s.blocking p = true → s.live p = true) ∧
    ((∀ p < s.count, s.live p = false) →
      (∀ i, s.src_outstanding i = 0 ∧ s.src_inflight i = 0) ∧ s.p0_outstanding = 0) := by
  have hb := (reachable_ledger h).books
  -- the books are the same sums over all requests
  have hout : ∀ i, s.src_outstanding i =
      ∑ p ∈ (Finset.range s.count).filter (fun p => s.carried p), (s.reqs p).charge i := by
    intro i
    rw [hb.outstanding i, Finset.sum_filter]
    rfl
  have hin : ∀ i, s.src_inflight i =
      ((Finset.range s.count).filter fun p => s.carried p && (s.reqs p).on_source i).card := by
    intro i
    rw [hb.inflight i, Finset.card_filter]
    rfl
  have hp0 : s.p0_outstanding = ((Finset.range s.count).filter fun p => s.blocking p).card := by
    rw [hb.p0, Finset.card_filter]
    rfl
  have hlive : ∀ p < s.count, s.carried p = true ∨ s.blocking p = true → s.live p = true := by
    intro p _ hor
    unfold Engine.carried Engine.blocking at hor
    unfold Engine.live
    cases hphase : (s.reqs p).phase with
    | routed | planned | queued | finishing | cancelled => rfl
    | done =>
      simp only [hphase, Bool.false_eq_true, false_or, Bool.and_eq_true] at hor
      exact hor.2
    | rejected => simp [hphase] at hor
  refine ⟨hout, hin, hp0, hlive, ?_⟩
  intro hnone
  have hdead : ∀ p ∈ Finset.range s.count, s.carried p = false ∧ s.blocking p = false := by
    intro p hp
    have hno := hnone p (Finset.mem_range.mp hp)
    have hl := hlive p (Finset.mem_range.mp hp)
    constructor
    · by_contra hc
      exact absurd ((hl (.inl (by simpa using hc))).symm.trans hno) (by decide)
    · by_contra hc
      exact absurd ((hl (.inr (by simpa using hc))).symm.trans hno) (by decide)
  refine ⟨fun i => ⟨?_, ?_⟩, ?_⟩
  · rw [hout i, Finset.filter_false_of_mem (by simpa using fun p hp => (hdead p (by simpa using hp)).1)]
    rfl
  · rw [hin i, Finset.filter_false_of_mem]
    · rfl
    · intro p hp
      simp [(hdead p hp).1]
  · rw [hp0, Finset.filter_false_of_mem]
    · rfl
    · intro p hp
      simp [(hdead p hp).2]

/-! ### A cancelled backfill -/

/-- A backfill routed to the mirror and cancelled: its bytes stay charged to the mirror. -/
theorem cancelled_route_stays_charged :
    ¬ ∀ s, LTS.Reachable (engine_system mirrored) s → (∀ p < s.count, s.live p = false) →
      ∀ i, s.src_outstanding i = 0 ∧ s.src_inflight i = 0 := by
  intro h
  obtain ⟨s, hreach, hs⟩ := LTS.Reachable.of_execute (Engine.step mirrored)
    [.submit two_pages, .plan 0, .enqueue 0, .cancel 0, .uncharge 0, .call_cancelled 0]
    (fun s => s.count = 1 ∧ s.live 0 = false ∧ s.src_outstanding 1 = 8192) shallow_init
    (by decide)
  simp only [Bool.decide_and, Bool.and_eq_true, decide_eq_true_eq] at hs
  obtain ⟨hcount, hdead, hleft⟩ := hs
  have hzero := (h s hreach (by
    intro p hp
    obtain rfl : p = 0 := by omega
    exact hdead) 1).1
  omega

instance (s : Engine) (a : Action) : Decidable (NoLeak s a) :=
  match a with
  | .plan _ => inferInstanceAs (Decidable (_ → _))
  | .cancel _ => inferInstanceAs (Decidable (_ → _ → _))
  | .submit _ | .enqueue _ | .uncharge _ | .call_cancelled _ | .issue .. | .do_submit .. | .poll ..
  | .refusal _ | .finish | .drop_source _ | .readmit_source _ | .thermal .. | .set_p0_depth .. =>
    isTrue trivial

/-- The mirror carries a backfill, and gives it back when it fails over to the primary. -/
theorem accounts_exact_failover :
    (∃ s, LTS.Reachable ((engine_system mirrored).restrict NoLeak) s ∧ s.src_outstanding 1 = 8192 ∧
      s.src_outstanding 1 =
        ∑ p ∈ (Finset.range s.count).filter (fun p => s.carried p), (s.reqs p).charge 1) ∧
    ∃ s, LTS.Reachable ((engine_system mirrored).restrict NoLeak) s ∧ (s.reqs 0).retries = 1 ∧
      s.src_outstanding 1 = 0 ∧ s.src_inflight 1 = 0 := by
  constructor
  · obtain ⟨s, hreach, hs⟩ := LTS.Reachable.of_guarded (Engine.step mirrored) NoLeak
      [.submit two_pages, .plan 0, .enqueue 0, .issue 0 false]
      (fun s => s.src_outstanding 1 = 8192) shallow_init (by decide)
    exact ⟨s, hreach, by simpa using hs, (accounts_exact hreach).1 1⟩
  · obtain ⟨s, hreach, hs⟩ := LTS.Reachable.of_guarded (Engine.step mirrored) NoLeak
      (mirror_fails ++ primary_answers)
      (fun s => s.count = 1 ∧ s.live 0 = false ∧ (s.reqs 0).retries = 1) shallow_init
      (by decide)
    simp only [Bool.decide_and, Bool.and_eq_true, decide_eq_true_eq] at hs
    obtain ⟨hcount, hdead, hretries⟩ := hs
    obtain ⟨_, _, _, _, hzero⟩ := accounts_exact hreach
    have hnone := (hzero (by
      intro p hp
      obtain rfl : p = 0 := by omega
      exact hdead)).1 1
    exact ⟨s, hreach, hretries, hnone.1, hnone.2⟩

end CachedMoe.Storage
