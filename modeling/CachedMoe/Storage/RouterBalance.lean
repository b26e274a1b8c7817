import CachedMoe.Storage.Failover
import CachedMoe.Storage.SourceRouter

/-! # The balance of the sources

    How evenly the router loads its sources. Whatever `submit` charges, a whole request or a
    chunk of a striped one, is a `Pick`; in a run that gives nothing back `src_outstanding_` is
    the sum of the picks. A pick by `pick_source` goes to the candidate that would be through
    with it first, so a source never gets ahead of another, per weight, by more than one pick,
    as long as the other was a candidate whenever the first was charged. -/

namespace CachedMoe.Storage

open CachedMoe Engine Balance

/-! ### Picks -/

/-- One charge of the router. -/
structure Pick where
  source : Nat
  bytes : Nat
  /-- The sources `pick_source` chose among; none where the static split chose. -/
  compared : Mask

def charge (outstanding : Nat → Nat) (k : Pick) : Nat → Nat :=
  bump outstanding k.source k.bytes

/-- The bytes of the largest pick. -/
def largest (ks : List Pick) : Nat := (ks.map Pick.bytes).foldr max 0

namespace Engine

/-- The charge of a request that is routed whole. -/
def whole_picks (cfg : Config) (s : Engine) (req : IoRequest) : List Pick :=
  match cfg.alts req.file, s.route cfg req with
  | some row, .whole source _ =>
    let statik := cfg.static_split && req.priority == .BlockingMiss
    [{ source, bytes := req.bytes, compared := fun i => s.candidates cfg row i && !statik }]
  | _, _ => []

/-- The charges of a striped request, chunk by chunk. -/
def stripe_picks (cfg : Config) (mask : Mask) (row : Nat → Option Nat) :
    Striping → List Chunk → List Pick
  | _, [] => []
  | t, c :: cs =>
    { source := stripe_source cfg mask row t c, bytes := c.bytes, compared := mask } ::
      stripe_picks cfg mask row (stripe_chunk cfg mask row t c) cs

/-- What a step charges. -/
def step_picks (cfg : Config) (s : Engine) : Action → List Pick
  | .submit req => if (cfg.files req.file).is_open then s.whole_picks cfg req else []
  | .plan p =>
    let r := s.reqs p
    match check_early r.req, check_guarded cfg r.req, r.stripe_mask with
    | .ok _, .ok _, some mask =>
      stripe_picks cfg mask r.src_file
        { outstanding := s.src_outstanding, inflight := s.src_inflight } (planned cfg r).chunks
    | _, _, _ => []
  | _ => []

/-- What the steps of a run charge, in their order. -/
def run_picks (cfg : Config) : Engine → List Action → List Pick
  | _, [] => []
  | s, a :: as =>
    match s.step cfg a with
    | some s' => s.step_picks cfg a ++ run_picks cfg s' as
    | none => []

end Engine

/-- The step gives no charge back: `submit` refuses no request it has routed, and no striped
    request is cancelled, no striped chunk comes in and no routed request finishes. -/
def KeepsCharges (cfg : Config) (s : Engine) : Action → Prop
  | .plan p =>
    (s.reqs p).routed = true → (check_early (s.reqs p).req).isOk = true →
      (check_guarded cfg (s.reqs p).req).isOk = true
  | .uncharge p => any_source (s.reqs p).src_used = false
  | .poll cid _ _ _ | .refusal cid => (s.chunk_owner cid).all (fun c => c.src.isNone) = true
  | .finish =>
    match s.finishing with
    | some (p, .release) => (s.reqs p).routed = false ∧ any_source (s.reqs p).src_used = false
    | _ => True
  | _ => True

variable {cfg : Config} {W : SourceWeights} {s s' : Engine}

/-! ### Picks by the rule -/

section Chosen

variable {outstanding : Nat → Nat} {ks ks' : List Pick} {i j b : Nat}

/-- Each pick goes where it would be through no later than on any source it was compared with. -/
def Chosen (W : SourceWeights) : (Nat → Nat) → List Pick → Prop
  | _, [] => True
  | outstanding, k :: ks =>
    (∀ t < W.count, k.compared t = true →
      W.eta outstanding k.bytes k.source ≤ W.eta outstanding k.bytes t) ∧
    Chosen W (charge outstanding k) ks

theorem chosen_append : Chosen W outstanding (ks ++ ks') ↔
    Chosen W outstanding ks ∧ Chosen W (ks.foldl charge outstanding) ks' := by
  induction ks generalizing outstanding with
  | nil => simp [Chosen]
  | cons k ks ih => simp [Chosen, ih, and_assoc]

theorem largest_cons (k : Pick) (ks : List Pick) : largest (k :: ks) = max k.bytes (largest ks) :=
  rfl

theorem le_charge (outstanding : Nat → Nat) (k : Pick) (j : Nat) :
    outstanding j ≤ charge outstanding k j := by
  unfold charge bump
  by_cases hj : j = k.source
  · rw [hj, Function.update_self]
    exact Nat.le_add_right _ _
  · rw [Function.update_of_ne hj]

/-- The bytes of the sources, as the weights count them. -/
def bytes_on (outstanding : Nat → Nat) (i : Nat) : ℚ := outstanding i

/-- One pick keeps two sources within the largest pick of each other. -/
theorem within_charge {k : Pick} (hi : i < W.count) (hj : j < W.count)
    (hk : ∀ t < W.count, k.compared t = true →
      W.eta outstanding k.bytes k.source ≤ W.eta outstanding k.bytes t)
    (hcompared : k.source = i → k.compared j = true)
    (h : Within W.weight (bytes_on outstanding) b i j) :
    Within W.weight (bytes_on (charge outstanding k)) ((max b k.bytes : Nat) : ℚ) i j := by
  have hgrow : bytes_on outstanding j ≤ bytes_on (charge outstanding k) j :=
    Nat.cast_le.mpr (le_charge outstanding k j)
  by_cases hsource : k.source = i
  · -- `i` itself is charged, and would be through no later than `j`
    have hdue := hk j hj (hcompared hsource)
    rw [hsource] at hdue
    have hload : bytes_on (charge outstanding k) i = bytes_on outstanding i + k.bytes := by
      unfold bytes_on charge bump
      rw [hsource, Function.update_self, Nat.cast_add]
    exact within_of_due (W.weight_pos hi) (W.weight_pos hj) hdue hload hgrow
      (Nat.cast_le.mpr (le_max_right _ _))
  · have hsame : bytes_on (charge outstanding k) i = bytes_on outstanding i := by
      unfold bytes_on charge bump
      rw [Function.update_of_ne (Ne.symm hsource)]
    exact h.mono (W.weight_pos hi).le hsame hgrow (Nat.cast_le.mpr (le_max_left _ _))

/-- Any number of picks. -/
theorem Chosen.within (hi : i < W.count) (hj : j < W.count) (hchosen : Chosen W outstanding ks)
    (hcompared : ∀ k ∈ ks, k.source = i → k.compared j = true)
    (h : Within W.weight (bytes_on outstanding) b i j) :
    Within W.weight (bytes_on (ks.foldl charge outstanding)) ((max b (largest ks) : Nat) : ℚ)
      i j := by
  induction ks generalizing outstanding b with
  | nil => simpa [largest] using h
  | cons k ks ih =>
    obtain ⟨hk, hrest⟩ := hchosen
    have hone := within_charge hi hj hk (hcompared k List.mem_cons_self) h
    have hall := ih hrest (fun k hk => hcompared k (List.mem_cons_of_mem _ hk)) hone
    rw [largest_cons, ← max_assoc]
    exact hall

end Chosen

/-! ### The picks of a step -/

/-- The sources a striped request may use hold the shard. -/
def View.Held (v : View) : Prop :=
  ∀ mask, v.r.stripe_mask = some mask →
    ∀ i, mask i = true → i < kMaxIoSources ∧ (v.r.src_file i).isSome = true

theorem candidates_held {row : Nat → Option Nat} {i : Nat} (h : s.candidates cfg row i = true) :
    i < kMaxIoSources ∧ (row i).isSome = true := by
  simp only [candidates, ThermalGate.live_mask, SourceHealth.live_mask, Bool.and_eq_true,
    decide_eq_true_eq, Option.any_eq_true] at h
  obtain ⟨⟨⟨hlt, f, hf, _⟩, _⟩, _⟩ := h
  exact ⟨hlt, by simp [hf]⟩

/-- A request routed whole goes to the source the rule in force picked. -/
theorem route_whole {req : IoRequest} {source file : Nat}
    (h : s.route cfg req = .whole source file) :
    ∃ row, cfg.alts req.file = some row ∧ source =
      if (cfg.static_split && req.priority == .BlockingMiss) = true then
        cfg.pick_static s.static_split_bytes (s.candidates cfg row) req.bytes
      else cfg.pick_source s.src_outstanding (s.candidates cfg row) req.bytes := by
  unfold Engine.route at h
  split at h
  · split at h
    · cases h
    next row halts =>
      refine ⟨row, halts, ?_⟩
      dsimp only at h
      generalize (if (cfg.static_split && req.priority == .BlockingMiss) = true then
          cfg.pick_static s.static_split_bytes (s.candidates cfg row) req.bytes
          else cfg.pick_source s.src_outstanding (s.candidates cfg row) req.bytes) = pick at h ⊢
      split at h
      · cases h
      · split at h
        · split at h
          · cases h
            rfl
          · cases h
        · cases h
  · cases h

theorem route_striped {req : IoRequest} {mask : Mask} {row : Nat → Option Nat}
    (h : s.route cfg req = .striped mask row) :
    cfg.alts req.file = some row ∧ mask = s.candidates cfg row := by
  unfold Engine.route at h
  split at h
  · split at h
    · cases h
    next row' halts =>
      dsimp only at h
      generalize (if (cfg.static_split && req.priority == .BlockingMiss) = true then
          cfg.pick_static s.static_split_bytes (s.candidates cfg row') req.bytes
          else cfg.pick_source s.src_outstanding (s.candidates cfg row') req.bytes) = pick at h
      split at h
      · cases h
        exact ⟨halts, rfl⟩
      · split at h
        · split at h
          · cases h
          · cases h
        · cases h
  · cases h

theorem enter_held (cfg : Config) (s : Engine) (req : IoRequest) :
    View.Held { r := (s.enter cfg req).reqs s.count } := by
  unfold Engine.enter
  split
  · intro mask hmask
    rw [set_req_self] at hmask
    cases hmask
  next mask row hroute =>
    intro mask' hmask i hi
    simp only [set_req_self, Option.some.injEq] at hmask ⊢
    subst hmask
    have hmask := (route_striped hroute).2
    rw [hmask] at hi
    exact candidates_held hi
  · intro mask hmask
    rw [set_req_self] at hmask
    cases hmask

theorem View.Held.of_same {v v' : View} (h : v.Held) (hmask : v'.r.stripe_mask = v.r.stripe_mask)
    (hfile : v'.r.src_file = v.r.src_file) : v'.Held := by
  unfold View.Held at h ⊢
  rw [hmask, hfile]
  exact h

theorem counted_row (r : Pending) (moved : Nat) (status : Status) :
    (counted r moved status).stripe_mask = r.stripe_mask ∧
      (counted r moved status).src_file = r.src_file := by
  unfold counted
  dsimp only
  split
  · exact ⟨rfl, rfl⟩
  · exact ⟨rfl, rfl⟩

theorem discharged_row (r : Pending) (c : InflightChunk) (ok : Bool) :
    (discharged r c ok).stripe_mask = r.stripe_mask ∧
      (discharged r c ok).src_file = r.src_file := by
  unfold discharged
  split
  · exact ⟨rfl, rfl⟩
  · exact ⟨rfl, rfl⟩

theorem completed_row (r : Pending) : (completed r).stripe_mask = r.stripe_mask ∧
    (completed r).src_file = r.src_file := by
  obtain ⟨ph, heq, _⟩ := completed_eq r
  rw [heq]
  exact ⟨rfl, rfl⟩

theorem released_row (r : Pending) : (released r).stripe_mask = r.stripe_mask ∧
    (released r).src_file = r.src_file := by
  unfold released
  split
  · exact ⟨rfl, rfl⟩
  · split
    · exact ⟨rfl, rfl⟩
    · exact ⟨rfl, rfl⟩

/-- No move changes the sources of a request. -/
theorem View.Held.move {v v' : View} {l : Option Completion} (h : v.Held)
    (hm : Move cfg l v v') : v'.Held := by
  cases hm with
  | stay | dequeue _ | reject _ | plan _ _ _ _ | stripe _ _ _ _ _ | enqueue _ | cancel _ _
  | uncharge _ | call_cancelled _ | issue _ _ _ _ _ | reset _ | requeue _ | deliver _
  | settle _ => exact h
  | @complete _ w moved status junk _ _ r hr =>
    subst hr
    have hcounted := counted_row (landed cfg v.r w moved status junk) moved status
    have hdone := discharged_row (counted (landed cfg v.r w moved status junk) moved status)
      w.inflight (status.code == .Ok)
    have hlast := completed_row (discharged
      (counted (landed cfg v.r w moved status junk) moved status) w.inflight (status.code == .Ok))
    exact h.of_same (hlast.1.trans (hdone.1.trans hcounted.1))
      (hlast.2.trans (hdone.2.trans hcounted.2))
  | release => exact h.of_same (released_row v.r).1 (released_row v.r).2

/-- In every run the sources of every request hold its shard. -/
theorem reachable_held (h : LTS.Reachable (engine_system cfg) s) {p : Nat} (hp : p < s.count) :
    (s.view p).Held := by
  have hall : LTS.Reachable ((engine_system cfg).restrict fun _ _ => True) s :=
    (h.restrict (P := fun _ => True) (fun _ _ => trivial)
      (fun _ _ _ _ _ => ⟨trivial, trivial⟩)).1
  have hviews := reachable_views (P := View.Held) (enter_held cfg)
    (fun _ _ _ _ _ _ hv hm => hv.move hm) hall
  exact hviews.2 p hp

/-! ### What a step charges -/

theorem enter_charges_picks (cfg : Config) (s : Engine) (req : IoRequest) :
    (s.enter cfg req).src_outstanding = (s.whole_picks cfg req).foldl charge s.src_outstanding := by
  unfold Engine.enter whole_picks
  cases hroute : s.route cfg req with
  | unrouted =>
    cases cfg.alts req.file with
    | none => rfl
    | some row => rfl
  | striped mask row =>
    rw [(route_striped hroute).1]
    rfl
  | whole source file =>
    obtain ⟨row, halts, _⟩ := route_whole hroute
    rw [halts]
    rfl

theorem whole_picks_chosen (hrule : cfg.pick_source = W.pick) (s : Engine) (req : IoRequest) :
    Chosen W s.src_outstanding (s.whole_picks cfg req) := by
  unfold whole_picks
  split
  next row source file halts hroute =>
    refine ⟨?_, trivial⟩
    intro t ht hcompared
    obtain ⟨row', halts', hsource⟩ := route_whole hroute
    obtain rfl : row = row' := Option.some.inj (halts.symm.trans halts')
    dsimp only at hcompared ⊢
    rw [Bool.and_eq_true, Bool.not_eq_true'] at hcompared
    obtain ⟨hcand, hgreedy⟩ := hcompared
    rw [hgreedy, if_neg Bool.false_ne_true, hrule] at hsource
    rcases W.pick_spec s.src_outstanding (s.candidates cfg row) req.bytes with
      ⟨_, hnone⟩ | ⟨_, _, hleast⟩
    · rw [hnone t ht] at hcand
      cases hcand
    · rw [hsource]
      exact (hleast t ht hcand).1
  · trivial

theorem stripe_picks_charge (cfg : Config) (mask : Mask) (row : Nat → Option Nat) (t : Striping)
    (cs : List Chunk) : (stripe_picks cfg mask row t cs).foldl charge t.outstanding =
      (cs.foldl (stripe_chunk cfg mask row) t).outstanding := by
  induction cs generalizing t with
  | nil => rfl
  | cons c cs ih => exact ih (stripe_chunk cfg mask row t c)

/-- Where the sources of a striped request hold its shard, the fallback to the primary is not
    taken. -/
theorem stripe_source_least (hrule : cfg.pick_source = W.pick) {mask : Mask}
    {row : Nat → Option Nat}
    (hheld : ∀ i, mask i = true → i < kMaxIoSources ∧ (row i).isSome = true) (t : Striping)
    (c : Chunk) {j : Nat} (hj : j < W.count) (hmask : mask j = true) :
    W.eta t.outstanding c.bytes (stripe_source cfg mask row t c) ≤
      W.eta t.outstanding c.bytes j := by
  rcases W.pick_spec t.outstanding mask c.bytes with ⟨_, hnone⟩ | ⟨_, hbit, hleast⟩
  · rw [hnone j hj] at hmask
    cases hmask
  · have hpick : stripe_source cfg mask row t c = W.pick t.outstanding mask c.bytes := by
      unfold stripe_source
      rw [hrule]
      exact if_pos (hheld _ hbit)
    rw [hpick]
    exact (hleast j hj hmask).1

theorem stripe_picks_chosen (hrule : cfg.pick_source = W.pick) {mask : Mask}
    {row : Nat → Option Nat}
    (hheld : ∀ i, mask i = true → i < kMaxIoSources ∧ (row i).isSome = true) (t : Striping)
    (cs : List Chunk) : Chosen W t.outstanding (stripe_picks cfg mask row t cs) := by
  induction cs generalizing t with
  | nil => trivial
  | cons c cs ih =>
    exact ⟨fun j hj hmask => stripe_source_least hrule hheld t c hj hmask,
      ih (stripe_chunk cfg mask row t c)⟩

/-- A planned request is charged chunk by chunk when it is striped, and not again otherwise. -/
theorem plan_charges (cfg : Config) (s : Engine) (p : Nat)
    (hkeep : KeepsCharges cfg s (.plan p)) :
    (s.plan cfg p).src_outstanding =
      (s.step_picks cfg (.plan p)).foldl charge s.src_outstanding := by
  unfold Engine.plan step_picks
  dsimp only
  cases hearly : check_early (s.reqs p).req with
  | error e => rfl
  | ok _ =>
    cases hguard : check_guarded cfg (s.reqs p).req with
    | error e =>
      -- a refused request was not routed, so the guard gives nothing back
      have hunrouted : (s.reqs p).routed = false := by
        by_contra hrouted
        have hok := hkeep (by simpa using hrouted) (by rw [hearly]; rfl)
        rw [hguard] at hok
        cases hok
      dsimp only
      unfold give_back_route
      rw [hunrouted]
      rfl
    | ok _ =>
      have hmask : (planned cfg (s.reqs p)).stripe_mask = (s.reqs p).stripe_mask := rfl
      dsimp only
      rw [hmask]
      cases (s.reqs p).stripe_mask with
      | none => rfl
      | some mask =>
        exact (stripe_picks_charge cfg mask (s.reqs p).src_file _
          (planned cfg (s.reqs p)).chunks).symm

theorem completion_charges_none {w : PickedChunk} {cid moved : Nat} {status : Status}
    {junk : Nat → UInt8} (hkeep : (s.chunk_owner cid).all (fun c => c.src.isNone) = true) :
    ((s.land cfg w moved status junk).handle_completion cid moved status).src_outstanding =
      s.src_outstanding := by
  unfold handle_completion
  have howner : (s.land cfg w moved status junk).chunk_owner cid = s.chunk_owner cid := rfl
  rw [howner]
  cases hc : s.chunk_owner cid with
  | none => rfl
  | some c =>
    rw [hc] at hkeep
    have hsrc : c.src = none := by simpa using hkeep
    dsimp only [discharge]
    rw [hsrc]
    rfl

theorem keeps_none {cid : Nat} {a : Action} (ha : Reports cid a) (hkeep : KeepsCharges cfg s a) :
    (s.chunk_owner cid).all (fun c => c.src.isNone) = true ∧ s.step_picks cfg a = [] := by
  rcases ha with ⟨moved, status, junk, rfl⟩ | rfl
  · exact ⟨hkeep, rfl⟩
  · exact ⟨hkeep, rfl⟩

theorem picks_of_adjusts {a : Action} (ha : a.adjusts = true) : s.step_picks cfg a = [] := by
  cases a with
  | do_submit | drop_source | readmit_source | thermal | set_p0_depth => rfl
  | _ => cases ha

theorem finish_charges (hs : s.finish = some s') (hkeep : KeepsCharges cfg s .finish) :
    s'.src_outstanding = s.src_outstanding := by
  unfold Engine.finish at hs
  unfold KeepsCharges at hkeep
  split at hs
  · cases hs
  next p hfin =>
    cases hs
    rw [hfin] at hkeep
    obtain ⟨hunrouted, hunused⟩ := hkeep
    show (s.give_back (s.reqs p)).src_outstanding = s.src_outstanding
    unfold give_back
    rw [hunrouted, hunused]
    rfl
  · cases hs
    rfl
  · cases hs
    rfl
  · cases hs
    rfl
  · cases hs
    rfl

theorem step_charges {a : Action} (hs : s.step cfg a = some s') (hkeep : KeepsCharges cfg s a) :
    s'.src_outstanding = (s.step_picks cfg a).foldl charge s.src_outstanding := by
  cases step_cases hs with
  | @enter req hopen =>
    rw [step_picks, if_pos hopen]
    exact enter_charges_picks cfg s req
  | closed hclosed =>
    rw [step_picks, if_neg hclosed]
    rfl
  | @plan p => exact plan_charges cfg s p hkeep
  | @cancel p =>
    rcases cancel_cases s p with heq | ⟨_, _, _, _, heq⟩
    · rw [heq]
      rfl
    · rw [heq]
      rfl
  | @uncharge p =>
    have hnone : any_source (s.reqs p).src_used = false := hkeep
    unfold Engine.uncharge
    dsimp only
    rw [hnone]
    rfl
  | @issue waiters recent =>
    rcases issue_cases cfg s waiters recent with heq | ⟨p, _, c, _, hc, heq⟩
    · rw [heq]
      rfl
    · rw [heq, issue_chunk_eq cfg (s := s.pop_issued) hc]
      rfl
  | completes ha hcid _ hc =>
    subst hcid
    obtain ⟨hnone, hpicks⟩ := keeps_none ha hkeep
    rw [hpicks, hc.eq]
    exact completion_charges_none hnone
  | finish hs => exact finish_charges hs hkeep
  | adjusts ha =>
    rw [picks_of_adjusts ha]
    rfl
  | enqueue | call_cancelled => rfl

/-- Whatever a step charges goes where the rule says. -/
theorem step_chosen (hrule : cfg.pick_source = W.pick)
    (hreach : LTS.Reachable (engine_system cfg) s) {a : Action} (hs : s.step cfg a = some s') :
    Chosen W s.src_outstanding (s.step_picks cfg a) := by
  cases a with
  | submit req =>
    simp only [step_picks]
    split
    · exact whole_picks_chosen hrule s req
    · trivial
  | plan p =>
    simp only [Engine.step] at hs
    split at hs
    next hen =>
      simp only [step_picks]
      split
      next mask _ _ hmask =>
        exact stripe_picks_chosen hrule (reachable_held hreach hen.1 mask hmask)
          { outstanding := s.src_outstanding, inflight := s.src_inflight } _
      · trivial
    · cases hs
  | _ => trivial

/-! ### Runs -/

theorem run_picks_cons {a : Action} {as : List Action} (hs : s.step cfg a = some s') :
    run_picks cfg s (a :: as) = s.step_picks cfg a ++ run_picks cfg s' as := by
  rw [run_picks, hs]

/-- A run that gives nothing back charges its picks, each where the rule says. -/
theorem run_charges (hrule : cfg.pick_source = W.pick) {as : List Action}
    (hreach : LTS.Reachable (engine_system cfg) s)
    (hrun : LTS.Run ((engine_system cfg).restrict (KeepsCharges cfg)) s as s') :
    s'.src_outstanding = (run_picks cfg s as).foldl charge s.src_outstanding ∧
      Chosen W s.src_outstanding (run_picks cfg s as) := by
  induction hrun with
  | nil s => exact ⟨rfl, trivial⟩
  | @cons s s₁ s₂ a as hstep hrest ih =>
    have hs : s.step cfg a = some s₁ := hstep.1
    obtain ⟨hsum, hchosen⟩ := ih (hreach.step hs)
    have hone := step_charges hs hstep.2
    rw [run_picks_cons hs, List.foldl_append, chosen_append, ← hone]
    exact ⟨hsum, step_chosen hrule hreach hs, hchosen⟩

/-! ### The balance -/

section Balanced

variable {s₀ : Engine} {as : List Action}

theorem run_within (hrule : cfg.pick_source = W.pick) (hinit : (engine_system cfg).init s₀)
    (hrun : LTS.Run ((engine_system cfg).restrict (KeepsCharges cfg)) s₀ as s) {i j : Nat}
    (hi : i < W.count) (hj : j < W.count)
    (hcompared : ∀ k ∈ run_picks cfg s₀ as, k.source = i → k.compared j = true) :
    Within W.weight (bytes_on s.src_outstanding) (largest (run_picks cfg s₀ as)) i j := by
  obtain ⟨hsum, hchosen⟩ := run_charges hrule (.of_init hinit) hrun
  obtain ⟨_, _, _, _, _, _, hzero, _⟩ := hinit
  have hstart : Within W.weight (bytes_on s₀.src_outstanding) ((0 : Nat) : ℚ) i j := by
    unfold Within bytes_on
    simp [hzero]
  have hall := hchosen.within hi hj hcompared hstart
  rw [← hsum, Nat.zero_max] at hall
  exact hall

/-- The sources are balanced. In every run from the declaration of the sources that gives no
    charge back, whatever was submitted, dropped, readmitted or rested on the way: a source `i`
    is ahead of a source `j`, per weight, by at most the largest pick, provided `j` was a
    candidate of every pick that charged `i`. Among sources that were candidates of all each
    other's picks none is behind its weighted share by more than the largest pick, or ahead of
    it by more than its part of the largest pick for each of the others. -/
theorem routing_balanced (hrule : cfg.pick_source = W.pick)
    (hinit : (engine_system cfg).init s₀)
    (hrun : LTS.Run ((engine_system cfg).restrict (KeepsCharges cfg)) s₀ as s) :
    (∀ i < W.count, ∀ j < W.count,
      (∀ k ∈ run_picks cfg s₀ as, k.source = i → k.compared j = true) →
        (s.src_outstanding i : ℚ) * W.weight j ≤
          (s.src_outstanding j + largest (run_picks cfg s₀ as)) * W.weight i) ∧
    ∀ S ⊆ Finset.range W.count,
      (∀ k ∈ run_picks cfg s₀ as, k.source ∈ S → ∀ j ∈ S, k.compared j = true) →
        ∀ i ∈ S,
          Balance.share W.weight (bytes_on s.src_outstanding) S i ≤
            s.src_outstanding i + largest (run_picks cfg s₀ as) ∧
          s.src_outstanding i ≤ Balance.share W.weight (bytes_on s.src_outstanding) S i +
            (S.card - 1) * largest (run_picks cfg s₀ as) *
              (W.weight i / ∑ j ∈ S, W.weight j) := by
  have hwithin := fun {i j : Nat} => run_within (i := i) (j := j) hrule hinit hrun
  refine ⟨fun i hi j hj hcompared => hwithin hi hj hcompared, ?_⟩
  intro S hS hcompared i hi
  have hlt : ∀ j ∈ S, j < W.count := fun j hj => Finset.mem_range.mp (hS hj)
  have hpos : ∀ j ∈ S, 0 < W.weight j := fun j hj => W.weight_pos (hlt j hj)
  -- any two sources of `S` compare, in both directions
  have hpair : ∀ j ∈ S, ∀ j' ∈ S,
      Within W.weight (bytes_on s.src_outstanding) (largest (run_picks cfg s₀ as)) j j' := by
    intro j hj j' hj'
    refine hwithin (hlt j hj) (hlt j' hj') fun k hk hsource => ?_
    exact hcompared k hk (hsource ▸ hj) j' hj'
  exact ⟨share_le hpos hi fun j hj => hpair j hj i hi,
    le_share hpos hi fun j hj => hpair i hi j hj⟩

end Balanced

/-! ### Two and three sources -/

instance (cfg : Config) (s : Engine) (a : Action) : Decidable (KeepsCharges cfg s a) :=
  match a with
  | .plan _ => inferInstanceAs (Decidable (_ → _ → _))
  | .uncharge _ | .poll .. | .refusal _ => inferInstanceAs (Decidable (_ = _))
  | .finish =>
    match h : s.finishing with
    | some (p, .release) => decidable_of_iff
        ((s.reqs p).routed = false ∧ any_source (s.reqs p).src_used = false)
        (by simp [KeepsCharges, h])
    | some (_, .reset) | some (_, .requeue) | some (_, .deliver _) | some (_, .settle) | none =>
      isTrue (by simp [KeepsCharges, h])
  | .submit _ | .enqueue _ | .cancel _ | .call_cancelled _ | .issue .. | .do_submit ..
  | .drop_source _ | .readmit_source _ | .thermal .. | .set_p0_depth .. => isTrue trivial

/-- One shard, held by the primary and the first `mirrors` mirrors. -/
def shard_copies (mirrors : Nat) (f : Nat) : Option (Nat → Option Nat) :=
  if f = 0 then some (fun i => if i ≤ mirrors then some i else none) else none

theorem shard_copies_primary (mirrors : Nat) (f : Nat) (row : Nat → Option Nat)
    (h : shard_copies mirrors f = some row) : row 0 = some f := by
  unfold shard_copies at h
  split at h
  next hf =>
    cases h
    rw [hf]
    rfl
  · cases h

theorem page_ne_zero : 4096 ≠ 0 := by
  decide

theorem bg_chunk_ne_zero : 4 * 2 ^ 20 ≠ 0 := by
  decide

/-- The shard has three pages. -/
def mirrored_on (mirrors : Nat) (W : SourceWeights) : Config where
  files := fun _ => { size := 12288 }
  alts := shard_copies mirrors
  mirrors_on := true
  stripe := true
  pick_source := W.pick
  p0_chunk_bytes := 4096
  p0_chunk_pos := page_ne_zero
  bg_chunk_pos := bg_chunk_ne_zero
  alts_primary := shard_copies_primary mirrors
  alts_size := fun _ _ _ _ _ _ => rfl
  alts_content := fun _ _ _ _ _ _ => rfl

/-- A backfill of one page. -/
def one_page : IoRequest := { bytes := 4096, dst := 4096 }

def idle : Engine := { reqs := fun _ => { req := one_page } }

theorem idle_init (cfg : Config) : (engine_system cfg).init idle :=
  ⟨rfl, rfl, rfl, rfl, rfl, rfl, rfl, rfl, rfl, rfl⟩

theorem idle_run (cfg : Config) (ok : Engine → Action → Prop) [∀ s a, Decidable (ok s a)]
    (as : List Action) (P : Engine → Bool)
    (h : (LTS.execute (LTS.guarded (Engine.step cfg) ok) idle as).any P = true) :
    ∃ s, LTS.Run ((engine_system cfg).restrict ok) idle as s ∧ P s = true :=
  LTS.Run.of_guarded _ ok idle as P h

/-- Two drives, one twice as fast. -/
def two_drives : SourceWeights := set_sources 2 [2, 1]

/-- A striped read of the whole shard, and then a backfill. -/
def stripe_and_backfill : List Action :=
  [.submit { one_page with priority := .BlockingMiss, bytes := 12288 }, .plan 0, .enqueue 0,
    .submit one_page, .plan 1, .enqueue 1]

/-- The faster drive gets two of the three chunks, and the backfill. -/
theorem routing_balanced_stripe :
    ∃ s, LTS.Run ((engine_system (mirrored_on 1 two_drives)).restrict
        (KeepsCharges (mirrored_on 1 two_drives))) idle stripe_and_backfill s ∧
      s.src_outstanding 0 = 12288 ∧ s.src_outstanding 1 = 4096 ∧
      (s.src_outstanding 0 : ℚ) * 1 ≤ (s.src_outstanding 1 + 4096) * 2 ∧
      Balance.share two_drives.weight (bytes_on s.src_outstanding) {0, 1} 1 ≤
        s.src_outstanding 1 + 4096 := by
  obtain ⟨s, hrun, hs⟩ := idle_run (mirrored_on 1 two_drives)
    (KeepsCharges (mirrored_on 1 two_drives)) stripe_and_backfill
    (fun s => s.src_outstanding 0 = 12288 ∧ s.src_outstanding 1 = 4096) (by decide +kernel)
  simp only [Bool.decide_and, Bool.and_eq_true, decide_eq_true_eq] at hs
  have hlargest :
      largest (run_picks (mirrored_on 1 two_drives) idle stripe_and_backfill) = 4096 := by
    decide +kernel
  have hweights : two_drives.weight 0 = 2 ∧ two_drives.weight 1 = 1 := by decide +kernel
  obtain ⟨hpair, hshare⟩ := routing_balanced (W := two_drives) rfl (idle_init _) hrun
  have h01 := hpair 0 (by decide) 1 (by decide) (by decide +kernel)
  have h1 := (hshare {0, 1} (by decide) (by decide +kernel) 1 (by decide)).1
  rw [hlargest, hweights.1, hweights.2] at h01
  rw [hlargest] at h1
  exact ⟨s, hrun, hs.1, hs.2, h01, h1⟩

/-! ### Healthy sources -/

/-- No source is dropped, and none rests. -/
def AllHealthy (W : SourceWeights) (s : Engine) : Prop :=
  ∀ i < W.count, s.src_health.dropped i = false ∧ s.thermal.resting i = false

instance (W : SourceWeights) (s : Engine) : Decidable (AllHealthy W s) :=
  inferInstanceAs (Decidable (∀ i < W.count, _ ∧ _))

/-- Nothing is given back, and every source stays healthy. -/
def KeepsHealthy (cfg : Config) (W : SourceWeights) (s : Engine) (a : Action) : Prop :=
  KeepsCharges cfg s a ∧ AllHealthy W s

instance (cfg : Config) (W : SourceWeights) (s : Engine) (a : Action) :
    Decidable (KeepsHealthy cfg W s a) :=
  inferInstanceAs (Decidable (_ ∧ _))

def three_alike : SourceWeights := set_sources 3 [1, 1, 1]

def one_heavy : SourceWeights := set_sources 3 [4, 1, 1]

/-- Four backfills of a page. -/
def four_backfills : List Action := List.replicate 4 (.submit one_page)

/-- Health is not enough for either half. A healthy source that does not hold the shard is left
    out while the others are charged in turn; and of three sources that all hold it, the one
    with four times the weight of each other takes four requests before another takes one. -/
theorem healthy_sources_unbalanced :
    (¬ ∀ (cfg : Config) (W : SourceWeights) (s₀ s : Engine) (as : List Action),
      cfg.pick_source = W.pick → (engine_system cfg).init s₀ →
      LTS.Run ((engine_system cfg).restrict (KeepsHealthy cfg W)) s₀ as s → AllHealthy W s →
      ∀ i < W.count, ∀ j < W.count, (s.src_outstanding i : ℚ) * W.weight j ≤
        (s.src_outstanding j + largest (run_picks cfg s₀ as)) * W.weight i) ∧
    ¬ ∀ (cfg : Config) (W : SourceWeights) (s₀ s : Engine) (as : List Action),
      cfg.pick_source = W.pick → (engine_system cfg).init s₀ →
      LTS.Run ((engine_system cfg).restrict (KeepsHealthy cfg W)) s₀ as s → AllHealthy W s →
      (∀ k ∈ run_picks cfg s₀ as, ∀ j < W.count, k.compared j = true) →
      ∀ i < W.count, s.src_outstanding i ≤
        Balance.share W.weight (bytes_on s.src_outstanding) (Finset.range W.count) i +
          largest (run_picks cfg s₀ as) := by
  constructor
  · intro h
    obtain ⟨s, hrun, hs⟩ := idle_run (mirrored_on 1 three_alike)
      (KeepsHealthy (mirrored_on 1 three_alike) three_alike) four_backfills
      (fun s => AllHealthy three_alike s ∧ s.src_outstanding 0 = 8192 ∧ s.src_outstanding 2 = 0)
      (by decide +kernel)
    simp only [Bool.decide_and, Bool.and_eq_true, decide_eq_true_eq] at hs
    obtain ⟨hhealthy, hzero, htwo⟩ := hs
    have hlargest : largest (run_picks (mirrored_on 1 three_alike) idle four_backfills) = 4096 := by
      decide +kernel
    have hbound := h _ three_alike idle s _ rfl (idle_init _) hrun hhealthy 0 (by decide) 2
      (by decide)
    rw [hlargest, hzero, htwo] at hbound
    exact absurd hbound (by decide +kernel)
  · intro h
    obtain ⟨s, hrun, hs⟩ := idle_run (mirrored_on 2 one_heavy)
      (KeepsHealthy (mirrored_on 2 one_heavy) one_heavy) four_backfills
      (fun s => AllHealthy one_heavy s ∧ s.src_outstanding 0 = 16384 ∧
        s.src_outstanding 1 = 0 ∧ s.src_outstanding 2 = 0) (by decide +kernel)
    simp only [Bool.decide_and, Bool.and_eq_true, decide_eq_true_eq] at hs
    obtain ⟨hhealthy, hzero, hone, htwo⟩ := hs
    have hlargest : largest (run_picks (mirrored_on 2 one_heavy) idle four_backfills) = 4096 := by
      decide +kernel
    -- the other two have nothing, so the share is 4/6 of what source 0 has
    have hshare : Balance.share one_heavy.weight (bytes_on s.src_outstanding)
        (Finset.range one_heavy.count) 0 = 16384 * (4 / 6) := by
      have hcount : one_heavy.count = 3 := rfl
      rw [hcount]
      unfold Balance.share bytes_on
      simp only [Finset.sum_range_succ, Finset.sum_range_zero, hzero, hone, htwo]
      decide +kernel
    have hbound := h _ one_heavy idle s _ rfl (idle_init _) hrun hhealthy (by decide +kernel) 0
      (by decide)
    rw [hlargest, hshare, hzero] at hbound
    exact absurd hbound (by decide +kernel)

end CachedMoe.Storage
