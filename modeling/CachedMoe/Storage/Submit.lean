import CachedMoe.Storage.Completion

/-! # Refused submits

    `IoEngine::submit` as one call, and what a refused call leaves behind. The route is chosen
    and charged before the request is checked: a request routed whole to one source is charged
    there, and none of the errors that follow gives all of it back. -/

namespace CachedMoe.Storage

open CachedMoe Engine

namespace Engine

/-- `submit`, with no other thread at work in between; `running` is `running_`. -/
def submit (cfg : Config) (running : Bool) (s : Engine) (req : IoRequest) : Result Nat × Engine :=
  if running = false then (fail .FailedPrecondition "IoEngine is not running", s)
  else if (cfg.files req.file).is_open = false then
    (fail .InvalidArgument "IoRequest has no open file", s)
  else
    let p := s.count
    let s := s.enter cfg req
    match check_early (s.reqs p).req with
    | .error e => (.error e, s.plan cfg p)
    | .ok _ =>
      match check_guarded cfg (s.reqs p).req with
      | .error e => (.error e, s.plan cfg p)
      | .ok _ => (.ok p, (s.plan cfg p).enqueue p)

/-- What a refused `submit` may not touch: the charges of the router, the bytes the static
    split goes by, and the counts of outstanding requests. -/
structure SameCharges (s s' : Engine) : Prop where
  outstanding : s'.src_outstanding = s.src_outstanding
  inflight : s'.src_inflight = s.src_inflight
  split : s'.static_split_bytes = s.static_split_bytes
  requests : s'.outstanding_requests = s.outstanding_requests
  p0 : s'.p0_outstanding = s.p0_outstanding

/-- The request is charged to one source, as a whole. -/
def routed_whole (cfg : Config) (running : Bool) (s : Engine) (req : IoRequest) : Bool :=
  running && (cfg.files req.file).is_open &&
    match s.route cfg req with
    | .whole .. => true
    | .unrouted | .striped .. => false

end Engine

variable {cfg : Config} {s : Engine} {req : IoRequest} {running : Bool}

/-! ### What a refusal leaves -/

section Refused

variable {p : Nat} {e : Status}

theorem Engine.SameCharges.refl (s : Engine) : s.SameCharges s := ⟨rfl, rfl, rfl, rfl, rfl⟩

theorem Engine.SameCharges.trans {s₁ s₂ s₃ : Engine} (h : s₁.SameCharges s₂) (h' : s₂.SameCharges s₃) :
    s₁.SameCharges s₃ :=
  ⟨h'.outstanding.trans h.outstanding, h'.inflight.trans h.inflight, h'.split.trans h.split,
    h'.requests.trans h.requests, h'.p0.trans h.p0⟩

/-- A call that gets as far as the route and is refused: by an early check, or by one of those
    the guard covers. -/
theorem submit_refused (hopen : (cfg.files req.file).is_open = true)
    (hrefused : (s.submit cfg true req).1 = .error e) :
    (s.submit cfg true req).2 = (s.enter cfg req).plan cfg s.count ∧
    (check_early ((s.enter cfg req).reqs s.count).req = .error e ∨
      check_early ((s.enter cfg req).reqs s.count).req = .ok () ∧
        check_guarded cfg ((s.enter cfg req).reqs s.count).req = .error e) := by
  unfold Engine.submit at hrefused ⊢
  simp only [hopen, Bool.true_eq_false, if_false] at hrefused ⊢
  cases hearly : check_early ((s.enter cfg req).reqs s.count).req with
  | error e' =>
    rw [hearly] at hrefused
    cases hrefused
    exact ⟨rfl, .inl rfl⟩
  | ok u =>
    cases hguard : check_guarded cfg ((s.enter cfg req).reqs s.count).req with
    | error e' =>
      rw [hearly] at hrefused
      dsimp only at hrefused
      rw [hguard] at hrefused
      cases hrefused
      exact ⟨rfl, .inr ⟨rfl, rfl⟩⟩
    | ok v =>
      rw [hearly] at hrefused
      dsimp only at hrefused
      rw [hguard] at hrefused
      cases hrefused

/-- The guard is not armed yet. -/
theorem plan_early (cfg : Config) (hearly : check_early (s.reqs p).req = .error e) :
    s.SameCharges (s.plan cfg p) := by
  unfold Engine.plan
  dsimp only
  rw [hearly]
  exact ⟨rfl, rfl, rfl, rfl, rfl⟩

/-- The guard gives the charge of a routed request back, and none of the static split. -/
theorem plan_guarded (hearly : check_early (s.reqs p).req = .ok ())
    (hguard : check_guarded cfg (s.reqs p).req = .error e) :
    (s.plan cfg p).static_split_bytes = s.static_split_bytes ∧
    ((s.reqs p).routed = false → s.SameCharges (s.plan cfg p)) := by
  unfold Engine.plan
  dsimp only
  rw [hearly, hguard]
  dsimp only
  unfold give_back_route
  constructor
  · split
    · rfl
    · rfl
  · intro hrouted
    rw [hrouted]
    exact ⟨rfl, rfl, rfl, rfl, rfl⟩

/-! ### What the route charges -/

/-- A route to no single source charges nothing yet. -/
theorem enter_unrouted (hroute : ∀ source file, s.route cfg req ≠ .whole source file) :
    s.SameCharges (s.enter cfg req) ∧ ((s.enter cfg req).reqs s.count).routed = false := by
  unfold Engine.enter
  split
  · exact ⟨⟨rfl, rfl, rfl, rfl, rfl⟩, congrArg Pending.routed (set_req_self s _ _)⟩
  · exact ⟨⟨rfl, rfl, rfl, rfl, rfl⟩, congrArg Pending.routed (set_req_self s _ _)⟩
  next source file hwhole => exact absurd hwhole (hroute source file)

theorem enter_routed {source file : Nat} (hroute : s.route cfg req = .whole source file) :
    (s.enter cfg req).src_inflight = bump s.src_inflight source 1 ∧
    (s.enter cfg req).static_split_bytes = bump s.static_split_bytes source req.bytes ∧
    ((s.enter cfg req).reqs s.count).req.bytes = req.bytes := by
  unfold Engine.enter
  rw [hroute]
  refine ⟨rfl, rfl, ?_⟩
  exact congrArg (fun r : Pending => r.req.bytes) (set_req_self s _ _)

theorem bump_ne {f : Nat → Nat} {i n : Nat} (hn : n ≠ 0) : bump f i n ≠ f := by
  intro heq
  have hi := congrFun heq i
  rw [bump, Function.update_self] at hi
  omega

theorem refused_whole {source file : Nat} (hopen : (cfg.files req.file).is_open = true)
    (hroute : s.route cfg req = .whole source file)
    (hrefused : (s.submit cfg true req).1 = .error e) :
    ¬ s.SameCharges (s.submit cfg true req).2 := by
  obtain ⟨hinflight, hsplit, hbytes⟩ := enter_routed hroute
  obtain ⟨hstate, hcheck⟩ := submit_refused hopen hrefused
  rw [hstate]
  intro hsame
  rcases hcheck with hearly | ⟨hearly, hguard⟩
  · -- the source counts one request more, for good
    have hkeep := (plan_early cfg hearly).inflight
    rw [hsame.inflight, hinflight] at hkeep
    exact bump_ne Nat.one_ne_zero hkeep.symm
  · -- the charge is given back, the bytes of the static split are not
    have hkeep := (plan_guarded hearly hguard).1
    rw [hsame.split, hsplit] at hkeep
    refine bump_ne ?_ hkeep.symm
    rw [← hbytes]
    exact (check_early_ok hearly).2

theorem refused_unrouted (hopen : (cfg.files req.file).is_open = true)
    (hroute : ∀ source file, s.route cfg req ≠ .whole source file)
    (hrefused : (s.submit cfg true req).1 = .error e) :
    s.SameCharges (s.submit cfg true req).2 := by
  obtain ⟨hsame, hrouted⟩ := enter_unrouted hroute
  obtain ⟨hstate, hcheck⟩ := submit_refused hopen hrefused
  rw [hstate]
  rcases hcheck with hearly | ⟨hearly, hguard⟩
  · exact hsame.trans (plan_early cfg hearly)
  · exact hsame.trans ((plan_guarded hearly hguard).2 hrouted)

/-- A refused `submit` leaves every charge and count as it was if and only if the request was
    not routed whole to one source. One that was keeps its source busy after an early error,
    and stays in the static split after a later one. -/
theorem refused_submit_charges_nothing (hrefused : (s.submit cfg running req).1 = .error e) :
    s.SameCharges (s.submit cfg running req).2 ↔ s.routed_whole cfg running req = false := by
  by_cases hstopped : running = false
  · rw [hstopped]
    exact iff_of_true (SameCharges.refl s) rfl
  obtain rfl : running = true := by simpa using hstopped
  by_cases hclosed : (cfg.files req.file).is_open = false
  · have hstate : (s.submit cfg true req).2 = s := by simp [Engine.submit, hclosed]
    rw [hstate]
    exact iff_of_true (SameCharges.refl s) (by simp [Engine.routed_whole, hclosed])
  have hopen : (cfg.files req.file).is_open = true := by simpa using hclosed
  have hcond : s.routed_whole cfg true req =
      match s.route cfg req with
      | .whole .. => true
      | .unrouted | .striped .. => false := by
    simp [Engine.routed_whole, hopen]
  rw [hcond]
  cases hroute : s.route cfg req with
  | whole source file =>
    exact iff_of_false (refused_whole hopen hroute hrefused) (by simp)
  | unrouted => exact iff_of_true (refused_unrouted hopen (by simp [hroute]) hrefused) rfl
  | striped mask row => exact iff_of_true (refused_unrouted hopen (by simp [hroute]) hrefused) rfl

end Refused

/-- A backfill of the mirrored shard with no destination. -/
def nowhere : IoRequest := { two_pages with dst := 0 }

theorem refused_submit_charges_nothing_nowhere :
    ∃ e, (shallow.submit mirrored true nowhere).1 = .error e ∧
      (shallow.SameCharges (shallow.submit mirrored true nowhere).2 ↔
        shallow.routed_whole mirrored true nowhere = false) :=
  ⟨_, rfl, refused_submit_charges_nothing rfl⟩

/-- The request is refused, and its source counts 8192 bytes and one request more. -/
theorem refused_submit_stays_charged :
    ¬ ∀ (cfg : Config) (running : Bool) (s : Engine) (req : IoRequest) (e : Status),
      (s.submit cfg running req).1 = .error e → s.SameCharges (s.submit cfg running req).2 := by
  intro h
  have hsame := h mirrored true shallow nowhere _ rfl
  have hcharged : (shallow.submit mirrored true nowhere).2.src_inflight 1 = 1 := by decide
  rw [hsame.inflight] at hcharged
  exact absurd hcharged (by decide)

end CachedMoe.Storage
