import CachedMoe.Storage.Completion
import CachedMoe.Storage.Meters

/-! # The backend's queue

    `start` resolves the depth of each class from the configuration and the overrides and holds
    P0's and P2's to the backend's `max_queue_depth`; `issue_ready_chunks` counts a chunk when it
    picks it and stops at its class's depth. The backend refuses what its queue has no room for.
    `do_submit` takes that for impossible and fails the chunk.

    Two producers are not held to the depth: an override of the background depth, which `start`
    does not clamp, and the keep-alive pokes of idle mirrors, which share the queue and are not
    counted. Where the depths leave the queue room for the pokes it is never full. -/

namespace CachedMoe.Storage

open CachedMoe Engine

/-! ### Tuning -/

def kBackgroundOpsWhileBusy : Nat := 1
/-- 8 on Windows. -/
def kDefaultSubmitThreads : Nat := 1

structure IoConfig where
  chunk_bytes : Nat := 4 * 2 ^ 20
  max_inflight_bytes : Nat := 32 * 2 ^ 20
  max_inflight_ops : Nat := 8
  p0_chunk_bytes : Nat := 0
  p0_qd : Nat := 0
  engram_qd : Nat := 0
  deriving Repr, DecidableEq

/-- The environment's overrides of the depths and sizes. -/
structure IoOverrides where
  bg_cap_busy : Option Nat := none
  bg_qd : Option Nat := none
  p0_qd : Option Nat := none
  p0_inflight_mb : Option Nat := none
  p0_chunk_mb : Option Nat := none
  engram_qd : Option Nat := none
  submit_threads : Option Nat := none
  throttle_engram : Bool := false
  deriving Repr, DecidableEq

structure BackendCaps where
  max_queue_depth : Nat := 64
  max_chunk_bytes : Nat := 32 * 2 ^ 20
  deriving Repr, DecidableEq

/-- `IoEngine::Tuning` with what `submit` and `start` take from it. -/
structure Resolved extends Tuning where
  p0_chunk_bytes : Nat
  submit_threads : Nat

/-- A setting of 0 means the other one. -/
def or_else (value other : Nat) : Nat := if value ≠ 0 then value else other

/-- An override in MiB; 0 is no override. -/
def mib (value : Option Nat) (bytes : Nat) : Nat :=
  if value.getD 0 ≠ 0 then value.getD 0 * 2 ^ 20 else bytes

def resolve_tuning (cfg : IoConfig) (o : IoOverrides) : Resolved :=
  let bg_qd := o.bg_qd.getD (min cfg.max_inflight_ops ({} : IoConfig).max_inflight_ops)
  { p0_qd := o.p0_qd.getD (or_else cfg.p0_qd cfg.max_inflight_ops)
    p0_inflight_bytes := mib o.p0_inflight_mb cfg.max_inflight_bytes
    p0_chunk_bytes := mib o.p0_chunk_mb (or_else cfg.p0_chunk_bytes cfg.chunk_bytes) % 2 ^ 32
    bg_qd
    bg_inflight_bytes := min cfg.max_inflight_bytes ({} : IoConfig).max_inflight_bytes
    bg_cap_busy := o.bg_cap_busy.getD kBackgroundOpsWhileBusy
    throttle_engram := o.throttle_engram
    engram_qd := o.engram_qd.getD (or_else cfg.engram_qd bg_qd)
    submit_threads := min (max (o.submit_threads.getD kDefaultSubmitThreads) 1) 16 }

/-- The tuning `start` leaves: P0's and P2's depth and P0's chunks fit the backend. -/
def start_tuning (caps : BackendCaps) (cfg : IoConfig) (o : IoOverrides) : Resolved :=
  let cfg := { cfg with
    chunk_bytes := min cfg.chunk_bytes caps.max_chunk_bytes
    max_inflight_ops := min cfg.max_inflight_ops caps.max_queue_depth }
  let t := resolve_tuning cfg o
  { t with
    p0_qd := min t.p0_qd caps.max_queue_depth
    engram_qd := min t.engram_qd caps.max_queue_depth
    p0_chunk_bytes := min t.p0_chunk_bytes caps.max_chunk_bytes }

/-- The depths `start` clamps. -/
structure Clamped (depth : Nat) (t : Tuning) : Prop where
  p0 : t.p0_qd ≤ depth
  engram : t.engram_qd ≤ depth

theorem start_clamped (caps : BackendCaps) (cfg : IoConfig) (o : IoOverrides) :
    Clamped caps.max_queue_depth (start_tuning caps cfg o).toTuning :=
  ⟨Nat.min_le_right _ _, Nat.min_le_right _ _⟩

/-- Without an override the background depth fits too. -/
theorem start_background (caps : BackendCaps) (cfg : IoConfig) {o : IoOverrides}
    (h : o.bg_qd = none) : (start_tuning caps cfg o).bg_qd ≤ caps.max_queue_depth := by
  show o.bg_qd.getD (min (min cfg.max_inflight_ops caps.max_queue_depth) 8) ≤ _
  rw [h]
  exact (Nat.min_le_left _ _).trans (Nat.min_le_right _ _)

/-- The depth of the class being issued, as `issue_ready_chunks` takes it. -/
def Engine.qd_cap (s : Engine) (p : Nat) (rescued : Bool) : Nat :=
  let cls := (s.reqs p).req.priority
  if rescued then s.rescue_qd
  else if cls = .BlockingMiss then s.tune.p0_qd
  else if cls = .Engram then s.tune.engram_qd
  else s.tune.bg_qd

/-- No class's depth exceeds it. -/
def deepest (t : Tuning) : Nat := max t.p0_qd (max t.engram_qd t.bg_qd)

/-! ### The queue and its producers -/

/-- The keep-alive: whether it is on, the declared roots, the sources with an open shard. -/
structure KeepAlive where
  on : Bool := false
  roots : Nat := 1
  has_file : Nat → Bool := fun _ => false

/-- The engine, and the sources with a poke at the backend. -/
structure Shared where
  engine : Engine
  pokes : List Nat := []

namespace Shared

/-- What the backend has: the chunks it accepted, and the pokes. -/
def handed (s : Shared) : Nat :=
  (s.engine.wire.countP fun w => s.engine.stage w.req.chunk_id == .accepted) + s.pokes.length

/-- What is on its way to the backend or at it. -/
def committed (s : Shared) : Nat := s.engine.wire.length + s.pokes.length

/-- A full queue accepts nothing. -/
def admits (depth : Nat) (s : Shared) : Result Unit → Bool
  | .ok _ => decide (s.handed < depth)
  | .error _ => true

/-- `keepalive_due`; `idle` says whether the source has been idle for the window. -/
def keepalive_due (ka : KeepAlive) (s : Shared) (src : Nat) (idle : Bool) : Bool :=
  ka.on && ka.has_file src && !s.engine.src_health.dropped src && !s.pokes.contains src &&
    s.engine.src_inflight src == 0 && idle

inductive Action where
  | engine (a : Engine.Action)
  /-- `tick_keepalive` at one source: its poke, accepted by the backend or refused. -/
  | tick (src : Nat) (idle : Bool) (answer : Result Unit)
  | finish_keepalive (src : Nat)

/-- The engine's step, as the backend lets it. -/
def engine_step (cfg : Config) (depth : Nat) (s : Shared) (a : Engine.Action) : Option Shared :=
  let next := (s.engine.step cfg a).map fun e => { s with engine := e }
  match a with
  | .do_submit cid answer =>
    if (s.engine.find_chunk cid).isSome ∧ s.admits depth answer then next else none
  | .set_p0_depth max_queue_depth _ _ => if max_queue_depth = depth then next else none
  | _ => next

def step (cfg : Config) (ka : KeepAlive) (depth : Nat) (s : Shared) : Action → Option Shared
  | .engine a => s.engine_step cfg depth a
  | .tick src idle answer =>
    if s.engine.finishing = none ∧ 1 ≤ src ∧ src < min kMaxIoSources ka.roots ∧ cfg.mirrors_on ∧
        s.keepalive_due ka src idle ∧ s.admits depth answer then
      match answer with
      | .ok _ => some { s with pokes := src :: s.pokes }
      | .error _ => some s
    else none
  | .finish_keepalive src =>
    if src ∈ s.pokes then some { s with pokes := s.pokes.erase src } else none

/-- The steps that hand something to the backend. -/
def submits (s : Shared) : Action → Bool
  | .engine (.do_submit cid _) => s.engine.stage cid == .picked
  | .tick _ _ _ => true
  | _ => false

/-- The depth of the class whose chunk `issue_ready_chunks` picks, if it picks one. -/
def picks (s : Engine) (waiters : Nat) (recent : Bool) : Option Nat :=
  match s.pop_issued.select waiters with
  | none => none
  | some (p, rescued) =>
    if s.pop_issued.capped p rescued recent then none else some (s.pop_issued.qd_cap p rescued)

/-- The steps whose depths leave the queue room: a chunk is picked where its class's depth and
    the pokes at the backend fit the queue, a poke is sent where every class's depth and the
    pokes, itself among them, do. With the keep-alive on, P0's depth does not fall so far that
    more is in flight than any class may have. -/
def HasRoom (ka : KeepAlive) (depth : Nat) (s : Shared) : Action → Prop
  | .engine (.issue waiters recent) =>
    ∀ cap ∈ picks s.engine waiters recent, cap + s.pokes.length ≤ depth
  | .engine (.set_p0_depth d qd bytes) =>
    ka.on = true → s.engine.inflight_ops ≤ deepest (s.engine.set_p0_depth d qd bytes).tune
  | .tick _ _ _ => deepest s.engine.tune + s.pokes.length + 1 ≤ depth
  | _ => True

end Shared

/-- A started engine in front of a backend. -/
def shared_system (cfg : Config) (ka : KeepAlive) (caps : BackendCaps) (io : IoConfig)
    (o : IoOverrides) : LTS.System Shared Shared.Action :=
  .ofNext
    (fun s => (metered_system cfg).init s.engine ∧ s.pokes = [] ∧
      s.engine.tune = (start_tuning caps io o).toTuning)
    (Shared.step cfg ka caps.max_queue_depth)

namespace Shared

variable {cfg : Config} {ka : KeepAlive} {caps : BackendCaps} {io : IoConfig} {o : IoOverrides}
variable {depth : Nat} {s s' : Shared} {e e' : Engine}

/-! ### The depth of a class -/

theorem tune_completes {w : PickedChunk} {moved : Nat} {status : Status} {junk : Nat → UInt8}
    (hb : Base e) (h : Completes cfg e e' w moved status junk) : e'.tune = e.tune := by
  have howner : (e.land cfg w moved status junk).chunk_owner w.req.chunk_id = some w.inflight :=
    hb.owner w h.mem
  rw [h.eq]
  unfold Engine.handle_completion
  rw [howner]
  rfl

theorem tune_issue (cfg : Config) (e : Engine) (waiters : Nat) (recent : Bool) :
    (e.issue cfg waiters recent).tune = e.tune := by
  rcases issue_cases cfg e waiters recent with heq | ⟨p, _, c, _, hc, heq⟩
  · rw [heq]
    rfl
  · rw [heq, issue_chunk_eq cfg (s := e.pop_issued) hc]
    rfl

/-- A step changes no depth but P0's. -/
theorem tune_step (hb : Base e) {a : Engine.Action} (hs : e.step cfg a = some e') :
    e'.tune = e.tune ∨ ∃ d qd bytes, a = .set_p0_depth d qd bytes ∧ e' = e.set_p0_depth d qd bytes := by
  rcases step_meters hs with hsame | ⟨waiters, recent, rfl⟩ | ⟨cid, hr⟩ | ⟨d, qd, bytes, rfl⟩
  · exact .inl hsame.tune
  · simp only [Engine.step] at hs
    split at hs
    · cases hs
      exact .inl (tune_issue cfg e waiters recent)
    · cases hs
  · obtain ⟨w, moved, status, junk, _, _, hc⟩ := step_completes hr hs
    exact .inl (tune_completes hb hc)
  · cases hs
    exact .inr ⟨d, qd, bytes, rfl, rfl⟩

theorem capped_lt {p : Nat} {rescued recent : Bool} (h : e.capped p rescued recent = false) :
    e.inflight_ops < e.qd_cap p rescued := by
  unfold capped at h
  simp only [Bool.or_eq_false_iff, decide_eq_false_iff_not, Nat.not_le] at h
  exact h.1.1

theorem qd_cap_deepest (e : Engine) (p : Nat) (rescued : Bool) : e.qd_cap p rescued ≤ deepest e.tune := by
  -- the rescue has no more than P2's depth
  have hrescue : e.rescue_qd ≤ e.tune.engram_qd := Nat.min_le_left _ _
  unfold Engine.qd_cap deepest
  dsimp only
  split
  · omega
  split
  · omega
  split
  · omega
  · omega

/-- A chunk is picked below the depth of its class. -/
theorem picks_lt {waiters : Nat} {recent : Bool} {cap : Nat} (h : picks e waiters recent = some cap) :
    e.inflight_ops < cap ∧ cap ≤ deepest e.tune := by
  unfold picks at h
  split at h
  · cases h
  next p rescued hsel =>
    split at h
    · cases h
    next hcap =>
      cases h
      exact ⟨capped_lt (e := e.pop_issued) (by simpa using hcap), qd_cap_deepest e.pop_issued p rescued⟩

/-- A step of `issue_ready_chunks` adds one chunk, and only when it picks one. -/
theorem issue_wire (cfg : Config) (e : Engine) (waiters : Nat) (recent : Bool) :
    (e.issue cfg waiters recent).wire = e.wire ∨
      ∃ cap, picks e waiters recent = some cap ∧
        (e.issue cfg waiters recent).wire.length = e.wire.length + 1 := by
  unfold Engine.issue picks
  dsimp only
  cases hsel : e.pop_issued.select waiters with
  | none => exact .inl rfl
  | some chosen =>
    obtain ⟨p, rescued⟩ := chosen
    dsimp only
    split
    · exact .inl rfl
    next hcap =>
      unfold Engine.issue_chunk
      dsimp only
      split
      · exact .inl rfl
      · exact .inr ⟨_, rfl, rfl⟩

/-! ### Nothing is overcommitted -/

structure Fits (ka : KeepAlive) (depth : Nat) (s : Shared) : Prop where
  base : Base s.engine
  metered : Metered s.engine
  room : s.committed ≤ depth
  deep : ka.on = true → s.engine.wire.length ≤ deepest s.engine.tune

/-- A step that puts nothing on the wire and lowers no depth. -/
theorem Fits.settle (h : Fits ka depth s) (hb : Base e) (hm : Metered e)
    (hwire : e.wire.length ≤ s.engine.wire.length) (htune : e.tune = s.engine.tune) :
    Fits ka depth { s with engine := e } := by
  refine ⟨hb, hm, ?_, ?_⟩
  · have hold : s.engine.wire.length + s.pokes.length ≤ depth := h.room
    show e.wire.length + s.pokes.length ≤ depth
    omega
  · intro hka
    show e.wire.length ≤ deepest e.tune
    rw [htune]
    exact hwire.trans (h.deep hka)

theorem Fits.issue (h : Fits ka depth s) {waiters : Nat} {recent : Bool}
    (hb : Base (s.engine.issue cfg waiters recent)) (hm : Metered (s.engine.issue cfg waiters recent))
    (hroom : HasRoom ka depth s (.engine (.issue waiters recent))) :
    Fits ka depth { s with engine := s.engine.issue cfg waiters recent } := by
  rcases issue_wire cfg s.engine waiters recent with hsame | ⟨cap, hpicks, hone⟩
  · exact h.settle hb hm (congrArg List.length hsame).le (tune_issue cfg s.engine waiters recent)
  · -- the counter is the number of chunks in flight, and the pick found it below the cap
    obtain ⟨hlt, hdeep⟩ := picks_lt hpicks
    rw [h.metered.ops] at hlt
    have hcap : cap + s.pokes.length ≤ depth := hroom cap hpicks
    refine ⟨hb, hm, ?_, ?_⟩
    · show (s.engine.issue cfg waiters recent).wire.length + s.pokes.length ≤ depth
      rw [hone]
      omega
    · intro _
      show (s.engine.issue cfg waiters recent).wire.length ≤
        deepest (s.engine.issue cfg waiters recent).tune
      rw [hone, tune_issue]
      omega

theorem engine_step_some {a : Engine.Action} (hs : s.engine_step cfg depth a = some s') :
    (∃ e, s.engine.step cfg a = some e ∧ s' = { s with engine := e }) ∧
      (∀ cid answer, a = .do_submit cid answer →
        (s.engine.find_chunk cid).isSome = true ∧ s.admits depth answer = true) ∧
      ∀ d qd bytes, a = .set_p0_depth d qd bytes → d = depth := by
  have hnext : ∀ {o : Option Engine}, o.map (fun e => { s with engine := e }) = some s' →
      ∃ e, o = some e ∧ s' = { s with engine := e } := by
    intro o ho
    obtain ⟨e, he, heq⟩ := Option.map_eq_some_iff.mp ho
    exact ⟨e, he, heq.symm⟩
  unfold engine_step at hs
  dsimp only at hs
  split at hs
  · split at hs
    next hen =>
      refine ⟨hnext hs, ?_, ?_⟩
      · rintro _ _ ⟨⟩
        exact hen
      · rintro _ _ _ ⟨⟩
    · cases hs
  · split at hs
    next hen =>
      refine ⟨hnext hs, ?_, ?_⟩
      · rintro _ _ ⟨⟩
      · rintro _ _ _ ⟨⟩
        exact hen
    · cases hs
  next hdo hset =>
    exact ⟨hnext hs, fun _ _ ha => absurd ha (hdo _ _), fun _ _ _ ha => absurd ha (hset _ _ _)⟩

theorem Fits.engine (h : Fits ka depth s) {a : Engine.Action} (hroom : HasRoom ka depth s (.engine a))
    (hs : s.engine_step cfg depth a = some s') : Fits ka depth s' := by
  obtain ⟨⟨e, he, rfl⟩, _⟩ := engine_step_some hs
  have hb := (h.base.step_moves he).2
  have hm := h.metered.step h.base he
  rcases step_meters he with hsame | ⟨waiters, recent, rfl⟩ | ⟨cid, hr⟩ | ⟨d, qd, bytes, rfl⟩
  · exact h.settle hb hm (congrArg List.length hsame.wire).le hsame.tune
  · simp only [Engine.step] at he
    split at he
    · cases he
      exact h.issue hb hm hroom
    · cases he
  · obtain ⟨w, moved, status, junk, _, _, hc⟩ := step_completes hr he
    refine h.settle hb hm ?_ (tune_completes h.base hc)
    rw [(hc.fields h.base).2.2.2.2.1]
    exact List.length_erase_le
  · cases he
    refine ⟨hb, hm, h.room, ?_⟩
    intro hka
    exact h.metered.ops.ge.trans (hroom hka)

theorem Fits.tick (h : Fits ka depth s) {src : Nat} {idle : Bool} {answer : Result Unit}
    (hroom : HasRoom ka depth s (.tick src idle answer)) (hdue : s.keepalive_due ka src idle = true) :
    s.committed < depth := by
  have hroom : deepest s.engine.tune + s.pokes.length + 1 ≤ depth := hroom
  unfold keepalive_due at hdue
  simp only [Bool.and_eq_true] at hdue
  have hdeep := h.deep hdue.1.1.1.1.1
  unfold committed
  omega

theorem step_tick {src : Nat} {idle : Bool} {answer : Result Unit}
    (hs : s.step cfg ka depth (.tick src idle answer) = some s') :
    s.keepalive_due ka src idle = true ∧ (s' = { s with pokes := src :: s.pokes } ∨ s' = s) := by
  simp only [Shared.step] at hs
  split at hs
  next hen =>
    refine ⟨hen.2.2.2.2.1, ?_⟩
    cases answer with
    | ok u =>
      cases hs
      exact .inl rfl
    | error e =>
      cases hs
      exact .inr rfl
  · cases hs

theorem Fits.step (h : Fits ka depth s) {a : Action} (hroom : HasRoom ka depth s a)
    (hs : s.step cfg ka depth a = some s') : Fits ka depth s' := by
  cases a with
  | engine a => exact h.engine hroom hs
  | tick src idle answer =>
    obtain ⟨hdue, rfl | rfl⟩ := step_tick hs
    · have hlt : s.engine.wire.length + s.pokes.length < depth := h.tick hroom hdue
      exact ⟨h.base, h.metered, hlt, h.deep⟩
    · exact h
  | finish_keepalive src =>
    simp only [Shared.step] at hs
    split at hs
    · cases hs
      refine ⟨h.base, h.metered, ?_, h.deep⟩
      have hold : s.engine.wire.length + s.pokes.length ≤ depth := h.room
      have hle : (s.pokes.erase src).length ≤ s.pokes.length := List.length_erase_le
      show s.engine.wire.length + (s.pokes.erase src).length ≤ depth
      omega
    · cases hs

theorem reachable_fits
    (h : LTS.Reachable ((shared_system cfg ka caps io o).restrict (HasRoom ka caps.max_queue_depth)) s) :
    Fits ka caps.max_queue_depth s := by
  apply h.invariant (P := Fits ka caps.max_queue_depth)
  · rintro s ⟨hinit, hpokes, _⟩
    obtain ⟨hb, hm⟩ := metered_init hinit
    have hwire : s.engine.wire = [] := hinit.1.2.2.2.1
    refine ⟨hb, hm, ?_, ?_⟩
    · show s.engine.wire.length + s.pokes.length ≤ _
      rw [hwire, hpokes]
      exact Nat.zero_le _
    · intro _
      rw [hwire]
      exact Nat.zero_le _
  · rintro s a s' hfits ⟨hs, hroom⟩
    exact hfits.step hroom hs

/-! ### The queue is never full -/

/-- A chunk that is still with the submitters has its slot. -/
theorem handed_lt {w : PickedChunk} (hw : w ∈ s.engine.wire)
    (hstage : s.engine.stage w.req.chunk_id = .picked) : s.handed < s.committed := by
  have hle := List.countP_le_length
    (p := fun w : PickedChunk => s.engine.stage w.req.chunk_id == .accepted) (l := s.engine.wire)
  have hne : s.engine.wire.countP (fun w => s.engine.stage w.req.chunk_id == .accepted) ≠
      s.engine.wire.length := by
    intro heq
    have hall := List.countP_eq_length.mp heq w hw
    rw [hstage] at hall
    cases hall
  unfold handed committed
  omega

/-- In a run whose depths leave the queue room, what is handed to the backend never exceeds its
    depth, and the backend never refuses a chunk or a poke because its queue is full. -/
theorem queue_never_full
    (h : LTS.Reachable ((shared_system cfg ka caps io o).restrict (HasRoom ka caps.max_queue_depth)) s) :
    s.committed ≤ caps.max_queue_depth ∧
      ∀ a s', s.step cfg ka caps.max_queue_depth a = some s' → HasRoom ka caps.max_queue_depth s a →
        s.submits a = true → s.handed < caps.max_queue_depth := by
  have hfits := reachable_fits h
  refine ⟨hfits.room, ?_⟩
  intro a s' hs hroom hsub
  cases a with
  | engine a =>
    cases a with
    | do_submit cid answer =>
      have hs : s.engine_step cfg caps.max_queue_depth (.do_submit cid answer) = some s' := hs
      obtain ⟨_, hdo, _⟩ := engine_step_some hs
      obtain ⟨w, hfind⟩ := Option.isSome_iff_exists.mp (hdo cid answer rfl).1
      obtain ⟨hw, rfl⟩ := find_chunk_some hfind
      exact (handed_lt hw (eq_of_beq hsub)).trans_le hfits.room
    | _ => cases hsub
  | tick src idle answer =>
    have hle : s.handed ≤ s.committed := Nat.add_le_add_right List.countP_le_length _
    exact hle.trans_lt (hfits.tick hroom (step_tick hs).1)
  | finish_keepalive src => cases hsub

/-- With a background depth that fits and no keep-alive, the depths leave the queue room in
    every step. -/
theorem reachable_has_room (hbg : (start_tuning caps io o).bg_qd ≤ caps.max_queue_depth)
    (hka : ka.on = false) (h : LTS.Reachable (shared_system cfg ka caps io o) s) :
    LTS.Reachable ((shared_system cfg ka caps io o).restrict (HasRoom ka caps.max_queue_depth)) s := by
  refine (h.restrict (P := fun s => Base s.engine ∧ s.pokes = [] ∧
    deepest s.engine.tune ≤ caps.max_queue_depth) ?_ ?_).1
  · rintro s ⟨hinit, hpokes, htune⟩
    refine ⟨(metered_init hinit).1, hpokes, ?_⟩
    have hc := start_clamped caps io o
    rw [htune]
    exact max_le hc.p0 (max_le hc.engram hbg)
  · rintro s a s' ⟨hb, hpokes, hfit⟩ hs
    have hs : s.step cfg ka caps.max_queue_depth a = some s' := hs
    cases a with
    | engine a =>
      have hs : s.engine_step cfg caps.max_queue_depth a = some s' := hs
      obtain ⟨⟨e, he, rfl⟩, _, hdepth⟩ := engine_step_some hs
      refine ⟨?_, (hb.step_moves he).2, hpokes, ?_⟩
      · cases a with
        | issue waiters recent =>
          intro cap hcap
          rw [hpokes]
          exact (picks_lt hcap).2.trans hfit
        | set_p0_depth => exact fun hon => absurd hon (by simp [hka])
        | _ => trivial
      · rcases tune_step hb he with htune | ⟨d, qd, bytes, rfl, rfl⟩
        · rw [htune]
          exact hfit
        · obtain rfl := hdepth d qd bytes rfl
          have hrest : max s.engine.tune.engram_qd s.engine.tune.bg_qd ≤ caps.max_queue_depth :=
            (Nat.le_max_right _ _).trans hfit
          exact max_le (Nat.min_le_right _ _) hrest
    | tick src idle answer =>
      have hdue := (step_tick hs).1
      simp [keepalive_due, hka] at hdue
    | finish_keepalive src =>
      simp only [Shared.step, hpokes] at hs
      cases hs

/-- As the code ships, the queue is never full. -/
theorem shipped_never_overcommits (hbg : o.bg_qd = none) (hka : ka.on = false)
    (h : LTS.Reachable (shared_system cfg ka caps io o) s) :
    s.committed ≤ caps.max_queue_depth :=
  (reachable_fits (reachable_has_room (start_background caps io hbg) hka h)).room

/-! ### A poke beside a full load, and a background override -/

instance (ka : KeepAlive) (depth : Nat) (s : Shared) (a : Action) : Decidable (HasRoom ka depth s a) :=
  match a with
  | .engine (.issue waiters recent) =>
    inferInstanceAs (Decidable (∀ cap ∈ picks s.engine waiters recent, _ ≤ _))
  | .engine (.set_p0_depth ..) => inferInstanceAs (Decidable (_ = _ → _ ≤ _))
  | .tick .. => inferInstanceAs (Decidable (_ ≤ _))
  | .finish_keepalive _ => isTrue trivial
  | .engine (.submit _) | .engine (.plan _) | .engine (.enqueue _) | .engine (.cancel _)
  | .engine (.uncharge _) | .engine (.call_cancelled _) | .engine (.do_submit ..)
  | .engine (.poll ..) | .engine (.refusal _) | .engine .finish | .engine (.drop_source _)
  | .engine (.readmit_source _) | .engine (.thermal ..) => isTrue trivial

/-- An engine that has just been started in front of a backend. -/
def fresh (caps : BackendCaps) (o : IoOverrides) : Shared :=
  { engine := { reqs := fun _ => {req := two_pages }, tune := (start_tuning caps {} o).toTuning } }

theorem fresh_init (caps : BackendCaps) (ka : KeepAlive) (o : IoOverrides) :
    (shared_system mirrored ka caps {} o).init (fresh caps o) :=
  ⟨⟨⟨rfl, rfl, rfl, rfl, rfl, rfl, rfl, rfl, rfl, rfl⟩, rfl, rfl, rfl⟩, rfl, rfl⟩

theorem shipped_never_overcommits_read :
    ∃ s, LTS.Reachable (shared_system mirrored {} { max_queue_depth := 1 } {} {}) s ∧
      s.committed = 1 ∧ s.committed ≤ 1 := by
  obtain ⟨s, hreach, hs⟩ := LTS.Reachable.of_execute (Shared.step mirrored {} 1)
    [.engine (.submit two_pages), .engine (.plan 0), .engine (.enqueue 0), .engine (.issue 0 false)]
    (fun s => s.committed == 1) (fresh_init { max_queue_depth := 1 } {} {}) (by decide)
  exact ⟨s, hreach, by simpa using hs, shipped_never_overcommits rfl rfl hreach⟩

/-- The keep-alive of the mirror is on. -/
def mirror_alive : KeepAlive := { on := true, roots := 2, has_file := fun _ => true }

def io_accepted : Result Unit := .ok ()

def queue_full : Result Unit := fail .ResourceExhausted "SQ is full"

/-- Every class may have one chunk in flight. -/
def one_each : IoOverrides := { p0_qd := some 1, bg_qd := some 1 }

/-- The mirror is poked, a backfill is read from it, and the queue of two is in use. -/
def poked_run : List Action :=
  [.tick 1 true io_accepted, .engine (.submit two_pages), .engine (.plan 0), .engine (.enqueue 0),
    .engine (.issue 0 false)]

theorem queue_never_full_poked :
    ∃ s : Shared, s.committed = 2 ∧ s.pokes = [1] ∧ s.submits (.engine (.do_submit 1 io_accepted)) = true ∧
      s.handed < 2 := by
  obtain ⟨s, hreach, hs⟩ := LTS.Reachable.of_guarded
    (Shared.step mirrored mirror_alive 2) (HasRoom mirror_alive 2) poked_run
    (fun s => s.committed == 2 && s.pokes == [1] &&
      s.submits (.engine (.do_submit 1 io_accepted)) &&
      (s.step mirrored mirror_alive 2 (.engine (.do_submit 1 io_accepted))).isSome)
    (fresh_init { max_queue_depth := 2 } mirror_alive one_each) (by decide)
  simp only [Bool.and_eq_true, beq_iff_eq] at hs
  obtain ⟨⟨⟨hcommitted, hpokes⟩, hsub⟩, hstep⟩ := hs
  obtain ⟨s', hs'⟩ := Option.isSome_iff_exists.mp hstep
  exact ⟨s, hcommitted, hpokes, hsub, (queue_never_full hreach).2 _ s' hs' trivial hsub⟩

/-- The background depth is overridden to 2 in front of a queue of 1: the second chunk is
    refused because the queue is full. -/
theorem bulk_override_overcommits :
    ¬ ∀ (cfg : Config) (ka : KeepAlive) (caps : BackendCaps) (io : IoConfig) (o : IoOverrides)
      (s : Shared), LTS.Reachable (shared_system cfg ka caps io o) s →
      s.committed ≤ caps.max_queue_depth ∧
      ∀ a s', s.step cfg ka caps.max_queue_depth a = some s' → s.submits a = true →
        s.handed < caps.max_queue_depth := by
  intro h
  obtain ⟨s, hreach, hs⟩ := LTS.Reachable.of_execute (Shared.step mirrored {} 1)
    [.engine (.submit two_pages), .engine (.plan 0), .engine (.enqueue 0), .engine (.issue 0 false),
      .engine (.do_submit 1 io_accepted), .engine (.issue 0 false)]
    (fun s => s.handed == 1 && s.submits (.engine (.do_submit 2 queue_full)) &&
      (s.step mirrored {} 1 (.engine (.do_submit 2 queue_full))).isSome)
    (fresh_init { max_queue_depth := 1 } {} { bg_qd := some 2 }) (by decide)
  simp only [Bool.and_eq_true, beq_iff_eq] at hs
  obtain ⟨⟨hfull, hsub⟩, hstep⟩ := hs
  obtain ⟨s', hs'⟩ := Option.isSome_iff_exists.mp hstep
  have hlt := (h mirrored {} { max_queue_depth := 1 } {} { bg_qd := some 2 } s hreach).2 _ s' hs' hsub
  rw [hfull] at hlt
  exact absurd hlt (by decide)

end Shared

end CachedMoe.Storage
