import CachedMoe.Storage.IoEngine

/-! # The life of one request

    What the engine's steps do to a single request, as a transition system of its own: a
    `View` is the request with its chunks in flight, its place in `finish`, whether it is in
    its queue, and the calls of `cancel` that have it; a `Move` is what one step of the engine
    can do to it. `View.Inv` is what holds of a request through every sequence of moves. -/

namespace CachedMoe.Storage

open CachedMoe Engine

/-- One request, and where the engine has it. -/
structure View where
  r : Pending
  /-- Its chunks in flight. -/
  flights : List PickedChunk := []
  /-- Where `finish` stands with it, when it has it. -/
  finish : Option FinishStep := none
  queued : Bool := false
  /-- The calls of `cancel` that took it and have not called back yet. -/
  cancelling : Nat := 0

/-- A chunk, the bytes it moved and its status. -/
abbrev Completion := PickedChunk × Nat × Status

/-- What one step of the engine does to a request; a completion is a label of its own. -/
inductive Move (cfg : Config) : Option Completion → View → View → Prop where
  | stay (l : Option Completion) (v : View) : Move cfg l v v
  /-- Fully issued, it leaves its queue. -/
  | dequeue {v : View} (h : exhausted v.r = true) : Move cfg none v { v with queued := false }
  | reject {v : View} {started : Mask} (h : v.r.phase = .routed) :
      Move cfg none v { v with r := { v.r with phase := .rejected, started } }
  | plan {v : View} (h : v.r.phase = .routed) (hbytes : v.r.req.bytes ≠ 0)
      (hsize : min v.r.req.bytes ((cfg.files v.r.req.file).size - v.r.req.file_off) ≠ 0)
      (hmask : v.r.stripe_mask = none) :
      Move cfg none v { v with r := planned cfg v.r }
  | stripe {v : View} {mask : Mask} (s : Engine) (h : v.r.phase = .routed)
      (hbytes : v.r.req.bytes ≠ 0)
      (hsize : min v.r.req.bytes ((cfg.files v.r.req.file).size - v.r.req.file_off) ≠ 0)
      (hmask : v.r.stripe_mask = some mask) :
      Move cfg none v
        { v with r := striped (planned cfg v.r) (s.stripe cfg (planned cfg v.r) mask) }
  | enqueue {v : View} (h : v.r.phase = .planned) :
      Move cfg none v { v with r := { v.r with phase := .queued }, queued := true }
  | cancel {v : View} (hq : v.queued = true) (h : v.r.next_chunk = 0) :
      Move cfg none v
        { v with
          r := taken v.r (v.finish == some .requeue)
          queued := false
          cancelling := v.cancelling + 1 }
  | uncharge {v : View} (h : 0 < v.cancelling) : Move cfg none v { v with r := unstriped v.r }
  | call_cancelled {v : View} (h : 0 < v.cancelling) :
      Move cfg none v
        { v with
          r := { v.r with phase := .done, cancels := v.r.cancels + 1 }
          cancelling := v.cancelling - 1 }
  | issue {v : View} {c : Chunk} (p cid : Nat) (hq : v.queued = true) (hf : v.finish = none)
      (hc : v.r.chunks[v.r.next_chunk]? = some c) :
      Move cfg none v { v with r := issued v.r, flights := picked cfg v.r p cid c :: v.flights }
  | complete {v : View} {w : PickedChunk} (moved : Nat) (status : Status) (junk : Nat → UInt8)
      (hw : w ∈ v.flights) (hf : v.finish = none) {r : Pending}
      (hr : r = discharged (counted (landed cfg v.r w moved status junk) moved status) w.inflight
        (status.code == .Ok)) :
      Move cfg (some (w, moved, status)) v
        { v with
          r := completed r
          flights := v.flights.erase w
          finish := if r.complete then some .release else none }
  | release {v : View} (hf : v.finish = some .release) :
      Move cfg none v
        { v with
          r := released v.r
          finish := some (if v.r.fails_over then .reset else .deliver v.r.result) }
  | reset {v : View} (hf : v.finish = some .reset) :
      Move cfg none v { v with r := v.r.retry, finish := some .requeue }
  | requeue {v : View} (hf : v.finish = some .requeue) :
      Move cfg none v { v with r := { v.r with phase := .queued }, queued := true, finish := none }
  | deliver {v : View} {res : IoResult} (hf : v.finish = some (.deliver res)) :
      Move cfg none v
        { v with
          r := { v.r with phase := .done, results := v.r.results ++ [res] }
          finish := some .settle }
  | settle {v : View} (hf : v.finish = some .settle) : Move cfg none v { v with finish := none }

/-! ### What holds of a request -/

/-- Where a request is in each phase; a request that `cancel` raced with `finish` is nowhere. -/
def View.Located (v : View) : Prop :=
  match v.r.phase with
  | .routed | .planned | .rejected => True
  | .queued =>
    v.r.calls = 0 ∧ v.finish = none ∧ v.cancelling = 0 ∧
      (v.r.next_chunk < v.r.chunks.length → v.queued = true) ∧
      (v.r.next_chunk < v.r.chunks.length ∨ v.flights ≠ [])
  | .finishing =>
    v.r.calls = 0 ∧ v.finish ≠ none ∧ v.finish ≠ some .settle ∧ v.cancelling = 0
  | .cancelled =>
    v.r.calls = 0 ∧ v.finish = none ∧ v.cancelling = 1 ∧ v.queued = false ∧ v.flights = []
  | .done =>
    v.r.calls = 1 ∧ (v.finish = none ∨ v.finish = some .settle) ∧ v.cancelling = 0 ∧
      v.flights = [] ∧ (v.queued = true → v.r.next_chunk = v.r.chunks.length)

/-- A request `submit` has not accepted. -/
structure View.Draft (v : View) : Prop where
  next : v.r.next_chunk = 0
  failed : v.r.failed = false
  results : v.r.results = []
  cancels : v.r.cancels = 0
  raced : v.r.raced = false
  queued : v.queued = false
  finish : v.finish = none
  cancelling : v.cancelling = 0

structure View.Inv (v : View) : Prop where
  next_le : v.r.next_chunk ≤ v.r.chunks.length
  issued_le : v.r.issued_chunks ≤ v.r.next_chunk
  /-- A chunk handed out is done or in flight. -/
  flights : v.r.done_chunks + v.flights.length = v.r.issued_chunks
  whole : v.r.failed = false → v.r.issued_chunks = v.r.next_chunk
  /-- A failed request hands out no further chunk. -/
  abandoned : v.r.failed = true → v.r.next_chunk = v.r.chunks.length
  chunks : v.r.phase ≠ .routed → v.r.phase ≠ .rejected → 0 < v.r.chunks.length
  draft : v.r.phase.accepted = false → v.Draft
  /-- `finish` has a request without chunks in flight; only one it is about to requeue can
      issue again. -/
  held : v.finish ≠ none → v.flights = [] ∧
    if v.finish = some .requeue then v.r.next_chunk = 0 else v.r.next_chunk = v.r.chunks.length
  /-- `finish` calls back once, and then the request is through. -/
  finished : v.r.results ≠ [] → v.r.results.length = 1 ∧ v.flights = [] ∧
    v.r.next_chunk = v.r.chunks.length ∧ (v.finish = none ∨ v.finish = some .settle)
  settled : v.finish = some .settle → v.r.results ≠ []
  located : v.r.raced = false → v.Located

variable {cfg : Config} {v v' : View}

/-! ### Reading the invariant -/

theorem View.Inv.accepted (h : v.Inv) (hout : v.queued = true ∨ v.finish ≠ none ∨ 0 < v.cancelling) :
    v.r.phase.accepted = true := by
  by_contra hno
  have hd := h.draft (by simpa using hno)
  rcases hout with hq | hf | hc
  · rw [hd.queued] at hq
    cases hq
  · exact hf hd.finish
  · rw [hd.cancelling] at hc
    exact Nat.lt_irrefl 0 hc

theorem View.Inv.chunks_pos (h : v.Inv) (hacc : v.r.phase.accepted = true) :
    0 < v.r.chunks.length := by
  apply h.chunks
  · intro hp
    rw [hp] at hacc
    cases hacc
  · intro hp
    rw [hp] at hacc
    cases hacc

/-- A request `finish` has and has not called back, unless a `cancel` raced it there. -/
theorem View.Inv.finishing (h : v.Inv) (hraced : v.r.raced = false) (hf : v.finish ≠ none)
    (hs : v.finish ≠ some .settle) :
    v.r.phase = .finishing ∧ v.r.calls = 0 ∧ v.cancelling = 0 := by
  have hacc := h.accepted (.inr (.inl hf))
  have hloc := h.located hraced
  unfold View.Located at hloc
  cases hp : v.r.phase with
  | routed | planned | rejected =>
    rw [hp] at hacc
    cases hacc
  | queued =>
    simp only [hp] at hloc
    exact absurd hloc.2.1 hf
  | finishing =>
    simp only [hp] at hloc
    exact ⟨rfl, hloc.1, hloc.2.2.2⟩
  | cancelled =>
    simp only [hp] at hloc
    exact absurd hloc.2.1 hf
  | done =>
    simp only [hp] at hloc
    rcases hloc.2.1 with hn | hn
    · exact absurd hn hf
    · exact absurd hn hs

/-- A request with chunks in flight, or one to issue, is neither cancelled nor called back. -/
theorem View.Inv.active (h : v.Inv) (hraced : v.r.raced = false)
    (hact : v.flights ≠ [] ∨
      v.queued = true ∧ v.finish = none ∧ v.r.next_chunk < v.r.chunks.length)
    (hacc : v.r.phase.accepted = true) :
    v.r.phase = .queued ∧ v.r.calls = 0 ∧ v.finish = none ∧ v.cancelling = 0 := by
  have hloc := h.located hraced
  unfold View.Located at hloc
  cases hp : v.r.phase with
  | routed | planned | rejected =>
    rw [hp] at hacc
    cases hacc
  | queued =>
    simp only [hp] at hloc
    exact ⟨rfl, hloc.1, hloc.2.1, hloc.2.2.1⟩
  | finishing =>
    simp only [hp] at hloc
    rcases hact with hfl | ⟨_, hf, _⟩
    · exact absurd (h.held hloc.2.1).1 hfl
    · exact absurd hf hloc.2.1
  | cancelled =>
    simp only [hp] at hloc
    rcases hact with hfl | ⟨hq, _⟩
    · exact absurd hloc.2.2.2.2 hfl
    · rw [hloc.2.2.2.1] at hq
      cases hq
  | done =>
    simp only [hp] at hloc
    rcases hact with hfl | ⟨hq, _, hlt⟩
    · exact absurd hloc.2.2.2.1 hfl
    · have := hloc.2.2.2.2 hq
      omega

/-! ### Moves that leave the course of the request alone -/

/-- The fields the invariant is about. -/
structure SameCourse (r r' : Pending) : Prop where
  phase : r'.phase = r.phase
  chunks : r'.chunks = r.chunks
  next : r'.next_chunk = r.next_chunk
  issued : r'.issued_chunks = r.issued_chunks
  done : r'.done_chunks = r.done_chunks
  failed : r'.failed = r.failed
  results : r'.results = r.results
  cancels : r'.cancels = r.cancels
  raced : r'.raced = r.raced

theorem unstriped_course (r : Pending) : SameCourse r (unstriped r) :=
  ⟨rfl, rfl, rfl, rfl, rfl, rfl, rfl, rfl, rfl⟩

theorem released_course (r : Pending) : SameCourse r (released r) := by
  unfold released
  split
  · exact ⟨rfl, rfl, rfl, rfl, rfl, rfl, rfl, rfl, rfl⟩
  · split
    · exact unstriped_course r
    · exact ⟨rfl, rfl, rfl, rfl, rfl, rfl, rfl, rfl, rfl⟩

theorem View.Inv.of_course (h : v.Inv) {r : Pending} (hc : SameCourse v.r r) :
    View.Inv { v with r := r } := by
  obtain ⟨r₀, flights, finish, queued, cancelling⟩ := v
  obtain ⟨hphase, hchunks, hnext, hissued, hdone, hfailed, hresults, hcancels, hraced⟩ := hc
  obtain ⟨h1, h2, h3, h4, h5, h6, h7, h8, h9, h10, h11⟩ := h
  dsimp only at *
  constructor
  case draft =>
    intro hacc
    obtain ⟨a, b, c, d, e, f, g, i⟩ := h7 (by rwa [hphase] at hacc)
    dsimp only at *
    exact ⟨hnext.trans a, hfailed.trans b, hresults.trans c, hcancels.trans d, hraced.trans e, f, g, i⟩
  case located =>
    intro hr
    have := h11 (by rwa [hraced] at hr)
    simpa only [View.Located, Pending.calls, hphase, hchunks, hnext, hresults, hcancels] using this
  all_goals
    dsimp only
    simp only [hphase, hchunks, hnext, hissued, hdone, hfailed, hresults]
    assumption

/-! ### The moves -/

theorem View.Inv.dequeue (h : v.Inv) (hex : exhausted v.r = true) :
    View.Inv { v with queued := false } := by
  have hdone : v.r.chunks.length ≤ v.r.next_chunk := by simpa [exhausted] using hex
  refine ⟨h.next_le, h.issued_le, h.flights, h.whole, h.abandoned, h.chunks, ?_, h.held,
    h.finished, h.settled, ?_⟩
  · intro hacc
    obtain ⟨h1, h2, h3, h4, h5, _, h7, h8⟩ := h.draft hacc
    exact ⟨h1, h2, h3, h4, h5, rfl, h7, h8⟩
  · intro hraced
    have hloc := h.located hraced
    unfold View.Located at hloc ⊢
    cases hp : v.r.phase with
    | routed | planned | rejected => trivial
    | queued =>
      simp only [hp] at hloc ⊢
      obtain ⟨h1, h2, h3, _, h5⟩ := hloc
      exact ⟨h1, h2, h3, fun hlt => absurd hlt (by omega), h5⟩
    | finishing =>
      simp only [hp] at hloc ⊢
      exact hloc
    | cancelled =>
      simp only [hp] at hloc ⊢
      obtain ⟨h1, h2, h3, _, h5⟩ := hloc
      exact ⟨h1, h2, h3, trivial, h5⟩
    | done =>
      simp only [hp] at hloc ⊢
      obtain ⟨h1, h2, h3, h4, _⟩ := hloc
      exact ⟨h1, h2, h3, h4, fun hq => by cases hq⟩

/-- `submit` at work on a request that is not accepted yet. -/
theorem View.Inv.submitting (h : v.Inv) {r : Pending} (hacc : v.r.phase.accepted = false)
    (hacc' : r.phase.accepted = false) (hnext : r.next_chunk = v.r.next_chunk)
    (hissued : r.issued_chunks = v.r.issued_chunks) (hdone : r.done_chunks = v.r.done_chunks)
    (hfailed : r.failed = v.r.failed) (hresults : r.results = v.r.results)
    (hcancels : r.cancels = v.r.cancels) (hraced : r.raced = v.r.raced)
    (hchunks : r.phase = .planned → 0 < r.chunks.length) :
    View.Inv { v with r := r } := by
  obtain ⟨h1, h2, h3, h4, h5, h6, h7, h8⟩ := h.draft hacc
  have hle := h.issued_le
  have hfl := h.flights
  -- before it is accepted a request has no chunk out
  refine ⟨?_, ?_, ?_, ?_, ?_, ?_, ?_, ?_, ?_, ?_, ?_⟩
  · dsimp only
    omega
  · dsimp only
    omega
  · dsimp only
    omega
  · intro _
    dsimp only
    omega
  · intro hf
    exact absurd (hf.symm.trans (hfailed.trans h2)) (by decide)
  · intro hr hj
    apply hchunks
    dsimp only at hr hj
    cases hp : r.phase with
    | routed => exact absurd hp hr
    | rejected => exact absurd hp hj
    | planned => rfl
    | queued | finishing | cancelled | done =>
      rw [hp] at hacc'
      cases hacc'
  · intro _
    exact ⟨hnext.trans h1, hfailed.trans h2, hresults.trans h3, hcancels.trans h4,
      hraced.trans h5, h6, h7, h8⟩
  · intro hf
    exact absurd h7 hf
  · intro hres
    exact absurd (hresults.trans h3) hres
  · intro hs
    rw [show v.finish = none from h7] at hs
    cases hs
  · intro _
    unfold View.Located
    dsimp only
    cases hp : r.phase with
    | routed | planned | rejected => trivial
    | queued | finishing | cancelled | done =>
      rw [hp] at hacc'
      cases hacc'

theorem planned_chunks_pos (cfg : Config) {r : Pending} (hbytes : r.req.bytes ≠ 0) :
    0 < (planned cfg r).chunks.length := by
  have hpos : (if r.req.priority = .BlockingMiss then cfg.p0_chunk_bytes
      else cfg.bg_chunk_bytes) ≠ 0 := by
    split
    · exact cfg.p0_chunk_pos
    · exact cfg.bg_chunk_pos
  exact (plan_chunks_planned hpos).length_pos (Nat.pos_of_ne_zero hbytes)

/-- Accepted: in its queue with all its chunks to issue. -/
theorem View.Inv.enqueue (h : v.Inv) (hp : v.r.phase = .planned) :
    View.Inv { v with r := { v.r with phase := .queued }, queued := true } := by
  obtain ⟨h1, h2, h3, h4, h5, h6, h7, h8⟩ := h.draft (by rw [hp]; rfl)
  have hpos : 0 < v.r.chunks.length := h.chunks (by rw [hp]; decide) (by rw [hp]; decide)
  refine ⟨h.next_le, h.issued_le, h.flights, h.whole, h.abandoned, fun _ _ => hpos, ?_, h.held,
    h.finished, h.settled, ?_⟩
  · intro hacc
    cases hacc
  · intro _
    refine ⟨?_, h7, h8, fun _ => rfl, .inl ?_⟩
    · simp [Pending.calls, h3, h4]
    · dsimp only
      omega

/-- `cancel` takes a request that has issued nothing. -/
theorem View.Inv.cancel (h : v.Inv) (hq : v.queued = true) (hnext : v.r.next_chunk = 0) :
    View.Inv
      { v with
        r := taken v.r (v.finish == some .requeue)
        queued := false
        cancelling := v.cancelling + 1 } := by
  have hacc := h.accepted (.inl hq)
  have hpos := h.chunks_pos hacc
  have hfl : v.flights = [] := by
    have h1 := h.issued_le
    have h2 := h.flights
    exact List.length_eq_zero_iff.mp (by omega)
  refine ⟨h.next_le, h.issued_le, h.flights, h.whole, h.abandoned, fun _ _ => hpos, ?_, h.held,
    h.finished, h.settled, ?_⟩
  · intro hacc
    cases hacc
  · intro hraced
    simp only [taken, Bool.or_eq_false_iff, beq_eq_false_iff_ne, ne_eq] at hraced
    -- `finish` does not have it: it would be about to requeue it
    have hf : v.finish = none := by
      by_contra hf
      have := (h.held hf).2
      rw [if_neg hraced.2] at this
      omega
    obtain ⟨_, hcalls, _, hc⟩ := h.active hraced.1 (.inr ⟨hq, hf, by omega⟩) hacc
    refine ⟨hcalls, hf, ?_, rfl, hfl⟩
    dsimp only
    omega

theorem View.Inv.call_cancelled (h : v.Inv) (hc : 0 < v.cancelling) :
    View.Inv
      { v with
        r := { v.r with phase := .done, cancels := v.r.cancels + 1 }
        cancelling := v.cancelling - 1 } := by
  have hacc := h.accepted (.inr (.inr hc))
  refine ⟨h.next_le, h.issued_le, h.flights, h.whole, h.abandoned, fun _ _ => h.chunks_pos hacc,
    ?_, h.held, h.finished, h.settled, ?_⟩
  · intro hacc
    cases hacc
  · intro hraced
    have hloc := h.located hraced
    unfold View.Located at hloc
    cases hp : v.r.phase with
    | routed | planned | rejected =>
      rw [hp] at hacc
      cases hacc
    | queued =>
      simp only [hp] at hloc
      omega
    | finishing =>
      simp only [hp] at hloc
      omega
    | cancelled =>
      simp only [hp] at hloc
      obtain ⟨hcalls, hf, hone, hq, hfl⟩ := hloc
      refine ⟨?_, .inl hf, ?_, hfl, ?_⟩
      · simp only [Pending.calls] at hcalls ⊢
        omega
      · dsimp only
        omega
      · intro hq'
        dsimp only at hq'
        rw [hq] at hq'
        cases hq'
    | done =>
      simp only [hp] at hloc
      omega

/-- A chunk goes out. -/
theorem View.Inv.issue (h : v.Inv) {w : PickedChunk} (hq : v.queued = true) (hf : v.finish = none)
    (hlt : v.r.next_chunk < v.r.chunks.length) :
    View.Inv { v with r := issued v.r, flights := w :: v.flights } := by
  have hacc := h.accepted (.inl hq)
  have hfailed : v.r.failed = false := by
    by_contra hfl
    have := h.abandoned (by simpa using hfl)
    omega
  have hwhole := h.whole hfailed
  have hflights := h.flights
  refine ⟨?_, ?_, ?_, ?_, ?_, fun _ _ => h.chunks_pos hacc, ?_, ?_, ?_, ?_, ?_⟩
  · simp only [issued]
    omega
  · simp only [issued]
    omega
  · simp only [issued, List.length_cons]
    omega
  · intro _
    simp only [issued]
    omega
  · intro hfl
    exact absurd (hfl.symm.trans hfailed) (by decide)
  · intro hno
    exact absurd (hno.symm.trans hacc) (by decide)
  · intro hne
    exact absurd hf hne
  · intro hres
    have := (h.finished hres).2.2.1
    omega
  · intro hs
    exact h.settled hs
  · intro hraced
    obtain ⟨hp, hcalls, _, hc⟩ := h.active hraced (.inr ⟨hq, hf, hlt⟩) hacc
    unfold View.Located
    simp only [issued, hp]
    exact ⟨hcalls, hf, hc, fun _ => hq, .inr (by simp)⟩

theorem discharged_course (r : Pending) (c : InflightChunk) (ok : Bool) :
    SameCourse r (discharged r c ok) := by
  unfold discharged
  split
  · exact ⟨rfl, rfl, rfl, rfl, rfl, rfl, rfl, rfl, rfl⟩
  · exact ⟨rfl, rfl, rfl, rfl, rfl, rfl, rfl, rfl, rfl⟩

/-- The course of a request after one completion. -/
structure Counts (r r' : Pending) (bad : Bool) : Prop where
  phase : r'.phase = r.phase
  chunks : r'.chunks = r.chunks
  issued : r'.issued_chunks = r.issued_chunks
  done : r'.done_chunks = r.done_chunks + 1
  failed : r'.failed = (r.failed || bad)
  next : r'.next_chunk = if bad = true ∧ r.failed = false then r.chunks.length else r.next_chunk
  results : r'.results = r.results
  cancels : r'.cancels = r.cancels
  raced : r'.raced = r.raced

theorem counted_counts (r : Pending) (moved : Nat) (status : Status) :
    Counts r (counted r moved status) (status.code != .Ok) := by
  unfold counted
  cases hs : (status.code != .Ok) with
  | true =>
    cases hf : r.failed with
    | true => exact ⟨rfl, rfl, rfl, rfl, by simp [hf], by simp [hf], rfl, rfl, rfl⟩
    | false => exact ⟨rfl, rfl, rfl, rfl, by simp [hf], by simp [hf], rfl, rfl, rfl⟩
  | false => exact ⟨rfl, rfl, rfl, rfl, by simp, by simp, rfl, rfl, rfl⟩

theorem completion_counts (cfg : Config) (r : Pending) (w : PickedChunk) (moved : Nat)
    (status : Status) (junk : Nat → UInt8) :
    Counts r (discharged (counted (landed cfg r w moved status junk) moved status) w.inflight
      (status.code == .Ok)) (status.code != .Ok) := by
  have hc := counted_counts (landed cfg r w moved status junk) moved status
  have hd := discharged_course (counted (landed cfg r w moved status junk) moved status)
    w.inflight (status.code == .Ok)
  exact ⟨hd.phase.trans hc.phase, hd.chunks.trans hc.chunks, hd.issued.trans hc.issued,
    hd.done.trans hc.done, hd.failed.trans hc.failed, hd.next.trans hc.next,
    hd.results.trans hc.results, hd.cancels.trans hc.cancels, hd.raced.trans hc.raced⟩

/-- What `completed` makes of a request differs from it in the phase only. -/
theorem completed_eq (r : Pending) : ∃ ph, completed r = { r with phase := ph } ∧
    (ph = r.phase ∨ ph = .finishing) := by
  unfold completed
  split
  · exact ⟨_, rfl, .inr rfl⟩
  · exact ⟨_, rfl, .inl rfl⟩

/-- The fields that going on to `finish` leaves alone. -/
theorem Counts.completed_same {r r' : Pending} {bad : Bool} (h : Counts r r' bad) :
    (completed r').next_chunk = r'.next_chunk ∧ (completed r').chunks = r.chunks ∧
      (completed r').issued_chunks = r.issued_chunks ∧
      (completed r').done_chunks = r.done_chunks + 1 ∧ (completed r').calls = r.calls := by
  obtain ⟨ph, heq, _⟩ := completed_eq r'
  rw [heq]
  exact ⟨rfl, h.chunks, h.issued, h.done, by simp [Pending.calls, h.results, h.cancels]⟩

/-- The counts of a request that went on to `finish`, or did not. -/
theorem Counts.completed {r r' : Pending} {bad : Bool} (h : Counts r r' bad) :
    (completed r').failed = (r.failed || bad) ∧
      ((completed r').failed = false → (completed r').next_chunk = r.next_chunk) ∧
      (completed r').results = r.results ∧
      ((completed r').phase = r.phase ∨ (completed r').phase = .finishing) ∧
      (completed r').raced = r.raced ∧ (completed r').cancels = r.cancels := by
  obtain ⟨ph, heq, hph⟩ := completed_eq r'
  rw [heq]
  refine ⟨h.failed, fun hno => ?_, h.results, hph.imp_left (·.trans h.phase), h.raced, h.cancels⟩
  dsimp only at hno ⊢
  rw [h.failed, Bool.or_eq_false_iff] at hno
  rw [h.next, if_neg (by simp [hno.2])]

/-- A failure gives up the chunks that were not issued. -/
theorem Counts.next_cases {r r' : Pending} {bad : Bool} (h : Counts r r' bad) :
    r'.next_chunk = r.chunks.length ∨
      r'.next_chunk = r.next_chunk ∧ (bad = false ∨ r.failed = true) := by
  rw [h.next]
  split
  · exact .inl rfl
  next hno =>
    refine .inr ⟨rfl, ?_⟩
    cases bad with
    | false => exact .inl rfl
    | true => exact .inr (by simpa using hno)

theorem accepted_planned {ph : Phase} (hacc : ph.accepted = true) :
    ph ≠ .routed ∧ ph ≠ .rejected := by
  constructor
  · rintro rfl
    cases hacc
  · rintro rfl
    cases hacc

theorem View.Inv.accepted_of_flights (h : v.Inv) {w : PickedChunk} (hw : w ∈ v.flights) :
    v.r.phase.accepted = true := by
  by_contra hno
  have hnext := (h.draft (by simpa using hno)).next
  have hpos := List.length_pos_of_mem hw
  have h1 := h.issued_le
  have h2 := h.flights
  omega

/-- A request is complete when nothing of it is in flight or to be issued. -/
theorem View.Inv.complete_iff (h : v.Inv) {w : PickedChunk} {bad : Bool} {r : Pending}
    (hw : w ∈ v.flights) (hr : Counts v.r r bad) :
    r.complete = true ↔ v.flights.erase w = [] ∧ r.next_chunk = v.r.chunks.length := by
  have hpos := List.length_pos_of_mem hw
  have hlen := List.length_erase_of_mem hw
  have hfl := h.flights
  have hle := h.next_le
  have hissued := h.issued_le
  have hdone := hr.done
  have hnext := hr.next_cases
  rw [← List.length_eq_zero_iff, Pending.complete, Bool.and_eq_true, beq_iff_eq, beq_iff_eq,
    hr.chunks, hr.issued]
  constructor
  · intro hc
    omega
  · intro hc
    omega

/-- A request that is not complete stays queued. -/
theorem View.Inv.complete_located (h : v.Inv) {w : PickedChunk} {bad : Bool} {r : Pending}
    (hw : w ∈ v.flights) (hr : Counts v.r r bad) (hraced : v.r.raced = false) :
    View.Located
      { v with
        r := completed r
        flights := v.flights.erase w
        finish := if r.complete then some .release else none } := by
  obtain ⟨snext, schunks, _, _, scalls⟩ := hr.completed_same
  obtain ⟨hp, hcalls, _, hc⟩ :=
    h.active hraced (.inl (List.ne_nil_of_mem hw)) (h.accepted_of_flights hw)
  have hloc := h.located hraced
  have hle := h.next_le
  have hnext := hr.next_cases
  simp only [View.Located, hp] at hloc
  unfold View.Located
  by_cases hcomp : r.complete = true
  · have hfin : (completed r).phase = .finishing := by simp [completed, hcomp]
    simp only [hfin, scalls, hcomp, if_true]
    exact ⟨hcalls, by simp, by simp, hc⟩
  · have hque : (completed r).phase = .queued := by simp [completed, hcomp, hr.phase, hp]
    simp only [hque, scalls, snext, schunks, hcomp]
    refine ⟨hcalls, by simp, hc, ?_, ?_⟩
    · intro hlt
      apply hloc.2.2.2.1
      omega
    · by_cases hn : r.next_chunk = v.r.chunks.length
      · exact .inr fun hempty => hcomp ((h.complete_iff hw hr).mpr ⟨hempty, hn⟩)
      · left
        omega

/-- A chunk comes in, ok or not; the last one hands the request to `finish`. -/
theorem View.Inv.complete (h : v.Inv) {w : PickedChunk} {bad : Bool} {r : Pending}
    (hw : w ∈ v.flights) (hr : Counts v.r r bad) :
    View.Inv
      { v with
        r := completed r
        flights := v.flights.erase w
        finish := if r.complete then some .release else none } := by
  have hacc := h.accepted_of_flights hw
  have hpos := List.length_pos_of_mem hw
  have hlen := List.length_erase_of_mem hw
  have hfl := h.flights
  have hle := h.next_le
  have hissued := h.issued_le
  have hdone := hr.done
  have hnext := hr.next_cases
  obtain ⟨snext, schunks, sissued, sdone, _⟩ := hr.completed_same
  obtain ⟨sfailed, _, sresults, hph, sraced, _⟩ := hr.completed
  have hphase : (completed r).phase.accepted = true := by
    rcases hph with hph | hph
    · rw [hph]
      exact hacc
    · rw [hph]
      rfl
  -- the last chunk hands the request to `finish`
  constructor
  case next_le =>
    dsimp only
    rw [snext, schunks]
    omega
  case issued_le =>
    dsimp only
    rw [snext, sissued]
    omega
  case flights =>
    dsimp only
    rw [sdone, sissued]
    omega
  case whole =>
    intro hf
    dsimp only at hf ⊢
    rw [sfailed, Bool.or_eq_false_iff] at hf
    rw [sissued, snext, h.whole hf.1, hr.next, if_neg (by simp [hf.2])]
  case abandoned =>
    intro hf
    dsimp only at hf ⊢
    rw [snext, schunks]
    rcases hnext with hn | ⟨hn, hb | hv⟩
    · exact hn
    · rw [hn]
      apply h.abandoned
      simpa [sfailed, hb] using hf
    · rw [hn]
      exact h.abandoned hv
  case chunks =>
    intro _ _
    dsimp only
    rw [schunks]
    exact h.chunks_pos hacc
  case draft =>
    intro hno
    exact absurd (hno.symm.trans hphase) (by decide)
  case held =>
    intro hne
    dsimp only at hne ⊢
    split at hne
    next hc =>
      rw [snext, schunks]
      obtain ⟨hempty, hn⟩ := (h.complete_iff hw hr).mp hc
      exact ⟨hempty, by simp [hc, hn]⟩
    · exact absurd rfl hne
  case finished =>
    intro hres
    have := (h.finished (by simpa only [sresults] using hres)).2.1
    rw [this] at hw
    cases hw
  case settled =>
    intro hs
    dsimp only at hs
    split at hs
    · cases hs
    · cases hs
  case located =>
    intro hraced
    exact h.complete_located hw hr (sraced.symm.trans hraced)

/-- The charges go back; the request is to be retried or called back. -/
theorem View.Inv.release (h : v.Inv) (hf : v.finish = some .release) {next : FinishStep}
    (hnext : next ≠ .requeue) (hnext' : next ≠ .settle) :
    View.Inv { v with r := released v.r, finish := some next } := by
  have hne : v.finish ≠ none := by simp [hf]
  have hacc := h.accepted (.inr (.inl hne))
  obtain ⟨hempty, hlast⟩ := h.held hne
  rw [if_neg (by simp [hf])] at hlast
  have hfin : View.Inv { v with finish := some next } := by
    refine ⟨h.next_le, h.issued_le, h.flights, h.whole, h.abandoned, h.chunks, ?_, ?_, ?_, ?_, ?_⟩
    · intro hno
      exact absurd (hno.symm.trans hacc) (by decide)
    · intro _
      refine ⟨hempty, ?_⟩
      rw [if_neg (by simpa using hnext)]
      exact hlast
    · intro hres
      have := (h.finished hres).2.2.2
      simp [hf] at this
    · intro hs
      simp only [Option.some.injEq] at hs
      exact absurd hs hnext'
    · intro hraced
      obtain ⟨hp, hcalls, hc⟩ := h.finishing hraced hne (by simp [hf])
      simp only [View.Located, hp]
      exact ⟨hcalls, by simp, by simpa using hnext', hc⟩
  exact hfin.of_course (released_course v.r)

theorem View.Inv.reset (h : v.Inv) (hf : v.finish = some .reset) :
    View.Inv { v with r := v.r.retry, finish := some .requeue } := by
  have hne : v.finish ≠ none := by simp [hf]
  have hacc := h.accepted (.inr (.inl hne))
  obtain ⟨hempty, _⟩ := h.held hne
  refine ⟨?_, ?_, ?_, ?_, ?_, fun _ _ => h.chunks_pos hacc, ?_, ?_, ?_, ?_, ?_⟩
  · exact Nat.zero_le _
  · exact Nat.le_refl 0
  · simp [Pending.retry, hempty]
  · intro _
    rfl
  · intro hfl
    cases hfl
  · intro hno
    exact absurd (hno.symm.trans hacc) (by decide)
  · intro _
    exact ⟨hempty, by simp [Pending.retry]⟩
  · intro hres
    have := (h.finished hres).2.2.2
    simp [hf] at this
  · intro hs
    simp at hs
  · intro hraced
    obtain ⟨hp, hcalls, hc⟩ := h.finishing hraced hne (by simp [hf])
    unfold View.Located
    simp only [Pending.retry, hp]
    exact ⟨hcalls, by simp, by simp, hc⟩

/-- The retry is queued like a fresh request. -/
theorem View.Inv.requeue (h : v.Inv) (hf : v.finish = some .requeue) :
    View.Inv { v with r := { v.r with phase := .queued }, queued := true, finish := none } := by
  have hne : v.finish ≠ none := by simp [hf]
  have hpos := h.chunks_pos (h.accepted (.inr (.inl hne)))
  obtain ⟨hempty, hlast⟩ := h.held hne
  rw [if_pos hf] at hlast
  refine ⟨h.next_le, h.issued_le, h.flights, h.whole, h.abandoned, fun _ _ => hpos, ?_, ?_, ?_,
    ?_, ?_⟩
  · intro hno
    cases hno
  · intro hno
    exact absurd rfl hno
  · intro hres
    have := (h.finished hres).2.2.2
    simp [hf] at this
  · intro hs
    cases hs
  · intro hraced
    obtain ⟨_, hcalls, hc⟩ := h.finishing hraced hne (by simp [hf])
    exact ⟨hcalls, rfl, hc, fun _ => rfl, .inl (hlast ▸ hpos)⟩

/-- `finish` calls back. -/
theorem View.Inv.deliver (h : v.Inv) {res : IoResult} (hf : v.finish = some (.deliver res)) :
    View.Inv
      { v with
        r := { v.r with phase := .done, results := v.r.results ++ [res] }
        finish := some .settle } := by
  have hne : v.finish ≠ none := by simp [hf]
  have hpos := h.chunks_pos (h.accepted (.inr (.inl hne)))
  obtain ⟨hempty, hlast⟩ := h.held hne
  rw [if_neg (by simp [hf])] at hlast
  have hfirst : v.r.results = [] := by
    by_contra hres
    have := (h.finished hres).2.2.2
    simp [hf] at this
  refine ⟨h.next_le, h.issued_le, h.flights, h.whole, h.abandoned, fun _ _ => hpos, ?_, ?_, ?_,
    ?_, ?_⟩
  · intro hno
    cases hno
  · intro _
    exact ⟨hempty, by simpa using hlast⟩
  · intro _
    exact ⟨by simp [hfirst], hempty, hlast, .inr rfl⟩
  · intro _
    simp
  · intro hraced
    obtain ⟨_, hcalls, hc⟩ := h.finishing hraced hne (by simp [hf])
    refine ⟨?_, .inr rfl, hc, hempty, fun _ => hlast⟩
    simp only [Pending.calls, List.length_append, List.length_singleton] at hcalls ⊢
    omega

theorem View.Inv.settle (h : v.Inv) (hf : v.finish = some .settle) :
    View.Inv { v with finish := none } := by
  have hne : v.finish ≠ none := by simp [hf]
  have hacc := h.accepted (.inr (.inl hne))
  have hres := h.settled hf
  refine ⟨h.next_le, h.issued_le, h.flights, h.whole, h.abandoned, h.chunks, ?_, ?_, ?_, ?_, ?_⟩
  · intro hno
    exact absurd (hno.symm.trans hacc) (by decide)
  · intro hno
    exact absurd rfl hno
  · intro _
    obtain ⟨h1, h2, h3, _⟩ := h.finished hres
    exact ⟨h1, h2, h3, .inl rfl⟩
  · intro hs
    cases hs
  · intro hraced
    have hloc := h.located hraced
    unfold View.Located at hloc ⊢
    cases hp : v.r.phase with
    | routed | planned | rejected => trivial
    | queued | cancelled =>
      simp only [hp] at hloc
      exact absurd hloc.2.1 hne
    | finishing =>
      simp only [hp] at hloc
      exact absurd hf hloc.2.2.1
    | done =>
      simp only [hp] at hloc ⊢
      exact ⟨hloc.1, .inl trivial, hloc.2.2⟩

theorem View.Inv.move (h : v.Inv) {l : Option Completion} (hm : Move cfg l v v') : v'.Inv := by
  cases hm with
  | stay => exact h
  | dequeue hex => exact h.dequeue hex
  | reject hp =>
    refine h.submitting (by rw [hp]; rfl) rfl rfl rfl rfl rfl rfl rfl rfl ?_
    intro hno
    cases hno
  | plan hp hbytes =>
    exact h.submitting (by rw [hp]; rfl) rfl rfl rfl rfl rfl rfl rfl rfl
      fun _ => planned_chunks_pos cfg hbytes
  | stripe s hp hbytes =>
    exact h.submitting (by rw [hp]; rfl) rfl rfl rfl rfl rfl rfl rfl rfl
      fun _ => planned_chunks_pos cfg hbytes
  | enqueue hp => exact h.enqueue hp
  | cancel hq hn => exact h.cancel hq hn
  | uncharge => exact h.of_course (unstriped_course v.r)
  | call_cancelled hc => exact h.call_cancelled hc
  | issue p cid hq hf hc => exact h.issue hq hf (List.getElem?_eq_some_iff.mp hc).1
  | complete moved status junk hw hf hr =>
    exact h.complete hw (hr ▸ completion_counts cfg v.r _ moved status junk)
  | release hf =>
    refine h.release hf ?_ ?_
    · split <;> simp
    · split <;> simp
  | reset hf => exact h.reset hf
  | requeue hf => exact h.requeue hf
  | deliver hf => exact h.deliver hf
  | settle hf => exact h.settle hf

end CachedMoe.Storage
