import Mathlib.Algebra.BigOperators.Group.List.Basic
import CachedMoe.Storage.Completion

/-! # Mirrors never decide correctness

    A request may be read from a mirror, whole or in part. When a mirror's read fails, `finish`
    reads the request once more from the primary, so that only the primary's own failures reach
    the caller. `View.Reads` is what holds of a request's reads through every move, provided a
    chunk that comes back ok has moved at least its `min_bytes`. -/

namespace CachedMoe.Storage

open CachedMoe Engine

/-- A file that stands for another: same size, same bytes. -/
def SameFile (cfg : Config) (f g : Nat) : Prop :=
  (cfg.files f).size = (cfg.files g).size ∧ (cfg.files f).content = (cfg.files g).content

/-- A chunk that comes back ok has moved what it had to. -/
def Completion.Honest (c : Completion) : Prop :=
  c.2.2.code = .Ok → c.1.req.min_bytes ≤ c.2.1

/-- What of the request lies inside the caller's file. -/
def in_file (cfg : Config) (r : Pending) : Nat :=
  min r.req.bytes ((cfg.files r.origin).size - r.req.file_off)

/-- Chunk `i` is in the destination, as far as it lies inside the file. -/
def Landed (cfg : Config) (r : Pending) (i : Nat) : Prop :=
  ∀ c, r.chunks[i]? = some c → ∀ k < c.in_file (cfg.files r.origin).size,
    r.buffer (c.off - r.req.file_off + k) = (cfg.files r.origin).content (c.off + k)

/-- The request is in the destination, as far as it lies inside the file. -/
def Delivered (cfg : Config) (r : Pending) : Prop :=
  ∀ k < in_file cfg r, r.buffer k = (cfg.files r.origin).content (r.req.file_off + k)

def need (cfg : Config) (r : Pending) (i : Nat) : Nat :=
  Planned.need r.chunks (cfg.files r.origin).size i

/-- Where the chunks of a request may be read from. -/
structure Routing (cfg : Config) (r : Pending) : Prop where
  file : SameFile cfg r.req.file r.origin
  row : ∀ i f, r.src_file i = some f → SameFile cfg f r.origin
  primary : ∀ f, r.primary = some f → f = r.origin
  /-- A request that is not retried is read from the caller's file. -/
  direct : r.primary = none → r.chunk_src = [] → r.req.file = r.origin
  /-- Source 0 of a striped request is the caller's file. -/
  home : r.stripe_mask.isSome = true → r.src_file 0 = some r.origin ∧ r.req.file = r.origin
  striped : r.chunk_src ≠ [] → r.src_file 0 = some r.origin ∧ r.chunk_src.length = r.chunks.length
  share : ∀ i ∈ r.chunk_src, i < kMaxIoSources ∧ (i ≠ 0 → r.primary.isSome = true)

/-- A chunk in flight reads its part of the request. -/
structure Fits (cfg : Config) (r : Pending) (w : PickedChunk) : Prop where
  src : w.src = r.chunk_src[w.index]?
  req : ∃ c, r.chunks[w.index]? = some c ∧ w.req = chunk_request cfg r w.req.chunk_id w.src c

/-- What is known of a request's reads. -/
structure View.Reads (cfg : Config) (v : View) : Prop where
  routing : Routing cfg v.r
  plan : v.r.phase ≠ .routed → v.r.phase ≠ .rejected →
    (∃ step, Planned v.r.chunks v.r.req.file_off v.r.req.bytes step) ∧
      v.r.required_bytes = in_file cfg v.r
  fits : ∀ w ∈ v.flights, Fits cfg v.r w
  landed : v.r.failed = false → ∀ i < v.r.next_chunk,
    (∃ w ∈ v.flights, w.index = i) ∨ Landed cfg v.r i
  moved : v.r.failed = false → ∑ i ∈ Finset.range v.r.next_chunk, need cfg v.r i ≤
    v.r.bytes_moved + (v.flights.map fun w => need cfg v.r w.index).sum
  /-- A failure is the primary's, or the request will be retried. -/
  fault : v.r.failed = true → v.r.primary_failed = true ∨
    v.r.primary.isSome = true ∧ (v.r.chunk_src ≠ [] → any_mirror v.r.src_err = true)
  status : v.r.status.code = .Ok ↔ v.r.failed = false
  retries : v.r.retries + (if v.r.primary.isSome = true then 1 else 0) ≤ 1
  fresh : v.r.phase.accepted = false →
    v.r.retries = 0 ∧ (v.r.phase = .routed → v.r.chunk_src = [])
  retried : v.finish = some .reset → v.r.primary.isSome = true
  delivered : ∀ res, v.finish = some (.deliver res) → res = v.r.result ∧ v.r.fails_over = false
  results : ∀ res ∈ v.r.results,
    (res.ok = true → Delivered cfg v.r) ∧ (res.ok = false → v.r.primary_failed = true)

variable {cfg : Config} {v v' : View}

/-! ### Small facts -/

theorem SameFile.refl (cfg : Config) (f : Nat) : SameFile cfg f f := ⟨rfl, rfl⟩

theorem any_mirror_of {mask : Mask} {i : Nat} (hi : i ≠ 0) (hlt : i < kMaxIoSources)
    (h : mask i = true) : any_mirror mask = true := by
  rw [any_mirror, List.any_eq_true]
  exact ⟨i, List.mem_range.mpr hlt, by simp [hi, h]⟩

theorem any_mirror_mono {mask mask' : Mask} (h : ∀ i, mask i = true → mask' i = true)
    (hm : any_mirror mask = true) : any_mirror mask' = true := by
  rw [any_mirror, List.any_eq_true] at hm ⊢
  obtain ⟨i, hi, hbit⟩ := hm
  rw [Bool.and_eq_true] at hbit
  exact ⟨i, hi, by rw [Bool.and_eq_true]; exact ⟨hbit.1, h i hbit.2⟩⟩

/-- The result of a complete request is ok exactly when it did not fail and all arrived. -/
theorem result_ok_iff {r : Pending} (hstatus : r.status.code = .Ok ↔ r.failed = false) :
    r.result.ok = true ↔ r.failed = false ∧ r.required_bytes ≤ r.bytes_moved := by
  unfold IoResult.ok Pending.result
  cases hf : r.failed with
  | true =>
    have : r.status.code ≠ .Ok := fun hok => by simp [hstatus.mp hok] at hf
    simp [this]
  | false =>
    have hok := hstatus.mpr hf
    by_cases hshort : r.bytes_moved < r.required_bytes
    · simp [hshort]
    · simp [hshort, hok, Nat.not_lt.mp hshort]

theorem chunk_file_same {r : Pending} (h : Routing cfg r) (src : Option Nat) (cid : Nat)
    (c : Chunk) : SameFile cfg (chunk_request cfg r cid src c).file r.origin := by
  unfold chunk_request
  cases src with
  | none => exact h.file
  | some i =>
    cases hf : r.src_file i with
    | none => simpa [hf] using h.file
    | some f => simpa [hf] using h.row i f hf

/-- A chunk not read from the caller's file belongs to a request that can be retried. -/
theorem mirror_read {r : Pending} (h : Routing cfg r) {w : PickedChunk} (hw : Fits cfg r w)
    (hfile : w.req.file ≠ r.origin) :
    r.primary.isSome = true ∧
      (r.chunk_src ≠ [] → ∃ i, w.src = some i ∧ i ≠ 0 ∧ i < kMaxIoSources) := by
  obtain ⟨c, hc, hreq⟩ := hw.req
  have hlt := (List.getElem?_eq_some_iff.mp hc).1
  cases hsrc : w.src with
  | none =>
    have hempty : r.chunk_src = [] := by
      by_contra hne
      have hnone := hw.src.symm.trans hsrc
      rw [List.getElem?_eq_none_iff] at hnone
      have := (h.striped hne).2
      omega
    refine ⟨?_, fun hne => absurd hempty hne⟩
    cases hp : r.primary with
    | some f => rfl
    | none =>
      have hf := h.direct hp hempty
      rw [hreq, hsrc] at hfile
      exact absurd hf hfile
  | some i =>
    have hmem : i ∈ r.chunk_src := List.mem_of_getElem? (hw.src.symm.trans hsrc)
    obtain ⟨hi, hprim⟩ := h.share i hmem
    have hne : i ≠ 0 := by
      intro h0
      apply hfile
      rw [hreq, hsrc, h0]
      simp [chunk_request, (h.striped (List.ne_nil_of_mem hmem)).1]
    exact ⟨hprim hne, fun _ => ⟨i, rfl, hne, hi⟩⟩

/-! ### Moves that leave the reads alone -/

/-- The fields the reads are about. -/
structure SameReads (r r' : Pending) : Prop where
  req : r'.req = r.req
  origin : r'.origin = r.origin
  stripe_mask : r'.stripe_mask = r.stripe_mask
  chunks : r'.chunks = r.chunks
  required : r'.required_bytes = r.required_bytes
  next : r'.next_chunk = r.next_chunk
  moved : r'.bytes_moved = r.bytes_moved
  primary : r'.primary = r.primary
  chunk_src : r'.chunk_src = r.chunk_src
  src_file : r'.src_file = r.src_file
  src_err : r'.src_err = r.src_err
  status : r'.status = r.status
  failed : r'.failed = r.failed
  buffer : r'.buffer = r.buffer
  primary_failed : r'.primary_failed = r.primary_failed
  retries : r'.retries = r.retries
  results : r'.results = r.results


theorem Routing.congr {r r' : Pending} (h : Routing cfg r) (hreq : r'.req = r.req)
    (horigin : r'.origin = r.origin) (hmask : r'.stripe_mask = r.stripe_mask)
    (hchunks : r'.chunks = r.chunks) (hprimary : r'.primary = r.primary)
    (hsrc : r'.chunk_src = r.chunk_src) (hfile : r'.src_file = r.src_file) : Routing cfg r' := by
  obtain ⟨h1, h2, h3, h4, h5, h6, h7⟩ := h
  rw [← hreq, ← horigin] at h1
  rw [← hfile, ← horigin] at h2
  rw [← hprimary, ← horigin] at h3
  rw [← hprimary, ← horigin, ← hsrc, ← hreq] at h4
  rw [← hmask, ← hfile, ← horigin, ← hreq] at h5
  rw [← hsrc, ← hfile, ← horigin, ← hchunks] at h6
  rw [← hsrc, ← hprimary] at h7
  exact ⟨h1, h2, h3, h4, h5, h6, h7⟩

theorem Fits.congr {r r' : Pending} {w : PickedChunk} (h : Fits cfg r w) (hreq : r'.req = r.req)
    (hchunks : r'.chunks = r.chunks) (hsrc : r'.chunk_src = r.chunk_src)
    (hfile : r'.src_file = r.src_file) : Fits cfg r' w := by
  obtain ⟨h1, c, hc, hw⟩ := h
  refine ⟨by rw [hsrc, h1], c, by rw [hchunks, hc], ?_⟩
  rw [hw]
  simp [chunk_request, hreq, hfile]

theorem Landed.congr {r r' : Pending} {i : Nat} (h : Landed cfg r i) (hreq : r'.req = r.req)
    (horigin : r'.origin = r.origin) (hchunks : r'.chunks = r.chunks)
    (hbuffer : r'.buffer = r.buffer) : Landed cfg r' i := by
  unfold Landed at h ⊢
  rw [hreq, horigin, hchunks, hbuffer]
  exact h

theorem Delivered.congr {r r' : Pending} (h : Delivered cfg r) (hreq : r'.req = r.req)
    (horigin : r'.origin = r.origin) (hbuffer : r'.buffer = r.buffer) : Delivered cfg r' := by
  unfold Delivered in_file at h ⊢
  rw [hreq, horigin, hbuffer]
  exact h

theorem SameReads.result {r r' : Pending} (h : SameReads r r') : r'.result = r.result := by
  simp [Pending.result, h.req, h.moved, h.failed, h.required, h.status]

theorem SameReads.fails_over {r r' : Pending} (h : SameReads r r') :
    r'.fails_over = r.fails_over := by
  simp [Pending.fails_over, h.result, h.primary, h.chunk_src, h.src_err]

theorem View.Reads.of_same (h : v.Reads cfg) {r : Pending} (hs : SameReads v.r r)
    (hphase : r.phase ≠ .routed → r.phase ≠ .rejected →
      v.r.phase ≠ .routed ∧ v.r.phase ≠ .rejected)
    (hdraft : r.phase.accepted = false → r.phase = v.r.phase) (queued : Bool) (cancelling : Nat) :
    View.Reads cfg { v with r := r, queued := queued, cancelling := cancelling } := by
  have hneed : ∀ i, need cfg r i = need cfg v.r i := by
    intro i
    rw [need, need, hs.chunks, hs.origin]
  -- every field speaks of what `SameReads` keeps
  constructor
  case routing =>
    exact h.routing.congr hs.req hs.origin hs.stripe_mask hs.chunks hs.primary hs.chunk_src
      hs.src_file
  case plan =>
    intro h1 h2
    have := h.plan (hphase h1 h2).1 (hphase h1 h2).2
    dsimp only
    rw [hs.chunks, hs.req, hs.required, in_file, hs.req, hs.origin]
    exact this
  case fits =>
    intro w hw
    exact (h.fits w hw).congr hs.req hs.chunks hs.chunk_src hs.src_file
  case landed =>
    intro hf i hi
    rcases h.landed (hs.failed ▸ hf) i (hs.next ▸ hi) with hin | hl
    · exact .inl hin
    · exact .inr (hl.congr hs.req hs.origin hs.chunks hs.buffer)
  case moved =>
    intro hf
    dsimp only
    simp only [hneed, hs.next, hs.moved]
    exact h.moved (hs.failed ▸ hf)
  case fault =>
    intro hf
    dsimp only
    rw [hs.primary_failed, hs.primary, hs.chunk_src, hs.src_err]
    exact h.fault (hs.failed ▸ hf)
  case status =>
    dsimp only
    rw [hs.status, hs.failed]
    exact h.status
  case retries =>
    dsimp only
    rw [hs.retries, hs.primary]
    exact h.retries
  case fresh =>
    intro hacc
    dsimp only at hacc ⊢
    rw [hs.retries, hs.chunk_src, hdraft hacc]
    exact h.fresh (hdraft hacc ▸ hacc)
  case retried =>
    dsimp only
    rw [hs.primary]
    exact h.retried
  case delivered =>
    dsimp only
    rw [hs.result, hs.fails_over]
    exact h.delivered
  case results =>
    intro res hres
    dsimp only at hres ⊢
    rw [hs.results] at hres
    obtain ⟨hok, hbad⟩ := h.results res hres
    rw [hs.primary_failed]
    exact ⟨fun hr => (hok hr).congr hs.req hs.origin hs.buffer, hbad⟩

theorem released_reads (r : Pending) : SameReads r (released r) := by
  unfold released
  split
  · exact ⟨rfl, rfl, rfl, rfl, rfl, rfl, rfl, rfl, rfl, rfl, rfl, rfl, rfl, rfl, rfl, rfl, rfl⟩
  split
  · exact ⟨rfl, rfl, rfl, rfl, rfl, rfl, rfl, rfl, rfl, rfl, rfl, rfl, rfl, rfl, rfl, rfl, rfl⟩
  · exact ⟨rfl, rfl, rfl, rfl, rfl, rfl, rfl, rfl, rfl, rfl, rfl, rfl, rfl, rfl, rfl, rfl, rfl⟩

/-! ### Planning and striping -/

theorem stripe_source_lt (cfg : Config) (mask : Mask) (row : Nat → Option Nat) (t : Striping)
    (c : Chunk) : stripe_source cfg mask row t c < kMaxIoSources := by
  unfold stripe_source
  dsimp only
  split
  next hpick => exact hpick.1
  · decide

/-- Routing the chunks one by one gives each a source, and marks it used. -/
theorem stripe_shares (cfg : Config) (mask : Mask) (row : Nat → Option Nat) (l : List Chunk) :
    ∀ t : Striping, (∀ i ∈ t.chunk_src, i < kMaxIoSources ∧ t.used i = true) →
      (l.foldl (stripe_chunk cfg mask row) t).chunk_src.length = t.chunk_src.length + l.length ∧
      ∀ i ∈ (l.foldl (stripe_chunk cfg mask row) t).chunk_src,
        i < kMaxIoSources ∧ (l.foldl (stripe_chunk cfg mask row) t).used i = true := by
  induction l with
  | nil =>
    intro t ht
    exact ⟨rfl, ht⟩
  | cons c l ih =>
    intro t ht
    rw [List.foldl_cons]
    have hstep : ∀ i ∈ (stripe_chunk cfg mask row t c).chunk_src,
        i < kMaxIoSources ∧ (stripe_chunk cfg mask row t c).used i = true := by
      intro i hi
      simp only [stripe_chunk, List.mem_append, List.mem_singleton] at hi ⊢
      rcases hi with hold | hnew
      · refine ⟨(ht i hold).1, ?_⟩
        rw [Function.update_apply, (ht i hold).2, ite_self]
      · rw [hnew, Function.update_self]
        exact ⟨stripe_source_lt cfg mask row t c, rfl⟩
    obtain ⟨hlen, hmem⟩ := ih _ hstep
    refine ⟨?_, hmem⟩
    have hone : (stripe_chunk cfg mask row t c).chunk_src.length = t.chunk_src.length + 1 := by
      simp [stripe_chunk]
    rw [hlen, hone, List.length_cons]
    omega

/-- The plan of a request whose checks passed. -/
theorem planned_spec (cfg : Config) {r : Pending} (hfile : SameFile cfg r.req.file r.origin) :
    (∃ step, Planned (planned cfg r).chunks r.req.file_off r.req.bytes step) ∧
      (planned cfg r).required_bytes = in_file cfg r := by
  constructor
  · have hpos : (if r.req.priority = .BlockingMiss then cfg.p0_chunk_bytes
        else cfg.bg_chunk_bytes) ≠ 0 := by
      split
      · exact cfg.p0_chunk_pos
      · exact cfg.bg_chunk_pos
    exact ⟨_, plan_chunks_planned hpos⟩
  · simp only [planned, in_file, hfile.1]

/-- `submit` at work: nothing is in flight, and the plan is as it should be. -/
theorem View.Reads.submitting (h : v.Reads cfg) (hinv : v.Inv) {r : Pending}
    (hacc : v.r.phase.accepted = false) (hphase : r.phase ≠ .routed) (hrouting : Routing cfg r)
    (hplan : r.phase ≠ .routed → r.phase ≠ .rejected →
      (∃ step, Planned r.chunks r.req.file_off r.req.bytes step) ∧ r.required_bytes = in_file cfg r)
    (hnext : r.next_chunk = v.r.next_chunk) (hfailed : r.failed = v.r.failed)
    (hstatus : r.status = v.r.status) (hretries : r.retries = v.r.retries)
    (hresults : r.results = v.r.results) : View.Reads cfg { v with r := r } := by
  have hd := hinv.draft hacc
  have hzero := (h.fresh hacc).1
  have hempty : v.flights = [] := by
    have h1 := hinv.issued_le
    have h2 := hinv.flights
    have h3 := hd.next
    exact List.length_eq_zero_iff.mp (by omega)
  -- a draft has no chunk out
  constructor
  case routing => exact hrouting
  case plan => exact hplan
  case fits => simp [hempty]
  case landed =>
    intro _ i hi
    dsimp only at hi
    rw [hnext, hd.next] at hi
    exact absurd hi (Nat.not_lt_zero i)
  case moved =>
    intro _
    dsimp only
    rw [hnext, hd.next]
    simp
  case fault =>
    intro hf
    exact absurd (hf.symm.trans (hfailed.trans hd.failed)) (by decide)
  case status =>
    dsimp only
    rw [hstatus, hfailed]
    exact h.status
  case retries =>
    dsimp only
    rw [hretries, hzero]
    split <;> omega
  case fresh =>
    intro _
    exact ⟨hretries.trans hzero, fun hp => absurd hp hphase⟩
  case retried =>
    intro hf
    dsimp only at hf
    rw [hd.finish] at hf
    cases hf
  case delivered =>
    intro res hf
    dsimp only at hf
    rw [hd.finish] at hf
    cases hf
  case results =>
    intro res hres
    dsimp only at hres
    rw [hresults, hd.results] at hres
    cases hres

theorem View.Reads.plan_move (h : v.Reads cfg) (hinv : v.Inv) (hp : v.r.phase = .routed) :
    View.Reads cfg { v with r := planned cfg v.r } := by
  have hacc : v.r.phase.accepted = false := by rw [hp]; rfl
  have hsrc := (h.fresh hacc).2 hp
  obtain ⟨h1, h2, h3, h4, h5, _, _⟩ := h.routing
  refine h.submitting hinv hacc (fun hr => by cases hr) ?_ (fun _ _ => planned_spec cfg h1) rfl rfl rfl rfl rfl
  refine ⟨h1, h2, h3, h4, h5, ?_, ?_⟩
  · intro hne
    exact absurd hsrc hne
  · intro i hi
    rw [show (planned cfg v.r).chunk_src = [] from hsrc] at hi
    cases hi

theorem View.Reads.stripe_move (h : v.Reads cfg) (hinv : v.Inv) (hp : v.r.phase = .routed)
    {mask : Mask} (hmask : v.r.stripe_mask = some mask) (s : Engine) :
    View.Reads cfg
      { v with r := striped (planned cfg v.r) (s.stripe cfg (planned cfg v.r) mask) } := by
  have hacc : v.r.phase.accepted = false := by rw [hp]; rfl
  obtain ⟨hlen, hshare⟩ := stripe_shares cfg mask v.r.src_file (planned cfg v.r).chunks
    { outstanding := s.src_outstanding, inflight := s.src_inflight } (by simp)
  obtain ⟨h1, h2, h3, _, h5, _, _⟩ := h.routing
  obtain ⟨hzero, hfile⟩ := h5 (by simp [hmask])
  refine h.submitting hinv hacc (fun hr => by cases hr) ?_ (fun _ _ => planned_spec cfg h1) rfl rfl
    rfl rfl rfl
  refine ⟨h1, h2, ?_, fun _ _ => hfile, fun _ => ⟨hzero, hfile⟩, ?_, ?_⟩
  · intro f hf
    simp only [striped] at hf
    split at hf
    · cases hf
      rfl
    · exact h3 f hf
  · intro _
    exact ⟨hzero, hlen.trans (Nat.zero_add _)⟩
  · intro i hi
    obtain ⟨hlt, hused⟩ := hshare i hi
    refine ⟨hlt, ?_⟩
    intro hne
    have hany : any_mirror (s.stripe cfg (planned cfg v.r) mask).used = true :=
      any_mirror_of hne hlt hused
    simp [striped, hany]

/-! ### Chunks out and in -/

theorem View.Reads.issue (h : v.Reads cfg) {c : Chunk} (p cid : Nat)
    (hc : v.r.chunks[v.r.next_chunk]? = some c) :
    View.Reads cfg
      { v with r := issued v.r, flights := picked cfg v.r p cid c :: v.flights } := by
  constructor
  case routing => exact h.routing.congr rfl rfl rfl rfl rfl rfl rfl
  case plan => exact h.plan
  case fits =>
    intro w hw
    rcases List.mem_cons.mp hw with rfl | hw
    · exact ⟨rfl, c, hc, rfl⟩
    · exact (h.fits w hw).congr rfl rfl rfl rfl
  case landed =>
    intro hf i hi
    by_cases hlast : i = v.r.next_chunk
    · exact .inl ⟨_, List.mem_cons_self, hlast.symm⟩
    · have hi' : i < v.r.next_chunk + 1 := hi
      rcases h.landed hf i (by omega) with ⟨w, hw, hwi⟩ | hl
      · exact .inl ⟨w, List.mem_cons_of_mem _ hw, hwi⟩
      · exact .inr (hl.congr rfl rfl rfl rfl)
  case moved =>
    intro hf
    have := h.moved hf
    show ∑ i ∈ Finset.range (v.r.next_chunk + 1), need cfg v.r i ≤ v.r.bytes_moved +
      (need cfg v.r v.r.next_chunk + (v.flights.map fun w => need cfg v.r w.index).sum)
    rw [Finset.sum_range_succ]
    omega
  case fault => exact h.fault
  case status => exact h.status
  case retries => exact h.retries
  case fresh => exact h.fresh
  case retried => exact h.retried
  case delivered =>
    intro res hf
    exact h.delivered res hf
  case results =>
    intro res hres
    obtain ⟨hok, hbad⟩ := h.results res hres
    exact ⟨fun hr => (hok hr).congr rfl rfl rfl, hbad⟩

/-- What a completion writes of a request's reads. -/
structure Transfers (cfg : Config) (r r' : Pending) (w : PickedChunk) (moved : Nat)
    (status : Status) (junk : Nat → UInt8) : Prop where
  req : r'.req = r.req
  origin : r'.origin = r.origin
  stripe_mask : r'.stripe_mask = r.stripe_mask
  chunks : r'.chunks = r.chunks
  required : r'.required_bytes = r.required_bytes
  primary : r'.primary = r.primary
  chunk_src : r'.chunk_src = r.chunk_src
  src_file : r'.src_file = r.src_file
  retries : r'.retries = r.retries
  bytes_moved : r'.bytes_moved = r.bytes_moved + moved
  buffer : r'.buffer = transferred cfg r w moved (status.code == .Ok) junk
  primary_failed : r'.primary_failed =
    (r.primary_failed || (!(status.code == .Ok) && w.req.file == r.origin))
  result : r'.status = if status.code ≠ .Ok ∧ r.failed = false then status else r.status
  err : ∀ i, r.src_err i = true → r'.src_err i = true
  new_err : status.code ≠ .Ok → ∀ i, w.src = some i → r'.src_err i = true

theorem completion_transfers (cfg : Config) (r : Pending) (w : PickedChunk) (moved : Nat)
    (status : Status) (junk : Nat → UInt8) :
    Transfers cfg r (completed (discharged (counted (landed cfg r w moved status junk) moved status)
      w.inflight (status.code == .Ok))) w moved status junk := by
  have hcompleted : ∀ r₁ : Pending, Transfers cfg r r₁ w moved status junk →
      Transfers cfg r (completed r₁) w moved status junk := by
    intro r₁ h
    unfold completed
    split
    · exact ⟨h.req, h.origin, h.stripe_mask, h.chunks, h.required, h.primary, h.chunk_src,
        h.src_file, h.retries, h.bytes_moved, h.buffer, h.primary_failed, h.result, h.err, h.new_err⟩
    · exact h
  have hstatus : (counted (landed cfg r w moved status junk) moved status).status =
      if status.code ≠ .Ok ∧ r.failed = false then status else r.status := by
    unfold counted
    by_cases hs : status.code = .Ok
    · simp [hs, Engine.landed]
    · cases hf : r.failed <;> simp [hs, hf, Engine.landed]
  have hkeep : ∀ r₁ : Pending, (counted r₁ moved status).req = r₁.req ∧
      (counted r₁ moved status).origin = r₁.origin ∧
      (counted r₁ moved status).stripe_mask = r₁.stripe_mask ∧
      (counted r₁ moved status).chunks = r₁.chunks ∧
      (counted r₁ moved status).required_bytes = r₁.required_bytes ∧
      (counted r₁ moved status).primary = r₁.primary ∧
      (counted r₁ moved status).chunk_src = r₁.chunk_src ∧
      (counted r₁ moved status).src_file = r₁.src_file ∧
      (counted r₁ moved status).retries = r₁.retries ∧
      (counted r₁ moved status).bytes_moved = r₁.bytes_moved + moved ∧
      (counted r₁ moved status).buffer = r₁.buffer ∧
      (counted r₁ moved status).primary_failed = r₁.primary_failed ∧
      (counted r₁ moved status).src_err = r₁.src_err := by
    intro r₁
    unfold counted
    dsimp only
    split
    · exact ⟨rfl, rfl, rfl, rfl, rfl, rfl, rfl, rfl, rfl, rfl, rfl, rfl, rfl⟩
    · exact ⟨rfl, rfl, rfl, rfl, rfl, rfl, rfl, rfl, rfl, rfl, rfl, rfl, rfl⟩
  obtain ⟨k1, k2, k3, k4, k5, k6, k7, k8, k9, k10, k11, k12, k13⟩ :=
    hkeep (landed cfg r w moved status junk)
  -- `discharged` adds the mark of the source that failed
  apply hcompleted
  unfold discharged
  split
  next hsrc =>
    refine ⟨k1, k2, k3, k4, k5, k6, k7, k8, k9, k10, k11, k12, hstatus, ?_, ?_⟩
    · intro i hi
      rw [k13]
      exact hi
    · intro _ i hi
      rw [show w.src = none from hsrc] at hi
      cases hi
  next j hsrc =>
    refine ⟨k1, k2, k3, k4, k5, k6, k7, k8, k9, k10, k11, k12, hstatus, ?_, ?_⟩
    · intro i hi
      have hi' : (counted (landed cfg r w moved status junk) moved status).src_err i = true := by
        rw [k13]
        exact hi
      dsimp only
      split
      · exact hi'
      · rw [Function.update_apply, hi', ite_self]
    · intro hbad i hi
      rw [show w.src = some j from hsrc] at hi
      cases hi
      dsimp only
      rw [if_neg (by simpa using hbad), Function.update_self]

/-- What a chunk in flight has to move is the part of it inside the file. -/
theorem Fits.min_bytes {r : Pending} (h : Routing cfg r) {w : PickedChunk} (hw : Fits cfg r w) :
    w.req.min_bytes = need cfg r w.index := by
  obtain ⟨c, hc, hreq⟩ := hw.req
  rw [hreq, need, Planned.need, hc]
  simp [chunk_request, h.file.1]

/-- A chunk that came back ok is in the destination, and the others stay where they are. -/
theorem Transfers.landed {r r' : Pending} {w : PickedChunk} {moved : Nat} {status : Status}
    {junk : Nat → UInt8} {step : Nat} (ht : Transfers cfg r r' w moved status junk)
    (hr : Routing cfg r) (hplan : Planned r.chunks r.req.file_off r.req.bytes step)
    (hw : Fits cfg r w) (hok : status.code = .Ok) (hmin : w.req.min_bytes ≤ moved) {i : Nat}
    (hi : i = w.index ∨ Landed cfg r i) : Landed cfg r' i := by
  obtain ⟨c, hc, hreq⟩ := hw.req
  have hoff : w.req.file_off = c.off := by rw [hreq]; rfl
  have hbytes : w.req.bytes = c.bytes := by rw [hreq]; rfl
  have hdst : w.req.dst = c.off - r.req.file_off := by rw [hreq]; rfl
  have hneed : c.in_file (cfg.files r.origin).size ≤ moved := by
    rw [hw.min_bytes hr, need, Planned.need, hc] at hmin
    exact hmin
  have hcontent : (cfg.files w.req.file).content = (cfg.files r.origin).content := by
    rw [hreq]
    exact (chunk_file_same hr _ _ _).2
  have hbase := (hplan.bounds hc).1
  intro d hd k hk
  rw [ht.chunks] at hd
  rw [ht.origin] at hk
  rw [ht.buffer, ht.req, ht.origin]
  have hbase' := (hplan.bounds hd).1
  have hkd : k < d.bytes := Nat.lt_of_lt_of_le hk (Nat.min_le_left _ _)
  unfold transferred
  by_cases hiw : i = w.index
  · -- the chunk that came in
    subst hiw
    obtain rfl : c = d := Option.some.inj (hc.symm.trans hd)
    rw [hdst, hbytes, hoff, if_pos (by omega), if_pos (by simp [hok]; omega), hcontent]
    congr 1
    omega
  · -- its range is not this chunk's
    have hl := hi.resolve_left hiw
    have hout : ¬ (w.req.dst ≤ d.off - r.req.file_off + k ∧
        d.off - r.req.file_off + k < w.req.dst + w.req.bytes) := by
      rw [hdst, hbytes]
      rcases Nat.lt_or_gt_of_ne hiw with hlt | hlt
      · have := hplan.apart hd hc hlt
        omega
      · have := hplan.apart hc hd hlt
        omega
    rw [if_neg hout]
    exact hl d hd k hk

/-- A chunk comes back: its bytes are there, or its source failed. -/
theorem View.Reads.complete (h : v.Reads cfg) (hinv : v.Inv) {w : PickedChunk} {moved : Nat}
    {status : Status} {junk : Nat → UInt8} {r : Pending} {f : Option FinishStep}
    (hw : w ∈ v.flights) (hhonest : Completion.Honest (w, moved, status))
    (ht : Transfers cfg v.r r w moved status junk)
    (hfailed : r.failed = (v.r.failed || status.code != .Ok))
    (hnext : r.failed = false → r.next_chunk = v.r.next_chunk) (hresults : r.results = v.r.results)
    (hacc : r.phase.accepted = true) (hf : f = none ∨ f = some .release) :
    View.Reads cfg { v with r := r, flights := v.flights.erase w, finish := f } := by
  have hold := hinv.accepted_of_flights hw
  have hneed : ∀ i, need cfg r i = need cfg v.r i := by
    intro i
    rw [need, need, ht.chunks, ht.origin]
  have hplan := h.plan (fun hp => by rw [hp] at hold; cases hold)
    (fun hp => by rw [hp] at hold; cases hold)
  have hfits := h.fits w hw
  have hgood : r.failed = false → v.r.failed = false ∧ status.code = .Ok := by
    intro hno
    rw [hfailed, Bool.or_eq_false_iff] at hno
    simpa using hno
  constructor
  case routing =>
    exact h.routing.congr ht.req ht.origin ht.stripe_mask ht.chunks ht.primary ht.chunk_src
      ht.src_file
  case plan =>
    intro _ _
    dsimp only
    rw [ht.chunks, ht.req, ht.required, in_file, ht.req, ht.origin]
    exact hplan
  case fits =>
    intro w' hw'
    exact (h.fits w' (List.mem_of_mem_erase hw')).congr ht.req ht.chunks ht.chunk_src ht.src_file
  case landed =>
    intro hno i hi
    obtain ⟨hvf, hok⟩ := hgood hno
    obtain ⟨step, hstep⟩ := hplan.1
    rw [hnext hno] at hi
    have hland : ∀ j, j = w.index ∨ Landed cfg v.r j → Landed cfg r j := fun j hj =>
      ht.landed h.routing hstep hfits hok (hhonest hok) hj
    rcases h.landed hvf i hi with ⟨w', hw', hwi⟩ | hl
    · by_cases heq : w' = w
      · exact .inr (hland i (.inl (heq ▸ hwi.symm)))
      · exact .inl ⟨w', (List.mem_erase_of_ne heq).mpr hw', hwi⟩
    · exact .inr (hland i (.inr hl))
  case moved =>
    intro hno
    obtain ⟨hvf, hok⟩ := hgood hno
    have hsum := List.sum_map_erase (fun w => need cfg v.r w.index) hw
    have hmin : need cfg v.r w.index ≤ moved := hfits.min_bytes h.routing ▸ hhonest hok
    have := h.moved hvf
    dsimp only
    simp only [hneed]
    rw [hnext hno, ht.bytes_moved]
    omega
  case fault =>
    intro hbad
    dsimp only at hbad ⊢
    rw [ht.primary_failed, ht.primary, ht.chunk_src]
    -- the first fault stays; a new one is the primary's or a marked mirror's
    by_cases hvf : v.r.failed = true
    · rcases h.fault hvf with hp | ⟨hp, herr⟩
      · exact .inl (by simp [hp])
      · exact .inr ⟨hp, fun hne => any_mirror_mono ht.err (herr hne)⟩
    · have hcode : status.code ≠ .Ok := by
        rw [hfailed] at hbad
        simpa [hvf] using hbad
      by_cases hfile : w.req.file = v.r.origin
      · exact .inl (by simp [hcode, hfile])
      · obtain ⟨hp, hsrc⟩ := mirror_read h.routing hfits hfile
        refine .inr ⟨hp, fun hne => ?_⟩
        obtain ⟨i, hi, hi0, hi4⟩ := hsrc hne
        exact any_mirror_of hi0 hi4 (ht.new_err hcode i hi)
  case status =>
    dsimp only
    rw [ht.result, hfailed]
    by_cases hcode : status.code = .Ok
    · simpa [hcode] using h.status
    · cases hvf : v.r.failed with
      | false => simp [hcode]
      | true =>
        have : v.r.status.code ≠ .Ok := fun hs => by simp [h.status.mp hs] at hvf
        simp [this]
  case retries =>
    dsimp only
    rw [ht.retries, ht.primary]
    exact h.retries
  case fresh =>
    intro hno
    exact absurd (hno.symm.trans hacc) (by decide)
  case retried =>
    intro hr
    dsimp only at hr
    rcases hf with rfl | rfl
    · cases hr
    · simp at hr
  case delivered =>
    intro res hr
    dsimp only at hr
    rcases hf with rfl | rfl
    · cases hr
    · simp at hr
  case results =>
    intro res hres
    dsimp only at hres
    rw [hresults] at hres
    rw [(hinv.finished (List.ne_nil_of_mem hres)).2.1] at hw
    cases hw

/-! ### Through finish -/

theorem View.Reads.of_finish (h : v.Reads cfg) {f : Option FinishStep}
    (hretried : f = some .reset → v.r.primary.isSome = true)
    (hdelivered : ∀ res, f = some (.deliver res) → res = v.r.result ∧ v.r.fails_over = false) :
    View.Reads cfg { v with finish := f } :=
  ⟨h.routing, h.plan, h.fits, h.landed, h.moved, h.fault, h.status, h.retries, h.fresh, hretried,
    hdelivered, h.results⟩

theorem View.Reads.release (h : v.Reads cfg) :
    View.Reads cfg
      { v with
        r := released v.r
        finish := some (if v.r.fails_over then .reset else .deliver v.r.result) } := by
  have hphase := (released_course v.r).phase
  have hnext : View.Reads cfg
      { v with finish := some (if v.r.fails_over then .reset else .deliver v.r.result) } := by
    apply h.of_finish
    · intro hreset
      split at hreset
      next hover =>
        simp only [Pending.fails_over, Bool.and_eq_true] at hover
        exact hover.1.1
      · cases hreset
    · intro res hres
      split at hres
      · cases hres
      next hover =>
        cases hres
        exact ⟨rfl, by simpa using hover⟩
  exact hnext.of_same (released_reads v.r) (fun h1 h2 => ⟨hphase ▸ h1, hphase ▸ h2⟩)
    (fun _ => hphase) v.queued v.cancelling

/-- The retry reads the whole request from the caller's file. -/
theorem View.Reads.reset (h : v.Reads cfg) (hinv : v.Inv) (hf : v.finish = some .reset) :
    View.Reads cfg { v with r := v.r.retry, finish := some .requeue } := by
  have hne : v.finish ≠ none := by simp [hf]
  have hacc := hinv.accepted (.inr (.inl hne))
  obtain ⟨hempty, _⟩ := hinv.held hne
  obtain ⟨f, hprimary⟩ := Option.isSome_iff_exists.mp (h.retried hf)
  have hfile : v.r.retry.req.file = v.r.origin := by
    simp [Pending.retry, hprimary, h.routing.primary f hprimary]
  have hresults : v.r.results = [] := by
    by_contra hres
    have := (hinv.finished hres).2.2.2
    simp [hf] at this
  constructor
  case routing =>
    refine ⟨?_, h.routing.row, ?_, fun _ _ => hfile, fun hm => ⟨(h.routing.home hm).1, hfile⟩, ?_, ?_⟩
    · show SameFile cfg v.r.retry.req.file v.r.origin
      rw [hfile]
      exact .refl cfg _
    · intro g hg
      cases hg
    · intro hsrc
      exact absurd rfl hsrc
    · intro i hi
      cases hi
  case plan =>
    intro h1 h2
    exact h.plan h1 h2
  case fits =>
    intro w hw
    rw [show v.flights = [] from hempty] at hw
    cases hw
  case landed =>
    intro _ i hi
    exact absurd hi (Nat.not_lt_zero i)
  case moved =>
    intro _
    exact Nat.zero_le _
  case fault =>
    intro hbad
    cases hbad
  case status => exact ⟨fun _ => rfl, fun _ => rfl⟩
  case retries =>
    -- a request that can be retried has not been
    have hle := h.retries
    rw [if_pos (h.retried hf)] at hle
    show v.r.retries + 1 + 0 ≤ 1
    omega
  case fresh =>
    intro hno
    exact absurd (hno.symm.trans hacc) (by decide)
  case retried =>
    intro hr
    cases hr
  case delivered =>
    intro res hr
    cases hr
  case results =>
    intro res hres
    rw [show v.r.retry.results = [] from hresults] at hres
    cases hres

/-- All chunks in and none failed: the request is in the destination. -/
theorem View.Reads.all_delivered (h : v.Reads cfg) (hacc : v.r.phase.accepted = true)
    (hempty : v.flights = []) (hlast : v.r.next_chunk = v.r.chunks.length)
    (hok : v.r.failed = false) : Delivered cfg v.r := by
  obtain ⟨⟨step, hplan⟩, _⟩ := h.plan (accepted_planned hacc).1 (accepted_planned hacc).2
  intro k hk
  have hk' : k < v.r.req.bytes := Nat.lt_of_lt_of_le hk (Nat.min_le_left _ _)
  have hsize : k < (cfg.files v.r.origin).size - v.r.req.file_off :=
    Nat.lt_of_lt_of_le hk (Nat.min_le_right _ _)
  obtain ⟨i, c, hc, hlo, hhi⟩ := hplan.covers hk'
  have hlt : i < v.r.next_chunk := by
    rw [hlast]
    exact (List.getElem?_eq_some_iff.mp hc).1
  have hoff := (hplan.bounds hc).1
  have hland : Landed cfg v.r i := by
    refine (h.landed hok i hlt).resolve_left ?_
    rintro ⟨w, hw, _⟩
    rw [hempty] at hw
    cases hw
  have hbyte := hland c hc (v.r.req.file_off + k - c.off) (by unfold Chunk.in_file; omega)
  have hdst : c.off - v.r.req.file_off + (v.r.req.file_off + k - c.off) = k := by omega
  have hsrc : c.off + (v.r.req.file_off + k - c.off) = v.r.req.file_off + k := by omega
  rw [hdst, hsrc] at hbyte
  exact hbyte

theorem View.Reads.not_short (h : v.Reads cfg) (hacc : v.r.phase.accepted = true)
    (hempty : v.flights = []) (hlast : v.r.next_chunk = v.r.chunks.length)
    (hok : v.r.failed = false) : v.r.required_bytes ≤ v.r.bytes_moved := by
  obtain ⟨⟨step, hplan⟩, hreq⟩ := h.plan (accepted_planned hacc).1 (accepted_planned hacc).2
  calc v.r.required_bytes = in_file cfg v.r := hreq
    _ = ∑ i ∈ Finset.range v.r.chunks.length, need cfg v.r i := (hplan.sum_need_length _).symm
    _ = ∑ i ∈ Finset.range v.r.next_chunk, need cfg v.r i := by rw [hlast]
    _ ≤ v.r.bytes_moved + (v.flights.map fun w => need cfg v.r w.index).sum := h.moved hok
    _ = v.r.bytes_moved := by simp [hempty]

/-- A request that did not come through and is not retried: the primary failed. -/
theorem View.Reads.blame (h : v.Reads cfg) (hacc : v.r.phase.accepted = true)
    (hempty : v.flights = []) (hlast : v.r.next_chunk = v.r.chunks.length)
    (hover : v.r.fails_over = false) (hbad : v.r.result.ok = false) :
    v.r.primary_failed = true := by
  have hfailed : v.r.failed = true := by
    by_contra hno
    have hno : v.r.failed = false := by simpa using hno
    have := (result_ok_iff h.status).mpr ⟨hno, h.not_short hacc hempty hlast hno⟩
    exact absurd (this.symm.trans hbad) (by decide)
  refine (h.fault hfailed).resolve_right ?_
  rintro ⟨hprimary, hmirror⟩
  have hagain : v.r.fails_over = true := by
    unfold Pending.fails_over
    cases hsrc : v.r.chunk_src with
    | nil => simp [hprimary, hbad]
    | cons i l => simp [hprimary, hbad, hmirror (by simp [hsrc])]
  exact absurd (hagain.symm.trans hover) (by decide)

theorem View.Reads.deliver (h : v.Reads cfg) (hinv : v.Inv) {res : IoResult}
    (hf : v.finish = some (.deliver res)) :
    View.Reads cfg
      { v with
        r := { v.r with phase := .done, results := v.r.results ++ [res] }
        finish := some .settle } := by
  have hne : v.finish ≠ none := by simp [hf]
  have hacc := hinv.accepted (.inr (.inl hne))
  obtain ⟨hempty, hlast⟩ := hinv.held hne
  rw [if_neg (by simp [hf])] at hlast
  obtain ⟨rfl, hover⟩ := h.delivered res hf
  have hplan := h.plan (accepted_planned hacc).1 (accepted_planned hacc).2
  refine ⟨h.routing.congr rfl rfl rfl rfl rfl rfl rfl, fun _ _ => hplan, ?_, ?_, h.moved, h.fault,
    h.status, h.retries, ?_, ?_, ?_, ?_⟩
  · intro w hw
    exact (h.fits w hw).congr rfl rfl rfl rfl
  · intro hok i hi
    exact (h.landed hok i hi).imp_right fun hl => hl.congr rfl rfl rfl rfl
  · intro hno
    cases hno
  · intro hr
    cases hr
  · intro res hr
    cases hr
  · intro res hres
    rcases List.mem_append.mp hres with hold | hnew
    · obtain ⟨hok, hbad⟩ := h.results res hold
      exact ⟨fun hr => (hok hr).congr rfl rfl rfl, hbad⟩
    · obtain rfl := List.mem_singleton.mp hnew
      constructor
      · intro hok
        have hgood := ((result_ok_iff h.status).mp hok).1
        exact (h.all_delivered hacc hempty hlast hgood).congr rfl rfl rfl
      · intro hbad
        exact h.blame hacc hempty hlast hover hbad

/-! ### All moves -/

theorem View.Reads.move (h : v.Reads cfg) (hinv : v.Inv) {l : Option Completion}
    (hhonest : ∀ c, l = some c → c.Honest) (hm : Move cfg l v v') : v'.Reads cfg := by
  -- a move that only changes where the request is
  have hsame : ∀ {r : Pending} (queued : Bool) (cancelling : Nat), SameReads v.r r →
      r.phase.accepted = true → v.r.phase.accepted = true ∨ v.r.phase = .planned →
      View.Reads cfg { v with r := r, queued := queued, cancelling := cancelling } := by
    intro r queued cancelling hs hacc hold
    refine h.of_same hs (fun _ _ => ?_) (fun hno => absurd (hno.symm.trans hacc) (by decide)) _ _
    rcases hold with hold | hold
    · exact accepted_planned hold
    · rw [hold]
      exact ⟨by decide, by decide⟩
  cases hm with
  | stay => exact h
  | dequeue =>
    exact h.of_same ⟨rfl, rfl, rfl, rfl, rfl, rfl, rfl, rfl, rfl, rfl, rfl, rfl, rfl, rfl, rfl,
      rfl, rfl⟩ (fun h1 h2 => ⟨h1, h2⟩) (fun _ => rfl) false v.cancelling
  | reject hp =>
    have hacc : v.r.phase.accepted = false := by rw [hp]; rfl
    exact h.submitting hinv hacc (fun hr => by cases hr)
      (h.routing.congr rfl rfl rfl rfl rfl rfl rfl) (fun _ hr => absurd rfl hr) rfl rfl rfl rfl rfl
  | plan hp => exact h.plan_move hinv hp
  | stripe s hp _ _ hmask => exact h.stripe_move hinv hp hmask s
  | enqueue hp =>
    exact hsame true v.cancelling ⟨rfl, rfl, rfl, rfl, rfl, rfl, rfl, rfl, rfl, rfl, rfl, rfl,
      rfl, rfl, rfl, rfl, rfl⟩ rfl (.inr hp)
  | cancel hq =>
    exact hsame false (v.cancelling + 1) ⟨rfl, rfl, rfl, rfl, rfl, rfl, rfl, rfl, rfl, rfl, rfl,
      rfl, rfl, rfl, rfl, rfl, rfl⟩ rfl (.inl (hinv.accepted (.inl hq)))
  | uncharge hc =>
    have hacc := hinv.accepted (.inr (.inr hc))
    exact hsame v.queued v.cancelling ⟨rfl, rfl, rfl, rfl, rfl, rfl, rfl, rfl, rfl, rfl, rfl,
      rfl, rfl, rfl, rfl, rfl, rfl⟩ hacc (.inl hacc)
  | call_cancelled hc =>
    exact hsame v.queued (v.cancelling - 1) ⟨rfl, rfl, rfl, rfl, rfl, rfl, rfl, rfl, rfl, rfl,
      rfl, rfl, rfl, rfl, rfl, rfl, rfl⟩ rfl (.inl (hinv.accepted (.inr (.inr hc))))
  | issue p cid _ _ hc => exact h.issue p cid hc
  | @complete _ w moved status junk hw hf r hr =>
    have hcounts := completion_counts cfg v.r w moved status junk
    have ht := completion_transfers cfg v.r w moved status junk
    rw [← hr] at hcounts ht
    obtain ⟨hfailed, hnext, hresults, hphase, _⟩ := hcounts.completed
    refine h.complete hinv hw (hhonest _ rfl) ht hfailed hnext hresults ?_ ?_
    · rcases hphase with hphase | hphase
      · rw [hphase]
        exact hinv.accepted_of_flights hw
      · rw [hphase]
        rfl
    · split
      · exact .inr rfl
      · exact .inl rfl
  | release => exact h.release
  | reset hf => exact h.reset hinv hf
  | requeue hf =>
    have hacc := hinv.accepted (.inr (.inl (by simp [hf])))
    have hback := hsame (r := { v.r with phase := .queued }) true v.cancelling ⟨rfl, rfl, rfl,
      rfl, rfl, rfl, rfl, rfl, rfl, rfl, rfl, rfl, rfl, rfl, rfl, rfl, rfl⟩ rfl (.inl hacc)
    exact hback.of_finish (fun hr => by cases hr) (fun res hr => by cases hr)
  | deliver hf => exact h.deliver hinv hf
  | settle => exact h.of_finish (fun hr => by cases hr) (fun res hr => by cases hr)

/-! ### In every run -/

variable {s : Engine} {p : Nat}

/-- The backend reports an error whenever fewer than `min_bytes` of a chunk arrive. -/
def BackendHonest (s : Engine) (a : Action) : Prop := ∀ c, s.completion a = some c → c.Honest

/-- A request is routed only to sources that hold the shard. -/
theorem route_cases (cfg : Config) (s : Engine) (req : IoRequest) :
    s.route cfg req = .unrouted ∨
    (∃ row source file, cfg.alts req.file = some row ∧ row source = some file ∧
      s.route cfg req = .whole source file) ∨
    ∃ row mask, cfg.alts req.file = some row ∧ s.route cfg req = .striped mask row := by
  unfold Engine.route
  split
  · split
    · exact .inl rfl
    next row halts =>
      dsimp only
      split
      · exact .inr (.inr ⟨row, _, halts, rfl⟩)
      · generalize (if (cfg.static_split && req.priority == .BlockingMiss) = true then
          cfg.pick_static s.static_split_bytes (s.candidates cfg row) req.bytes
          else cfg.pick_source s.src_outstanding (s.candidates cfg row) req.bytes) = pick
        split
        · split
          next file hrow => exact .inr (.inl ⟨row, pick, file, halts, hrow, rfl⟩)
          · exact .inl rfl
        · exact .inl rfl
  · exact .inl rfl

theorem reads_of_fresh {r : Pending} (h : Fresh r) (hrouting : Routing cfg r)
    (hstatus : r.status.code = .Ok) (hretries : r.retries = 0) (hsrc : r.chunk_src = []) :
    View.Reads cfg { r := r } := by
  constructor
  case routing => exact hrouting
  case plan =>
    intro hp
    exact absurd h.phase hp
  case fits => simp
  case landed => simp [h.next]
  case moved => simp [h.next]
  case fault => simp [h.failed]
  case status => simp [hstatus, h.failed]
  case retries =>
    dsimp only
    rw [hretries]
    split <;> omega
  case fresh => exact fun _ => ⟨hretries, fun _ => hsrc⟩
  case retried => simp
  case delivered => simp
  case results => simp [h.results]

theorem enter_reads (cfg : Config) (s : Engine) (req : IoRequest) :
    View.Reads cfg { r := (s.enter cfg req).reqs s.count } := by
  unfold Engine.enter
  rcases route_cases cfg s req with hroute | ⟨row, source, file, halts, hrow, hroute⟩ |
    ⟨row, mask, halts, hroute⟩
  · simp only [hroute, set_req_self]
    refine reads_of_fresh ⟨rfl, rfl, rfl, rfl, rfl, rfl, rfl, rfl, rfl⟩ ?_ rfl rfl rfl
    exact ⟨.refl _ _, by simp, by simp, fun _ _ => rfl, by simp, by simp, by simp⟩
  · simp only [hroute, set_req_self]
    refine reads_of_fresh ⟨rfl, rfl, rfl, rfl, rfl, rfl, rfl, rfl, rfl⟩ ?_ rfl rfl rfl
    refine ⟨⟨cfg.alts_size _ _ _ _ halts hrow, cfg.alts_content _ _ _ _ halts hrow⟩, by simp, ?_,
      ?_, by simp, by simp, by simp⟩
    · intro f hf
      dsimp only at hf
      split at hf
      · cases hf
        rfl
      · cases hf
    · intro hnone _
      dsimp only at hnone ⊢
      split at hnone
      · cases hnone
      next hsource =>
        -- source 0 is the caller's own file
        rw [not_not] at hsource
        rw [hsource, cfg.alts_primary _ _ halts] at hrow
        exact (Option.some.inj hrow).symm
  · simp only [hroute, set_req_self]
    have hzero := cfg.alts_primary _ _ halts
    refine reads_of_fresh ⟨rfl, rfl, rfl, rfl, rfl, rfl, rfl, rfl, rfl⟩ ?_ rfl rfl rfl
    refine ⟨.refl _ _, ?_, by simp, fun _ _ => rfl, fun _ => ⟨hzero, rfl⟩, by simp, by simp⟩
    intro i f hf
    exact ⟨cfg.alts_size _ _ i f halts hf, cfg.alts_content _ _ i f halts hf⟩

/-- A request that a `cancel` raced has a `cancel` that called it back, or is about to. -/
def View.RacedByCancel (v : View) : Prop := v.r.raced = true → 0 < v.cancelling + v.r.cancels

theorem View.RacedByCancel.move (h : v.RacedByCancel) {l : Option Completion}
    (hm : Move cfg l v v') : v'.RacedByCancel := by
  cases hm with
  | stay | dequeue _ | reject _ | plan _ _ _ _ | stripe _ _ _ _ _ | enqueue _ | uncharge _
  | issue _ _ _ _ _ | reset _ | requeue _ | deliver _ | settle _ => exact h
  | cancel =>
    intro _
    show 0 < v.cancelling + 1 + v.r.cancels
    omega
  | call_cancelled hc =>
    intro _
    show 0 < v.cancelling - 1 + (v.r.cancels + 1)
    omega
  | @complete _ w moved status junk _ _ r hr =>
    have hcounts := completion_counts cfg v.r w moved status junk
    rw [← hr] at hcounts
    obtain ⟨_, _, _, _, hraced, hcancels⟩ := hcounts.completed
    unfold View.RacedByCancel
    dsimp only
    rw [hraced, hcancels]
    exact h
  | release =>
    unfold View.RacedByCancel
    dsimp only
    rw [(released_course v.r).raced, (released_course v.r).cancels]
    exact h

theorem enter_unraced (cfg : Config) (s : Engine) (req : IoRequest) :
    View.RacedByCancel { r := (s.enter cfg req).reqs s.count } := by
  obtain ⟨r, hfresh, _, _, hreqs, _⟩ := enter_cases cfg s req
  intro hraced
  rw [hreqs, Function.update_self, hfresh.raced] at hraced
  cases hraced

/-- Mirrors never decide correctness. Whatever the routing, the mirrors' errors and the order
    of completions: a request is read again at most once; a call back with success has every
    byte of the request that the file has in its place; a failure is called back only after
    a read of the primary failed. Once every thread is through, a request that no `cancel` took
    has been called back by `finish`, with success unless the primary failed. -/
theorem mirrors_never_decide
    (h : LTS.Reachable ((engine_system cfg).restrict BackendHonest) s) (hp : p < s.count) :
    (s.reqs p).retries ≤ 1 ∧
    (∀ res ∈ (s.reqs p).results, (res.ok = true → Delivered cfg (s.reqs p)) ∧
      (res.ok = false → (s.reqs p).primary_failed = true)) ∧
    (Quiet s → (s.reqs p).phase.accepted = true → (s.reqs p).cancels = 0 →
      ∃ res, (s.reqs p).results = [res] ∧
        ((s.reqs p).primary_failed = false → res.ok = true ∧ Delivered cfg (s.reqs p))) := by
  obtain ⟨hb, hviews⟩ := reachable_views (P := fun v => v.Reads cfg ∧ v.RacedByCancel)
    (fun s req => ⟨enter_reads cfg s req, enter_unraced cfg s req⟩)
    (fun s a v v' hok hinv ⟨hreads, hraced⟩ hm => ⟨hreads.move hinv hok hm, hraced.move hm⟩) h
  obtain ⟨hreads, hraced⟩ := hviews p hp
  have hretries := hreads.retries
  refine ⟨?_, hreads.results, ?_⟩
  · show (s.view p).r.retries ≤ 1
    omega
  · intro hquiet hacc hcancels
    have hfree : (s.reqs p).raced = false := by
      by_contra hno
      have hyes : (s.reqs p).raced = true := by simpa using hno
      have hpos : 0 < (s.view p).cancelling + (s.reqs p).cancels := hraced hyes
      rw [hcancels] at hpos
      simp [view, cancelling_of, hquiet.cancels] at hpos
    have hcalls := hb.called_once hfree hquiet hp hacc
    rw [Pending.calls, hcancels] at hcalls
    obtain ⟨res, hres⟩ := List.length_eq_one_iff.mp hcalls
    refine ⟨res, hres, ?_⟩
    intro hgood
    obtain ⟨hok, hbad⟩ := hreads.results res (show res ∈ (s.reqs p).results by simp [hres])
    have hsucc : res.ok = true := by
      by_contra hno
      exact absurd ((hbad (by simpa using hno)).symm.trans hgood) (by decide)
    exact ⟨hsucc, hok hsucc⟩

instance (c : Completion) : Decidable c.Honest := inferInstanceAs (Decidable (_ → _))

instance (s : Engine) (a : Action) : Decidable (BackendHonest s a) :=
  decidable_of_iff ((s.completion a).all fun c => decide c.Honest) (by
    rw [Option.all_eq_true]
    simp [BackendHonest])

/-- The mirror fails, the primary answers: the request is in its place. -/
theorem mirrors_never_decide_failover :
    ∃ s, LTS.Reachable ((engine_system mirrored).restrict BackendHonest) s ∧
      (s.reqs 0).retries = 1 ∧ ∃ res, (s.reqs 0).results = [res] ∧ res.ok = true ∧
        Delivered mirrored (s.reqs 0) := by
  obtain ⟨s, hreach, hs⟩ := LTS.Reachable.of_guarded (Engine.step mirrored) BackendHonest
    (mirror_fails ++ primary_answers ++ [.issue 0 false])
    (fun s => s.count = 1 ∧ (s.reqs 0).phase.accepted = true ∧ (s.reqs 0).retries = 1 ∧
      (s.reqs 0).cancels = 0 ∧ (s.reqs 0).primary_failed = false ∧
      (∀ pr ∈ priorities, s.queues pr = []) ∧ s.wire = [] ∧ s.finishing = none ∧
      s.cancel_calls = []) shallow_init (by decide)
  simp only [Bool.decide_and, Bool.and_eq_true, decide_eq_true_eq] at hs
  obtain ⟨hcount, hacc, hretries, hcancels, hgood, hqueues, hwire, hfin, hcalls⟩ := hs
  have hquiet : Quiet s := by
    refine ⟨?_, hwire, hfin, hcalls⟩
    intro pr p hp
    rw [hqueues pr (by cases pr <;> decide)] at hp
    cases hp
  obtain ⟨_, _, hend⟩ := mirrors_never_decide (p := 0) hreach (by omega)
  obtain ⟨res, hres, hok⟩ := hend hquiet hacc hcancels
  exact ⟨s, hreach, hretries, res, hres, hok hgood⟩

end CachedMoe.Storage
