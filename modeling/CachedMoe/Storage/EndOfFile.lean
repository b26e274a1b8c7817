import CachedMoe.Storage.Failover
import CachedMoe.Storage.IoUring

/-! # Reads across the end of a file

    `submit` accepts a read that begins inside the file, however far it runs past its end. Only the
    part of each chunk that lies inside the file has to arrive; but of a chunk that lies wholly
    past the end that part is 0, which tells the backend that the whole chunk must arrive. -/

namespace CachedMoe.Storage

open CachedMoe Engine IoUring

/-- The backend keeps the contract of `ChunkRequest` and delivers what the file has of the chunk. -/
def Completion.Delivers (cfg : Config) (c : Completion) : Prop :=
  c.2.1 = Chunk.in_file ⟨c.1.req.file_off, c.1.req.bytes⟩ (cfg.files c.1.req.file).size ∧
    (c.2.2.code = .Ok ↔ want_of c.1.req ≤ c.2.1)

def BackendDelivers (cfg : Config) (s : Engine) (a : Action) : Prop :=
  ∀ c, s.completion a = some c → c.Delivers cfg

/-- The chunk size of a request's class. -/
def chunk_bytes (cfg : Config) (pr : IoPriority) : Nat :=
  if pr = .BlockingMiss then cfg.p0_chunk_bytes else cfg.bg_chunk_bytes

/-- The last chunk of the plan begins inside the file. -/
def EndsInside (cfg : Config) (r : Pending) : Prop :=
  let step := chunk_step (chunk_bytes cfg r.req.priority) cfg.alignment
  r.req.file_off + (r.req.bytes - 1) / step * step < (cfg.files r.origin).size

/-- Every chunk has a part inside the file. -/
def Reaches (cfg : Config) (r : Pending) : Prop := ∀ i < r.chunks.length, need cfg r i ≠ 0

/-- What is known of a request's chunks at the end of the file. -/
structure View.Ends (cfg : Config) (v : View) : Prop where
  planned : v.r.phase ≠ .routed → v.r.phase ≠ .rejected →
    v.r.req.bytes ≠ 0 ∧ Planned v.r.chunks v.r.req.file_off v.r.req.bytes
      (chunk_step (chunk_bytes cfg v.r.req.priority) cfg.alignment)
  failed : v.r.failed = true → ¬ Reaches cfg v.r
  landed : v.r.failed = false → ∀ i < v.r.next_chunk,
    (∃ w ∈ v.flights, w.index = i) ∨ need cfg v.r i ≠ 0
  results : ∀ res ∈ v.r.results, res.ok = true ↔ Reaches cfg v.r

variable {cfg : Config} {v v' : View}

/-! ### Chunks at the end of the file -/

theorem Completion.Delivers.honest {c : Completion} (h : c.Delivers cfg) : c.Honest := by
  intro hok
  have hwant := h.2.mp hok
  unfold want_of at hwant
  split at hwant
  · exact hwant
  · next hzero =>
    rw [not_not] at hzero
    rw [hzero]
    exact Nat.zero_le _

/-- The chunks of a plan all reach into the file when the last one does. -/
theorem reaches_iff {r : Pending} (hbytes : r.req.bytes ≠ 0)
    (hplan : Planned r.chunks r.req.file_off r.req.bytes
      (chunk_step (chunk_bytes cfg r.req.priority) cfg.alignment)) :
    Reaches cfg r ↔ EndsInside cfg r := by
  unfold EndsInside
  dsimp only
  generalize chunk_step (chunk_bytes cfg r.req.priority) cfg.alignment = step at hplan ⊢
  have hpos := hplan.step_pos
  have hlast : (r.req.bytes - 1) / step * step < r.req.bytes := by
    have hle := Nat.div_mul_le_self (r.req.bytes - 1) step
    omega
  have hneed : ∀ i, i * step < r.req.bytes →
      (need cfg r i ≠ 0 ↔ r.req.file_off + i * step < (cfg.files r.origin).size) := by
    intro i hi
    rw [need, Planned.need, hplan.get, if_pos hi]
    dsimp only [Chunk.in_file]
    omega
  constructor
  · intro h
    exact (hneed _ hlast).mp (h _ ((hplan.lt_length_iff _).mpr hlast))
  · intro h i hi
    have hi' := (hplan.lt_length_iff i).mp hi
    refine (hneed i hi').mpr ?_
    have hle : i ≤ (r.req.bytes - 1) / step := (Nat.le_div_iff_mul_le hpos).mpr (by omega)
    have hmul := Nat.mul_le_mul_right step hle
    omega

/-- A chunk comes back ok exactly when part of it lies inside the file. -/
theorem Fits.delivered {r : Pending} (h : Routing cfg r) {w : PickedChunk} (hw : Fits cfg r w)
    {step : Nat} (hplan : Planned r.chunks r.req.file_off r.req.bytes step) {moved : Nat}
    {status : Status} (hd : Completion.Delivers cfg (w, moved, status)) :
    status.code = .Ok ↔ need cfg r w.index ≠ 0 := by
  obtain ⟨hmoved, hcode⟩ := hd
  have hmin := hw.min_bytes h
  obtain ⟨c, hc, hreq⟩ := hw.req
  have hsize : (cfg.files w.req.file).size = (cfg.files r.origin).size := by
    rw [hreq]
    exact (chunk_file_same h _ _ _).1
  have hneed : moved = need cfg r w.index := by
    rw [need, Planned.need, hc]
    dsimp only at hmoved ⊢
    rw [hmoved, hsize, hreq]
    rfl
  have hbytes : 0 < w.req.bytes := by
    rw [hreq]
    have hget := hplan.get w.index
    rw [hc] at hget
    split at hget
    next hlt =>
      obtain rfl := Option.some.inj hget
      have hpos := hplan.step_pos
      show 0 < min step _
      omega
    · cases hget
  rw [hcode]
  dsimp only
  rw [want_of, hmin, hneed]
  split
  · next hne => exact ⟨fun _ => hne, fun _ => le_rfl⟩
  · next hzero => omega

/-! ### Moves -/

/-- A move that leaves the plan and what is known of it alone. -/
theorem View.Ends.of_same (h : v.Ends cfg) (r : Pending) (hreq : r.req.bytes = v.r.req.bytes)
    (hoff : r.req.file_off = v.r.req.file_off) (hpr : r.req.priority = v.r.req.priority)
    (horigin : r.origin = v.r.origin) (hchunks : r.chunks = v.r.chunks)
    (hfailed : r.failed = v.r.failed) (hnext : r.next_chunk = v.r.next_chunk)
    (hresults : r.results = v.r.results)
    (hphase : r.phase ≠ .routed → r.phase ≠ .rejected →
      v.r.phase ≠ .routed ∧ v.r.phase ≠ .rejected)
    (finish : Option FinishStep) (queued : Bool) (cancelling : Nat) :
    View.Ends cfg
      { v with r := r, finish := finish, queued := queued, cancelling := cancelling } := by
  have hneed : ∀ i, need cfg r i = need cfg v.r i := by
    intro i
    rw [need, need, hchunks, horigin]
  have hreaches : Reaches cfg r ↔ Reaches cfg v.r := by
    unfold Reaches
    rw [hchunks]
    simp only [hneed]
  constructor
  case planned =>
    intro h1 h2
    obtain ⟨h1, h2⟩ := hphase h1 h2
    dsimp only
    rw [hreq, hoff, hpr, hchunks]
    exact h.planned h1 h2
  case failed =>
    intro hf
    rw [hreaches]
    exact h.failed (hfailed.symm.trans hf)
  case landed =>
    intro hf i hi
    dsimp only at hf hi ⊢
    rw [hneed]
    exact h.landed (hfailed.symm.trans hf) i (hnext ▸ hi)
  case results =>
    intro res hres
    rw [hreaches]
    exact h.results res (hresults ▸ hres)

/-- `submit` at work: nothing has been issued. -/
theorem View.Ends.submitting (hinv : v.Inv) {r : Pending} (hacc : v.r.phase.accepted = false)
    (hplan : r.phase ≠ .routed → r.phase ≠ .rejected →
      r.req.bytes ≠ 0 ∧ Planned r.chunks r.req.file_off r.req.bytes
        (chunk_step (chunk_bytes cfg r.req.priority) cfg.alignment))
    (hnext : r.next_chunk = v.r.next_chunk) (hfailed : r.failed = v.r.failed)
    (hresults : r.results = v.r.results) : View.Ends cfg { v with r := r } := by
  have hd := hinv.draft hacc
  constructor
  case planned => exact hplan
  case failed =>
    intro hf
    exact absurd (hf.symm.trans (hfailed.trans hd.failed)) (by decide)
  case landed =>
    intro _ i hi
    dsimp only at hi
    rw [hnext, hd.next] at hi
    exact absurd hi (Nat.not_lt_zero i)
  case results =>
    intro res hres
    dsimp only at hres
    rw [hresults, hd.results] at hres
    cases hres

theorem chunk_bytes_ne (cfg : Config) (pr : IoPriority) : chunk_bytes cfg pr ≠ 0 := by
  unfold chunk_bytes
  split
  · exact cfg.p0_chunk_pos
  · exact cfg.bg_chunk_pos

theorem planned_ends (cfg : Config) {r : Pending} (hbytes : r.req.bytes ≠ 0) :
    (planned cfg r).req.bytes ≠ 0 ∧ Planned (planned cfg r).chunks r.req.file_off r.req.bytes
      (chunk_step (chunk_bytes cfg r.req.priority) cfg.alignment) :=
  ⟨hbytes, plan_chunks_planned (chunk_bytes_ne cfg r.req.priority)⟩

theorem View.Ends.issue (h : v.Ends cfg) {c : Chunk} (p cid : Nat) :
    View.Ends cfg
      { v with r := issued v.r, flights := picked cfg v.r p cid c :: v.flights } := by
  refine ⟨h.planned, h.failed, fun hno i hi => ?_, h.results⟩
  rcases Nat.lt_succ_iff_lt_or_eq.mp (show i < v.r.next_chunk + 1 from hi) with hlt | rfl
  · rcases h.landed hno i hlt with ⟨w, hw, hwi⟩ | hl
    · exact .inl ⟨w, List.mem_cons_of_mem _ hw, hwi⟩
    · exact .inr hl
  · exact .inl ⟨_, List.mem_cons_self, rfl⟩

/-- A completion fails the request exactly when its chunk lies past the end. -/
theorem View.Ends.complete (h : v.Ends cfg) (hreads : v.Reads cfg) (hinv : v.Inv) {w : PickedChunk}
    {moved : Nat} {status : Status} {junk : Nat → UInt8} {r : Pending} {f : Option FinishStep}
    (hw : w ∈ v.flights) (hd : Completion.Delivers cfg (w, moved, status))
    (ht : Transfers cfg v.r r w moved status junk)
    (hfailed : r.failed = (v.r.failed || status.code != .Ok))
    (hnext : r.failed = false → r.next_chunk = v.r.next_chunk)
    (hresults : r.results = v.r.results) :
    View.Ends cfg { v with r := r, flights := v.flights.erase w, finish := f } := by
  have hacc := hinv.accepted_of_flights hw
  have hplan := h.planned (accepted_planned hacc).1 (accepted_planned hacc).2
  have hfits := hreads.fits w hw
  have hneed : ∀ i, need cfg r i = need cfg v.r i := by
    intro i
    rw [need, need, ht.chunks, ht.origin]
  have hreaches : Reaches cfg r ↔ Reaches cfg v.r := by
    unfold Reaches
    rw [ht.chunks]
    simp only [hneed]
  have hcode := hfits.delivered hreads.routing hplan.2 hd
  -- the chunk came whole exactly when the file has its bytes
  constructor
  case planned =>
    intro _ _
    dsimp only
    rw [ht.chunks, ht.req]
    exact hplan
  case failed =>
    intro hbad
    dsimp only at hbad ⊢
    rw [hreaches]
    rw [hfailed, Bool.or_eq_true] at hbad
    rcases hbad with hold | hnew
    · exact h.failed hold
    · intro hall
      obtain ⟨c, hc, _⟩ := hfits.req
      have hok := hcode.mpr (hall w.index (List.getElem?_eq_some_iff.mp hc).1)
      simp [hok] at hnew
  case landed =>
    intro hno i hi
    dsimp only at hno hi ⊢
    have hi := hnext hno ▸ hi
    rw [hfailed, Bool.or_eq_false_iff] at hno
    have hok : status.code = .Ok := by simpa using hno.2
    rw [hneed]
    rcases h.landed hno.1 i hi with ⟨w', hw', hwi⟩ | hl
    · by_cases heq : w' = w
      · rw [← hwi, heq]
        exact .inr (hcode.mp hok)
      · exact .inl ⟨w', (List.mem_erase_of_ne heq).mpr hw', hwi⟩
    · exact .inr hl
  case results =>
    intro res hres
    dsimp only at hres
    rw [hresults] at hres
    rw [(hinv.finished (List.ne_nil_of_mem hres)).2.1] at hw
    cases hw

/-- A request is called back with success exactly when all its chunks reach into the file. -/
theorem View.Ends.deliver (h : v.Ends cfg) (hreads : v.Reads cfg) (hinv : v.Inv) {res : IoResult}
    (hf : v.finish = some (.deliver res)) :
    View.Ends cfg
      { v with
        r := { v.r with phase := .done, results := v.r.results ++ [res] }
        finish := some .settle } := by
  have hne : v.finish ≠ none := by simp [hf]
  have hacc := hinv.accepted (.inr (.inl hne))
  obtain ⟨hempty, hlast⟩ := hinv.held hne
  rw [if_neg (by simp [hf])] at hlast
  obtain ⟨rfl, _⟩ := hreads.delivered res hf
  have hplan := h.planned (accepted_planned hacc).1 (accepted_planned hacc).2
  refine ⟨fun _ _ => hplan, h.failed, h.landed, fun res hres => ?_⟩
  rcases List.mem_append.mp hres with hold | hnew
  · exact h.results res hold
  · obtain rfl := List.mem_singleton.mp hnew
    rw [result_ok_iff hreads.status]
    constructor
    · intro hgood i hi
      refine (h.landed hgood.1 i (hlast ▸ hi)).resolve_left ?_
      rintro ⟨w, hw, _⟩
      rw [hempty] at hw
      cases hw
    · intro hall
      have hno : v.r.failed = false := by
        by_contra hyes
        exact h.failed (by simpa using hyes) hall
      exact ⟨hno, hreads.not_short hacc hempty hlast hno⟩

theorem View.Ends.reset (h : v.Ends cfg) (hinv : v.Inv) (hf : v.finish = some .reset) :
    View.Ends cfg { v with r := v.r.retry, finish := some .requeue } := by
  have hresults : v.r.results = [] := by
    by_contra hne
    rcases (hinv.finished hne).2.2.2 with hfin | hfin
    · rw [hf] at hfin
      cases hfin
    · rw [hf] at hfin
      cases hfin
  refine ⟨h.planned, fun hbad => ?_, fun _ i hi => absurd hi (Nat.not_lt_zero i),
    fun res hres => ?_⟩
  · cases hbad
  · rw [show v.r.retry.results = [] from hresults] at hres
    cases hres

theorem View.Ends.move (h : v.Ends cfg) (hreads : v.Reads cfg) (hinv : v.Inv)
    {l : Option Completion} (hd : ∀ c, l = some c → c.Delivers cfg) (hm : Move cfg l v v') :
    v'.Ends cfg := by
  -- a completion, a reset and a delivery say something new
  cases hm with
  | stay => exact h
  | dequeue =>
    exact h.of_same v.r rfl rfl rfl rfl rfl rfl rfl rfl (fun h1 h2 => ⟨h1, h2⟩) v.finish false
      v.cancelling
  | reject hp =>
    have hacc : v.r.phase.accepted = false := by rw [hp]; rfl
    exact .submitting hinv hacc (fun _ hr => absurd rfl hr) rfl rfl rfl
  | plan hp hbytes =>
    have hacc : v.r.phase.accepted = false := by rw [hp]; rfl
    exact .submitting hinv hacc (fun _ _ => planned_ends cfg hbytes) rfl rfl rfl
  | stripe s hp hbytes =>
    have hacc : v.r.phase.accepted = false := by rw [hp]; rfl
    exact .submitting hinv hacc (fun _ _ => planned_ends cfg hbytes) rfl rfl rfl
  | enqueue hp =>
    exact h.of_same { v.r with phase := .queued } rfl rfl rfl rfl rfl rfl rfl rfl
      (fun _ _ => by rw [hp]; exact ⟨by decide, by decide⟩) v.finish true v.cancelling
  | cancel hq =>
    exact h.of_same (taken v.r _) rfl rfl rfl rfl rfl rfl rfl rfl
      (fun _ _ => accepted_planned (hinv.accepted (.inl hq))) v.finish false (v.cancelling + 1)
  | uncharge =>
    exact h.of_same (unstriped v.r) rfl rfl rfl rfl rfl rfl rfl rfl (fun h1 h2 => ⟨h1, h2⟩)
      v.finish v.queued v.cancelling
  | call_cancelled hc =>
    exact h.of_same { v.r with phase := .done, cancels := v.r.cancels + 1 } rfl rfl rfl rfl rfl rfl
      rfl rfl
      (fun _ _ => accepted_planned (hinv.accepted (.inr (.inr hc)))) v.finish v.queued (v.cancelling - 1)
  | issue p cid _ _ _ => exact h.issue p cid
  | @complete _ w moved status junk hw _ r hr =>
    have hcounts := completion_counts cfg v.r w moved status junk
    have ht := completion_transfers cfg v.r w moved status junk
    rw [← hr] at hcounts ht
    obtain ⟨hfailed, hnext, hresults, _⟩ := hcounts.completed
    exact h.complete hreads hinv hw (hd _ rfl) ht hfailed hnext hresults
  | release =>
    have hs := released_reads v.r
    exact h.of_same (released v.r) (by rw [hs.req]) (by rw [hs.req]) (by rw [hs.req]) hs.origin
      hs.chunks hs.failed hs.next hs.results (fun h1 h2 => by
        rw [(released_course v.r).phase] at h1 h2
        exact ⟨h1, h2⟩) _ v.queued v.cancelling
  | reset hf => exact h.reset hinv hf
  | requeue hf =>
    exact h.of_same { v.r with phase := .queued } rfl rfl rfl rfl rfl rfl rfl rfl
      (fun _ _ => accepted_planned (hinv.accepted (.inr (.inl (by simp [hf]))))) none true v.cancelling
  | deliver hf => exact h.deliver hreads hinv hf
  | settle =>
    exact h.of_same v.r rfl rfl rfl rfl rfl rfl rfl rfl (fun h1 h2 => ⟨h1, h2⟩) none v.queued
      v.cancelling

/-! ### In every run -/

variable {s : Engine} {p : Nat}

theorem enter_ends (cfg : Config) (s : Engine) (req : IoRequest) :
    View.Ends cfg { r := (s.enter cfg req).reqs s.count } := by
  obtain ⟨r, hfresh, _, _, hreqs, _⟩ := enter_cases cfg s req
  rw [hreqs, Function.update_self]
  constructor
  case planned => exact fun hp => absurd hfresh.phase hp
  case failed => simp [hfresh.failed]
  case landed => simp [hfresh.next]
  case results => simp [hfresh.results]

/-- With a backend that keeps its contract and delivers what the files have, whatever the other
    requests, the routing and the order of completions: a request is called back with success
    exactly when its last chunk begins inside the file. Once every thread is through, a request
    that no `cancel` took has completed successfully exactly then. -/
theorem read_across_eof
    (h : LTS.Reachable ((engine_system cfg).restrict (BackendDelivers cfg)) s) (hp : p < s.count) :
    (∀ res ∈ (s.reqs p).results, res.ok = true ↔ EndsInside cfg (s.reqs p)) ∧
    (Quiet s → (s.reqs p).phase.accepted = true → (s.reqs p).cancels = 0 →
      ((∃ res, (s.reqs p).results = [res] ∧ res.ok = true) ↔ EndsInside cfg (s.reqs p))) := by
  obtain ⟨hb, hviews⟩ := reachable_views
    (P := fun v => v.Reads cfg ∧ v.RacedByCancel ∧ v.Ends cfg)
    (fun s req => ⟨enter_reads cfg s req, enter_unraced cfg s req, enter_ends cfg s req⟩)
    (fun s a v v' hok hinv hv hm =>
      ⟨hv.1.move hinv (fun c hc => (hok c hc).honest) hm, hv.2.1.move hm,
        hv.2.2.move hv.1 hinv hok hm⟩) h
  obtain ⟨hreads, hraced, hends⟩ := hviews p hp
  have hinv := hb.views p hp
  have hall : ∀ res ∈ (s.reqs p).results, res.ok = true ↔ EndsInside cfg (s.reqs p) := by
    intro res hres
    have hacc : (s.view p).r.phase.accepted = true := by
      by_contra hno
      have hnone : (s.reqs p).results = [] := (hinv.draft (by simpa using hno)).results
      rw [hnone] at hres
      cases hres
    have hplan := hends.planned (accepted_planned hacc).1 (accepted_planned hacc).2
    exact (hends.results res hres).trans (reaches_iff hplan.1 hplan.2)
  refine ⟨hall, fun hquiet hacc hcancels => ?_⟩
  -- at rest there was exactly one call
  have hfree : (s.reqs p).raced = false := by
    by_contra hno
    have hyes : (s.reqs p).raced = true := by simpa using hno
    have hpos : 0 < (s.view p).cancelling + (s.reqs p).cancels := hraced hyes
    rw [hcancels] at hpos
    simp [view, cancelling_of, hquiet.cancels] at hpos
  have hcalls := hb.called_once hfree hquiet hp hacc
  rw [Pending.calls, hcancels] at hcalls
  obtain ⟨res, hres⟩ := List.length_eq_one_iff.mp hcalls
  have hiff := hall res (by rw [hres]; exact List.mem_singleton_self res)
  constructor
  · intro hok
    obtain ⟨res', hres', hok'⟩ := hok
    obtain rfl : res = res' := by
      rw [hres] at hres'
      exact List.singleton_inj.mp hres'
    exact hiff.mp hok'
  · exact fun hinside => ⟨res, hres, hiff.mpr hinside⟩

/-! #### Two pages of a shorter file -/

instance (cfg : Config) (c : Completion) : Decidable (c.Delivers cfg) :=
  inferInstanceAs (Decidable (_ ∧ _))

instance (cfg : Config) (s : Engine) (a : Action) : Decidable (BackendDelivers cfg s a) :=
  decidable_of_iff ((s.completion a).all fun c => decide (c.Delivers cfg)) (by
    rw [Option.all_eq_true]
    simp [BackendDelivers])

/-- Files of `size` bytes, read in chunks of a page. -/
def sized (size : Nat) : Config where
  files := fun _ => { size }
  p0_chunk_bytes := 4096
  bg_chunk_bytes := 4096
  p0_chunk_pos := Nat.succ_ne_zero 4095
  bg_chunk_pos := Nat.succ_ne_zero 4095
  alts_primary := fun _ _ h => (Option.some_ne_none _ h.symm).elim
  alts_size := fun _ _ _ _ _ _ => rfl
  alts_content := fun _ _ _ _ _ _ => rfl

theorem sized_init (size : Nat) : (engine_system (sized size)).init shallow :=
  ⟨rfl, rfl, rfl, rfl, rfl, rfl, rfl, rfl, rfl, rfl⟩

/-- Two pages are read; the backend answers for the second with `moved` bytes. -/
def reads_two_pages (moved : Nat) (status : Status) : List Action :=
  [.submit two_pages, .plan 0, .enqueue 0, .issue 0 false, .do_submit 1 (.ok ()),
    .poll 1 4096 Status.success (fun _ => 0), .issue 0 false, .do_submit 2 (.ok ()),
    .poll 2 moved status (fun _ => 0), .finish, .finish, .finish, .issue 0 false]

/-- A file of one page: the second chunk is past its end, has to arrive whole, and does not. -/
theorem past_eof_fails :
    ¬ ∀ s, LTS.Reachable ((engine_system (sized 4096)).restrict (BackendDelivers (sized 4096))) s →
      ∀ p < s.count, ∀ res ∈ (s.reqs p).results, res.ok = true := by
  intro h
  obtain ⟨s, hreach, hs⟩ := LTS.Reachable.of_guarded (Engine.step (sized 4096))
    (BackendDelivers (sized 4096)) (reads_two_pages 0 io_error)
    (fun s => s.count = 1 ∧ (s.reqs 0).results.map IoResult.ok = [false]) (sized_init 4096)
    (by decide)
  simp only [Bool.decide_and, Bool.and_eq_true, decide_eq_true_eq] at hs
  obtain ⟨res, hres, hok⟩ := List.map_eq_singleton_iff.mp hs.2
  have hyes := h s hreach 0 (by omega) res (by rw [hres]; exact List.mem_singleton_self res)
  rw [hok] at hyes
  cases hyes

/-- A file of one page and a half: both chunks begin inside it. -/
theorem read_across_eof_straddling :
    ∃ s res,
      LTS.Reachable ((engine_system (sized 6144)).restrict (BackendDelivers (sized 6144))) s ∧
      (s.reqs 0).results = [res] ∧ res.ok = true := by
  obtain ⟨s, hreach, hs⟩ := LTS.Reachable.of_guarded (Engine.step (sized 6144))
    (BackendDelivers (sized 6144)) (reads_two_pages 2048 Status.success)
    (fun s => s.count = 1 ∧ (s.reqs 0).phase.accepted = true ∧ (s.reqs 0).cancels = 0 ∧
      (s.reqs 0).req = two_pages ∧ (s.reqs 0).origin = 0 ∧
      (∀ pr ∈ priorities, s.queues pr = []) ∧ s.wire = [] ∧ s.finishing = none ∧
      s.cancel_calls = []) (sized_init 6144) (by decide)
  simp only [Bool.decide_and, Bool.and_eq_true, decide_eq_true_eq] at hs
  obtain ⟨hcount, hacc, hcancels, hreq, horigin, hqueues, hwire, hfin, hcalls⟩ := hs
  have hquiet : Quiet s := by
    refine ⟨?_, hwire, hfin, hcalls⟩
    intro pr p hp
    rw [hqueues pr (by cases pr <;> decide)] at hp
    cases hp
  have hinside : EndsInside (sized 6144) (s.reqs 0) := by
    unfold EndsInside
    rw [hreq, horigin]
    decide
  obtain ⟨res, hres, hok⟩ :=
    ((read_across_eof (p := 0) hreach (by omega)).2 hquiet hacc hcancels).mpr hinside
  exact ⟨s, res, hreach, hres, hok⟩

end CachedMoe.Storage
