import CachedMoe.Runtime.PoolBooks

/-! # What the session pool waits for

    The pool drives its writer by steps of the writer's own system. The snapshot that a `save`
    waits for is the newest in the queue, or being written, or done with nothing behind it
    (`Awaited`). So `enforce_budget` comes to an end, and evicts only what has just been
    written. -/

namespace CachedMoe.Runtime

open CachedMoe SessionPool

/-! ### The pool's writer -/

/-- What a step of the pool does to its writer. -/
inductive Drives (w w' : KvDiskWriter) : Prop where
  | kept (same : w' = w)
  | queued (c : Caller) (space : w.has_space c.name c.snapshot.bytes = true)
      (next : w' = w.insert c)
  | discarded (name : Bytes) (next : w' = w.discard name)
  | taken (next : w.take = some w')
  | finished (r : Result Unit) (next : w.finish r = some w')

section Writer

variable {s s' : SessionPool} {w w' : KvDiskWriter}

theorem drives_step {a : Action} (hstep : s.step a = some s') : Drives s.writer s'.writer := by
  cases stepped hstep with
  | dropping name =>
    unfold SessionPool.drop
    dsimp only
    split
    · exact .discarded name rfl
    · exact .kept rfl
  | queued ok c phase outcome hspace => exact .queued c hspace rfl
  | refused ok name => exact .discarded name rfl
  | taken writer htake => exact .taken htake
  | written now fault hwrite =>
    obtain ⟨writer, hfinish, rfl⟩ := Option.map_eq_some_iff.mp hwrite
    exact .finished _ hfinish
  | _ => exact .kept rfl

/-- The thread runs, and each order is that of one `save` at most. -/
structure Serving (w : KvDiskWriter) : Prop where
  stopping : w.stopping = false
  exited : w.exited = false
  pending : ∀ e ∈ w.pending, ∀ c ∈ e.2.completions, c ≤ w.stats.queued
  job : ∀ c ∈ w.job, c ≤ w.stats.queued
  done : ∀ c, w.done c ≠ none → c ≤ w.stats.queued
  idle : w.busy = false → w.job = []

theorem Serving.queued (h : Serving w) (c : Caller) : Serving (w.insert c) := by
  refine ⟨h.stopping, h.exited, ?_, ?_, ?_, h.idle⟩
  · intro e he i hi
    show i ≤ w.stats.queued + 1
    rcases Table.mem_put.mp he with ⟨hold, _⟩ | rfl
    · exact (h.pending e hold i hi).trans (Nat.le_succ _)
    · rcases List.mem_append.mp hi with hbefore | hown
      · cases hfind : w.pending.find c.name with
        | none =>
          rw [hfind] at hbefore
          cases hbefore
        | some q =>
          rw [hfind] at hbefore
          exact (h.pending (c.name, q) (Table.mem_of_find hfind) i hbefore).trans (Nat.le_succ _)
      · split at hown
        · rw [List.mem_singleton.mp hown]
        · cases hown
  · intro i hi
    exact (h.job i hi).trans (Nat.le_succ _)
  · intro i hi
    exact (h.done i hi).trans (Nat.le_succ _)

theorem Serving.discarded (h : Serving w) (name : Bytes) : Serving (w.discard name) := by
  unfold KvDiskWriter.discard
  dsimp only
  split
  · exact ⟨h.stopping, h.exited, h.pending, h.job, h.done, h.idle⟩
  next q hfind =>
    refine ⟨h.stopping, h.exited, ?_, h.job, ?_, h.idle⟩
    · intro e he
      exact h.pending e (Table.mem_erase.mp he).1
    · intro i hi
      by_cases hmem : i ∈ q.completions
      · exact h.pending (name, q) (Table.mem_of_find hfind) i hmem
      · have hdone : w.complete q.completions KvDiskWriter.cancelled i = w.done i := if_neg hmem
        exact h.done i (hdone ▸ hi)

theorem take_some (h : w.take = some w') :
    ∃ name q, Taken w w' name q ∧ w'.snapshot = q.snapshot ∧ w'.job = q.completions ∧
      w'.done = w.done ∧ w'.stopping = w.stopping ∧ w'.exited = w.exited := by
  unfold KvDiskWriter.take at h
  split at h
  · cases h
  next hidle =>
  rw [not_or] at hidle
  cases hmin : KvDiskWriter.min_element w.pending with
  | none =>
    rw [hmin] at h
    cases h
  | some m =>
    rw [hmin] at h
    cases h
    obtain ⟨hmem, hleast⟩ := min_element_spec hmin
    refine ⟨m.1, m.2, ?_, rfl, rfl, rfl, rfl, rfl⟩
    exact ⟨⟨by simpa using hidle.1, by simpa using hidle.2⟩, hmem, hleast, rfl, rfl, rfl, rfl, rfl,
      rfl, rfl, rfl, rfl⟩

theorem Serving.taken (h : Serving w) (htake : w.take = some w') : Serving w' := by
  obtain ⟨name, q, ht, _, hjob, hdone, hstopping, hexited⟩ := take_some htake
  refine ⟨hstopping.trans h.stopping, hexited.trans h.exited, ?_, ?_, ?_, ?_⟩
  · rw [ht.pending, ht.stats]
    intro e he
    exact h.pending e (Table.mem_erase.mp he).1
  · rw [hjob, ht.stats]
    exact h.pending _ ht.mem
  · rw [hdone, ht.stats]
    exact h.done
  · intro hidle
    rw [ht.busy] at hidle
    cases hidle

theorem finish_some {r : Result Unit} (h : w.finish r = some w') :
    w.busy = true ∧ w'.pending = w.pending ∧ w'.busy = false ∧ w'.job = [] ∧
      w'.done = w.complete w.job r ∧ w'.stats.queued = w.stats.queued ∧
      w'.stopping = w.stopping ∧ w'.exited = w.exited := by
  unfold KvDiskWriter.finish at h
  split at h
  next hbusy =>
    cases h
    cases r with
    | ok _ => exact ⟨hbusy, rfl, rfl, rfl, rfl, rfl, rfl, rfl⟩
    | error e => exact ⟨hbusy, rfl, rfl, rfl, rfl, rfl, rfl, rfl⟩
  · cases h

theorem Serving.finished (h : Serving w) {r : Result Unit} (hfinish : w.finish r = some w') :
    Serving w' := by
  obtain ⟨_, hpending, _, hjob, hdone, hqueued, hstopping, hexited⟩ := finish_some hfinish
  refine ⟨hstopping.trans h.stopping, hexited.trans h.exited, ?_, ?_, ?_, fun _ => hjob⟩
  · rw [hpending, hqueued]
    exact h.pending
  · rw [hjob]
    nofun
  · rw [hdone, hqueued]
    intro i hi
    by_cases hmem : i ∈ w.job
    · exact h.job i hmem
    · have hold : w.complete w.job r i = w.done i := if_neg hmem
      exact h.done i (hold ▸ hi)

theorem Serving.drives (h : Serving w) (hdrives : Drives w w') : Serving w' := by
  cases hdrives with
  | kept hsame => exact hsame ▸ h
  | queued c _ hnext => exact hnext ▸ h.queued c
  | discarded name hnext => exact hnext ▸ h.discarded name
  | taken hnext => exact h.taken hnext
  | finished r hnext => exact h.finished hnext

/-- The pool drives its writer by steps of the writer's system. -/
theorem Drives.simulates (hdrives : Drives w w') (h : Serving w) :
    w' = w ∨ ∃ b, writer_system.step w b w' := by
  have hrunning : ¬ w.stopping = true := by simp [h.stopping]
  cases hdrives with
  | kept hsame => exact .inl hsame
  | queued c hspace hnext =>
    right
    refine ⟨.queue c, ?_⟩
    show w.step (.queue c) = some w'
    unfold KvDiskWriter.step
    dsimp only
    rw [if_neg hrunning, if_pos hspace, hnext]
  | discarded name hnext =>
    right
    refine ⟨.discard name, ?_⟩
    show w.step (.discard name) = some w'
    unfold KvDiskWriter.step
    dsimp only
    rw [if_neg hrunning, hnext]
  | taken hnext => exact .inr ⟨.take, hnext⟩
  | finished r hnext => exact .inr ⟨.finish r, hnext⟩

end Writer

theorem reachable_writer {s : SessionPool} (h : LTS.Reachable pool_system s) :
    LTS.Reachable writer_system s.writer ∧ Serving s.writer := by
  refine h.invariant (P := fun s => LTS.Reachable writer_system s.writer ∧ Serving s.writer) ?_ ?_
  · intro s hinit
    obtain ⟨disk_opt, max_parked, max_parked_bytes, disk, rfl⟩ := hinit
    refine ⟨.of_init ⟨2 ^ 28, rfl⟩, rfl, rfl, nofun, nofun, ?_, fun _ => rfl⟩
    intro c hc
    exact absurd rfl hc
  · intro s a s' hs hstep
    have hdrives := drives_step hstep
    refine ⟨?_, hs.2.drives hdrives⟩
    rcases hdrives.simulates hs.2 with hsame | ⟨b, hb⟩
    · rw [hsame]
      exact hs.1
    · exact hs.1.step hb

/-! ### The snapshot that a `save` waits for -/

/-- The snapshot `p` of `name`, queued under the order `ticket`, is waiting as the newest, being
    written as the last, or done; and nothing else has that order. -/
structure Awaited (w : KvDiskWriter) (name : Bytes) (p : ParkedContext) (ticket : Nat) : Prop where
  pending : ∀ e ∈ w.pending, ticket ∈ e.2.completions →
    e.1 = name ∧ e.2.snapshot = p ∧ ∀ e' ∈ w.pending, e'.2.order ≤ e.2.order
  job : ticket ∈ w.job → w.writing = name ∧ w.snapshot = p ∧ w.pending = []
  done : w.done ticket ≠ none → w.busy = false ∧ w.pending = []
  somewhere : w.done ticket ≠ none ∨ ticket ∈ w.job ∨ ∃ e ∈ w.pending, ticket ∈ e.2.completions

section Awaiting

variable {w w' : KvDiskWriter} {name : Bytes} {p : ParkedContext} {ticket : Nat}

theorem Serving.awaited (h : Serving w) (hinv : WriterInv w) (name : Bytes) (p : ParkedContext) :
    Awaited (w.insert { name, snapshot := p, wants := true }) name p (w.stats.queued + 1) := by
  have hnew : ∀ {c}, c ≤ w.stats.queued → c ≠ w.stats.queued + 1 := by
    intro c hc
    omega
  refine ⟨?_, ?_, ?_, ?_⟩
  · intro e he hmem
    rcases Table.mem_put.mp he with ⟨hold, _⟩ | rfl
    · exact absurd rfl (hnew (h.pending e hold _ hmem))
    · refine ⟨rfl, rfl, ?_⟩
      intro e' he'
      show e'.2.order ≤ w.stats.queued + 1
      rcases Table.mem_put.mp he' with ⟨hold, _⟩ | rfl
      · exact (hinv.queued _ (hinv.recorded e' hold)).trans (Nat.le_succ _)
      · exact le_rfl
  · intro hmem
    exact absurd rfl (hnew (h.job _ hmem))
  · intro hdone
    exact absurd rfl (hnew (h.done _ hdone))
  · refine .inr (.inr ⟨_, Table.mem_put.mpr (.inr rfl), ?_⟩)
    simp

theorem Awaited.taken (h : Awaited w name p ticket) (hs : Serving w) (hinv : WriterInv w)
    (htake : w.take = some w') : Awaited w' name p ticket := by
  obtain ⟨taken, q, ht, hsnapshot, hjob, hdone, _, _⟩ := take_some htake
  refine ⟨?_, ?_, ?_, ?_⟩
  · rw [ht.pending]
    intro e he hc
    obtain ⟨hname, hp, hnewest⟩ := h.pending e (Table.mem_erase.mp he).1 hc
    exact ⟨hname, hp, fun e' he' => hnewest e' (Table.mem_erase.mp he').1⟩
  · rw [hjob]
    intro hc
    obtain ⟨hname, hp, hnewest⟩ := h.pending (taken, q) ht.mem hc
    refine ⟨ht.writing.trans hname, hsnapshot.trans hp, ?_⟩
    -- what is left would be newer than the newest
    apply List.eq_nil_iff_forall_not_mem.mpr
    intro e he
    have hlt := ht.order_lt hinv he
    rw [ht.pending] at he
    exact absurd (hnewest e (Table.mem_erase.mp he).1) (not_le.mpr hlt)
  · rw [hdone]
    intro hd
    have hmem := ht.mem
    rw [(h.done hd).2] at hmem
    cases hmem
  · rw [hdone, hjob, ht.pending]
    rcases h.somewhere with hd | hj | ⟨e, he, hc⟩
    · exact .inl hd
    · rw [hs.idle ht.idle.2] at hj
      cases hj
    · by_cases hname : e.1 = taken
      · have he' : (taken, e.2) ∈ w.pending := by
          rw [← hname]
          exact he
        have hq : e.2 = q :=
          Option.some.inj ((Table.find_of_mem hinv.keys he').symm.trans (ht.find hinv))
        exact .inr (.inl (hq ▸ hc))
      · exact .inr (.inr ⟨e, Table.mem_erase.mpr ⟨he, hname⟩, hc⟩)

theorem Awaited.finished (h : Awaited w name p ticket) {r : Result Unit}
    (hfinish : w.finish r = some w') : Awaited w' name p ticket := by
  obtain ⟨hbusy, hpending, hidle, hjob, hdone, _, _, _⟩ := finish_some hfinish
  refine ⟨?_, ?_, ?_, ?_⟩
  · rw [hpending]
    exact h.pending
  · rw [hjob]
    nofun
  · rw [hdone, hpending]
    intro hd
    by_cases hmem : ticket ∈ w.job
    · exact ⟨hidle, (h.job hmem).2.2⟩
    · have hold : w.complete w.job r ticket = w.done ticket := if_neg hmem
      exact ⟨hidle, (h.done (hold ▸ hd)).2⟩
  · rw [hdone, hpending]
    by_cases hmem : ticket ∈ w.job
    · left
      have hr : w.complete w.job r ticket = some r := if_pos hmem
      simp [hr]
    · have hold : w.complete w.job r ticket = w.done ticket := if_neg hmem
      rw [hold]
      rcases h.somewhere with hd | hj | he
      · exact .inl hd
      · exact absurd hj hmem
      · exact .inr (.inr he)

end Awaiting

/-- What `enforce_budget` waits for is what is parked. -/
def Waits (s : SessionPool) : Prop :=
  ∀ victim ticket, s.phase = .saving victim (some ticket) →
    ∃ p, s.parked.find victim = some p ∧ Awaited s.writer victim p ticket

section Waiting

variable {s s' : SessionPool}

theorem waits_enforced (h : Waits s) (hs : Serving s.writer) (hinv : WriterInv s.writer)
    {a : Action} (hstep : Enforced s s' a) : Waits s' := by
  intro v t hv
  cases hstep with
  | turn ok hphase hnext =>
    subst hnext
    unfold SessionPool.enforce_budget at hv
    dsimp only at hv
    split at hv
    · cases hv
    split at hv
    · split at hv
      · cases hv
      · rw [hphase] at hv
        cases hv
    · cases hv
  | queued ok victim p hphase hfind hspace hnext =>
    subst hnext
    cases hv
    exact ⟨p, hfind, hs.awaited hinv v p⟩
  | told ok victim ticket r hphase hdone hnext =>
    subst hnext
    cases r with
    | ok _ => cases hv
    | error e => cases hv
  | taken writer htake hnext =>
    subst hnext
    obtain ⟨p, hfind, hawaited⟩ := h v t hv
    exact ⟨p, hfind, hawaited.taken hs hinv htake⟩
  | written now fault hwrite =>
    obtain ⟨writer, hfinish, rfl⟩ := Option.map_eq_some_iff.mp hwrite
    obtain ⟨p, hfind, hawaited⟩ := h v t hv
    exact ⟨p, hfind, hawaited.finished hfinish⟩

end Waiting

theorem reachable_waits {s : SessionPool} (h : LTS.Reachable pool_system s) : Waits s := by
  refine (h.invariant (P := fun s => LTS.Reachable pool_system s ∧ Waits s) ?_ ?_).2
  · intro s hinit
    refine ⟨.of_init hinit, ?_⟩
    obtain ⟨disk_opt, max_parked, max_parked_bytes, disk, rfl⟩ := hinit
    intro v t hv
    cases hv
  · intro s a s' hs hstep
    obtain ⟨hreach, hwaits⟩ := hs
    refine ⟨hreach.step hstep, ?_⟩
    obtain ⟨hwriter, hserving⟩ := reachable_writer hreach
    cases hphase : s.phase.enforcing with
    | true =>
      exact waits_enforced hwaits hserving (reachable_writer_inv hwriter)
        (enforced_step hphase hstep)
    | false =>
      intro v t hv
      exact absurd hv (step_not_saving hphase hstep v (some t))

/-! ### `enforce_budget` comes to an end -/

namespace SessionPool

/-- What `enforce_budget` has yet to do: five steps for each session that it may evict. -/
def left (s : SessionPool) : Nat :=
  match s.phase with
  | .budget => 5 * s.lru.length + 1
  | .saving _ none => 5 * s.lru.length
  | .saving _ (some _) => 5 * s.lru.length - 3
  | _ => 0

/-- And what the writer has. -/
def work (s : SessionPool) : Nat := s.left + (2 * s.writer.pending.length + s.writer.busy.toNat)

/-- Both budgets are met. -/
def WithinBudget (s : SessionPool) : Prop :=
  s.parked.length ≤ s.max_parked ∧ (s.parked.map fun e => e.2.bytes).sum ≤ s.max_parked_bytes

end SessionPool

section Termination

variable {s s' : SessionPool}

theorem length_insert_le (w : KvDiskWriter) (c : Caller) :
    (w.insert c).pending.length ≤ w.pending.length + 1 := by
  show (w.pending.put c.name _).length ≤ _
  unfold Table.put
  rw [List.length_append, List.length_singleton]
  exact Nat.succ_le_succ (List.length_filter_le _ _)

/-- A turn of the loop without a save. -/
theorem left_turn (hphase : s.phase = .budget) : s.enforce_budget.left < s.left := by
  have hleft : s.left = 5 * s.lru.length + 1 := by simp [SessionPool.left, hphase]
  rw [hleft]
  unfold SessionPool.enforce_budget
  dsimp only
  split
  · simp [SessionPool.left]
  next victim hlast =>
  have hpos : 0 < s.lru.length := List.length_pos_of_ne_nil (by
    intro hnil
    rw [hnil] at hlast
    cases hlast)
  split
  · split
    · simp [SessionPool.left]
    · simp only [SessionPool.left, hphase, List.length_dropLast]
      omega
  · simp [SessionPool.left]

theorem writer_turn (s : SessionPool) : s.enforce_budget.writer = s.writer := by
  unfold SessionPool.enforce_budget
  dsimp only
  split
  · rfl
  split
  · split
    · rfl
    · rfl
  · rfl

/-- Every step from inside `enforce_budget` takes some work away. -/
theorem work_enforced (h : Books s) {a : Action} (hstep : Enforced s s' a) : s'.work < s.work := by
  -- a turn ends a phase, a told save takes its entry, the thread its job
  cases hstep with
  | turn ok hphase hnext =>
    subst hnext
    have hleft := left_turn hphase
    unfold SessionPool.work
    rw [writer_turn]
    omega
  | queued ok victim p hphase hfind hspace hnext =>
    subst hnext
    have hlast := h.victim victim none hphase
    have hpos : 0 < s.lru.length := List.length_pos_of_ne_nil (by
      intro hnil
      rw [hnil] at hlast
      cases hlast)
    have hlen := length_insert_le s.writer { name := victim, snapshot := p, wants := true }
    have hbusy : (s.writer.insert { name := victim, snapshot := p, wants := true }).busy =
        s.writer.busy := rfl
    simp only [SessionPool.work, SessionPool.left, hphase, hbusy]
    omega
  | told ok victim ticket r hphase hdone hnext =>
    subst hnext
    have hlast := h.victim victim (some ticket) hphase
    have hpos : 0 < s.lru.length := List.length_pos_of_ne_nil (by
      intro hnil
      rw [hnil] at hlast
      cases hlast)
    cases r with
    | ok _ =>
      simp only [SessionPool.work, SessionPool.left, hphase, SessionPool.saved,
        List.length_dropLast]
      omega
    | error e =>
      simp only [SessionPool.work, SessionPool.left, hphase, SessionPool.saved]
      omega
  | taken writer htake hnext =>
    subst hnext
    obtain ⟨name, q, ht⟩ := take_taken htake
    have hless : (s.writer.pending.erase name).length < s.writer.pending.length := by
      refine List.length_filter_lt_length_iff_exists.mpr ⟨(name, q), ht.mem, ?_⟩
      simp
    have hleft : ({ s with writer } : SessionPool).left = s.left := rfl
    unfold SessionPool.work
    rw [hleft, ht.pending, ht.busy, ht.idle.2]
    simp only [Bool.toNat_true, Bool.toNat_false]
    omega
  | written now fault hwrite =>
    obtain ⟨writer, hfinish, rfl⟩ := Option.map_eq_some_iff.mp hwrite
    obtain ⟨hbusy, hpending, hbusy', _⟩ := finish_some hfinish
    simp only [SessionPool.work, SessionPool.left, hpending, hbusy, hbusy']
    simp

/-- Inside `enforce_budget` the pool or the writer's thread can always go on. -/
theorem enforcing_enabled (hreach : LTS.Reachable pool_system s)
    (hphase : s.phase.enforcing = true) : ∃ a s', pool_system.step s a s' := by
  obtain ⟨hwriter, hserving⟩ := reachable_writer hreach
  have hinv := reachable_writer_inv hwriter
  have hbooks := reachable_books hreach
  -- the thread has something to do
  have hthread : s.writer.busy = true ∨ s.writer.pending ≠ [] → ∃ a s', pool_system.step s a s' := by
    intro hwork
    cases hbusy : s.writer.busy with
    | true =>
      have hfinish : ∀ r, ∃ w, s.writer.finish r = some w := by
        intro r
        exact ⟨_, if_pos hbusy⟩
      obtain ⟨w, hw⟩ := hfinish (save_parked_context s.writer.snapshot s.disk_opt s.writer.writing
        0 none s.disk).1
      refine ⟨.written 0 none, { s with
        writer := w
        disk := (save_parked_context s.writer.snapshot s.disk_opt s.writer.writing 0 none s.disk).2 },
        ?_⟩
      show s.written 0 none = some _
      unfold SessionPool.written
      dsimp only
      rw [hw]
      rfl
    | false =>
      have hsome : s.writer.pending ≠ [] := by
        rcases hwork with hb | hne
        · rw [hbusy] at hb
          cases hb
        · exact hne
      cases hmin : KvDiskWriter.min_element s.writer.pending with
      | none => exact absurd (min_element_none.mp hmin) hsome
      | some m =>
        have htake : ∃ w, s.writer.take = some w := by
          unfold KvDiskWriter.take
          rw [if_neg (by simp [hserving.exited, hbusy]), hmin]
          exact ⟨_, rfl⟩
        obtain ⟨w, hw⟩ := htake
        refine ⟨.take, { s with writer := w }, ?_⟩
        show s.writer.take.map _ = some _
        rw [hw]
        rfl
  cases hp : s.phase with
  | budget =>
    refine ⟨.resume true, s.enforce_budget, ?_⟩
    show s.resume true = some _
    simp [SessionPool.resume, hp]
  | saving victim ticket =>
    cases ticket with
    | none =>
      have hmem := List.mem_of_getLast? (hbooks.victim victim none hp)
      obtain ⟨p, hfind⟩ := hbooks.listed.find hmem
      cases hspace : s.writer.has_space victim p.bytes with
      | true =>
        have hstep : ∃ s', s.resume true = some s' := by
          simp [SessionPool.resume, hp, hfind, SessionPool.queue, hspace]
        obtain ⟨s', hs'⟩ := hstep
        exact ⟨.resume true, s', hs'⟩
      | false =>
        refine hthread (.inr ?_)
        intro hnil
        have hbytes := hinv.bytes
        rw [hnil] at hbytes
        have hzero : s.writer.pending_bytes = 0 := hbytes
        simp [KvDiskWriter.has_space, hzero] at hspace
    | some ticket =>
      obtain ⟨p, _, hawaited⟩ := reachable_waits hreach victim ticket hp
      rcases hawaited.somewhere with hdone | hjob | ⟨e, he, _⟩
      · obtain ⟨r, hr⟩ := Option.ne_none_iff_exists'.mp hdone
        refine ⟨.resume true, s.saved victim r, ?_⟩
        show s.resume true = some _
        simp [SessionPool.resume, hp, hr]
      · refine hthread (.inl ?_)
        cases hbusy : s.writer.busy with
        | true => rfl
        | false =>
          rw [hserving.idle hbusy] at hjob
          cases hjob
      · exact hthread (.inr (List.ne_nil_of_mem he))
  | _ =>
    rw [hp] at hphase
    cases hphase

/-- A step that is not the return of `enforce_budget` stays inside. -/
theorem enforced_inside (h : s.phase.enforcing = true) {a : Action} (hstep : Enforced s s' a) :
    s'.phase.enforcing = true ∨ s'.phase = .idle := by
  cases hstep with
  | turn ok hphase hnext =>
    subst hnext
    unfold SessionPool.enforce_budget
    dsimp only
    split
    · exact .inr rfl
    split
    · split
      · exact .inl rfl
      · exact .inl h
    · exact .inr rfl
  | queued ok victim p hphase hfind hspace hnext => exact hnext ▸ .inl rfl
  | told ok victim ticket r hphase hdone hnext =>
    subst hnext
    cases r with
    | ok _ => exact .inl rfl
    | error e => exact .inr rfl
  | taken writer htake hnext => exact hnext ▸ .inl h
  | written now fault hwrite =>
    obtain ⟨writer, _, rfl⟩ := Option.map_eq_some_iff.mp hwrite
    exact .inl h

/-- Every run from inside `enforce_budget` that is as long as its work has seen it return. -/
theorem enforcing_returns (hbooks : Books s) (hphase : s.phase.enforcing = true) {as : List Action}
    (hrun : LTS.Run pool_system s as s') (hlong : s.work ≤ as.length) :
    ∃ as₁ as₂ t, as = as₁ ++ as₂ ∧ LTS.Run pool_system s as₁ t ∧ t.phase = .idle ∧
      LTS.Run pool_system t as₂ s' := by
  induction hrun with
  | nil s =>
    -- there is work as long as the call is under way
    exfalso
    have hzero : s.work = 0 := Nat.le_zero.mp hlong
    have hleft : s.left = 0 := by
      unfold SessionPool.work at hzero
      omega
    cases hp : s.phase with
    | budget => simp [SessionPool.left, hp] at hleft
    | saving victim ticket =>
      have hlast := hbooks.victim victim ticket hp
      have hpos : 0 < s.lru.length := List.length_pos_of_ne_nil (by
        intro hnil
        rw [hnil] at hlast
        cases hlast)
      cases ticket with
      | none =>
        simp only [SessionPool.left, hp] at hleft
        omega
      | some ticket =>
        simp only [SessionPool.left, hp] at hleft
        omega
    | _ =>
      rw [hp] at hphase
      cases hphase
  | @cons s s₁ s₂ a as hstep hrest ih =>
    have henforced := enforced_step hphase hstep
    rcases enforced_inside hphase henforced with hinside | hidle
    · have hless := work_enforced hbooks henforced
      have hlong' : s₁.work ≤ as.length := by
        rw [List.length_cons] at hlong
        omega
      obtain ⟨as₁, as₂, t, rfl, hfirst, hidle, hsecond⟩ :=
        ih (hbooks.step hstep) hinside hlong'
      exact ⟨a :: as₁, as₂, t, rfl, .cons hstep hfirst, hidle, hsecond⟩
    · exact ⟨[a], as, s₁, rfl, .single hstep, hidle, hrest⟩

/-- How `enforce_budget` returns: within both budgets, or with the error of a save. -/
theorem enforcing_outcome (hbooks : Books s) (hphase : s.phase.enforcing = true) {a : Action}
    (hstep : pool_system.step s a s') (hidle : s'.phase = .idle) :
    (s'.outcome = .ok () ∧ s'.WithinBudget) ∨
      ∃ victim ticket e, s.phase = .saving victim (some ticket) ∧
        s.writer.done ticket = some (.error e) ∧ s'.outcome = .error e := by
  -- only a turn within the budgets and a failed save return
  cases enforced_step hphase hstep with
  | turn ok hp hnext =>
    left
    subst hnext
    unfold SessionPool.enforce_budget at hidle ⊢
    dsimp only at hidle ⊢
    split at hidle
    next hnone =>
      have hnil : s.lru = [] := List.getLast?_eq_none_iff.mp hnone
      have hkeys : s.parked.keys = [] := by
        have hperm := hbooks.listed.perm
        rw [hnil] at hperm
        exact List.nil_perm.mp hperm
      have hparked : s.parked = [] := List.map_eq_nil_iff.mp hkeys
      refine ⟨rfl, ?_, ?_⟩
      · show s.parked.length ≤ s.max_parked
        simp [hparked]
      · show (s.parked.map fun e => e.2.bytes).sum ≤ s.max_parked_bytes
        simp [hparked]
    next victim hlast =>
    split at hidle
    next hover =>
      exfalso
      split at hidle
      · cases hidle
      · rw [hp] at hidle
        cases hidle
    next hwithin =>
      rw [if_neg hwithin]
      rw [not_or, not_lt, not_lt] at hwithin
      exact ⟨rfl, hwithin⟩
  | queued ok victim p hp hfind hspace hnext =>
    subst hnext
    cases hidle
  | told ok victim ticket r hp hdone hnext =>
    subst hnext
    cases r with
    | ok _ => cases hidle
    | error e => exact .inr ⟨victim, ticket, e, hp, hdone, rfl⟩
  | taken writer htake hnext =>
    subst hnext
    have hsame : s.phase = .idle := hidle
    rw [hsame] at hphase
    cases hphase
  | written now fault hwrite =>
    obtain ⟨writer, _, rfl⟩ := Option.map_eq_some_iff.mp hwrite
    have hsame : s.phase = .idle := hidle
    rw [hsame] at hphase
    cases hphase

end Termination

/-! ### What is evicted was saved -/

/-- The run over `as` from `s₀` to `s` ends with the write of the snapshot `p` that is parked
    under `victim`, and the outcome of the write is `r`. -/
def SavedLast (s₀ : SessionPool) (as : List Action) (s : SessionPool) (victim : Bytes)
    (p : ParkedContext) (r : Result Unit) : Prop :=
  ∃ as' now fault u, as = as' ++ [.written now fault] ∧ LTS.Run pool_system s₀ as' u ∧
    pool_system.step u (.written now fault) s ∧ u.parked.find victim = some p ∧
    u.disk_opt = s.disk_opt ∧
    save_parked_context p u.disk_opt victim now fault u.disk = (r, s.disk)

section Evictions

variable {s₀ s s' : SessionPool} {as : List Action} {victim : Bytes} {p : ParkedContext}

theorem written_some {now : Nat} {fault : Option SaveFault}
    (h : s.written now fault = some s') :
    ∃ writer, s.writer.finish (save_parked_context s.writer.snapshot s.disk_opt s.writer.writing now
        fault s.disk).1 = some writer ∧
      s' = { s with
        writer
        disk := (save_parked_context s.writer.snapshot s.disk_opt s.writer.writing now fault
          s.disk).2 } := by
  obtain ⟨writer, hfinish, hs'⟩ := Option.map_eq_some_iff.mp h
  exact ⟨writer, hfinish, hs'.symm⟩

/-- The outcome that `save` returns is that of the write of the victim's parked context, and
    nothing has happened since. -/
theorem told_saved (hinit : pool_system.init s₀) (hrun : LTS.Run pool_system s₀ as s)
    {ticket : Nat} {r : Result Unit} (hphase : s.phase = .saving victim (some ticket))
    (hdone : s.writer.done ticket = some r) (hfind : s.parked.find victim = some p) :
    SavedLast s₀ as s victim p r := by
  have hidle : s₀.phase = .idle := by
    obtain ⟨disk_opt, max_parked, max_parked_bytes, disk, rfl⟩ := hinit
    rfl
  rcases List.eq_nil_or_concat as with rfl | ⟨as', a, rfl⟩
  · cases hrun
    rw [hidle] at hphase
    cases hphase
  -- the last step set the outcome
  rw [List.concat_eq_append] at hrun ⊢
  obtain ⟨u, hbefore, hlast⟩ := hrun.of_append
  have hstep : u.step a = some s := by
    cases hlast with
    | cons hstep hnil =>
      cases hnil
      exact hstep
  have hreach : LTS.Reachable pool_system u := ⟨s₀, as', hinit, hbefore⟩
  have hinside : u.phase.enforcing = true := by
    by_contra hout
    exact step_not_saving (Bool.eq_false_iff.mpr hout) hstep victim (some ticket) hphase
  cases enforced_step hinside hstep with
  | turn ok hp hnext =>
    exfalso
    subst hnext
    unfold SessionPool.enforce_budget at hphase
    dsimp only at hphase
    split at hphase
    · cases hphase
    split at hphase
    · split at hphase
      · cases hphase
      · rw [hp] at hphase
        cases hphase
    · cases hphase
  | queued ok v q hp hq hspace hnext =>
    -- the order is new, and has no outcome yet
    exfalso
    subst hnext
    cases hphase
    have hold : u.writer.done (u.writer.stats.queued + 1) = some r := hdone
    have hle := (reachable_writer hreach).2.done (u.writer.stats.queued + 1) (by simp [hold])
    omega
  | told ok v t r' hp hdone' hnext =>
    exfalso
    subst hnext
    cases r' with
    | ok _ => cases hphase
    | error e => cases hphase
  | taken writer htake hnext =>
    -- behind the snapshot there is nothing to take
    exfalso
    subst hnext
    obtain ⟨name, q, ht, _, _, hsame, _⟩ := take_some htake
    have hold : u.writer.done ticket = some r := hsame ▸ hdone
    obtain ⟨q', _, hawaited⟩ := reachable_waits hreach victim ticket hphase
    have hmem := ht.mem
    rw [(hawaited.done (by simp [hold])).2] at hmem
    cases hmem
  | written now fault hwrite =>
    obtain ⟨writer, hfinish, rfl⟩ := written_some hwrite
    obtain ⟨hbusy, _, _, _, hcomplete, _⟩ := finish_some hfinish
    obtain ⟨q, hq, hawaited⟩ := reachable_waits hreach victim ticket hphase
    have hnew : writer.done ticket = some r := hdone
    rw [hcomplete] at hnew
    by_cases hmem : ticket ∈ u.writer.job
    · obtain ⟨hwriting, hsnapshot, _⟩ := hawaited.job hmem
      have hqp : q = p := Option.some.inj (hq.symm.trans hfind)
      unfold KvDiskWriter.complete at hnew
      rw [if_pos hmem, hwriting, hsnapshot, hqp] at hnew
      refine ⟨as', now, fault, u, rfl, hbefore, hstep, hfind, rfl, ?_⟩
      show _ = (r, (save_parked_context u.writer.snapshot u.disk_opt u.writer.writing now fault
        u.disk).2)
      rw [hwriting, hsnapshot, hqp, ← Option.some.inj hnew]
    · -- no write is under way once the snapshot is done
      exfalso
      unfold KvDiskWriter.complete at hnew
      rw [if_neg hmem] at hnew
      have hidle := (hawaited.done (by simp [hnew])).1
      rw [hbusy] at hidle
      cases hidle

/-- What leaves `parked_` while `enforce_budget` runs, over a disk directory. -/
theorem evicted_saved (hinit : pool_system.init s₀) (hrun : LTS.Run pool_system s₀ as s)
    (hphase : s.phase.enforcing = true) (hdisk : s.has_disk = true) {a : Action}
    (hstep : pool_system.step s a s') {name : Bytes} (hfind : s.parked.find name = some p)
    (hgone : s'.parked.find name = none) : SavedLast s₀ as s name p (.ok ()) := by
  -- only a save whose outcome was told removes its entry
  cases enforced_step hphase hstep with
  | turn ok hp hnext =>
    exfalso
    subst hnext
    have hkept : s.enforce_budget.parked = s.parked := by
      unfold SessionPool.enforce_budget
      dsimp only
      split
      · rfl
      split
      · rfl
      · rfl
    rw [hkept, hfind] at hgone
    cases hgone
  | queued ok victim q hp hq hspace hnext =>
    exfalso
    subst hnext
    rw [hfind] at hgone
    cases hgone
  | told ok victim ticket r hp hdone hnext =>
    subst hnext
    cases r with
    | ok _ =>
      have herase : (s.parked.erase victim).find name = none := hgone
      rw [Table.find_erase] at herase
      split at herase
      next heq =>
        subst heq
        exact told_saved hinit hrun hp hdone hfind
      · rw [hfind] at herase
        cases herase
    | error e =>
      have hkept : s.parked.find name = none := hgone
      rw [hfind] at hkept
      cases hkept
  | taken writer htake hnext =>
    exfalso
    subst hnext
    rw [hfind] at hgone
    cases hgone
  | written now fault hwrite =>
    exfalso
    obtain ⟨writer, _, rfl⟩ := Option.map_eq_some_iff.mp hwrite
    rw [hfind] at hgone
    cases hgone

end Evictions

/-- In every run of the pool:
    * `lru_` is a permutation of the keys of `parked_`, and the victim is one of them;
    * inside `enforce_budget` a step can always be taken, every long enough run has seen it
      return, and it returns within both budgets or with the error of a save;
    * with a disk directory, what it takes from `parked_` has just been saved. -/
theorem session_pool_bookkeeping {s₀ s : SessionPool} {as : List Action}
    (hinit : pool_system.init s₀) (hrun : LTS.Run pool_system s₀ as s) :
    (s.lru.Nodup ∧ s.lru.Perm s.parked.keys) ∧
    (∀ victim ticket, s.phase = .saving victim ticket →
      s.lru.getLast? = some victim ∧ s.parked.find victim ≠ none) ∧
    (s.phase.enforcing = true →
      (∃ a s', pool_system.step s a s') ∧
      (∀ bs t, LTS.Run pool_system s bs t → s.work ≤ bs.length →
        ∃ bs₁ bs₂ u, bs = bs₁ ++ bs₂ ∧ LTS.Run pool_system s bs₁ u ∧ u.phase = .idle ∧
          LTS.Run pool_system u bs₂ t) ∧
      ∀ a s', pool_system.step s a s' →
        (s'.phase = .idle → (s'.outcome = .ok () ∧ s'.WithinBudget) ∨
          ∃ victim p e, SavedLast s₀ as s victim p (.error e) ∧ s'.outcome = .error e) ∧
        (s.has_disk = true → ∀ name p, s.parked.find name = some p →
          s'.parked.find name = none → SavedLast s₀ as s name p (.ok ()))) := by
  have hreach : LTS.Reachable pool_system s := ⟨s₀, as, hinit, hrun⟩
  have hbooks := reachable_books hreach
  refine ⟨⟨hbooks.listed.nodup, hbooks.listed.perm⟩, ?_, ?_⟩
  · intro victim ticket hphase
    have hlast := hbooks.victim victim ticket hphase
    obtain ⟨p, hfind⟩ := hbooks.listed.find (List.mem_of_getLast? hlast)
    exact ⟨hlast, by simp [hfind]⟩
  · intro hphase
    refine ⟨enforcing_enabled hreach hphase, ?_, ?_⟩
    · intro bs t hbs hlong
      exact enforcing_returns hbooks hphase hbs hlong
    · intro a s' hstep
      refine ⟨?_, ?_⟩
      · intro hidle
        rcases enforcing_outcome hbooks hphase hstep hidle with
          hok | ⟨victim, ticket, e, hp, hdone, herror⟩
        · exact .inl hok
        · obtain ⟨p, hfind⟩ := hbooks.listed.find
            (List.mem_of_getLast? (hbooks.victim victim (some ticket) hp))
          exact .inr ⟨victim, p, e, told_saved hinit hrun hp hdone hfind, herror⟩
      · intro hdisk name p hfind hgone
        exact evicted_saved hinit hrun hphase hdisk hstep hfind hgone

/-- The default session is parked, and `enforce_budget` has seen it written. -/
def saving_run : List Action :=
  [.generate [1], .activate other_name false one_position] ++ resumes 2 ++
    [.take, .written 1 none] ++ resumes 4 ++ [.take, .written 2 none]

theorem session_pool_bookkeeping_evicted :
    ∃ s s', LTS.Run pool_system disk_pool saving_run s ∧ pool_system.step s (.resume true) s' ∧
      s'.parked.find default_name = none ∧
      ∃ p, s.parked.find default_name = some p ∧
        SavedLast disk_pool saving_run s default_name p (.ok ()) := by
  obtain ⟨s, hrun, hs⟩ := LTS.Run.of_execute SessionPool.step disk_pool saving_run
    (fun s => s.phase.enforcing && s.has_disk && (s.parked.find default_name).isSome &&
      (s.resume true).any fun s' => s'.parked.find default_name = none) (by decide)
  simp only [Bool.and_eq_true, Option.isSome_iff_exists, Option.any_eq_true,
    decide_eq_true_eq] at hs
  obtain ⟨⟨⟨hphase, hdisk⟩, p, hfind⟩, s', hstep, hgone⟩ := hs
  have hall := session_pool_bookkeeping disk_pool_init hrun
  have hsaved := ((hall.2.2 hphase).2.2 (.resume true) s' hstep).2 hdisk default_name p hfind hgone
  exact ⟨s, s', hrun, hstep, hgone, p, hfind, hsaved⟩

end CachedMoe.Runtime
