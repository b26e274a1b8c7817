import CachedMoe.Storage.RingBooks

/-! # Completions of the io_uring backend

    A record in flight can be read again only so often, so without further submits the kernel and
    `drain` run out of steps; and then every accepted chunk has its one completion. -/

namespace CachedMoe.Storage

open CachedMoe

namespace IoUring

/-! ### Nothing is read forever -/

namespace Backend

variable {files : Nat → File} {s s' : Backend} {idx : Nat}

/-- How often a record can still be read: every continuation brings bytes that it wants, and it
    gets a bounce buffer once. -/
def reads_left (s : Backend) (idx : Nat) : Nat :=
  (s.slots idx).want + if (s.slots idx).bounce.isNone then 1 else 0

/-- Steps of the kernel and of `drain` that the chunks in flight can still take. -/
def work (s : Backend) : Nat :=
  (s.sq.map fun e => 3 * s.reads_left e.user_data + 3).sum +
    (s.running.map fun e => 3 * s.reads_left e.user_data + 2).sum +
    (s.cq.map fun c => 3 * s.reads_left c.user_data + 1).sum

/-- What `drain` makes of the record in hand: it is off the queues, or published again with fewer
    reads left. -/
structure Advances (idx : Nat) (s s' : Backend) : Prop where
  running : s'.running = s.running
  cq : s'.cq = s.cq
  others : ∀ i, i ≠ idx → s'.slots i = s.slots i
  sq : s'.sq = s.sq ∨
    ∃ e, s'.sq = s.sq ++ [e] ∧ e.user_data = idx ∧ s'.reads_left idx < s.reads_left idx

theorem finish_advances (s : Backend) (idx : Nat) (slot : Slot) (c : ChunkCompletion) :
    Advances idx s (s.finish idx slot c) := by
  obtain ⟨bs, bf, hgive⟩ := give_bounce_frame s slot.bounce
  unfold Backend.finish
  rw [hgive]
  exact ⟨rfl, rfl, fun i hi => Function.update_of_ne hi .., .inl rfl⟩

theorem resubmit_advances {slot : Slot} {bs bf : List Bounce}
    (h : slot.want + (if slot.bounce.isNone then 1 else 0) < s.reads_left idx) :
    Advances idx s { s with
      slots := Function.update s.slots idx slot
      bounce_size := bs
      bounce_free := bf
      sq := s.sq ++ [slot.sqe idx] } := by
  refine ⟨rfl, rfl, fun i hi => Function.update_of_ne hi .., .inr ⟨_, rfl, rfl, ?_⟩⟩
  have hself : Function.update s.slots idx slot idx = slot := Function.update_self ..
  show (Function.update s.slots idx slot idx).want +
    (if (Function.update s.slots idx slot idx).bounce.isNone then 1 else 0) < _
  rw [hself]
  exact h

theorem read_on_advances (s : Backend) (idx got : Nat) :
    Advances idx s (s.read_on idx (s.slots idx) got) := by
  unfold Backend.read_on
  split
  next hshort =>
    unfold submit_locked
    by_cases hfull : s.sq_entries ≤ s.sq.length
    · rw [if_pos hfull]
      exact finish_advances s idx _ _
    · rw [if_neg hfull]
      apply resubmit_advances
      show (s.slots idx).want - got + (if (s.slots idx).bounce.isNone then 1 else 0) <
        (s.slots idx).want + if (s.slots idx).bounce.isNone then 1 else 0
      omega
  · exact finish_advances s idx _ _

theorem drain_one_advances (h : Books files s [idx]) {c : Cqe} (hc : c.user_data = idx) {fresh : Option Nat}
    (hfresh : s.Unused fresh) : Advances idx s (s.drain_one c fresh) := by
  unfold Backend.drain_one
  rw [hc]
  dsimp only
  split
  next hfault =>
    unfold Backend.read_bounced
    cases htake : s.take_bounce (s.slots idx).bytes fresh with
    | mk r s₁ =>
      cases r with
      | none =>
        rw [take_bounce_none htake]
        exact finish_advances s idx _ _
      | some p =>
        obtain ⟨bs, bf, rfl, -, -⟩ := take_bounce_some h.ledger.buffers hfresh htake
        have hsubmit : ({ s with bounce_size := bs, bounce_free := bf }).submit_locked idx
            (s.slots idx).chunk_id { s.slots idx with bounce := some p } = .ok _ :=
          if_neg (Nat.not_le.mpr h.room)
        dsimp only
        rw [hsubmit]
        apply resubmit_advances
        show (s.slots idx).want + 0 < (s.slots idx).want + if (s.slots idx).bounce.isNone then 1 else 0
        rw [hfault.2]
        exact Nat.lt_succ_self _
  split
  · exact finish_advances s idx _ _
  · unfold Backend.drain_read Backend.copy_out
    cases (s.slots idx).bounce with
    | none => exact read_on_advances s idx _
    | some p =>
      have hread := read_on_advances (s.land idx
        { dst := (s.slots idx).dst, bytes := (s.buffers p).take c.res.toNat }) idx c.res.toNat
      exact ⟨hread.running, hread.cq, hread.others, hread.sq⟩

theorem reads_left_congr {i : Nat} (h : s'.slots i = s.slots i) : s'.reads_left i = s.reads_left i := by
  unfold reads_left
  rw [h]

theorem Books.drain_work (h : Books files s [idx]) (ha : Advances idx s s') :
    s'.work < s.work + (3 * s.reads_left idx + 1) := by
  have hsq : (s.sq.map fun e => 3 * s'.reads_left e.user_data + 3) =
      s.sq.map fun e => 3 * s.reads_left e.user_data + 3 := by
    apply List.map_congr_left
    intro e he
    have hne := ne_of_mem_of_not_mem (sqe_flying (List.mem_append_left s.running he)) h.not_flying
    rw [reads_left_congr (ha.others _ hne)]
  have hrunning : (s.running.map fun e => 3 * s'.reads_left e.user_data + 2) =
      s.running.map fun e => 3 * s.reads_left e.user_data + 2 := by
    apply List.map_congr_left
    intro e he
    have hne := ne_of_mem_of_not_mem (sqe_flying (List.mem_append_right s.sq he)) h.not_flying
    rw [reads_left_congr (ha.others _ hne)]
  have hcq : (s.cq.map fun c => 3 * s'.reads_left c.user_data + 1) =
      s.cq.map fun c => 3 * s.reads_left c.user_data + 1 := by
    apply List.map_congr_left
    intro c hc
    have hne := ne_of_mem_of_not_mem (cqe_flying hc) h.not_flying
    rw [reads_left_congr (ha.others _ hne)]
  unfold work
  rw [ha.running, ha.cq, hrunning, hcq]
  rcases ha.sq with hsame | ⟨e, hmore, hud, hless⟩
  · rw [hsame, hsq]
    omega
  · rw [hmore, List.map_append, List.sum_append, hsq, List.map_singleton, List.sum_singleton, hud]
    omega

/-- A call of `submit`. -/
def Action.submits : Action → Bool
  | .submit_begin .. | .submit_end _ => true
  | .take_over | .answer .. | .drain _ => false

theorem answer_frame (files : Nat → File) (s : Backend) (e : Sqe) (res : Int) :
    (s.answer files e res).slots = s.slots ∧ (s.answer files e res).sq = s.sq ∧
      (s.answer files e res).running = s.running ∧
      (s.answer files e res).cq = s.cq ++ [{ res, user_data := e.user_data }] := by
  unfold Backend.answer
  dsimp only
  split
  · exact ⟨rfl, rfl, rfl, rfl⟩
  · cases e.addr with
    | memory a => exact ⟨rfl, rfl, rfl, rfl⟩
    | bounce p => exact ⟨rfl, rfl, rfl, rfl⟩

theorem Books.step_work (h : Books files s []) {a : Action} (ha : a.submits = false)
    (hstep : s.step files a = some s') : s'.work < s.work := by
  obtain ⟨req, device, fresh, rfl, -⟩ | ⟨i, req, slot, rfl, -⟩ | ⟨e, sq, -, hsq, rfl⟩ |
    ⟨i, res, e, -, hi, hres, rfl⟩ | ⟨fresh, c, cq, -, hfresh, hcq, rfl⟩ := step_cases hstep
  · cases ha
  · cases ha
  · unfold work
    rw [hsq]
    show (sq.map fun e => 3 * s.reads_left e.user_data + 3).sum +
        ((s.running ++ [e]).map fun e => 3 * s.reads_left e.user_data + 2).sum +
        (s.cq.map fun c => 3 * s.reads_left c.user_data + 1).sum < _
    rw [List.map_append, List.sum_append, List.map_singleton, List.sum_singleton, List.map_cons,
      List.sum_cons]
    omega
  · obtain ⟨hslots, hsq, hrunning, hcq⟩ := answer_frame files { s with running := s.running.eraseIdx i } e res
    obtain ⟨hlt, he⟩ := List.getElem?_eq_some_iff.mp hi
    have hperm := (List.getElem_cons_eraseIdx_perm hlt).map fun e => 3 * s.reads_left e.user_data + 2
    rw [he, List.map_cons] at hperm
    have hsum := hperm.sum_eq
    rw [List.sum_cons] at hsum
    generalize ({ s with running := s.running.eraseIdx i }).answer files e res = t at hslots hsq hrunning hcq ⊢
    have hleft : ∀ j, t.reads_left j = s.reads_left j := fun j => reads_left_congr (congrFun hslots j)
    unfold work
    simp only [hsq, hrunning, hcq, hleft, List.map_append, List.sum_append, List.map_singleton,
      List.sum_singleton]
    omega
  · obtain ⟨hpopped, -⟩ := h.pop hcq
    have hwork := hpopped.drain_work (drain_one_advances hpopped rfl hfresh)
    have hsplit : s.work = Backend.work { s with cq } + (3 * s.reads_left c.user_data + 1) := by
      unfold work
      rw [hcq, List.map_cons, List.sum_cons]
      show _ = (s.sq.map fun e => 3 * s.reads_left e.user_data + 3).sum +
        (s.running.map fun e => 3 * s.reads_left e.user_data + 2).sum +
        (cq.map fun c => 3 * s.reads_left c.user_data + 1).sum + _
      omega
    rw [hsplit]
    exact hwork

theorem idle_queues (hwork : ∀ a s', a.submits = false → s.step files a ≠ some s') : s.flying = [] := by
  have hsq : s.sq = [] := by
    cases hsq : s.sq with
    | nil => rfl
    | cons e sq =>
      have hstep : s.step files .take_over = some { s with sq, running := s.running ++ [e] } := by
        unfold Backend.step
        dsimp only
        rw [hsq]
      exact absurd hstep (hwork _ _ rfl)
  have hrunning : s.running = [] := by
    cases hrunning : s.running with
    | nil => rfl
    | cons e running =>
      have hstep : s.step files (.answer 0 0) =
          some (({ s with running := s.running.eraseIdx 0 }).answer files e 0) := by
        unfold Backend.step
        dsimp only
        rw [hrunning]
        exact if_pos (Int.natCast_nonneg _)
      exact absurd hstep (hwork _ _ rfl)
  have hcq : s.cq = [] := by
    cases hcq : s.cq with
    | nil => rfl
    | cons c cq =>
      have hunused : s.Unused none := fun p hp => by cases hp
      have hstep : s.step files (.drain none) = some (({ s with cq }).drain_one c none) := by
        unfold Backend.step
        dsimp only
        rw [if_pos hunused, hcq]
      exact absurd hstep (hwork _ _ rfl)
  unfold flying
  rw [hsq, hrunning, hcq]
  rfl

end Backend

section Runs

variable {files : Nat → File} {n : Nat} {s s' : Backend}

/-- Between two calls of `submit` only so many steps can be taken. -/
theorem run_work (h : Backend.Books files s []) {as : List Backend.Action}
    (has : ∀ a ∈ as, a.submits = false) (hrun : LTS.Run (ring_system files n) s as s') :
    as.length + s'.work ≤ s.work ∧ Backend.Books files s' [] := by
  induction hrun with
  | nil s => exact ⟨by simp, h⟩
  | @cons s s₁ s₂ a as hstep hrest ih =>
    have hless := h.step_work (has a List.mem_cons_self) hstep
    obtain ⟨hle, hbooks⟩ := ih (h.step hstep) fun a' ha' => has a' (List.mem_cons_of_mem _ ha')
    refine ⟨?_, hbooks⟩
    rw [List.length_cons]
    omega

/-- In every reachable state the free records and those in flight are the ring's records, each
    once; every accepted chunk is in flight or has its one completion, under its own id; a
    success has brought the bytes that must arrive, one behind the other; and no two records in
    flight hold one bounce buffer. Without further submits the kernel and `drain` run out of
    steps, and then every accepted chunk has its completion. -/
theorem io_uring_chunk_bookkeeping (h : LTS.Reachable (ring_system files n) s) :
    (s.free_slots ++ s.flying).Perm (List.range s.sq_entries) ∧
      s.inflight = s.flying.length ∧
      (s.completed.map (fun d => d.2.req) ++ s.flying.map fun idx => (s.flights idx).req).Perm s.accepted ∧
      (∀ d ∈ s.completed, d.1.chunk_id = d.2.req.chunk_id ∧
        (d.1.ok = true → want_of d.2.req ≤ d.1.bytes_moved ∧ Delivered files d.2 d.1.bytes_moved)) ∧
      (∀ i ∈ s.flying, ∀ j ∈ s.flying, ∀ p, (s.slots i).bounce = some p → (s.slots j).bounce = some p →
        i = j) ∧
      ∀ as s', (∀ a ∈ as, Backend.Action.submits a = false) → LTS.Run (ring_system files n) s as s' →
        as.length ≤ s.work ∧
        ((∀ a s'', Backend.Action.submits a = false → ¬ (ring_system files n).step s' a s'') →
          (s'.completed.map fun d => d.2.req).Perm s'.accepted) := by
  have hbooks := reachable_books h
  have hledger := hbooks.ledger
  rw [List.append_nil] at hledger
  refine ⟨hledger.records, hledger.count, hledger.accepted, hledger.settled,
    fun i hi j hj p hpi hpj => hledger.bounce_unique hi hj hpi hpj, fun as s' has hrun => ?_⟩
  obtain ⟨hwork, hbooks'⟩ := run_work hbooks has hrun
  refine ⟨by omega, fun hquiet => ?_⟩
  have hledger' := hbooks'.ledger.accepted
  rw [Backend.idle_queues hquiet] at hledger'
  simpa using hledger'

end Runs

/-! #### A chunk that is bounced and read in two pieces -/

def two_pages : ChunkRequest :=
  { chunk_id := 7, file := 0, file_off := 0, bytes := 8192, min_bytes := 0, dst := 4096 }

def one_file : Nat → File := fun _ => { size := 8192 }

def two_records : Backend :=
  { sq_entries := 2, free_slots := [0, 1], flights := fun _ => { req := two_pages } }

/-- The kernel refuses the destination, and then brings one page at a time. -/
def bounced_run : List Backend.Action :=
  [.submit_begin two_pages false none, .submit_end 0, .take_over, .answer 0 (-EFAULT),
    .drain (some 1), .take_over, .answer 0 4096, .drain none, .take_over, .answer 0 4096, .drain none]

def delivers_two_pages (s : Backend) : Bool :=
  s.completed.any fun d => d.1.ok && d.1.bytes_moved == 8192 && d.2.req == two_pages

theorem io_uring_chunk_bookkeeping_bounced : ∃ s, LTS.Reachable (ring_system one_file 2) s ∧
    ∃ d ∈ s.completed, d.1.chunk_id = 7 ∧ d.2.req = two_pages ∧ Delivered one_file d.2 8192 := by
  have hidle : Backend.idle 2 two_records := by
    refine ⟨rfl, rfl, rfl, rfl, rfl, rfl, rfl, rfl, rfl, rfl, rfl⟩
  obtain ⟨s, hs, hP⟩ := LTS.Reachable.of_execute (Backend.step one_file) bounced_run delivers_two_pages
    hidle (by decide)
  obtain ⟨d, hd, hall⟩ := List.any_eq_true.mp hP
  obtain ⟨-, -, -, hsettled, -⟩ := io_uring_chunk_bookkeeping hs
  simp only [Bool.and_eq_true, beq_iff_eq] at hall
  obtain ⟨⟨hok, hmoved⟩, hreq⟩ := hall
  obtain ⟨hid, hdelivered⟩ := hsettled d hd
  refine ⟨s, hs, d, hd, ?_, hreq, ?_⟩
  · rw [hid, hreq]
    rfl
  · rw [← hmoved]
    exact (hdelivered hok).2

end IoUring

end CachedMoe.Storage
