import CachedMoe.Storage.IoUring
import Mathlib.Data.List.Perm.Basic
import Mathlib.Data.List.Pairwise

/-! # Bookkeeping of the io_uring backend

    What holds between two steps, and within a step of `drain` while the record of the entry it
    took off the queue is in hand: every record is free, in flight or in hand; a record in flight
    is on one of the three queues; and what has been written for its chunk is contiguous. -/

namespace CachedMoe.Storage

open CachedMoe

namespace IoUring

/-! ### Deliveries -/

/-- The pieces lie one behind the other, from `dst` on. -/
def Contiguous : Nat → List Landing → Prop
  | _, [] => True
  | dst, w :: ws => w.dst = dst ∧ Contiguous (dst + w.bytes.length) ws

theorem contiguous_snoc {dst : Nat} {ws : List Landing} (h : Contiguous dst ws) {w : Landing}
    (hw : w.dst = dst + (ws.flatMap Landing.bytes).length) : Contiguous dst (ws ++ [w]) := by
  induction ws generalizing dst with
  | nil => exact ⟨hw, trivial⟩
  | cons v ws ih =>
    refine ⟨h.1, ih h.2 ?_⟩
    rw [hw, List.flatMap_cons, List.length_append, Nat.add_assoc]

section Reads

variable (files : Nat → File)

namespace Backend

theorem read_bytes_length (fd off n : Nat) : (read_bytes files fd off n).length = n := by
  rw [read_bytes, List.length_map, List.length_range]

theorem read_bytes_add (fd off m n : Nat) :
    read_bytes files fd off m ++ read_bytes files fd (off + m) n = read_bytes files fd off (m + n) := by
  rw [read_bytes, read_bytes, read_bytes, List.range_add, List.map_append, List.map_map]
  congr 1
  apply List.map_congr_left
  intro i _
  rw [Function.comp_apply, Nat.add_assoc]

end Backend

/-- The first `n` bytes of the chunk have arrived at its destination, piece by piece. -/
structure Delivered (f : Flight) (n : Nat) : Prop where
  contiguous : Contiguous f.req.dst f.landings
  bytes : f.landings.flatMap Landing.bytes = Backend.read_bytes files f.req.file f.req.file_off n

theorem Delivered.none (req : ChunkRequest) : Delivered files { req } 0 :=
  ⟨trivial, rfl⟩

theorem Delivered.more {f : Flight} {m n : Nat} (h : Delivered files f m) {w : Landing}
    (hdst : w.dst = f.req.dst + m)
    (hbytes : w.bytes = Backend.read_bytes files f.req.file (f.req.file_off + m) n) :
    Delivered files { f with landings := f.landings ++ [w] } (m + n) := by
  constructor
  · apply contiguous_snoc h.contiguous
    rw [h.bytes, Backend.read_bytes_length, hdst]
  · rw [List.flatMap_append, h.bytes, List.flatMap_singleton, hbytes, Backend.read_bytes_add]

end Reads

/-! ### Records -/

/-- The record reads the rest of the request. -/
structure Carries (slot : Slot) (req : ChunkRequest) : Prop where
  fd : slot.fd = req.file
  off : slot.off = req.file_off + slot.moved
  dst : slot.dst = req.dst + slot.moved
  bytes : slot.bytes + slot.moved = req.bytes
  want : slot.want + slot.moved = want_of req

theorem carries_request (req : ChunkRequest) (bounce : Option Nat) :
    Carries { Backend.request_slot req with bounce } req :=
  ⟨rfl, rfl, rfl, rfl, rfl⟩

theorem Carries.rest {slot : Slot} {req : ChunkRequest} (h : Carries slot req) {got : Nat}
    (hbytes : got ≤ slot.bytes) (hwant : got < slot.want) : Carries (Backend.Slot.after slot got) req where
  fd := h.fd
  off := by
    show slot.off + got = req.file_off + (slot.moved + got)
    rw [h.off, Nat.add_assoc]
  dst := by
    show slot.dst + got = req.dst + (slot.moved + got)
    rw [h.dst, Nat.add_assoc]
  bytes := by
    show slot.bytes - got + (slot.moved + got) = req.bytes
    have hall := h.bytes
    omega
  want := by
    show slot.want - got + (slot.moved + got) = want_of req
    have hall := h.want
    omega

namespace Backend

variable {files : Nat → File} {s s' : Backend} {hand : List Nat}

/-- The records on the three queues. -/
def flying (s : Backend) : List Nat :=
  (s.sq ++ s.running).map Sqe.user_data ++ s.cq.map Cqe.user_data

def bounce_of (s : Backend) (idx : Nat) : Option Nat := (s.slots idx).bounce

/-- The bounce buffers of some records, and of the calls of `submit` before their lock. -/
def held (s : Backend) (taken : List Nat) : List Nat :=
  taken.filterMap s.bounce_of ++ s.waiting.filterMap fun w => w.2.bounce

/-- A completion tells of its own chunk; where it is a success, of all the bytes that must
    arrive. -/
def Settled (files : Nat → File) (d : ChunkCompletion × Flight) : Prop :=
  d.1.chunk_id = d.2.req.chunk_id ∧
    (d.1.ok = true → want_of d.2.req ≤ d.1.bytes_moved ∧ Delivered files d.2 d.1.bytes_moved)

/-- What holds of the records that are not free, whatever queue they are on. -/
structure Ledger (files : Nat → File) (s : Backend) (taken : List Nat) : Prop where
  records : (s.free_slots ++ taken).Perm (List.range s.sq_entries)
  count : s.inflight = taken.length
  carries : ∀ idx ∈ taken, Carries (s.slots idx) (s.flights idx).req ∧
    (s.slots idx).chunk_id = (s.flights idx).req.chunk_id
  waits : ∀ w ∈ s.waiting, Carries w.2 w.1 ∧ w.2.moved = 0
  held : (s.held taken).Perm (s.bounce_size.map Bounce.ptr)
  buffers : ((s.bounce_size ++ s.bounce_free).map Bounce.ptr).Nodup
  accepted : (s.completed.map (fun d => d.2.req) ++ taken.map fun idx => (s.flights idx).req).Perm
    s.accepted
  settled : ∀ d ∈ s.completed, Settled files d

/-- What an entry of the completion queue says: the bytes are at the destination, or in the
    record's bounce buffer. -/
def Answered (files : Nat → File) (s : Backend) (c : Cqe) : Prop :=
  c.res ≤ (s.slots c.user_data).bytes ∧
    match s.bounce_of c.user_data with
    | none => Delivered files (s.flights c.user_data) ((s.slots c.user_data).moved + c.res.toNat)
    | some p => Delivered files (s.flights c.user_data) (s.slots c.user_data).moved ∧
        (0 ≤ c.res → s.buffers p =
          read_bytes files (s.slots c.user_data).fd (s.slots c.user_data).off c.res.toNat)

/-- An entry reads what its record says. -/
def Queued (files : Nat → File) (s : Backend) (e : Sqe) : Prop :=
  e = (s.slots e.user_data).sqe e.user_data ∧
    Delivered files (s.flights e.user_data) (s.slots e.user_data).moved

/-- The books, while the records `hand` are not free and on no queue. -/
structure Books (files : Nat → File) (s : Backend) (hand : List Nat) : Prop where
  ledger : Ledger files s (s.flying ++ hand)
  queued : ∀ e ∈ s.sq ++ s.running, Queued files s e
  answered : ∀ c ∈ s.cq, Answered files s c

/-! ### The bounce pool -/

theorem find_eraseP_perm {α : Type} {p : α → Bool} {l : List α} {b : α} (h : l.find? p = some b) :
    (b :: l.eraseP p).Perm l := by
  induction l with
  | nil => cases h
  | cons a l ih =>
    cases ha : p a with
    | true =>
      rw [List.find?_cons_of_pos ha] at h
      rw [List.eraseP_cons_of_pos ha, Option.some.inj h]
    | false =>
      rw [List.find?_cons_of_neg (by simp [ha])] at h
      rw [List.eraseP_cons_of_neg (by simp [ha])]
      exact (List.Perm.swap a b _).trans ((ih h).cons a)

/-- A buffer taken is one more in use, and no other one. -/
theorem take_bounce_some {bytes p : Nat} {fresh : Option Nat}
    (hptrs : ((s.bounce_size ++ s.bounce_free).map Bounce.ptr).Nodup) (hfresh : s.Unused fresh)
    (h : s.take_bounce bytes fresh = (some p, s')) :
    ∃ bs bf, s' = { s with bounce_size := bs, bounce_free := bf } ∧
      bs.map Bounce.ptr = s.bounce_size.map Bounce.ptr ++ [p] ∧
      ((bs ++ bf).map Bounce.ptr).Nodup := by
  unfold take_bounce at h
  dsimp only at h
  generalize align_down (bytes + (2 ^ 20 - 1)) (2 ^ 20) = want at h
  cases hfind : s.bounce_free.find? fun b => want ≤ b.bytes with
  | some b =>
    rw [hfind] at h
    obtain ⟨hp, rfl⟩ := Prod.mk.inj h
    rw [← Option.some.inj hp]
    refine ⟨_, _, rfl, by rw [List.map_append]; rfl, ?_⟩
    have hperm : (s.bounce_size ++ [b] ++ s.bounce_free.eraseP fun b => want ≤ b.bytes).Perm
        (s.bounce_size ++ s.bounce_free) := by
      rw [List.append_assoc]
      exact (find_eraseP_perm hfind).append_left _
    exact (hperm.map Bounce.ptr).nodup_iff.mpr hptrs
  | none =>
    rw [hfind] at h
    cases fresh with
    | none => cases h
    | some q =>
      obtain ⟨hp, rfl⟩ := Prod.mk.inj h
      rw [← Option.some.inj hp]
      refine ⟨_, _, rfl, by rw [List.map_append]; rfl, ?_⟩
      have hnot := hfresh q rfl
      have hperm : (s.bounce_size ++ [Bounce.mk q want] ++ s.bounce_free).Perm
          (Bounce.mk q want :: (s.bounce_size ++ s.bounce_free)) := by
        rw [List.append_assoc]
        exact List.perm_middle
      exact (hperm.map Bounce.ptr).nodup_iff.mpr (List.nodup_cons.mpr ⟨hnot, hptrs⟩)

theorem take_bounce_none {bytes : Nat} {fresh : Option Nat}
    (h : s.take_bounce bytes fresh = (none, s')) : s' = s := by
  unfold take_bounce at h
  dsimp only at h
  generalize align_down (bytes + (2 ^ 20 - 1)) (2 ^ 20) = want at h
  cases hfind : s.bounce_free.find? fun b => want ≤ b.bytes with
  | some b =>
    rw [hfind] at h
    cases h
  | none =>
    rw [hfind] at h
    cases fresh with
    | none => exact (Prod.mk.inj h).2.symm
    | some q => cases h

/-- A buffer given back is one less in use. -/
theorem give_bounce_books {bounce : Option Nat}
    (hheld : ∀ p ∈ bounce, p ∈ s.bounce_size.map Bounce.ptr) :
    ∃ bs bf, s.give_bounce bounce = { s with bounce_size := bs, bounce_free := bf } ∧
      (bounce.toList ++ bs.map Bounce.ptr).Perm (s.bounce_size.map Bounce.ptr) ∧
      ((bs ++ bf).map Bounce.ptr).Perm ((s.bounce_size ++ s.bounce_free).map Bounce.ptr) := by
  cases bounce with
  | none => exact ⟨_, _, rfl, .refl _, .refl _⟩
  | some p =>
    obtain ⟨b, hb, hptr⟩ := List.mem_map.mp (hheld p rfl)
    cases hfind : s.bounce_size.find? fun b => b.ptr = p with
    | none =>
      have hno := List.find?_eq_none.mp hfind b hb
      simp [hptr] at hno
    | some c =>
      have hc : c.ptr = p := by simpa using List.find?_some hfind
      have hperm := find_eraseP_perm hfind
      refine ⟨_, _, by unfold give_bounce; dsimp only; rw [hfind], ?_, ?_⟩
      · have hmap := hperm.map Bounce.ptr
        rw [List.map_cons, hc] at hmap
        exact hmap
      · have hlast : ((s.bounce_size.eraseP fun b => b.ptr = p) ++ (s.bounce_free ++ [c])).Perm
            (c :: ((s.bounce_size.eraseP fun b => b.ptr = p) ++ s.bounce_free)) := by
          rw [← List.append_assoc]
          exact List.perm_append_singleton _ _
        exact (hlast.trans (hperm.append_right _)).map Bounce.ptr

/-! ### The ledger -/

section Ledger

variable {taken rest : List Nat} {idx : Nat} {slot : Slot} {req : ChunkRequest}

theorem held_cons (s : Backend) (idx : Nat) (rest : List Nat) :
    s.held (idx :: rest) = (s.bounce_of idx).toList ++ s.held rest := by
  unfold held
  rw [List.filterMap_cons]
  cases s.bounce_of idx with
  | none => rfl
  | some p => rfl

/-- A record that is not among them. -/
theorem held_update (h : idx ∉ taken) (slot : Slot) :
    ({ s with slots := Function.update s.slots idx slot }).held taken = s.held taken := by
  unfold held
  congr 1
  apply List.filterMap_congr
  intro i hi
  show (Function.update s.slots idx slot i).bounce = (s.slots i).bounce
  rw [Function.update_of_ne (ne_of_mem_of_not_mem hi h)]

theorem Ledger.perm (h : Ledger files s taken) {taken' : List Nat} (hp : taken.Perm taken') :
    Ledger files s taken' where
  records := (hp.append_left _).symm.trans h.records
  count := by rw [h.count, hp.length_eq]
  carries := fun idx hidx => h.carries idx (hp.mem_iff.mpr hidx)
  waits := h.waits
  held := ((hp.filterMap _).append_right _).symm.trans h.held
  buffers := h.buffers
  accepted := ((hp.map _).append_left _).symm.trans h.accepted
  settled := h.settled

theorem Ledger.nodup (h : Ledger files s taken) : (s.free_slots ++ taken).Nodup :=
  h.records.nodup_iff.mpr List.nodup_range

theorem Ledger.not_rest (h : Ledger files s (idx :: rest)) : idx ∉ rest :=
  (List.nodup_cons.mp (List.nodup_append.mp h.nodup).2.1).1

/-- No two records hold one buffer. -/
theorem Ledger.bounce_unique (h : Ledger files s taken) {i j p : Nat} (hi : i ∈ taken) (hj : j ∈ taken)
    (hpi : s.bounce_of i = some p) (hpj : s.bounce_of j = some p) : i = j := by
  by_contra hne
  have hheld : (s.held taken).Nodup := by
    have hsize := (List.nodup_append.mp (List.map_append ▸ h.buffers)).1
    exact h.held.nodup_iff.mpr hsize
  have hpair := List.pairwise_filterMap.mp (List.nodup_append.mp hheld).1
  have hsymm : Std.Symm fun a b =>
      ∀ x, s.bounce_of a = some x → ∀ y, s.bounce_of b = some y → x ≠ y :=
    ⟨fun a b hab x hx y hy heq => hab y hy x hx heq.symm⟩
  exact hpair.forall hi hj hne p hpi p hpj rfl

/-- A record is written again, with the buffers that it then holds. -/
theorem Ledger.rewrite (h : Ledger files s (idx :: rest)) (hcarries : Carries slot (s.flights idx).req)
    (hid : slot.chunk_id = (s.flights idx).req.chunk_id) {bs bf : List Bounce}
    (hheld : (slot.bounce.toList ++ s.held rest).Perm (bs.map Bounce.ptr))
    (hptrs : ((bs ++ bf).map Bounce.ptr).Nodup) :
    Ledger files { s with slots := Function.update s.slots idx slot, bounce_size := bs, bounce_free := bf }
      (idx :: rest) where
  records := h.records
  count := h.count
  carries := by
    intro i hi
    show Carries (Function.update s.slots idx slot i) _ ∧ (Function.update s.slots idx slot i).chunk_id = _
    by_cases heq : i = idx
    · rw [heq, Function.update_self]
      exact ⟨hcarries, hid⟩
    · rw [Function.update_of_ne heq]
      exact h.carries i hi
  waits := h.waits
  held := by
    rw [held_cons]
    have hrest : ({ s with slots := Function.update s.slots idx slot, bounce_size := bs, bounce_free := bf }).held
        rest = s.held rest := held_update h.not_rest slot
    have hown : ({ s with slots := Function.update s.slots idx slot, bounce_size := bs, bounce_free := bf }).bounce_of
        idx = slot.bounce := congrArg Slot.bounce (Function.update_self ..)
    rw [hrest, hown]
    exact hheld
  buffers := hptrs
  accepted := h.accepted
  settled := h.settled

theorem land_req (s : Backend) (idx : Nat) (w : Landing) (i : Nat) :
    ((s.land idx w).flights i).req = (s.flights i).req := by
  show (Function.update s.flights idx _ i).req = _
  by_cases h : i = idx
  · rw [h, Function.update_self]
  · rw [Function.update_of_ne h]

theorem Ledger.land (h : Ledger files s taken) (idx : Nat) (w : Landing) :
    Ledger files (s.land idx w) taken where
  records := h.records
  count := h.count
  carries := fun i hi => by
    rw [land_req]
    exact h.carries i hi
  waits := h.waits
  held := h.held
  buffers := h.buffers
  accepted := by
    have heq : taken.map (fun i => ((s.land idx w).flights i).req) = taken.map fun i => (s.flights i).req :=
      List.map_congr_left fun i _ => land_req s idx w i
    rw [heq]
    exact h.accepted
  settled := h.settled

/-- A chunk that is done leaves its record and its buffer to others. -/
theorem Ledger.finish (h : Ledger files s (idx :: rest)) {c : ChunkCompletion}
    (hc : Settled files (c, s.flights idx)) :
    Ledger files (s.finish idx (s.slots idx) c) rest := by
  have hheld := h.held
  rw [held_cons] at hheld
  have hmem : ∀ p ∈ (s.slots idx).bounce, p ∈ s.bounce_size.map Bounce.ptr := fun p hp =>
    hheld.mem_iff.mp (List.mem_append_left _ (Option.mem_toList.mpr hp))
  obtain ⟨bs, bf, hgive, hsize, hptrs⟩ := give_bounce_books hmem
  unfold Backend.finish
  rw [hgive]
  dsimp only
  exact {
    records := List.perm_middle.symm.trans h.records
    count := by
      show s.inflight - 1 = rest.length
      rw [h.count]
      rfl
    carries := fun i hi => by
      show Carries (Function.update s.slots idx _ i) _ ∧ (Function.update s.slots idx _ i).chunk_id = _
      rw [Function.update_of_ne (ne_of_mem_of_not_mem hi h.not_rest)]
      exact h.carries i (List.mem_cons_of_mem _ hi)
    waits := h.waits
    held := by
      have hrest := (List.perm_append_left_iff _).mp (hheld.trans hsize.symm)
      show (Backend.held { s with slots := Function.update s.slots idx _ } rest).Perm (bs.map Bounce.ptr)
      rw [held_update h.not_rest]
      exact hrest
    buffers := hptrs.nodup_iff.mpr h.buffers
    accepted := by
      rw [List.map_append, List.append_assoc]
      exact h.accepted
    settled := fun d hd => by
      rcases List.mem_append.mp hd with hd | hd
      · exact h.settled d hd
      · rw [List.mem_singleton.mp hd]
        exact hc }

variable {waiting : List (ChunkRequest × Slot)}

theorem held_waiting (hw : s.waiting.Perm ((req, slot) :: waiting)) (taken : List Nat) :
    (s.held taken).Perm (slot.bounce.toList ++ ({ s with waiting }).held taken) := by
  have hbounces := hw.filterMap fun w => w.2.bounce
  have hcons : (((req, slot) :: waiting).filterMap fun w => w.2.bounce) =
      slot.bounce.toList ++ waiting.filterMap fun w => w.2.bounce := by
    rw [List.filterMap_cons]
    cases slot.bounce with
    | none => rfl
    | some p => rfl
  rw [hcons] at hbounces
  unfold held
  refine (hbounces.append_left _).trans ?_
  rw [← List.append_assoc, ← List.append_assoc]
  exact List.perm_append_comm.append_right _

/-- A record is handed out. -/
theorem Ledger.accept (h : Ledger files s taken) (hfree : s.free_slots = idx :: rest)
    (hw : s.waiting.Perm ((req, slot) :: waiting)) :
    Ledger files { s with
      free_slots := rest
      inflight := s.inflight + 1
      slots := Function.update s.slots idx { slot with chunk_id := req.chunk_id }
      flights := Function.update s.flights idx { req }
      accepted := s.accepted ++ [req]
      waiting } (idx :: taken) := by
  have hnot : idx ∉ taken := by
    have hnodup := h.nodup
    rw [hfree, List.cons_append, List.nodup_cons] at hnodup
    exact fun hmem => hnodup.1 (List.mem_append_right _ hmem)
  obtain ⟨hcarries, hmoved⟩ := h.waits (req, slot) (hw.mem_iff.mpr List.mem_cons_self)
  -- the record leaves the free list, and the caller those that wait
  exact {
    records := by
      have hrecords := h.records
      rw [hfree] at hrecords
      exact List.perm_middle.trans hrecords
    count := by
      show s.inflight + 1 = taken.length + 1
      rw [h.count]
    carries := fun i hi => by
      show Carries (Function.update s.slots idx _ i) (Function.update s.flights idx _ i).req ∧
        (Function.update s.slots idx _ i).chunk_id = (Function.update s.flights idx _ i).req.chunk_id
      by_cases heq : i = idx
      · rw [heq, Function.update_self, Function.update_self]
        exact ⟨⟨hcarries.fd, hcarries.off, hcarries.dst, hcarries.bytes, hcarries.want⟩, rfl⟩
      · rw [Function.update_of_ne heq, Function.update_of_ne heq]
        exact h.carries i ((List.mem_cons.mp hi).resolve_left heq)
    waits := fun w hmem => h.waits w (hw.mem_iff.mpr (List.mem_cons_of_mem _ hmem))
    held := by
      rw [held_cons]
      have hrest : Backend.held { s with
            free_slots := rest
            inflight := s.inflight + 1
            slots := Function.update s.slots idx { slot with chunk_id := req.chunk_id }
            flights := Function.update s.flights idx { req }
            accepted := s.accepted ++ [req]
            waiting } taken = Backend.held { s with waiting } taken :=
        held_update (s := { s with waiting }) hnot _
      rw [hrest]
      show ((Function.update s.slots idx _ idx).bounce.toList ++ _).Perm _
      rw [Function.update_self]
      exact (held_waiting hw taken).symm.trans h.held
    buffers := h.buffers
    accepted := by
      have hold : taken.map (fun i => (Function.update s.flights idx { req } i).req) =
          taken.map fun i => (s.flights i).req :=
        List.map_congr_left fun i hi => by rw [Function.update_of_ne (ne_of_mem_of_not_mem hi hnot)]
      show (s.completed.map _ ++ (Function.update s.flights idx { req } idx).req ::
        taken.map fun i => (Function.update s.flights idx { req } i).req).Perm (s.accepted ++ [req])
      rw [Function.update_self, hold]
      exact List.perm_middle.trans ((h.accepted.cons req).trans (List.perm_append_singleton _ _).symm)
    settled := h.settled }

/-- A call that is refused gives its buffer back. -/
theorem Ledger.refuse (h : Ledger files s taken) (hw : s.waiting.Perm ((req, slot) :: waiting)) :
    Ledger files (({ s with waiting }).give_bounce slot.bounce) taken := by
  have hheld := (held_waiting hw taken).symm.trans h.held
  have hmem : ∀ p ∈ slot.bounce, p ∈ s.bounce_size.map Bounce.ptr := fun p hp =>
    hheld.mem_iff.mp (List.mem_append_left _ (Option.mem_toList.mpr hp))
  obtain ⟨bs, bf, hgive, hsize, hptrs⟩ := give_bounce_books (s := { s with waiting }) hmem
  rw [hgive]
  exact {
    records := h.records
    count := h.count
    carries := h.carries
    waits := fun w hmem => h.waits w (hw.mem_iff.mpr (List.mem_cons_of_mem _ hmem))
    held := (List.perm_append_left_iff _).mp (hheld.trans hsize.symm)
    buffers := hptrs.nodup_iff.mpr h.buffers
    accepted := h.accepted
    settled := h.settled }

/-- A call that has its buffer waits for the lock. -/
theorem Ledger.wait (h : Ledger files s taken) (hcarries : Carries slot req) (hmoved : slot.moved = 0)
    {bs bf : List Bounce} (hbs : bs.map Bounce.ptr = s.bounce_size.map Bounce.ptr ++ slot.bounce.toList)
    (hptrs : ((bs ++ bf).map Bounce.ptr).Nodup) :
    Ledger files { s with bounce_size := bs, bounce_free := bf, waiting := s.waiting ++ [(req, slot)] } taken where
  records := h.records
  count := h.count
  carries := h.carries
  waits := fun w hw => by
    rcases List.mem_append.mp hw with hw | hw
    · exact h.waits w hw
    · rw [List.mem_singleton.mp hw]
      exact ⟨hcarries, hmoved⟩
  held := by
    have hlast : [(req, slot)].filterMap (fun w => w.2.bounce) = slot.bounce.toList := by
      rw [List.filterMap_cons]
      cases slot.bounce with
      | none => rfl
      | some p => rfl
    show (taken.filterMap s.bounce_of ++ (s.waiting ++ [(req, slot)]).filterMap _).Perm (bs.map Bounce.ptr)
    rw [List.filterMap_append, hlast, ← List.append_assoc, hbs]
    exact h.held.append_right _
  buffers := hptrs
  accepted := h.accepted
  settled := h.settled

end Ledger

/-! ### The queues -/

section Queues

variable {idx : Nat} {e : Sqe} {c : Cqe}

theorem Queued.frame (h : Queued files s e) (hslot : s'.slots e.user_data = s.slots e.user_data)
    (hflight : s'.flights e.user_data = s.flights e.user_data) : Queued files s' e := by
  unfold Queued
  rw [hslot, hflight]
  exact h

theorem Answered.frame (h : Answered files s c) (hslot : s'.slots c.user_data = s.slots c.user_data)
    (hflight : s'.flights c.user_data = s.flights c.user_data)
    (hbuffers : ∀ p, s.bounce_of c.user_data = some p → s'.buffers p = s.buffers p) :
    Answered files s' c := by
  have hbounce : s'.bounce_of c.user_data = s.bounce_of c.user_data := congrArg Slot.bounce hslot
  unfold Answered at h ⊢
  rw [hslot, hflight, hbounce]
  refine ⟨h.1, ?_⟩
  cases hb : s.bounce_of c.user_data with
  | none =>
    rw [hb] at h
    exact h.2
  | some p =>
    rw [hb] at h
    dsimp only
    rw [hbuffers p hb]
    exact h.2

theorem sqe_flying (h : e ∈ s.sq ++ s.running) : e.user_data ∈ s.flying :=
  List.mem_append_left _ (List.mem_map_of_mem h)

theorem cqe_flying (h : c ∈ s.cq) : c.user_data ∈ s.flying :=
  List.mem_append_right _ (List.mem_map_of_mem h)

theorem Books.in_hand (h : Books files s [idx]) : Ledger files s (idx :: s.flying) :=
  h.ledger.perm (List.perm_append_singleton _ _)

theorem Books.not_flying (h : Books files s [idx]) : idx ∉ s.flying :=
  h.in_hand.not_rest

/-- Where a record is in hand, the ring has room to read it again. -/
theorem Books.room (h : Books files s [idx]) : s.sq.length < s.sq_entries := by
  have hlength := h.in_hand.records.length_eq
  have hflying : s.flying.length = s.sq.length + s.running.length + s.cq.length := by
    unfold flying
    rw [List.length_append, List.length_map, List.length_map, List.length_append]
  rw [List.length_append, List.length_cons, List.length_range, hflying] at hlength
  omega

/-- What happens to the record in hand does not touch the queues. -/
theorem Books.change (h : Books files s [idx]) (hsq : s'.sq = s.sq) (hrunning : s'.running = s.running)
    (hcq : s'.cq = s.cq) (hslots : ∀ i, i ≠ idx → s'.slots i = s.slots i)
    (hflights : ∀ i, i ≠ idx → s'.flights i = s.flights i) (hbuffers : s'.buffers = s.buffers)
    {hand : List Nat} (hledger : Ledger files s' (s.flying ++ hand)) : Books files s' hand where
  ledger := by
    have hflying : s'.flying = s.flying := by
      unfold flying
      rw [hsq, hrunning, hcq]
    rw [hflying]
    exact hledger
  queued := fun e he => by
    rw [hsq, hrunning] at he
    have hne := ne_of_mem_of_not_mem (sqe_flying he) h.not_flying
    exact (h.queued e he).frame (hslots _ hne) (hflights _ hne)
  answered := fun c hc => by
    rw [hcq] at hc
    have hne := ne_of_mem_of_not_mem (cqe_flying hc) h.not_flying
    exact (h.answered c hc).frame (hslots _ hne) (hflights _ hne) fun p _ => by rw [hbuffers]

theorem Books.publish (h : Books files s [idx])
    (hd : Delivered files (s.flights idx) (s.slots idx).moved) :
    Books files { s with sq := s.sq ++ [(s.slots idx).sqe idx] } [] where
  ledger := by
    have hperm : (idx :: s.flying).Perm
        (Backend.flying { s with sq := s.sq ++ [(s.slots idx).sqe idx] } ++ []) := by
      show (idx :: ((s.sq ++ s.running).map Sqe.user_data ++ s.cq.map Cqe.user_data)).Perm
        ((s.sq ++ [(s.slots idx).sqe idx] ++ s.running).map Sqe.user_data ++ s.cq.map Cqe.user_data ++ [])
      rw [List.append_nil, List.append_assoc, List.map_append, List.map_append, List.map_append,
        List.append_assoc, List.append_assoc, List.append_assoc]
      exact List.perm_middle.symm
    have hledger := h.in_hand.perm hperm
    exact { hledger with }
  queued := fun e he => by
    have he' : e ∈ s.sq ++ s.running ∨ e = (s.slots idx).sqe idx := by
      simp only [List.mem_append, List.mem_singleton] at he ⊢
      tauto
    rcases he' with he' | rfl
    · exact h.queued e he'
    · exact ⟨rfl, hd⟩
  answered := h.answered

/-- The record of the chunk that is done becomes free. -/
theorem Books.finish (h : Books files s [idx]) {slot : Slot} (hslot : slot = s.slots idx)
    {c : ChunkCompletion} (hc : Settled files (c, s.flights idx)) :
    Books files (s.finish idx slot c) [] := by
  rw [hslot]
  have hledger := h.in_hand.finish hc
  have hheld := h.in_hand.held
  rw [held_cons] at hheld
  have hmem : ∀ p ∈ (s.slots idx).bounce, p ∈ s.bounce_size.map Bounce.ptr := fun p hp =>
    hheld.mem_iff.mp (List.mem_append_left _ (Option.mem_toList.mpr hp))
  obtain ⟨bs, bf, hgive, _, _⟩ := give_bounce_books hmem
  have heq : s.finish idx (s.slots idx) c = { s with
      bounce_size := bs
      bounce_free := bf
      slots := Function.update s.slots idx { s.slots idx with bounce := none }
      free_slots := idx :: s.free_slots
      completed := s.completed ++ [(c, s.flights idx)]
      inflight := s.inflight - 1 } := by
    unfold Backend.finish
    rw [hgive]
  rw [heq] at hledger ⊢
  apply h.change
  case hslots => exact fun i hi => Function.update_of_ne hi ..
  case hflights => exact fun i _ => rfl
  case hledger =>
    rw [List.append_nil]
    exact hledger
  all_goals rfl

/-- The record in hand is written again and published. -/
theorem Books.resubmit (h : Books files s [idx]) {slot : Slot} (hcarries : Carries slot (s.flights idx).req)
    (hid : slot.chunk_id = (s.flights idx).req.chunk_id)
    (hd : Delivered files (s.flights idx) slot.moved) {bs bf : List Bounce}
    (hheld : (slot.bounce.toList ++ s.held s.flying).Perm (bs.map Bounce.ptr))
    (hptrs : ((bs ++ bf).map Bounce.ptr).Nodup) :
    Books files { s with
      slots := Function.update s.slots idx slot
      bounce_size := bs
      bounce_free := bf
      sq := s.sq ++ [slot.sqe idx] } [] := by
  have hrewrite : Books files { s with
      slots := Function.update s.slots idx slot, bounce_size := bs, bounce_free := bf } [idx] := by
    apply h.change
    case hslots => exact fun i hi => Function.update_of_ne hi ..
    case hflights => exact fun i _ => rfl
    case hledger =>
      exact (h.in_hand.rewrite hcarries hid hheld hptrs).perm (List.perm_append_singleton _ _).symm
    all_goals rfl
  have hself : Function.update s.slots idx slot idx = slot := Function.update_self ..
  have hpublish := hrewrite.publish (by
    show Delivered files (s.flights idx) (Function.update s.slots idx slot idx).moved
    rw [hself]
    exact hd)
  have heq : (Function.update s.slots idx slot idx).sqe idx = slot.sqe idx := by rw [hself]
  rw [← heq]
  exact hpublish

/-! ### `drain` -/

section Drain

variable {fresh : Option Nat}

theorem Books.drain_error (h : Books files s [idx]) {slot : Slot} (hslot : slot = s.slots idx) (res : Int) :
    Books files (s.drain_error idx slot res) [] := by
  apply h.finish hslot
  refine ⟨?_, fun hok => ?_⟩
  · rw [hslot]
    exact (h.ledger.carries idx (List.mem_append_right _ (List.mem_singleton.mpr rfl))).2
  · cases hok

/-- A bounce buffer that another record is to hold, in the books. -/
theorem held_taken (h : Books files s [idx]) (hnone : (s.slots idx).bounce = none) {bs : List Bounce} {p : Nat}
    (hbs : bs.map Bounce.ptr = s.bounce_size.map Bounce.ptr ++ [p]) :
    ([p] ++ s.held s.flying).Perm (bs.map Bounce.ptr) := by
  have hheld := h.in_hand.held
  have hown : s.bounce_of idx = none := hnone
  rw [held_cons, hown] at hheld
  rw [hbs]
  exact List.perm_append_comm.trans (hheld.append_right [p])

theorem Books.read_bounced (h : Books files s [idx]) (hnone : (s.slots idx).bounce = none)
    (hd : Delivered files (s.flights idx) (s.slots idx).moved) (hfresh : s.Unused fresh) (res : Int) :
    Books files (match s.read_bounced idx (s.slots idx) fresh with
      | (true, s') => s'
      | (false, s') => s'.drain_error idx (s.slots idx) res) [] := by
  unfold Backend.read_bounced
  cases htake : s.take_bounce (s.slots idx).bytes fresh with
  | mk r s₁ =>
    cases r with
    | none =>
      rw [take_bounce_none htake]
      exact h.drain_error rfl res
    | some p =>
      obtain ⟨bs, bf, rfl, hbs, hptrs⟩ := take_bounce_some h.ledger.buffers hfresh htake
      obtain ⟨hcarries, hid⟩ := h.ledger.carries idx (List.mem_append_right _ (List.mem_singleton.mpr rfl))
      have hsubmit : ({ s with bounce_size := bs, bounce_free := bf }).submit_locked idx
          (s.slots idx).chunk_id { s.slots idx with bounce := some p } = .ok _ :=
        if_neg (Nat.not_le.mpr h.room)
      dsimp only
      rw [hsubmit]
      have hbounced : Carries { s.slots idx with bounce := some p } (s.flights idx).req :=
        ⟨hcarries.fd, hcarries.off, hcarries.dst, hcarries.bytes, hcarries.want⟩
      exact h.resubmit hbounced hid hd (held_taken h hnone hbs) hptrs

/-- The bytes that an answer brought are at the destination once they are copied out. -/
theorem Books.copy_out (h : Books files s [idx]) {c : Cqe} (hc : c.user_data = idx)
    (ha : Answered files s c) (hres : 0 ≤ c.res) :
    Books files (s.copy_out idx (s.slots idx) c.res.toNat) [idx] ∧
      Delivered files ((s.copy_out idx (s.slots idx) c.res.toNat).flights idx)
        ((s.slots idx).moved + c.res.toNat) := by
  obtain ⟨hcarries, _⟩ := h.ledger.carries idx (List.mem_append_right _ (List.mem_singleton.mpr rfl))
  subst hc
  unfold Answered at ha
  unfold Backend.copy_out
  cases hbounce : (s.slots c.user_data).bounce with
  | none =>
    have hnone : s.bounce_of c.user_data = none := hbounce
    rw [hnone] at ha
    exact ⟨h, ha.2⟩
  | some p =>
    have hsome : s.bounce_of c.user_data = some p := hbounce
    rw [hsome] at ha
    have hbytes := ha.2.2 hres
    have htake : (s.buffers p).take c.res.toNat = s.buffers p :=
      List.take_of_length_le (by rw [hbytes, read_bytes_length])
    constructor
    · apply h.change
      case hslots => exact fun i _ => rfl
      case hflights => exact fun i hi => Function.update_of_ne hi ..
      case hledger => exact h.ledger.land _ _
      all_goals rfl
    · show Delivered files (Function.update s.flights c.user_data _ c.user_data) _
      rw [Function.update_self, htake]
      apply ha.2.1.more files hcarries.dst
      rw [hbytes, hcarries.fd, hcarries.off]

theorem Books.read_on (h : Books files s [idx]) {got : Nat} (hbytes : got ≤ (s.slots idx).bytes)
    (hd : Delivered files (s.flights idx) ((s.slots idx).moved + got)) :
    Books files (s.read_on idx (s.slots idx) got) [] := by
  obtain ⟨hcarries, hid⟩ := h.ledger.carries idx (List.mem_append_right _ (List.mem_singleton.mpr rfl))
  unfold Backend.read_on
  split
  next hshort =>
    have hsubmit : s.submit_locked idx (s.slots idx).chunk_id (Slot.after (s.slots idx) got) = .ok _ :=
      if_neg (Nat.not_le.mpr h.room)
    have hheld := h.in_hand.held
    rw [held_cons] at hheld
    rw [hsubmit]
    exact h.resubmit (hcarries.rest hbytes hshort.2.1) hid hd hheld h.ledger.buffers
  next hdone =>
    refine h.finish rfl ⟨hid, fun hok => ?_⟩
    unfold ChunkCompletion.ok at hok
    dsimp only at hok
    split at hok
    · cases hok
    next henough =>
      have hwant := hcarries.want
      have hle : want_of (s.flights idx).req ≤ (s.slots idx).moved + got := by omega
      exact ⟨hle, hd⟩

theorem Books.drain_read (h : Books files s [idx]) {c : Cqe} (hc : c.user_data = idx)
    (ha : Answered files s c) (hres : 0 ≤ c.res) :
    Books files (s.drain_read idx (s.slots idx) c.res.toNat) [] := by
  obtain ⟨hcopied, hd⟩ := h.copy_out hc ha hres
  have hbytes : c.res.toNat ≤ (s.slots idx).bytes := by
    have hle := ha.1
    rw [hc] at hle
    omega
  have hslots : (s.copy_out idx (s.slots idx) c.res.toNat).slots = s.slots := by
    unfold Backend.copy_out
    cases (s.slots idx).bounce with
    | none => rfl
    | some p => rfl
  have hread : c.res.toNat ≤ ((s.copy_out idx (s.slots idx) c.res.toNat).slots idx).bytes → _ :=
    hcopied.read_on
  rw [hslots] at hread
  exact hread hbytes hd

theorem Books.drain_one (h : Books files s [idx]) {c : Cqe} (hc : c.user_data = idx)
    (ha : Answered files s c) (hfresh : s.Unused fresh) : Books files (s.drain_one c fresh) [] := by
  unfold Backend.drain_one
  rw [hc]
  dsimp only
  split
  next hfault =>
    obtain ⟨hres, hnone⟩ := hfault
    have hd : Delivered files (s.flights idx) (s.slots idx).moved := by
      have hanswer := ha.2
      rw [hc, show s.bounce_of idx = none from hnone, hres] at hanswer
      exact hanswer
    exact h.read_bounced hnone hd hfresh c.res
  split
  · exact h.drain_error rfl c.res
  next hres => exact h.drain_read hc ha (Int.not_lt.mp hres)

end Drain

/-! ### Steps -/

/-- The entry that `drain` takes off the queue. -/
theorem Books.pop {cq : List Cqe} (h : Books files s []) (hcq : s.cq = c :: cq) :
    Books files { s with cq } [c.user_data] ∧ Answered files { s with cq } c := by
  have hperm : (s.flying ++ []).Perm (Backend.flying { s with cq } ++ [c.user_data]) := by
    show ((s.sq ++ s.running).map Sqe.user_data ++ s.cq.map Cqe.user_data ++ []).Perm
      ((s.sq ++ s.running).map Sqe.user_data ++ cq.map Cqe.user_data ++ [c.user_data])
    rw [hcq, List.append_nil, List.append_assoc, List.map_cons]
    exact (List.perm_append_singleton _ _).symm.append_left _
  have hledger := h.ledger.perm hperm
  have hmem : c ∈ s.cq := by
    rw [hcq]
    exact List.mem_cons_self
  refine ⟨⟨?_, h.queued, fun c' hc' => h.answered c' ?_⟩, h.answered c hmem⟩
  · exact { hledger with }
  · rw [hcq]
    exact List.mem_cons_of_mem _ hc'

theorem Books.take_over {sq : List Sqe} (h : Books files s []) (hsq : s.sq = e :: sq) :
    Books files { s with sq, running := s.running ++ [e] } [] := by
  have hall : (s.sq ++ s.running).Perm (sq ++ (s.running ++ [e])) := by
    rw [hsq, ← List.append_assoc]
    exact (List.perm_append_singleton _ _).symm
  have hledger := h.ledger.perm (((hall.map Sqe.user_data).append_right _).append_right _)
  refine ⟨?_, fun e' he' => h.queued e' (hall.mem_iff.mpr he'), h.answered⟩
  exact { hledger with }

/-- The entry that the kernel answers. -/
theorem Books.pick {i : Nat} (h : Books files s []) (hi : s.running[i]? = some e) :
    Books files { s with running := s.running.eraseIdx i } [e.user_data] ∧
      Queued files { s with running := s.running.eraseIdx i } e := by
  obtain ⟨hlt, he⟩ := List.getElem?_eq_some_iff.mp hi
  have hrunning : (e :: s.running.eraseIdx i).Perm s.running := by
    rw [← he]
    exact List.getElem_cons_eraseIdx_perm hlt
  have hall : (s.sq ++ s.running).Perm (e :: (s.sq ++ s.running.eraseIdx i)) :=
    (hrunning.symm.append_left _).trans List.perm_middle
  have hud := (hall.map Sqe.user_data).append_right (s.cq.map Cqe.user_data)
  have hledger : Ledger files s
      (Backend.flying { s with running := s.running.eraseIdx i } ++ [e.user_data]) := by
    have hflying := h.ledger
    rw [List.append_nil] at hflying
    exact (hflying.perm hud).perm (List.perm_append_singleton _ _).symm
  refine ⟨⟨?_, fun e' he' => ?_, h.answered⟩, ?_⟩
  · exact { hledger with }
  · exact h.queued e' (hall.mem_iff.mpr (List.mem_cons_of_mem _ he'))
  · exact h.queued e (hall.mem_iff.mpr List.mem_cons_self)

/-- The answer is on the queue. -/
theorem Books.post (h : Books files s [idx]) (hc : c.user_data = idx) (ha : Answered files s c) :
    Books files { s with cq := s.cq ++ [c] } [] := by
  subst hc
  have hledger : Ledger files s (Backend.flying { s with cq := s.cq ++ [c] } ++ []) := by
    have hflying : Backend.flying { s with cq := s.cq ++ [c] } = s.flying ++ [c.user_data] := by
      have hcq : (s.cq ++ [c]).map Cqe.user_data = s.cq.map Cqe.user_data ++ [c.user_data] :=
        List.map_append
      show (s.sq ++ s.running).map Sqe.user_data ++ (s.cq ++ [c]).map Cqe.user_data = _
      rw [hcq, ← List.append_assoc]
      rfl
    rw [List.append_nil, hflying]
    exact h.ledger
  refine ⟨?_, h.queued, fun c' hc' => ?_⟩
  · exact { hledger with }
  · rcases List.mem_append.mp hc' with hc' | hc'
    · exact h.answered c' hc'
    · rw [List.mem_singleton.mp hc']
      exact ha

/-- A read into the bounce buffer of the record in hand. -/
theorem Books.fill (h : Books files s [idx]) {p : Nat} (hp : s.bounce_of idx = some p) (data : Bytes) :
    Books files { s with buffers := Function.update s.buffers p data } [idx] where
  ledger := { h.ledger with }
  queued := h.queued
  answered := fun c hc => by
    refine (h.answered c hc).frame rfl rfl fun q hq => ?_
    apply Function.update_of_ne
    rintro rfl
    have hflying : c.user_data ∈ s.flying ++ [idx] := List.mem_append_left _ (cqe_flying hc)
    have hsame := h.ledger.bounce_unique hflying (List.mem_append_right _ (List.mem_singleton.mpr rfl)) hq hp
    exact h.not_flying (hsame ▸ cqe_flying hc)

theorem Books.answer (h : Books files s [e.user_data]) (hq : Queued files s e) {res : Int} (hres : res ≤ e.len) :
    Books files (s.answer files e res) [] := by
  obtain ⟨hentry, hd⟩ := hq
  obtain ⟨hcarries, _⟩ := h.ledger.carries e.user_data (List.mem_append_right _ (List.mem_singleton.mpr rfl))
  have hfd : e.fd = (s.slots e.user_data).fd := congrArg Sqe.fd hentry
  have hoff : e.off = (s.slots e.user_data).off := congrArg Sqe.off hentry
  have hlen : e.len = (s.slots e.user_data).bytes := congrArg Sqe.len hentry
  have haddr : e.addr = (s.slots e.user_data).addr := congrArg Sqe.addr hentry
  rw [hlen] at hres
  unfold Backend.answer
  dsimp only
  -- an error moves nothing; else the bytes go to the memory or a bounce buffer
  split
  next hneg =>
    refine h.post (c := { res, user_data := e.user_data }) rfl ⟨hres, ?_⟩
    cases hb : s.bounce_of e.user_data with
    | none =>
      rw [show res.toNat = 0 by omega]
      exact hd
    | some p => exact ⟨hd, fun hno => absurd hneg (Int.not_lt.mpr hno)⟩
  next hneg =>
    cases hb : (s.slots e.user_data).bounce with
    | none =>
      have hmemory : e.addr = .memory (s.slots e.user_data).dst := by
        rw [haddr, Slot.addr, hb]
      rw [hmemory]
      dsimp only
      have hland : Books files (s.land e.user_data
          { dst := (s.slots e.user_data).dst, bytes := read_bytes files e.fd e.off res.toNat }) [e.user_data] := by
        apply h.change
        case hslots => exact fun i _ => rfl
        case hflights => exact fun i hi => Function.update_of_ne hi ..
        case hledger => exact h.ledger.land _ _
        all_goals rfl
      refine hland.post (c := { res, user_data := e.user_data }) rfl ⟨hres, ?_⟩
      have hnone : Backend.bounce_of (s.land e.user_data
          { dst := (s.slots e.user_data).dst, bytes := read_bytes files e.fd e.off res.toNat })
            e.user_data = none := hb
      rw [hnone]
      show Delivered files (Function.update s.flights e.user_data _ e.user_data) _
      rw [Function.update_self]
      apply hd.more files hcarries.dst
      rw [hfd, hoff, hcarries.fd, hcarries.off]
    | some p =>
      have hbounce : e.addr = .bounce p := by
        rw [haddr, Slot.addr, hb]
      rw [hbounce]
      dsimp only
      have hfill := h.fill hb (read_bytes files e.fd e.off res.toNat)
      refine hfill.post (c := { res, user_data := e.user_data }) rfl ⟨hres, ?_⟩
      have hsome : Backend.bounce_of { s with
          buffers := Function.update s.buffers p (read_bytes files e.fd e.off res.toNat) } e.user_data =
            some p := hb
      rw [hsome]
      refine ⟨hd, fun _ => ?_⟩
      show Function.update s.buffers p _ p = _
      rw [Function.update_self, hfd, hoff]

theorem Books.submit_begin (h : Books files s []) (req : ChunkRequest) (device : Bool)
    {fresh : Option Nat} (hfresh : s.Unused fresh) :
    Books files (match s.submit_begin files req device fresh with
      | (.ok slot, s') => { s' with waiting := s'.waiting ++ [(req, slot)] }
      | (.error _, s') => s') [] := by
  unfold Backend.submit_begin
  by_cases hopen : ¬ (files req.file).is_open = true
  · rw [if_pos hopen]
    exact h
  rw [if_neg hopen]
  cases device with
  | true =>
    rw [if_pos rfl]
    cases htake : s.take_bounce req.bytes fresh with
    | mk r s₁ =>
      cases r with
      | none =>
        rw [take_bounce_none htake]
        exact h
      | some p =>
        obtain ⟨bs, bf, rfl, hbs, hptrs⟩ := take_bounce_some h.ledger.buffers hfresh htake
        have hwait := h.ledger.wait (carries_request req (some p)) rfl hbs hptrs
        exact ⟨{ hwait with }, h.queued, h.answered⟩
  | false =>
    have hbs : s.bounce_size.map Bounce.ptr = s.bounce_size.map Bounce.ptr ++ (request_slot req).bounce.toList :=
      (List.append_nil _).symm
    have hwait := h.ledger.wait (carries_request req none) rfl hbs h.ledger.buffers
    exact ⟨{ hwait with }, h.queued, h.answered⟩

theorem give_bounce_frame (s : Backend) (bounce : Option Nat) :
    ∃ bs bf, s.give_bounce bounce = { s with bounce_size := bs, bounce_free := bf } := by
  cases bounce with
  | none => exact ⟨_, _, rfl⟩
  | some p =>
    unfold give_bounce
    dsimp only
    cases s.bounce_size.find? fun b => b.ptr = p with
    | none => exact ⟨_, _, rfl⟩
    | some b => exact ⟨_, _, rfl⟩

/-- Under the lock a call is refused and gives its buffer back, or its chunk is in flight. -/
theorem submit_end_cases (s : Backend) (req : ChunkRequest) (slot : Slot) :
    (s.submit_end req slot).2 = s.give_bounce slot.bounce ∨
    ∃ idx rest, s.free_slots = idx :: rest ∧ (s.submit_end req slot).2 = { s with
      free_slots := rest
      slots := Function.update s.slots idx { slot with chunk_id := req.chunk_id }
      sq := s.sq ++ [slot.sqe idx]
      inflight := s.inflight + 1
      accepted := s.accepted ++ [req]
      flights := Function.update s.flights idx { req } } := by
  unfold Backend.submit_end
  -- refused at the depth, for want of a record, or by a full queue
  by_cases hdepth : s.sq_entries ≤ s.inflight
  · rw [if_pos hdepth]
    exact .inl rfl
  rw [if_neg hdepth]
  cases hfree : s.free_slots with
  | nil =>
    have hpush : s.push_locked req.chunk_id slot = fail .ResourceExhausted "SQ is full" := by
      unfold push_locked
      rw [hfree]
    rw [hpush]
    exact .inl rfl
  | cons idx rest =>
    by_cases hfull : s.sq_entries ≤ s.sq.length
    · have hpush : s.push_locked req.chunk_id slot = fail .ResourceExhausted "SQ is full" := by
        unfold push_locked submit_locked
        rw [hfree]
        dsimp only
        rw [if_pos hfull]
        rfl
      rw [hpush]
      exact .inl rfl
    · have hpush : s.push_locked req.chunk_id slot = .ok { s with
          free_slots := rest
          slots := Function.update s.slots idx { slot with chunk_id := req.chunk_id }
          sq := s.sq ++ [slot.sqe idx] } := by
        unfold push_locked submit_locked
        rw [hfree]
        dsimp only
        rw [if_neg hfull]
        rfl
      rw [hpush]
      exact .inr ⟨idx, rest, rfl, rfl⟩

theorem Books.submit_end (h : Books files s []) {i : Nat} {req : ChunkRequest} {slot : Slot}
    (hi : s.waiting[i]? = some (req, slot)) :
    Books files (({ s with waiting := s.waiting.eraseIdx i }).submit_end req slot).2 [] := by
  obtain ⟨hlt, hw⟩ := List.getElem?_eq_some_iff.mp hi
  have hwaiting : s.waiting.Perm ((req, slot) :: s.waiting.eraseIdx i) := by
    rw [← hw]
    exact (List.getElem_cons_eraseIdx_perm hlt).symm
  obtain hrefused | ⟨idx, rest, hfree, haccepted⟩ :=
    submit_end_cases { s with waiting := s.waiting.eraseIdx i } req slot
  · have hledger := h.ledger.refuse hwaiting
    obtain ⟨bs, bf, hgive⟩ := give_bounce_frame { s with waiting := s.waiting.eraseIdx i } slot.bounce
    rw [hgive] at hledger
    rw [hrefused, hgive]
    exact ⟨{ hledger with }, h.queued, h.answered⟩
  · rw [haccepted]
    have hledger := h.ledger.accept hfree hwaiting
    have hnot : idx ∉ s.flying := by
      have hmem := hledger.not_rest
      rw [List.append_nil] at hmem
      exact hmem
    have hcharged : Books files { s with
        free_slots := rest
        inflight := s.inflight + 1
        slots := Function.update s.slots idx { slot with chunk_id := req.chunk_id }
        flights := Function.update s.flights idx { req }
        accepted := s.accepted ++ [req]
        -- the record is in flight before its entry is in the queue
        waiting := s.waiting.eraseIdx i } [idx] := by
      refine ⟨?_, fun e he => ?_, fun c hc => ?_⟩
      · have hledger' := hledger.perm (List.perm_append_singleton _ _).symm
        rw [List.append_nil] at hledger'
        exact { hledger' with }
      · have hne := ne_of_mem_of_not_mem (sqe_flying he) hnot
        exact (h.queued e he).frame (Function.update_of_ne hne ..) (Function.update_of_ne hne ..)
      · have hne := ne_of_mem_of_not_mem (cqe_flying hc) hnot
        exact (h.answered c hc).frame (Function.update_of_ne hne ..) (Function.update_of_ne hne ..)
          fun _ _ => rfl
    have hself : Function.update s.slots idx { slot with chunk_id := req.chunk_id } idx =
        { slot with chunk_id := req.chunk_id } := Function.update_self ..
    have hmoved := (h.ledger.waits (req, slot) (hwaiting.mem_iff.mpr List.mem_cons_self)).2
    have hpublish := hcharged.publish (by
      show Delivered files (Function.update s.flights idx { req } idx)
        (Function.update s.slots idx { slot with chunk_id := req.chunk_id } idx).moved
      rw [hself, Function.update_self]
      show Delivered files { req } slot.moved
      rw [show slot.moved = 0 from hmoved]
      exact .none files req)
    have hentry : (Function.update s.slots idx { slot with chunk_id := req.chunk_id } idx).sqe idx =
        slot.sqe idx := by
      rw [hself]
      rfl
    rw [← hentry]
    exact hpublish

/-- All that a step of the ring can be. -/
theorem step_cases {a : Action} (h : s.step files a = some s') :
    (∃ req device fresh, a = .submit_begin req device fresh ∧ s.Unused fresh ∧
      s' = match s.submit_begin files req device fresh with
        | (.ok slot, s') => { s' with waiting := s'.waiting ++ [(req, slot)] }
        | (.error _, s') => s') ∨
    (∃ i req slot, a = .submit_end i ∧ s.waiting[i]? = some (req, slot) ∧
      s' = (({ s with waiting := s.waiting.eraseIdx i }).submit_end req slot).2) ∨
    (∃ e sq, a = .take_over ∧ s.sq = e :: sq ∧ s' = { s with sq, running := s.running ++ [e] }) ∨
    (∃ i res e, a = .answer i res ∧ s.running[i]? = some e ∧ res ≤ e.len ∧
      s' = ({ s with running := s.running.eraseIdx i }).answer files e res) ∨
    (∃ fresh c cq, a = .drain fresh ∧ s.Unused fresh ∧ s.cq = c :: cq ∧
      s' = ({ s with cq }).drain_one c fresh) := by
  unfold Backend.step at h
  -- a call has two steps, the kernel two, and the drain is one
  cases a with
  | submit_begin req device fresh =>
    dsimp only at h
    split at h
    next hfresh =>
      refine .inl ⟨req, device, fresh, rfl, hfresh, ?_⟩
      cases hcall : s.submit_begin files req device fresh with
      | mk r s₁ =>
        rw [hcall] at h
        cases r with
        | ok slot => exact (Option.some.inj h).symm
        | error e => exact (Option.some.inj h).symm
    · cases h
  | submit_end i =>
    dsimp only at h
    cases hi : s.waiting[i]? with
    | none =>
      rw [hi] at h
      cases h
    | some w =>
      rw [hi] at h
      exact .inr (.inl ⟨i, w.1, w.2, rfl, hi, (Option.some.inj h).symm⟩)
  | take_over =>
    dsimp only at h
    cases hsq : s.sq with
    | nil =>
      rw [hsq] at h
      cases h
    | cons e sq =>
      rw [hsq] at h
      exact .inr (.inr (.inl ⟨e, sq, rfl, rfl, (Option.some.inj h).symm⟩))
  | answer i res =>
    dsimp only at h
    cases hi : s.running[i]? with
    | none =>
      rw [hi] at h
      cases h
    | some e =>
      rw [hi] at h
      dsimp only at h
      split at h
      next hres => exact .inr (.inr (.inr (.inl ⟨i, res, e, rfl, hi, hres, (Option.some.inj h).symm⟩)))
      · cases h
  | drain fresh =>
    dsimp only at h
    split at h
    next hfresh =>
      cases hcq : s.cq with
      | nil =>
        rw [hcq] at h
        cases h
      | cons c cq =>
        rw [hcq] at h
        exact .inr (.inr (.inr (.inr ⟨fresh, c, cq, rfl, hfresh, rfl, (Option.some.inj h).symm⟩)))
    · cases h

theorem Books.step (h : Books files s []) {a : Action} (hstep : s.step files a = some s') :
    Books files s' [] := by
  obtain ⟨req, device, fresh, -, hfresh, rfl⟩ | ⟨i, req, slot, -, hi, rfl⟩ | ⟨e, sq, -, hsq, rfl⟩ |
    ⟨i, res, e, -, hi, hres, rfl⟩ | ⟨fresh, c, cq, -, hfresh, hcq, rfl⟩ := step_cases hstep
  · exact h.submit_begin req device hfresh
  · exact h.submit_end hi
  · exact h.take_over hsq
  · obtain ⟨hpicked, hqueued⟩ := h.pick hi
    exact hpicked.answer hqueued hres
  · obtain ⟨hpopped, hanswered⟩ := h.pop hcq
    exact hpopped.drain_one rfl hanswered hfresh

end Queues

theorem books_init {n : Nat} (h : idle n s) : Books files s [] := by
  obtain ⟨hn, hfree, hinflight, hsq, hcq, hbf, hbs, hwaiting, hrunning, haccepted, hcompleted⟩ := h
  have hflying : s.flying = [] := by
    unfold flying
    rw [hsq, hrunning, hcq]
    rfl
  refine ⟨?_, fun e he => ?_, fun c hc => ?_⟩
  · rw [hflying]
    exact {
      records := by
        rw [hfree, hn, List.append_nil, List.append_nil]
      count := hinflight
      carries := fun i hi => by cases hi
      waits := fun w hw => by
        rw [hwaiting] at hw
        cases hw
      held := by
        unfold Backend.held
        rw [hwaiting, hbs]
        exact .refl _
      buffers := by
        rw [hbs, hbf]
        exact List.nodup_nil
      accepted := by
        rw [hcompleted, haccepted]
        exact .refl _
      settled := fun d hd => by
        rw [hcompleted] at hd
        cases hd }
  · rw [hsq, hrunning] at he
    cases he
  · rw [hcq] at hc
    cases hc

end Backend

theorem reachable_books {files : Nat → File} {n : Nat} {s : Backend}
    (h : LTS.Reachable (ring_system files n) s) : Backend.Books files s [] :=
  h.invariant (P := fun s => Backend.Books files s []) (fun _ hinit => Backend.books_init hinit)
    fun _ _ _ hbooks hstep => hbooks.step hstep

end IoUring

end CachedMoe.Storage
