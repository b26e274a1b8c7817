import CachedMoe.Storage.IoEngine

/-! # The io_uring backend

    `IoUringBackend` of `storage/linux/io_uring.cpp` as a system of steps, with the kernel's side
    of the ring. A step is `submit` up to its lock, `submit` under its lock, one entry of the
    completion queue in `drain`, or the kernel's: it takes a published entry over, and it answers
    one, in any order and with any result that a read may have.

    The rings are lists; the queues' heads, tails and masks are gone with them. Whether an address
    lies in a device mapping, and what the allocator returns, are the environment's. `poll` waits
    and calls `drain`. Clocks and statistics are left out. -/

namespace CachedMoe.Storage

open CachedMoe

namespace IoUring

def EFAULT : Int := 14

/-! ### Requests, records and buffers -/

/-- The bytes of the chunk that lie inside the file: they must arrive. -/
def want_of (req : ChunkRequest) : Nat := if req.min_bytes ≠ 0 then req.min_bytes else req.bytes

structure ChunkCompletion where
  chunk_id : Nat
  bytes_moved : Nat := 0
  status : Status := Status.success
  deriving Repr, DecidableEq

def ChunkCompletion.ok (c : ChunkCompletion) : Bool := c.status.code == .Ok

/-- The pending record of a chunk in flight. -/
structure Slot where
  chunk_id : Nat := 0
  fd : Nat := 0
  off : Nat := 0
  dst : Nat := 0
  bytes : Nat := 0
  want : Nat := 0
  moved : Nat := 0
  bounce : Option Nat := none
  deriving Repr, DecidableEq

structure Bounce where
  ptr : Nat
  bytes : Nat
  deriving Repr, DecidableEq

/-! ### The ring's entries -/

/-- Where a read goes: a caller's memory, or a bounce buffer. -/
inductive Addr where
  | memory (a : Nat)
  | bounce (p : Nat)
  deriving Repr, DecidableEq

structure Sqe where
  fd : Nat
  off : Nat
  addr : Addr
  len : Nat
  user_data : Nat
  deriving Repr, DecidableEq

structure Cqe where
  res : Int
  user_data : Nat
  deriving Repr, DecidableEq

def Slot.addr (slot : Slot) : Addr :=
  match slot.bounce with
  | some p => .bounce p
  | none => .memory slot.dst

/-- The entry that reads a record. -/
def Slot.sqe (slot : Slot) (idx : Nat) : Sqe :=
  { fd := slot.fd, off := slot.off, addr := slot.addr, len := slot.bytes, user_data := idx }

/-! ### What has been written -/

/-- Bytes written to a caller's memory. -/
structure Landing where
  dst : Nat
  bytes : Bytes
  deriving Repr, DecidableEq

/-- An accepted chunk, and what has been written for it so far. -/
structure Flight where
  req : ChunkRequest
  landings : List Landing := []

/-! ### State -/

/-- `waiting` are the calls of `submit` before their lock. -/
structure Backend where
  sq_entries : Nat
  slots : Nat → Slot := fun _ => {}
  /-- The next one to hand out first. -/
  free_slots : List Nat
  inflight : Nat := 0
  /-- Published entries that the kernel has not taken over. -/
  sq : List Sqe := []
  cq : List Cqe := []
  bounce_free : List Bounce := []
  bounce_size : List Bounce := []
  waiting : List (ChunkRequest × Slot) := []
  /-- What the kernel is reading. -/
  running : List Sqe := []
  /-- The contents of the bounce buffers. -/
  buffers : Nat → Bytes := fun _ => []
  /-- The chunk that a record stands for. -/
  flights : Nat → Flight
  accepted : List ChunkRequest := []
  completed : List (ChunkCompletion × Flight) := []

namespace Backend

/-! ### The bounce pool -/

/-- `fresh` is what `aligned_alloc` returns. -/
def take_bounce (s : Backend) (bytes : Nat) (fresh : Option Nat) : Option Nat × Backend :=
  let want := align_down (bytes + (2 ^ 20 - 1)) (2 ^ 20)
  match s.bounce_free.find? fun b => want ≤ b.bytes with
  | some b =>
    (some b.ptr, { s with
      bounce_size := s.bounce_size ++ [b]
      bounce_free := s.bounce_free.eraseP fun b => want ≤ b.bytes })
  | none =>
    match fresh with
    | none => (none, s)
    | some p => (some p, { s with bounce_size := s.bounce_size ++ [{ ptr := p, bytes := want }] })

def give_bounce (s : Backend) : Option Nat → Backend
  | none => s
  | some p =>
    match s.bounce_size.find? fun b => b.ptr = p with
    | none => s
    | some b => { s with
        bounce_free := s.bounce_free ++ [b]
        bounce_size := s.bounce_size.eraseP fun b => b.ptr = p }

/-! ### Submission -/

/-- Fails before it publishes, or not at all. -/
def submit_locked (s : Backend) (idx chunk_id : Nat) (slot : Slot) : Result Backend :=
  if s.sq_entries ≤ s.sq.length then fail .ResourceExhausted "SQ is full"
  else .ok { s with
    slots := Function.update s.slots idx { slot with chunk_id }
    sq := s.sq ++ [slot.sqe idx] }

def push_locked (s : Backend) (chunk_id : Nat) (slot : Slot) : Result Backend :=
  match s.free_slots with
  | [] => fail .ResourceExhausted "SQ is full"
  | idx :: rest => do
    let s ← s.submit_locked idx chunk_id slot
    pure { s with free_slots := rest }

/-- The record of a request. -/
def request_slot (req : ChunkRequest) : Slot :=
  { fd := req.file, off := req.file_off, dst := req.dst, bytes := req.bytes, want := want_of req }

/-- `submit` up to the lock; `device` is `maps_.is_device(req.dst)`. -/
def submit_begin (files : Nat → File) (s : Backend) (req : ChunkRequest) (device : Bool)
    (fresh : Option Nat) : Result Slot × Backend :=
  if ¬ (files req.file).is_open then (fail .InvalidArgument "chunk has no open file", s)
  else if device then
    match s.take_bounce req.bytes fresh with
    | (none, s) => (fail .ResourceExhausted "io_uring bounce buffer", s)
    | (some p, s) => (.ok { request_slot req with bounce := some p }, s)
  else (.ok (request_slot req), s)

/-- `submit` under the lock. -/
def submit_end (s : Backend) (req : ChunkRequest) (slot : Slot) : Result Unit × Backend :=
  if s.sq_entries ≤ s.inflight then
    (fail .ResourceExhausted "SQ is full", s.give_bounce slot.bounce)
  else
    match s.push_locked req.chunk_id slot with
    | .error e => (.error e, s.give_bounce slot.bounce)
    | .ok s' => (.ok (), { s' with
        inflight := s'.inflight + 1
        accepted := s'.accepted ++ [req]
        flights := Function.update s'.flights (s.free_slots.headD 0) { req } })

/-! ### Completion -/

def land (s : Backend) (idx : Nat) (w : Landing) : Backend :=
  let f := s.flights idx
  { s with flights := Function.update s.flights idx { f with landings := f.landings ++ [w] } }

/-- The copy out of a bounce buffer. -/
def copy_out (s : Backend) (idx : Nat) (slot : Slot) (got : Nat) : Backend :=
  match slot.bounce with
  | none => s
  | some p => s.land idx { dst := slot.dst, bytes := (s.buffers p).take got }

/-- A device mapping the classifier did not know about: the chunk is read again, through a bounce
    buffer. True where it is. -/
def read_bounced (s : Backend) (idx : Nat) (slot : Slot) (fresh : Option Nat) : Bool × Backend :=
  match s.take_bounce slot.bytes fresh with
  | (none, s) => (false, s)
  | (some p, s) =>
    match s.submit_locked idx slot.chunk_id { slot with bounce := some p } with
    | .ok s' => (true, s')
    | .error _ => (false, s.give_bounce (some p))

/-- The rest of a chunk after a short read. -/
def Slot.after (slot : Slot) (got : Nat) : Slot :=
  { slot with
    off := slot.off + got
    dst := slot.dst + got
    bytes := slot.bytes - got
    want := slot.want - got
    moved := slot.moved + got }

/-- The chunk is done: its buffer and its record are free again. -/
def finish (s : Backend) (idx : Nat) (slot : Slot) (c : ChunkCompletion) : Backend :=
  let s := s.give_bounce slot.bounce
  { s with
    slots := Function.update s.slots idx { slot with bounce := none }
    free_slots := idx :: s.free_slots
    completed := s.completed ++ [(c, s.flights idx)]
    inflight := s.inflight - 1 }

/-- A read that brought `got` bytes to the destination: a short one goes on where it stopped, as
    long as it made page-aligned progress. -/
def read_on (s : Backend) (idx : Nat) (slot : Slot) (got : Nat) : Backend :=
  if got ≠ 0 ∧ got < slot.want ∧ got % kPageSize = 0 then
    match s.submit_locked idx slot.chunk_id (Slot.after slot got) with
    | .ok s => s
    | .error _ => s.finish idx slot
        { chunk_id := slot.chunk_id
          bytes_moved := slot.moved + got
          status := { code := .Io, message := "io_uring: could not continue a short read" } }
  else s.finish idx slot
    { chunk_id := slot.chunk_id
      bytes_moved := slot.moved + got
      status :=
        if slot.want ≠ 0 ∧ got < slot.want then
          { code := .Io, message := s!"short read: {got} of {slot.want}" }
        else Status.success }

def drain_read (s : Backend) (idx : Nat) (slot : Slot) (got : Nat) : Backend :=
  (s.copy_out idx slot got).read_on idx slot got

/-- A read that failed. -/
def drain_error (s : Backend) (idx : Nat) (slot : Slot) (res : Int) : Backend :=
  s.finish idx slot
    { chunk_id := slot.chunk_id
      status := { code := .Io, message := "io_uring read failed", os_code := (-res).toNat } }

/-- The loop body of `drain`, for the entry that it took off the queue. -/
def drain_one (s : Backend) (cqe : Cqe) (fresh : Option Nat) : Backend :=
  let idx := cqe.user_data
  let slot := s.slots idx
  if cqe.res = -EFAULT ∧ slot.bounce = none then
    match s.read_bounced idx slot fresh with
    | (true, s) => s
    | (false, s) => s.drain_error idx slot cqe.res
  else if cqe.res < 0 then s.drain_error idx slot cqe.res
  else s.drain_read idx slot cqe.res.toNat

/-! ### The kernel -/

/-- `n` bytes of a file. -/
def read_bytes (files : Nat → File) (fd off n : Nat) : Bytes :=
  (List.range n).map fun i => (files fd).content (off + i)

/-- The bytes are in place before the answer is. -/
def answer (files : Nat → File) (s : Backend) (e : Sqe) (res : Int) : Backend :=
  let s := { s with cq := s.cq ++ [{ res, user_data := e.user_data }] }
  if res < 0 then s
  else
    match e.addr with
    | .memory a => s.land e.user_data { dst := a, bytes := read_bytes files e.fd e.off res.toNat }
    | .bounce p =>
      { s with buffers := Function.update s.buffers p (read_bytes files e.fd e.off res.toNat) }

/-! ### Steps -/

inductive Action where
  | submit_begin (req : ChunkRequest) (device : Bool) (fresh : Option Nat)
  | submit_end (i : Nat)
  | take_over
  | answer (i : Nat) (res : Int)
  | drain (fresh : Option Nat)

/-- The allocator returns no buffer that is still allocated. -/
def Unused (s : Backend) (fresh : Option Nat) : Prop :=
  ∀ p ∈ fresh, p ∉ (s.bounce_size ++ s.bounce_free).map Bounce.ptr

instance (s : Backend) (fresh : Option Nat) : Decidable (Unused s fresh) :=
  inferInstanceAs (Decidable (∀ p ∈ fresh, _))

def step (files : Nat → File) (s : Backend) : Action → Option Backend
  | .submit_begin req device fresh =>
    if s.Unused fresh then
      match s.submit_begin files req device fresh with
      | (.ok slot, s) => some { s with waiting := s.waiting ++ [(req, slot)] }
      | (.error _, s) => some s
    else none
  | .submit_end i =>
    match s.waiting[i]? with
    | none => none
    | some (req, slot) => some ({ s with waiting := s.waiting.eraseIdx i }.submit_end req slot).2
  | .take_over =>
    match s.sq with
    | [] => none
    | e :: sq => some { s with sq, running := s.running ++ [e] }
  | .answer i res =>
    match s.running[i]? with
    | none => none
    | some e =>
      if res ≤ e.len then some ({ s with running := s.running.eraseIdx i }.answer files e res)
      else none
  | .drain fresh =>
    if s.Unused fresh then
      match s.cq with
      | [] => none
      | cqe :: cq => some ({ s with cq }.drain_one cqe fresh)
    else none

/-- A ring as `init` leaves it. -/
def idle (n : Nat) (s : Backend) : Prop :=
  s.sq_entries = n ∧ s.free_slots = List.range n ∧ s.inflight = 0 ∧ s.sq = [] ∧ s.cq = [] ∧
    s.bounce_free = [] ∧ s.bounce_size = [] ∧ s.waiting = [] ∧ s.running = [] ∧
    s.accepted = [] ∧ s.completed = []

end Backend

def ring_system (files : Nat → File) (n : Nat) : LTS.System Backend Backend.Action :=
  LTS.System.ofNext (Backend.idle n) (Backend.step files)

end IoUring

end CachedMoe.Storage
