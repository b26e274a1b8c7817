import CachedMoe.Runtime.KvDiskWriter

/-! # Named sessions

    `SessionPool` of `runtime/session.cpp`: several conversations over one engine. One is live
    in the engine, others are parked in memory, and with a disk directory every parked context
    is also written behind the pool's back. A call of the pool that waits for the writer is in
    a phase of its own; the writer's thread steps between any two steps of the pool. -/

namespace CachedMoe.Runtime

open CachedMoe

/-! ### State -/

/-- Where a call of the pool stands. -/
inductive PoolPhase where
  | idle
  /-- `activate`, in `enqueue` of the context it has parked. -/
  | parking (name : Bytes) (exact_boundary : Bool)
  /-- `activate`, where it looks for the target. -/
  | finding (name : Bytes) (exact_boundary : Bool)
  /-- `activate`, in `flush`. -/
  | flushing (name : Bytes)
  /-- `activate`, where it restores the target. -/
  | restoring (name : Bytes)
  /-- `activate` after a refused restore, in `discard`. -/
  | cold (name : Bytes)
  /-- At the loop of `enforce_budget`. -/
  | budget
  /-- `enforce_budget`, in `save`: before and after the snapshot is queued. -/
  | saving (victim : Bytes) (ticket : Option Nat)
  /-- `park_active`, in `save`. -/
  | park_saving (ticket : Option Nat)
  /-- `checkpoint_active`, in `enqueue`. -/
  | checkpointing (snapshot : ParkedContext)
  /-- `flush_disk`. -/
  | flushing_disk
  /-- `restore_active_from_disk`, in `flush`. -/
  | reviving
  /-- `drop`, in `discard`. -/
  | dropping (name : Bytes)
  deriving Repr, DecidableEq

def default_name : Bytes := chars ['d', 'e', 'f', 'a', 'u', 'l', 't']

structure SessionPool where
  disk_opt : KvDiskOptions := {}
  max_parked : Nat := 8
  max_parked_bytes : Nat := 4294967296
  /-- The engine's history. -/
  context : List UInt32 := []
  active : Bytes := default_name
  parked : Table Bytes ParkedContext := []
  lru : List Bytes := []
  evicted : Nat := 0
  writer : KvDiskWriter := {}
  disk : KvDir := []
  phase : PoolPhase := .idle
  /-- What the last call returned. -/
  outcome : Result Unit := .ok ()

namespace SessionPool

def has_disk (s : SessionPool) : Bool := s.disk_opt.dir != []

/-! ### Calls -/

/-- `restore_context`: `ok` is whether the engine takes what is unpacked and replayed. -/
def restore_context (p : ParkedContext) (ok : Bool) : Option (List UInt32) :=
  if p.kv.positions ≠ p.tokens.length then none
  else if p.tokens = [] then some []
  else if ok then some p.tokens
  else none

/-- `lru_.remove(name); lru_.push_front(name);` -/
def push_front (lru : List Bytes) (name : Bytes) : List Bytes := name :: lru.filter (· != name)

/-- The live context is parked under the active name. -/
def park (s : SessionPool) (kv : KvPacked) : SessionPool :=
  { s with
    parked := s.parked.put s.active { tokens := s.context, kv }
    lru := push_front s.lru s.active }

def activate (s : SessionPool) (name : Bytes) (exact_boundary : Bool) (pack : Result KvPacked) :
    SessionPool :=
  if name = s.active then { s with outcome := .ok () }
  else if s.context = [] then { s with phase := .finding name exact_boundary }
  else
    match pack with
    | .error e => { s with outcome := .error e }
    | .ok kv =>
      { s.park kv with
        phase := if s.has_disk then .parking name exact_boundary else .finding name exact_boundary }

def park_active (s : SessionPool) (pack : Result KvPacked) : SessionPool :=
  if s.context = [] then { s with outcome := .ok () }
  else
    match pack with
    | .error e => { s with outcome := .error e }
    | .ok kv =>
      if s.has_disk then { s.park kv with phase := .park_saving none }
      else { s.park kv with outcome := .ok () }

def checkpoint_active (s : SessionPool) (pack : Result KvPacked) : SessionPool :=
  if ¬ s.has_disk ∨ s.context = [] then { s with outcome := .ok () }
  else
    match pack with
    | .error e => { s with outcome := .error e }
    | .ok kv => { s with phase := .checkpointing { tokens := s.context, kv } }

def restore_active_from_disk (s : SessionPool) : SessionPool :=
  if ¬ s.has_disk then { s with outcome := fail .InvalidArgument "kv disk dir is empty" }
  else if s.context ≠ [] then { s with outcome := .ok () }
  else { s with phase := .reviving }

def drop (s : SessionPool) (name : Bytes) : SessionPool :=
  { s with
    writer := if s.has_disk then s.writer.discard name else s.writer
    phase := .dropping name }

/-! ### What follows a wait -/

/-- `enqueue`, or `save` when `wants` is set; it waits for room. -/
def queue (s : SessionPool) (name : Bytes) (snapshot : ParkedContext) (wants : Bool) :
    Option SessionPool :=
  if s.writer.has_space name snapshot.bytes then
    some { s with writer := s.writer.insert { name, snapshot, wants } }
  else none

def find (s : SessionPool) (name : Bytes) (exact_boundary : Bool) : SessionPool :=
  let s :=
    if exact_boundary then
      { s with parked := s.parked.erase name, lru := s.lru.filter (· != name) }
    else s
  if s.parked.find name = none ∧ ¬ exact_boundary ∧ s.has_disk then
    { s with phase := .flushing name }
  else { s with phase := .restoring name }

/-- The disk copy joins the parked ones, if it can be loaded. -/
def load (s : SessionPool) (name : Bytes) : SessionPool :=
  match load_parked_context s.disk_opt name s.disk with
  | .ok p =>
    { s with
      parked := s.parked.put name p
      lru := push_front s.lru name
      phase := .restoring name }
  | .error _ => { s with phase := .restoring name }

def drop_file (s : SessionPool) (name : Bytes) : SessionPool :=
  { s with disk := (drop_parked_context s.disk_opt name s.disk).2 }

def restore (s : SessionPool) (name : Bytes) (ok : Bool) : SessionPool :=
  match s.parked.find name with
  | none => { s with context := [], active := name, phase := .budget }
  | some p =>
    let s := { s with parked := s.parked.erase name, lru := s.lru.filter (· != name) }
    match restore_context p ok with
    | some context => { s with context, active := name, phase := .budget }
    | none =>
      -- a refused restore starts cold, and its disk copy goes
      if s.has_disk then
        { s with context := [], writer := s.writer.discard name, phase := .cold name }
      else { s.drop_file name with context := [], active := name, phase := .budget }

/-- One turn of the loop of `enforce_budget`. -/
def enforce_budget (s : SessionPool) : SessionPool :=
  let total := (s.parked.map fun e => e.2.bytes).sum
  match s.lru.getLast? with
  | none => { s with phase := .idle, outcome := .ok () }
  | some victim =>
    if s.parked.length > s.max_parked ∨ total > s.max_parked_bytes then
      if s.has_disk then { s with phase := .saving victim none }
      else
        { s with
          lru := s.lru.dropLast
          parked := s.parked.erase victim
          evicted := s.evicted + 1 }
    else { s with phase := .idle, outcome := .ok () }

/-- `save` has returned to `enforce_budget`. -/
def saved (s : SessionPool) (victim : Bytes) : Result Unit → SessionPool
  | .ok _ =>
    { s with
      lru := s.lru.dropLast
      parked := s.parked.erase victim
      evicted := s.evicted + 1
      phase := .budget }
  | .error e => { s with phase := .idle, outcome := .error e }

/-- `restore_active_from_disk` after `flush`. -/
def revive (s : SessionPool) (ok : Bool) : SessionPool :=
  match load_parked_context s.disk_opt s.active s.disk with
  | .error e =>
    if e.code = .NotFound then { s with phase := .idle, outcome := .error e }
    else { s.drop_file s.active with context := [], phase := .idle, outcome := .ok () }
  | .ok p =>
    match restore_context p ok with
    | some context => { s with context, phase := .idle, outcome := .ok () }
    | none => { s.drop_file s.active with context := [], phase := .idle, outcome := .ok () }

/-- `drop` after `discard`. -/
def dropped (s : SessionPool) (name : Bytes) : SessionPool :=
  if name = s.active then { s.drop_file name with context := [], phase := .idle }
  else
    let erased := (s.parked.find name).isSome
    let s := { s with lru := s.lru.filter (· != name), parked := s.parked.erase name, phase := .idle }
    if erased then s.drop_file name else s

/-- The call under way goes on, if what it waits for has come. -/
def resume (s : SessionPool) (ok : Bool) : Option SessionPool :=
  match s.phase with
  | .idle => none
  | .parking name exact_boundary =>
    (s.parked.find s.active).bind fun p =>
      (s.queue s.active p false).map fun s => { s with phase := .finding name exact_boundary }
  | .finding name exact_boundary => some (s.find name exact_boundary)
  | .flushing name => if s.writer.flushed then some (s.load name) else none
  | .restoring name => some (s.restore name ok)
  | .cold name =>
    if s.writer.can_return name then
      some { s.drop_file name with active := name, phase := .budget }
    else none
  | .budget => some s.enforce_budget
  | .saving victim none =>
    (s.parked.find victim).bind fun p =>
      (s.queue victim p true).map fun s' =>
        { s' with phase := .saving victim (some (s.writer.stats.queued + 1)) }
  | .saving victim (some ticket) => (s.writer.done ticket).map (s.saved victim)
  | .park_saving none =>
    (s.parked.find s.active).bind fun p =>
      (s.queue s.active p true).map fun s' =>
        { s' with phase := .park_saving (some (s.writer.stats.queued + 1)) }
  | .park_saving (some ticket) =>
    (s.writer.done ticket).map fun outcome => { s with phase := .idle, outcome }
  | .checkpointing snapshot =>
    (s.queue s.active snapshot false).map fun s => { s with phase := .idle, outcome := .ok () }
  | .flushing_disk => if s.writer.flushed then some { s with phase := .idle } else none
  | .reviving => if s.writer.flushed then some (s.revive ok) else none
  | .dropping name =>
    if ¬ s.has_disk ∨ s.writer.can_return name then some (s.dropped name) else none

/-- The writer's thread has saved, or failed to save, the snapshot it took. -/
def written (s : SessionPool) (now : Nat) (fault : Option SaveFault) : Option SessionPool :=
  let (r, disk) :=
    save_parked_context s.writer.snapshot s.disk_opt s.writer.writing now fault s.disk
  (s.writer.finish r).map fun writer => { s with writer, disk }

inductive Action where
  /-- A turn of the live session leaves the engine with another history. -/
  | generate (context : List UInt32)
  | reset_live
  | activate (name : Bytes) (exact_boundary : Bool) (pack : Result KvPacked)
  | park_active (pack : Result KvPacked)
  | checkpoint_active (pack : Result KvPacked)
  | flush_disk
  | restore_active_from_disk
  | drop (name : Bytes)
  | resume (ok : Bool)
  | take
  | written (now : Nat) (fault : Option SaveFault)

/-- A call starts when no other one is under way. -/
def call (s : SessionPool) (s' : SessionPool) : Option SessionPool :=
  if s.phase = .idle then some s' else none

def step (s : SessionPool) : Action → Option SessionPool
  | .generate context => s.call { s with context }
  | .reset_live => s.call { s with context := [] }
  | .activate name exact_boundary pack => s.call (s.activate name exact_boundary pack)
  | .park_active pack => s.call (s.park_active pack)
  | .checkpoint_active pack => s.call (s.checkpoint_active pack)
  | .flush_disk => s.call (if s.has_disk then { s with phase := .flushing_disk } else s)
  | .restore_active_from_disk => s.call s.restore_active_from_disk
  | .drop name => s.call (s.drop name)
  | .resume ok => s.resume ok
  | .take => s.writer.take.map fun writer => { s with writer }
  | .written now fault => s.written now fault

end SessionPool

open SessionPool

/-- A new pool over an empty engine, with whatever an earlier process left in the directory. -/
def pool_system : LTS.System SessionPool SessionPool.Action :=
  .ofNext
    (fun s => ∃ disk_opt max_parked max_parked_bytes disk,
      s = { disk_opt, max_parked, max_parked_bytes, disk })
    SessionPool.step

/-! ### What a step can do -/

/-- A phase that a session is not cold in, and that saves a victim only for the budget. -/
structure Calm (s : SessionPool) (phase : PoolPhase) : Prop where
  warm : ∀ name, phase ≠ .cold name
  saves : ∀ v t, phase = .saving v t → s.phase = .budget ∨ s.phase = .saving v none

inductive Stepped (s : SessionPool) : Action → SessionPool → Prop where
  | used {a : Action} (context : List UInt32) (idle : s.phase = .idle) :
      Stepped s a { s with context }
  /-- A call starts, waits again, or returns. -/
  | went_on {a : Action} (phase : PoolPhase) (outcome : Result Unit) (calm : Calm s phase) :
      Stepped s a { s with phase, outcome }
  | parked {a : Action} (kv : KvPacked) (phase : PoolPhase) (outcome : Result Unit)
      (calm : Calm s phase) (context : s.context ≠ [])
      (saves : (∃ pack, a = .park_active pack) ∨
        ∃ target b pack, a = .activate target b pack ∧ target ≠ s.active) :
      Stepped s a { s.park kv with phase, outcome }
  | dropping (name : Bytes) : Stepped s (.drop name) (s.drop name)
  | queued (ok : Bool) (c : Caller) (phase : PoolPhase) (outcome : Result Unit)
      (space : s.writer.has_space c.name c.snapshot.bytes = true) (calm : Calm s phase) :
      Stepped s (.resume ok) { s with writer := s.writer.insert c, phase, outcome }
  | unparked (ok : Bool) (name : Bytes) :
      Stepped s (.resume ok) { s with
        parked := s.parked.erase name
        lru := s.lru.filter (· != name)
        phase := .restoring name }
  | loaded (ok : Bool) (name : Bytes) (p : ParkedContext)
      (load : load_parked_context s.disk_opt name s.disk = .ok p) :
      Stepped s (.resume ok) { s with
        parked := s.parked.put name p
        lru := push_front s.lru name
        phase := .restoring name }
  | started (ok : Bool) (name : Bytes) :
      Stepped s (.resume ok) { s with context := [], active := name, phase := .budget }
  | restored (ok : Bool) (name : Bytes) (p : ParkedContext) (context : List UInt32)
      (find : s.parked.find name = some p) :
      Stepped s (.resume ok) { s with
        parked := s.parked.erase name
        lru := s.lru.filter (· != name)
        context
        active := name
        phase := .budget }
  | refused (ok : Bool) (name : Bytes) :
      Stepped s (.resume ok) { s with
        parked := s.parked.erase name
        lru := s.lru.filter (· != name)
        context := []
        writer := s.writer.discard name
        phase := .cold name }
  | refused_bare (ok : Bool) (name : Bytes) :
      Stepped s (.resume ok) { s.drop_file name with
        parked := s.parked.erase name
        lru := s.lru.filter (· != name)
        context := []
        active := name
        phase := .budget }
  | went_cold (ok : Bool) (name : Bytes) (phase : s.phase = .cold name) :
      Stepped s (.resume ok) { s.drop_file name with active := name, phase := .budget }
  | evicted (ok : Bool) (victim : Bytes)
      (last : s.lru.getLast? = some victim ∨ ∃ t, s.phase = .saving victim t) :
      Stepped s (.resume ok) { s with
        lru := s.lru.dropLast
        parked := s.parked.erase victim
        evicted := s.evicted + 1
        phase := .budget }
  | revived (ok : Bool) (context : List UInt32) :
      Stepped s (.resume ok) { s with context, phase := .idle, outcome := .ok () }
  | lost (ok : Bool) (outcome : Result Unit) :
      Stepped s (.resume ok) { s.drop_file s.active with context := [], phase := .idle, outcome }
  | dropped (ok : Bool) (name : Bytes) (disk : KvDir)
      (file : disk = s.disk ∨ disk = (s.drop_file name).disk) :
      Stepped s (.resume ok) { s with
        lru := s.lru.filter (· != name)
        parked := s.parked.erase name
        phase := .idle
        disk }
  | taken (writer : KvDiskWriter) (take : s.writer.take = some writer) :
      Stepped s .take { s with writer }
  | written {s' : SessionPool} (now : Nat) (fault : Option SaveFault)
      (write : s.written now fault = some s') : Stepped s (.written now fault) s'

section Steps

variable {s s' : SessionPool}

/-- A call that starts where none is under way. -/
theorem call_some {s₁ : SessionPool} (h : s.call s₁ = some s') : s' = s₁ ∧ s.phase = .idle := by
  unfold SessionPool.call at h
  split at h
  next hidle => exact ⟨(Option.some.inj h).symm, hidle⟩
  · cases h

theorem queue_some {name : Bytes} {snapshot : ParkedContext} {wants : Bool}
    (h : s.queue name snapshot wants = some s') :
    s.writer.has_space name snapshot.bytes = true ∧
      s' = { s with writer := s.writer.insert { name, snapshot, wants } } := by
  unfold SessionPool.queue at h
  split at h
  next hspace => exact ⟨hspace, (Option.some.inj h).symm⟩
  · cases h

/-- A call that waited goes on. -/
theorem resume_stepped {ok : Bool} (h : s.resume ok = some s') : Stepped s (.resume ok) s' := by
  unfold SessionPool.resume at h
  -- by the call that waits
  cases hphase : s.phase with
  | idle =>
    rw [hphase] at h
    cases h
  | parking name exact_boundary =>
    simp only [hphase] at h
    obtain ⟨p, _, hrest⟩ := Option.bind_eq_some_iff.mp h
    obtain ⟨s₁, hqueue, rfl⟩ := Option.map_eq_some_iff.mp hrest
    obtain ⟨hspace, rfl⟩ := queue_some hqueue
    exact .queued ok _ _ s.outcome hspace ⟨by simp, by simp⟩
  | finding name exact_boundary =>
    simp only [hphase, Option.some.injEq] at h
    subst h
    unfold SessionPool.find
    cases exact_boundary with
    | true => simpa using Stepped.unparked ok name
    | false =>
      simp only [Bool.false_eq_true, if_false]
      split
      · exact .went_on _ s.outcome ⟨by simp, by simp⟩
      · exact .went_on _ s.outcome ⟨by simp, by simp⟩
  | flushing name =>
    simp only [hphase] at h
    split at h
    · cases h
      unfold SessionPool.load
      split
      next p hload => exact .loaded ok name p hload
      · exact .went_on _ s.outcome ⟨by simp, by simp⟩
    · cases h
  | restoring name =>
    simp only [hphase, Option.some.injEq] at h
    subst h
    unfold SessionPool.restore
    split
    · exact .started ok name
    next p hp =>
    dsimp only
    split
    next context _ => exact .restored ok name p context hp
    split
    · exact .refused ok name
    · exact .refused_bare ok name
  | cold name =>
    simp only [hphase] at h
    split at h
    · cases h
      exact .went_cold ok name hphase
    · cases h
  | budget =>
    simp only [hphase, Option.some.injEq] at h
    subst h
    unfold SessionPool.enforce_budget
    dsimp only
    split
    · exact .went_on _ _ ⟨by simp, by simp⟩
    next victim hlast =>
    split
    · split
      · exact .went_on _ s.outcome ⟨by simp, fun _ _ _ => .inl hphase⟩
      · rw [hphase]
        exact .evicted ok victim (.inl hlast)
    · exact .went_on _ _ ⟨by simp, by simp⟩
  | saving victim ticket =>
    cases ticket with
    | none =>
      simp only [hphase] at h
      obtain ⟨p, _, hrest⟩ := Option.bind_eq_some_iff.mp h
      obtain ⟨s₁, hqueue, rfl⟩ := Option.map_eq_some_iff.mp hrest
      obtain ⟨hspace, rfl⟩ := queue_some hqueue
      refine .queued ok _ _ s.outcome hspace ⟨by simp, ?_⟩
      rintro v t ⟨⟩
      exact .inr hphase
    | some ticket =>
      simp only [hphase] at h
      obtain ⟨r, _, rfl⟩ := Option.map_eq_some_iff.mp h
      cases r with
      | ok _ => exact .evicted ok victim (.inr ⟨_, hphase⟩)
      | error e => exact .went_on _ _ ⟨by simp, by simp⟩
  | park_saving ticket =>
    cases ticket with
    | none =>
      simp only [hphase] at h
      obtain ⟨p, _, hrest⟩ := Option.bind_eq_some_iff.mp h
      obtain ⟨s₁, hqueue, rfl⟩ := Option.map_eq_some_iff.mp hrest
      obtain ⟨hspace, rfl⟩ := queue_some hqueue
      exact .queued ok _ _ s.outcome hspace ⟨by simp, by simp⟩
    | some ticket =>
      simp only [hphase] at h
      obtain ⟨r, _, rfl⟩ := Option.map_eq_some_iff.mp h
      exact .went_on _ _ ⟨by simp, by simp⟩
  | checkpointing snapshot =>
    simp only [hphase] at h
    obtain ⟨s₁, hqueue, rfl⟩ := Option.map_eq_some_iff.mp h
    obtain ⟨hspace, rfl⟩ := queue_some hqueue
    exact .queued ok _ _ _ hspace ⟨by simp, by simp⟩
  | flushing_disk =>
    simp only [hphase] at h
    split at h
    · cases h
      exact .went_on _ s.outcome ⟨by simp, by simp⟩
    · cases h
  | reviving =>
    simp only [hphase] at h
    split at h
    · cases h
      unfold SessionPool.revive
      split
      · split
        · exact .went_on _ _ ⟨by simp, by simp⟩
        · exact .lost ok _
      · split
        next context _ => exact .revived ok context
        · exact .lost ok _
    · cases h
  | dropping name =>
    simp only [hphase] at h
    split at h
    · cases h
      unfold SessionPool.dropped
      split
      next hactive =>
        rw [hactive]
        exact .lost ok s.outcome
      · dsimp only
        split
        · exact .dropped ok name _ (.inr rfl)
        · exact .dropped ok name _ (.inl rfl)
    · cases h

/-- Every step of the pool is one of the cases. -/
theorem stepped {a : Action} (h : s.step a = some s') : Stepped s a s' := by
  have hidle : s.phase = .idle → Calm s s.phase := by
    intro h
    rw [h]
    exact ⟨by simp, by simp⟩
  -- a call from outside finds the pool idle
  cases a with
  | generate context =>
    obtain ⟨rfl, hphase⟩ := call_some h
    exact .used context hphase
  | reset_live =>
    obtain ⟨rfl, hphase⟩ := call_some h
    exact .used [] hphase
  | activate target exact_boundary pack =>
    obtain ⟨rfl, hphase⟩ := call_some h
    unfold SessionPool.activate
    split
    · exact .went_on s.phase _ (hidle hphase)
    next htarget =>
    split
    · exact .went_on _ s.outcome ⟨by simp, by simp⟩
    next hcontext =>
    cases pack with
    | error e => exact .went_on s.phase _ (hidle hphase)
    | ok kv =>
      refine .parked kv _ s.outcome ?_ hcontext ?_
      · split
        · exact ⟨by simp, by simp⟩
        · exact ⟨by simp, by simp⟩
      · exact .inr ⟨target, exact_boundary, _, rfl, htarget⟩
  | park_active pack =>
    obtain ⟨rfl, hphase⟩ := call_some h
    unfold SessionPool.park_active
    split
    · exact .went_on s.phase _ (hidle hphase)
    next hcontext =>
    cases pack with
    | error e => exact .went_on s.phase _ (hidle hphase)
    | ok kv =>
      dsimp only
      split
      · exact .parked kv _ s.outcome ⟨by simp, by simp⟩ hcontext (.inl ⟨_, rfl⟩)
      · exact .parked kv s.phase _ (hidle hphase) hcontext (.inl ⟨_, rfl⟩)
  | checkpoint_active pack =>
    obtain ⟨rfl, hphase⟩ := call_some h
    unfold SessionPool.checkpoint_active
    split
    · exact .went_on s.phase _ (hidle hphase)
    cases pack with
    | error e => exact .went_on s.phase _ (hidle hphase)
    | ok kv => exact .went_on _ s.outcome ⟨by simp, by simp⟩
  | flush_disk =>
    obtain ⟨rfl, hphase⟩ := call_some h
    split
    · exact .went_on _ s.outcome ⟨by simp, by simp⟩
    · exact .went_on s.phase s.outcome (hidle hphase)
  | restore_active_from_disk =>
    obtain ⟨rfl, hphase⟩ := call_some h
    unfold SessionPool.restore_active_from_disk
    split
    · exact .went_on s.phase _ (hidle hphase)
    split
    · exact .went_on s.phase _ (hidle hphase)
    · exact .went_on _ s.outcome ⟨by simp, by simp⟩
  | drop name =>
    obtain ⟨rfl, _⟩ := call_some h
    exact .dropping name
  | resume ok => exact resume_stepped h
  | take =>
    obtain ⟨writer, htake, rfl⟩ := Option.map_eq_some_iff.mp h
    exact .taken writer htake
  | written now fault => exact .written now fault h

end Steps

/-! ### Dropped sessions -/

namespace SessionPool

/-- A save under the name: the live context is parked or queued under it, or a snapshot that
    `file` holds of is written. -/
def Saves (file : Bytes → Bool) (name : Bytes) (s : SessionPool) : Action → Prop
  | .activate target _ _ => s.active = name ∧ target ≠ name ∧ s.context ≠ []
  | .park_active _ | .checkpoint_active _ => s.active = name ∧ s.context ≠ []
  | .written _ _ => file s.writer.writing = true
  | _ => False

instance (file : Bytes → Bool) (name : Bytes) (s : SessionPool) : DecidablePred (Saves file name s)
  | .activate _ _ _ => inferInstanceAs (Decidable (_ ∧ _ ∧ _))
  | .park_active _ | .checkpoint_active _ => inferInstanceAs (Decidable (_ ∧ _))
  | .written _ _ => inferInstanceAs (Decidable (_ = _))
  | .generate _ | .reset_live | .flush_disk | .restore_active_from_disk | .drop _ | .resume _
  | .take => inferInstanceAs (Decidable False)

/-- The snapshots of a name, and those of all names that have its file. -/
def own (name : Bytes) : Bytes → Bool := fun name' => name' = name
def own_file (name : Bytes) : Bytes → Bool := fun name' =>
  session_file_name name' = session_file_name name

/-- The pool without the saves under a name. -/
def quiet_system (file : Bytes → Bool) (name : Bytes) : LTS.System SessionPool Action :=
  pool_system.restrict fun s a => ¬ Saves file name s a

/-- Where `drop` finds all there is of a session: a live one has no parked copy, another one
    is parked or has no file. -/
def DropClears (s : SessionPool) (name : Bytes) : Prop :=
  if s.active = name then s.parked.find name = none
  else s.parked.find name ≠ none ∨ ¬ s.has_disk ∨ s.disk.find (session_file_name name) = none

instance (s : SessionPool) (name : Bytes) : Decidable (s.DropClears name) :=
  inferInstanceAs (Decidable (if s.active = name then s.parked.find name = none
    else s.parked.find name ≠ none ∨ ¬ s.has_disk ∨ s.disk.find (session_file_name name) = none))

/-- After a `drop` a live session's context is empty; and whenever the session is made live
    again, with no save under its name in between, it starts from an empty context. -/
def StaysGone (file : Bytes → Bool) (s : SessionPool) (name : Bytes) : Prop :=
  ∀ ok s₁, pool_system.step s (.resume ok) s₁ →
    (s₁.active = name → s₁.context = []) ∧
    ∀ as s₂ a s₃, LTS.Run (quiet_system file name) s₁ as s₂ → pool_system.step s₂ a s₃ →
      s₂.active ≠ name → s₃.active = name → s₃.context = []

end SessionPool

/-- Nothing is left of a session, in memory or on disk. -/
structure Gone (name : Bytes) (s : SessionPool) : Prop where
  parked : s.parked.find name = none
  file : s.has_disk = true → s.disk.find (session_file_name name) = none
  cold : ∀ target, s.phase = .cold target → s.context = []

section Drop

variable {s s' : SessionPool} {name : Bytes}

theorem find_drop_file (s : SessionPool) (target name : Bytes) (h : s.has_disk = true) :
    (s.drop_file target).disk.find (session_file_name name) =
      if session_file_name name = session_file_name target then none
      else s.disk.find (session_file_name name) := by
  have hdir : s.disk_opt.dir ≠ [] := by simpa [SessionPool.has_disk] using h
  simp only [SessionPool.drop_file, drop_parked_context, if_neg hdir, KvDir.find_remove]

theorem Gone.drop_file (h : Gone name s) (target : Bytes) (hdisk : s.has_disk = true) :
    (s.drop_file target).disk.find (session_file_name name) = none := by
  rw [find_drop_file _ _ _ hdisk]
  split
  · rfl
  · exact h.file hdisk

/-- After a `drop` that clears nothing is left. -/
theorem gone_dropped (hclears : s.DropClears name) : Gone name (s.dropped name) := by
  unfold SessionPool.DropClears at hclears
  unfold SessionPool.dropped
  split
  next hactive =>
    rw [if_pos hactive.symm] at hclears
    refine ⟨hclears, ?_, by rintro _ ⟨⟩⟩
    intro hdisk
    exact (find_drop_file s name name hdisk).trans (if_pos rfl)
  next hactive =>
    rw [if_neg (Ne.symm hactive)] at hclears
    dsimp only
    split
    · refine ⟨?_, ?_, by rintro _ ⟨⟩⟩
      · show (s.parked.erase name).find name = none
        rw [Table.find_erase, if_pos rfl]
      · intro hdisk
        exact (find_drop_file s name name hdisk).trans (if_pos rfl)
    next hnot =>
      have hnone : s.parked.find name = none := by simpa using hnot
      refine ⟨?_, ?_, by rintro _ ⟨⟩⟩
      · show (s.parked.erase name).find name = none
        rw [Table.find_erase, if_pos rfl]
      · intro hdisk
        rcases hclears with hparked | hno | hfile
        · exact absurd hnone hparked
        · exact absurd hdisk hno
        · exact hfile

/-! #### Steps -/

theorem Gone.parked_put (h : Gone name s) {target : Bytes} (hne : target ≠ name) (p : ParkedContext) :
    (s.parked.put target p).find name = none := by
  rw [Table.find_put, if_neg (Ne.symm hne)]
  exact h.parked

theorem Gone.parked_erase (h : Gone name s) (target : Bytes) :
    (s.parked.erase target).find name = none := by
  rw [Table.find_erase]
  split
  · rfl
  · exact h.parked

/-- A step that leaves what is parked, and the disk. -/
theorem Gone.of_same (h : Gone name s) (hparked : s'.parked = s.parked) (hdisk : s'.disk = s.disk)
    (hopt : s'.disk_opt = s.disk_opt) (hcold : ∀ target, s'.phase = .cold target → s'.context = []) :
    Gone name s' := by
  refine ⟨?_, ?_, hcold⟩
  · rw [hparked]
    exact h.parked
  · intro hhas
    rw [hdisk]
    refine h.file ?_
    unfold SessionPool.has_disk at hhas ⊢
    rw [← hopt]
    exact hhas

/-- The file of a session that is gone cannot be loaded. -/
theorem Gone.load_error (h : Gone name s) (p : ParkedContext) :
    load_parked_context s.disk_opt name s.disk ≠ .ok p := by
  intro hload
  unfold load_parked_context at hload
  split at hload
  · cases hload
  next hdir =>
    have hfile := h.file (by simpa [SessionPool.has_disk] using hdir)
    simp only [hfile] at hload
    cases hload

/-- A file that is not there is not written by a save to another file. -/
theorem find_saved {p : ParkedContext} {opt : KvDiskOptions} {target : Bytes} {now : Nat}
    {fault : Option SaveFault} {dir : KvDir} (hfile : dir.find (session_file_name name) = none)
    (hne : session_file_name target ≠ session_file_name name) :
    (save_parked_context p opt target now fault dir).2.find (session_file_name name) = none := by
  have hremove : ∀ (dir : KvDir) file, dir.find (session_file_name name) = none →
      (dir.remove file).find (session_file_name name) = none := by
    intro dir file h
    rw [KvDir.find_remove]
    split
    · rfl
    · exact h
  unfold save_parked_context
  split
  · exact hfile
  dsimp only
  split
  · exact hfile
  · exact hfile
  · exact hremove _ _ hfile
  · exact hremove _ _ (hremove _ _ hfile)
  · rcases find_enforce_disk_budget opt _ (session_file_name name) with hnone | hsame
    · exact hnone
    · rw [hsame, KvDir.find_put, if_neg (Ne.symm hne)]
      exact hremove _ _ hfile

theorem Gone.written (h : Gone name s) {now : Nat} {fault : Option SaveFault}
    (hne : session_file_name s.writer.writing ≠ session_file_name name)
    (hstep : s.written now fault = some s') : Gone name s' := by
  unfold SessionPool.written at hstep
  dsimp only at hstep
  obtain ⟨writer, _, rfl⟩ := Option.map_eq_some_iff.mp hstep
  exact ⟨h.parked, fun hdisk => find_saved (h.file hdisk) hne, h.cold⟩

/-- A step that saves nothing under the name, or to its file, leaves it gone. -/
theorem Gone.step (h : Gone name s) {a : Action} (hquiet : ¬ Saves (own_file name) name s a)
    (hstep : s.step a = some s') : Gone name s' := by
  cases stepped hstep with
  | used context hidle =>
    exact h.of_same rfl rfl rfl fun t ht => absurd (hidle.symm.trans ht) nofun
  | went_on phase outcome hcalm | queued ok c phase outcome _ hcalm =>
    exact h.of_same rfl rfl rfl fun t ht => absurd ht (hcalm.warm t)
  | parked kv phase outcome hcalm hcontext hsaves =>
    refine ⟨h.parked_put ?_ _, h.file, fun t ht => absurd ht (hcalm.warm t)⟩
    rintro rfl
    rcases hsaves with ⟨pack, rfl⟩ | ⟨target, b, pack, rfl, htarget⟩
    · exact hquiet ⟨rfl, hcontext⟩
    · exact hquiet ⟨rfl, htarget, hcontext⟩
  | dropping target | started ok target | revived ok context =>
    exact h.of_same rfl rfl rfl (by rintro _ ⟨⟩)
  | unparked ok target | restored ok target p context hp =>
    exact ⟨h.parked_erase target, h.file, by rintro _ ⟨⟩⟩
  | loaded ok target p hload =>
    refine ⟨h.parked_put ?_ p, h.file, by rintro _ ⟨⟩⟩
    rintro rfl
    exact h.load_error p hload
  | refused ok target => exact ⟨h.parked_erase target, h.file, fun _ _ => rfl⟩
  | refused_bare ok target =>
    exact ⟨h.parked_erase target, fun hdisk => h.drop_file target hdisk, by rintro _ ⟨⟩⟩
  | went_cold ok target hphase =>
    exact ⟨h.parked, fun hdisk => h.drop_file target hdisk, by rintro _ ⟨⟩⟩
  | evicted ok victim hlast => exact ⟨h.parked_erase victim, h.file, by rintro _ ⟨⟩⟩
  | lost ok outcome =>
    exact ⟨h.parked, fun hdisk => h.drop_file s.active hdisk, by rintro _ ⟨⟩⟩
  | dropped ok target disk hfile =>
    refine ⟨h.parked_erase target, fun hdisk => ?_, by rintro _ ⟨⟩⟩
    rcases hfile with rfl | rfl
    · exact h.file hdisk
    · exact h.drop_file target hdisk
  | taken writer htake => exact h.of_same rfl rfl rfl h.cold
  | written now fault hwrite =>
    refine h.written (fun heq => hquiet ?_) hwrite
    exact decide_eq_true heq

/-- A step that makes a session live that was gone leaves an empty context. -/
theorem Gone.activated (h : Gone name s) {a : Action} (hstep : s.step a = some s')
    (hbefore : s.active ≠ name) (hafter : s'.active = name) : s'.context = [] := by
  cases stepped hstep with
  | started ok target | refused_bare ok target => rfl
  | restored ok target p context hp =>
    have htarget : target = name := hafter
    rw [htarget, h.parked] at hp
    cases hp
  | went_cold ok target hphase => exact h.cold target hphase
  | written now fault hwrite =>
    obtain ⟨writer, _, rfl⟩ := Option.map_eq_some_iff.mp hwrite
    exact absurd hafter hbefore
  | _ => exact absurd hafter hbefore

/-- Where `drop` finds all there is of a session, it is gone until something is saved under
    its name or to its file. -/
theorem dropped_session_is_gone (hphase : s.phase = .dropping name) (hclears : s.DropClears name) :
    StaysGone (own_file name) s name := by
  intro ok s₁ hdrop
  have hs₁ : s₁ = s.dropped name := by
    have hstep : s.resume ok = some s₁ := hdrop
    simp only [SessionPool.resume, hphase] at hstep
    split at hstep
    · exact (Option.some.inj hstep).symm
    · cases hstep
  have hgone : Gone name s₁ := hs₁ ▸ gone_dropped hclears
  refine ⟨?_, ?_⟩
  · intro hactive
    rw [hs₁] at hactive ⊢
    unfold SessionPool.dropped at hactive ⊢
    split
    · rfl
    next hne =>
      exfalso
      rw [if_neg hne] at hactive
      dsimp only at hactive
      split at hactive
      · exact hne hactive.symm
      · exact hne hactive.symm
  · intro as s₂ a s₃ hrun hstep hbefore hafter
    have hgone' : Gone name s₂ := by
      refine hrun.invariant ?_ hgone
      intro s a s' hs hs'
      exact hs.step hs'.2 hs'.1
    exact hgone'.activated hstep hbefore hafter

end Drop

/-! #### Copies that `drop` leaves -/

/-- The context `[1]`, as the engine packs it. -/
def one_position : Result KvPacked := .ok { positions := 1 }

def other_name : Bytes := chars ['b']

/-- A pool with a disk directory that keeps no session in memory. -/
def disk_pool : SessionPool := { disk_opt := unit_options, max_parked := 0 }

theorem disk_pool_init : pool_system.init disk_pool := ⟨_, _, _, _, rfl⟩

def memory_pool : SessionPool := {}

theorem memory_pool_init : pool_system.init memory_pool := ⟨_, _, _, _, rfl⟩

def resumes (n : Nat) : List Action := List.replicate n (.resume true)

/-- The default session is parked, evicted to disk, and dropped. -/
def evicted_run : List Action :=
  [.generate [1], .activate other_name false one_position] ++ resumes 2 ++
    [.take, .written 1 none] ++ resumes 4 ++ [.take, .written 2 none] ++ resumes 2 ++
    [.drop default_name]

/-- It is made live again, up to where it is restored. -/
def evicted_return : List Action := .activate default_name false one_position :: resumes 2

/-- The default session is parked while it is live, and dropped. -/
def parked_run : List Action := [.generate [1], .park_active one_position, .drop default_name]

def parked_return : List Action :=
  .activate other_name false one_position :: resumes 3 ++
    .activate default_name false one_position :: resumes 1

/-- Two names of one file. -/
def spaced_name : Bytes := chars ['a', ' ', 'b']
def joined_name : Bytes := chars ['a', '_', 'b']

/-- The session of one name is saved, and that of the other made live. -/
def alias_return : List Action :=
  .activate joined_name false one_position :: resumes 4 ++
    [.generate [1], .activate spaced_name false one_position] ++ resumes 2 ++
    [.take, .written 1 none] ++ resumes 1

/-- Whether a session is back after a `drop` and the actions `as`. -/
def comes_back (name : Bytes) (as : List Action) (s : SessionPool) : Bool :=
  (s.resume true).any fun s₁ =>
    (LTS.execute (LTS.guarded SessionPool.step fun s a => ¬ Saves (own name) name s a) s₁ as).any
      fun s₂ =>
        (s₂.resume true).any fun s₃ =>
          decide (s₂.active ≠ name ∧ s₃.active = name ∧ s₃.context ≠ [])

theorem not_stays_gone {s : SessionPool} {name : Bytes} {as : List Action}
    (h : comes_back name as s = true) : ¬ StaysGone (own name) s name := by
  intro hgone
  unfold comes_back at h
  obtain ⟨s₁, hs₁, h⟩ := (Option.any_eq_true _ _).mp h
  obtain ⟨s₂, hs₂, h⟩ := (Option.any_eq_true _ _).mp h
  obtain ⟨s₃, hs₃, h⟩ := (Option.any_eq_true _ _).mp h
  obtain ⟨hbefore, hafter, hcontext⟩ := of_decide_eq_true h
  have hrun : LTS.Run (quiet_system (own name) name) s₁ as s₂ := by
    unfold SessionPool.quiet_system pool_system
    rw [LTS.restrict_ofNext, LTS.run_ofNext_iff]
    exact hs₂
  exact hcontext ((hgone true s₁ hs₁).2 as s₂ (.resume true) s₃ hrun hs₃ hbefore hafter)

/-- What comes back after it was dropped: a session that was evicted to disk, a live one with
    a parked copy, and one whose file another name has. -/
theorem dropped_sessions_come_back :
    (∃ s, LTS.Reachable pool_system s ∧ s.phase = .dropping default_name ∧
      s.active ≠ default_name ∧ ¬ StaysGone (own default_name) s default_name) ∧
    (∃ s, LTS.Reachable pool_system s ∧ s.phase = .dropping default_name ∧
      s.active = default_name ∧ ¬ StaysGone (own default_name) s default_name) ∧
    ∃ s, LTS.Reachable pool_system s ∧ s.phase = .dropping spaced_name ∧
      s.DropClears spaced_name ∧ ¬ StaysGone (own spaced_name) s spaced_name := by
  refine ⟨?_, ?_, ?_⟩
  · obtain ⟨s, hreach, hs⟩ := LTS.Reachable.of_execute SessionPool.step evicted_run
      (fun s => s.phase = .dropping default_name ∧ s.active ≠ default_name ∧
        comes_back default_name evicted_return s) disk_pool_init (by decide +kernel)
    simp only [Bool.decide_and, Bool.and_eq_true, decide_eq_true_eq] at hs
    exact ⟨s, hreach, hs.1, hs.2.1, not_stays_gone hs.2.2⟩
  · obtain ⟨s, hreach, hs⟩ := LTS.Reachable.of_execute SessionPool.step parked_run
      (fun s => s.phase = .dropping default_name ∧ s.active = default_name ∧
        comes_back default_name parked_return s) memory_pool_init (by decide +kernel)
    simp only [Bool.decide_and, Bool.and_eq_true, decide_eq_true_eq] at hs
    exact ⟨s, hreach, hs.1, hs.2.1, not_stays_gone hs.2.2⟩
  · obtain ⟨s, hreach, hs⟩ := LTS.Reachable.of_execute SessionPool.step [.drop spaced_name]
      (fun s => s.phase = .dropping spaced_name ∧ s.DropClears spaced_name ∧
        comes_back spaced_name alias_return s) disk_pool_init (by decide +kernel)
    simp only [Bool.decide_and, Bool.and_eq_true, decide_eq_true_eq] at hs
    exact ⟨s, hreach, hs.1, hs.2.1, not_stays_gone hs.2.2⟩

/-! #### Copies that `drop` takes -/

/-- The default session is parked in memory and on disk, and dropped. -/
def cleared_run : List Action :=
  [.generate [1], .activate other_name false one_position] ++ resumes 2 ++
    [.take, .written 1 none] ++ resumes 3 ++ [.drop default_name]

def roomy_pool : SessionPool := { disk_opt := unit_options }

theorem roomy_pool_init : pool_system.init roomy_pool := ⟨_, _, _, _, rfl⟩

theorem dropped_session_is_gone_parked :
    ∃ s, LTS.Reachable pool_system s ∧ s.parked.find default_name ≠ none ∧
      s.disk.find (session_file_name default_name) ≠ none ∧
      StaysGone (own_file default_name) s default_name := by
  obtain ⟨s, hreach, hs⟩ := LTS.Reachable.of_execute SessionPool.step cleared_run
    (fun s => s.phase = .dropping default_name ∧ s.DropClears default_name ∧
      s.parked.find default_name ≠ none ∧
      s.disk.find (session_file_name default_name) ≠ none) roomy_pool_init (by decide +kernel)
  simp only [Bool.decide_and, Bool.and_eq_true, decide_eq_true_eq] at hs
  exact ⟨s, hreach, hs.2.2.1, hs.2.2.2, dropped_session_is_gone hs.1 hs.2.1⟩

end CachedMoe.Runtime
