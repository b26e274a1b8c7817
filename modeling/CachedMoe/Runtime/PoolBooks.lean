import CachedMoe.Runtime.SessionPool

/-! # The books of the session pool

    `parked_` and `lru_` of a `SessionPool` are changed apart, in five operations. What a step
    does to them is one of four moves (`Moved`), each of which keeps them naming the same
    sessions, each once (`Books`). Inside `enforce_budget` there are five kinds of step
    (`Enforced`). -/

namespace CachedMoe.Runtime

open CachedMoe SessionPool

/-! ### What a step does to the books -/

/-- What a step does to `parked_` and `lru_`. -/
inductive Moved (s s' : SessionPool) : Prop where
  | kept (lru : s'.lru = s.lru) (parked : s'.parked = s.parked)
  | put (name : Bytes) (p : ParkedContext) (lru : s'.lru = push_front s.lru name)
      (parked : s'.parked = s.parked.put name p)
  | erased (name : Bytes) (lru : s'.lru = s.lru.filter (· != name))
      (parked : s'.parked = s.parked.erase name)
  | evicted (victim : Bytes) (last : s.lru.getLast? = some victim) (lru : s'.lru = s.lru.dropLast)
      (parked : s'.parked = s.parked.erase victim)

section Moves

variable {s s' : SessionPool}

theorem Moved.listed (h : Moved s s') (hs : Table.Listed s.lru s.parked) :
    Table.Listed s'.lru s'.parked := by
  cases h with
  | kept hlru hparked =>
    rw [hlru, hparked]
    exact hs
  | put name p hlru hparked =>
    rw [hlru, hparked]
    exact hs.put name p
  | erased name hlru hparked =>
    rw [hlru, hparked]
    exact hs.erase name
  | evicted victim hlast hlru hparked =>
    rw [hlru, hparked]
    exact hs.erase_last hlast

theorem moved_step {a : Action} (hvictim : ∀ v t, s.phase = .saving v t → s.lru.getLast? = some v)
    (hstep : s.step a = some s') : Moved s s' := by
  cases stepped hstep with
  | parked kv => exact .put s.active { tokens := s.context, kv } rfl rfl
  | loaded ok name p => exact .put name p rfl rfl
  | unparked ok name | restored ok name | refused ok name | refused_bare ok name
  | dropped ok name => exact .erased name rfl rfl
  | evicted ok victim hlast =>
    refine .evicted victim ?_ rfl rfl
    rcases hlast with hlast | ⟨t, hphase⟩
    · exact hlast
    · exact hvictim victim t hphase
  | written now fault hwrite =>
    obtain ⟨writer, _, rfl⟩ := Option.map_eq_some_iff.mp hwrite
    exact .kept rfl rfl
  | _ => exact .kept rfl rfl

end Moves

/-! ### Enforcement -/

/-- The calls inside `enforce_budget`. -/
def PoolPhase.enforcing : PoolPhase → Bool
  | .budget | .saving _ _ => true
  | _ => false

section Enforcing

variable {s s' : SessionPool}

/-- What happens while `enforce_budget` runs. -/
inductive Enforced (s s' : SessionPool) : Action → Prop where
  /-- A turn of the loop. -/
  | turn (ok : Bool) (phase : s.phase = .budget) (next : s' = s.enforce_budget) :
      Enforced s s' (.resume ok)
  /-- `save` queues the victim. -/
  | queued (ok : Bool) (victim : Bytes) (p : ParkedContext) (phase : s.phase = .saving victim none)
      (find : s.parked.find victim = some p) (space : s.writer.has_space victim p.bytes = true)
      (next : s' = { s with
        writer := s.writer.insert { name := victim, snapshot := p, wants := true }
        phase := .saving victim (some (s.writer.stats.queued + 1)) }) :
      Enforced s s' (.resume ok)
  /-- `save` returns. -/
  | told (ok : Bool) (victim : Bytes) (ticket : Nat) (r : Result Unit)
      (phase : s.phase = .saving victim (some ticket)) (done : s.writer.done ticket = some r)
      (next : s' = s.saved victim r) :
      Enforced s s' (.resume ok)
  | taken (writer : KvDiskWriter) (take : s.writer.take = some writer)
      (next : s' = { s with writer }) :
      Enforced s s' .take
  | written (now : Nat) (fault : Option SaveFault) (write : s.written now fault = some s') :
      Enforced s s' (.written now fault)

theorem enforced_resume (hphase : s.phase.enforcing = true) {ok : Bool}
    (hstep : s.resume ok = some s') : Enforced s s' (.resume ok) := by
  unfold SessionPool.resume at hstep
  cases hp : s.phase with
  | budget =>
    simp only [hp, Option.some.injEq] at hstep
    exact .turn ok hp hstep.symm
  | saving victim ticket =>
    cases ticket with
    | none =>
      simp only [hp] at hstep
      obtain ⟨p, hfind, hrest⟩ := Option.bind_eq_some_iff.mp hstep
      obtain ⟨s₁, hqueue, rfl⟩ := Option.map_eq_some_iff.mp hrest
      unfold SessionPool.queue at hqueue
      split at hqueue
      next hspace =>
        cases hqueue
        exact .queued ok victim p hp hfind hspace rfl
      · cases hqueue
    | some ticket =>
      simp only [hp] at hstep
      obtain ⟨r, hdone, rfl⟩ := Option.map_eq_some_iff.mp hstep
      exact .told ok victim ticket r hp hdone rfl
  | _ =>
    rw [hp] at hphase
    cases hphase

/-- No other call starts, and the writer's thread leaves the call where it is. -/
theorem enforced_step (hphase : s.phase.enforcing = true) {a : Action}
    (hstep : s.step a = some s') : Enforced s s' a := by
  have hcall : ∀ {s₁}, ¬ s.call s₁ = some s' := by
    intro s₁ h
    rw [(call_some h).2] at hphase
    cases hphase
  cases a with
  | resume ok => exact enforced_resume hphase hstep
  | take =>
    obtain ⟨writer, htake, rfl⟩ := Option.map_eq_some_iff.mp hstep
    exact .taken writer htake rfl
  | written now fault => exact .written now fault hstep
  | _ => exact absurd hstep hcall

/-- A call saves a victim only from inside `enforce_budget`. -/
theorem step_not_saving (hphase : s.phase.enforcing = false) {a : Action}
    (hstep : s.step a = some s') (victim : Bytes) (ticket : Option Nat) :
    s'.phase ≠ .saving victim ticket := by
  have hcalm : ∀ {phase}, Calm s phase → phase ≠ .saving victim ticket := by
    intro phase hcalm hsaving
    rcases hcalm.saves victim ticket hsaving with h | h
    · rw [h] at hphase
      cases hphase
    · rw [h] at hphase
      cases hphase
  have hsame : s.phase ≠ .saving victim ticket := by
    intro h
    rw [h] at hphase
    cases hphase
  cases stepped hstep with
  | used context | taken writer => exact hsame
  | went_on phase outcome h | parked kv phase outcome h | queued ok c phase outcome _ h =>
    exact hcalm h
  | written now fault hwrite =>
    obtain ⟨writer, _, rfl⟩ := Option.map_eq_some_iff.mp hwrite
    exact hsame
  | _ => exact nofun

/-- `lru_` lists the keys of `parked_`, each once, and the victim is its last one. -/
structure Books (s : SessionPool) : Prop where
  listed : Table.Listed s.lru s.parked
  victim : ∀ v t, s.phase = .saving v t → s.lru.getLast? = some v

theorem victim_enforced (h : Books s) {a : Action} (hstep : Enforced s s' a) (v : Bytes)
    (t : Option Nat) (hv : s'.phase = .saving v t) : s'.lru.getLast? = some v := by
  cases hstep with
  | turn ok hphase hnext =>
    subst hnext
    unfold SessionPool.enforce_budget at hv ⊢
    dsimp only at hv ⊢
    split at hv
    · cases hv
    next victim hlast =>
    split at hv
    next hover =>
      split at hv
      next hdisk =>
        cases hv
        rw [if_pos hover, if_pos hdisk]
        exact hlast
      · rw [hphase] at hv
        cases hv
    · cases hv
  | queued ok victim p hphase hfind hspace hnext =>
    subst hnext
    cases hv
    exact h.victim v none hphase
  | told ok victim ticket r hphase hdone hnext =>
    subst hnext
    cases r with
    | ok _ => cases hv
    | error e => cases hv
  | taken writer htake hnext =>
    subst hnext
    exact h.victim v t hv
  | written now fault hwrite =>
    obtain ⟨writer, _, rfl⟩ := Option.map_eq_some_iff.mp hwrite
    exact h.victim v t hv

theorem Books.step (h : Books s) {a : Action} (hstep : s.step a = some s') : Books s' := by
  refine ⟨(moved_step h.victim hstep).listed h.listed, ?_⟩
  intro v t hv
  cases hphase : s.phase.enforcing with
  | true => exact victim_enforced h (enforced_step hphase hstep) v t hv
  | false => exact absurd hv (step_not_saving hphase hstep v t)

end Enforcing

theorem reachable_books {s : SessionPool} (h : LTS.Reachable pool_system s) : Books s := by
  refine h.invariant ?_ ?_
  · intro s hinit
    obtain ⟨disk_opt, max_parked, max_parked_bytes, disk, rfl⟩ := hinit
    refine ⟨.nil, ?_⟩
    intro v t hv
    cases hv
  · intro s a s' hs hstep
    exact hs.step hstep

end CachedMoe.Runtime
