import Mathlib.Algebra.Order.BigOperators.Group.Finset
import CachedMoe.Store.Backfill

/-! # Filling an empty store from a list

    `restore_expert_cache` runs a backfill over an empty store and lets nothing else use it:
    the pumps, the fills they issue, and the reports of the runs as they land, in any order.
    Each report carries the stamp its fetch was made with. What such a run leaves Resident is
    of the list, with the stamp of its rank. -/

namespace CachedMoe.Store

open CachedMoe ExpertStore

/-! ### The system -/

structure Restore where
  planner : Backfills
  /-- The runs with the engine: slot and stamp of their fetch. -/
  runs : List (Nat × Nat) := []

namespace Restore

inductive Action where
  | pump (p : Nat)
  | submit (p : Nat) (refusal : Option Err)
  | callback (b : Nat)
  | stop
  /-- A run lands: the callback of its fetch, up to `finish_run`. -/
  | land (k : Nat) (ok : Bool)

/-- The runs with the engine once pump `p` has submitted one. -/
def submitted (s : Restore) (p : Nat) : Option Err → List (Nat × Nat)
  | some _ => s.runs
  | none =>
    match (s.planner.pumps p).phase with
    | .submit slot stamp _ _ => (slot, stamp) :: s.runs
    | _ => s.runs

def step (s : Restore) : Action → Option Restore
  | .pump p => (s.planner.step (.pump p)).map fun planner => { s with planner }
  | .submit p refusal =>
    (s.planner.step (.submit p refusal)).map fun planner => { planner, runs := s.submitted p refusal }
  | .callback b => (s.planner.step (.callback b)).map fun planner => { s with planner }
  | .stop => (s.planner.step .stop).map fun planner => { s with planner }
  | .land k ok =>
    match s.runs[k]? with
    | none => none
    | some (slot, stamp) =>
      (s.planner.step (.store (.finish_run slot ok stamp))).map fun planner =>
        { planner, runs := s.runs.eraseIdx k }

end Restore

/-- Runs start when the backfill over `order` has been started on an empty store. -/
def restore_system (order : List ExpertKey) : LTS.System Restore Restore.Action :=
  .ofNext
    (fun s => ∃ store manifest inflight, LTS.Reachable store_system store ∧
      store.stats.resident = 0 ∧ store.stats.filling = 0 ∧ store.fixed_cache = false ∧
      s = { planner := Backfills.start_backfill { store, manifest } order inflight false })
    Restore.step

/-! ### A slot through its fill -/

variable {st st' : ExpertStore}

theorem begin_fill_slot {key : ExpertKey} {entry : ExpertEntry} {tier : Tier} {res : Reservation}
    (h : st.begin_fill key entry tier = (.ok res, st')) :
    (st'.slots res.slot).key = key ∧ (st'.slots res.slot).tier = tier ∧
      (st'.slots res.slot).last_use_token = 0 ∧ (st'.slots res.slot).guard_timeline = 0 ∧
      st'.fixed_cache = st.fixed_cache := by
  unfold ExpertStore.begin_fill at h
  dsimp only at h
  split at h
  · cases h
  split at h
  · cases h
  split at h
  · cases h
  rcases reserve_locked_cases st key tier with ⟨e', he⟩ | ⟨slot, rest, addr, _, _, _, _, hres⟩
  · rw [he] at h
    cases h
  · rw [hres] at h
    cases h
    refine ⟨?_, ?_, ?_, ?_, rfl⟩
    · simp [taken, set_slot, laid_out, reserved_slot]
    · simp [taken, set_slot, laid_out, reserved_slot]
    · simp [taken, set_slot, laid_out, reserved_slot]
    · simp [taken, set_slot, laid_out, reserved_slot]

/-- What a report does to a slot whose fill is not complete. -/
inductive Landed (s s' : ExpertSlot) (ok : Bool) (token : Nat) : Prop
  | counted (state : s'.state = .Filling) (key : s'.key = s.key) (tier : s'.tier = s.tier)
      (guard : s'.guard_timeline = s.guard_timeline) (stamp : s'.last_use_token = s.last_use_token)
      (total : s'.runs_total = s.runs_total) (done : s'.runs_done = s.runs_done + 1)
      (more : s.runs_done + 1 < s.runs_total)
  | settled (state : s'.state = .Resident) (key : s'.key = s.key) (tier : s'.tier = s.tier)
      (guard : s'.guard_timeline = s.guard_timeline)
      (stamp : s'.last_use_token = max s.last_use_token token) (whole : ok = true)
      (last : s.runs_done + 1 = s.runs_total)
  | freed (state : s'.state = .Free) (last : s.runs_done + 1 = s.runs_total)

theorem finish_run_landed {i : Nat} (hlt : i < st.slots_size)
    (hfilling : (st.slots i).state = .Filling) (hmore : (st.slots i).runs_done < (st.slots i).runs_total)
    (ok : Bool) (token : Nat) :
    Landed (st.slots i) ((st.finish_run i ok token).2.slots i) ok token ∧
      (st.finish_run i ok token).2.fixed_cache = st.fixed_cache := by
  unfold ExpertStore.finish_run
  dsimp only
  rw [if_neg (not_le.mpr hlt), if_neg (not_not.mpr hfilling), if_neg (not_le.mpr hmore)]
  split
  next hnext =>
    refine ⟨.counted ?_ ?_ ?_ ?_ ?_ ?_ ?_ hnext, rfl⟩
    · simpa [set_slot] using hfilling
    · simp [set_slot]
    · simp [set_slot]
    · simp [set_slot]
    · simp [set_slot]
    · simp [set_slot]
    · simp [set_slot]
  next hlast =>
    have hwhole : (st.slots i).runs_done + 1 = (st.slots i).runs_total := by omega
    cases hfail : (st.slots i).run_failed || !ok with
    | true =>
      refine ⟨.freed ?_ hwhole, rfl⟩
      simp [settle_locked, release_locked, set_slot, released_slot]
    | false =>
      have hok : ok = true := by
        rw [Bool.or_eq_false_iff, Bool.not_eq_false'] at hfail
        exact hfail.2
      refine ⟨.settled ?_ ?_ ?_ ?_ ?_ hok hwhole, rfl⟩
      · simp [settle_locked, publish_locked, set_slot, settled_slot]
      · simp [settle_locked, publish_locked, set_slot, settled_slot]
      · simp [settle_locked, publish_locked, set_slot, settled_slot]
      · simp [settle_locked, publish_locked, set_slot, settled_slot]
      · simp [settle_locked, publish_locked, set_slot, settled_slot]

theorem evict_slots (st : ExpertStore) (i : Nat) :
    (st.evict i).2.fixed_cache = st.fixed_cache ∧ (st.evict i).2.slots_size = st.slots_size ∧
      ((st.evict i).2.slots = st.slots ∨
        (st.slots i).state = .Resident ∧ ((st.evict i).2.slots i).state = .Free ∧
          ∀ j, j ≠ i → (st.evict i).2.slots j = st.slots j) := by
  unfold ExpertStore.evict
  dsimp only
  split
  · exact ⟨rfl, rfl, .inl rfl⟩
  split
  · exact ⟨rfl, rfl, .inl rfl⟩
  split
  · exact ⟨rfl, rfl, .inl rfl⟩
  next hres =>
  split
  · exact ⟨rfl, rfl, .inl rfl⟩
  split
  · exact ⟨rfl, rfl, .inl rfl⟩
  · refine ⟨rfl, rfl, .inr ⟨not_not.mp hres, ?_, ?_⟩⟩
    · simp [recycle, release_locked, unpublish_locked, set_slot, released_slot]
    · intro j hj
      simp [recycle, release_locked, unpublish_locked, set_slot, Function.update_of_ne hj]

/-! ### Who refers to a slot -/

/-- The stamp of a key's rank. -/
def StampOf (order : List ExpertKey) (key : ExpertKey) (stamp : Nat) : Prop :=
  ∃ rank, order[rank]? = some key ∧ stamp = kDemandStampBase - 1 - rank

/-- The runs of slot `i` that a pump still has to submit or to account for. -/
def PumpPhase.unsubmitted (i : Nat) : PumpPhase → Nat
  | .submit slot _ total issued => if slot = i then total - issued else 0
  | .abort slot _ rest _ => if slot = i then rest else 0
  | _ => 0

/-- What is known of the key and the stamp a pump is at. -/
def PumpPhase.Stamped (order : List ExpertKey) (st : ExpertStore) : PumpPhase → Prop
  | .pick rank key => order[rank]? = some key
  | .reserve key stamp => StampOf order key stamp
  | .reclaim key stamp => StampOf order key stamp
  | .evict key stamp _ => StampOf order key stamp
  | .retry key stamp => StampOf order key stamp
  | .submit slot stamp total issued => issued < total ∧ StampOf order (st.slots slot).key stamp
  | _ => True

/-- How many runs of a slot are not reported yet. -/
def runs_left (st : ExpertStore) (i : Nat) : Nat :=
  if i < st.slots_size ∧ (st.slots i).state = .Filling then
    (st.slots i).runs_total - (st.slots i).runs_done
  else 0

/-- A slot of a restore: free, filling without a stamp, or Resident with the stamp of its rank. -/
structure Restoring (order : List ExpertKey) (s : ExpertSlot) : Prop where
  tier : s.state ≠ .Free → s.tier = .Cached ∧ s.guard_timeline = 0
  filling : s.state = .Filling → s.last_use_token = 0 ∧ s.runs_done < s.runs_total
  resident : s.state = .Resident → StampOf order s.key s.last_use_token

namespace Restore

/-- The runs of slot `i` with the engine. -/
def flying (s : Restore) (i : Nat) : Nat := s.runs.countP fun r => r.1 = i

def unsubmitted (s : Restore) (i : Nat) : Nat :=
  ∑ p ∈ Finset.range s.planner.pump_count, (s.planner.pumps p).phase.unsubmitted i

end Restore

structure RestoreInv (order : List ExpertKey) (s : Restore) : Prop where
  store : Inv s.planner.store
  fixed : s.planner.store.fixed_cache = false
  backfill : ∀ b, (s.planner.backfills b).keep = false ∧
    ∀ (rank : Nat) (key : ExpertKey), (s.planner.backfills b).order[rank]? = some key →
      order[rank]? = some key
  phases : ∀ p < s.planner.pump_count, (s.planner.pumps p).phase.Stamped order s.planner.store
  runs : ∀ r ∈ s.runs, StampOf order (s.planner.store.slots r.1).key r.2
  accounted : ∀ i, s.flying i + s.unsubmitted i = runs_left s.planner.store i
  slots : ∀ i < s.planner.store.slots_size, Restoring order (s.planner.store.slots i)

variable {order : List ExpertKey} {s s' : Restore}

/-- One pump moved. -/
theorem unsubmitted_go {p : Nat} (hp : p < s.planner.pump_count) (phase : PumpPhase)
    (runs : List (Nat × Nat)) (i : Nat) :
    Restore.unsubmitted { planner := s.planner.go p phase, runs } i +
        (s.planner.pumps p).phase.unsubmitted i =
      s.unsubmitted i + phase.unsubmitted i :=
  PointUpdate.sum_update_add (Finset.mem_range.mpr hp) s.planner.pumps
    { s.planner.pumps p with phase := phase } fun pump => pump.phase.unsubmitted i

theorem go_phase (s : Backfills) (p q : Nat) (phase : PumpPhase) :
    ((s.go p phase).pumps q).phase = if q = p then phase else (s.pumps q).phase := by
  unfold Backfills.go
  by_cases hq : q = p
  · subst hq
    simp
  · simp [hq]

theorem PumpPhase.unsubmitted_le {p : Nat} (hp : p < s.planner.pump_count) (i : Nat) :
    (s.planner.pumps p).phase.unsubmitted i ≤ s.unsubmitted i :=
  Finset.single_le_sum (f := fun p => (s.planner.pumps p).phase.unsubmitted i)
    (fun _ _ => Nat.zero_le _) (Finset.mem_range.mpr hp)

theorem PumpPhase.Stamped.of_slots {phase : PumpPhase} (h : phase.Stamped order st) {j : Nat}
    (hother : ∀ i, i ≠ j → st'.slots i = st.slots i)
    (hself : phase.unsubmitted j ≠ 0 → (st'.slots j).key = (st.slots j).key) :
    phase.Stamped order st' := by
  cases phase with
  | submit slot stamp total issued =>
    obtain ⟨hless, hstamp⟩ := h
    refine ⟨hless, ?_⟩
    by_cases hslot : slot = j
    · subst hslot
      rw [hself]
      · exact hstamp
      · rw [PumpPhase.unsubmitted, if_pos rfl]
        omega
    · rw [hother slot hslot]
      exact hstamp
  | _ => exact h

theorem runs_left_of_slots {i : Nat} (hsize : st'.slots_size = st.slots_size)
    (hslot : st'.slots i = st.slots i) : runs_left st' i = runs_left st i := by
  rw [runs_left, runs_left, hsize, hslot]

/-- Somebody refers to the slot: it is filling, and its fill is not complete. -/
theorem RestoreInv.filling (h : RestoreInv order s) {i : Nat}
    (hpos : 0 < s.flying i + s.unsubmitted i) :
    i < s.planner.store.slots_size ∧ (s.planner.store.slots i).state = .Filling ∧
      (s.planner.store.slots i).last_use_token = 0 ∧
      (s.planner.store.slots i).runs_done < (s.planner.store.slots i).runs_total := by
  rw [h.accounted, runs_left] at hpos
  split at hpos
  next hfill => exact ⟨hfill.1, hfill.2, (h.slots i hfill.1).filling hfill.2⟩
  · omega

/-- A run with the engine refers to its slot. -/
theorem flying_pos {r : Nat × Nat} (hr : r ∈ s.runs) : 0 < s.flying r.1 :=
  List.countP_pos_iff.mpr ⟨r, hr, by simp⟩

/-! ### Steps -/

/-- A pump moved, and nobody's runs changed hands. -/
theorem RestoreInv.quiet (h : RestoreInv order s) {p : Nat} (hp : p < s.planner.pump_count)
    {phase : PumpPhase} (hphase : phase.Stamped order s.planner.store)
    (hruns : ∀ i, phase.unsubmitted i = (s.planner.pumps p).phase.unsubmitted i) :
    RestoreInv order { s with planner := s.planner.go p phase } := by
  refine ⟨h.store, h.fixed, h.backfill, ?_, h.runs, ?_, h.slots⟩
  · intro q hq
    rw [go_phase]
    split
    · exact hphase
    · exact h.phases q hq
  · intro i
    have hgo := unsubmitted_go hp phase s.runs i
    have hacc := h.accounted i
    have hsame := hruns i
    show s.flying i + _ = runs_left s.planner.store i
    omega

theorem RestoreInv.set_backfill (h : RestoreInv order s) (b : Nat) {v : Backfill}
    (hkeep : v.keep = (s.planner.backfills b).keep)
    (horder : v.order = (s.planner.backfills b).order) :
    RestoreInv order { s with planner := s.planner.set_backfill b v } := by
  refine ⟨h.store, h.fixed, ?_, h.phases, h.runs, h.accounted, h.slots⟩
  intro b'
  unfold Backfills.set_backfill
  by_cases hb : b' = b
  · subst hb
    simp only [Function.update_self, hkeep, horder]
    exact h.backfill b'
  · simp only [Function.update_of_ne hb]
    exact h.backfill b'

/-- Both at once. -/
theorem RestoreInv.quiet_with (h : RestoreInv order s) {p : Nat} (hp : p < s.planner.pump_count)
    (b : Nat) {v : Backfill} {phase : PumpPhase}
    (hkeep : v.keep = (s.planner.backfills b).keep)
    (horder : v.order = (s.planner.backfills b).order)
    (hphase : phase.Stamped order s.planner.store)
    (hruns : ∀ i, phase.unsubmitted i = (s.planner.pumps p).phase.unsubmitted i) :
    RestoreInv order { s with planner := (s.planner.set_backfill b v).go p phase } :=
  (h.set_backfill b hkeep horder).quiet hp hphase hruns

/-- A call that starts has nothing to submit. -/
theorem unsubmitted_spawn (planner : Backfills) (runs : List (Nat × Nat)) (b i : Nat) :
    Restore.unsubmitted { planner := planner.spawn b, runs } i =
      Restore.unsubmitted { planner, runs } i := by
  show ∑ q ∈ Finset.range (planner.pump_count + 1), (Function.update planner.pumps
    planner.pump_count { backfill := b } q).phase.unsubmitted i =
      ∑ q ∈ Finset.range planner.pump_count, (planner.pumps q).phase.unsubmitted i
  rw [Finset.sum_range_succ, Function.update_self]
  refine Eq.trans (congrArg₂ _ (Finset.sum_congr rfl ?_) rfl) (Nat.add_zero _)
  intro q hq
  rw [Function.update_of_ne (Nat.ne_of_lt (Finset.mem_range.mp hq))]

theorem RestoreInv.spawn (h : RestoreInv order s) (b : Nat) :
    RestoreInv order { s with planner := s.planner.spawn b } := by
  refine ⟨h.store, h.fixed, h.backfill, ?_, h.runs, ?_, h.slots⟩
  · intro q hq
    unfold Backfills.spawn
    by_cases hnew : q = s.planner.pump_count
    · subst hnew
      simp [PumpPhase.Stamped]
    · simp only [Function.update_of_ne hnew]
      have hlt : q < s.planner.pump_count + 1 := hq
      exact h.phases q (by omega)
  · intro i
    rw [unsubmitted_spawn]
    exact h.accounted i

theorem RestoreInv.spawn_with (h : RestoreInv order s) (b : Nat) {v : Backfill}
    (hkeep : v.keep = (s.planner.backfills b).keep)
    (horder : v.order = (s.planner.backfills b).order) :
    RestoreInv order { s with planner := (s.planner.set_backfill b v).spawn b } :=
  (h.set_backfill b hkeep horder).spawn b

/-- Slot `j` changed, one pump moved and runs came or went: what has to be shown. -/
theorem RestoreInv.change_slot (h : RestoreInv order s) {j p : Nat} (phase : PumpPhase)
    (runs : List (Nat × Nat)) (hp : p < s.planner.pump_count) (hinv : Inv st')
    (hfixed : st'.fixed_cache = s.planner.store.fixed_cache)
    (hsize : st'.slots_size = s.planner.store.slots_size)
    (hother : ∀ i, i ≠ j → st'.slots i = s.planner.store.slots i)
    (hslot : Restoring order (st'.slots j)) (hphase : phase.Stamped order st')
    (hpumps : ∀ q < s.planner.pump_count, q ≠ p →
      (s.planner.pumps q).phase.unsubmitted j ≠ 0 →
        (st'.slots j).key = (s.planner.store.slots j).key)
    (hruns : ∀ r ∈ runs, StampOf order (st'.slots r.1).key r.2)
    (hbalance : ∀ i, runs_left st' i + (s.planner.pumps p).phase.unsubmitted i + s.flying i =
      runs_left s.planner.store i + phase.unsubmitted i + runs.countP fun r => r.1 = i) :
    RestoreInv order
      { planner := { s.planner with store := st' }.go p phase, runs := runs } := by
  refine ⟨hinv, hfixed.trans h.fixed, h.backfill, ?_, hruns, ?_, ?_⟩
  · intro q hq
    show ((s.planner.go p phase).pumps q).phase.Stamped order st'
    rw [go_phase]
    split
    · exact hphase
    next hne => exact (h.phases q hq).of_slots hother (hpumps q hq hne)
  · intro i
    have hgo := unsubmitted_go hp phase runs i
    have hacc := h.accounted i
    have hbal := hbalance i
    show runs.countP (fun r => r.1 = i) + _ = runs_left st' i
    have hsame : Restore.unsubmitted
        { planner := { s.planner with store := st' }.go p phase, runs := runs } i =
        Restore.unsubmitted { planner := s.planner.go p phase, runs := runs } i := rfl
    rw [hsame]
    omega
  · intro i hi
    show Restoring order (st'.slots i)
    by_cases hij : i = j
    · rw [hij]
      exact hslot
    · rw [hother i hij]
      exact h.slots i (hsize ▸ hi)

/-- `fetch` asks for a slot: refused, or the free slot it gets is nobody's. -/
theorem RestoreInv.reserved (h : RestoreInv order s) {p : Nat} (hp : p < s.planner.pump_count)
    {key : ExpertKey} {stamp : Nat} (hstamp : StampOf order key stamp) (first : Bool)
    (hold : ∀ i, (s.planner.pumps p).phase.unsubmitted i = 0) :
    RestoreInv order { s with planner := s.planner.reserved p key stamp first } := by
  unfold Backfills.reserved
  split
  · exact h.quiet hp trivial fun i => (hold i).symm
  next entry _ =>
  cases hres : s.planner.store.begin_fill key entry .Cached with
  | mk r st₁ =>
    cases r with
    | error e =>
      obtain rfl := begin_fill_error hres
      dsimp only
      split
      · exact h.quiet hp hstamp fun i => (hold i).symm
      · exact h.quiet hp trivial fun i => (hold i).symm
    | ok res =>
      obtain ⟨hpos, hfill, hfree, hsize, hother⟩ := begin_fill_ok h.store hres
      obtain ⟨hkey, htier, hlast, hguard, hfixed⟩ := begin_fill_slot hres
      have hinv : Inv st₁ := by
        have hkept := h.store.apply (.begin_fill key entry .Cached)
        rwa [ExpertStore.apply, hres] at hkept
      -- the slot was free, so no run and no pump means it
      have hnobody : s.flying res.slot + s.unsubmitted res.slot = 0 := by
        rw [h.accounted, runs_left, if_neg]
        rw [hfree]
        simp
      have hnone : ∀ r ∈ s.runs, r.1 ≠ res.slot := by
        intro r hr heq
        have hpos := flying_pos hr
        rw [heq] at hpos
        omega
      have hslot : Restoring order (st₁.slots res.slot) := by
        refine ⟨fun _ => ⟨htier, hguard⟩, fun _ => ⟨hlast, ?_⟩, ?_⟩
        · rw [hfill.done, hfill.total]
          exact hpos
        · intro hresident
          rw [hfill.filling] at hresident
          cases hresident
      have hchanged := h.change_slot (.submit res.slot stamp res.run_count 0) s.runs hp hinv hfixed
        hsize hother hslot ⟨hpos, hkey ▸ hstamp⟩ ?_ ?_ ?_
      · exact hchanged.set_backfill _ rfl rfl
      · intro q hq _ hne
        have hle := PumpPhase.unsubmitted_le (s := s) hq res.slot
        omega
      · intro r hr
        rw [hother r.1 (hnone r hr)]
        exact h.runs r hr
      · intro i
        rw [hold, Restore.flying]
        by_cases hi : i = res.slot
        · subst hi
          have hnew : runs_left st₁ res.slot = res.run_count := by
            rw [runs_left, if_pos ⟨hfill.lt, hfill.filling⟩, hfill.total, hfill.done, Nat.sub_zero]
          have hacc := h.accounted res.slot
          have hunsub : PumpPhase.unsubmitted res.slot (.submit res.slot stamp res.run_count 0) =
              res.run_count := by simp [PumpPhase.unsubmitted]
          omega
        · have hunsub : PumpPhase.unsubmitted i (.submit res.slot stamp res.run_count 0) = 0 := by
            simp [PumpPhase.unsubmitted, Ne.symm hi]
          rw [runs_left_of_slots hsize (hother i hi), hunsub]

/-- A slot some of whose runs are out, once one of them has been reported. -/
theorem RestoreInv.reported (h : RestoreInv order s) {j : Nat} (hpos : 0 < s.flying j + s.unsubmitted j)
    (ok : Bool) (token : Nat)
    (hstamp : ok = true → StampOf order (s.planner.store.slots j).key token) :
    Restoring order ((s.planner.store.finish_run j ok token).2.slots j) ∧
      (s.planner.store.finish_run j ok token).2.fixed_cache = s.planner.store.fixed_cache ∧
      runs_left (s.planner.store.finish_run j ok token).2 j + 1 = s.flying j + s.unsubmitted j ∧
      (runs_left (s.planner.store.finish_run j ok token).2 j ≠ 0 →
        ((s.planner.store.finish_run j ok token).2.slots j).key =
          (s.planner.store.slots j).key) := by
  obtain ⟨hlt, hfilling, hlast, hmore⟩ := h.filling hpos
  obtain ⟨htier, hguard⟩ := (h.slots j hlt).tier (by rw [hfilling]; decide)
  obtain ⟨hlanded, hfixed⟩ := finish_run_landed hlt hfilling hmore ok token
  obtain ⟨hsize, _⟩ := finish_run_other s.planner.store j ok token
  have hacc := h.accounted j
  rw [runs_left, if_pos ⟨hlt, hfilling⟩] at hacc
  rw [hacc]
  generalize hst : (s.planner.store.finish_run j ok token).2 = st₁ at hlanded hfixed hsize ⊢
  have hlt' : j < st₁.slots_size := hsize ▸ hlt
  -- more runs are out, or it was the last: published or given back
  cases hlanded with
  | counted state key tier guard stamp total done more =>
    have hleft : runs_left st₁ j = (s.planner.store.slots j).runs_total -
        ((s.planner.store.slots j).runs_done + 1) := by
      rw [runs_left, if_pos ⟨hlt', state⟩, total, done]
    refine ⟨⟨fun _ => ?_, fun _ => ?_, ?_⟩, hfixed, by omega, fun _ => key⟩
    · rw [tier, guard]
      exact ⟨htier, hguard⟩
    · rw [stamp, done, total]
      exact ⟨hlast, more⟩
    · intro hres
      rw [state] at hres
      cases hres
  | settled state key tier guard stamp whole last =>
    have hleft : runs_left st₁ j = 0 := by
      rw [runs_left, if_neg]
      rw [state]
      simp
    refine ⟨⟨fun _ => ?_, ?_, fun _ => ?_⟩, hfixed, by omega, fun _ => key⟩
    · rw [tier, guard]
      exact ⟨htier, hguard⟩
    · intro hfill
      rw [state] at hfill
      cases hfill
    · rw [key, stamp, hlast, Nat.zero_max]
      exact hstamp whole
  | freed state last =>
    have hleft : runs_left st₁ j = 0 := by
      rw [runs_left, if_neg]
      rw [state]
      simp
    refine ⟨⟨?_, ?_, ?_⟩, hfixed, by omega, fun hne => absurd hleft hne⟩
    · intro hused
      exact absurd state hused
    · intro hfill
      rw [state] at hfill
      cases hfill
    · intro hres
      rw [state] at hres
      cases hres

/-- The error branch accounts for one run of the pump's fetch. -/
theorem RestoreInv.abort (h : RestoreInv order s) {p slot stamp rest : Nat} {code : Err}
    (hp : p < s.planner.pump_count)
    (hphase : (s.planner.pumps p).phase = .abort slot stamp (rest + 1) code) :
    RestoreInv order
      { s with
        planner := Backfills.go
          { s.planner with store := (s.planner.store.finish_run slot false stamp).2 } p
          (.abort slot stamp rest code) } := by
  have hmine : (s.planner.pumps p).phase.unsubmitted slot = rest + 1 := by
    simp [hphase, PumpPhase.unsubmitted]
  have hle := PumpPhase.unsubmitted_le hp slot
  obtain ⟨hslot, hfixed, hleft, hkey⟩ := h.reported (j := slot) (by omega) false stamp
    fun hok => absurd hok Bool.false_ne_true
  obtain ⟨hsize, hother⟩ := finish_run_other s.planner.store slot false stamp
  have hacc := h.accounted slot
  refine h.change_slot _ s.runs hp (h.store.apply (.finish_run slot false stamp)) hfixed hsize
    hother hslot trivial ?_ ?_ ?_
  · intro q hq hne hpos
    refine hkey ?_
    -- the other pump's runs are still to come
    have hpair := Finset.add_le_sum (f := fun p => (s.planner.pumps p).phase.unsubmitted slot)
      (fun _ _ => Nat.zero_le _) (Finset.mem_range.mpr hq) (Finset.mem_range.mpr hp) hne
    unfold Restore.unsubmitted at hleft hle
    omega
  · intro r hr
    by_cases hr' : r.1 = slot
    · rw [hr', hkey, ← hr']
      · exact h.runs r hr
      · have hpos := flying_pos hr
        rw [hr'] at hpos
        omega
    · rw [hother r.1 hr']
      exact h.runs r hr
  · intro i
    rw [Restore.flying]
    by_cases hi : i = slot
    · subst hi
      have hnew : PumpPhase.unsubmitted i (.abort i stamp rest code) = rest := by
        simp [PumpPhase.unsubmitted]
      omega
    · rw [runs_left_of_slots hsize (hother i hi), hphase]
      simp [PumpPhase.unsubmitted, Ne.symm hi]

/-- `reclaim` evicts: the slot was Resident, so no run and no pump means it. -/
theorem RestoreInv.evicted (h : RestoreInv order s) {p : Nat} (slot : Nat) (phase : PumpPhase)
    (hp : p < s.planner.pump_count) (hphase : phase.Stamped order s.planner.store)
    (hnew : ∀ i, phase.unsubmitted i = 0) (hold : ∀ i, (s.planner.pumps p).phase.unsubmitted i = 0) :
    RestoreInv order
      { s with
        planner := Backfills.go
          { s.planner with store := (s.planner.store.evict slot).2 } p phase } := by
  obtain ⟨hfixed, hsize, hsame | ⟨hres, hfree, hother⟩⟩ := evict_slots s.planner.store slot
  -- the store refuses: nothing has changed
  · have hslots : ∀ i, (s.planner.store.evict slot).2.slots i = s.planner.store.slots i := by
      intro i
      rw [hsame]
    refine ⟨h.store.apply (.evict slot), hfixed.trans h.fixed, h.backfill, ?_, ?_, ?_, ?_⟩
    · intro q hq
      show ((s.planner.go p phase).pumps q).phase.Stamped order _
      have hstays : ∀ {ph : PumpPhase}, ph.Stamped order s.planner.store →
          ph.Stamped order (s.planner.store.evict slot).2 := fun hph =>
        hph.of_slots (j := slot) (fun i _ => hslots i) fun _ => by rw [hslots]
      rw [go_phase]
      split
      · exact hstays hphase
      · exact hstays (h.phases q hq)
    · intro r hr
      show StampOf order ((s.planner.store.evict slot).2.slots r.1).key r.2
      rw [hslots]
      exact h.runs r hr
    · intro i
      have hgo := unsubmitted_go hp phase s.runs i
      have hacc := h.accounted i
      rw [hnew, hold] at hgo
      show s.flying i + Restore.unsubmitted { planner := s.planner.go p phase, runs := s.runs } i =
        runs_left (s.planner.store.evict slot).2 i
      rw [runs_left_of_slots hsize (hslots i)]
      omega
    · intro i hi
      show Restoring order ((s.planner.store.evict slot).2.slots i)
      rw [hslots]
      exact h.slots i (hsize ▸ hi)
  -- the slot is free now, and no run was out for it
  · have hnobody : s.flying slot + s.unsubmitted slot = 0 := by
      rw [h.accounted, runs_left, if_neg]
      rw [hres]
      simp
    have hgone : ∀ i, runs_left (s.planner.store.evict slot).2 i = runs_left s.planner.store i := by
      intro i
      by_cases hi : i = slot
      · rw [hi, runs_left, runs_left, hfree, hres]
        simp
      · exact runs_left_of_slots hsize (hother i hi)
    refine h.change_slot _ s.runs hp (h.store.apply (.evict slot)) hfixed hsize hother ?_ ?_ ?_
      ?_ ?_
    · refine ⟨fun hused => absurd hfree hused, ?_, ?_⟩
      · intro hfill
        rw [hfree] at hfill
        cases hfill
      · intro hresident
        rw [hfree] at hresident
        cases hresident
    · exact hphase.of_slots hother fun hne => absurd (hnew slot) hne
    · intro q hq _ hne
      have hle := PumpPhase.unsubmitted_le (s := s) hq slot
      omega
    · intro r hr
      rw [hother r.1]
      · exact h.runs r hr
      · intro heq
        have hpos := flying_pos hr
        rw [heq] at hpos
        omega
    · intro i
      rw [hgone, hold, hnew, Restore.flying]

theorem unsubmitted_of_spent {phase : PumpPhase} (h : phase.spent = true) (i : Nat) :
    phase.unsubmitted i = 0 := by
  cases phase with
  | submit => cases h
  | abort slot stamp rest code =>
    cases rest with
    | zero => simp [PumpPhase.unsubmitted]
    | succ => cases h
  | _ => rfl

theorem PumpPhase.stamped_of_rests {phase : PumpPhase} {st : ExpertStore}
    (h : phase.rests = true) : phase.Stamped order st := by
  cases phase with
  | check | done | failed => trivial
  | _ => cases h

theorem spent_of_rests {phase : PumpPhase} (h : phase.rests = true) : phase.spent = true := by
  cases phase with
  | check | done | failed => rfl
  | _ => cases h

theorem RestoreInv.pump_step (h : RestoreInv order s) {p : Nat} (hp : p < s.planner.pump_count)
    {planner : Backfills} (hstep : s.planner.pump_step p = some planner) :
    RestoreInv order { s with planner } := by
  have hstamped := h.phases p hp
  have hpumps := pump_step_cases hstep
  have hnone : (s.planner.pumps p).phase.spent = true →
      ∀ i, 0 = (s.planner.pumps p).phase.unsubmitted i :=
    fun hspent i => (unsubmitted_of_spent hspent i).symm
  generalize hphase : (s.planner.pumps p).phase = phase at hstamped hpumps
  rw [hphase] at hnone
  cases hpumps with
  | rests v hspent hrests hv =>
    refine h.quiet_with hp _ hv.2 hv.1 ?_ fun i => ?_
    · exact PumpPhase.stamped_of_rests hrests
    · rw [hphase, ← hnone hspent i, unsubmitted_of_spent (spent_of_rests hrests)]
  | picks v key hkey hv =>
    -- the key of the next rank
    refine h.quiet_with hp _ hv.2 hv.1 ?_ (hphase ▸ hnone rfl)
    exact (h.backfill (s.planner.pumps p).backfill).2 _ _ (hv.1 ▸ hkey)
  | @fetches rank key v hv =>
    refine h.quiet_with hp _ hv.2 hv.1 ?_ (hphase ▸ hnone rfl)
    rw [hv.2, (h.backfill _).1, if_neg Bool.false_ne_true]
    exact ⟨rank, hstamped, rfl⟩
  | reserves => exact h.reserved hp hstamped true fun i => hphase ▸ (hnone rfl i).symm
  | reclaims => exact h.quiet hp hstamped (hphase ▸ hnone rfl)
  | @evicts key stamp slot victims phase' hvictims =>
    have hold : ∀ i, (s.planner.pumps p).phase.unsubmitted i = 0 :=
      fun i => hphase ▸ (hnone rfl i).symm
    rcases hvictims with rfl | rfl
    · exact h.evicted slot _ hp hstamped (fun _ => rfl) hold
    · exact h.evicted slot _ hp hstamped (fun _ => rfl) hold
  | retries => exact h.reserved hp hstamped false fun i => hphase ▸ (hnone rfl i).symm
  | aborts => exact h.abort hp hphase

/-- A run goes to the engine with the stamp of its fetch, or the pump turns to the error branch. -/
theorem RestoreInv.submit_step (h : RestoreInv order s) {p : Nat} (hp : p < s.planner.pump_count)
    {refusal : Option Err} {planner : Backfills}
    (hstep : s.planner.submit_step p refusal = some planner) :
    RestoreInv order { planner, runs := s.submitted p refusal } := by
  have hstamped := h.phases p hp
  unfold Backfills.submit_step at hstep
  cases hphase : (s.planner.pumps p).phase with
  | submit slot stamp total issued =>
    rw [hphase] at hstamped
    obtain ⟨hless, hstamp⟩ := hstamped
    cases refusal with
    | some code =>
      simp only [hphase] at hstep
      cases hstep
      refine h.quiet hp trivial ?_
      intro i
      rw [hphase]
      rfl
    | none =>
      have hruns : s.submitted p none = (slot, stamp) :: s.runs := by
        simp only [Restore.submitted, hphase]
      -- the run changes hands, and the slot stays as it is
      have hmoved : ∀ phase : PumpPhase, phase.Stamped order s.planner.store →
          (∀ i, phase.unsubmitted i + (if slot = i then 1 else 0) =
            (s.planner.pumps p).phase.unsubmitted i) →
          RestoreInv order { planner := s.planner.go p phase, runs := s.submitted p none } := by
        intro phase hph hone
        refine ⟨h.store, h.fixed, h.backfill, ?_, ?_, ?_, h.slots⟩
        · intro q hq
          rw [go_phase]
          split
          · exact hph
          · exact h.phases q hq
        · intro r hr
          rw [hruns] at hr
          rcases List.mem_cons.mp hr with rfl | hold
          · exact hstamp
          · exact h.runs r hold
        · intro i
          have hgo := unsubmitted_go hp phase (s.submitted p none) i
          have hacc := h.accounted i
          have hsum := hone i
          have hfly : Restore.flying { planner := s.planner.go p phase, runs := s.submitted p none } i =
              s.flying i + if slot = i then 1 else 0 := by
            simp [Restore.flying, hruns, List.countP_cons]
          show _ = runs_left s.planner.store i
          omega
      simp only [hphase] at hstep
      split at hstep
      next hmore =>
        cases hstep
        refine hmoved _ ⟨hmore, hstamp⟩ ?_
        intro i
        rw [hphase, PumpPhase.unsubmitted, PumpPhase.unsubmitted]
        split <;> omega
      next hlast =>
        cases hstep
        refine hmoved _ trivial ?_
        intro i
        have hcheck : PumpPhase.unsubmitted i .check = 0 := rfl
        rw [hphase, hcheck, PumpPhase.unsubmitted]
        split <;> omega
  | _ =>
    simp only [hphase] at hstep
    cases hstep

/-- A run lands, with the stamp of its fetch. -/
theorem RestoreInv.land (h : RestoreInv order s) {k slot stamp : Nat} (ok : Bool)
    (hk : s.runs[k]? = some (slot, stamp)) :
    RestoreInv order
      { planner := { s.planner with store := (s.planner.store.finish_run slot ok stamp).2 }
        runs := s.runs.eraseIdx k } := by
  have hmem : (slot, stamp) ∈ s.runs := List.mem_of_getElem? hk
  have hpos : 0 < s.flying slot := flying_pos hmem
  obtain ⟨hslot, hfixed, hleft, hkey⟩ := h.reported (j := slot) (by omega) ok stamp
    fun _ => h.runs _ hmem
  obtain ⟨hsize, hother⟩ := finish_run_other s.planner.store slot ok stamp
  have hfly : ∀ i, (s.runs.eraseIdx k).countP (fun r => r.1 = i) + (if slot = i then 1 else 0) =
      s.flying i := by
    intro i
    have hlt : k < s.runs.length := (List.getElem?_eq_some_iff.mp hk).1
    have hperm := (List.getElem_cons_eraseIdx_perm hlt).countP_eq fun r => decide (r.1 = i)
    rw [Restore.flying, ← hperm, (List.getElem?_eq_some_iff.mp hk).2]
    simp [List.countP_cons]
  have hacc := h.accounted slot
  refine ⟨h.store.apply (.finish_run slot ok stamp), hfixed.trans h.fixed, h.backfill, ?_, ?_, ?_, ?_⟩
  · intro q hq
    refine (h.phases q hq).of_slots hother ?_
    intro hne
    have hle := PumpPhase.unsubmitted_le (s := s) hq slot
    exact hkey (by omega)
  · intro r hr
    show StampOf order ((s.planner.store.finish_run slot ok stamp).2.slots r.1).key r.2
    -- another run of this slot is still out, so that the slot keeps its key
    by_cases hr' : r.1 = slot
    · have hstill : 0 < (s.runs.eraseIdx k).countP fun r => r.1 = slot :=
        List.countP_pos_iff.mpr ⟨r, hr, by simp [hr']⟩
      have hsum := hfly slot
      rw [if_pos rfl] at hsum
      rw [hr', hkey (by omega), ← hr']
      exact h.runs r (List.mem_of_mem_eraseIdx hr)
    · rw [hother r.1 hr']
      exact h.runs r (List.mem_of_mem_eraseIdx hr)
  · intro i
    have hsum := hfly i
    have hacci := h.accounted i
    show (s.runs.eraseIdx k).countP (fun r => r.1 = i) + s.unsubmitted i =
      runs_left (s.planner.store.finish_run slot ok stamp).2 i
    by_cases hi : slot = i
    · subst hi
      rw [if_pos rfl] at hsum
      omega
    · rw [runs_left_of_slots hsize (hother i (Ne.symm hi))]
      rw [if_neg hi] at hsum
      omega
  · intro i hi
    show Restoring order ((s.planner.store.finish_run slot ok stamp).2.slots i)
    by_cases hij : i = slot
    · rw [hij]
      exact hslot
    · rw [hother i hij]
      exact h.slots i (hsize ▸ hi)

theorem RestoreInv.step (h : RestoreInv order s) {a : Restore.Action} (hstep : s.step a = some s') :
    RestoreInv order s' := by
  cases a with
  | pump p =>
    obtain ⟨planner, hplanner, rfl⟩ := Option.map_eq_some_iff.mp hstep
    simp only [Backfills.step] at hplanner
    split at hplanner
    next hp => exact h.pump_step hp hplanner
    · cases hplanner
  | submit p refusal =>
    obtain ⟨planner, hplanner, rfl⟩ := Option.map_eq_some_iff.mp hstep
    simp only [Backfills.step] at hplanner
    split at hplanner
    next hp => exact h.submit_step hp hplanner
    · cases hplanner
  | callback b =>
    obtain ⟨planner, hplanner, rfl⟩ := Option.map_eq_some_iff.mp hstep
    simp only [Backfills.step] at hplanner
    split at hplanner
    · cases hplanner
    · cases hplanner
      exact h.spawn_with b rfl rfl
  | stop =>
    have hstep' : (s.planner.step .stop).map (fun planner => { s with planner }) = some s' := hstep
    obtain ⟨planner, hplanner, rfl⟩ := Option.map_eq_some_iff.mp hstep'
    cases hplanner
    unfold Backfills.stop_backfill
    split
    · exact h
    · exact h.set_backfill _ rfl rfl
  | land k ok =>
    simp only [Restore.step] at hstep
    split at hstep
    · cases hstep
    next slot stamp hk =>
      obtain ⟨planner, hplanner, rfl⟩ := Option.map_eq_some_iff.mp hstep
      cases hplanner
      exact h.land ok hk

/-! ### Whole runs -/

/-- A store with no expert in it has no slot in use. -/
theorem Inv.all_free (hinv : Inv st) (hres : st.stats.resident = 0) (hfill : st.stats.filling = 0) :
    ∀ i < st.slots_size, (st.slots i).state = .Free := by
  rw [hinv.counts.resident, slots_with] at hres
  rw [hinv.counts.filling, slots_with] at hfill
  intro i hi
  cases hstate : (st.slots i).state with
  | Free => rfl
  | Resident =>
    have hpos := PointUpdate.count_pos (fun s : ExpertSlot => s.state = .Resident)
      (Finset.mem_range.mpr hi) (f := st.slots) hstate
    omega
  | Filling =>
    have hpos := PointUpdate.count_pos (fun s : ExpertSlot => s.state = .Filling)
      (Finset.mem_range.mpr hi) (f := st.slots) hstate
    omega

theorem RestoreInv.init (hinit : (restore_system order).init s) : RestoreInv order s := by
  obtain ⟨store, manifest, inflight, hreach, hres, hfill, hfixed, rfl⟩ := hinit
  have hinv := reachable_inv hreach
  have hfree := hinv.all_free hres hfill
  have hquiet : ∀ i, runs_left store i = 0 := by
    intro i
    rw [runs_left, if_neg]
    rintro ⟨hi, hfilling⟩
    rw [hfree i hi] at hfilling
    cases hfilling
  have hstopped : Backfills.stop_backfill { store, manifest } = { store, manifest } := rfl
  rw [Backfills.start_backfill, hstopped]
  dsimp only
  have hslots : ∀ i < store.slots_size, Restoring order (store.slots i) := by
    intro i hi
    refine ⟨fun hused => absurd (hfree i hi) hused, ?_, ?_⟩
    · intro hstate
      rw [hfree i hi] at hstate
      cases hstate
    · intro hstate
      rw [hfree i hi] at hstate
      cases hstate
  -- no pump and no run yet: only the backfills matter
  have hstart : ∀ (backfills : Nat → Backfill) (count : Nat),
      (∀ b, (backfills b).keep = false ∧ ∀ (rank : Nat) (key : ExpertKey),
        (backfills b).order[rank]? = some key → order[rank]? = some key) →
      RestoreInv order { planner := { store, manifest, backfills, backfill_count := count } } := by
    intro backfills count hback
    refine ⟨hinv, hfixed, hback, ?_, ?_, ?_, hslots⟩
    · intro q hq
      exact absurd hq (Nat.not_lt_zero q)
    · intro r hr
      cases hr
    · intro i
      exact (hquiet i).symm
  split
  · refine hstart _ _ ?_
    intro b
    exact ⟨rfl, fun rank key hkey => by cases hkey⟩
  · refine RestoreInv.spawn (hstart _ _ ?_) _
    intro b
    by_cases hb : b = 0
    · subst hb
      exact ⟨rfl, fun _ _ hkey => hkey⟩
    · unfold Backfills.set_backfill
      dsimp only
      rw [Function.update_of_ne hb]
      exact ⟨rfl, fun rank key hkey => by cases hkey⟩

theorem reachable_restore_inv (h : LTS.Reachable (restore_system order) s) : RestoreInv order s := by
  apply h.invariant
  · intro s hinit
    exact .init hinit
  · intro s a s' hinv hstep
    exact hinv.step hstep

/-- What a restore leaves Resident is one of the listed, in a slot with the stamp of its rank
    that neither a pin nor a guard protects. -/
theorem restored_stamp (h : LTS.Reachable (restore_system order) s) {key : ExpertKey} {i : Nat}
    (hi : s.planner.store.index key = some i)
    (hres : (s.planner.store.slots i).state = .Resident) :
    StampOf order key (s.planner.store.slots i).last_use_token ∧
      s.planner.store.is_evictable (s.planner.store.slots i) = true := by
  have hinv := reachable_restore_inv h
  obtain ⟨hlt, hused, hkey⟩ := (hinv.store.index key i).mp hi
  have hslot := hinv.slots i hlt
  obtain ⟨htier, hguard⟩ := hslot.tier hused
  refine ⟨hkey ▸ hslot.resident hres, ?_⟩
  simp [is_evictable, hres, htier, hguard]

end CachedMoe.Store
