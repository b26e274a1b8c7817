import CachedMoe.Framework.System
import CachedMoe.Store.Fill
import CachedMoe.Store.Victim

/-! # The idle backfill

    `start_backfill`, `backfill_pump` and the part of `fetch` and `reclaim` they run, of
    `store/planner.cpp`. A pump runs on the thread that starts the backfill and on the
    dispatcher thread after each of its fills, and the demand path uses the store at the
    same time: what a pump has read in one critical section need not hold in its next.

    "Never evict for a guess: only free slots." The pump looks for a free slot before it
    asks `fetch` for one, and `fetch` evicts when there is none left. -/

namespace CachedMoe.Store

open CachedMoe ExpertStore

/-! ### State -/

/-- Demand stamps start here. -/
def kDemandStampBase : Nat := 2 ^ 32

/-- `Planner::Backfill`. -/
structure Backfill where
  order : List ExpertKey := []
  /-- `m` is held by a pump. -/
  locked : Bool := false
  next : Nat := 0
  inflight : Nat := 0
  max_inflight : Nat := 2
  keep : Bool := false
  active : Bool := false
  /-- Fetches whose `on_done` may still run. -/
  callbacks : Nat := 0
  deriving Repr, DecidableEq

/-- Where a call of `backfill_pump` stands. -/
inductive PumpPhase where
  /-- At the top of the loop. -/
  | check
  /-- Under `m`, with the key of rank `rank`. -/
  | pick (rank : Nat) (key : ExpertKey)
  /-- In `fetch`, before `begin_fill`. -/
  | reserve (key : ExpertKey) (stamp : Nat)
  /-- `begin_fill` found no free slot: `reclaim(1)`. -/
  | reclaim (key : ExpertKey) (stamp : Nat)
  /-- In the loop of `reclaim` over its victims. -/
  | evict (key : ExpertKey) (stamp : Nat) (victims : List Nat)
  /-- `reclaim` freed a slot: `begin_fill` once more. -/
  | retry (key : ExpertKey) (stamp : Nat)
  /-- `issued` of `total` runs are with the engine. -/
  | submit (slot stamp total issued : Nat)
  /-- A run was refused: `rest` runs are still to be accounted for. -/
  | abort (slot stamp rest : Nat) (code : Err)
  /-- `fetch` returned an error. -/
  | failed (code : Err)
  | done
  deriving Repr, DecidableEq

structure Pump where
  backfill : Nat := 0
  phase : PumpPhase := .check
  deriving Repr, DecidableEq

structure Backfills where
  store : ExpertStore
  /-- `require_expert`. -/
  manifest : ExpertKey → Result ExpertEntry
  /-- Backfills `0 .. backfill_count - 1` were started; the last is the planner's own. -/
  backfills : Nat → Backfill := fun _ => {}
  backfill_count : Nat := 0
  pumps : Nat → Pump := fun _ => {}
  pump_count : Nat := 0

namespace Backfills

def set_backfill (s : Backfills) (b : Nat) (v : Backfill) : Backfills :=
  { s with backfills := Function.update s.backfills b v }

/-- Pump `p` goes on at `phase`. -/
def go (s : Backfills) (p : Nat) (phase : PumpPhase) : Backfills :=
  { s with pumps := Function.update s.pumps p { s.pumps p with phase := phase } }

/-- A call of `backfill_pump`. -/
def spawn (s : Backfills) (b : Nat) : Backfills :=
  { s with
    pumps := Function.update s.pumps s.pump_count { backfill := b }
    pump_count := s.pump_count + 1 }

/-! ### Steps -/

def stop_backfill (s : Backfills) : Backfills :=
  if s.backfill_count = 0 then s
  else
    let b := s.backfill_count - 1
    s.set_backfill b { s.backfills b with active := false }

def start_backfill (s : Backfills) (order : List ExpertKey) (inflight : Nat) (keep : Bool) :
    Backfills :=
  let s := s.stop_backfill
  if order.length ≥ kDemandStampBase then s
  else
    let b := { order, max_inflight := max 1 inflight, keep, active := true : Backfill }
    { s.set_backfill s.backfill_count b with backfill_count := s.backfill_count + 1 }.spawn
      s.backfill_count

/-- `fetch` after `begin_fill`; only the first refusal for want of a slot is followed by
    `reclaim`. -/
def reserved (s : Backfills) (p : Nat) (key : ExpertKey) (stamp : Nat) (first : Bool) : Backfills :=
  match s.manifest key with
  | .error e => s.go p (.failed e.code)
  | .ok entry =>
    match s.store.begin_fill key entry .Cached with
    | (.error e, store) =>
      if first ∧ e.code = .ResourceExhausted then { s with store := store }.go p (.reclaim key stamp)
      else { s with store := store }.go p (.failed e.code)
    | (.ok res, store) =>
      let b := (s.pumps p).backfill
      let v := s.backfills b
      ({ s with store := store }.set_backfill b { v with callbacks := v.callbacks + 1 }).go p
        (.submit res.slot stamp res.run_count 0)

/-- The next step of pump `p`. -/
def pump_step (s : Backfills) (p : Nat) : Option Backfills :=
  let b := (s.pumps p).backfill
  let v := s.backfills b
  match (s.pumps p).phase with
  | .check =>
    if v.locked then none
    else if !v.active ∨ v.inflight ≥ v.max_inflight then some (s.go p .done)
    else if s.store.free_slots = 0 ∨ v.next ≥ v.order.length then
      let s := if v.inflight = 0 then s.set_backfill b { v with active := false } else s
      some (s.go p .done)
    else
      let s := s.set_backfill b { v with next := v.next + 1, locked := true }
      some (s.go p (.pick v.next (v.order.getD v.next {})))
  | .pick rank key =>
    if (s.store.slot_of key).isSome then
      some ((s.set_backfill b { v with locked := false }).go p .check)
    else
      let stamp := if v.keep then kDemandStampBase + rank else kDemandStampBase - 1 - rank
      let s := s.set_backfill b { v with locked := false, inflight := inc32 v.inflight }
      some (s.go p (.reserve key stamp))
  | .reserve key stamp => some (s.reserved p key stamp true)
  | .reclaim key stamp =>
    let candidates := s.store.evictable
    if candidates = [] then some (s.go p (.failed .ResourceExhausted))
    else some (s.go p (.evict key stamp (choose_victims candidates (min candidates.length 2))))
  | .evict _ _ [] => some (s.go p (.failed .ResourceExhausted))
  | .evict key stamp (slot :: victims) =>
    match s.store.evict slot with
    | (.ok (), store) => some ({ s with store := store }.go p (.retry key stamp))
    | (.error _, store) => some ({ s with store := store }.go p (.evict key stamp victims))
  | .retry key stamp => some (s.reserved p key stamp false)
  | .submit _ _ _ _ => none
  | .abort _ _ 0 code => some (s.go p (.failed code))
  | .abort slot stamp (rest + 1) code =>
    some ({ s with store := (s.store.finish_run slot false stamp).2 }.go p
      (.abort slot stamp rest code))
  | .failed code =>
    if v.locked then none
    else if code = .AlreadyExists then
      some ((s.set_backfill b { v with inflight := dec32 v.inflight }).go p .check)
    else
      some ((s.set_backfill b { v with inflight := dec32 v.inflight, active := false }).go p .done)
  | .done => none

/-- The next run of pump `p`'s fetch: taken by the engine, or refused. -/
def submit_step (s : Backfills) (p : Nat) (refusal : Option Err) : Option Backfills :=
  match (s.pumps p).phase, refusal with
  | .submit slot stamp total issued, none =>
    if issued + 1 < total then some (s.go p (.submit slot stamp total (issued + 1)))
    else some (s.go p .check)
  | .submit slot stamp total issued, some code => some (s.go p (.abort slot stamp (total - issued) code))
  | _, _ => none

/-- Actions of the threads. -/
inductive Action where
  | start (order : List ExpertKey) (inflight : Nat) (keep : Bool)
  | stop
  | pump (p : Nat)
  | submit (p : Nat) (refusal : Option Err)
  /-- `on_done` of a fetch of backfill `b`, up to its call of `backfill_pump`. -/
  | callback (b : Nat)
  /-- Any other use of the store: the demand path, and the reports of runs that landed. -/
  | store (op : Op)

def step (s : Backfills) : Action → Option Backfills
  | .start order inflight keep => some (s.start_backfill order inflight keep)
  | .stop => some s.stop_backfill
  | .pump p => if p < s.pump_count then s.pump_step p else none
  | .submit p refusal => if p < s.pump_count then s.submit_step p refusal else none
  | .callback b =>
    let v := s.backfills b
    if v.locked ∨ v.callbacks = 0 then none
    else some ((s.set_backfill b { v with
      inflight := dec32 v.inflight, callbacks := v.callbacks - 1 }).spawn b)
  | .store op => some { s with store := s.store.apply op }

/-- The steps of the backfill itself. -/
def Action.by_backfill : Action → Bool
  | .store _ => false
  | _ => true

end Backfills

open Backfills

/-- A planner with a store in use and no backfill yet. -/
def backfill_system : LTS.System Backfills Backfills.Action :=
  .ofNext
    (fun s => ∃ store manifest, LTS.Reachable store_system store ∧ s = { store, manifest })
    Backfills.step

/-! ### What a fetch leaves alone -/

variable {st st' : ExpertStore}

/-- Every expert that was Resident is Resident where it was. -/
def KeepsResidents (st st' : ExpertStore) : Prop :=
  ∀ key i, st.index key = some i → (st.slots i).state = .Resident →
    st'.index key = some i ∧ (st'.slots i).state = .Resident

theorem KeepsResidents.refl (st : ExpertStore) : KeepsResidents st st :=
  fun _ _ hi hres => ⟨hi, hres⟩

theorem KeepsResidents.of_slots (hinv : Inv st) (hinv' : Inv st')
    (hsize : st'.slots_size = st.slots_size)
    (hslots : ∀ i, (st.slots i).state = .Resident → st'.slots i = st.slots i) :
    KeepsResidents st st' := by
  intro key i hi hres
  obtain ⟨hlt, hused, hkey⟩ := (hinv.index key i).mp hi
  have hsame := hslots i hres
  refine ⟨(hinv'.index key i).mpr ⟨hsize ▸ hlt, ?_, ?_⟩, ?_⟩
  · rw [hsame]
    exact hused
  · rw [hsame]
    exact hkey
  · rw [hsame]
    exact hres

theorem begin_fill_keeps_residents (hinv : Inv st) (key : ExpertKey) (entry : ExpertEntry)
    (tier : Tier) : KeepsResidents st (st.begin_fill key entry tier).2 := by
  have hinv' := hinv.apply (.begin_fill key entry tier)
  rw [ExpertStore.apply] at hinv'
  cases hres : st.begin_fill key entry tier with
  | mk r st₁ =>
    rw [hres] at hinv'
    cases r with
    | error e =>
      obtain rfl := begin_fill_error hres
      exact .refl st₁
    | ok res =>
      obtain ⟨_, _, hfree, hsize, hother⟩ := begin_fill_ok hinv hres
      refine .of_slots hinv hinv' hsize ?_
      intro i hi
      refine hother i ?_
      intro heq
      rw [heq, hfree] at hi
      cases hi

theorem finish_run_keeps_residents (hinv : Inv st) (slot : Nat) (ok : Bool) (token : Nat) :
    KeepsResidents st (st.finish_run slot ok token).2 := by
  obtain ⟨hsize, hother⟩ := finish_run_other st slot ok token
  refine .of_slots hinv (hinv.apply (.finish_run slot ok token)) hsize ?_
  intro i hi
  by_cases heq : i = slot
  · -- a report on a Resident slot is refused
    subst heq
    unfold ExpertStore.finish_run
    dsimp only
    split
    · rfl
    · rw [if_pos]
      rw [hi]
      decide
  · exact hother i heq

/-! ### A slot is left -/

/-- The store has a slot left for the key, or holds it. -/
def SlotLeft (st : ExpertStore) (key : ExpertKey) : Prop :=
  st.cache_frozen = false ∧ (st.free_slots ≠ 0 ∨ (st.slot_of key).isSome)

instance (st : ExpertStore) (key : ExpertKey) : Decidable (SlotLeft st key) :=
  inferInstanceAs (Decidable (_ ∧ _))

theorem SlotLeft.begin_fill {key : ExpertKey} (h : SlotLeft st key) (entry : ExpertEntry)
    (tier : Tier) {e : Status} (he : (st.begin_fill key entry tier).1 = .error e) :
    e.code ≠ .ResourceExhausted := by
  obtain ⟨hfrozen, hleft⟩ := h
  have hres : ∀ {e}, (st.reserve_locked key tier).1 = .error e → e.code ≠ .ResourceExhausted := by
    intro e he
    unfold reserve_locked at he
    rw [if_neg (by rw [hfrozen]; decide)] at he
    split at he
    · cases he
      simp
    split at he
    · cases he
      simp
    next habsent =>
    split at he
    next hempty =>
      rw [free_slots, hempty, slot_of, habsent] at hleft
      simp at hleft
    · cases he
  unfold ExpertStore.begin_fill at he
  dsimp only at he
  split at he
  · cases he
    simp
  split at he
  · cases he
    simp
  split at he
  · cases he
    simp
  split at he
  next heq =>
    cases he
    exact hres (by rw [heq])
  · cases he

/-- The key a pump is about to ask `begin_fill` for. -/
def PumpPhase.reserving : PumpPhase → Option ExpertKey
  | .reserve key _ => some key
  | _ => none

def Backfills.Action.reserves (s : Backfills) : Backfills.Action → Option ExpertKey
  | .pump p => (s.pumps p).phase.reserving
  | _ => none

/-- A pump that is about to reserve finds a slot left. -/
def Backfills.Action.FindsSlot (s : Backfills) (a : Backfills.Action) : Prop :=
  ∀ key ∈ a.reserves s, SlotLeft s.store key

instance (s : Backfills) (a : Backfills.Action) : Decidable (a.FindsSlot s) :=
  inferInstanceAs (Decidable (∀ key ∈ a.reserves s, SlotLeft s.store key))

/-- The phases in which a pump evicts. -/
def PumpPhase.reclaims : PumpPhase → Bool
  | .reclaim .. | .evict .. | .retry .. => true
  | _ => false

/-- No pump is out to evict. -/
structure BackfillInv (s : Backfills) : Prop where
  store : Inv s.store
  phases : ∀ p, (s.pumps p).phase.reclaims = false

section Step

variable {s s' : Backfills}

/-- One pump moved to a phase that does not evict. -/
theorem BackfillInv.go (h : BackfillInv s) (p : Nat) {phase : PumpPhase}
    (hphase : phase.reclaims = false) : BackfillInv (s.go p phase) := by
  refine ⟨h.store, ?_⟩
  intro q
  unfold Backfills.go
  by_cases hq : q = p
  · subst hq
    simpa using hphase
  · simpa [Function.update_of_ne hq] using h.phases q

theorem BackfillInv.set_backfill (h : BackfillInv s) (b : Nat) (v : Backfill) :
    BackfillInv (s.set_backfill b v) :=
  ⟨h.store, h.phases⟩

theorem BackfillInv.set_store (h : BackfillInv s) (hst : Inv st) :
    BackfillInv { s with store := st } :=
  ⟨hst, h.phases⟩

theorem BackfillInv.spawn (h : BackfillInv s) (b : Nat) : BackfillInv (s.spawn b) := by
  refine ⟨h.store, ?_⟩
  intro q
  unfold Backfills.spawn
  by_cases hq : q = s.pump_count
  · subst hq
    simp [PumpPhase.reclaims]
  · simpa [Function.update_of_ne hq] using h.phases q

theorem BackfillInv.stop (h : BackfillInv s) : BackfillInv s.stop_backfill := by
  unfold Backfills.stop_backfill
  split
  · exact h
  · exact h.set_backfill _ _

theorem BackfillInv.start (h : BackfillInv s) (order : List ExpertKey) (inflight : Nat)
    (keep : Bool) : BackfillInv (s.start_backfill order inflight keep) := by
  unfold Backfills.start_backfill
  dsimp only
  split
  · exact h.stop
  · refine BackfillInv.spawn ?_ _
    exact ⟨h.stop.store, h.stop.phases⟩

theorem stop_backfill_store (s : Backfills) : s.stop_backfill.store = s.store := by
  unfold Backfills.stop_backfill
  split
  · rfl
  · rfl

theorem start_backfill_store (s : Backfills) (order : List ExpertKey) (inflight : Nat)
    (keep : Bool) : (s.start_backfill order inflight keep).store = s.store := by
  unfold Backfills.start_backfill
  dsimp only
  split
  · exact stop_backfill_store s
  · exact stop_backfill_store s

/-- `fetch` with a slot left: it reserves, or fails without a reclaim. -/
theorem BackfillInv.reserved (h : BackfillInv s) (p : Nat) {key : ExpertKey} (stamp : Nat)
    (hleft : SlotLeft s.store key) :
    BackfillInv (s.reserved p key stamp true) ∧
      KeepsResidents s.store (s.reserved p key stamp true).store := by
  unfold Backfills.reserved
  split
  · exact ⟨h.go p rfl, .refl _⟩
  next entry _ =>
  have hkeeps := begin_fill_keeps_residents h.store key entry .Cached
  have hinv := h.store.apply (.begin_fill key entry .Cached)
  rw [ExpertStore.apply] at hinv
  split
  next e store hres =>
    have hcode := hleft.begin_fill entry .Cached (e := e) (by rw [hres])
    rw [hres] at hkeeps hinv
    rw [if_neg (fun hand => hcode hand.2)]
    exact ⟨(h.set_store hinv).go p rfl, hkeeps⟩
  next res store hres =>
    rw [hres] at hkeeps hinv
    exact ⟨((h.set_store hinv).set_backfill _ _).go p rfl, hkeeps⟩

/-- In no fetch. -/
def PumpPhase.rests : PumpPhase → Bool
  | .check | .done | .failed _ => true
  | _ => false

theorem PumpPhase.reclaims_of_rests {phase : PumpPhase} (h : phase.rests = true) :
    phase.reclaims = false := by
  cases phase with
  | check | done | failed => rfl
  | _ => cases h

/-- No run of a fetch is left to submit or to account for. -/
def PumpPhase.spent : PumpPhase → Bool
  | .submit .. | .abort _ _ (_ + 1) _ => false
  | _ => true

/-- All that a step of pump `p` can do, by the phase it is in; where it writes to its backfill, the
    order and `keep` stay. -/
inductive Pumps (s : Backfills) (p : Nat) : PumpPhase → Backfills → Prop where
  | rests {phase phase' : PumpPhase} (v : Backfill) (hspent : phase.spent = true)
      (hrests : phase'.rests = true)
      (hv : v.order = (s.backfills (s.pumps p).backfill).order ∧
        v.keep = (s.backfills (s.pumps p).backfill).keep) :
      Pumps s p phase ((s.set_backfill (s.pumps p).backfill v).go p phase')
  | picks (v : Backfill) (key : ExpertKey)
      (hkey : v.order[(s.backfills (s.pumps p).backfill).next]? = some key)
      (hv : v.order = (s.backfills (s.pumps p).backfill).order ∧
        v.keep = (s.backfills (s.pumps p).backfill).keep) :
      Pumps s p .check ((s.set_backfill (s.pumps p).backfill v).go p
        (.pick (s.backfills (s.pumps p).backfill).next key))
  | fetches {rank : Nat} {key : ExpertKey} (v : Backfill)
      (hv : v.order = (s.backfills (s.pumps p).backfill).order ∧
        v.keep = (s.backfills (s.pumps p).backfill).keep) :
      Pumps s p (.pick rank key) ((s.set_backfill (s.pumps p).backfill v).go p
        (.reserve key (if v.keep then kDemandStampBase + rank else kDemandStampBase - 1 - rank)))
  | reserves {key : ExpertKey} {stamp : Nat} :
      Pumps s p (.reserve key stamp) (s.reserved p key stamp true)
  | reclaims {key : ExpertKey} {stamp : Nat} (victims : List Nat) :
      Pumps s p (.reclaim key stamp) (s.go p (.evict key stamp victims))
  | evicts {key : ExpertKey} {stamp slot : Nat} {victims : List Nat} (phase' : PumpPhase)
      (hphase : phase' = .retry key stamp ∨ phase' = .evict key stamp victims) :
      Pumps s p (.evict key stamp (slot :: victims))
        ({ s with store := (s.store.evict slot).2 }.go p phase')
  | retries {key : ExpertKey} {stamp : Nat} :
      Pumps s p (.retry key stamp) (s.reserved p key stamp false)
  | aborts {slot stamp rest : Nat} {code : Err} :
      Pumps s p (.abort slot stamp (rest + 1) code)
        ({ s with store := (s.store.finish_run slot false stamp).2 }.go p
          (.abort slot stamp rest code))

theorem Pumps.goes {p : Nat} {phase phase' : PumpPhase} (hspent : phase.spent = true)
    (hrests : phase'.rests = true) : Pumps s p phase (s.go p phase') := by
  have hkept := Pumps.rests (s := s) (p := p) (s.backfills (s.pumps p).backfill) hspent hrests
    ⟨rfl, rfl⟩
  rwa [Backfills.set_backfill, Function.update_eq_self] at hkept

theorem pump_step_cases {p : Nat} (hstep : s.pump_step p = some s') :
    Pumps s p (s.pumps p).phase s' := by
  unfold Backfills.pump_step at hstep
  dsimp only at hstep
  cases hp : (s.pumps p).phase with
  | check =>
    simp only [hp] at hstep
    split at hstep
    · cases hstep
    split at hstep
    · cases hstep
      exact .goes rfl rfl
    split at hstep
    · cases hstep
      split
      · exact .rests _ rfl rfl ⟨rfl, rfl⟩
      · exact .goes rfl rfl
    next hroom =>
      cases hstep
      -- there is a next key
      have hlt : (s.backfills (s.pumps p).backfill).next <
          (s.backfills (s.pumps p).backfill).order.length := by
        have hboth := not_or.mp hroom
        omega
      refine .picks _ _ ?_ ⟨rfl, rfl⟩
      rw [List.getD, List.getElem?_eq_getElem hlt, Option.getD_some]
  | pick rank key =>
    simp only [hp] at hstep
    split at hstep
    · cases hstep
      exact .rests _ rfl rfl ⟨rfl, rfl⟩
    · cases hstep
      exact .fetches { s.backfills (s.pumps p).backfill with
        locked := false, inflight := inc32 (s.backfills (s.pumps p).backfill).inflight } ⟨rfl, rfl⟩
  | reserve key stamp =>
    simp only [hp] at hstep
    cases hstep
    exact .reserves
  | reclaim key stamp =>
    simp only [hp] at hstep
    split at hstep
    · cases hstep
      exact .goes rfl rfl
    · cases hstep
      exact .reclaims _
  | evict key stamp victims =>
    cases victims with
    | nil =>
      simp only [hp] at hstep
      cases hstep
      exact .goes rfl rfl
    | cons slot victims =>
      simp only [hp] at hstep
      split at hstep
      next store heq =>
        cases hstep
        have hevicts : Pumps s p (.evict key stamp (slot :: victims)) _ :=
          .evicts (.retry key stamp) (.inl rfl)
        rwa [heq] at hevicts
      next e store heq =>
        cases hstep
        have hevicts : Pumps s p (.evict key stamp (slot :: victims)) _ :=
          .evicts (.evict key stamp victims) (.inr rfl)
        rwa [heq] at hevicts
  | retry key stamp =>
    simp only [hp] at hstep
    cases hstep
    exact .retries
  | submit slot stamp total issued =>
    simp only [hp] at hstep
    cases hstep
  | abort slot stamp rest code =>
    cases rest with
    | zero =>
      simp only [hp] at hstep
      cases hstep
      exact .goes rfl rfl
    | succ rest =>
      simp only [hp] at hstep
      cases hstep
      exact .aborts
  | failed code =>
    simp only [hp] at hstep
    split at hstep
    · cases hstep
    split at hstep
    · cases hstep
      exact .rests _ rfl rfl ⟨rfl, rfl⟩
    · cases hstep
      exact .rests _ rfl rfl ⟨rfl, rfl⟩
  | done =>
    simp only [hp] at hstep
    cases hstep

theorem BackfillInv.pump_step (h : BackfillInv s) {p : Nat} (hslot : Action.FindsSlot s (.pump p))
    (hstep : s.pump_step p = some s') :
    BackfillInv s' ∧ KeepsResidents s.store s'.store := by
  have hphase := h.phases p
  have hpumps := pump_step_cases hstep
  generalize hp : (s.pumps p).phase = phase at hphase hpumps
  cases hpumps with
  | rests v _ hrests => exact ⟨(h.set_backfill _ v).go p (PumpPhase.reclaims_of_rests hrests), .refl _⟩
  | picks v => exact ⟨(h.set_backfill _ v).go p rfl, .refl _⟩
  | fetches v => exact ⟨(h.set_backfill _ v).go p rfl, .refl _⟩
  | @reserves key stamp =>
    have hkey : key ∈ Action.reserves s (.pump p) := by simp [Action.reserves, hp, PumpPhase.reserving]
    exact h.reserved p stamp (hslot key hkey)
  | reclaims | evicts | retries => cases hphase
  | @aborts slot stamp rest code =>
    have hinv := h.store.apply (.finish_run slot false stamp)
    exact ⟨(h.set_store hinv).go p rfl, finish_run_keeps_residents h.store slot false stamp⟩

theorem BackfillInv.submit_step (h : BackfillInv s) {p : Nat} {refusal : Option Err}
    (hstep : s.submit_step p refusal = some s') :
    BackfillInv s' ∧ KeepsResidents s.store s'.store := by
  unfold Backfills.submit_step at hstep
  split at hstep
  · split at hstep
    · cases hstep
      exact ⟨h.go p rfl, .refl _⟩
    · cases hstep
      exact ⟨h.go p rfl, .refl _⟩
  · cases hstep
    exact ⟨h.go p rfl, .refl _⟩
  · cases hstep

/-- Every step of a backfill that finds a slot when it reserves keeps the Residents, and
    leaves no pump out to evict. -/
theorem BackfillInv.step (h : BackfillInv s) {a : Action} (hslot : a.FindsSlot s)
    (hstep : s.step a = some s') :
    BackfillInv s' ∧ (a.by_backfill → KeepsResidents s.store s'.store) := by
  cases a with
  | start order inflight keep =>
    cases hstep
    refine ⟨h.start order inflight keep, fun _ => ?_⟩
    rw [start_backfill_store]
    exact .refl _
  | stop =>
    cases hstep
    refine ⟨h.stop, fun _ => ?_⟩
    rw [stop_backfill_store]
    exact .refl _
  | pump p =>
    simp only [Backfills.step] at hstep
    split at hstep
    · exact (h.pump_step hslot hstep).imp_right fun hk _ => hk
    · cases hstep
  | submit p refusal =>
    simp only [Backfills.step] at hstep
    split at hstep
    · exact (h.submit_step hstep).imp_right fun hk _ => hk
    · cases hstep
  | callback b =>
    simp only [Backfills.step] at hstep
    split at hstep
    · cases hstep
    · cases hstep
      exact ⟨(h.set_backfill _ _).spawn b, fun _ => .refl _⟩
  | store op =>
    cases hstep
    exact ⟨h.set_store (h.store.apply op), nofun⟩

end Step

/-- In every run in which a pump that reserves finds a slot left, no step of the backfill
    evicts a Resident. -/
theorem backfill_never_evicts {s s' : Backfills} {a : Action}
    (h : LTS.Reachable (backfill_system.restrict fun s a => a.FindsSlot s) s)
    (hstep : (backfill_system.restrict fun s a => a.FindsSlot s).step s a s')
    (hb : a.by_backfill) : KeepsResidents s.store s'.store := by
  have hinv : BackfillInv s := by
    refine h.invariant ?_ ?_
    · intro s hinit
      obtain ⟨store, manifest, hstore, rfl⟩ := hinit
      exact ⟨reachable_inv hstore, fun _ => rfl⟩
    · intro s a s' hinv hstep
      exact (hinv.step hstep.2 hstep.1).1
  exact (hinv.step hstep.2 hstep.1).2 hb

/-! ### The last slot is taken in between -/

/-- A planner over `half_pair`, every expert of which is read in two runs. -/
def half_planner : Backfills := { store := half_pair, manifest := fun _ => .ok two_runs }

theorem half_planner_init : backfill_system.init half_planner :=
  ⟨half_pair, _, half_pair_reachable, rfl⟩

/-- A pump finds the free slot, and reserves it. -/
def found_run : List Action := [.start [⟨0, 2⟩] 2 false, .pump 0, .pump 0]

theorem backfill_never_evicts_found :
    ∃ s s', (backfill_system.restrict fun s a => a.FindsSlot s).step s (.pump 0) s' ∧
      s.store.index ⟨0, 1⟩ = some 0 ∧ s'.store.index ⟨0, 1⟩ = some 0 := by
  obtain ⟨s, hreach, hs⟩ := LTS.Reachable.of_guarded Backfills.step (fun s a => a.FindsSlot s)
    found_run (fun s => (s.step (.pump 0)).isSome ∧ Action.FindsSlot s (.pump 0) ∧
      s.store.index ⟨0, 1⟩ = some 0 ∧ (s.store.slots 0).state = .Resident) half_planner_init
    (by decide)
  simp only [Bool.decide_and, Bool.and_eq_true, decide_eq_true_eq] at hs
  obtain ⟨hsome, hslot, hindex, hres⟩ := hs
  obtain ⟨s', hstep⟩ := Option.isSome_iff_exists.mp hsome
  refine ⟨s, s', ⟨hstep, hslot⟩, hindex, ?_⟩
  exact (backfill_never_evicts hreach ⟨hstep, hslot⟩ rfl _ 0 hindex hres).1

/-- The first fill of a backfill lands, and its callback's pump finds the last free slot;
    a demand miss takes that slot, so the pump's `fetch` evicts. -/
def raced_run : List Action :=
  [.start [⟨0, 1⟩, ⟨0, 2⟩] 1 false, .pump 0, .pump 0, .pump 0, .submit 0 none, .submit 0 none,
    .pump 0, .store (.finish_run 0 true 4294967295), .store (.finish_run 0 true 4294967295),
    .callback 0, .pump 1, .pump 1, .store (.begin_fill ⟨0, 3⟩ two_runs .Cached), .pump 1, .pump 1]

def pair_planner : Backfills := { store := pair_store, manifest := fun _ => .ok two_runs }

theorem pair_planner_init : backfill_system.init pair_planner :=
  ⟨pair_store, _, .of_init ⟨{}, _, _, _, _, pair_store_init⟩, rfl⟩

theorem raced_backfill_evicts :
    ¬ ∀ s s' a, LTS.Reachable backfill_system s → backfill_system.step s a s' → a.by_backfill →
      KeepsResidents s.store s'.store := by
  intro hclaim
  obtain ⟨s, hreach, hs⟩ := LTS.Reachable.of_execute Backfills.step raced_run
    (fun s => s.store.index ⟨0, 1⟩ = some 0 ∧ (s.store.slots 0).state = .Resident ∧
      (s.step (.pump 1)).any fun s' => s'.store.index ⟨0, 1⟩ = none) pair_planner_init
    (by decide +kernel)
  simp only [Bool.decide_and, Bool.and_eq_true, decide_eq_true_eq, Option.any_eq_true] at hs
  obtain ⟨hindex, hres, s', hstep, hgone⟩ := hs
  have hkept := (hclaim s s' (.pump 1) hreach hstep rfl _ 0 hindex hres).1
  rw [hgone] at hkept
  cases hkept

end CachedMoe.Store
