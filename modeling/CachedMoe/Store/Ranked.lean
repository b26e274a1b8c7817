import CachedMoe.Store.Restore
import CachedMoe.Store.Stamps

/-! # The ranks of a backfill

    The backfills of `store/planner.cpp` beside the demand path: the pumps and their fetches, the
    reports of their runs in any order, each with the stamp of its fetch, and any other use of the
    store in between. Beside what the code keeps it is written down which rank a pump is at, and
    which rank of which backfill a slot was filled for, until the expert in it is used or leaves.

    "The default P3 stamp is below every demand stamp; `keep` is stamped like demand instead." -/

namespace CachedMoe.Store

open CachedMoe ExpertStore

/-! ### The system -/

/-- The stamp a pump gives the key of a rank. -/
def Backfill.stamp (v : Backfill) (rank : Nat) : Nat :=
  if v.keep then kDemandStampBase + rank else kDemandStampBase - 1 - rank

structure Ranked extends Restore where
  /-- The rank each pump is at. -/
  ranks : Nat → Nat := fun _ => 0
  /-- The backfill and the rank a slot was filled for, while nobody has used it since. -/
  filled : Nat → Option (Nat × Nat) := fun _ => none

namespace Ranked

inductive Action where
  | start (order : List ExpertKey) (inflight : Nat) (keep : Bool)
  /-- A step of a backfill, or a run of one that lands. -/
  | fill (a : Restore.Action)
  /-- Any other use of the store. -/
  | use (op : Op)

/-- Runs of a fetch into the slot are with the engine, or with a pump. -/
def Owned (s : Ranked) (i : Nat) : Prop := 0 < s.flying i + s.unsubmitted i

instance (s : Ranked) (i : Nat) : Decidable (s.Owned i) :=
  inferInstanceAs (Decidable (_ < _))

/-- A pump takes a rank under the lock, and a slot for it in `fetch`. -/
def noted (s : Ranked) (r : Restore) : Restore.Action → Ranked
  | .pump p =>
    match (r.planner.pumps p).phase with
    | .pick rank _ => { s with toRestore := r, ranks := Function.update s.ranks p rank }
    | .submit slot _ _ _ =>
      { s with
        toRestore := r
        filled := Function.update s.filled slot
          (some ((r.planner.pumps p).backfill, s.ranks p)) }
    | _ => { s with toRestore := r }
  | _ => { s with toRestore := r }

/-- What is gone is not written down any more. -/
def sweep (s : Ranked) : Ranked :=
  { s with filled := fun i => if (s.planner.store.slots i).state = .Free then none else s.filled i }

def used (s : Ranked) (op : Op) : Ranked :=
  { s with
    planner := { s.planner with store := s.planner.store.apply op }
    filled := fun i => if op.uses s.planner.store i then none else s.filled i }

def act (s : Ranked) : Action → Option Ranked
  | .start order inflight keep =>
    some { s with planner := s.planner.start_backfill order inflight keep }
  | .fill a => (s.toRestore.step a).map fun r => s.noted r a
  | .use op =>
    if op.keeps_contents ∧ ∀ slot ∈ op.finishes, ¬ s.Owned slot then some (s.used op) else none

def step (s : Ranked) (a : Action) : Option Ranked := (s.act a).map sweep

end Ranked

/-- A planner with a store in use and no backfill yet. -/
def ranked_system : LTS.System Ranked Ranked.Action :=
  .ofNext
    (fun s => ∃ store manifest, LTS.Reachable store_system store ∧
      s = { planner := { store, manifest } })
    Ranked.step

/-! ### What is known -/

/-- The stamp of a fetch is that of the rank its slot is filled for. -/
def StampFits (s : Ranked) (slot stamp : Nat) : Prop :=
  ∀ b rank, s.filled slot = some (b, rank) → stamp = (s.planner.backfills b).stamp rank

/-- What is known of a pump of the backfill `v` at a rank. -/
def PumpPhase.Ranks (v : Backfill) (rank : Nat) (fits : Nat → Nat → Prop) : PumpPhase → Prop
  | .pick r key => r = rank ∧ v.order[r]? = some key
  | .reserve key stamp => v.order[rank]? = some key ∧ stamp = v.stamp rank
  | .reclaim key stamp => v.order[rank]? = some key ∧ stamp = v.stamp rank
  | .evict key stamp _ => v.order[rank]? = some key ∧ stamp = v.stamp rank
  | .retry key stamp => v.order[rank]? = some key ∧ stamp = v.stamp rank
  | .submit slot stamp total issued => issued < total ∧ fits slot stamp
  | _ => True

/-- What the pumps, the backfills and the runs are known by. -/
structure RankBooks (s : Ranked) : Prop where
  pumps : ∀ p < s.planner.pump_count, (s.planner.pumps p).backfill < s.planner.backfill_count
  fresh : ∀ b, s.planner.backfill_count ≤ b → (s.planner.backfills b).callbacks = 0
  short : ∀ b, (s.planner.backfills b).order.length < kDemandStampBase
  phases : ∀ p < s.planner.pump_count, (s.planner.pumps p).phase.Ranks
    (s.planner.backfills (s.planner.pumps p).backfill) (s.ranks p) (StampFits s)
  runs : ∀ r ∈ s.runs, StampFits s r.1 r.2

/-- Slot `i` is being filled for a rank, or holds its expert with its stamp. -/
structure Marked (s : Ranked) (i b rank : Nat) : Prop where
  lt : i < s.planner.store.slots_size
  started : b < s.planner.backfill_count
  key : (s.planner.backfills b).order[rank]? = some (s.planner.store.slots i).key
  state : ((s.planner.store.slots i).state = .Filling ∧
      (s.planner.store.slots i).last_use_token = 0 ∧ s.Owned i) ∨
    ((s.planner.store.slots i).state = .Resident ∧
      (s.planner.store.slots i).last_use_token = (s.planner.backfills b).stamp rank)

structure RankInv (s : Ranked) : Prop where
  store : Inv s.planner.store
  books : RankBooks s
  accounted : ∀ i, s.Owned i → s.flying i + s.unsubmitted i = runs_left s.planner.store i
  filled : ∀ i b rank, s.filled i = some (b, rank) → Marked s i b rank

variable {s s' : Ranked}

theorem Marked.held {i b rank : Nat} (h : Marked s i b rank) :
    (s.planner.store.slots i).state ≠ .Free := by
  rcases h.state with ⟨hstate, -⟩ | ⟨hstate, -⟩
  · rw [hstate]
    decide
  · rw [hstate]
    decide

theorem RankInv.filling (h : RankInv s) {i : Nat} (hown : s.Owned i) :
    i < s.planner.store.slots_size ∧ (s.planner.store.slots i).state = .Filling ∧
      (s.planner.store.slots i).runs_done < (s.planner.store.slots i).runs_total := by
  have hacc := h.accounted i hown
  unfold Ranked.Owned at hown
  rw [hacc, runs_left] at hown
  split at hown
  next hfill => exact ⟨hfill.1, hfill.2, by omega⟩
  · omega

theorem RankInv.not_owned (h : RankInv s) {i : Nat}
    (hstate : (s.planner.store.slots i).state ≠ .Filling) : ¬ s.Owned i :=
  fun hown => hstate (h.filling hown).2.1

/-! ### Frames -/

/-- Two backfills with the same order and the same stamps. -/
structure SameOrder (v v' : Backfill) : Prop where
  order : v'.order = v.order
  keep : v'.keep = v.keep

theorem SameOrder.stamp {v v' : Backfill} (h : SameOrder v v') (rank : Nat) :
    v'.stamp rank = v.stamp rank := by
  rw [Backfill.stamp, Backfill.stamp, h.keep]

theorem PumpPhase.Ranks.mono {v v' : Backfill} {rank : Nat} {fits fits' : Nat → Nat → Prop}
    {phase : PumpPhase} (h : phase.Ranks v rank fits) (hv : SameOrder v v')
    (hfits : ∀ slot stamp, phase.unsubmitted slot ≠ 0 → fits slot stamp → fits' slot stamp) :
    phase.Ranks v' rank fits' := by
  cases phase with
  | pick r key => exact ⟨h.1, hv.order ▸ h.2⟩
  | reserve | reclaim | evict | retry => exact ⟨hv.order ▸ h.1, (hv.stamp rank).symm ▸ h.2⟩
  | submit slot stamp total issued =>
    refine ⟨h.1, hfits slot stamp ?_ h.2⟩
    rw [PumpPhase.unsubmitted, if_pos rfl]
    have hless := h.1
    omega
  | _ => trivial

theorem owned_of_pump {p : Nat} (hp : p < s.planner.pump_count) {i : Nat}
    (h : (s.planner.pumps p).phase.unsubmitted i ≠ 0) : s.Owned i := by
  have hle := PumpPhase.unsubmitted_le (s := s.toRestore) hp i
  unfold Ranked.Owned
  omega

theorem owned_of_run {r : Nat × Nat} (hr : r ∈ s.runs) : s.Owned r.1 :=
  Nat.add_pos_left (flying_pos (s := s.toRestore) hr) _

/-- The books after a step that leaves the backfills their orders and the live fetches their
    marks. -/
theorem RankInv.books_of (h : RankInv s)
    (hcount : s.planner.backfill_count ≤ s'.planner.backfill_count)
    (hsame : ∀ b < s.planner.backfill_count,
      SameOrder (s.planner.backfills b) (s'.planner.backfills b))
    (hfresh : ∀ b, s'.planner.backfill_count ≤ b → (s'.planner.backfills b).callbacks = 0)
    (hshort : ∀ b, (s'.planner.backfills b).order.length < kDemandStampBase)
    (hmarks : ∀ i, s.Owned i → ∀ mark, s'.filled i = some mark → s.filled i = some mark)
    (hruns : ∀ r ∈ s'.runs, r ∈ s.runs ∨ StampFits s' r.1 r.2)
    (hpumps : ∀ p < s'.planner.pump_count,
      (p < s.planner.pump_count ∧ s'.planner.pumps p = s.planner.pumps p ∧
          s'.ranks p = s.ranks p) ∨
        ((s'.planner.pumps p).backfill < s'.planner.backfill_count ∧
          (s'.planner.pumps p).phase.Ranks (s'.planner.backfills (s'.planner.pumps p).backfill)
            (s'.ranks p) (StampFits s'))) :
    RankBooks s' := by
  have hfits : ∀ slot stamp, s.Owned slot → StampFits s slot stamp → StampFits s' slot stamp := by
    intro slot stamp hown hfits b rank hmark
    have hold := hmarks slot hown _ hmark
    rw [(hsame b (h.filled slot b rank hold).started).stamp]
    exact hfits b rank hold
  refine ⟨?_, hfresh, hshort, ?_, ?_⟩
  · intro p hp
    rcases hpumps p hp with ⟨hold, hpump, -⟩ | ⟨hlt, -⟩
    · rw [hpump]
      exact (h.books.pumps p hold).trans_le hcount
    · exact hlt
  · intro p hp
    rcases hpumps p hp with ⟨hold, hpump, hrank⟩ | ⟨-, hphase⟩
    · rw [hpump, hrank]
      refine (h.books.phases p hold).mono (hsame _ (h.books.pumps p hold)) ?_
      exact fun slot stamp hne => hfits slot stamp (owned_of_pump hold hne)
    · exact hphase
  · intro r hr
    rcases hruns r hr with hold | hnew
    · exact hfits _ _ (owned_of_run hold) (h.books.runs r hold)
    · exact hnew

/-- A mark is good for as long as its slot and its backfill stay. -/
theorem Marked.of_same {i b rank : Nat} (h : Marked s i b rank)
    (hsize : s'.planner.store.slots_size = s.planner.store.slots_size)
    (hslot : s'.planner.store.slots i = s.planner.store.slots i)
    (hcount : s.planner.backfill_count ≤ s'.planner.backfill_count)
    (hsame : SameOrder (s.planner.backfills b) (s'.planner.backfills b))
    (hown : s.Owned i → s'.Owned i) : Marked s' i b rank := by
  refine ⟨hsize ▸ h.lt, h.started.trans_le hcount, ?_, ?_⟩
  · rw [hsame.order, hslot]
    exact h.key
  · rw [hslot, hsame.stamp]
    exact h.state.imp_left fun hfill => ⟨hfill.1, hfill.2.1, hown hfill.2.2⟩

/-- What is swept only has to hold of the slots that are held. -/
theorem RankInv.of_sweep (hstore : Inv s.planner.store) (hbooks : RankBooks s)
    (hacc : ∀ i, s.Owned i → s.flying i + s.unsubmitted i = runs_left s.planner.store i)
    (hfilled : ∀ i b rank, s.filled i = some (b, rank) →
      (s.planner.store.slots i).state ≠ .Free → Marked s i b rank) : RankInv s.sweep := by
  have hfits : ∀ slot stamp, StampFits s slot stamp → StampFits s.sweep slot stamp := by
    intro slot stamp h b rank hmark
    refine h b rank ?_
    simp only [Ranked.sweep] at hmark
    split at hmark
    · cases hmark
    · exact hmark
  refine ⟨hstore, ⟨hbooks.pumps, hbooks.fresh, hbooks.short, ?_, ?_⟩, hacc, ?_⟩
  · intro p hp
    have hphase := hbooks.phases p hp
    show (s.planner.pumps p).phase.Ranks _ _ _
    cases hph : (s.planner.pumps p).phase with
    | submit slot stamp total issued =>
      rw [hph] at hphase
      exact ⟨hphase.1, hfits _ _ hphase.2⟩
    | _ =>
      rw [hph] at hphase
      exact hphase
  · exact fun r hr => hfits _ _ (hbooks.runs r hr)
  · intro i b rank hmark
    simp only [Ranked.sweep] at hmark
    split at hmark
    · cases hmark
    next hheld =>
      obtain ⟨hlt, hstarted, hkey, hstate⟩ := hfilled i b rank hmark hheld
      exact ⟨hlt, hstarted, hkey, hstate⟩

/-- A step that leaves the store, the runs and the marks. -/
theorem RankInv.plan (h : RankInv s) (hbooks : RankBooks s')
    (hstore : s'.planner.store = s.planner.store) (hfilled : s'.filled = s.filled)
    (hcount : s.planner.backfill_count ≤ s'.planner.backfill_count)
    (hsame : ∀ b < s.planner.backfill_count,
      SameOrder (s.planner.backfills b) (s'.planner.backfills b))
    (hruns : ∀ i, s'.flying i + s'.unsubmitted i = s.flying i + s.unsubmitted i) :
    RankInv s'.sweep := by
  have hown : ∀ i, s'.Owned i ↔ s.Owned i := by
    intro i
    rw [Ranked.Owned, Ranked.Owned, hruns]
  refine .of_sweep (hstore ▸ h.store) hbooks ?_ ?_
  · intro i hi
    rw [hruns, hstore]
    exact h.accounted i ((hown i).mp hi)
  · intro i b rank hmark _
    have hold := h.filled i b rank (hfilled ▸ hmark)
    exact hold.of_same (by rw [hstore]) (by rw [hstore]) hcount (hsame b hold.started)
      (hown i).mpr

/-- A step at one slot: the marks of the others stand. -/
theorem RankInv.change_slot (h : RankInv s) (j : Nat) (hbooks : RankBooks s')
    (hinv : Inv s'.planner.store)
    (hsize : s'.planner.store.slots_size = s.planner.store.slots_size)
    (hother : ∀ i, i ≠ j → s'.planner.store.slots i = s.planner.store.slots i)
    (hcount : s.planner.backfill_count ≤ s'.planner.backfill_count)
    (hsame : ∀ b < s.planner.backfill_count,
      SameOrder (s.planner.backfills b) (s'.planner.backfills b))
    (hfilled : ∀ i, i ≠ j → s'.filled i = s.filled i)
    (hruns : ∀ i, i ≠ j → s'.flying i + s'.unsubmitted i = s.flying i + s.unsubmitted i)
    (hacc : s'.Owned j → s'.flying j + s'.unsubmitted j = runs_left s'.planner.store j)
    (hmark : ∀ b rank, s'.filled j = some (b, rank) →
      (s'.planner.store.slots j).state ≠ .Free → Marked s' j b rank) : RankInv s'.sweep := by
  refine .of_sweep hinv hbooks ?_ ?_
  · intro i hown
    by_cases hij : i = j
    · rw [hij] at hown ⊢
      exact hacc hown
    · rw [Ranked.Owned, hruns i hij] at hown
      rw [hruns i hij, runs_left_of_slots hsize (hother i hij)]
      exact h.accounted i hown
  · intro i b rank hmarked hheld
    by_cases hij : i = j
    · subst hij
      exact hmark b rank hmarked hheld
    · have hold := h.filled i b rank (hfilled i hij ▸ hmarked)
      refine hold.of_same hsize (hother i hij) hcount (hsame b hold.started) ?_
      intro hown
      rw [Ranked.Owned, hruns i hij]
      exact hown

/-! ### A pump -/

/-- Pump `p` goes to `phase`, and the backfills keep their orders. -/
structure Moves (s : Ranked) (p : Nat) (phase : PumpPhase) (planner : Backfills) : Prop where
  pumps : planner.pumps =
    Function.update s.planner.pumps p { s.planner.pumps p with phase := phase }
  pump_count : planner.pump_count = s.planner.pump_count
  count : planner.backfill_count = s.planner.backfill_count
  same : ∀ b, SameOrder (s.planner.backfills b) (planner.backfills b)
  fresh : ∀ b, s.planner.backfill_count ≤ b → (planner.backfills b).callbacks = 0

theorem RankInv.moves (h : RankInv s) (p : Nat) (phase : PumpPhase) (store : ExpertStore) :
    Moves s p phase ({ s.planner with store }.go p phase) :=
  ⟨rfl, rfl, rfl, fun _ => ⟨rfl, rfl⟩, h.books.fresh⟩

theorem RankInv.moves_with (h : RankInv s) {p : Nat} (hp : p < s.planner.pump_count)
    (phase : PumpPhase) (store : ExpertStore) {v : Backfill}
    (hv : SameOrder (s.planner.backfills (s.planner.pumps p).backfill) v) :
    Moves s p phase
      (({ s.planner with store }.set_backfill (s.planner.pumps p).backfill v).go p phase) := by
  refine ⟨rfl, rfl, rfl, ?_, ?_⟩
  · intro b
    show SameOrder _ (Function.update s.planner.backfills (s.planner.pumps p).backfill v b)
    by_cases hb : b = (s.planner.pumps p).backfill
    · subst hb
      rw [Function.update_self]
      exact hv
    · rw [Function.update_of_ne hb]
      exact ⟨rfl, rfl⟩
  · intro b hb
    show (Function.update s.planner.backfills (s.planner.pumps p).backfill v b).callbacks = 0
    rw [Function.update_of_ne]
    · exact h.books.fresh b hb
    · exact ((h.books.pumps p hp).trans_le hb).ne'

namespace Moves

variable {p : Nat} {phase : PumpPhase} {planner : Backfills} (hm : Moves s p phase planner)

include hm

theorem self : planner.pumps p = { s.planner.pumps p with phase := phase } := by
  rw [hm.pumps, Function.update_self]

theorem others {q : Nat} (hq : q ≠ p) : planner.pumps q = s.planner.pumps q := by
  rw [hm.pumps, Function.update_of_ne hq]

/-- The runs a pump still has to submit go with its phase. -/
theorem unsubmitted (hp : p < s.planner.pump_count) (runs : List (Nat × Nat)) (i : Nat) :
    Restore.unsubmitted { planner, runs } i + (s.planner.pumps p).phase.unsubmitted i =
      s.unsubmitted i + phase.unsubmitted i := by
  have hgo := unsubmitted_go (s := s.toRestore) hp phase runs i
  have hnew : Restore.unsubmitted { planner, runs } i =
      Restore.unsubmitted { planner := s.planner.go p phase, runs } i := by
    show ∑ q ∈ Finset.range planner.pump_count, (planner.pumps q).phase.unsubmitted i = _
    rw [hm.pump_count, hm.pumps]
    rfl
  rw [hnew]
  exact hgo

theorem books (h : RankInv s) (hp : p < s.planner.pump_count) {runs : List (Nat × Nat)}
    {ranks : Nat → Nat} {filled : Nat → Option (Nat × Nat)}
    (hmarks : ∀ i, s.Owned i → ∀ mark, filled i = some mark → s.filled i = some mark)
    (hruns : ∀ r ∈ runs, r ∈ s.runs ∨ StampFits { planner, runs, ranks, filled } r.1 r.2)
    (hranks : ∀ q, q ≠ p → ranks q = s.ranks q)
    (hphase : phase.Ranks (s.planner.backfills (s.planner.pumps p).backfill) (ranks p)
      (StampFits { planner, runs, ranks, filled })) :
    RankBooks { planner, runs, ranks, filled } := by
  refine h.books_of hm.count.ge (fun b _ => hm.same b) ?_ ?_ hmarks hruns ?_
  · intro b hb
    exact hm.fresh b (hm.count ▸ hb)
  · intro b
    rw [(hm.same b).order]
    exact h.books.short b
  · intro q hq
    by_cases hqp : q = p
    · right
      subst hqp
      show (planner.pumps q).backfill < planner.backfill_count ∧
        (planner.pumps q).phase.Ranks (planner.backfills (planner.pumps q).backfill) (ranks q) _
      rw [hm.self, hm.count]
      exact ⟨h.books.pumps q hp, hphase.mono (hm.same _) fun _ _ _ hfits => hfits⟩
    · exact .inl ⟨hm.pump_count ▸ hq, hm.others hqp, hranks q hqp⟩

end Moves

theorem RankInv.moved (h : RankInv s) {p : Nat} (hp : p < s.planner.pump_count)
    {planner : Backfills} {phase : PumpPhase} {ranks : Nat → Nat}
    (hm : Moves s p phase planner) (hstore : planner.store = s.planner.store)
    (hranks : ∀ q, q ≠ p → ranks q = s.ranks q)
    (hphase : phase.Ranks (s.planner.backfills (s.planner.pumps p).backfill) (ranks p)
      (StampFits s))
    (hunsub : ∀ i, phase.unsubmitted i = (s.planner.pumps p).phase.unsubmitted i) :
    RankInv { s with planner, ranks }.sweep := by
  have hfits : ∀ slot stamp, StampFits s slot stamp →
      StampFits { s with planner, ranks } slot stamp := by
    intro slot stamp hfits b rank hmark
    rw [(hm.same b).stamp]
    exact hfits b rank hmark
  have hbooks : RankBooks { s with planner, ranks } :=
    hm.books h hp (fun _ _ _ hmark => hmark) (fun r hr => .inl hr) hranks
      (hphase.mono ⟨rfl, rfl⟩ fun slot stamp _ => hfits slot stamp)
  refine h.plan hbooks hstore rfl hm.count.ge (fun b _ => hm.same b) ?_
  intro i
  have hgo := hm.unsubmitted hp s.runs i
  have hold := hunsub i
  show s.flying i + Restore.unsubmitted { planner, runs := s.runs } i = s.flying i + s.unsubmitted i
  omega

/-- The phases at which something is written down. -/
def PumpPhase.notes : PumpPhase → Bool
  | .pick .. | .submit .. => true
  | _ => false

theorem noted_of_quiet {r : Restore} {p : Nat} (h : (r.planner.pumps p).phase.notes = false) :
    s.noted r (.pump p) = { s with toRestore := r } := by
  unfold Ranked.noted
  dsimp only
  split
  next hphase =>
    rw [hphase] at h
    cases h
  next hphase =>
    rw [hphase] at h
    cases h
  · rfl

/-- One pump moves, and there is nothing to write down. -/
theorem RankInv.quiet (h : RankInv s) {p : Nat} (hp : p < s.planner.pump_count)
    {planner : Backfills} {phase : PumpPhase} (hm : Moves s p phase planner)
    (hstore : planner.store = s.planner.store) (hnotes : phase.notes = false)
    (hphase : phase.Ranks (s.planner.backfills (s.planner.pumps p).backfill) (s.ranks p)
      (StampFits s))
    (hunsub : ∀ i, phase.unsubmitted i = (s.planner.pumps p).phase.unsubmitted i) :
    RankInv (s.noted { s.toRestore with planner } (.pump p)).sweep := by
  rw [noted_of_quiet]
  · exact h.moved hp hm hstore (fun _ _ => rfl) hphase hunsub
  · show (planner.pumps p).phase.notes = false
    rw [hm.self]
    exact hnotes

/-- A slot is taken for the rank the pump is at. -/
theorem RankInv.fetched (h : RankInv s) {p : Nat} (hp : p < s.planner.pump_count)
    {key : ExpertKey} {stamp : Nat}
    (hat : (s.planner.backfills (s.planner.pumps p).backfill).order[s.ranks p]? = some key ∧
      stamp = (s.planner.backfills (s.planner.pumps p).backfill).stamp (s.ranks p))
    (hold : ∀ i, (s.planner.pumps p).phase.unsubmitted i = 0)
    {entry : ExpertEntry} {res : Reservation} {st' : ExpertStore}
    (hres : s.planner.store.begin_fill key entry .Cached = (.ok res, st'))
    {planner : Backfills} (hm : Moves s p (.submit res.slot stamp res.run_count 0) planner)
    (hstore : planner.store = st') :
    RankInv (s.noted { s.toRestore with planner } (.pump p)).sweep := by
  obtain ⟨hpos, hfill, hfree, hsize, hother⟩ := begin_fill_ok h.store hres
  obtain ⟨hkey, -, hlast, -, -⟩ := begin_fill_slot hres
  have hinv : Inv st' := by
    have hkept := h.store.apply (.begin_fill key entry .Cached)
    rwa [ExpertStore.apply, hres] at hkept
  have hnoted : s.noted { s.toRestore with planner } (.pump p) =
      { s with
        planner
        filled := Function.update s.filled res.slot
          (some ((s.planner.pumps p).backfill, s.ranks p)) } := by
    unfold Ranked.noted
    dsimp only
    rw [hm.self]
  rw [hnoted]
  -- the slot was free, so no run and no pump means it
  have hnobody : ¬ s.Owned res.slot := h.not_owned (by rw [hfree]; decide)
  have hunsub := fun i => hm.unsubmitted hp s.runs i
  have hmine : PumpPhase.unsubmitted res.slot (.submit res.slot stamp res.run_count 0) =
      res.run_count := by
    simp [PumpPhase.unsubmitted]
  have hnew : s.flying res.slot + Restore.unsubmitted { planner, runs := s.runs } res.slot =
      res.run_count := by
    have hsum := hunsub res.slot
    rw [hold, hmine] at hsum
    unfold Ranked.Owned at hnobody
    omega
  refine h.change_slot res.slot ?_ (hstore ▸ hinv) (hstore ▸ hsize) (hstore ▸ hother) hm.count.ge
    (fun b _ => hm.same b) ?_ ?_ ?_ ?_
  · refine hm.books h hp ?_ (fun r hr => .inl hr) (fun _ _ => rfl) ⟨hpos, ?_⟩
    · intro i hown mark hmark
      rwa [Function.update_of_ne] at hmark
      rintro rfl
      exact hnobody hown
    · intro b rank hmark
      change Function.update s.filled _ _ _ = _ at hmark
      rw [Function.update_self, Option.some.injEq, Prod.mk.injEq] at hmark
      obtain ⟨rfl, rfl⟩ := hmark
      rw [(hm.same _).stamp]
      exact hat.2
  · intro i hi
    exact Function.update_of_ne hi _ _
  · intro i hi
    have hsum := hunsub i
    have hzero : PumpPhase.unsubmitted i (.submit res.slot stamp res.run_count 0) = 0 := by
      simp [PumpPhase.unsubmitted, Ne.symm hi]
    rw [hold, hzero] at hsum
    show s.flying i + Restore.unsubmitted { planner, runs := s.runs } i = _
    omega
  · intro _
    show s.flying res.slot + Restore.unsubmitted { planner, runs := s.runs } res.slot =
      runs_left planner.store res.slot
    rw [hnew, hstore, runs_left, if_pos ⟨hfill.lt, hfill.filling⟩, hfill.total, hfill.done,
      Nat.sub_zero]
  · intro b rank hmark _
    change Function.update s.filled _ _ _ = _ at hmark
    rw [Function.update_self, Option.some.injEq, Prod.mk.injEq] at hmark
    obtain ⟨rfl, rfl⟩ := hmark
    refine ⟨?_, ?_, ?_, .inl ⟨?_, ?_, ?_⟩⟩
    · show res.slot < planner.store.slots_size
      rw [hstore]
      exact hfill.lt
    · show _ < planner.backfill_count
      rw [hm.count]
      exact h.books.pumps p hp
    · show (planner.backfills _).order[_]? = some (planner.store.slots res.slot).key
      rw [(hm.same _).order, hstore, hkey]
      exact hat.1
    · show (planner.store.slots res.slot).state = .Filling
      rw [hstore]
      exact hfill.filling
    · show (planner.store.slots res.slot).last_use_token = 0
      rw [hstore]
      exact hlast
    · show 0 < s.flying res.slot + Restore.unsubmitted { planner, runs := s.runs } res.slot
      rw [hnew]
      exact hpos

/-- `fetch` asks for a slot: refused, or the free slot it gets is nobody's. -/
theorem RankInv.reserved (h : RankInv s) {p : Nat} (hp : p < s.planner.pump_count)
    {key : ExpertKey} {stamp : Nat}
    (hat : (s.planner.backfills (s.planner.pumps p).backfill).order[s.ranks p]? = some key ∧
      stamp = (s.planner.backfills (s.planner.pumps p).backfill).stamp (s.ranks p))
    (first : Bool) (hold : ∀ i, (s.planner.pumps p).phase.unsubmitted i = 0) :
    RankInv (s.noted { s.toRestore with planner := s.planner.reserved p key stamp first }
      (.pump p)).sweep := by
  have hnone : ∀ i, 0 = (s.planner.pumps p).phase.unsubmitted i := fun i => (hold i).symm
  unfold Backfills.reserved
  split
  · exact h.quiet hp (h.moves p _ s.planner.store) rfl rfl trivial hnone
  next entry _ =>
  cases hres : s.planner.store.begin_fill key entry .Cached with
  | mk r st₁ =>
    cases r with
    | error e =>
      obtain rfl := begin_fill_error hres
      dsimp only
      split
      · exact h.quiet hp (h.moves p _ s.planner.store) rfl rfl hat hnone
      · exact h.quiet hp (h.moves p _ s.planner.store) rfl rfl trivial hnone
    | ok res => exact h.fetched hp hat hold hres (h.moves_with hp _ st₁ ⟨rfl, rfl⟩) rfl

/-- One of the runs to come is reported. -/
theorem RankInv.landed (h : RankInv s) {j : Nat} (hown : s.Owned j) (ok : Bool) (token : Nat)
    (hfits : ok = true → StampFits s j token) (hbooks : RankBooks s')
    (hstore : s'.planner.store = (s.planner.store.finish_run j ok token).2)
    (hcount : s'.planner.backfill_count = s.planner.backfill_count)
    (hsame : ∀ b, SameOrder (s.planner.backfills b) (s'.planner.backfills b))
    (hfilled : s'.filled = s.filled)
    (hruns : ∀ i, s'.flying i + s'.unsubmitted i + (if j = i then 1 else 0) =
      s.flying i + s.unsubmitted i) : RankInv s'.sweep := by
  obtain ⟨hlt, hfilling, hmore⟩ := h.filling hown
  obtain ⟨hlanded, -⟩ := finish_run_landed hlt hfilling hmore ok token
  obtain ⟨hsize, hother⟩ := finish_run_other s.planner.store j ok token
  have hinv := h.store.apply (.finish_run j ok token)
  rw [ExpertStore.apply, ← hstore] at hinv
  rw [← hstore] at hlanded hsize hother
  have hacc := h.accounted j hown
  have hone := hruns j
  rw [if_pos rfl] at hone
  have hlt' : j < s'.planner.store.slots_size := hsize ▸ hlt
  -- how many runs of the slot are still to come
  have hleft : s'.flying j + s'.unsubmitted j = runs_left s'.planner.store j := by
    rw [runs_left, if_pos ⟨hlt, hfilling⟩] at hacc
    cases hlanded with
    | counted state _ _ _ _ total done _ =>
      rw [runs_left, if_pos ⟨hlt', state⟩, total, done]
      omega
    | settled state _ _ _ _ _ last =>
      rw [runs_left, if_neg (by simp [state])]
      omega
    | freed state last =>
      rw [runs_left, if_neg (by simp [state])]
      omega
  refine h.change_slot j hbooks hinv hsize hother hcount.ge (fun b _ => hsame b)
    (fun i _ => by rw [hfilled]) ?_ (fun _ => hleft) ?_
  · intro i hi
    have hsum := hruns i
    rwa [if_neg (Ne.symm hi), Nat.add_zero] at hsum
  · intro b rank hmark hheld
    have hold := h.filled j b rank (hfilled ▸ hmark)
    have hstarted : b < s'.planner.backfill_count := hcount ▸ hold.started
    have hzero : (s.planner.store.slots j).last_use_token = 0 := by
      rcases hold.state with hfill | hres
      · exact hfill.2.1
      · exact absurd (hfilling.symm.trans hres.1) (by decide)
    cases hlanded with
    | counted state key _ _ stamp total done more =>
      refine ⟨hlt', hstarted, ?_, .inl ⟨state, stamp.trans hzero, ?_⟩⟩
      · rw [(hsame b).order, key]
        exact hold.key
      · rw [Ranked.Owned, hleft, runs_left, if_pos ⟨hlt', state⟩, total, done]
        omega
    | settled state key _ _ stamp whole _ =>
      refine ⟨hlt', hstarted, ?_, .inr ⟨state, ?_⟩⟩
      · rw [(hsame b).order, key]
        exact hold.key
      · rw [stamp, hzero, Nat.zero_max, (hsame b).stamp]
        exact hfits whole b rank (hfilled ▸ hmark)
    | freed state _ => exact absurd state hheld

/-- The error branch accounts for one run of the pump's fetch. -/
theorem RankInv.abort (h : RankInv s) {p slot stamp rest : Nat} {code : Err}
    (hp : p < s.planner.pump_count)
    (hphase : (s.planner.pumps p).phase = .abort slot stamp (rest + 1) code)
    {planner : Backfills} (hm : Moves s p (.abort slot stamp rest code) planner)
    (hstore : planner.store = (s.planner.store.finish_run slot false stamp).2) :
    RankInv (s.noted { s.toRestore with planner } (.pump p)).sweep := by
  have hold : ∀ i, (s.planner.pumps p).phase.unsubmitted i = if slot = i then rest + 1 else 0 := by
    intro i
    rw [hphase]
    rfl
  have hown : s.Owned slot := by
    refine owned_of_pump hp ?_
    rw [hold, if_pos rfl]
    exact Nat.succ_ne_zero rest
  rw [noted_of_quiet (by rw [hm.self]; rfl)]
  refine h.landed hown false stamp (fun hok => absurd hok Bool.false_ne_true) ?_ hstore hm.count
    hm.same rfl ?_
  · exact hm.books h hp (fun _ _ _ hmark => hmark) (fun r hr => .inl hr) (fun _ _ => rfl) trivial
  · intro i
    have hsum := hm.unsubmitted hp s.runs i
    rw [hold, PumpPhase.unsubmitted] at hsum
    show s.flying i + Restore.unsubmitted { planner, runs := s.runs } i + _ = _
    by_cases hi : slot = i
    · rw [if_pos hi] at hsum ⊢
      rw [if_pos hi] at hsum
      omega
    · rw [if_neg hi] at hsum ⊢
      rw [if_neg hi] at hsum
      omega

/-- `reclaim` evicts: the slot was Resident, so no run and no pump means it. -/
theorem RankInv.evicted (h : RankInv s) {p : Nat} (hp : p < s.planner.pump_count) (slot : Nat)
    {phase : PumpPhase} {planner : Backfills} (hm : Moves s p phase planner)
    (hstore : planner.store = (s.planner.store.evict slot).2) (hnotes : phase.notes = false)
    (hphase : ∀ fits, phase.Ranks (s.planner.backfills (s.planner.pumps p).backfill) (s.ranks p)
      fits)
    (hnew : ∀ i, phase.unsubmitted i = 0)
    (hold : ∀ i, (s.planner.pumps p).phase.unsubmitted i = 0) :
    RankInv (s.noted { s.toRestore with planner } (.pump p)).sweep := by
  have hinv : Inv planner.store := by
    rw [hstore]
    exact h.store.apply (.evict slot)
  have hruns : ∀ i, s.flying i + Restore.unsubmitted { planner, runs := s.runs } i =
      s.flying i + s.unsubmitted i := by
    intro i
    have hgo := hm.unsubmitted hp s.runs i
    rw [hnew, hold] at hgo
    omega
  rw [noted_of_quiet (by rw [hm.self]; exact hnotes)]
  have hbooks : RankBooks { s with planner } :=
    hm.books h hp (fun _ _ _ hmark => hmark) (fun r hr => .inl hr) (fun _ _ => rfl) (hphase _)
  have hown : ∀ i, Ranked.Owned { s with planner } i ↔ s.Owned i := by
    intro i
    show 0 < s.flying i + Restore.unsubmitted { planner, runs := s.runs } i ↔ _
    rw [hruns]
    rfl
  -- the store refuses, or the slot is free now
  obtain ⟨-, hsize, hslots | ⟨hres, hfree, hother⟩⟩ := evict_slots s.planner.store slot
  · rw [← hstore] at hsize hslots
    refine h.change_slot slot hbooks hinv hsize (fun i _ => congrFun hslots i) hm.count.ge
      (fun b _ => hm.same b) (fun _ _ => rfl) (fun i _ => hruns i) ?_ ?_
    · intro hmine
      refine (hruns slot).trans ((h.accounted slot ((hown slot).mp hmine)).trans ?_)
      exact (runs_left_of_slots hsize (congrFun hslots slot)).symm
    · intro b rank hmark _
      exact (h.filled slot b rank hmark).of_same hsize (congrFun hslots slot) hm.count.ge
        (hm.same b) (hown slot).mpr
  · rw [← hstore] at hsize hfree hother
    have hnobody : ¬ s.Owned slot := h.not_owned (by rw [hres]; decide)
    refine h.change_slot slot hbooks hinv hsize hother hm.count.ge (fun b _ => hm.same b)
      (fun _ _ => rfl) (fun i _ => hruns i) ?_ ?_
    · intro hmine
      exact absurd ((hown slot).mp hmine) hnobody
    · intro _ _ _ hheld
      exact absurd hfree hheld

/-- The rank is written down with the key. -/
theorem RankInv.picked (h : RankInv s) {p : Nat} (hp : p < s.planner.pump_count)
    {v : Backfill} {key : ExpertKey}
    (hv : SameOrder (s.planner.backfills (s.planner.pumps p).backfill) v)
    (hkey : v.order[(s.planner.backfills (s.planner.pumps p).backfill).next]? = some key)
    (hzero : ∀ i, 0 = (s.planner.pumps p).phase.unsubmitted i) :
    RankInv (s.noted { s.toRestore with
      planner := (s.planner.set_backfill (s.planner.pumps p).backfill v).go p
        (.pick (s.planner.backfills (s.planner.pumps p).backfill).next key) } (.pump p)).sweep := by
  have hm := h.moves_with hp
    (.pick (s.planner.backfills (s.planner.pumps p).backfill).next key) s.planner.store hv
  have hnext : ∀ q, q ≠ p → Function.update s.ranks p
      (s.planner.backfills (s.planner.pumps p).backfill).next q = s.ranks q :=
    fun q hq => Function.update_of_ne hq _ _
  have hnoted := h.moved hp hm rfl hnext ⟨(Function.update_self p _ s.ranks).symm, hv.order ▸ hkey⟩ hzero
  unfold Ranked.noted
  dsimp only
  rw [hm.self]
  exact hnoted

theorem RankInv.pump_step (h : RankInv s) {p : Nat} (hp : p < s.planner.pump_count)
    {planner : Backfills} (hstep : s.planner.pump_step p = some planner) :
    RankInv (s.noted { s.toRestore with planner } (.pump p)).sweep := by
  have hranks := h.books.phases p hp
  have hpumps := pump_step_cases hstep
  have hnone : (s.planner.pumps p).phase.spent = true →
      ∀ i, 0 = (s.planner.pumps p).phase.unsubmitted i :=
    fun hspent i => (unsubmitted_of_spent hspent i).symm
  generalize hphase : (s.planner.pumps p).phase = phase at hranks hpumps
  rw [hphase] at hnone
  cases hpumps with
  | @rests _ phase' v hspent hrests hv =>
    have hm := h.moves_with hp phase' s.planner.store ⟨hv.1, hv.2⟩
    have hzero := hphase ▸ hnone hspent
    cases phase' with
    | check | done | failed => exact h.quiet hp hm rfl rfl trivial hzero
    | _ => cases hrests
  | picks v key hkey hv => exact h.picked hp ⟨hv.1, hv.2⟩ hkey (hphase ▸ hnone rfl)
  | fetches v hv =>
    obtain ⟨rfl, hkey⟩ := hranks
    refine h.quiet hp (h.moves_with hp _ s.planner.store ⟨hv.1, hv.2⟩) rfl rfl ⟨hkey, ?_⟩
      (hphase ▸ hnone rfl)
    rw [hv.2, Backfill.stamp]
  | reserves => exact h.reserved hp hranks true fun i => hphase ▸ (hnone rfl i).symm
  | reclaims =>
    exact h.quiet hp (h.moves p _ s.planner.store) rfl rfl hranks (hphase ▸ hnone rfl)
  | @evicts key stamp slot victims phase' hvictims =>
    have hold : ∀ i, (s.planner.pumps p).phase.unsubmitted i = 0 :=
      fun i => hphase ▸ (hnone rfl i).symm
    rcases hvictims with rfl | rfl
    · exact h.evicted hp slot (h.moves p _ _) rfl rfl (fun _ => hranks) (fun _ => rfl) hold
    · exact h.evicted hp slot (h.moves p _ _) rfl rfl (fun _ => hranks) (fun _ => rfl) hold
  | retries => exact h.reserved hp hranks false fun i => hphase ▸ (hnone rfl i).symm
  | aborts => exact h.abort hp hphase (h.moves p _ _) rfl

/-- A run goes to the engine with the stamp of its fetch, or the pump turns to the error branch. -/
theorem RankInv.submit_step (h : RankInv s) {p : Nat} (hp : p < s.planner.pump_count)
    {refusal : Option Err} {planner : Backfills}
    (hstep : s.planner.submit_step p refusal = some planner) :
    RankInv { s with planner, runs := s.submitted p refusal }.sweep := by
  have hranks := h.books.phases p hp
  unfold Backfills.submit_step at hstep
  cases hphase : (s.planner.pumps p).phase with
  | submit slot stamp total issued =>
    rw [hphase] at hranks
    obtain ⟨hless, hfits⟩ := hranks
    cases refusal with
    | some code =>
      simp only [hphase] at hstep
      cases hstep
      refine h.moved hp (h.moves p _ s.planner.store) rfl (fun _ _ => rfl) trivial ?_
      intro i
      rw [hphase]
      rfl
    | none =>
      have hruns : s.submitted p none = (slot, stamp) :: s.runs := by
        simp only [Restore.submitted, hphase]
      -- the run changes hands, and the slot stays as it is
      have hmoved : ∀ phase : PumpPhase,
          phase.Ranks (s.planner.backfills (s.planner.pumps p).backfill) (s.ranks p)
            (StampFits s) →
          (∀ i, phase.unsubmitted i + (if slot = i then 1 else 0) =
            (s.planner.pumps p).phase.unsubmitted i) →
          RankInv { s with
            planner := s.planner.go p phase, runs := (slot, stamp) :: s.runs }.sweep := by
        intro phase hph hone
        have hm : Moves s p phase (s.planner.go p phase) := h.moves p phase s.planner.store
        refine h.plan (hm.books h hp (fun _ _ _ hmark => hmark) ?_ (fun _ _ => rfl) hph) rfl rfl
          le_rfl (fun b _ => hm.same b) ?_
        · intro r hr
          rcases List.mem_cons.mp hr with rfl | hold
          · exact .inr hfits
          · exact .inl hold
        · intro i
          have hgo := hm.unsubmitted hp ((slot, stamp) :: s.runs) i
          have hsum := hone i
          have hfly : Restore.flying
              { planner := s.planner.go p phase, runs := (slot, stamp) :: s.runs } i =
              s.flying i + if slot = i then 1 else 0 := by
            simp [Restore.flying, List.countP_cons]
          show Restore.flying { planner := s.planner.go p phase, runs := (slot, stamp) :: s.runs } i +
            Restore.unsubmitted
              { planner := s.planner.go p phase, runs := (slot, stamp) :: s.runs } i =
                s.flying i + s.unsubmitted i
          omega
      rw [hruns]
      simp only [hphase] at hstep
      split at hstep
      next hmore =>
        cases hstep
        refine hmoved _ ⟨hmore, hfits⟩ ?_
        intro i
        rw [hphase, PumpPhase.unsubmitted, PumpPhase.unsubmitted]
        split <;> omega
      next hlast =>
        cases hstep
        refine hmoved .check trivial ?_
        intro i
        have hcheck : PumpPhase.unsubmitted i .check = 0 := rfl
        rw [hphase, hcheck, PumpPhase.unsubmitted]
        split <;> omega
  | _ =>
    simp only [hphase] at hstep
    cases hstep

/-- A run lands, with the stamp of its fetch. -/
theorem RankInv.land (h : RankInv s) {k slot stamp : Nat} (ok : Bool)
    (hk : s.runs[k]? = some (slot, stamp)) :
    RankInv
      { s with
        planner := { s.planner with store := (s.planner.store.finish_run slot ok stamp).2 }
        runs := s.runs.eraseIdx k }.sweep := by
  have hmem : (slot, stamp) ∈ s.runs := List.mem_of_getElem? hk
  refine h.landed (j := slot) (owned_of_run hmem) ok stamp (fun _ => h.books.runs _ hmem) ?_ rfl rfl
    (fun _ => ⟨rfl, rfl⟩) rfl ?_
  · refine h.books_of le_rfl (fun _ _ => ⟨rfl, rfl⟩) h.books.fresh h.books.short
      (fun _ _ _ hmark => hmark) ?_ ?_
    · exact fun r hr => .inl (List.mem_of_mem_eraseIdx hr)
    · exact fun p hp => .inl ⟨hp, rfl, rfl⟩
  · intro i
    have hlt : k < s.runs.length := (List.getElem?_eq_some_iff.mp hk).1
    have hperm := (List.getElem_cons_eraseIdx_perm hlt).countP_eq fun r => decide (r.1 = i)
    have hfly : (s.runs.eraseIdx k).countP (fun r => r.1 = i) + (if slot = i then 1 else 0) =
        s.flying i := by
      rw [Restore.flying, ← hperm, (List.getElem?_eq_some_iff.mp hk).2]
      simp [List.countP_cons]
    show (s.runs.eraseIdx k).countP (fun r => r.1 = i) + s.unsubmitted i + _ = _
    omega

/-! ### The rest of the planner -/

/-- A call of the pump starts, on a backfill that may be new. -/
theorem RankInv.spawned (h : RankInv s) {planner : Backfills} {b : Nat}
    (hstore : planner.store = s.planner.store) (hpumps : planner.pumps = s.planner.pumps)
    (hpump_count : planner.pump_count = s.planner.pump_count)
    (hcount : s.planner.backfill_count ≤ planner.backfill_count)
    (hsame : ∀ b < s.planner.backfill_count,
      SameOrder (s.planner.backfills b) (planner.backfills b))
    (hfresh : ∀ b, planner.backfill_count ≤ b → (planner.backfills b).callbacks = 0)
    (hshort : ∀ b, (planner.backfills b).order.length < kDemandStampBase)
    (hb : b < planner.backfill_count) :
    RankInv { s with planner := planner.spawn b }.sweep := by
  refine h.plan ?_ hstore rfl hcount hsame ?_
  · refine h.books_of hcount hsame hfresh hshort (fun _ _ _ hmark => hmark)
      (fun r hr => .inl hr) ?_
    intro q hq
    have hpump : ({ s with planner := planner.spawn b } : Ranked).planner.pumps q =
        Function.update s.planner.pumps s.planner.pump_count { backfill := b } q := by
      rw [← hpumps, ← hpump_count]
      rfl
    change q < planner.pump_count + 1 at hq
    by_cases hnew : q = s.planner.pump_count
    · right
      rw [hpump, hnew, Function.update_self]
      exact ⟨hb, trivial⟩
    · left
      rw [hpump, Function.update_of_ne hnew]
      exact ⟨by omega, rfl, rfl⟩
  · intro i
    show s.flying i + Restore.unsubmitted { planner := planner.spawn b, runs := s.runs } i = _
    have hsum : Restore.unsubmitted { planner, runs := s.runs } i = s.unsubmitted i := by
      rw [Restore.unsubmitted, Restore.unsubmitted]
      dsimp only
      rw [hpump_count, hpumps]
    rw [unsubmitted_spawn, hsum]

theorem stop_same_order (planner : Backfills) (b : Nat) :
    SameOrder (planner.backfills b) (planner.stop_backfill.backfills b) ∧
      (planner.stop_backfill.backfills b).callbacks = (planner.backfills b).callbacks := by
  unfold Backfills.stop_backfill
  split
  · exact ⟨⟨rfl, rfl⟩, rfl⟩
  · show SameOrder _ (Function.update planner.backfills _ _ b) ∧
      (Function.update planner.backfills _ _ b).callbacks = _
    by_cases hb : b = planner.backfill_count - 1
    · subst hb
      rw [Function.update_self]
      exact ⟨⟨rfl, rfl⟩, rfl⟩
    · rw [Function.update_of_ne hb]
      exact ⟨⟨rfl, rfl⟩, rfl⟩

theorem stop_frame (planner : Backfills) :
    planner.stop_backfill.store = planner.store ∧ planner.stop_backfill.pumps = planner.pumps ∧
      planner.stop_backfill.pump_count = planner.pump_count ∧
      planner.stop_backfill.backfill_count = planner.backfill_count := by
  unfold Backfills.stop_backfill
  split
  · exact ⟨rfl, rfl, rfl, rfl⟩
  · exact ⟨rfl, rfl, rfl, rfl⟩

theorem RankInv.stopped (h : RankInv s) :
    RankInv { s with planner := s.planner.stop_backfill }.sweep := by
  obtain ⟨hstore, hpumps, hpump_count, hcount⟩ := stop_frame s.planner
  have hsame := stop_same_order s.planner
  refine h.plan ?_ hstore rfl hcount.ge (fun b _ => (hsame b).1) ?_
  · refine h.books_of hcount.ge (fun b _ => (hsame b).1) ?_ ?_ (fun _ _ _ hmark => hmark)
      (fun r hr => .inl hr) ?_
    · intro b hb
      rw [(hsame b).2]
      exact h.books.fresh b (hcount ▸ hb)
    · intro b
      rw [(hsame b).1.order]
      exact h.books.short b
    · intro q hq
      exact .inl ⟨hpump_count ▸ hq, congrFun hpumps q, rfl⟩
  · intro i
    rw [Restore.unsubmitted, Restore.unsubmitted]
    dsimp only
    rw [hpump_count, hpumps]
    rfl

theorem set_backfill_backfills (planner : Backfills) (b : Nat) (v : Backfill) (b' : Nat) :
    (planner.set_backfill b v).backfills b' = if b' = b then v else planner.backfills b' := by
  unfold Backfills.set_backfill
  exact Function.update_apply _ _ _ _

theorem RankInv.started (h : RankInv s) (order : List ExpertKey) (inflight : Nat) (keep : Bool) :
    RankInv { s with planner := s.planner.start_backfill order inflight keep }.sweep := by
  obtain ⟨hstore, hpumps, hpump_count, hcount⟩ := stop_frame s.planner
  have hsame := stop_same_order s.planner
  unfold Backfills.start_backfill
  dsimp only
  split
  · exact h.stopped
  next hshort =>
    refine h.spawned hstore hpumps hpump_count (hcount ▸ Nat.le_succ _) ?_ ?_ ?_
      (Nat.lt_succ_self _)
    · intro b hb
      dsimp only
      rw [set_backfill_backfills, if_neg (hcount ▸ hb.ne)]
      exact (hsame b).1
    · intro b hb
      have hgt : s.planner.backfill_count + 1 ≤ b := hcount ▸ hb
      dsimp only
      rw [set_backfill_backfills, if_neg (by omega), (hsame b).2]
      exact h.books.fresh b (by omega)
    · intro b
      dsimp only
      rw [set_backfill_backfills]
      split
      · exact not_le.mp hshort
      · rw [(hsame b).1.order]
        exact h.books.short b

/-- `on_done` of a fetch of a backfill that was started. -/
theorem RankInv.callback (h : RankInv s) (b : Nat) (hcalls : (s.planner.backfills b).callbacks ≠ 0)
    {v : Backfill} (hv : SameOrder (s.planner.backfills b) v) :
    RankInv { s with planner := (s.planner.set_backfill b v).spawn b }.sweep := by
  have hb : b < s.planner.backfill_count := by
    by_contra hge
    exact hcalls (h.books.fresh b (not_lt.mp hge))
  have hsame : ∀ b', SameOrder (s.planner.backfills b')
      ((s.planner.set_backfill b v).backfills b') := by
    intro b'
    rw [set_backfill_backfills]
    split
    next hbb =>
      rw [hbb]
      exact hv
    · exact ⟨rfl, rfl⟩
  refine h.spawned rfl rfl rfl le_rfl (fun b' _ => hsame b') ?_ ?_ hb
  · intro b' hge
    rw [set_backfill_backfills, if_neg]
    · exact h.books.fresh b' hge
    · exact (hb.trans_le hge).ne'
  · intro b'
    rw [(hsame b').order]
    exact h.books.short b'

/-! ### Any other use -/

theorem report_refused {st : ExpertStore} {op : Op} {i : Nat} (hreports : op.finishes = some i)
    (hstate : (st.slots i).state ≠ .Filling) : st.apply op = st := by
  cases op with
  | finish_run slot ok token =>
    obtain rfl : slot = i := Option.some.inj hreports
    rw [apply]
    unfold ExpertStore.finish_run
    dsimp only
    split
    · rfl
    · rfl
  | finish_fill slot ok token =>
    obtain rfl : slot = i := Option.some.inj hreports
    rw [apply]
    unfold ExpertStore.finish_fill
    dsimp only
    split
    · rfl
    · rfl
  | _ => cases hreports

theorem RankInv.used (h : RankInv s) {op : Op} (hop : op.keeps_contents)
    (hreports : ∀ slot ∈ op.finishes, ¬ s.Owned slot) : RankInv (s.used op).sweep := by
  have hgeo := h.store.apply_geometry hop
  have hmarks : ∀ i mark, (s.used op).filled i = some mark →
      op.uses s.planner.store i = false ∧ s.filled i = some mark := by
    intro i mark hmark
    change (if op.uses s.planner.store i then none else s.filled i) = some mark at hmark
    split at hmark
    · cases hmark
    next hunused => exact ⟨Bool.eq_false_iff.mpr hunused, hmark⟩
  refine .of_sweep (h.store.apply op) ?_ ?_ ?_
  · refine h.books_of le_rfl (fun _ _ => ⟨rfl, rfl⟩) h.books.fresh h.books.short ?_
      (fun r hr => .inl hr) (fun p hp => .inl ⟨hp, rfl, rfl⟩)
    exact fun i _ mark hmark => (hmarks i mark hmark).2
  · -- nobody else reports on a slot whose runs are still to come
    intro i hown
    have hfilling := (h.filling hown).2.1
    have hsame := apply_same_fill hfilling h.store hop fun hfin => hreports i hfin hown
    refine (h.accounted i hown).trans ?_
    show runs_left s.planner.store i = runs_left (s.planner.store.apply op) i
    rw [runs_left, runs_left, hgeo.slots_size, hsame.state, hsame.total, hsame.done]
  · intro i b rank hmark hheld
    obtain ⟨hunused, hold⟩ := hmarks i _ hmark
    have hmarked := h.filled i b rank hold
    change ((s.planner.store.apply op).slots i).state ≠ .Free at hheld
    have hkept : ((s.planner.store.apply op).slots i).key = (s.planner.store.slots i).key ∧
        ((s.planner.store.apply op).slots i).state = (s.planner.store.slots i).state ∧
        ((s.planner.store.apply op).slots i).last_use_token =
          (s.planner.store.slots i).last_use_token := by
      by_cases hfin : op.finishes = some i
      · rcases hmarked.state with ⟨-, -, hown⟩ | ⟨hres, -⟩
        · exact absurd hown (hreports i hfin)
        · rw [report_refused hfin (by rw [hres]; decide)]
          exact ⟨rfl, rfl, rfl⟩
      · rcases h.store.apply_held hop hmarked.held hfin hunused with ⟨-, hfree⟩ | hsame
        · exact absurd hfree hheld
        · exact hsame
    obtain ⟨hkey, hstate, hstamp⟩ := hkept
    refine ⟨hgeo.slots_size ▸ hmarked.lt, hmarked.started, ?_, ?_⟩
    · exact hkey ▸ hmarked.key
    · show ((s.planner.store.apply op).slots i).state = .Filling ∧
          ((s.planner.store.apply op).slots i).last_use_token = 0 ∧ s.Owned i ∨
        ((s.planner.store.apply op).slots i).state = .Resident ∧
          ((s.planner.store.apply op).slots i).last_use_token = _
      rw [hstate, hstamp]
      exact hmarked.state

/-! ### Whole runs -/

theorem RankInv.step (h : RankInv s) {a : Ranked.Action} (hstep : s.step a = some s') :
    RankInv s' := by
  obtain ⟨s₁, hact, rfl⟩ := Option.map_eq_some_iff.mp hstep
  cases a with
  | start order inflight keep =>
    cases hact
    exact h.started order inflight keep
  | fill a =>
    obtain ⟨r, hr, rfl⟩ := Option.map_eq_some_iff.mp hact
    cases a with
    | pump p =>
      obtain ⟨planner, hplanner, rfl⟩ := Option.map_eq_some_iff.mp hr
      simp only [Backfills.step] at hplanner
      split at hplanner
      next hp => exact h.pump_step hp hplanner
      · cases hplanner
    | submit p refusal =>
      obtain ⟨planner, hplanner, rfl⟩ := Option.map_eq_some_iff.mp hr
      simp only [Backfills.step] at hplanner
      split at hplanner
      next hp => exact h.submit_step hp hplanner
      · cases hplanner
    | callback b =>
      obtain ⟨planner, hplanner, rfl⟩ := Option.map_eq_some_iff.mp hr
      simp only [Backfills.step] at hplanner
      split at hplanner
      · cases hplanner
      next hidle =>
        cases hplanner
        exact h.callback b (not_or.mp hidle).2 ⟨rfl, rfl⟩
    | stop =>
      have hr' : (s.planner.step .stop).map (fun planner => { s.toRestore with planner }) =
          some r := hr
      obtain ⟨planner, hplanner, rfl⟩ := Option.map_eq_some_iff.mp hr'
      cases hplanner
      exact h.stopped
    | land k ok =>
      simp only [Restore.step] at hr
      split at hr
      · cases hr
      next slot stamp hk =>
        obtain ⟨planner, hplanner, rfl⟩ := Option.map_eq_some_iff.mp hr
        cases hplanner
        exact h.land ok hk
  -- what others do to the store, when no run of ours is in its way
  | use op =>
    simp only [Ranked.act] at hact
    split at hact
    next hallowed =>
      cases hact
      exact h.used hallowed.1 hallowed.2
    · cases hact

theorem RankInv.init (hinit : ranked_system.init s) : RankInv s := by
  obtain ⟨store, manifest, hreach, rfl⟩ := hinit
  refine ⟨reachable_inv hreach, ⟨?_, ?_, ?_, ?_, ?_⟩, ?_, ?_⟩
  · exact fun p hp => absurd hp (Nat.not_lt_zero p)
  · exact fun _ _ => rfl
  · intro b
    show ([] : List ExpertKey).length < kDemandStampBase
    decide
  · exact fun p hp => absurd hp (Nat.not_lt_zero p)
  · exact fun r hr => absurd hr List.not_mem_nil
  · exact fun i hown => absurd hown (Nat.lt_irrefl 0)
  · intro i b rank hmark
    cases hmark

theorem reachable_rank_inv (h : LTS.Reachable ranked_system s) : RankInv s := by
  apply h.invariant
  · intro s hinit
    exact .init hinit
  · intro s a s' hinv hstep
    exact hinv.step hstep

end CachedMoe.Store
