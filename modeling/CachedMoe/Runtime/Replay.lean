import CachedMoe.Runtime.KvStore

/-! # Window replay

    `plan_ring` and `run_replay` of `runtime/session.cpp`. A restored context has lost its
    window ring; the positions the next step needs and the ring does not hold are run
    through the decode path again, and after every replayed step the compressed row and
    index key it completed are put back, after the last one the carried state.

    The decode step itself is a parameter: an `Engine` is the KV store, the token history
    and whatever else the step keeps. -/

namespace CachedMoe.Runtime

open CachedMoe KvStore

/-! ### The plan -/

structure ReplayPlan where
  /-- Context length after the operation. -/
  keep : Nat := 0
  /-- Positions `[first, end_)` are replayed. -/
  first : Nat := 0
  end_ : Nat := 0
  deriving Repr, DecidableEq

def ReplayPlan.steps (p : ReplayPlan) : Nat := p.end_ - p.first

/-- The oldest position a step at `k` attends to. -/
def need_lo (w k : Nat) : Nat := if k > w - 1 then k - (w - 1) else 0

/-- The scan of `plan_ring` over `n` positions from `x` on: the first and the last position
    the ring does not hold, on top of those found so far. -/
def missing_range (kv : KvStore) (x : Nat) : (n : Nat) → Option (Nat × Nat)
  | 0 => none
  | n + 1 =>
    let found := missing_range kv x n
    if kv.ring_holds (x + n) then found
    else some ((found.map Prod.fst).getD (x + n), x + n)

/-- The positions a step at `k` needs and the store does not hold, as one range starting on
    an even position. -/
def plan_ring (kv : KvStore) (k replay_max : Nat) : ReplayPlan :=
  if k = 0 then { keep := k }
  else
    let w := kv.cfg.window
    let lo := need_lo w k
    match missing_range kv lo (k - lo) with
    | none => { keep := k }
    | some (lo, hi) =>
      let end_ := hi + 1
      let r := max 1 (min replay_max w)
      let first := if end_ - lo > r then end_ - r else lo
      -- a ratio-2 group must not complete on the replay's first step
      let first := if first % 2 = 1 then first - 1 else first
      { keep := k, first := first, end_ := end_ }

/-! ### The replay -/

/-- The engine as the replay sees it; `Rest` is everything else a decode step keeps. -/
structure Engine (Rest : Type) where
  kv : KvStore
  history : List Nat
  rest : Rest

/-- `Engine::decode_step(token, position)`. -/
abbrev DecodeStep (Rest : Type) := Engine Rest → Nat → Nat → Result Unit × Engine Rest

section Replay

variable {Rest : Type} (decode_step : DecodeStep Rest)

/-- The loop of `run_replay`: `n` positions from `q` on, over the history `hist`. -/
@[grind =] def replay_loop (hist : List Nat) (backup : KvRowBackup) :
    (q n : Nat) → Engine Rest → Result Unit × Engine Rest
  | _, 0, e => (.ok (), e)
  | q, n + 1, e =>
    match decode_step e (hist.getD q 0) q with
    | (.error err, e) => (.error err, e)
    | (.ok (), e) =>
      match e.kv.restore_rows backup q with
      | (.error err, kv) => (.error err, { e with kv := kv })
      | (.ok (), kv) => replay_loop hist backup (q + 1) n { e with kv := kv }

def run_replay (e : Engine Rest) (plan : ReplayPlan) : Result Unit × Engine Rest :=
  if plan.steps = 0 then (.ok (), e)
  else
    match e.kv.backup_rows plan.first plan.end_ with
    | .error err => (.error err, e)
    | .ok backup =>
      let e := { e with kv := e.kv.set_window_floor plan.first }
      match replay_loop decode_step e.history backup plan.first plan.steps e with
      | (.error err, e) => (.error err, e)
      | (.ok (), e) =>
        let (r, kv) := e.kv.restore_carry backup
        (r, { e with kv := kv })

end Replay

/-! ### Rows and backups -/

/-- The row of an owner's planes that a step at `q` completes, when it completes one. -/
def completed_row (c : KvStoreConfig) (q oi : Nat) : Nat := (q + 1) / c.owner_ratio oi - 1

/-- Element `x` of an owner's plane, with `dim` elements a row, is in the row that the step
    at `q` completes. -/
def InCompletedRow (c : KvStoreConfig) (q oi dim x : Nat) : Prop :=
  (q + 1) % c.owner_ratio oi = 0 ∧
    completed_row c q oi * dim ≤ x ∧ x < completed_row c q oi * dim + dim

instance (c : KvStoreConfig) (q oi dim x : Nat) : Decidable (InCompletedRow c q oi dim x) :=
  inferInstanceAs (Decidable (_ ∧ _ ∧ _))

theorem completed_row_in_backup {first end_ q ratio : Nat} (hratio : 0 < ratio)
    (hq : first ≤ q ∧ q < end_) (hdvd : (q + 1) % ratio = 0) :
    first / ratio ≤ (q + 1) / ratio - 1 ∧ (q + 1) / ratio - 1 < end_ / ratio := by
  obtain ⟨m, hm⟩ := Nat.dvd_of_mod_eq_zero hdvd
  have hdiv : (q + 1) / ratio = m := by
    rw [hm]
    exact Nat.mul_div_cancel_left m hratio
  have hpos : 0 < m := by
    rcases Nat.eq_zero_or_pos m with hm0 | hm0
    · rw [hm0, Nat.mul_zero] at hm
      omega
    · exact hm0
  have hlo : first / ratio < m := Nat.div_lt_of_lt_mul (by omega)
  have hhi : m ≤ end_ / ratio := (Nat.le_div_iff_mul_le hratio).mpr (by rw [Nat.mul_comm]; omega)
  omega

theorem backup_planes_eq {kv : KvStore} {first end_ : Nat} {ois : List Nat}
    {planes : List BackupPlane} (h : kv.backup_planes first end_ ois = .ok planes) :
    planes = ois.map (kv.backup_plane first end_) := by
  induction ois generalizing planes with
  | nil =>
    cases h
    rfl
  | cons oi rest ih =>
    rw [backup_planes] at h
    dsimp only at h
    split at h
    · cases h
    split at h
    · cases h
    · next ps hps =>
      cases h
      rw [List.map_cons, ih hps]

theorem backup_planes_ok {kv : KvStore} {first end_ : Nat} {ois : List Nat}
    (h : ∀ oi ∈ ois, (kv.backup_plane first end_ oi).first_row +
      (kv.backup_plane first end_ oi).rows ≤ kv.rows_hw oi) :
    ∃ planes, kv.backup_planes first end_ ois = .ok planes := by
  induction ois with
  | nil => exact ⟨[], rfl⟩
  | cons oi rest ih =>
    have hoi := h oi List.mem_cons_self
    obtain ⟨planes, hplanes⟩ := ih fun oi' hoi' => h oi' (List.mem_cons_of_mem _ hoi')
    refine ⟨kv.backup_plane first end_ oi :: planes, ?_⟩
    rw [backup_planes]
    dsimp only
    rw [if_neg (Nat.not_lt.mpr hoi), hplanes]

/-- Putting back a row of the backup of `kv₀`: that row is `kv₀`'s again, nothing else
    changes. Stated for a plane of `dim` elements a row. -/
theorem write_backup_row (m m₀ : Nat → UInt16) {first_row rows r dim : Nat}
    (hr : first_row ≤ r ∧ r < first_row + rows) (x : Nat) :
    Region.write m (r * dim)
        (((Region.read m₀ (first_row * dim) (rows * dim)).drop ((r - first_row) * dim)).take dim) x =
      if r * dim ≤ x ∧ x < r * dim + dim then m₀ x else m x := by
  have hfit : (r - first_row) * dim + dim ≤ rows * dim := by
    calc (r - first_row) * dim + dim = (r - first_row + 1) * dim := (Nat.succ_mul _ _).symm
      _ ≤ rows * dim := Nat.mul_le_mul_right dim (by omega)
  have hoff : first_row * dim + (r - first_row) * dim = r * dim := by
    rw [← Nat.add_mul, Nat.add_sub_cancel' hr.1]
  rw [Region.take_drop_read m₀ hfit, hoff, Region.write_read]

/-! ### Restoring rows -/

/-- The store after the rows that `q` completes were put back for the owners of `ois`. -/
def rows_put_back (kv kv₀ : KvStore) (q : Nat) (ois : List Nat) : KvStore :=
  { kv with
    cmp := fun oi x =>
      if oi ∈ ois ∧ InCompletedRow kv₀.cfg q oi kv₀.cfg.latent_dim x then kv₀.cmp oi x
      else kv.cmp oi x
    key := fun oi x =>
      if oi ∈ ois ∧ InCompletedRow kv₀.cfg q oi kv₀.cfg.index_dim x then kv₀.key oi x
      else kv.key oi x }

section RestoreRows

variable {kv₀ kv : KvStore} {first end_ q : Nat}

theorem put_row_eq (hcfg : kv.cfg = kv₀.cfg) (hq : first ≤ q ∧ q < end_) {oi : Nat}
    (hdvd : (q + 1) % kv₀.cfg.owner_ratio oi = 0) :
    kv.put_row (kv₀.backup_plane first end_ oi) oi (completed_row kv₀.cfg q oi) =
      rows_put_back kv kv₀ q [oi] := by
  have hrow := completed_row_in_backup (kv₀.cfg.owner_ratio_pos oi) hq hdvd
  have hin : first / kv₀.cfg.owner_ratio oi ≤ completed_row kv₀.cfg q oi ∧
      completed_row kv₀.cfg q oi < first / kv₀.cfg.owner_ratio oi +
        (end_ / kv₀.cfg.owner_ratio oi - first / kv₀.cfg.owner_ratio oi) := by
    unfold completed_row
    omega
  -- the same computation on the compressed plane and on the index keys
  have hcmp : ∀ oi' x, (kv.put_row (kv₀.backup_plane first end_ oi) oi
      (completed_row kv₀.cfg q oi)).cmp oi' x = (rows_put_back kv kv₀ q [oi]).cmp oi' x := by
    intro oi' x
    by_cases hoi : oi' = oi
    · subst hoi
      simp only [put_row, backup_plane, rows_put_back, Function.update_self, hcfg]
      rw [write_backup_row _ _ hin]
      simp [InCompletedRow, hdvd]
    · simp [put_row, rows_put_back, hoi]
  have hkey : ∀ oi' x, (kv.put_row (kv₀.backup_plane first end_ oi) oi
      (completed_row kv₀.cfg q oi)).key oi' x = (rows_put_back kv kv₀ q [oi]).key oi' x := by
    intro oi' x
    by_cases hoi : oi' = oi
    · subst hoi
      simp only [put_row, backup_plane, rows_put_back, Function.update_self, hcfg]
      rw [write_backup_row _ _ hin]
      simp [InCompletedRow, hdvd]
    · simp [put_row, rows_put_back, hoi]
  have hcmp' := funext fun oi' => funext (hcmp oi')
  have hkey' := funext fun oi' => funext (hkey oi')
  simp only [put_row, rows_put_back] at hcmp' hkey' ⊢
  rw [hcmp', hkey']

theorem rows_put_back_cons (oi : Nat) (ois : List Nat) :
    rows_put_back (rows_put_back kv kv₀ q [oi]) kv₀ q ois = rows_put_back kv kv₀ q (oi :: ois) := by
  unfold rows_put_back
  congr 1
  · funext oi' x
    simp only [List.mem_cons]
    grind
  · funext oi' x
    simp only [List.mem_cons]
    grind

/-- A plane whose group `q` does not complete has nothing to put back. -/
theorem rows_put_back_of_open {oi : Nat} (ois : List Nat)
    (hopen : (q + 1) % kv₀.cfg.owner_ratio oi ≠ 0) :
    rows_put_back kv kv₀ q (oi :: ois) = rows_put_back kv kv₀ q ois := by
  have hnot : ∀ dim x, ¬ InCompletedRow kv₀.cfg q oi dim x := fun dim x h => hopen h.1
  unfold rows_put_back
  congr 1
  · funext oi' x
    by_cases hoi : oi' = oi
    · subst hoi
      simp [hnot]
    · simp [hoi]
  · funext oi' x
    by_cases hoi : oi' = oi
    · subst hoi
      simp [hnot]
    · simp [hoi]

theorem owner_index_of_cfg (hcfg : kv.cfg = kv₀.cfg) {oi : Nat}
    (hoi : oi < kv₀.cfg.owners.length) : kv.owner_index (kv₀.cfg.owners.getD oi 0) = some oi := by
  rw [← hcfg]
  rw [← hcfg] at hoi
  exact owner_index_owner kv hoi

/-- `restore_rows` over the backup of `kv₀` puts the completed rows back, and succeeds. -/
theorem restore_plane_rows_eq (hq : first ≤ q ∧ q < end_) {ois : List Nat}
    (hois : ∀ oi ∈ ois, oi < kv₀.cfg.owners.length) (hcfg : kv.cfg = kv₀.cfg) :
    restore_plane_rows q (ois.map (kv₀.backup_plane first end_)) kv =
      (.ok (), rows_put_back kv kv₀ q ois) := by
  induction ois generalizing kv with
  | nil => simp [restore_plane_rows, rows_put_back]
  | cons oi ois ih =>
    have hrest : ∀ oi' ∈ ois, oi' < kv₀.cfg.owners.length := fun oi' hoi' =>
      hois oi' (List.mem_cons_of_mem oi hoi')
    have hratio : (kv₀.backup_plane first end_ oi).ratio = kv₀.cfg.owner_ratio oi := rfl
    rw [List.map_cons, restore_plane_rows, hratio]
    by_cases hdvd : (q + 1) % kv₀.cfg.owner_ratio oi = 0
    · have hrow := completed_row_in_backup (kv₀.cfg.owner_ratio_pos oi) hq hdvd
      have hin : ¬ ((q + 1) / kv₀.cfg.owner_ratio oi - 1 <
            (kv₀.backup_plane first end_ oi).first_row ∨
          (q + 1) / kv₀.cfg.owner_ratio oi - 1 ≥ (kv₀.backup_plane first end_ oi).first_row +
            (kv₀.backup_plane first end_ oi).rows) := by
        simp only [backup_plane]
        omega
      have howner : kv.owner_index (kv₀.backup_plane first end_ oi).layer = some oi :=
        owner_index_of_cfg hcfg (hois oi List.mem_cons_self)
      simp only [hdvd, ne_eq, not_true_eq_false, if_false, hin, howner]
      show restore_plane_rows q _
        (kv.put_row (kv₀.backup_plane first end_ oi) oi (completed_row kv₀.cfg q oi)) = _
      have hput : (rows_put_back kv kv₀ q [oi]).cfg = kv₀.cfg := hcfg
      rw [put_row_eq hcfg hq hdvd, ih hrest hput, rows_put_back_cons]
    · rw [if_pos (by exact hdvd), ih hrest hcfg, rows_put_back_of_open ois hdvd]

end RestoreRows

/-! ### Restoring the carry -/

/-- Offset `x` of the state region belongs to one of the owners of `ois`. -/
def InStride (c : KvStoreConfig) (ois : List Nat) (x : Nat) : Prop :=
  ∃ oi ∈ ois, (oi * c.state_stride ≤ x ∧ x < oi * c.state_stride + c.state_stride) ∨
    (c.score_base + oi * c.state_stride ≤ x ∧
      x < c.score_base + oi * c.state_stride + c.state_stride)

/-- One owner of the loop of `restore_carry`: its two ranges are `kv₀`'s again, and an
    offset that already was stays so. -/
theorem put_carry_spec {kv₀ kv : KvStore} (first end_ : Nat) (hcfg : kv.cfg = kv₀.cfg) (oi x : Nat)
    (hx : ((oi * kv₀.cfg.state_stride ≤ x ∧
          x < oi * kv₀.cfg.state_stride + kv₀.cfg.state_stride) ∨
        (kv₀.cfg.score_base + oi * kv₀.cfg.state_stride ≤ x ∧
          x < kv₀.cfg.score_base + oi * kv₀.cfg.state_stride + kv₀.cfg.state_stride)) ∨
      kv.state x = kv₀.state x) :
    (kv.put_carry (kv₀.backup_plane first end_ oi) oi).state x = kv₀.state x := by
  simp only [put_carry, backup_plane, hcfg, Region.write_read]
  grind

/-- `restore_carry` over the backup of `kv₀` gives the carried state back, and succeeds. -/
theorem restore_plane_carry_spec {kv₀ kv : KvStore} (first end_ : Nat) {ois : List Nat}
    (hois : ∀ oi ∈ ois, oi < kv₀.cfg.owners.length) (hcfg : kv.cfg = kv₀.cfg) :
    ∃ state, restore_plane_carry (ois.map (kv₀.backup_plane first end_)) kv =
        (.ok (), { kv with state := state }) ∧
      ∀ x, (InStride kv₀.cfg ois x ∨ kv.state x = kv₀.state x) → state x = kv₀.state x := by
  induction ois generalizing kv with
  | nil =>
    refine ⟨kv.state, rfl, fun x hx => ?_⟩
    rcases hx with ⟨oi, hoi, _⟩ | hx
    · cases hoi
    · exact hx
  | cons oi ois ih =>
    have hrest : ∀ oi' ∈ ois, oi' < kv₀.cfg.owners.length := fun oi' hoi' =>
      hois oi' (List.mem_cons_of_mem oi hoi')
    have howner : kv.owner_index (kv₀.backup_plane first end_ oi).layer = some oi :=
      owner_index_of_cfg hcfg (hois oi List.mem_cons_self)
    have hput := put_carry_spec first end_ hcfg oi
    obtain ⟨state, hstate, hspec⟩ := ih hrest
      (show (kv.put_carry (kv₀.backup_plane first end_ oi) oi).cfg = kv₀.cfg from hcfg)
    refine ⟨state, ?_, fun x hx => hspec x ?_⟩
    · rw [List.map_cons, restore_plane_carry, howner]
      exact hstate
    · rcases hx with ⟨oi', hoi', hx⟩ | hx
      · rcases List.mem_cons.mp hoi' with rfl | hmem
        · exact .inr (hput x (.inl hx))
        · exact .inl ⟨oi', hmem, hx⟩
      · exact .inr (hput x (.inr hx))

/-! ### What a replay leaves -/

/-- A successful replay step at `q` leaves the store's shape alone, and of the compressed
    rows and index keys it writes only those that `q` completes. The ring slot of `q`, the
    carry and everything else it may write as it likes. -/
structure ReplayFrame {Rest : Type} (decode_step : DecodeStep Rest) : Prop where
  cfg : ∀ {e token q e'}, decode_step e token q = (.ok (), e') → e'.kv.cfg = e.kv.cfg
  valid : ∀ {e token q e'}, decode_step e token q = (.ok (), e') → e'.kv.valid = e.kv.valid
  cmp : ∀ {e token q e'}, decode_step e token q = (.ok (), e') → ∀ oi x,
    ¬ InCompletedRow e.kv.cfg q oi e.kv.cfg.latent_dim x → e'.kv.cmp oi x = e.kv.cmp oi x
  key : ∀ {e token q e'}, decode_step e token q = (.ok (), e') → ∀ oi x,
    ¬ InCompletedRow e.kv.cfg q oi e.kv.cfg.index_dim x → e'.kv.key oi x = e.kv.key oi x

/-- The planes of the owners are the same in both stores. -/
structure SameRows (kv₀ kv : KvStore) : Prop where
  cfg : kv.cfg = kv₀.cfg
  valid : kv.valid = kv₀.valid
  cmp : ∀ oi < kv₀.cfg.owners.length, kv.cmp oi = kv₀.cmp oi
  key : ∀ oi < kv₀.cfg.owners.length, kv.key oi = kv₀.key oi

/-- The carried state of the owners is the same in both stores. -/
def SameCarry (kv₀ kv : KvStore) : Prop :=
  ∀ oi < kv₀.cfg.owners.length, ∀ j < kv₀.cfg.state_stride,
    kv.state (oi * kv₀.cfg.state_stride + j) = kv₀.state (oi * kv₀.cfg.state_stride + j) ∧
    kv.state (kv₀.cfg.score_base + oi * kv₀.cfg.state_stride + j) =
      kv₀.state (kv₀.cfg.score_base + oi * kv₀.cfg.state_stride + j)

section Run

variable {Rest : Type} {decode_step : DecodeStep Rest} {kv₀ : KvStore} {first end_ : Nat}

/-- The backup of `kv₀` for the range, as `backup_rows` builds it. -/
def backup_of (kv₀ : KvStore) (first end_ : Nat) : KvRowBackup :=
  { first_pos := first
    end_pos := end_
    planes := (List.range kv₀.cfg.owners.length).map (kv₀.backup_plane first end_) }

theorem restore_rows_backup_of {kv : KvStore} {q : Nat} (hvalid : kv.valid)
    (hcfg : kv.cfg = kv₀.cfg) (hq : first ≤ q ∧ q < end_) :
    kv.restore_rows (backup_of kv₀ first end_) q =
      (.ok (), rows_put_back kv kv₀ q (List.range kv₀.cfg.owners.length)) := by
  rw [restore_rows, if_neg (not_not.mpr hvalid)]
  exact restore_plane_rows_eq hq (fun oi hoi => List.mem_range.mp hoi) hcfg

/-- One replayed position: what the step overwrote, `restore_rows` puts back. -/
theorem replay_step_rows (hframe : ReplayFrame decode_step) {e e' : Engine Rest} {token q : Nat}
    (hrows : SameRows kv₀ e.kv) (hstep : decode_step e token q = (.ok (), e')) :
    SameRows kv₀ (rows_put_back e'.kv kv₀ q (List.range kv₀.cfg.owners.length)) := by
  have hcfg := (hframe.cfg hstep).trans hrows.cfg
  refine ⟨hcfg, (hframe.valid hstep).trans hrows.valid, fun oi hoi => ?_, fun oi hoi => ?_⟩
  · funext x
    simp only [rows_put_back, List.mem_range, hoi, true_and]
    split
    · rfl
    · next hx =>
      rw [← hrows.cfg] at hx
      rw [hframe.cmp hstep oi x hx, hrows.cmp oi hoi]
  · funext x
    simp only [rows_put_back, List.mem_range, hoi, true_and]
    split
    · rfl
    · next hx =>
      rw [← hrows.cfg] at hx
      rw [hframe.key hstep oi x hx, hrows.key oi hoi]

/-- The loop keeps the rows: `n` positions from `q` on, all inside the backed-up range. -/
theorem replay_loop_rows (hframe : ReplayFrame decode_step) (hvalid : kv₀.valid) (hist : List Nat)
    {q n : Nat} {e e' : Engine Rest} (hq : first ≤ q) (hend : q + n ≤ end_)
    (hrows : SameRows kv₀ e.kv)
    (h : replay_loop decode_step hist (backup_of kv₀ first end_) q n e = (.ok (), e')) :
    SameRows kv₀ e'.kv := by
  induction n generalizing q e with
  | zero =>
    obtain rfl : e = e' := by simpa [replay_loop] using h
    exact hrows
  | succ n ih =>
    rw [replay_loop] at h
    split at h
    · cases h
    next e₁ hstep =>
    have hcfg := (hframe.cfg hstep).trans hrows.cfg
    have hvalid₁ : e₁.kv.valid := by rw [hframe.valid hstep, hrows.valid, hvalid]
    rw [restore_rows_backup_of hvalid₁ hcfg (by omega)] at h
    exact ih (by omega) (by omega) (replay_step_rows hframe hrows hstep) h

theorem replay_loop_ok (hframe : ReplayFrame decode_step) (hvalid : kv₀.valid) (hist : List Nat)
    (hsteps : ∀ e token q, ∃ e', decode_step e token q = (.ok (), e'))
    {q n : Nat} {e : Engine Rest} (hq : first ≤ q) (hend : q + n ≤ end_)
    (hrows : SameRows kv₀ e.kv) :
    ∃ e', replay_loop decode_step hist (backup_of kv₀ first end_) q n e = (.ok (), e') := by
  induction n generalizing q e with
  | zero => exact ⟨e, rfl⟩
  | succ n ih =>
    obtain ⟨e₁, hstep⟩ := hsteps e (hist.getD q 0) q
    have hcfg := (hframe.cfg hstep).trans hrows.cfg
    have hvalid₁ : e₁.kv.valid := by rw [hframe.valid hstep, hrows.valid, hvalid]
    obtain ⟨e', he'⟩ := ih (q := q + 1)
      (e := { e₁ with kv := rows_put_back e₁.kv kv₀ q (List.range kv₀.cfg.owners.length) })
      (by omega) (by omega) (replay_step_rows hframe hrows hstep)
    refine ⟨e', ?_⟩
    rw [replay_loop, hstep]
    have hrestore : e₁.kv.restore_rows (backup_of kv₀ first end_) q = _ :=
      restore_rows_backup_of hvalid₁ hcfg ⟨hq, by omega⟩
    simp only [hrestore]
    exact he'

theorem restore_carry_backup_of {kv : KvStore} (hvalid : kv₀.valid) (hrows : SameRows kv₀ kv) :
    ∃ kv', kv.restore_carry (backup_of kv₀ first end_) = (.ok (), kv') ∧
      SameRows kv₀ kv' ∧ SameCarry kv₀ kv' := by
  have hvalid' : kv.valid := by rw [hrows.valid, hvalid]
  obtain ⟨state, hstate, hspec⟩ := restore_plane_carry_spec first end_
    (fun oi hoi => List.mem_range.mp hoi) hrows.cfg
  refine ⟨{ kv with state := state }, ?_, ⟨hrows.cfg, hrows.valid, hrows.cmp, hrows.key⟩, ?_⟩
  · rw [restore_carry, if_neg (not_not.mpr hvalid')]
    exact hstate
  · intro oi hoi j hj
    have hmem := List.mem_range.mpr hoi
    constructor
    · exact hspec _ (.inl ⟨oi, hmem, .inl ⟨by omega, by omega⟩⟩)
    · exact hspec _ (.inl ⟨oi, hmem, .inr ⟨by omega, by omega⟩⟩)

end Run

/-- A backup that `backup_rows` returns is the one of the store it was taken from. -/
theorem backup_rows_eq {kv : KvStore} {first end_ : Nat} {backup : KvRowBackup}
    (h : kv.backup_rows first end_ = .ok backup) :
    kv.valid ∧ backup = backup_of kv first end_ := by
  unfold backup_rows at h
  split at h
  · cases h
  next hvalid =>
  split at h
  · cases h
  · next planes hplanes =>
    cases h
    rw [backup_planes_eq hplanes]
    exact ⟨by simpa using hvalid, rfl⟩

theorem backup_rows_ok {kv : KvStore} (hvalid : kv.valid) {first end_ : Nat} (hle : first ≤ end_)
    (hrows : ∀ oi < kv.cfg.owners.length, end_ / kv.cfg.owner_ratio oi ≤ kv.rows_hw oi) :
    kv.backup_rows first end_ = .ok (backup_of kv first end_) := by
  have hfit : ∀ oi ∈ List.range kv.cfg.owners.length,
      (kv.backup_plane first end_ oi).first_row + (kv.backup_plane first end_ oi).rows ≤
        kv.rows_hw oi := by
    intro oi hoi
    have hoi' := hrows oi (List.mem_range.mp hoi)
    have hmono : first / kv.cfg.owner_ratio oi ≤ end_ / kv.cfg.owner_ratio oi :=
      Nat.div_le_div_right hle
    simp only [backup_plane]
    omega
  obtain ⟨planes, hplanes⟩ := backup_planes_ok hfit
  rw [backup_rows, if_neg (not_not.mpr hvalid), hplanes, backup_planes_eq hplanes]
  rfl

section RunReplay

variable {Rest : Type} {decode_step : DecodeStep Rest}

theorem same_rows_floor (kv : KvStore) (position : Nat) :
    SameRows kv (kv.set_window_floor position) :=
  ⟨rfl, rfl, fun _ _ => rfl, fun _ _ => rfl⟩

/-- A replay that returns has put back every row, index key and carry. -/
theorem run_replay_restores (hframe : ReplayFrame decode_step) {e e' : Engine Rest}
    {plan : ReplayPlan} (h : run_replay decode_step e plan = (.ok (), e')) :
    SameRows e.kv e'.kv ∧ SameCarry e.kv e'.kv := by
  have hsame : SameRows e.kv e.kv := ⟨rfl, rfl, fun _ _ => rfl, fun _ _ => rfl⟩
  unfold run_replay at h
  split at h
  · cases h
    exact ⟨hsame, fun _ _ _ _ => ⟨rfl, rfl⟩⟩
  next hsteps =>
  split at h
  · cases h
  next backup hbackup =>
  obtain ⟨hvalid, rfl⟩ := backup_rows_eq hbackup
  dsimp only at h
  split at h
  · cases h
  next e₁ hloop =>
  have hend : plan.first + plan.steps ≤ plan.end_ := by
    unfold ReplayPlan.steps at hsteps ⊢
    omega
  have hrows : SameRows e.kv e₁.kv := replay_loop_rows hframe hvalid e.history le_rfl hend
    (same_rows_floor e.kv plan.first) hloop
  obtain ⟨kv', hcarry, hrows', hcarry'⟩ := restore_carry_backup_of hvalid hrows
  rw [hcarry] at h
  cases h
  exact ⟨hrows', hcarry'⟩

/-- A replay returns when its decode steps do and the rows of its range were written. -/
theorem run_replay_returns (hframe : ReplayFrame decode_step) {e : Engine Rest}
    {plan : ReplayPlan} (hvalid : e.kv.valid)
    (hrows : ∀ oi < e.kv.cfg.owners.length, plan.end_ / e.kv.cfg.owner_ratio oi ≤ e.kv.rows_hw oi)
    (hsteps : ∀ e token q, ∃ e', decode_step e token q = (.ok (), e')) :
    ∃ e', run_replay decode_step e plan = (.ok (), e') := by
  unfold run_replay
  split
  · exact ⟨e, rfl⟩
  next hne =>
  have hle : plan.first + plan.steps ≤ plan.end_ ∧ plan.first ≤ plan.end_ := by
    unfold ReplayPlan.steps at hne ⊢
    omega
  rw [backup_rows_ok hvalid hle.2 hrows]
  dsimp only
  have hsame := same_rows_floor e.kv plan.first
  obtain ⟨e₁, hloop⟩ := replay_loop_ok hframe hvalid e.history hsteps le_rfl hle.1
    (e := { e with kv := e.kv.set_window_floor plan.first }) hsame
  have hrows₁ := replay_loop_rows hframe hvalid e.history le_rfl hle.1 hsame hloop
  obtain ⟨kv', hcarry, _⟩ := restore_carry_backup_of hvalid hrows₁
  rw [hloop]
  dsimp only
  rw [hcarry]
  exact ⟨_, rfl⟩

/-- Replay leaves committed state alone: for the plan of `plan_ring` at any position, a
    replay whose steps write no compressed rows or index keys but those they complete ends
    with every row, index key and carry as it was; and it does end, when the store has the
    rows of the range and the steps succeed. -/
theorem replay_keeps_committed (hframe : ReplayFrame decode_step) (e : Engine Rest)
    (k replay_max : Nat) :
    (∀ e', run_replay decode_step e (plan_ring e.kv k replay_max) = (.ok (), e') →
      SameRows e.kv e'.kv ∧ SameCarry e.kv e'.kv) ∧
    (e.kv.valid →
      (∀ oi < e.kv.cfg.owners.length,
        (plan_ring e.kv k replay_max).end_ / e.kv.cfg.owner_ratio oi ≤ e.kv.rows_hw oi) →
      (∀ e token q, ∃ e', decode_step e token q = (.ok (), e')) →
      ∃ e', run_replay decode_step e (plan_ring e.kv k replay_max) = (.ok (), e')) :=
  ⟨fun _ h => run_replay_restores hframe h, run_replay_returns hframe⟩

end RunReplay

/-! #### A replay at work -/

/-- A step that overwrites everything the frame lets it. -/
def scribble_step : DecodeStep Unit := fun e token q =>
  (.ok (), { e with kv := { e.kv with
    slot_pos := Function.update e.kv.slot_pos (e.kv.ring_slot q) q
    cmp := fun oi x =>
      if InCompletedRow e.kv.cfg q oi e.kv.cfg.latent_dim x then token.toUInt16 else e.kv.cmp oi x
    key := fun oi x =>
      if InCompletedRow e.kv.cfg q oi e.kv.cfg.index_dim x then token.toUInt16 else e.kv.key oi x
    state := fun _ => token.toUInt32 } })

theorem scribble_step_frame : ReplayFrame scribble_step where
  cfg := by
    intro e token q e' h
    cases h
    rfl
  valid := by
    intro e token q e' h
    cases h
    rfl
  cmp := by
    intro e token q e' h oi x hx
    cases h
    exact if_neg hx
  key := by
    intro e token q e' h oi x hx
    cases h
    exact if_neg hx

/-- Two owners, at ratio 2 and 1, and a four-slot ring that lost position 4 to position 8. -/
def worn_engine : Engine Unit where
  kv :=
    { cfg :=
        { layers := 2, window := 4, window_pos := KvStoreConfig.small_window_pos,
          latent_dim := 2, index_dim := 1, max_context := 64, max_ratio := 2, plane_of := [some 0, some 1], ratio := [2, 1] }
      valid := true
      cap := 64
      rows_hw := fun _ => 10
      slot_pos := fun s => if s = 0 then 8 else if s = 1 then 5 else s
      cmp := fun oi x => (100 * oi + x).toUInt16
      key := fun oi x => (200 * oi + x).toUInt16
      state := fun x => x.toUInt32 }
  history := [11, 12, 13, 14, 15, 16]
  rest := ()

theorem worn_engine_plan : plan_ring worn_engine.kv 6 4 = { keep := 6, first := 4, end_ := 5 } := by
  decide

theorem worn_engine_rows : ∀ oi < worn_engine.kv.cfg.owners.length,
    (plan_ring worn_engine.kv 6 4).end_ / worn_engine.kv.cfg.owner_ratio oi ≤
      worn_engine.kv.rows_hw oi := by
  intro oi _
  rw [worn_engine_plan]
  show 5 / _ ≤ 10
  exact (Nat.div_le_self _ _).trans (by decide)

theorem replay_keeps_committed_worn :
    ∃ e', run_replay scribble_step worn_engine (plan_ring worn_engine.kv 6 4) = (.ok (), e') ∧
      SameRows worn_engine.kv e'.kv ∧ SameCarry worn_engine.kv e'.kv := by
  have h := replay_keeps_committed scribble_step_frame worn_engine 6 4
  obtain ⟨e', he'⟩ := h.2 rfl worn_engine_rows fun e token q => ⟨_, rfl⟩
  exact ⟨e', he', h.1 e' he'⟩

/-! ### The ring after a replay -/

/-- A successful step at `q` records `q` in its ring slot and in no other, and leaves the
    store's shape and the window floor alone. -/
structure RingFrame {Rest : Type} (decode_step : DecodeStep Rest) : Prop where
  cfg : ∀ {e token q e'}, decode_step e token q = (.ok (), e') → e'.kv.cfg = e.kv.cfg
  win_lo : ∀ {e token q e'}, decode_step e token q = (.ok (), e') → e'.kv.win_lo = e.kv.win_lo
  slot_pos : ∀ {e token q e'}, decode_step e token q = (.ok (), e') →
    e'.kv.slot_pos = Function.update e.kv.slot_pos (e.kv.ring_slot q) q

/-- Rows that are put back are of the planes, and carries of the carried state. -/
theorem restore_rows_keeps (kv : KvStore) (b : KvRowBackup) (q : Nat) :
    ∃ cmp key, (kv.restore_rows b q).2 = { kv with cmp := cmp, key := key } := by
  have hplanes : ∀ (planes : List BackupPlane) (kv : KvStore),
      ∃ cmp key, (restore_plane_rows q planes kv).2 = { kv with cmp := cmp, key := key } := by
    intro planes
    induction planes with
    | nil => exact fun kv => ⟨kv.cmp, kv.key, rfl⟩
    | cons p planes ih =>
      intro kv
      rw [restore_plane_rows]
      split
      · exact ih kv
      dsimp only
      split
      · exact ih kv
      cases kv.owner_index p.layer with
      | none => exact ⟨kv.cmp, kv.key, rfl⟩
      | some oi =>
        obtain ⟨cmp, key, hput⟩ := ih (kv.put_row p oi ((q + 1) / p.ratio - 1))
        exact ⟨cmp, key, hput⟩
  unfold restore_rows
  split
  · exact ⟨kv.cmp, kv.key, rfl⟩
  · exact hplanes b.planes kv

theorem restore_carry_keeps (kv : KvStore) (b : KvRowBackup) :
    ∃ state, (kv.restore_carry b).2 = { kv with state := state } := by
  have hplanes : ∀ (planes : List BackupPlane) (kv : KvStore),
      ∃ state, (restore_plane_carry planes kv).2 = { kv with state := state } := by
    intro planes
    induction planes with
    | nil => exact fun kv => ⟨kv.state, rfl⟩
    | cons p planes ih =>
      intro kv
      rw [restore_plane_carry]
      cases kv.owner_index p.layer with
      | none => exact ⟨kv.state, rfl⟩
      | some oi =>
        obtain ⟨state, hstate⟩ := ih (kv.put_carry p oi)
        exact ⟨state, hstate⟩
  unfold KvStore.restore_carry
  split
  · exact ⟨kv.state, rfl⟩
  · exact hplanes b.planes kv

/-- Two positions less than a window apart have different ring slots. -/
theorem ring_slot_ne {w a b : Nat} (hab : a < b) (hw : b < a + w) : a % w ≠ b % w := by
  intro h
  have hzero : (b - a) % w = 0 := Nat.sub_mod_eq_zero_of_mod_eq h.symm
  rw [Nat.mod_eq_of_lt (by omega)] at hzero
  omega

section RingLoop

variable {Rest : Type} {decode_step : DecodeStep Rest}

/-- The ring after `n` replayed positions from `q` on: a slot that none of them uses is as
    it was, and a position whose slot no later one uses is held. -/
theorem replay_loop_ring (hframe : RingFrame decode_step) {hist : List Nat} {b : KvRowBackup}
    {q n : Nat} {e e' : Engine Rest} (h : replay_loop decode_step hist b q n e = (.ok (), e')) :
    e'.kv.cfg = e.kv.cfg ∧ e'.kv.win_lo = e.kv.win_lo ∧
    (∀ s, (∀ x, q ≤ x → x < q + n → x % e.kv.cfg.window ≠ s) →
      e'.kv.slot_pos s = e.kv.slot_pos s) ∧
    (∀ x, q ≤ x → x < q + n →
      (∀ y, x < y → y < q + n → y % e.kv.cfg.window ≠ x % e.kv.cfg.window) →
      e'.kv.slot_pos (x % e.kv.cfg.window) = x) := by
  induction n generalizing q e with
  | zero =>
    cases h
    exact ⟨rfl, rfl, fun _ _ => rfl, fun x hq hx => by omega⟩
  | succ n ih =>
    rw [replay_loop] at h
    split at h
    · cases h
    next e₁ hstep =>
    split at h
    · cases h
    next kv₁ hrestore =>
    obtain ⟨cmp, key, hkv₁⟩ := restore_rows_keeps e₁.kv b q
    rw [hrestore] at hkv₁
    obtain rfl : kv₁ = _ := hkv₁
    obtain ⟨hcfg, hlo, hkeep, hheld⟩ := ih h
    have hcfg₁ : e₁.kv.cfg = e.kv.cfg := hframe.cfg hstep
    have hpos₁ : e₁.kv.slot_pos = Function.update e.kv.slot_pos (q % e.kv.cfg.window) q :=
      hframe.slot_pos hstep
    simp only [hcfg₁, hpos₁] at hcfg hkeep hheld
    have hlo₁ : e₁.kv.win_lo = e.kv.win_lo := hframe.win_lo hstep
    refine ⟨hcfg, hlo.trans hlo₁, ?_, ?_⟩
    · intro s hs
      have hqs : s ≠ q % e.kv.cfg.window := fun heq => hs q le_rfl (by omega) heq.symm
      rw [hkeep s fun x hx hxn => hs x (by omega) (by omega), Function.update_of_ne hqs]
    · intro x hx hxn hlast
      by_cases hxq : x = q
      · -- the step just made, and none of the later ones
        subst hxq
        rw [hkeep _ fun y hy hyn => hlast y (by omega) (by omega), Function.update_self]
      · exact hheld x (by omega) (by omega) fun y hy hyn => hlast y hy (by omega)

end RingLoop

/-! ### What the plan covers -/

/-- The scan finds the first and the last missing position. -/
theorem missing_range_spec (kv : KvStore) (x n : Nat) :
    match missing_range kv x n with
    | none => ∀ y, x ≤ y → y < x + n → kv.ring_holds y
    | some (lo, hi) => x ≤ lo ∧ lo ≤ hi ∧ hi < x + n ∧
        (∀ y, x ≤ y → y < lo → kv.ring_holds y) ∧
        ∀ y, hi < y → y < x + n → kv.ring_holds y := by
  induction n with
  | zero =>
    simp only [missing_range]
    intro y hx hy
    omega
  | succ n ih =>
    rw [missing_range]
    by_cases hheld : kv.ring_holds (x + n)
    · rw [if_pos hheld]
      -- the position just scanned is held: whatever was found stands
      have hlast : ∀ y, y < x + (n + 1) → ¬ y < x + n → kv.ring_holds y := by
        intro y hy hyn
        obtain rfl : y = x + n := by omega
        exact hheld
      cases hfound : missing_range kv x n with
      | none =>
        rw [hfound] at ih
        intro y hx hy
        by_cases hyn : y < x + n
        · exact ih y hx hyn
        · exact hlast y hy hyn
      | some range =>
        obtain ⟨lo, hi⟩ := range
        rw [hfound] at ih
        obtain ⟨hxlo, hlohi, hhi, hbelow, habove⟩ := ih
        refine ⟨hxlo, hlohi, by omega, hbelow, fun y hy hyn => ?_⟩
        by_cases hyn' : y < x + n
        · exact habove y hy hyn'
        · exact hlast y hyn hyn'
    · rw [if_neg hheld]
      cases hfound : missing_range kv x n with
      | none =>
        rw [hfound] at ih
        exact ⟨by simp, by simp, by simp, fun y hx hy => ih y hx (by simpa using hy),
          fun y hy hyn => by omega⟩
      | some range =>
        obtain ⟨lo, hi⟩ := range
        rw [hfound] at ih
        obtain ⟨hxlo, hlohi, hhi, hbelow, _⟩ := ih
        exact ⟨hxlo, show lo ≤ x + n by omega, by omega, hbelow, fun y hy hyn => by omega⟩

/-- The plan at `k`: either nothing is missing, or the missing positions from `first` on are in the
    range, which reaches back at most one position below the window of `k`. A `replay_max` of at
    least a window leaves out none before it. -/
theorem plan_ring_range (kv : KvStore) (k replay_max : Nat) :
    let plan := plan_ring kv k replay_max
    let lo := need_lo kv.cfg.window k
    (plan.steps = 0 ∧ ∀ x, lo ≤ x → x < k → kv.ring_holds x) ∨
    (plan.steps ≠ 0 ∧ lo ≤ plan.first + 1 ∧ plan.end_ ≤ k ∧
      ∀ x, lo ≤ x → x < k → x < plan.first ∧ kv.cfg.window ≤ replay_max ∨ plan.end_ ≤ x →
        kv.ring_holds x) := by
  have hw := kv.cfg.window_pos
  dsimp only
  unfold plan_ring
  by_cases hk : k = 0
  · left
    rw [if_pos hk]
    exact ⟨rfl, fun x _ hx => by omega⟩
  rw [if_neg hk]
  dsimp only
  have hspec := missing_range_spec kv (need_lo kv.cfg.window k) (k - need_lo kv.cfg.window k)
  have hlo : need_lo kv.cfg.window k ≤ k ∧ k < need_lo kv.cfg.window k + kv.cfg.window := by
    unfold need_lo
    split <;> omega
  cases hfound : missing_range kv (need_lo kv.cfg.window k) (k - need_lo kv.cfg.window k) with
  | none =>
    left
    rw [hfound] at hspec
    exact ⟨rfl, fun x hx hxk => hspec x hx (by omega)⟩
  | some range =>
    obtain ⟨lo, hi⟩ := range
    right
    rw [hfound] at hspec
    obtain ⟨hxlo, hlohi, hhi, hbelow, habove⟩ := hspec
    simp only [ReplayPlan.steps]
    have hbound : 0 < max 1 (min replay_max kv.cfg.window) :=
      Nat.lt_of_lt_of_le Nat.one_pos (Nat.le_max_left _ _)
    -- the missing span is shorter than a window, so a cap of a window never cuts it
    obtain ⟨first, hfirst, hle, hlt, huncut⟩ : ∃ first,
        (if hi + 1 - lo > max 1 (min replay_max kv.cfg.window) then
          hi + 1 - max 1 (min replay_max kv.cfg.window) else lo) = first ∧
        lo ≤ first ∧ first ≤ hi ∧ (kv.cfg.window ≤ replay_max → first = lo) := by
      refine ⟨_, rfl, ?_⟩
      split <;> omega
    rw [hfirst]
    refine ⟨?_, ?_, by omega, fun x hx hxk hout => ?_⟩
    · split <;> omega
    · split <;> omega
    · rcases hout with ⟨hxf, hmax⟩ | hxe
      · refine hbelow x hx ?_
        have hsame := huncut hmax
        split at hxf <;> omega
      · exact habove x (by omega) (by omega)

/-- With a `replay_max` of at least a window every missing position is in the range. -/
theorem plan_ring_spec (kv : KvStore) {k replay_max : Nat} (hmax : kv.cfg.window ≤ replay_max) :
    let plan := plan_ring kv k replay_max
    let lo := need_lo kv.cfg.window k
    (plan.steps = 0 ∧ ∀ x, lo ≤ x → x < k → kv.ring_holds x) ∨
    (plan.steps ≠ 0 ∧ lo ≤ plan.first + 1 ∧ plan.end_ ≤ k ∧
      ∀ x, lo ≤ x → x < k → x < plan.first ∨ plan.end_ ≤ x → kv.ring_holds x) :=
  (plan_ring_range kv k replay_max).imp_right fun ⟨hsteps, hlo, hend, hheld⟩ =>
    ⟨hsteps, hlo, hend, fun x hx hxk hout =>
      hheld x hx hxk (hout.imp (fun hxf => ⟨hxf, hmax⟩) id)⟩

/-! ### Soundness of the plan -/

theorem slot_pos_of_ring_holds {kv : KvStore} {x : Nat} (h : kv.ring_holds x) :
    kv.slot_pos (x % kv.cfg.window) = x := by
  simp only [ring_holds, ring_slot, Bool.and_eq_true, beq_iff_eq] at h
  exact h.2

/-- The window of a step at `k` and the range of its plan lie within one window of each
    other, so a replayed position uses no needed position's slot but its own. -/
theorem replayed_slot_ne {w k q x : Nat} (hw : 0 < w) (hq : need_lo w k ≤ q + 1 ∧ q < k)
    (hx : need_lo w k ≤ x ∧ x < k) (hne : x ≠ q) : x % w ≠ q % w := by
  have hspan : k < need_lo w k + w := by
    unfold need_lo
    split <;> omega
  rcases Nat.lt_or_gt_of_ne hne with hlt | hgt
  · exact ring_slot_ne hlt (by omega)
  · exact (ring_slot_ne hgt (by omega)).symm

section Sound

variable {Rest : Type} {decode_step : DecodeStep Rest}

/-- After the replay of its plan, the ring holds every position of the window of `k`. -/
theorem run_replay_ring (hframe : RingFrame decode_step) {e e' : Engine Rest} {k replay_max : Nat}
    (hmax : e.kv.cfg.window ≤ replay_max)
    (h : run_replay decode_step e (plan_ring e.kv k replay_max) = (.ok (), e')) :
    e'.kv.cfg = e.kv.cfg ∧
    ∀ x, need_lo e.kv.cfg.window k ≤ x → x < k → e'.kv.slot_pos (x % e.kv.cfg.window) = x := by
  have hspec := plan_ring_spec e.kv (k := k) hmax
  dsimp only at hspec
  generalize plan_ring e.kv k replay_max = plan at hspec h
  rcases hspec with ⟨hzero, hheld⟩ | ⟨hsteps, hlo, hend, hheld⟩
  · rw [run_replay, if_pos hzero] at h
    cases h
    exact ⟨rfl, fun x hx hxk => slot_pos_of_ring_holds (hheld x hx hxk)⟩
  · rw [run_replay, if_neg hsteps] at h
    split at h
    · cases h
    next b _ =>
    dsimp only at h
    split at h
    · cases h
    next e₁ hloop =>
    obtain ⟨state, hstate⟩ := restore_carry_keeps e₁.kv b
    cases hcarry : e₁.kv.restore_carry b with
    | mk r kv₁ =>
      rw [hcarry] at h hstate
      cases h
      obtain rfl : kv₁ = _ := hstate
      obtain ⟨hcfg, _, hkeep, hreplayed⟩ := replay_loop_ring hframe hloop
      refine ⟨hcfg, fun x hx hxk => ?_⟩
      have hlen : plan.first + plan.steps = plan.end_ := by
        unfold ReplayPlan.steps at hsteps ⊢
        omega
      rw [hlen] at hkeep hreplayed
      show e₁.kv.slot_pos _ = _
      by_cases hin : plan.first ≤ x ∧ x < plan.end_
      · refine hreplayed x hin.1 hin.2 fun y hxy hy => ?_
        exact (replayed_slot_ne e.kv.cfg.window_pos (by omega) ⟨hx, hxk⟩ (by omega)).symm
      · -- held before, and no replayed position shares its slot
        have hslot : ∀ y, plan.first ≤ y → y < plan.end_ →
            y % e.kv.cfg.window ≠ x % e.kv.cfg.window := fun y hy hye =>
          (replayed_slot_ne e.kv.cfg.window_pos (by omega) ⟨hx, hxk⟩ (by omega)).symm
        rw [hkeep _ hslot]
        show e.kv.slot_pos _ = _
        exact slot_pos_of_ring_holds (hheld x hx hxk (by omega))

/-- Entry `i` of the window list at `k` is `-1`, or the slot of the position it stands for. -/
theorem window_entry_slot (kv : KvStore) {k i : Nat} (hi : i < kv.cfg.window)
    (hentry : kv.window_entry k i ≠ -1) :
    ∃ x, need_lo kv.cfg.window k ≤ x ∧ x ≤ k ∧ x + kv.cfg.window = k + 1 + i ∧
      kv.window_entry k i = (x % kv.cfg.window : Nat) := by
  unfold window_entry at hentry ⊢
  dsimp only at hentry ⊢
  split at hentry
  · exact absurd rfl hentry
  next hpos =>
  rw [if_neg hpos]
  refine ⟨k + 1 + i - kv.cfg.window, ?_, by omega, by omega, ?_⟩
  · unfold need_lo
    split <;> omega
  · have hsum : k + 1 + i = (k + 1 + i - kv.cfg.window) + kv.cfg.window := by omega
    have hmod : (k % kv.cfg.window + 1 + i) % kv.cfg.window = (k + 1 + i) % kv.cfg.window := by
      rw [Nat.add_assoc, Nat.add_assoc, Nat.mod_add_mod]
    rw [hmod, hsum, Nat.add_mod_right]
    simp

/-- Soundness of the replay plan. For every ring content, position `k` and `replay_max` of at
    least the window, once the plan's positions have been replayed: every position of
    `[max 0 (k - (w - 1)), k)` is held in its ring slot; no replayed position uses the slot of
    another needed one, unless that one is replayed after it; and every entry the step at `k`
    lists, that position's own slot apart, names a slot that holds the listed position. -/
theorem replay_plan_sound (hframe : RingFrame decode_step) {e e' : Engine Rest} {k replay_max : Nat}
    (hmax : e.kv.cfg.window ≤ replay_max)
    (h : run_replay decode_step e (plan_ring e.kv k replay_max) = (.ok (), e')) :
    let w := e.kv.cfg.window
    let plan := plan_ring e.kv k replay_max
    (∀ x, need_lo w k ≤ x → x < k → e'.kv.slot_pos (x % w) = x) ∧
    (∀ q, plan.first ≤ q → q < plan.end_ → ∀ x, need_lo w k ≤ x → x < k → x ≠ q →
      x % w = q % w → q < x ∧ x < plan.end_) ∧
    (∀ i, i < w → e'.kv.window_entry k i ≠ -1 →
      ∃ x, need_lo w k ≤ x ∧ x ≤ k ∧ x + w = k + 1 + i ∧
        e'.kv.window_entry k i = (x % w : Nat) ∧ (x < k → e'.kv.slot_pos (x % w) = x)) := by
  dsimp only
  obtain ⟨hcfg, hheld⟩ := run_replay_ring hframe hmax h
  refine ⟨hheld, ?_, ?_⟩
  · intro q hq hqe x hx hxk hne hslot
    rcases plan_ring_spec e.kv (k := k) hmax with ⟨hzero, _⟩ | ⟨_, hlo, hend, _⟩
    · unfold ReplayPlan.steps at hzero
      omega
    · exact absurd hslot (replayed_slot_ne e.kv.cfg.window_pos (by omega) ⟨hx, hxk⟩ hne)
  · intro i hi hentry
    rw [← hcfg] at hi
    obtain ⟨x, hx, hxk, hsum, hslot⟩ := window_entry_slot e'.kv hi hentry
    rw [hcfg] at hx hsum hslot
    exact ⟨x, hx, hxk, hsum, hslot, fun hlt => hheld x hx hlt⟩

end Sound

theorem scribble_step_ring : RingFrame scribble_step where
  cfg := by
    intro e token q e' h
    cases h
    rfl
  win_lo := by
    intro e token q e' h
    cases h
    rfl
  slot_pos := by
    intro e token q e' h
    cases h
    rfl

theorem replay_plan_sound_worn :
    ∃ e', run_replay scribble_step worn_engine (plan_ring worn_engine.kv 6 4) = (.ok (), e') ∧
      e'.kv.slot_pos (4 % 4) = 4 := by
  obtain ⟨e', hrun⟩ := run_replay_returns scribble_step_frame (e := worn_engine) rfl
    worn_engine_rows fun e token q => ⟨_, rfl⟩
  have hwindow : worn_engine.kv.cfg.window ≤ 4 := by decide
  exact ⟨e', hrun, (replay_plan_sound scribble_step_ring hwindow hrun).1 4 (by decide) (by decide)⟩

end CachedMoe.Runtime
