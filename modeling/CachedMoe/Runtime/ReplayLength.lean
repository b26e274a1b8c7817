import CachedMoe.Runtime.Replay
import Mathlib.Order.Bounds.Basic

/-! # The length of a replay

    `replay_max` bounds the positions `plan_ring` replays. The plan is cut to the bound first and
    moved down to an even start after that, which may add a position. -/

namespace CachedMoe.Runtime

open CachedMoe KvStore

/-- A position the step at `k` needs and the ring does not hold. -/
def Missing (kv : KvStore) (k x : Nat) : Prop :=
  need_lo kv.cfg.window k ≤ x ∧ x < k ∧ kv.ring_holds x = false

def missing (kv : KvStore) (k : Nat) : Set Nat := {x | Missing kv k x}

theorem mem_missing {kv : KvStore} {k x : Nat} : x ∈ missing kv k ↔ Missing kv k x := Iff.rfl

/-- `std::clamp(replay_max, 1, window)`. -/
def replay_bound (kv : KvStore) (replay_max : Nat) : Nat := max 1 (min replay_max kv.cfg.window)

/-- The missing positions span less than the bound, or the bound cuts them at an even one. -/
def CutEven (kv : KvStore) (k replay_max : Nat) : Prop :=
  ∀ lo hi, IsLeast (missing kv k) lo → IsGreatest (missing kv k) hi →
    hi + 1 - lo < replay_bound kv replay_max ∨ (hi + 1 - replay_bound kv replay_max) % 2 = 0

/-! ### The scan -/

theorem missing_range_ends {kv : KvStore} {x n lo hi : Nat}
    (h : missing_range kv x n = some (lo, hi)) :
    kv.ring_holds lo = false ∧ kv.ring_holds hi = false := by
  induction n generalizing lo hi with
  | zero => cases h
  | succ n ih =>
    rw [missing_range] at h
    by_cases hheld : kv.ring_holds (x + n) = true
    · rw [if_pos hheld] at h
      exact ih h
    · rw [if_neg hheld] at h
      obtain ⟨hlo, rfl⟩ := Prod.mk.inj (Option.some.inj h)
      have hlast := Bool.not_eq_true _ ▸ hheld
      refine ⟨?_, hlast⟩
      cases hfound : missing_range kv x n with
      | none =>
        rw [hfound] at hlo
        rw [← hlo]
        exact hlast
      | some range =>
        rw [hfound] at hlo
        rw [← hlo]
        have hends := @ih range.1 range.2 hfound
        exact hends.1

/-- What the scan of `plan_ring` finds. -/
theorem missing_range_at (kv : KvStore) (k : Nat) :
    match missing_range kv (need_lo kv.cfg.window k) (k - need_lo kv.cfg.window k) with
    | none => ∀ x, ¬ Missing kv k x
    | some (lo, hi) => IsLeast (missing kv k) lo ∧ IsGreatest (missing kv k) hi := by
  have hspec := missing_range_spec kv (need_lo kv.cfg.window k) (k - need_lo kv.cfg.window k)
  have hend : need_lo kv.cfg.window k + (k - need_lo kv.cfg.window k) = k := by
    unfold need_lo
    split <;> omega
  rw [hend] at hspec
  cases hfound : missing_range kv (need_lo kv.cfg.window k) (k - need_lo kv.cfg.window k) with
  | none =>
    rw [hfound] at hspec
    intro x hx
    have hheld := hspec x hx.1 hx.2.1
    rw [hx.2.2] at hheld
    cases hheld
  | some range =>
    obtain ⟨lo, hi⟩ := range
    rw [hfound] at hspec
    obtain ⟨hxlo, hlohi, hhi, hbelow, habove⟩ := hspec
    obtain ⟨hlo, hhi'⟩ := missing_range_ends hfound
    refine ⟨⟨⟨hxlo, by omega, hlo⟩, ?_⟩, ⟨⟨by omega, hhi, hhi'⟩, ?_⟩⟩
    · intro x hx
      have hx := mem_missing.mp hx
      by_contra hlt
      have hheld := hbelow x hx.1 (by omega)
      rw [hx.2.2] at hheld
      cases hheld
    · intro x hx
      have hx := mem_missing.mp hx
      by_contra hgt
      have hheld := habove x (by omega) hx.2.1
      rw [hx.2.2] at hheld
      cases hheld

/-! ### The bound -/

/-- The number of replayed positions, where the missing ones reach from `lo` to `hi`. -/
theorem plan_ring_steps {kv : KvStore} {k lo hi : Nat} (replay_max : Nat)
    (hlo : IsLeast (missing kv k) lo) (hhi : IsGreatest (missing kv k) hi) :
    (plan_ring kv k replay_max).steps =
      min (hi + 1 - lo) (replay_bound kv replay_max) +
        (hi + 1 - min (hi + 1 - lo) (replay_bound kv replay_max)) % 2 := by
  have hk : k ≠ 0 := by
    rintro rfl
    exact Nat.not_lt_zero lo (mem_missing.mp hlo.1).2.1
  have hle : lo ≤ hi := hhi.2 hlo.1
  have hat := missing_range_at kv k
  unfold plan_ring
  rw [if_neg hk]
  dsimp only
  cases hfound : missing_range kv (need_lo kv.cfg.window k) (k - need_lo kv.cfg.window k) with
  | none =>
    rw [hfound] at hat
    exact absurd hlo.1 (hat lo)
  | some range =>
    obtain ⟨lo', hi'⟩ := range
    rw [hfound] at hat
    obtain rfl := hat.1.unique hlo
    obtain rfl := hat.2.unique hhi
    simp only [ReplayPlan.steps]
    rw [show max 1 (min replay_max kv.cfg.window) = replay_bound kv replay_max from rfl]
    have hpos : 0 < replay_bound kv replay_max := Nat.lt_of_lt_of_le Nat.one_pos (Nat.le_max_left _ _)
    generalize replay_bound kv replay_max = r at hpos
    by_cases hcut : hi' + 1 - lo' > r
    · rw [if_pos hcut, Nat.min_eq_right (Nat.le_of_lt hcut)]
      split <;> omega
    · rw [if_neg hcut, Nat.min_eq_left (Nat.le_of_not_lt hcut)]
      split <;> omega

theorem plan_ring_steps_none {kv : KvStore} {k : Nat} (replay_max : Nat)
    (h : ∀ x, ¬ Missing kv k x) : (plan_ring kv k replay_max).steps = 0 := by
  unfold plan_ring
  by_cases hk : k = 0
  · rw [if_pos hk]
    rfl
  rw [if_neg hk]
  dsimp only
  have hat := missing_range_at kv k
  cases hfound : missing_range kv (need_lo kv.cfg.window k) (k - need_lo kv.cfg.window k) with
  | none => rfl
  | some range =>
    rw [hfound] at hat
    exact absurd hat.1.1 (h _)

/-- Either no position is missing, or there is a first and a last one. -/
theorem missing_bounds (kv : KvStore) (k : Nat) :
    (∀ x, ¬ Missing kv k x) ∨
      ∃ lo hi, IsLeast (missing kv k) lo ∧ IsGreatest (missing kv k) hi := by
  have hat := missing_range_at kv k
  cases hfound : missing_range kv (need_lo kv.cfg.window k) (k - need_lo kv.cfg.window k) with
  | none =>
    rw [hfound] at hat
    exact .inl hat
  | some range =>
    rw [hfound] at hat
    exact .inr ⟨_, _, hat⟩

/-- A plan keeps the bound exactly where the start needs no moving: the missing positions span
    less than the bound, or the bound cuts them at an even position. -/
theorem plan_ring_bounded_iff (kv : KvStore) (k replay_max : Nat) :
    (plan_ring kv k replay_max).steps ≤ max 1 (min replay_max kv.cfg.window) ↔
      CutEven kv k replay_max := by
  rw [show max 1 (min replay_max kv.cfg.window) = replay_bound kv replay_max from rfl]
  rcases missing_bounds kv k with hnone | ⟨lo, hi, hlo, hhi⟩
  · rw [plan_ring_steps_none replay_max hnone]
    exact ⟨fun _ lo _ hlo _ => absurd hlo.1 (hnone lo), fun _ => Nat.zero_le _⟩
  have hle : lo ≤ hi := hhi.2 hlo.1
  rw [plan_ring_steps replay_max hlo hhi]
  constructor
  · intro hsteps lo' hi' hlo' hhi'
    obtain rfl := hlo'.unique hlo
    obtain rfl := hhi'.unique hhi
    omega
  · intro hcut
    have hcut := hcut lo hi hlo hhi
    omega

/-! #### A ring that holds nothing -/

/-- The four-slot ring of a context that was just restored. -/
def lost_ring : KvStore where
  cfg :=
    { layers := 2, window := 4, window_pos := KvStoreConfig.small_window_pos, latent_dim := 2,
      index_dim := 1, max_context := 64, max_ratio := 2, plane_of := [some 0, some 1],
      ratio := [2, 1] }
  valid := true
  cap := 64

/-- One position may be replayed, and the plan replays positions 2 and 3. -/
theorem lost_ring_exceeds_bound :
    ¬ ∀ (kv : KvStore) (k replay_max : Nat),
      (plan_ring kv k replay_max).steps ≤ max 1 (min replay_max kv.cfg.window) := by
  intro h
  exact absurd (h lost_ring 4 1) (by decide)

end CachedMoe.Runtime
