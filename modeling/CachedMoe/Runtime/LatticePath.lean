import CachedMoe.Framework.Trellis
import CachedMoe.Runtime.DsparkTree

/-! # The drafted path

    `Lattice::path` chooses one candidate at every position. In the `Eal` mode it goes backwards
    and finds a path with the greatest expected length, in the `Viterbi` mode forwards to one
    with the greatest joint log-probability. Arithmetic is exact, over any ordered field. -/

namespace CachedMoe.Runtime

open Ranked Trellis

/-! ### The code -/

section Code

variable {R : Type} [Field R] [LinearOrder R] (dm_exp : R → R) (lat : Lattice R)

/-- The candidates of a position as a path. -/
def out_path (out : Nat → Nat) : Path := .ofFn fun i => UInt32.ofNat (out i)

/-- The loop of the last two modes: `out[i] = choice[i][prev]`. -/
def roll_out (choice : Nat → Nat → Nat) : Nat → Nat
  | 0 => choice 0 0
  | i + 1 => choice (i + 1) (roll_out choice i)

/-- `v` and `back`. -/
structure ViterbiTables (R : Type) where
  v : Nat → R
  back : Nat → Nat → Nat

/-- One position of the forward loop; the first of the best previous candidates is kept. -/
def viterbi_stage (t : ViterbiTables R) (i : Nat) : ViterbiTables R :=
  let from_prev := fun c => first_argmax (fun p => t.v p + lat.logq i p c) lat.K
  { v := fun c => t.v (from_prev c) + lat.logq i (from_prev c) c
    back := Function.update t.back i from_prev }

def viterbi_tables : ViterbiTables R :=
  (List.range' 1 (kPositions - 1)).foldl (viterbi_stage lat)
    { v := fun c => lat.logq 0 0 c, back := fun _ _ => 0 }

/-- The loop back from position `i`, where `c` was chosen. -/
def trace_back (back : Nat → Nat → Nat) : (i c : Nat) → (out : Nat → Nat) → Nat → Nat
  | 0, _, out => out
  | i + 1, c, out =>
    let c := back (i + 1) c
    trace_back back i c (Function.update out i c)

/-- `g` and `choice`. -/
structure EalTables (R : Type) where
  g : Nat → R
  choice : Nat → Nat → Nat

def eal_val (ii : Nat) (g : Nat → R) (p c : Nat) : R := dm_exp (lat.logq ii p c) * (1 + g c)

/-- One position of the backward loop. The first position has one row only. -/
def eal_stage (t : EalTables R) (ii : Nat) : EalTables R :=
  let n_prev := if ii = 0 then 1 else lat.K
  let a := fun p => first_argmax (eal_val dm_exp lat ii t.g p) lat.K
  { g := fun p => if p < n_prev then eal_val dm_exp lat ii t.g p (a p) else t.g p
    choice := Function.update t.choice ii fun p => if p < n_prev then a p else t.choice ii p }

/-- `for (ii = P; ii-- > 0;)` -/
def eal_loop : (ii : Nat) → EalTables R → EalTables R
  | 0, t => t
  | ii + 1, t => eal_loop ii (eal_stage dm_exp lat t ii)

def Lattice.path : Objective → Path
  | .Chain => out_path (roll_out fun i prev => first_argmax (lat.logq i prev) lat.K)
  | .Viterbi =>
    let t := viterbi_tables lat
    let c := first_argmax t.v lat.K
    out_path (trace_back t.back (kPositions - 1) c (Function.update (fun _ => 0) (kPositions - 1) c))
  | .Eal =>
    out_path (roll_out (eal_loop dm_exp lat kPositions
      { g := fun _ => 0, choice := fun _ _ => 0 }).choice)

/-- The loop of `eal_value` from position `i` on. -/
def eal_value_loop (path : Path) : (n i : Nat) → (tot run : R) → (prev : Nat) → R
  | 0, _, tot, _, _ => tot
  | n + 1, i, tot, run, prev =>
    let run := run * dm_exp (lat.logq i prev (path_at path i))
    eal_value_loop path n (i + 1) (tot + run) run (path_at path i)

def Lattice.eal_value (path : Path) (k : Nat) : R := eal_value_loop dm_exp lat path k 0 0 1 0

end Code

/-! ### Paths -/

section Paths

variable {R : Type}

/-- One of the `K ^ kPositions` paths. -/
def Lattice.Candidate (lat : Lattice R) (path : Path) : Prop :=
  ∀ i < kPositions, path_at path i < lat.K

variable {lat : Lattice R}

theorem path_at_out {out : Nat → Nat} {i : Nat} (hi : i < kPositions) (hout : out i < lat.K) :
    path_at (out_path out) i = out i := by
  have hlt : out i < 2 ^ 32 := hout.trans_le (lat.le.trans (by decide))
  have hget : (out_path out).toList[i]? = some (UInt32.ofNat (out i)) := by
    rw [out_path, Vector.toList_ofFn, List.getElem?_ofFn, dif_pos hi]
  rw [path_at, List.getD, hget, Option.getD_some]
  exact UInt32.toNat_ofNat_of_lt' hlt

theorem candidate_out {out : Nat → Nat} (hout : ∀ i < kPositions, out i < lat.K) :
    lat.Candidate (out_path out) := by
  intro i hi
  rw [path_at_out hi (hout i hi)]
  exact hout i hi

end Paths

/-! ### What a path is worth -/

section Value

variable {R : Type} [Field R] {dm_exp : R → R} {lat : Lattice R}

/-- What a choice makes of the expected length of the rest. -/
def eal_step (dm_exp : R → R) (lat : Lattice R) (i prev c : Nat) (rest : R) : R :=
  dm_exp (lat.logq i prev c) * (1 + rest)

theorem eal_value_loop_eq (path : Path) (n i : Nat) (tot run : R) (prev : Nat) :
    eal_value_loop dm_exp lat path n i tot run prev =
      tot + run * worth (eal_step dm_exp lat) 0 n i prev (path_at path) := by
  induction n generalizing i tot run prev with
  | zero =>
    rw [eal_value_loop, worth, mul_zero, add_zero]
  | succ n ih =>
    rw [eal_value_loop, ih, worth, eal_step]
    ring

theorem eal_value_eq (path : Path) : lat.eal_value dm_exp path kPositions =
    worth (eal_step dm_exp lat) 0 kPositions 0 0 (path_at path) := by
  rw [Lattice.eal_value, eal_value_loop_eq, zero_add, one_mul]

/-- The joint log-probability of a path. -/
def Lattice.log_prob (lat : Lattice R) (path : Path) : R :=
  ∑ i ∈ Finset.range kPositions,
    lat.logq i (if i = 0 then 0 else path_at path (i - 1)) (path_at path i)

theorem score_eq_sum (out : Nat → Nat) (n : Nat) :
    ∑ i ∈ Finset.range (n + 1), lat.logq i (if i = 0 then 0 else out (i - 1)) (out i) =
      score lat.logq n out := by
  induction n with
  | zero =>
    rw [Finset.sum_range_one]
    rfl
  | succ n ih =>
    rw [Finset.sum_range_succ, ih, if_neg (Nat.succ_ne_zero n)]
    rfl

end Value

/-! ### The longest path -/

section Eal

variable {R : Type} [Field R] [LinearOrder R] {dm_exp : R → R} {lat : Lattice R}

/-- The tables from position `ii` on. -/
structure EalTables.From (dm_exp : R → R) (lat : Lattice R) (t : EalTables R) (ii : Nat) :
    Prop where
  g : 0 < ii → ∀ c < lat.K, t.g c = best (eal_step dm_exp lat) 0 lat.K (kPositions - ii) ii c
  choice : ∀ j, ii ≤ j → j < kPositions → ∀ p < (if j = 0 then 1 else lat.K),
    t.choice j p = Trellis.choice (eal_step dm_exp lat) 0 lat.K (kPositions - 1 - j) j p

theorem eal_stage_from {t : EalTables R} {ii : Nat} (hii : ii < kPositions)
    (h : t.From dm_exp lat (ii + 1)) : (eal_stage dm_exp lat t ii).From dm_exp lat ii := by
  have hrest : ∀ p, ∀ c < lat.K, eal_val dm_exp lat ii t.g p c =
      eal_step dm_exp lat ii p c
        (best (eal_step dm_exp lat) 0 lat.K (kPositions - 1 - ii) (ii + 1) c) := by
    intro p c hc
    rw [eal_val, h.g (Nat.succ_pos ii) c hc, Nat.sub_sub, Nat.add_comm 1]
    rfl
  have hchoice : ∀ p, first_argmax (eal_val dm_exp lat ii t.g p) lat.K =
      Trellis.choice (eal_step dm_exp lat) 0 lat.K (kPositions - 1 - ii) ii p :=
    fun p => first_argmax_congr (hrest p)
  refine ⟨fun hpos p hp => ?_, fun j hj hjP p hp => ?_⟩
  · have hg : (eal_stage dm_exp lat t ii).g p = eal_val dm_exp lat ii t.g p
        (first_argmax (eal_val dm_exp lat ii t.g p) lat.K) := by
      rw [eal_stage]
      dsimp only
      rw [if_neg hpos.ne', if_pos hp]
    have hsucc : kPositions - ii = kPositions - 1 - ii + 1 := by omega
    rw [hg, hrest p _ (first_argmax_lt lat.pos), hchoice, hsucc]
    rfl
  · rw [eal_stage]
    dsimp only
    by_cases heq : j = ii
    · subst heq
      rw [Function.update_self, if_pos hp]
      exact hchoice p
    · rw [Function.update_of_ne heq]
      exact h.choice j (by omega) hjP p hp

theorem eal_loop_from {t : EalTables R} {ii : Nat} (hii : ii ≤ kPositions)
    (h : t.From dm_exp lat ii) : (eal_loop dm_exp lat ii t).From dm_exp lat 0 := by
  induction ii generalizing t with
  | zero => exact h
  | succ ii ih => exact ih (Nat.le_of_succ_le hii) (eal_stage_from hii h)

theorem eal_tables_from : (eal_loop dm_exp lat kPositions
    { g := fun _ => 0, choice := fun _ _ => 0 }).From dm_exp lat 0 := by
  refine eal_loop_from (Nat.le_refl _) ⟨fun _ c _ => ?_, fun j hj hjP => absurd hj (by omega)⟩
  rw [Nat.sub_self]
  rfl

/-- The path that comes out makes the choices of the tables. -/
theorem roll_out_choice {t : EalTables R} (h : t.From dm_exp lat 0) {i : Nat}
    (hi : i < kPositions) : roll_out t.choice i < lat.K ∧ roll_out t.choice i =
      Trellis.choice (eal_step dm_exp lat) 0 lat.K (kPositions - 1 - i) i
        (if i = 0 then 0 else roll_out t.choice (i - 1)) := by
  induction i with
  | zero =>
    have hchoice := h.choice 0 (Nat.le_refl 0) hi 0 Nat.one_pos
    rw [roll_out, hchoice]
    exact ⟨first_argmax_lt lat.pos, rfl⟩
  | succ i ih =>
    have hprev := (ih (Nat.lt_of_succ_lt hi)).1
    have hchoice := h.choice (i + 1) (Nat.zero_le _) hi _ hprev
    rw [roll_out, hchoice]
    exact ⟨first_argmax_lt lat.pos, rfl⟩

theorem eal_path_candidate : lat.Candidate (lat.path dm_exp .Eal) :=
  candidate_out fun _ hi => (roll_out_choice eal_tables_from hi).1

variable [IsStrictOrderedRing R]

theorem eal_step_mono (hdm : ∀ y, 0 ≤ dm_exp y) (i prev c : Nat) :
    Monotone (eal_step dm_exp lat i prev c) := by
  intro x y hxy
  exact mul_le_mul_of_nonneg_left (add_le_add le_rfl hxy) (hdm _)

theorem eal_path_longest (hdm : ∀ y, 0 ≤ dm_exp y) {path : Path} (hpath : lat.Candidate path) :
    lat.eal_value dm_exp path kPositions ≤
      lat.eal_value dm_exp (lat.path dm_exp .Eal) kPositions := by
  have hout : ∀ i < kPositions, path_at (lat.path dm_exp .Eal) i = roll_out (eal_loop dm_exp lat
      kPositions { g := fun _ => 0, choice := fun _ _ => 0 }).choice i := fun i hi =>
    path_at_out hi (roll_out_choice eal_tables_from hi).1
  have hbest : worth (eal_step dm_exp lat) 0 kPositions 0 0 (path_at (lat.path dm_exp .Eal)) =
      best (eal_step dm_exp lat) 0 lat.K kPositions 0 0 := by
    refine worth_eq_best kPositions 0 0 (fun _ => ?_) fun j hj hjP => ?_
    · rw [hout 0 (by decide), (roll_out_choice eal_tables_from (by decide)).2]
      rfl
    · rw [Nat.zero_add] at hjP ⊢
      rw [hout j hjP, (roll_out_choice eal_tables_from hjP).2, if_neg hj.ne',
        hout (j - 1) (by omega)]
  rw [eal_value_eq, eal_value_eq, hbest]
  refine worth_le_best (eal_step_mono hdm) kPositions 0 0 fun j _ hj => hpath j ?_
  rwa [Nat.zero_add] at hj

end Eal

/-! ### The likeliest path -/

section Viterbi

variable {R : Type} [Field R] [LinearOrder R] {dm_exp : R → R} {lat : Lattice R}

theorem viterbi_fold (n : Nat) :
    let t := (List.range' 1 n).foldl (viterbi_stage lat)
      { v := fun c => lat.logq 0 0 c, back := fun _ _ => 0 }
    t.v = reach lat.logq lat.K n ∧ ∀ i < n, t.back (i + 1) = back lat.logq lat.K i := by
  induction n with
  | zero => exact ⟨rfl, fun i hi => absurd hi (Nat.not_lt_zero i)⟩
  | succ n ih =>
    obtain ⟨hv, hback⟩ := ih
    rw [List.range'_1_concat, List.foldl_append, List.foldl_cons, List.foldl_nil]
    refine ⟨?_, fun i hi => ?_⟩
    · rw [viterbi_stage, hv, Nat.add_comm 1]
      rfl
    · rw [viterbi_stage, hv, Nat.add_comm 1]
      dsimp only
      by_cases heq : i = n
      · rw [heq, Function.update_self]
        rfl
      · rw [Function.update_of_ne (by omega)]
        exact hback i (by omega)

/-- The loop back follows the pointers from the place it starts at. -/
theorem trace_back_spec {pointers : Nat → Nat → Nat} {i c : Nat} {out : Nat → Nat}
    (hc : out i = c) : (∀ j, i ≤ j → trace_back pointers i c out j = out j) ∧
      ∀ j < i, trace_back pointers i c out j =
        pointers (j + 1) (trace_back pointers i c out (j + 1)) := by
  induction i generalizing c out with
  | zero => exact ⟨fun j _ => rfl, fun j hj => absurd hj (Nat.not_lt_zero j)⟩
  | succ i ih =>
    obtain ⟨hkeep, hback⟩ := ih (Function.update_self i (pointers (i + 1) c) out)
    rw [trace_back]
    refine ⟨fun j hj => ?_, fun j hj => ?_⟩
    · rw [hkeep j (by omega), Function.update_of_ne (by omega)]
    · by_cases heq : j = i
      · subst heq
        rw [hkeep j (Nat.le_refl j), hkeep (j + 1) (Nat.le_succ j), Function.update_self,
          Function.update_of_ne (Nat.succ_ne_self j), hc]
      · exact hback j (by omega)

theorem back_lt (i c : Nat) : back lat.logq lat.K i c < lat.K := first_argmax_lt lat.pos

theorem viterbi_path_at :
    path_at (lat.path dm_exp .Viterbi) (kPositions - 1) =
      first_argmax (reach lat.logq lat.K (kPositions - 1)) lat.K ∧
    (∀ i < kPositions - 1, path_at (lat.path dm_exp .Viterbi) i =
      back lat.logq lat.K i (path_at (lat.path dm_exp .Viterbi) (i + 1))) := by
  obtain ⟨hv, hback⟩ := @viterbi_fold R _ _ lat (kPositions - 1)
  obtain ⟨hlast, hfrom⟩ := @trace_back_spec (viterbi_tables lat).back (kPositions - 1)
    (first_argmax (viterbi_tables lat).v lat.K)
    (Function.update (fun _ => 0) (kPositions - 1) (first_argmax (viterbi_tables lat).v lat.K))
    (Function.update_self _ _ _)
  generalize hout : trace_back (viterbi_tables lat).back (kPositions - 1)
    (first_argmax (viterbi_tables lat).v lat.K) _ = out at hlast hfrom
  have hend : out (kPositions - 1) = first_argmax (reach lat.logq lat.K (kPositions - 1)) lat.K := by
    rw [hlast _ (Nat.le_refl _), Function.update_self]
    exact congrArg (first_argmax · lat.K) hv
  have hstep : ∀ i < kPositions - 1, out i = back lat.logq lat.K i (out (i + 1)) := by
    intro i hi
    rw [hfrom i hi]
    exact congrFun (hback i hi) _
  have hlt : ∀ i < kPositions, out i < lat.K := by
    intro i hi
    by_cases heq : i = kPositions - 1
    · rw [heq, hend]
      exact first_argmax_lt lat.pos
    · rw [hstep i (by omega)]
      exact back_lt i _
  have hpath : lat.path dm_exp .Viterbi = out_path out := congrArg out_path hout
  rw [hpath]
  refine ⟨(path_at_out (by decide) (hlt _ (by decide))).trans hend, fun i hi => ?_⟩
  rw [path_at_out (by omega) (hlt i (by omega)), path_at_out (by omega) (hlt _ (by omega))]
  exact hstep i hi

theorem viterbi_path_candidate : lat.Candidate (lat.path dm_exp .Viterbi) := by
  obtain ⟨hlast, hback⟩ := @viterbi_path_at R _ _ dm_exp lat
  intro i hi
  by_cases heq : i = kPositions - 1
  · rw [heq, hlast]
    exact first_argmax_lt lat.pos
  · rw [hback i (by omega)]
    exact back_lt i _

theorem viterbi_path_likeliest [IsStrictOrderedRing R] {path : Path}
    (hpath : lat.Candidate path) : lat.log_prob path ≤ lat.log_prob (lat.path dm_exp .Viterbi) := by
  have hsum : ∀ p : Path, lat.log_prob p = score lat.logq (kPositions - 1) (path_at p) :=
    fun p => score_eq_sum (path_at p) (kPositions - 1)
  obtain ⟨hlast, hback⟩ := @viterbi_path_at R _ _ dm_exp lat
  rw [hsum, hsum]
  exact score_le_score hlast hback fun i hi => hpath i (Nat.lt_of_le_of_lt hi (by decide))

end Viterbi

/-- In the `Eal` mode `path` returns a path of greatest expected length, in the `Viterbi` mode
    one of greatest joint log-probability, among all candidate paths of the lattice. -/
theorem path_optimal {R : Type} [Field R] [LinearOrder R] [IsStrictOrderedRing R]
    {dm_exp : R → R} (hdm : ∀ y, 0 ≤ dm_exp y) (lat : Lattice R) :
    (lat.Candidate (lat.path dm_exp .Eal) ∧ ∀ path, lat.Candidate path →
      lat.eal_value dm_exp path kPositions ≤
        lat.eal_value dm_exp (lat.path dm_exp .Eal) kPositions) ∧
    (lat.Candidate (lat.path dm_exp .Viterbi) ∧ ∀ path, lat.Candidate path →
      lat.log_prob path ≤ lat.log_prob (lat.path dm_exp .Viterbi)) :=
  ⟨⟨eal_path_candidate, fun _ hpath => eal_path_longest hdm hpath⟩,
    viterbi_path_candidate, fun _ hpath => viterbi_path_likeliest hpath⟩

/-- Two candidates at every position, the second twice as likely after the first. -/
noncomputable def uneven_lattice : Lattice ℝ where
  K := 2
  ids_ := (List.replicate kPositions [0, 1]).flatten
  logq_ := (List.replicate kPositions
    [Real.log (1 / (3 : Nat)), Real.log ((2 : Nat) / (3 : Nat)), -Real.log (2 : Nat),
      -Real.log (2 : Nat)]).flatten
  pos := Nat.two_pos
  le := by decide

theorem path_optimal_uneven :
    (uneven_lattice.Candidate (uneven_lattice.path Real.exp .Eal) ∧
      ∀ path, uneven_lattice.Candidate path →
        uneven_lattice.eal_value Real.exp path kPositions ≤
          uneven_lattice.eal_value Real.exp (uneven_lattice.path Real.exp .Eal) kPositions) ∧
    (uneven_lattice.Candidate (uneven_lattice.path Real.exp .Viterbi) ∧
      ∀ path, uneven_lattice.Candidate path →
        uneven_lattice.log_prob path ≤
          uneven_lattice.log_prob (uneven_lattice.path Real.exp .Viterbi)) :=
  path_optimal (fun y => (Real.exp_pos y).le) uneven_lattice

end CachedMoe.Runtime
