import Mathlib.Analysis.SpecialFunctions.Log.Basic
import Mathlib.Probability.ProbabilityMassFunction.Constructions
import Mathlib.Probability.Distributions.Uniform
import CachedMoe.Framework.Region
import CachedMoe.Framework.Sampling
import CachedMoe.Runtime.Speculate

/-! # Lossless sampling

    `Lattice::sample` and `accept_sampling_exact` of `cpu/dspark_tree.cpp`, and the rows that
    `Speculator::cycle` hands to them. Arithmetic is exact, over any ordered field; the theorems
    are over the reals, where a draw is a point of `[0, 1)`.

    A draft is proposed from the lattice and accepted against the verified row, or else replaced
    by a sample of what the row has left over. Whichever of the two is emitted has the row's own
    distribution: a rejected draft gives back exactly the mass the lattice took from the rest. -/

namespace CachedMoe.Runtime

open CachedMoe Sampling MeasureTheory

/-! ### The code -/

def kMaxK : Nat := 64

/-- `cpu::dspark::Lattice` as `build` leaves it. -/
structure Lattice (R : Type) where
  K : Nat
  /-- `[P*K]` -/
  ids_ : List Int32
  /-- `[P*K*K]`, the row of a previous candidate in one piece -/
  logq_ : List R
  pos : 0 < K
  le : K ≤ kMaxK

section Candidates

variable {R : Type}

def Lattice.token (lat : Lattice R) (i c : Nat) : Int32 := lat.ids_.getD (i * lat.K + c) 0

/-- `path[j]`. -/
def path_at (path : Path) (j : Nat) : Nat := (path.toList.getD j 0).toNat

def Lattice.tokens (lat : Lattice R) (path : Path) : Vector Int32 kPositions :=
  .ofFn fun i => lat.token i (path_at path i)

/-- The tokens position `i` may draft. -/
def Lattice.candidates (lat : Lattice R) (i : Nat) : List Int32 :=
  (List.range lat.K).map (lat.token i)

/-- No position lists a token twice. -/
def Lattice.Distinct (lat : Lattice R) : Prop :=
  ∀ i < kPositions, ∀ c < lat.K, ∀ c' < lat.K, lat.token i c = lat.token i c' → c = c'

theorem Lattice.Distinct.idxOf {lat : Lattice R} (h : lat.Distinct) {i c : Nat} (hi : i < kPositions)
    (hc : c < lat.K) : (lat.candidates i).idxOf (lat.token i c) = c := by
  have hnodup : (lat.candidates i).Nodup := by
    refine List.Nodup.map_on ?_ List.nodup_range
    intro a ha b hb hab
    exact h i hi a (List.mem_range.mp ha) b (List.mem_range.mp hb) hab
  have hlt : c < (lat.candidates i).length := by simpa [Lattice.candidates] using hc
  have hget : (lat.candidates i)[c] = lat.token i c := by simp [Lattice.candidates]
  rw [← hget]
  exact hnodup.idxOf_getElem c hlt

theorem tokens_getElem? (lat : Lattice R) (path : Path) {i : Nat} (hi : i < kPositions) :
    (lat.tokens path).toList[i]? = some (lat.token i (path_at path i)) := by
  rw [Lattice.tokens, Vector.toList_ofFn, List.getElem?_ofFn, dif_pos hi]

end Candidates

/-! ### Lists -/

/-- A draw of position `j`, as the rule's lists hold it. -/
theorem draws_getD {α R : Type} [Zero R] (ω : Fin (kPositions + 1) → α) (f : α → R) {j : Nat}
    (hj : j < kPositions + 1) : ((List.ofFn ω).map f).getD j 0 = f (ω (Fin.ofNat _ j)) := by
  have hget : ((List.ofFn ω).map f)[j]? = some (f (ω ⟨j, hj⟩)) := by
    rw [List.getElem?_map, List.getElem?_ofFn, dif_pos hj]
    rfl
  rw [List.getD, hget, Option.getD_some]
  congr
  exact (Nat.mod_eq_of_lt hj).symm

/-- Entry `j` of a list over the positions. -/
theorem getD_map_range {α : Type} (f : Nat → α) {j n : Nat} (hj : j < n) (a : α) :
    ((List.range n).map f).getD j a = f j := by
  rw [List.getD, List.getElem?_map, List.getElem?_range hj]
  rfl

/-- The rows' logits, laid out for the rule. -/
theorem getD_cand_logit {R : Type} [Zero R] (rows : Nat → VerifyRow R) {K m j c : Nat}
    (hj : j < kPositions) (hm : j < m) (hc : c < K) (hK : K ≤ kDsVerifyMaxCand) :
    ((List.range kPositions).flatMap fun j => (List.range kDsVerifyMaxCand).map fun c =>
      if j < m ∧ c < K then (rows j).exact.cand_logit.getD c 0 else 0).getD
        (j * kDsVerifyMaxCand + c) 0 = (rows j).exact.cand_logit.getD c 0 := by
  have hrow : ∀ j ∈ List.range kPositions, ((List.range kDsVerifyMaxCand).map fun c =>
      if j < m ∧ c < K then (rows j).exact.cand_logit.getD c 0 else 0).length =
        kDsVerifyMaxCand := by
    intro j _
    rw [List.length_map, List.length_range]
  rw [List.getD, Region.getElem?_flatMap_row hrow (hc.trans_le hK), List.getElem?_range hj,
    Option.bind_some, List.getElem?_map, List.getElem?_range (hc.trans_le hK), Option.map_some,
    Option.getD_some, if_pos ⟨hm, hc⟩]

/-! ### The rule -/

section Code

variable {R : Type} [Field R] [LinearOrder R] (dm_exp : R → R)

def Lattice.logq (lat : Lattice R) (i prev c : Nat) : R :=
  lat.logq_.getD ((i * lat.K + prev) * lat.K + c) 0

def sample_index (w : Nat → R) (n : Nat) (u : R) : Nat := scan w (u * prefix_sum w n) n 0 0 0

/-- `out[i]` in the loop of `Lattice::sample`. -/
def Lattice.choice (lat : Lattice R) (u : List R) : Nat → Nat
  | 0 => sample_index (fun c => dm_exp (lat.logq 0 0 c)) lat.K (u.getD 0 0)
  | i + 1 =>
    sample_index (fun c => dm_exp (lat.logq (i + 1) (lat.choice u i) c)) lat.K (u.getD (i + 1) 0)

def Lattice.sample (lat : Lattice R) (u : List R) : Path :=
  .ofFn fun i => UInt32.ofNat (lat.choice dm_exp u i)

/-- The residual of a rejected draft: a candidate, or none for a sample outside of them. -/
def residual_pick (pc qrow : Nat → R) (K : Nat) (u_res : R) : Option Nat :=
  let w := fun i => if pc i - qrow i > 0 then pc i - qrow i else 0
  let sw := prefix_sum w K
  let sp := prefix_sum pc K
  let rest := if 1 - sp > 0 then 1 - sp else 0
  let t := u_res * (sw + rest)
  if t < sw then some (scan w t K 0 0 0) else none

/-- The loop of `accept_sampling_exact` at position `j`, with this many drafts still to verify. -/
@[grind =] def sampling_loop (lat : Lattice R) (path : Path) (cand_logit : List R) (stride : Nat)
    (lse : List R) (masked full : List Int32) (u_acc u_res : List R) :
    (drafts j : Nat) → (tokens : List Int32) → Accept
  | 0, j, tokens => { accepted := j, n_emitted := j + 1, tokens := tokens.set j (full.getD j 0) }
  | drafts + 1, j, tokens =>
    let la := lse.getD j 0
    let pc := fun c => dm_exp (cand_logit.getD (j * stride + c) 0 - la)
    let prev := if j = 0 then 0 else path_at path (j - 1)
    let qrow := fun c => dm_exp (lat.logq j prev c)
    let c := path_at path j
    if u_acc.getD j 0 * qrow c < pc c then
      sampling_loop lat path cand_logit stride lse masked full u_acc u_res drafts (j + 1)
        (tokens.set j (lat.token j c))
    else
      let token :=
        match residual_pick pc qrow lat.K (u_res.getD j 0) with
        | some pick => lat.token j pick
        | none => masked.getD j 0
      { accepted := j, n_emitted := j + 1, tokens := tokens.set j token }

def accept_sampling_exact (lat : Lattice R) (path : Path) (k : Nat) (cand_logit : List R)
    (stride : Nat) (lse : List R) (masked full : List Int32) (u_acc u_res : List R) : Accept :=
  sampling_loop dm_exp lat path cand_logit stride lse masked full u_acc u_res k 0
    (List.replicate (kPositions + 1) 0)

/-- The lattice of a cycle, the objectives' paths aside. -/
def lattice_ops (path : Lattice R → Objective → Path) : LatticeOps (Lattice R) R R where
  path
  sample := Lattice.sample dm_exp
  tokens := Lattice.tokens
  token := Lattice.token
  accept_sampling_exact := accept_sampling_exact dm_exp

/-- Step 5 of the cycle with its draws given: the rows laid out for the rule. -/
def accept_drawn (lat : Lattice R) (path : Path) (k : Nat) (rows : Nat → VerifyRow R)
    (u_acc u_res : List R) : Accept :=
  let m := k + 1
  let cand_logit := (List.range kPositions).flatMap fun j =>
    (List.range kDsVerifyMaxCand).map fun c =>
      if j < m ∧ c < lat.K then (rows j).exact.cand_logit.getD c 0 else 0
  let lse := (List.range m).map fun j => (rows j).exact.lse
  let masked := (List.range k).map fun j => (rows j).exact.masked_token.toInt32
  let full := (List.range m).map fun j => (rows j).exact.full_token.toInt32
  accept_sampling_exact dm_exp lat path k cand_logit kDsVerifyMaxCand lse masked full u_acc u_res

/-- A sampling cycle accepts what the rule says for the draws of the speculator. -/
theorem accept_rows_drawn {sc : Scalars R R} (hzero : sc.zero = 0) {sp : Speculator (Lattice R) R}
    (hmode : sp.cfg.mode = .Sample) (hK : sp.cfg.lattice_k = sp.lat.K)
    (paths : Lattice R → Objective → Path) (path : Path)
    (path_tokens : Vector Int32 kPositions) (k : Nat) (rows : Nat → VerifyRow R) :
    (accept_rows sc (lattice_ops dm_exp paths) sp path path_tokens k rows).2 =
      accept_drawn dm_exp sp.lat path k rows (draws sc kPositions sp.rng).2
        (draws sc (kPositions + 1) (draws sc kPositions sp.rng).1).2 := by
  simp only [accept_rows, hmode, hzero, hK]
  rfl

/-! ### A round -/

/-- What a position draws: for the path, for the acceptance, for the residual, and what the
    verified row takes its two samples from. -/
abbrev Draw (R N : Type) := R × R × R × N

variable {N : Type}

/-- The tokens of the sampled path. -/
def draft_tokens (lat : Lattice R) (ω : Fin (kPositions + 1) → Draw R N) : List Int32 :=
  (lat.tokens (lat.sample dm_exp ((List.ofFn ω).map (·.1)))).toList

/-- A sampling round; `verify` is what the verify forward says of a row whose batch holds these
    drafts. -/
def round (lat : Lattice R) (verify : List Int32 → N → VerifyRow R) (k : Nat)
    (ω : Fin (kPositions + 1) → Draw R N) : Accept :=
  let path := lat.sample dm_exp ((List.ofFn ω).map (·.1))
  let rows := fun j => verify ((lat.tokens path).toList.take j) (ω (Fin.ofNat _ j)).2.2.2
  accept_drawn dm_exp lat path k rows ((List.ofFn ω).map (·.2.1)) ((List.ofFn ω).map (·.2.2.1))

def emitted (lat : Lattice R) (verify : List Int32 → N → VerifyRow R) (k : Nat)
    (ω : Fin (kPositions + 1) → Draw R N) : List Int32 :=
  let acc := round dm_exp lat verify k ω
  acc.tokens.take acc.n_emitted

/-! ### One position

    The same, position by position: what a draw does behind the tokens `x`. -/

variable (lat : Lattice R) (verify : List Int32 → N → VerifyRow R)

/-- The candidate index of the last token. -/
def Lattice.prev (x : List Int32) : Nat :=
  match x.getLast? with
  | none => 0
  | some t => (lat.candidates (x.length - 1)).idxOf t

/-- The lattice's weight of a candidate. -/
def draft_weight (x : List Int32) (c : Nat) : R := dm_exp (lat.logq x.length (lat.prev x) c)

/-- The verified row's weight of a candidate. -/
def row_weight (x : List Int32) (v : N) (c : Nat) : R :=
  dm_exp ((verify x v).exact.cand_logit.getD c 0 - (verify x v).exact.lse)

def drafted (x : List Int32) (d : Draw R N) : Nat :=
  sample_index (draft_weight dm_exp lat x) lat.K d.1

def accepts (x : List Int32) (d : Draw R N) : Prop :=
  d.2.1 * draft_weight dm_exp lat x (drafted dm_exp lat x d) <
    row_weight dm_exp verify x d.2.2.2 (drafted dm_exp lat x d)

instance (x : List Int32) (d : Draw R N) : Decidable (accepts dm_exp lat verify x d) :=
  inferInstanceAs (Decidable (_ < _))

/-- The token in the place of a rejected draft. -/
def resampled (x : List Int32) (d : Draw R N) : Int32 :=
  match residual_pick (row_weight dm_exp verify x d.2.2.2) (draft_weight dm_exp lat x) lat.K d.2.2.1 with
  | some pick => lat.token x.length pick
  | none => (verify x d.2.2.2).exact.masked_token.toInt32

/-- The token emitted behind `x`. -/
def emits (k : Nat) (x : List Int32) (d : Draw R N) : Int32 :=
  if x.length = k then (verify x d.2.2.2).exact.full_token.toInt32
  else if accepts dm_exp lat verify x d then lat.token x.length (drafted dm_exp lat x d)
  else resampled dm_exp lat verify x d

/-- The draw accepts a draft behind `x`, and it is `t`. -/
def drafts_token (x : List Int32) (t : Int32) (d : Draw R N) : Prop :=
  accepts dm_exp lat verify x d ∧ lat.token x.length (drafted dm_exp lat x d) = t

/-! ### The loop -/

/-- What the loop does at position `j`, and what it writes there. -/
structure SampledFrom (A : Nat → Prop) (T : Nat → Int32) (k j : Nat) (tokens : List Int32)
    (r : Accept) : Prop where
  lower : j ≤ r.accepted
  upper : r.accepted ≤ k
  emitted : r.n_emitted = r.accepted + 1
  accepted : ∀ i, j ≤ i → i < r.accepted → A i
  rejected : r.accepted < k → ¬ A r.accepted
  written : ∀ i, j ≤ i → i ≤ r.accepted → r.tokens[i]? = some (T i)
  earlier : ∀ i, i < j → r.tokens[i]? = tokens[i]?
  length : r.tokens.length = tokens.length

/-- The loop, for acceptance and tokens that agree with the code at every position it visits. -/
theorem sampling_loop_spec {lat : Lattice R} {path : Path} {cand_logit : List R} {stride : Nat}
    {lse : List R} {masked full : List Int32} {u_acc u_res : List R} {A : Nat → Prop}
    {T : Nat → Int32} {k : Nat} (hfull : T k = full.getD k 0)
    (hstep : ∀ j < k,
      let pc := fun c => dm_exp (cand_logit.getD (j * stride + c) 0 - lse.getD j 0)
      let qrow := fun c => dm_exp (lat.logq j (if j = 0 then 0 else path_at path (j - 1)) c)
      let c := path_at path j
      (A j ↔ u_acc.getD j 0 * qrow c < pc c) ∧ (A j → T j = lat.token j c) ∧
        (¬ A j → T j = match residual_pick pc qrow lat.K (u_res.getD j 0) with
          | some pick => lat.token j pick
          | none => masked.getD j 0)) :
    ∀ (drafts j : Nat) (tokens : List Int32), j + drafts = k → k < tokens.length →
      SampledFrom A T k j tokens
        (sampling_loop dm_exp lat path cand_logit stride lse masked full u_acc u_res drafts j tokens) := by
  -- on the drafts that are left; a rejection ends the loop at its position
  intro drafts
  induction drafts with
  | zero =>
    intro j tokens hj hlen
    obtain rfl : j = k := hj
    rw [sampling_loop]
    refine ⟨le_rfl, le_rfl, rfl, ?_, ?_, ?_, ?_, List.length_set⟩
    · intro i hji hij
      exact absurd hij (not_lt.mpr hji)
    · intro hlt
      exact absurd hlt (lt_irrefl _)
    · intro i hji hij
      obtain rfl : j = i := le_antisymm hji hij
      rw [List.getElem?_set_self hlen, hfull]
    · intro i hij
      exact List.getElem?_set_ne (Nat.ne_of_gt hij)
  | succ drafts ih =>
    intro j tokens hj hlen
    obtain ⟨hiff, hyes, hno⟩ := hstep j (by omega)
    dsimp only at hiff hyes hno
    rw [sampling_loop]
    dsimp only
    by_cases hA : A j
    · rw [if_pos (hiff.mp hA)]
      have hrest := ih (j + 1) (tokens.set j (lat.token j (path_at path j))) (by omega)
        (by rwa [List.length_set])
      refine ⟨by have := hrest.lower; omega, hrest.upper, hrest.emitted, ?_, hrest.rejected, ?_, ?_,
        hrest.length.trans List.length_set⟩
      · intro i hji hir
        rcases hji.eq_or_lt with rfl | hlt
        · exact hA
        · exact hrest.accepted i hlt hir
      · intro i hji hir
        rcases hji.eq_or_lt with rfl | hlt
        · rw [hrest.earlier j (Nat.lt_succ_self j), List.getElem?_set_self (by omega), hyes hA]
        · exact hrest.written i hlt hir
      · intro i hij
        rw [hrest.earlier i (by omega), List.getElem?_set_ne (Nat.ne_of_gt hij)]
    · rw [if_neg (mt hiff.mpr hA)]
      refine ⟨le_rfl, by show j ≤ k; omega, rfl, ?_, fun _ => hA, ?_, ?_, List.length_set⟩
      · intro i hji hij
        exact absurd hij (not_lt.mpr hji)
      · intro i hji hij
        obtain rfl : j = i := le_antisymm hji hij
        rw [List.getElem?_set_self (by omega), hno hA]
      · intro i hij
        exact List.getElem?_set_ne (Nat.ne_of_gt hij)

/-! ### A round, position by position -/

section Round

variable {dm_exp : R → R} {lat : Lattice R} {verify : List Int32 → N → VerifyRow R} {k : Nat}
  {ω : Fin (kPositions + 1) → Draw R N}

theorem sample_index_lt (w : Nat → R) {n : Nat} (hn : 0 < n) (u : R) : sample_index w n u < n := by
  have hscan := scan_lt (w := w) (t := u * prefix_sum w n) (i := 0) (n := n) 0 (by rwa [Nat.zero_add])
  rwa [Nat.zero_add] at hscan

theorem drafted_lt (x : List Int32) (d : Draw R N) : drafted dm_exp lat x d < lat.K :=
  sample_index_lt _ lat.pos _

theorem Lattice.choice_lt (lat : Lattice R) (u : List R) (i : Nat) :
    lat.choice dm_exp u i < lat.K := by
  cases i with
  | zero => exact sample_index_lt _ lat.pos _
  | succ i => exact sample_index_lt _ lat.pos _

theorem path_at_sample (u : List R) {i : Nat} (hi : i < kPositions) :
    path_at (lat.sample dm_exp u) i = lat.choice dm_exp u i := by
  have hlt : lat.choice dm_exp u i < 2 ^ 32 :=
    (lat.choice_lt u i).trans_le (lat.le.trans (by decide))
  have hget : (lat.sample dm_exp u).toList[i]? = some (UInt32.ofNat (lat.choice dm_exp u i)) := by
    rw [Lattice.sample, Vector.toList_ofFn, List.getElem?_ofFn, dif_pos hi]
  rw [path_at, List.getD, hget, Option.getD_some]
  exact UInt32.toNat_ofNat_of_lt' hlt

theorem prev_take (h : lat.Distinct) (u : List R) {i : Nat} (hi : i < kPositions) :
    lat.prev ((lat.tokens (lat.sample dm_exp u)).toList.take i) =
      if i = 0 then 0 else path_at (lat.sample dm_exp u) (i - 1) := by
  cases i with
  | zero => rfl
  | succ i =>
    have hi' : i < kPositions := Nat.lt_of_succ_lt hi
    have hlast : ((lat.tokens (lat.sample dm_exp u)).toList.take (i + 1)).getLast? =
        some (lat.token i (path_at (lat.sample dm_exp u) i)) := by
      rw [List.getLast?_take, if_neg (Nat.succ_ne_zero i), Nat.add_sub_cancel,
        tokens_getElem? lat _ hi', Option.some_or]
    have hlength : ((lat.tokens (lat.sample dm_exp u)).toList.take (i + 1)).length = i + 1 := by
      rw [List.length_take, Vector.length_toList]
      omega
    rw [Lattice.prev, hlast, hlength]
    simp only [Nat.add_sub_cancel, if_neg (Nat.succ_ne_zero i)]
    refine h.idxOf hi' ?_
    rw [path_at_sample u hi']
    exact lat.choice_lt u i

theorem residual_pick_congr {pc pc' qrow : Nat → R} {K : Nat} (h : ∀ c < K, pc c = pc' c)
    (u_res : R) : residual_pick pc qrow K u_res = residual_pick pc' qrow K u_res := by
  have hw : ∀ c < K, (if pc c - qrow c > 0 then pc c - qrow c else 0) =
      if pc' c - qrow c > 0 then pc' c - qrow c else 0 := by
    intro c hc
    rw [h c hc]
  have hscan : ∀ t, scan (fun i => if pc i - qrow i > 0 then pc i - qrow i else 0) t K 0 0 0 =
      scan (fun i => if pc' i - qrow i > 0 then pc' i - qrow i else 0) t K 0 0 0 := by
    intro t
    refine scan_congr 0 0 ?_
    intro c _ hc
    exact hw c (by rwa [Nat.zero_add] at hc)
  simp only [residual_pick, prefix_sum_congr hw, prefix_sum_congr h, hscan]

theorem length_take_drafts {j : Nat} (hj : j ≤ kPositions) :
    ((draft_tokens dm_exp lat ω).take j).length = j := by
  rw [List.length_take, draft_tokens, Vector.length_toList]
  omega

theorem draft_weight_take (h : lat.Distinct) {j : Nat} (hj : j < kPositions) (c : Nat) :
    draft_weight dm_exp lat ((draft_tokens dm_exp lat ω).take j) c =
      dm_exp (lat.logq j (if j = 0 then 0 else
        path_at (lat.sample dm_exp ((List.ofFn ω).map (·.1))) (j - 1)) c) := by
  rw [draft_weight, length_take_drafts hj.le, draft_tokens, prev_take h _ hj]

theorem drafted_take (h : lat.Distinct) {j : Nat} (hj : j < kPositions) :
    drafted dm_exp lat ((draft_tokens dm_exp lat ω).take j) (ω (Fin.ofNat _ j)) =
      path_at (lat.sample dm_exp ((List.ofFn ω).map (·.1))) j := by
  rw [drafted, funext (draft_weight_take h hj), path_at_sample _ hj,
    ← draws_getD ω (fun d => d.1) (Nat.lt_succ_of_lt hj)]
  cases j with
  | zero => rfl
  | succ j =>
    rw [if_neg (Nat.succ_ne_zero j), Nat.add_sub_cancel, path_at_sample _ (Nat.lt_of_succ_lt hj)]
    rfl

/-- What a round does at a position is a matter of the position's draw and of the drafts before
    it. -/
theorem round_spec (h : lat.Distinct) (hk : k ≤ kPositions) :
    SampledFrom
      (fun j => accepts dm_exp lat verify ((draft_tokens dm_exp lat ω).take j) (ω (Fin.ofNat _ j)))
      (fun j => emits dm_exp lat verify k ((draft_tokens dm_exp lat ω).take j) (ω (Fin.ofNat _ j)))
      k 0 (List.replicate (kPositions + 1) 0) (round dm_exp lat verify k ω) := by
  refine sampling_loop_spec dm_exp ?_ ?_ k 0 _ (Nat.zero_add k) (by simpa using Nat.lt_succ_of_le hk)
  · rw [getD_map_range _ (Nat.lt_succ_self k), emits, if_pos (length_take_drafts hk)]
    rfl
  · intro j hj
    have hj5 : j < kPositions := hj.trans_le hk
    intro pc qrow c
    have hp : ∀ c < lat.K, pc c = row_weight dm_exp verify ((draft_tokens dm_exp lat ω).take j)
        (ω (Fin.ofNat _ j)).2.2.2 c := by
      intro c hc
      show dm_exp _ = dm_exp _
      rw [getD_cand_logit _ hj5 (Nat.lt_succ_of_lt hj) hc lat.le, getD_map_range _ (Nat.lt_succ_of_lt hj)]
      rfl
    have hq : ∀ c, qrow c = draft_weight dm_exp lat ((draft_tokens dm_exp lat ω).take j) c :=
      fun c => (draft_weight_take h hj5 c).symm
    have hc : c = drafted dm_exp lat ((draft_tokens dm_exp lat ω).take j) (ω (Fin.ofNat _ j)) :=
      (drafted_take h hj5).symm
    have hclt : c < lat.K := hc ▸ drafted_lt _ _
    have hlength : ((draft_tokens dm_exp lat ω).take j).length = j := length_take_drafts hj5.le
    have hne : ((draft_tokens dm_exp lat ω).take j).length ≠ k := by omega
    refine ⟨?_, ?_, ?_⟩
    · rw [draws_getD ω (fun d => d.2.1) (Nat.lt_succ_of_lt hj5), hq, hp c hclt, hc]
      rfl
    · intro hacc
      rw [emits, if_neg hne, if_pos hacc, hlength, ← hc]
    · intro hrej
      rw [emits, if_neg hne, if_neg hrej, resampled, hlength, residual_pick_congr hp, funext hq,
        draws_getD ω (fun d => d.2.2.1) (Nat.lt_succ_of_lt hj5), getD_map_range _ hj]
      rfl

/-- Position `i` emits `t`: every draft before it was accepted, and `t` is what its draw gives. -/
theorem emitted_getElem?_iff (h : lat.Distinct) (hk : k ≤ kPositions) {i : Nat} (hi : i ≤ k)
    (t : Int32) : (emitted dm_exp lat verify k ω)[i]? = some t ↔
      (∀ l < i, accepts dm_exp lat verify ((draft_tokens dm_exp lat ω).take l) (ω (Fin.ofNat _ l))) ∧
        emits dm_exp lat verify k ((draft_tokens dm_exp lat ω).take i) (ω (Fin.ofNat _ i)) = t := by
  have hspec : SampledFrom _ _ k 0 _ (round dm_exp lat verify k ω) := round_spec h hk
  have hreach : i < (round dm_exp lat verify k ω).n_emitted ↔
      ∀ l < i, accepts dm_exp lat verify ((draft_tokens dm_exp lat ω).take l) (ω (Fin.ofNat _ l)) := by
    rw [hspec.emitted]
    constructor
    · intro hlt l hl
      exact hspec.accepted l (Nat.zero_le l) (by omega)
    · intro hall
      by_contra hge
      exact hspec.rejected (by omega) (hall _ (by omega))
  rw [emitted, List.getElem?_take, ← hreach]
  split
  next hlt =>
    have hle : i ≤ (round dm_exp lat verify k ω).accepted := by
      rw [hspec.emitted] at hlt
      omega
    rw [hspec.written i (Nat.zero_le i) hle, Option.some.injEq]
    exact (and_iff_right hlt).symm
  next hge =>
    constructor
    · intro hnone
      cases hnone
    · intro hboth
      exact absurd hboth.1 hge

theorem draft_tokens_getElem? (h : lat.Distinct) {l : Nat} (hl : l < kPositions) :
    (draft_tokens dm_exp lat ω)[l]? = some (lat.token l
      (drafted dm_exp lat ((draft_tokens dm_exp lat ω).take l) (ω (Fin.ofNat _ l)))) := by
  rw [drafted_take h hl]
  exact tokens_getElem? lat _ hl

/-- The draws draft and accept the tokens `x`, one after the other. -/
def Drafted (dm_exp : R → R) (lat : Lattice R) (verify : List Int32 → N → VerifyRow R)
    (ω : Fin (kPositions + 1) → Draw R N) (x : List Int32) : Prop :=
  ∀ i (hi : i < x.length), drafts_token dm_exp lat verify (x.take i) x[i] (ω (Fin.ofNat _ i))

/-- Lists that agree up to `i` have the same first `i` elements. -/
theorem take_eq_take {α : Type} {x y : List α} {i : Nat}
    (h : ∀ l < i, y[l]? = x[l]?) : x.take i = y.take i := by
  apply List.ext_getElem?
  intro l
  rw [List.getElem?_take, List.getElem?_take]
  split
  next hl => exact (h l hl).symm
  · rfl

theorem drafted_iff (h : lat.Distinct) {x : List Int32} (hx : x.length ≤ kPositions) :
    Drafted dm_exp lat verify ω x ↔ x <+: draft_tokens dm_exp lat ω ∧
      ∀ l < x.length,
        accepts dm_exp lat verify ((draft_tokens dm_exp lat ω).take l) (ω (Fin.ofNat _ l)) := by
  rw [List.prefix_iff_getElem?]
  constructor
  · intro hall
    have hsame : ∀ i (hi : i < x.length), (draft_tokens dm_exp lat ω)[i]? = some x[i] := by
      intro i
      induction i using Nat.strong_induction_on with
      | _ i ih =>
        intro hi
        have hbefore : x.take i = (draft_tokens dm_exp lat ω).take i := by
          refine take_eq_take ?_
          intro l hl
          rw [ih l hl (hl.trans hi), List.getElem?_eq_getElem (hl.trans hi)]
        obtain ⟨_, htoken⟩ := hall i hi
        rw [hbefore, length_take_drafts (hi.le.trans hx)] at htoken
        rw [draft_tokens_getElem? h (hi.trans_le hx), htoken]
    refine ⟨hsame, ?_⟩
    intro l hl
    have hbefore : x.take l = (draft_tokens dm_exp lat ω).take l := by
      refine take_eq_take ?_
      intro i hi
      rw [hsame i (hi.trans hl), List.getElem?_eq_getElem (hi.trans hl)]
    exact hbefore ▸ (hall l hl).1
  · rintro ⟨hsame, hacc⟩ i hi
    have hbefore : x.take i = (draft_tokens dm_exp lat ω).take i := by
      refine take_eq_take ?_
      intro l hl
      rw [hsame l (hl.trans hi), List.getElem?_eq_getElem (hl.trans hi)]
    have htoken := hsame i hi
    rw [draft_tokens_getElem? h (hi.trans_le hx), Option.some.injEq] at htoken
    refine ⟨hbefore ▸ hacc i hi, ?_⟩
    rw [hbefore, length_take_drafts (hi.le.trans hx), htoken]

/-- The round emits `x`, and something behind it. -/
theorem emitted_behind_iff (h : lat.Distinct) (hk : k ≤ kPositions) {x : List Int32}
    (hx : x.length ≤ k) : (x <+: emitted dm_exp lat verify k ω ∧
      x.length < (emitted dm_exp lat verify k ω).length) ↔ Drafted dm_exp lat verify ω x := by
  have hx5 := hx.trans hk
  have hat : ∀ {i : Nat}, i ≤ k → ∀ t, (emitted dm_exp lat verify k ω)[i]? = some t ↔ _ :=
    fun hi t => emitted_getElem?_iff h hk hi t
  -- an accepted draft is emitted as it stands in the path
  have hdraft : ∀ l < k,
      accepts dm_exp lat verify ((draft_tokens dm_exp lat ω).take l) (ω (Fin.ofNat _ l)) →
      (draft_tokens dm_exp lat ω)[l]? =
        some (emits dm_exp lat verify k ((draft_tokens dm_exp lat ω).take l) (ω (Fin.ofNat _ l))) := by
    intro l hl hacc
    have hlength : ((draft_tokens dm_exp lat ω).take l).length = l :=
      length_take_drafts (hl.le.trans hk)
    rw [draft_tokens_getElem? h (hl.trans_le hk), emits, if_neg (by omega), if_pos hacc, hlength]
  rw [drafted_iff h hx5, List.prefix_iff_getElem?, List.prefix_iff_getElem?]
  constructor
  · rintro ⟨hpre, hlt⟩
    obtain ⟨hacc, _⟩ := (hat hx _).mp (List.getElem?_eq_getElem hlt)
    refine ⟨?_, hacc⟩
    intro i hi
    obtain ⟨_, htoken⟩ := (hat (hi.le.trans hx) _).mp (hpre i hi)
    rw [hdraft i (hi.trans_le hx) (hacc i hi), htoken]
  · rintro ⟨hpre, hacc⟩
    refine ⟨?_, ?_⟩
    · intro i hi
      have htoken := hdraft i (hi.trans_le hx) (hacc i hi)
      rw [hpre i hi, Option.some.injEq] at htoken
      exact (hat (hi.le.trans hx) _).mpr ⟨fun l hl => hacc l (hl.trans hi), htoken.symm⟩
    · by_contra hge
      have hnone := List.getElem?_eq_none (not_lt.mp hge)
      rw [(hat hx _).mpr ⟨hacc, rfl⟩] at hnone
      exact absurd hnone (Option.some_ne_none _)

theorem append_singleton_prefix_iff {α : Type} {x l : List α} {t : α} :
    x ++ [t] <+: l ↔ x <+: l ∧ l[x.length]? = some t := by
  constructor
  · rintro ⟨s, rfl⟩
    refine ⟨⟨[t] ++ s, (List.append_assoc ..).symm⟩, ?_⟩
    simp
  · rintro ⟨⟨s, rfl⟩, hget⟩
    rw [List.getElem?_append_right le_rfl, Nat.sub_self] at hget
    cases s with
    | nil => cases hget
    | cons a s =>
      obtain rfl : a = t := Option.some.inj hget
      exact ⟨s, by simp⟩

/-- What it emits behind `x` is up to the draw of that position. -/
theorem emitted_next_iff (h : lat.Distinct) (hk : k ≤ kPositions) {x : List Int32}
    (hx : x.length ≤ k) (t : Int32) : x ++ [t] <+: emitted dm_exp lat verify k ω ↔
      Drafted dm_exp lat verify ω x ∧
        emits dm_exp lat verify k x (ω (Fin.ofNat _ x.length)) = t := by
  have hat : ∀ t, (emitted dm_exp lat verify k ω)[x.length]? = some t ↔ _ :=
    fun t => emitted_getElem?_iff h hk hx t
  have hsame : Drafted dm_exp lat verify ω x → x = (draft_tokens dm_exp lat ω).take x.length :=
    fun hdrafted => List.prefix_iff_eq_take.mp ((drafted_iff h (hx.trans hk)).mp hdrafted).1
  rw [append_singleton_prefix_iff]
  constructor
  · rintro ⟨hpre, hget⟩
    have hlt : x.length < (emitted dm_exp lat verify k ω).length :=
      (List.getElem?_eq_some_iff.mp hget).1
    have hdrafted := (emitted_behind_iff h hk hx).mp ⟨hpre, hlt⟩
    have hemits := ((hat t).mp hget).2
    rw [← hsame hdrafted] at hemits
    exact ⟨hdrafted, hemits⟩
  · rintro ⟨hdrafted, hemits⟩
    refine ⟨((emitted_behind_iff h hk hx).mpr hdrafted).1, (hat t).mpr ?_⟩
    rw [← hsame hdrafted]
    exact ⟨((drafted_iff h (hx.trans hk)).mp hdrafted).2, hemits⟩

/-- Drafted tokens leave the lattice at a row it has. -/
theorem Drafted.prev_lt {x : List Int32} (hdrafted : Drafted dm_exp lat verify ω x)
    (h : lat.Distinct) (hx : x.length < kPositions) :
    lat.prev x < if x.length = 0 then 1 else lat.K := by
  have hsame := List.prefix_iff_eq_take.mp ((drafted_iff h hx.le).mp hdrafted).1
  have hprev : lat.prev x = if x.length = 0 then 0 else
      path_at (lat.sample dm_exp ((List.ofFn ω).map (·.1))) (x.length - 1) := by
    conv_lhs => rw [hsame]
    exact prev_take h _ hx
  rw [hprev]
  split
  · exact Nat.one_pos
  · rw [path_at_sample _ (by omega)]
    exact lat.choice_lt _ _

/-- What position `i` has to draw for a round to draft `x`. -/
def drafting (dm_exp : R → R) (lat : Lattice R) (verify : List Int32 → N → VerifyRow R)
    (x : List Int32) (i : Fin (kPositions + 1)) : Set (Draw R N) :=
  {d | ∀ hi : i.val < x.length, drafts_token dm_exp lat verify (x.take i) x[i.val] d}

/-- The drafts of a round are a matter of one draw after the other. -/
theorem drafted_iff_drafting {x : List Int32} (hx : x.length ≤ kPositions) :
    Drafted dm_exp lat verify ω x ↔ ∀ i, ω i ∈ drafting dm_exp lat verify x i := by
  constructor
  · intro hall i hi
    have hat : Fin.ofNat (kPositions + 1) i.val = i := Fin.ofNat_val_eq_self i
    have hdraft := hall i.val hi
    rwa [hat] at hdraft
  · intro hall i hi
    have hval : (Fin.ofNat (kPositions + 1) i).val = i :=
      Nat.mod_eq_of_lt (Nat.lt_succ_of_le (hi.le.trans hx))
    have hdraft := hall (Fin.ofNat _ i) (by rwa [hval])
    simpa only [hval] using hdraft

/-- A round emits what it accepts and one token more. -/
theorem length_emitted (h : lat.Distinct) (hk : k ≤ kPositions) :
    (emitted dm_exp lat verify k ω).length = (round dm_exp lat verify k ω).accepted + 1 ∧
      (round dm_exp lat verify k ω).accepted ≤ k := by
  have hspec : SampledFrom _ _ k 0 _ (round dm_exp lat verify k ω) := round_spec h hk
  have hupper := hspec.upper
  have hlength := hspec.length
  rw [List.length_replicate] at hlength
  refine ⟨?_, hupper⟩
  rw [emitted, List.length_take, hspec.emitted, hlength]
  omega

end Round

end Code

/-! ### Distributions -/

section Law

variable {N : Type} [MeasurableSpace N]

/-- Every row of the lattice is a distribution over its candidates; position 0 has one row. -/
def Lattice.Normalised (dm_exp : ℝ → ℝ) (lat : Lattice ℝ) : Prop :=
  ∀ i < kPositions, ∀ p < (if i = 0 then 1 else lat.K),
    prefix_sum (fun c => dm_exp (lat.logq i p c)) lat.K = 1

/-- What the verify forward says of a row: the logits of the candidates over the logsumexp of the
    row, a sample of the row with the candidates masked out, and a sample of the row. -/
structure Verifies (dm_exp : ℝ → ℝ) (lat : Lattice ℝ) (verify : List Int32 → N → VerifyRow ℝ)
    (ν : Measure N) (target : List Int32 → PMF Int32) : Prop where
  cand : ∀ x v c, x.length < kPositions → c < lat.K →
    row_weight dm_exp verify x v c = (target x (lat.token x.length c)).toReal
  masked : ∀ x, x.length < kPositions →
    ∀ h : ∃ t ∈ {t | t ∉ lat.candidates x.length}, t ∈ (target x).support, ∀ t,
      ν {v | (verify x v).exact.masked_token.toInt32 = t} =
        (target x).filter {t | t ∉ lat.candidates x.length} h t
  full : ∀ x t, x.length ≤ kPositions →
    ν {v | (verify x v).exact.full_token.toInt32 = t} = target x t

/-- What a position draws. -/
noncomputable def draw (ν : Measure N) : Measure (Draw ℝ N) :=
  uniform.prod (uniform.prod (uniform.prod ν))

/-- What a round draws. -/
noncomputable def round_draws (ν : Measure N) : Measure (Fin (kPositions + 1) → Draw ℝ N) :=
  Measure.pi fun _ => draw ν

/-! #### The residual -/

/-- The mass of a residual, which is what is left over of the row. -/
noncomputable def residual_mass (p q : Nat → ℝ) (K : Nat) : ℝ :=
  prefix_sum (left_over p q) K + (1 - prefix_sum p K)

theorem residual_pick_eq {p q : Nat → ℝ} {K : Nat} (hp : prefix_sum p K ≤ 1) (u : ℝ) :
    residual_pick p q K u = pick (left_over p q) K (residual_mass p q K) u := by
  have hrest : (if 1 - prefix_sum p K > 0 then 1 - prefix_sum p K else 0) = 1 - prefix_sum p K := by
    split
    · rfl
    · linarith
  simp only [residual_pick, hrest]
  rfl

/-- The token of a residual: the candidate picked, or the masked sample. -/
def residual_token (token : Nat → Int32) (masked : N → Int32) (o : Option Nat) (v : N) : Int32 :=
  match o with
  | some i => token i
  | none => masked v

section Position

variable {ν : Measure N} [IsProbabilityMeasure ν]

/-- The residual emits `t` with what is left over of `t`, in and outside of the candidates. -/
theorem residual_law {p q : Nat → ℝ} {K : Nat} (hK : 0 < K) (hp : prefix_sum p K ≤ 1)
    (token : Nat → Int32) (masked : N → Int32) (t : Int32) :
    residual_mass p q K * (uniform.prod ν).real
        {g | residual_token token masked (residual_pick p q K g.1) g.2 = t} =
      ∑ i ∈ Finset.range K, left_over p q i * (if token i = t then 1 else 0) +
        (1 - prefix_sum p K) * ν.real {v | masked v = t} := by
  have hbound : prefix_sum (left_over p q) K ≤ residual_mass p q K :=
    le_add_of_nonneg_right (sub_nonneg.mpr hp)
  have hchoice := prod_real_choice (μ := uniform) (ν := ν)
    (pick_mem (left_over p q) (residual_mass p q K) hK)
    (measurableSet_pick (left_over p q) K (residual_mass p q K))
    fun o => {v | residual_token token masked o v = t}
  simp only [residual_pick_eq hp]
  have hmass := pick_mass left_over_nonneg hbound
    fun o => ν.real {v | residual_token token masked o v = t}
  rw [← hchoice] at hmass
  refine hmass.trans ?_
  congr 1
  · refine Finset.sum_congr rfl ?_
    intro i _
    congr 1
    by_cases hi : token i = t
    · simp [residual_token, hi]
    · simp [residual_token, hi]
  · rw [residual_mass, add_sub_cancel_left]
    rfl

/-! #### One position -/

/-- A draft is accepted, or else replaced by a residual. -/
noncomputable def position_token (p q : Nat → ℝ) (K : Nat) (token : Nat → Int32) (masked : N → Int32)
    (d : Draw ℝ N) : Int32 :=
  let c := sample_index q K d.1
  if d.2.1 * q c < p c then token c
  else residual_token token masked (residual_pick p q K d.2.2.1) d.2.2.2

theorem position_law {p q : Nat → ℝ} {K : Nat} (hK : 0 < K) (hp0 : ∀ c, 0 ≤ p c) (hq0 : ∀ c, 0 ≤ q c)
    (hp : prefix_sum p K ≤ 1) (hq : prefix_sum q K = 1) (token : Nat → Int32) (masked : N → Int32)
    (t : Int32) : (draw ν).real {d | position_token p q K token masked d = t} =
      ∑ i ∈ Finset.range K, p i * (if token i = t then 1 else 0) +
        (1 - prefix_sum p K) * ν.real {v | masked v = t} := by
  have hdraft : ∀ c < K, uniform.real {u | sample_index q K u = c} = q c := by
    intro c hc
    have hscan := uniform_scan_all hq0 zero_lt_one hq hc
    rw [div_one] at hscan
    simpa only [sample_index, hq] using hscan
  have hmeas : ∀ c, MeasurableSet {u | sample_index q K u = c} := by
    intro c
    exact ((measurable_scan q K 0 0 0).comp (measurable_id.mul_const _)) (measurableSet_singleton c)
  let S : Set (ℝ × N) := {g | residual_token token masked (residual_pick p q K g.1) g.2 = t}
  have hchoice := prod_real_choice (μ := uniform) (ν := uniform.prod (uniform.prod ν))
    (fun u => Finset.mem_range.mpr (sample_index_lt q hK u)) hmeas
    fun c => {e : ℝ × ℝ × N | if e.1 * q c < p c then e.2 ∈ {_g | token c = t} else e.2 ∈ S}
  have hset : {d : Draw ℝ N | position_token p q K token masked d = t} =
      {d | d.2 ∈ {e : ℝ × ℝ × N | if e.1 * q (sample_index q K d.1) < p (sample_index q K d.1) then
        e.2 ∈ {_g | token (sample_index q K d.1) = t} else e.2 ∈ S}} := by
    ext d
    simp only [position_token, Set.mem_ofPred_eq]
    split
    · rfl
    · rfl
  have hterm : ∀ c ∈ Finset.range K, uniform.real {u | sample_index q K u = c} *
      (uniform.prod (uniform.prod ν)).real
        {e | if e.1 * q c < p c then e.2 ∈ {_g | token c = t} else e.2 ∈ S} =
      min (p c) (q c) * (if token c = t then 1 else 0) +
        (q c - min (p c) (q c)) * (uniform.prod ν).real S := by
    intro c hc
    rw [hdraft c (Finset.mem_range.mp hc), prod_real_threshold (hp0 c) (hq0 c)]
    congr 2
    by_cases hc : token c = t
    · simp [hc]
    · simp [hc]
  -- the residual is the same whichever draft was rejected
  rw [draw, hset, hchoice, Finset.sum_congr rfl hterm, Finset.sum_add_distrib, ← Finset.sum_mul,
    rejected_mass hq]
  have hresidual := residual_law hK hp token masked t (ν := ν) (q := q)
  rw [residual_mass] at hresidual
  rw [hresidual, ← add_assoc, ← Finset.sum_add_distrib]
  congr 1
  refine Finset.sum_congr rfl ?_
  intro c _
  rw [← add_mul, min_add_left_over]

end Position

/-! #### The row -/

theorem outside_mass (P : PMF Int32) (l : List Int32) :
    tsum (Set.indicator {t | t ∉ l} P) + ∑ t ∈ l.toFinset, P t = 1 := by
  have hinside : tsum (Set.indicator (l.toFinset : Set Int32) P) = ∑ t ∈ l.toFinset, P t := by
    rw [← tsum_subtype, Finset.tsum_subtype']
  have hcompl : {t | t ∉ l} = (l.toFinset : Set Int32)ᶜ := by
    ext t
    simp
  rw [← hinside, ← ENNReal.tsum_add, hcompl, ← P.tsum_coe]
  refine tsum_congr ?_
  intro t
  rw [add_comm]
  exact congrFun (Set.indicator_self_add_compl (l.toFinset : Set Int32) P) t

variable {ν : Measure N} {dm_exp : ℝ → ℝ} {lat : Lattice ℝ} {verify : List Int32 → N → VerifyRow ℝ}
  {target : List Int32 → PMF Int32} {k : Nat} {x : List Int32}

/-- The row's weight of a candidate. -/
noncomputable def candidate_mass (lat : Lattice ℝ) (target : List Int32 → PMF Int32)
    (x : List Int32) (c : Nat) : ℝ :=
  (target x (lat.token x.length c)).toReal

theorem sum_candidates (h : lat.Distinct) (hx : x.length < kPositions) {M : Type} [AddCommMonoid M]
    (f : Int32 → M) : ∑ c ∈ Finset.range lat.K, f (lat.token x.length c) =
      ∑ t ∈ (lat.candidates x.length).toFinset, f t := by
  have himage : (lat.candidates x.length).toFinset =
      (Finset.range lat.K).image (lat.token x.length) := by
    ext t
    simp [Lattice.candidates]
  rw [himage, Finset.sum_image]
  intro c hc c' hc' heq
  exact h _ hx c (Finset.mem_range.mp hc) c' (Finset.mem_range.mp hc') heq

/-- What the row has outside of its candidates, as the code computes it. -/
theorem outside_real (h : lat.Distinct) (hx : x.length < kPositions) :
    (tsum (Set.indicator {t | t ∉ lat.candidates x.length} (target x))).toReal =
      1 - prefix_sum (candidate_mass lat target x) lat.K := by
  have hsum : prefix_sum (candidate_mass lat target x) lat.K =
      (∑ t ∈ (lat.candidates x.length).toFinset, target x t).toReal := by
    rw [ENNReal.toReal_sum fun t _ => (target x).apply_ne_top t, ← sum_candidates h hx]
    rfl
  have hmass := outside_mass (target x) (lat.candidates x.length)
  have hfinite := ENNReal.add_ne_top.mp (hmass.symm ▸ ENNReal.one_ne_top)
  have hreal := congrArg ENNReal.toReal hmass
  rw [ENNReal.toReal_add hfinite.1 hfinite.2, ENNReal.toReal_one, ← hsum] at hreal
  linarith

/-- What is drawn from outside of the candidates has what the row has there. -/
theorem masked_law (h : lat.Distinct) (hv : Verifies dm_exp lat verify ν target)
    (hx : x.length < kPositions) (t : Int32) :
    (1 - prefix_sum (candidate_mass lat target x) lat.K) *
        ν.real {v | (verify x v).exact.masked_token.toInt32 = t} =
      if t ∈ lat.candidates x.length then 0 else (target x t).toReal := by
  rw [← outside_real h hx]
  by_cases hex : ∃ t ∈ {t | t ∉ lat.candidates x.length}, t ∈ (target x).support
  · rw [Measure.real, hv.masked x hx hex t]
    split
    next hin =>
      rw [PMF.filter_apply_eq_zero_of_notMem _ (not_not.mpr hin), ENNReal.toReal_zero, mul_zero]
    next hout =>
      have hne : (tsum (Set.indicator {t | t ∉ lat.candidates x.length} (target x))).toReal ≠ 0 := by
        rw [ENNReal.toReal_ne_zero]
        refine ⟨?_, ?_⟩
        · obtain ⟨t', hout', hsupp⟩ := hex
          intro hzero
          have hterm := ENNReal.tsum_eq_zero.mp hzero t'
          exact hsupp (Set.indicator_apply_eq_zero.mp hterm hout')
        · have hmass := outside_mass (target x) (lat.candidates x.length)
          exact (ENNReal.add_ne_top.mp (hmass.symm ▸ ENNReal.one_ne_top)).1
      rw [PMF.filter_apply, Set.indicator_of_mem hout, ENNReal.toReal_mul, ENNReal.toReal_inv]
      field_simp
  · -- nothing to draw from
    have hzero : ∀ t ∉ lat.candidates x.length, target x t = 0 := by
      intro t ht
      by_contra hne
      exact hex ⟨t, ht, hne⟩
    have hnone : tsum (Set.indicator {t | t ∉ lat.candidates x.length} (target x)) = 0 := by
      rw [ENNReal.tsum_eq_zero]
      intro t
      exact Set.indicator_apply_eq_zero.mpr (hzero t)
    rw [hnone, ENNReal.toReal_zero, zero_mul]
    split
    · rfl
    next hout => rw [hzero t hout, ENNReal.toReal_zero]

/-- The candidates of a row, and what lies outside of them. -/
theorem row_law (h : lat.Distinct) (hv : Verifies dm_exp lat verify ν target)
    (hx : x.length < kPositions) (t : Int32) :
    ∑ c ∈ Finset.range lat.K, candidate_mass lat target x c *
        (if lat.token x.length c = t then 1 else 0) +
      (1 - prefix_sum (candidate_mass lat target x) lat.K) *
        ν.real {v | (verify x v).exact.masked_token.toInt32 = t} = (target x t).toReal := by
  have hcandidates := sum_candidates h hx fun t' => (target x t').toReal * if t' = t then 1 else 0
  simp only [mul_ite, mul_one, mul_zero, Finset.sum_ite_eq', List.mem_toFinset] at hcandidates
  rw [masked_law h hv hx]
  simp only [candidate_mass, mul_ite, mul_one, mul_zero]
  rw [hcandidates]
  split
  · exact add_zero _
  · exact zero_add _

/-! #### One position of a round -/

variable [IsProbabilityMeasure ν]

instance : IsProbabilityMeasure (draw ν) := by
  unfold draw
  infer_instance

/-- The draw of a position, full samples aside, emits a token with the row's own probability. -/
theorem drafted_law (h : lat.Distinct) (hdm : ∀ y, 0 ≤ dm_exp y) (hnorm : lat.Normalised dm_exp)
    (hv : Verifies dm_exp lat verify ν target) (hx : x.length < kPositions)
    (hprev : lat.prev x < if x.length = 0 then 1 else lat.K) (hk : x.length ≠ k) (t : Int32) :
    (draw ν).real {d | emits dm_exp lat verify k x d = t} = (target x t).toReal := by
  have hcand : ∀ v, ∀ c < lat.K, row_weight dm_exp verify x v c = candidate_mass lat target x c :=
    fun v c hc => hv.cand x v c hx hc
  have hle : prefix_sum (candidate_mass lat target x) lat.K ≤ 1 := by
    rw [← sub_nonneg, ← outside_real h hx]
    exact ENNReal.toReal_nonneg
  have hemits : ∀ d, emits dm_exp lat verify k x d =
      position_token (candidate_mass lat target x) (draft_weight dm_exp lat x) lat.K
        (lat.token x.length) (fun v => (verify x v).exact.masked_token.toInt32) d := by
    intro d
    have haccepts : accepts dm_exp lat verify x d ↔
        d.2.1 * draft_weight dm_exp lat x (drafted dm_exp lat x d) <
          candidate_mass lat target x (drafted dm_exp lat x d) := by
      rw [accepts, hcand _ _ (drafted_lt x d)]
    unfold emits position_token
    rw [if_neg hk]
    by_cases hacc : accepts dm_exp lat verify x d
    · rw [if_pos hacc]
      exact (if_pos (haccepts.mp hacc)).symm
    · rw [if_neg hacc, resampled, residual_pick_congr (hcand _)]
      exact (if_neg (mt haccepts.mpr hacc)).symm
  have hmass0 : ∀ c, 0 ≤ candidate_mass lat target x c := fun _ => ENNReal.toReal_nonneg
  have hdraft0 : ∀ c, 0 ≤ draft_weight dm_exp lat x c := fun _ => hdm _
  simp only [hemits]
  rw [position_law lat.pos hmass0 hdraft0 hle (hnorm _ hx _ hprev), row_law h hv hx]

theorem emits_law (h : lat.Distinct) (hdm : ∀ y, 0 ≤ dm_exp y) (hnorm : lat.Normalised dm_exp)
    (hv : Verifies dm_exp lat verify ν target) (hk : k ≤ kPositions) (hx : x.length ≤ k)
    (hprev : x.length < kPositions → lat.prev x < if x.length = 0 then 1 else lat.K) (t : Int32) :
    draw ν {d | emits dm_exp lat verify k x d = t} = target x t := by
  by_cases hlast : x.length = k
  · -- the bonus token
    have hbox : {d : Draw ℝ N | emits dm_exp lat verify k x d = t} = Set.univ ×ˢ (Set.univ ×ˢ
        (Set.univ ×ˢ {v | (verify x v).exact.full_token.toInt32 = t})) := by
      ext d
      simp [emits, hlast]
    rw [hbox, draw, Measure.prod_prod, Measure.prod_prod, Measure.prod_prod, measure_univ, one_mul,
      one_mul, one_mul, hv.full x t (hx.trans hk)]
  · have hlt : x.length < kPositions := by omega
    have hreal := drafted_law h hdm hnorm hv hlt (hprev hlt) hlast t
    exact (ENNReal.toReal_eq_toReal_iff' (measure_ne_top _ _) ((target x).apply_ne_top t)).mp hreal

/-! #### The round -/

/-- A round drafts `x` and then draws `S`: the draw of that position is independent of those
    before it. -/
theorem draws_behind (hx : x.length ≤ kPositions) (S : Set (Draw ℝ N)) :
    round_draws ν {ω | Drafted dm_exp lat verify ω x ∧ ω (Fin.ofNat _ x.length) ∈ S} =
      round_draws ν {ω | Drafted dm_exp lat verify ω x} * draw ν S := by
  have hval : (Fin.ofNat (kPositions + 1) x.length).val = x.length :=
    Nat.mod_eq_of_lt (Nat.lt_succ_of_le hx)
  generalize Fin.ofNat (kPositions + 1) x.length = n at hval
  -- position `n` is the first that is free to draw anything
  have hfree : drafting dm_exp lat verify x n = Set.univ := by
    refine Set.eq_univ_of_forall ?_
    intro d hn
    omega
  have hbefore : {ω | Drafted dm_exp lat verify ω x} =
      Set.univ.pi (drafting dm_exp lat verify x) := by
    ext ω
    simpa using drafted_iff_drafting hx
  have hboth : {ω | Drafted dm_exp lat verify ω x ∧ ω n ∈ S} =
      Set.univ.pi (Function.update (drafting dm_exp lat verify x) n S) := by
    ext ω
    simp only [Set.mem_ofPred_eq, drafted_iff_drafting hx, Set.mem_univ_pi]
    constructor
    · intro ⟨hall, hn⟩ i
      by_cases hi : i = n
      · subst hi
        rwa [Function.update_self]
      · rw [Function.update_of_ne hi]
        exact hall i
    · intro hall
      refine ⟨?_, ?_⟩
      · intro i
        by_cases hi : i = n
        · rw [hi, hfree]
          trivial
        · have hmem := hall i
          rwa [Function.update_of_ne hi] at hmem
      · have hmem := hall n
        rwa [Function.update_self] at hmem
  rw [hboth, hbefore, round_draws, Measure.pi_pi, Measure.pi_pi,
    ← Finset.mul_prod_erase _ _ (Finset.mem_univ n), ← Finset.mul_prod_erase _ (fun i => draw ν
      (drafting dm_exp lat verify x i)) (Finset.mem_univ n), hfree, measure_univ, one_mul,
    Function.update_self, mul_comm]
  congr 1
  refine Finset.prod_congr rfl ?_
  intro i hi
  rw [Function.update_of_ne (Finset.ne_of_mem_erase hi)]

/-- Behind the tokens emitted so far, a round emits its next token with the probability the
    target gives it there. -/
theorem emits_next_law (h : lat.Distinct) (hdm : ∀ y, 0 ≤ dm_exp y)
    (hnorm : lat.Normalised dm_exp) (hv : Verifies dm_exp lat verify ν target)
    (hk : k ≤ kPositions) (x : List Int32) (t : Int32) :
    round_draws ν {ω | x ++ [t] <+: emitted dm_exp lat verify k ω} =
      round_draws ν {ω | x <+: emitted dm_exp lat verify k ω ∧
        x.length < (emitted dm_exp lat verify k ω).length} * target x t := by
  by_cases hx : x.length ≤ k
  · simp only [emitted_next_iff h hk hx, emitted_behind_iff h hk hx]
    by_cases hsome : ∃ ω : Fin (kPositions + 1) → Draw ℝ N, Drafted dm_exp lat verify ω x
    · obtain ⟨ω, hdrafted⟩ := hsome
      rw [← emits_law h hdm hnorm hv hk hx (hdrafted.prev_lt h) t]
      exact draws_behind (hx.trans hk) {d | emits dm_exp lat verify k x d = t}
    · -- tokens the lattice does not draft
      have hnone : ∀ ω : Fin (kPositions + 1) → Draw ℝ N, ¬ Drafted dm_exp lat verify ω x :=
        not_exists.mp hsome
      simp [hnone]
  · -- a round is not that long
    have hlong : ∀ ω : Fin (kPositions + 1) → Draw ℝ N,
        (emitted dm_exp lat verify k ω).length ≤ x.length := by
      intro ω
      have hround : (emitted dm_exp lat verify k ω).length =
            (round dm_exp lat verify k ω).accepted + 1 ∧
          (round dm_exp lat verify k ω).accepted ≤ k := length_emitted h hk
      omega
    have hnext : ∀ ω : Fin (kPositions + 1) → Draw ℝ N,
        ¬ x ++ [t] <+: emitted dm_exp lat verify k ω := by
      intro ω hpre
      have hle := hpre.length_le
      have := hlong ω
      rw [List.length_append, List.length_singleton] at hle
      omega
    have hbehind : ∀ ω : Fin (kPositions + 1) → Draw ℝ N,
        ¬ x.length < (emitted dm_exp lat verify k ω).length := fun ω => not_lt.mpr (hlong ω)
    simp [hnext, hbehind]

/-- Lossless sampling: a round emits what it accepts and one token more, one at least, and each
    token behind those before it with the probability the target gives it there. -/
theorem sampling_lossless (h : lat.Distinct) (hdm : ∀ y, 0 ≤ dm_exp y)
    (hnorm : lat.Normalised dm_exp) (hv : Verifies dm_exp lat verify ν target)
    (hk : k ≤ kPositions) :
    (∀ ω, (emitted dm_exp lat verify k ω).length = (round dm_exp lat verify k ω).accepted + 1) ∧
      round_draws ν {ω | 0 < (emitted dm_exp lat verify k ω).length} = 1 ∧
      ∀ (x : List Int32) (t : Int32),
        round_draws ν {ω | x ++ [t] <+: emitted dm_exp lat verify k ω} =
          round_draws ν {ω | x <+: emitted dm_exp lat verify k ω ∧
            x.length < (emitted dm_exp lat verify k ω).length} * target x t := by
  have hlength : ∀ ω : Fin (kPositions + 1) → Draw ℝ N,
      (emitted dm_exp lat verify k ω).length = (round dm_exp lat verify k ω).accepted + 1 :=
    fun ω => (length_emitted h hk).1
  refine ⟨hlength, ?_, emits_next_law h hdm hnorm hv hk⟩
  simp only [hlength, Nat.succ_pos, Set.ofPred_true]
  show Measure.pi (fun _ => draw ν) Set.univ = 1
  exact measure_univ

end Law

/-! #### A coin -/

/-- One candidate at every position, the token 0. -/
def coin_lattice : Lattice ℝ where
  K := 1
  ids_ := List.replicate kPositions 0
  logq_ := List.replicate kPositions 0
  pos := Nat.one_pos
  le := by decide

/-- The tokens 0 and 1, whatever is behind them. -/
noncomputable def coin_target (_x : List Int32) : PMF Int32 :=
  (PMF.uniformOfFintype Bool).map fun b => if b then 1 else 0

noncomputable def coin_verify (_x : List Int32) (v : Bool) : VerifyRow ℝ where
  exact := {
    lse := 0
    cand_logit := [Real.log (1 / 2)]
    masked_token := 1
    full_token := if v then 1 else 0 }

theorem coin_token (i : Nat) : coin_lattice.token i 0 = 0 := by
  simp [Lattice.token, coin_lattice, List.getD, List.getElem?_replicate]
  split <;> rfl

theorem coin_logq (i p c : Nat) : coin_lattice.logq i p c = 0 := by
  simp [Lattice.logq, coin_lattice, List.getD, List.getElem?_replicate]
  split <;> rfl

theorem coin_target_apply (x : List Int32) (t : Int32) :
    coin_target x t = (if t = 1 then 2⁻¹ else 0) + if t = 0 then 2⁻¹ else 0 := by
  rw [coin_target, PMF.map_apply, tsum_fintype, Fintype.sum_bool]
  simp

/-- The masked sample is 1, the only token there is besides the candidate. -/
theorem coin_masked (x : List Int32) {l : List Int32} (hl : l = [0])
    (hex : ∃ t ∈ {t | t ∉ l}, t ∈ (coin_target x).support) (t : Int32) :
    (coin_target x).filter {t | t ∉ l} hex t = if t = 1 then 1 else 0 := by
  subst hl
  have hother : ∀ t, t ≠ 1 → (coin_target x).filter {t | t ∉ [(0 : Int32)]} hex t = 0 := by
    intro t ht
    rw [PMF.filter_apply_eq_zero_iff]
    by_cases h0 : t = 0
    · left
      simp [h0]
    · right
      rw [PMF.mem_support_iff, coin_target_apply, if_neg ht, if_neg h0]
      simp
  split
  next ht =>
    have hsum := ((coin_target x).filter {t | t ∉ [(0 : Int32)]} hex).tsum_coe
    rwa [tsum_eq_single 1 fun t ht => hother t ht, ← ht] at hsum
  next ht => exact hother t ht

theorem coin_verifies : Verifies Real.exp coin_lattice coin_verify
    (PMF.uniformOfFintype Bool).toMeasure coin_target := by
  have hcandidates : ∀ i, coin_lattice.candidates i = [0] := by
    intro i
    show [coin_lattice.token i 0] = [0]
    rw [coin_token]
  refine ⟨?_, ?_, ?_⟩
  · intro x v c _ hc
    obtain rfl : c = 0 := Nat.lt_one_iff.mp hc
    have hhalf : row_weight Real.exp coin_verify x v 0 = 1 / 2 := by
      show Real.exp (Real.log (1 / 2) - 0) = 1 / 2
      rw [sub_zero, Real.exp_log (by norm_num)]
    rw [hhalf, coin_token, coin_target_apply, if_neg (by decide), if_pos rfl, zero_add]
    simp
  · intro x _ hex t
    rw [coin_masked x (hcandidates _) hex]
    show (PMF.uniformOfFintype Bool).toMeasure {_v | (1 : Int32) = t} = _
    by_cases ht : t = 1
    · rw [if_pos ht, ← measure_univ (μ := (PMF.uniformOfFintype Bool).toMeasure)]
      congr
      exact Set.eq_univ_of_forall fun _ => ht.symm
    · simp [ht, Ne.symm ht]
  · intro x t _
    have htoken : ∀ v, (coin_verify x v).exact.full_token.toInt32 = if v then 1 else 0 := by
      intro v
      cases v with
      | true => rfl
      | false => rfl
    rw [coin_target_apply, PMF.toMeasure_apply_fintype, Fintype.sum_bool]
    simp only [Set.indicator_apply, Set.mem_ofPred_eq, htoken, if_true, Bool.false_eq_true,
      if_false, PMF.uniformOfFintype_apply, Fintype.card_bool, Nat.cast_ofNat]
    simp only [eq_comm]

theorem sampling_lossless_coin :
    round_draws (PMF.uniformOfFintype Bool).toMeasure
        {ω | 0 < (emitted Real.exp coin_lattice coin_verify 1 ω).length} = 1 ∧
      round_draws (PMF.uniformOfFintype Bool).toMeasure
          {ω | [1] <+: emitted Real.exp coin_lattice coin_verify 1 ω} = coin_target [] 1 := by
  have hdistinct : coin_lattice.Distinct := by
    intro i _ c hc c' hc' _
    exact (Nat.lt_one_iff.mp hc).trans (Nat.lt_one_iff.mp hc').symm
  have hnormalised : coin_lattice.Normalised Real.exp := by
    intro i _ p _
    show prefix_sum (fun c => Real.exp (coin_lattice.logq i p c)) 1 = 1
    simp [coin_logq, prefix_sum]
  have hlossless := sampling_lossless hdistinct Real.exp_nonneg hnormalised coin_verifies
    (show 1 ≤ kPositions by decide)
  obtain ⟨_, hsome, hlaw⟩ := hlossless
  refine ⟨hsome, (hlaw [] 1).trans ?_⟩
  -- every round emits a first token
  simp only [List.nil_prefix, List.length_nil, true_and, hsome, one_mul]

end CachedMoe.Runtime
