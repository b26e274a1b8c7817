import Mathlib.Data.List.Basic
import Mathlib.Logic.Function.Basic
import CachedMoe.Core.Types
import CachedMoe.Framework.Update

/-! # Speculative decoding

    `runtime/speculate.h`, `runtime/speculate.cpp` and the acceptance rules of
    `cpu/dspark_tree.cpp`: the draft–verify–accept cycle over a `SpecModel`, and that its
    greedy mode emits the stream of one-token-at-a-time argmax decoding.

    The lattice, the sampling rule and the floating-point scalars are parameters: greedy
    acceptance holds whatever they are. -/

namespace CachedMoe.Runtime

open CachedMoe

/-! ### Data -/

inductive SpecMode where
  | Off | Greedy | Sample
  deriving Repr, DecidableEq

inductive Objective where
  | Viterbi | Eal | Chain
  deriving Repr, DecidableEq

/-- `dspark_block_size`. -/
def kPositions : Nat := 5
def kDsVerifyMaxCand : Nat := 64

/-- A candidate index per draft position. -/
abbrev Path := Vector UInt32 kPositions

/-- `tokens` is `std::array<int32_t, kPositions + 1>`. -/
structure Accept where
  accepted : Nat := 0
  n_emitted : Nat := 0
  tokens : List Int32 := List.replicate (kPositions + 1) 0
  deriving Repr, DecidableEq

structure SpecConfig (D : Type) where
  mode : SpecMode := .Off
  /-- Draft positions to verify; 0 chooses per cycle from the confidence head. -/
  k : Nat := 0
  theta : D
  lattice_k : Nat := 16
  objective : Objective := .Eal
  seed : UInt64 := 0x5DEECE66D

structure SpecCycle where
  k : Nat := 0
  accepted : Nat := 0
  emitted : Nat := 0
  union_experts : Nat := 0
  miss_bytes : Nat := 0
  deriving Repr, DecidableEq

structure SpecStats where
  cycles : Nat := 0
  tokens : Nat := 0
  accepted : Nat := 0
  verified : Nat := 0
  union_experts : Nat := 0
  miss_bytes : Nat := 0
  deriving Repr, DecidableEq

def SpecStats.add (st : SpecStats) (c : SpecCycle) : SpecStats where
  cycles := st.cycles + 1
  tokens := st.tokens + c.emitted
  accepted := st.accepted + c.accepted
  verified := st.verified + c.k
  union_experts := st.union_experts + c.union_experts
  miss_bytes := st.miss_bytes + c.miss_bytes

/-- What the verify kernel writes for a row, as far as the sampling rule reads it. -/
structure DsparkVerifyRow (F : Type) where
  lse : F
  masked_token : UInt32 := 0
  full_token : UInt32 := 0
  cand_logit : List F := []

structure VerifyRow (F : Type) where
  argmax : UInt32 := 0
  exact : DsparkVerifyRow F

/-- The scalar operations of a cycle: `F` is `float`, `D` is `double`. -/
structure Scalars (F D : Type) where
  zero : F
  one : D
  mul : D → D → D
  lt : D → D → Bool
  sigmoid : F → D
  /-- `next_u`'s map of a mixed state to a uniform. -/
  uniform : UInt64 → D

/-- `cpu::dspark::Lattice`, as far as a cycle uses it, and the sampling rule over it. -/
structure LatticeOps (Lat F D : Type) where
  path : Lat → Objective → Path
  sample : Lat → List D → Path
  tokens : Lat → Path → Vector Int32 kPositions
  token : Lat → Nat → Nat → Int32
  accept_sampling_exact : Lat → Path → (k : Nat) → (cand_logit : List F) → (stride : Nat) →
    (lse : List F) → (masked full : List Int32) → (u_acc u_res : List D) → Accept

/-- The virtual methods of `SpecModel`, over the model's own state `S`. Row `j` of a verify
    is read for `j` below the number of tokens. -/
structure SpecModel (S Lat F : Type) where
  draft_forward : S → (p0 : Nat) → (last_token : UInt32) → (lattice_k : Nat) → Lat →
    Result Unit × Lat × Vector F kPositions × S
  verify_forward : S → (p0 : Nat) → (tokens : List UInt32) → (cand : List Int32) →
    (cand_stride : Nat) → (want_exact : Bool) → Result Unit × (Nat → VerifyRow F) × S
  snapshot_ring : S → (p0 m : Nat) → Result Unit × S
  restore_ring : S → (p0 accepted m : Nat) → Result Unit × S
  commit : S → (p0 : Nat) → (tokens : List UInt32) → Result Unit × S
  last_union_experts : S → Nat := fun _ => 0
  last_miss_bytes : S → Nat := fun _ => 0

/-- The members of `Speculator` a later cycle reads. -/
structure Speculator (Lat D : Type) where
  cfg : SpecConfig D
  stats : SpecStats := {}
  last_k : Nat := 0
  rng : UInt64 := 0
  lat : Lat

/-! ### Acceptance -/

/-- The loop of `accept_greedy` at index `a`. -/
def greedy_loop (path_tokens argmax : List Int32) (k a : Nat) (tokens : List Int32) : Accept :=
  if a < k ∧ path_tokens.getD a 0 = argmax.getD a 0 then
    greedy_loop path_tokens argmax k (a + 1) (tokens.set a (path_tokens.getD a 0))
  else
    { accepted := a, n_emitted := a + 1, tokens := tokens.set a (argmax.getD a 0) }
termination_by k - a

def accept_greedy (path_tokens argmax : List Int32) (k : Nat) : Accept :=
  greedy_loop path_tokens argmax k 0 (List.replicate (kPositions + 1) 0)

/-! ### The cycle -/

section Cycle

variable {S Lat F D : Type} (sc : Scalars F D) (ops : LatticeOps Lat F D)
  (model : SpecModel S Lat F)

/-- The loop of `k_from_confidence` at position `j`. -/
def confidence_loop (theta : D) : List F → (j : Nat) → (run : D) → (k : Nat) → Nat
  | [], _, _, k => k
  | c :: conf, j, run, k =>
    let run := sc.mul run (sc.sigmoid c)
    if sc.lt run theta then k else confidence_loop theta conf (j + 1) run (j + 1)

def k_from_confidence (conf : Vector F kPositions) (theta : D) : Nat :=
  confidence_loop sc theta conf.toList 0 sc.one 0

/-- Step 2 of the cycle: never verify nothing. -/
def choose_k (cfg : SpecConfig D) (conf : Vector F kPositions) : Nat :=
  let k := if cfg.k ≠ 0 then min cfg.k kPositions else k_from_confidence sc conf cfg.theta
  if k = 0 then 1 else k

/-- splitmix64: the state and the mixed word. -/
def next_u (rng : UInt64) : UInt64 × D :=
  let rng := rng + 0x9E3779B97F4A7C15
  let z := (rng ^^^ (rng >>> 30)) * 0xBF58476D1CE4E5B9
  let z := (z ^^^ (z >>> 27)) * 0x94D049BB133111EB
  let z := z ^^^ (z >>> 31)
  (rng, sc.uniform z)

/-- `n` draws in a row. -/
def draws : Nat → UInt64 → UInt64 × List D
  | 0, rng => (rng, [])
  | n + 1, rng =>
    let (rng, u) := next_u sc rng
    let (rng, us) := draws n rng
    (rng, u :: us)

/-- Step 3: the objective's path, or an ancestral sample. -/
def choose_path (sp : Speculator Lat D) : UInt64 × Path :=
  match sp.cfg.mode with
  | .Sample =>
    let (rng, u_path) := draws sc kPositions sp.rng
    (rng, ops.sample sp.lat u_path)
  | _ => (sp.rng, ops.path sp.lat sp.cfg.objective)

/-- Step 4: the last token and the first `k` of the path. -/
def verify_batch (last_token : UInt32) (path_tokens : Vector Int32 kPositions) (k : Nat) :
    List UInt32 :=
  last_token :: (path_tokens.toList.take k).map Int32.toUInt32

/-- The candidates of the rows, in sampling mode only: row `j` those of draft position `j`. -/
def candidates (sp : Speculator Lat D) (m : Nat) : List Int32 :=
  match sp.cfg.mode with
  | .Sample =>
    (List.range m).flatMap fun j => (List.range kDsVerifyMaxCand).map fun c2 =>
      if j < kPositions ∧ c2 < sp.cfg.lattice_k then ops.token sp.lat j c2 else -1
  | _ => []

/-- Step 5: greedy prefix match, or the sampling rule over the rows' exact records. -/
def accept_rows (sp : Speculator Lat D) (path : Path) (path_tokens : Vector Int32 kPositions)
    (k : Nat) (rows : Nat → VerifyRow F) : UInt64 × Accept :=
  let m := k + 1
  match sp.cfg.mode with
  | .Greedy =>
    let argmax := (List.range m).map fun j => (rows j).argmax.toInt32
    (sp.rng, accept_greedy (path_tokens.toList.take k) argmax k)
  | _ =>
    let cand_logit := (List.range kPositions).flatMap fun j =>
      (List.range kDsVerifyMaxCand).map fun c =>
        if j < m ∧ c < sp.cfg.lattice_k then (rows j).exact.cand_logit.getD c sc.zero else sc.zero
    let lse := (List.range m).map fun j => (rows j).exact.lse
    let masked := (List.range k).map fun j => (rows j).exact.masked_token.toInt32
    let full := (List.range m).map fun j => (rows j).exact.full_token.toInt32
    let (rng, u_acc) := draws sc kPositions sp.rng
    let (rng, u_res) := draws sc (kPositions + 1) rng
    (rng, ops.accept_sampling_exact sp.lat path k cand_logit kDsVerifyMaxCand lse masked full
      u_acc u_res)

/-- The rollback of step 6: only when a draft was rejected. -/
def roll_back (σ : S) (p0 accepted k : Nat) : Result Unit × S :=
  if accepted < k then model.restore_ring σ p0 accepted (k + 1) else (.ok (), σ)

/-- What a cycle takes and leaves: the speculator, the model's state and the stream. -/
structure SpecRun (S Lat D : Type) where
  sp : Speculator Lat D
  σ : S
  out : List UInt32

/-- Steps 5 and 6 of the cycle, once the verify has run. -/
def settle_cycle (st : SpecRun S Lat D) (p0 k : Nat) (path : Path)
    (path_tokens : Vector Int32 kPositions) (rows : Nat → VerifyRow F) :
    Result SpecCycle × SpecRun S Lat D :=
  let (rng, acc) := accept_rows sc ops st.sp path path_tokens k rows
  let sp := { st.sp with rng }
  let c : SpecCycle := {
    k := k
    accepted := acc.accepted
    emitted := acc.n_emitted
    union_experts := model.last_union_experts st.σ
    miss_bytes := model.last_miss_bytes st.σ }
  match roll_back model st.σ p0 acc.accepted k with
  | (.error e, σ) => (.error e, { st with sp, σ })
  | (.ok (), σ) =>
    let emitted := (acc.tokens.take acc.n_emitted).map Int32.toUInt32
    match model.commit σ p0 emitted with
    | (.error e, σ) => (.error e, { st with sp, σ })
    | (.ok (), σ) =>
      (.ok c, { sp := { sp with stats := sp.stats.add c }, σ, out := st.out ++ emitted })

/-- Steps 3 and 4: the path, the ring snapshot and the verify forward. -/
def verify_cycle (st : SpecRun S Lat D) (p0 : Nat) (last_token : UInt32) (k : Nat) :
    Result SpecCycle × SpecRun S Lat D :=
  let (rng, path) := choose_path sc ops st.sp
  let sp := { st.sp with rng }
  let path_tokens := ops.tokens sp.lat path
  let m := k + 1
  match model.snapshot_ring st.σ p0 m with
  | (.error e, σ) => (.error e, { st with sp, σ })
  | (.ok (), σ) =>
    match model.verify_forward σ p0 (verify_batch last_token path_tokens k)
        (candidates ops sp m) kDsVerifyMaxCand (sp.cfg.mode == .Sample) with
    | (.error e, _, σ) => (.error e, { st with sp, σ })
    | (.ok (), rows, σ) => settle_cycle sc ops model { st with sp, σ } p0 k path path_tokens rows

/-- `Speculator::cycle`. -/
def cycle (st : SpecRun S Lat D) (p0 : Nat) (last_token : UInt32) :
    Result SpecCycle × SpecRun S Lat D :=
  if st.sp.cfg.mode = .Off then
    (fail .FailedPrecondition "Speculator::cycle with --spec off", st)
  else if st.sp.cfg.lattice_k = 0 ∨ st.sp.cfg.lattice_k > kDsVerifyMaxCand then
    (fail .InvalidArgument
      s!"lattice K must be 1..{kDsVerifyMaxCand}, not {st.sp.cfg.lattice_k}", st)
  else
    let sp := if st.sp.rng = 0 then { st.sp with rng := st.sp.cfg.seed } else st.sp
    match model.draft_forward st.σ p0 last_token sp.cfg.lattice_k sp.lat with
    | (.error e, lat, _, σ) => (.error e, { st with sp := { sp with lat }, σ })
    | (.ok (), lat, conf, σ) =>
      let k := choose_k sc sp.cfg conf
      verify_cycle sc ops model { st with sp := { sp with lat, last_k := k }, σ } p0 last_token k

/-- `n` cycles in a row, each at the position and the token the one before ended with. -/
@[grind =] def run_cycles : Nat → SpecRun S Lat D → (p0 : Nat) → (last_token : UInt32) →
    Result (List SpecCycle) × SpecRun S Lat D
  | 0, st, _, _ => (.ok [], st)
  | n + 1, st, p0, last_token =>
    match cycle sc ops model st p0 last_token with
    | (.error e, st) => (.error e, st)
    | (.ok c, st) =>
      match run_cycles n st (p0 + c.emitted) (st.out.getLastD last_token) with
      | (.error e, st) => (.error e, st)
      | (.ok cs, st) => (.ok (c :: cs), st)

end Cycle

/-! ### Plain decoding -/

/-- The next `n` tokens of one-token-at-a-time argmax decoding after `history`. -/
@[grind =] def plain_decode (next : List UInt32 → UInt32) : Nat → List UInt32 → List UInt32
  | 0, _ => []
  | n + 1, history => next history :: plain_decode next n (history ++ [next history])

section Plain

variable {next : List UInt32 → UInt32}

@[simp] theorem length_plain_decode (n : Nat) (history : List UInt32) :
    (plain_decode next n history).length = n := by
  induction n generalizing history with
  | zero => rfl
  | succ n ih => simp [plain_decode, ih]

theorem plain_decode_add (m n : Nat) (history : List UInt32) :
    plain_decode next (m + n) history =
      plain_decode next m history ++
        plain_decode next n (history ++ plain_decode next m history) := by
  induction m generalizing history with
  | zero => simp [plain_decode]
  | succ m ih =>
    rw [Nat.succ_add]
    simp only [plain_decode, List.cons_append, ih]
    simp

theorem plain_decode_succ (n : Nat) (history : List UInt32) :
    plain_decode next (n + 1) history =
      plain_decode next n history ++ [next (history ++ plain_decode next n history)] :=
  plain_decode_add n 1 history

theorem getElem?_plain_decode {n i : Nat} (hi : i < n) (history : List UInt32) :
    (plain_decode next n history)[i]? = some (next (history ++ plain_decode next i history)) := by
  obtain ⟨d, rfl⟩ : ∃ d, n = i + (d + 1) := ⟨n - i - 1, by omega⟩
  rw [plain_decode_add, List.getElem?_append_right (by simp)]
  simp [plain_decode]

end Plain

/-! ### Greedy acceptance -/

/-- The result of the greedy loop: `accepted` counts matching drafts, the next one does not
    match, and the tokens written are the rows' own answers. -/
structure GreedyFrom (path_tokens argmax tokens : List Int32) (k a : Nat) (r : Accept) : Prop where
  lower : a ≤ r.accepted
  upper : r.accepted ≤ k
  emitted : r.n_emitted = r.accepted + 1
  matched : ∀ i, a ≤ i → i < r.accepted → path_tokens.getD i 0 = argmax.getD i 0
  written : ∀ i, a ≤ i → i ≤ r.accepted → r.tokens[i]? = some (argmax.getD i 0)
  earlier : ∀ i, i < a → r.tokens[i]? = tokens[i]?

theorem greedy_loop_spec {path_tokens argmax : List Int32} {k a : Nat} {tokens : List Int32}
    (ha : a ≤ k) (hk : k < tokens.length) :
    GreedyFrom path_tokens argmax tokens k a (greedy_loop path_tokens argmax k a tokens) := by
  fun_induction greedy_loop path_tokens argmax k a tokens with
  | case1 a tokens hmatch ih =>
    have hi := ih (by omega) (by simpa using hk)
    refine ⟨by have := hi.lower; omega, hi.upper, hi.emitted, ?_, ?_, ?_⟩
    · intro i hai hi'
      by_cases heq : i = a
      · rw [heq]
        exact hmatch.2
      · exact hi.matched i (by omega) hi'
    · intro i hai hi'
      by_cases heq : i = a
      · -- the slot written in this iteration, which no later one touches
        have hset := hi.earlier a (by omega)
        rw [List.getElem?_set_self (by omega)] at hset
        rw [heq, hset, hmatch.2]
      · exact hi.written i (by omega) hi'
    · intro i hia
      rw [hi.earlier i (by omega), List.getElem?_set_ne (by omega)]
  | case2 a tokens hmatch =>
    refine ⟨Nat.le_refl a, ha, rfl, ?_, ?_, ?_⟩
    · intro i hai hi'
      exact absurd hi' (by show ¬ i < a; omega)
    · intro i hai hi'
      have heq : i = a := Nat.le_antisymm hi' hai
      show (tokens.set a _)[i]? = _
      rw [heq, List.getElem?_set_self (by omega)]
    · intro i hia
      show (tokens.set a _)[i]? = _
      rw [List.getElem?_set_ne (by omega)]

theorem accept_greedy_spec (path_tokens argmax : List Int32) {k : Nat} (hk : k ≤ kPositions) :
    GreedyFrom path_tokens argmax (List.replicate (kPositions + 1) 0) k 0
      (accept_greedy path_tokens argmax k) :=
  greedy_loop_spec (Nat.zero_le k) (by simpa using Nat.lt_succ_of_le hk)

section Emit

variable {next : List UInt32 → UInt32} {pre : List UInt32} {last : UInt32} {k : Nat}
  {drafts : List UInt32} {argmax : Nat → UInt32}

/-- As long as every draft is the answer of its row, the drafts are the plain decode. -/
theorem matched_drafts_plain {a : Nat} (hlen : a ≤ drafts.length)
    (hrow : ∀ j, j < a → argmax j = next (pre ++ (last :: drafts).take (j + 1)))
    (hmatch : ∀ j, j < a → drafts[j]? = some (argmax j)) :
    drafts.take a = plain_decode next a (pre ++ [last]) := by
  induction a with
  | zero => rfl
  | succ a ih =>
    have htake := ih (by omega) (fun j hj => hrow j (by omega)) (fun j hj => hmatch j (by omega))
    have hanswer := hrow a (by omega)
    rw [List.take_succ_cons, htake] at hanswer
    rw [List.take_add_one, hmatch a (by omega), htake, plain_decode_succ, hanswer]
    simp

/-- What greedy acceptance emits is the plain decode of the history, whatever the drafts. -/
theorem accept_greedy_plain (hk : k ≤ kPositions) (hlen : drafts.length = k)
    (hrow : ∀ j, j ≤ k → argmax j = next (pre ++ (last :: drafts).take (j + 1))) :
    let acc := accept_greedy (drafts.map UInt32.toInt32)
      ((List.range (k + 1)).map fun j => (argmax j).toInt32) k
    (acc.tokens.take acc.n_emitted).map Int32.toUInt32 =
      plain_decode next (acc.accepted + 1) (pre ++ [last]) := by
  intro acc
  have hacc := accept_greedy_spec (drafts.map UInt32.toInt32)
    ((List.range (k + 1)).map fun j => (argmax j).toInt32) hk
  change GreedyFrom _ _ _ _ _ acc at hacc
  have hupper := hacc.upper
  have hargmax : ∀ j, j ≤ k →
      ((List.range (k + 1)).map fun j => (argmax j).toInt32).getD j 0 = (argmax j).toInt32 := by
    intro j hj
    have hj' : j < k + 1 := by omega
    simp [List.getD, hj']
  have hmatch : ∀ j, j < acc.accepted → drafts[j]? = some (argmax j) := by
    intro j hj
    have hj' : j < drafts.length := by omega
    have h := hacc.matched j (Nat.zero_le j) hj
    rw [hargmax j (by omega)] at h
    simp only [List.getD, List.getElem?_map, List.getElem?_eq_getElem hj', Option.map_some,
      Option.getD_some] at h
    have hbits : drafts[j] = argmax j := congrArg Int32.toUInt32 h
    rw [List.getElem?_eq_getElem hj', hbits]
  -- as long as the drafts match, the rows are those of plain decoding
  have hplain : ∀ j, j ≤ acc.accepted →
      argmax j = next (pre ++ [last] ++ plain_decode next j (pre ++ [last])) := by
    intro j hj
    rw [hrow j (by omega), List.take_succ_cons,
      matched_drafts_plain (by omega) (fun i hi => hrow i (by omega))
        fun i hi => hmatch i (by omega)]
    simp
  apply List.ext_getElem?
  intro i
  rw [List.getElem?_map, List.getElem?_take, hacc.emitted]
  by_cases hi : i < acc.accepted + 1
  · rw [if_pos hi, getElem?_plain_decode hi, ← hplain i (by omega),
      hacc.written i (Nat.zero_le i) (by omega), hargmax i (by omega)]
    rfl
  · rw [if_neg hi, List.getElem?_eq_none (by simpa using hi)]
    rfl

end Emit

/-! ### What a cycle may rely on -/

/-- `s` is the ring slot of one of the positions `p0 + lo .. p0 + hi - 1`. -/
def InSlots (window p0 lo hi s : Nat) : Prop := ∃ i, lo ≤ i ∧ i < hi ∧ (p0 + i) % window = s

/-- The documented behaviour of a `SpecModel` whose calls succeed, for a causal target: row
    `j` of a verify answers with `next` of the history below `p0` and the first `j + 1` fed
    tokens. `saved` is the ring snapshot, by batch row. -/
structure SpecModel.Contract {S Lat F : Type} (model : SpecModel S Lat F) (Row : Type)
    (window : Nat) (next : List UInt32 → UInt32) where
  history : S → List UInt32
  ring : S → Nat → Row
  saved : S → Nat → Row
  draft_keeps : ∀ {σ p0 last_token lattice_k lat lat' conf σ'},
    model.draft_forward σ p0 last_token lattice_k lat = (.ok (), lat', conf, σ') →
    history σ' = history σ ∧ ring σ' = ring σ
  snapshot_saves : ∀ {σ p0 m σ'}, model.snapshot_ring σ p0 m = (.ok (), σ') →
    history σ' = history σ ∧ ring σ' = ring σ ∧
    ∀ j, j < m → saved σ' j = ring σ ((p0 + j) % window)
  verify_answers : ∀ {σ p0 tokens cand stride exact rows σ'},
    model.verify_forward σ p0 tokens cand stride exact = (.ok (), rows, σ') →
    history σ' = history σ ∧ saved σ' = saved σ ∧
    (∀ j, (history σ).length = p0 + 1 → j < tokens.length →
      (rows j).argmax = next ((history σ).take p0 ++ tokens.take (j + 1))) ∧
    ∀ s, ¬ InSlots window p0 0 tokens.length s → ring σ' s = ring σ s
  restore_undoes : ∀ {σ p0 accepted m σ'} {contents : Nat → Row},
    model.restore_ring σ p0 accepted m = (.ok (), σ') →
    (∀ j, j < m → saved σ j = contents ((p0 + j) % window)) →
    history σ' = history σ ∧
    (∀ s, InSlots window p0 (accepted + 1) m s → ring σ' s = contents s) ∧
    ∀ s, ¬ InSlots window p0 (accepted + 1) m s → ring σ' s = ring σ s
  commit_appends : ∀ {σ p0 tokens σ'}, model.commit σ p0 tokens = (.ok (), σ') →
    history σ' = (history σ).take (p0 + 1) ++ tokens ∧ ring σ' = ring σ

/-- No call of the model fails; a restore, after the snapshot and the verify it undoes. -/
structure SpecModel.Succeeds {S Lat F : Type} (model : SpecModel S Lat F) : Prop where
  draft : ∀ σ p0 last_token lattice_k lat,
    (model.draft_forward σ p0 last_token lattice_k lat).1 = .ok ()
  snapshot : ∀ σ p0 m, (model.snapshot_ring σ p0 m).1 = .ok ()
  verify : ∀ σ p0 tokens cand stride exact,
    (model.verify_forward σ p0 tokens cand stride exact).1 = .ok ()
  restore : ∀ {σ p0 m σ₁ tokens cand stride exact rows σ₂} (accepted : Nat),
    model.snapshot_ring σ p0 m = (.ok (), σ₁) →
    model.verify_forward σ₁ p0 tokens cand stride exact = (.ok (), rows, σ₂) →
    (model.restore_ring σ₂ p0 accepted m).1 = .ok ()
  commit : ∀ σ p0 tokens, (model.commit σ p0 tokens).1 = .ok ()

/-! ### One cycle -/

section OneCycle

variable {S Lat F D Row : Type} {sc : Scalars F D} {ops : LatticeOps Lat F D}
  {model : SpecModel S Lat F} {window : Nat} {next : List UInt32 → UInt32}

theorem confidence_loop_le (sc : Scalars F D) (theta : D) (conf : List F) (j : Nat) (run : D)
    (k : Nat) (hk : k ≤ j) : confidence_loop sc theta conf j run k ≤ j + conf.length := by
  induction conf generalizing j run k with
  | nil => simpa [confidence_loop] using hk
  | cons c conf ih =>
    unfold confidence_loop
    dsimp only
    split
    · exact Nat.le_add_right_of_le hk
    · have := ih (j + 1) (sc.mul run (sc.sigmoid c)) (j + 1) (Nat.le_refl _)
      simp only [List.length_cons]
      omega

theorem choose_k_bounds (sc : Scalars F D) (cfg : SpecConfig D) (conf : Vector F kPositions) :
    1 ≤ choose_k sc cfg conf ∧ choose_k sc cfg conf ≤ kPositions := by
  have hconf : k_from_confidence sc conf cfg.theta ≤ kPositions := by
    have := confidence_loop_le sc cfg.theta conf.toList 0 sc.one 0 (Nat.le_refl 0)
    simpa [k_from_confidence] using this
  have hpos : 1 ≤ kPositions := by decide
  unfold choose_k
  dsimp only
  split <;> split <;> omega

/-- The calls of a successful cycle in greedy mode once the draft is there: a snapshot of
    the `k + 1` slots, the verify over the last token and the drafts, the rollback and the
    commit of what greedy acceptance emits. -/
def GreedyCalls (model : SpecModel S Lat F) (σ σ' : S) (p0 : Nat) (last_token : UInt32)
    (c : SpecCycle) (emitted : List UInt32) : Prop :=
  ∃ σ₁ drafts rows σ₂ σ₃, drafts.length = c.k ∧
    model.snapshot_ring σ p0 (c.k + 1) = (.ok (), σ₁) ∧
    model.verify_forward σ₁ p0 (last_token :: drafts) [] kDsVerifyMaxCand false =
      (.ok (), rows, σ₂) ∧
    (let acc := accept_greedy (drafts.map UInt32.toInt32)
      ((List.range (c.k + 1)).map fun j => (rows j).argmax.toInt32) c.k
     c.accepted = acc.accepted ∧ c.emitted = acc.n_emitted ∧
     emitted = (acc.tokens.take acc.n_emitted).map Int32.toUInt32) ∧
    roll_back model σ₂ p0 c.accepted c.k = (.ok (), σ₃) ∧
    model.commit σ₃ p0 emitted = (.ok (), σ')

theorem settle_cycle_ok {st st' : SpecRun S Lat D} {p0 k : Nat} {path : Path}
    {path_tokens : Vector Int32 kPositions} {rows : Nat → VerifyRow F} {c : SpecCycle}
    (hmode : st.sp.cfg.mode = .Greedy)
    (h : settle_cycle sc ops model st p0 k path path_tokens rows = (.ok c, st')) :
    let acc := accept_greedy (path_tokens.toList.take k)
      ((List.range (k + 1)).map fun j => (rows j).argmax.toInt32) k
    let emitted := (acc.tokens.take acc.n_emitted).map Int32.toUInt32
    c.k = k ∧ c.accepted = acc.accepted ∧ c.emitted = acc.n_emitted ∧
      st'.sp.cfg = st.sp.cfg ∧ st'.out = st.out ++ emitted ∧
      ∃ σ, roll_back model st.σ p0 acc.accepted k = (.ok (), σ) ∧
        model.commit σ p0 emitted = (.ok (), st'.σ) := by
  intro acc emitted
  have haccept : accept_rows sc ops st.sp path path_tokens k rows = (st.sp.rng, acc) := by
    rw [accept_rows, hmode]
  rw [settle_cycle, haccept] at h
  dsimp only at h
  split at h
  · cases h
  next σ hroll =>
  split at h
  · cases h
  next σ' hcommit =>
  cases h
  exact ⟨rfl, rfl, rfl, rfl, rfl, σ, hroll, hcommit⟩

theorem verify_cycle_ok {st st' : SpecRun S Lat D} {p0 k : Nat} {last_token : UInt32}
    {c : SpecCycle} (hmode : st.sp.cfg.mode = .Greedy) (hk : k ≤ kPositions)
    (h : verify_cycle sc ops model st p0 last_token k = (.ok c, st')) :
    c.k = k ∧ st'.sp.cfg = st.sp.cfg ∧
      ∃ emitted, st'.out = st.out ++ emitted ∧
        GreedyCalls model st.σ st'.σ p0 last_token c emitted := by
  have hpath : choose_path sc ops st.sp = (st.sp.rng, ops.path st.sp.lat st.sp.cfg.objective) := by
    rw [choose_path, hmode]
  have hcand : ∀ m, candidates ops { st.sp with rng := st.sp.rng } m = [] := by
    intro m
    rw [candidates, hmode]
  rw [verify_cycle, hpath] at h
  dsimp only at h
  split at h
  · cases h
  next σ₁ hsnap =>
  rw [hcand, hmode] at h
  split at h
  · cases h
  next rows σ₂ hverify =>
  obtain ⟨hck, hacc, hemit, hcfg, hout, σ₃, hroll, hcommit⟩ := settle_cycle_ok (by exact hmode) h
  subst hck
  generalize ops.tokens st.sp.lat (ops.path st.sp.lat st.sp.cfg.objective) = path_tokens at *
  have hdrafts : ((path_tokens.toList.take c.k).map Int32.toUInt32).map UInt32.toInt32 =
      path_tokens.toList.take c.k := by
    rw [List.map_map]
    exact List.map_id _
  refine ⟨rfl, hcfg, _, hout, σ₁, (path_tokens.toList.take c.k).map Int32.toUInt32, rows, σ₂, σ₃,
    ?_, hsnap, hverify, ?_, hacc ▸ hroll, hcommit⟩
  · simpa using Nat.min_eq_left hk
  · rw [hdrafts]
    exact ⟨hacc, hemit, rfl⟩

theorem cycle_ok {st st' : SpecRun S Lat D} {p0 : Nat} {last_token : UInt32} {c : SpecCycle}
    (hmode : st.sp.cfg.mode = .Greedy)
    (h : cycle sc ops model st p0 last_token = (.ok c, st')) :
    1 ≤ c.k ∧ c.k ≤ kPositions ∧ st'.sp.cfg = st.sp.cfg ∧
      ∃ lat conf σ₀ emitted,
        model.draft_forward st.σ p0 last_token st.sp.cfg.lattice_k st.sp.lat =
          (.ok (), lat, conf, σ₀) ∧
        st'.out = st.out ++ emitted ∧ GreedyCalls model σ₀ st'.σ p0 last_token c emitted := by
  rw [cycle, if_neg (by simp [hmode])] at h
  split at h
  · cases h
  -- seeding the generator changes neither the configuration nor the lattice
  have hseed : ∀ sp, sp = (if st.sp.rng = 0 then { st.sp with rng := st.sp.cfg.seed } else st.sp) →
      sp.cfg = st.sp.cfg ∧ sp.lat = st.sp.lat := by
    intro sp hsp
    subst hsp
    split <;> exact ⟨rfl, rfl⟩
  generalize (if st.sp.rng = 0 then { st.sp with rng := st.sp.cfg.seed } else st.sp) = sp at h hseed
  obtain ⟨hcfg, hlat⟩ := hseed sp rfl
  dsimp only at h
  split at h
  · cases h
  next lat conf σ₀ hdraft =>
  have hbounds := choose_k_bounds sc sp.cfg conf
  obtain ⟨hk, hcfg', emitted, hout, hcalls⟩ := verify_cycle_ok (by rw [← hmode, ← hcfg]) hbounds.2 h
  rw [hcfg, hlat] at hdraft
  exact ⟨hk ▸ hbounds.1, hk ▸ hbounds.2, hcfg'.trans hcfg, lat, conf, σ₀, emitted, hdraft, hout,
    hcalls⟩

/-- The history ends with the token at `p0`: what a cycle starts from. -/
structure AtPosition (history : List UInt32) (p0 : Nat) (last_token : UInt32) : Prop where
  length : history.length = p0 + 1
  last : history.getLast? = some last_token

theorem AtPosition.split {history : List UInt32} {p0 : Nat} {last_token : UInt32}
    (h : AtPosition history p0 last_token) : history = history.take p0 ++ [last_token] := by
  obtain ⟨pre, hpre⟩ := List.getLast?_eq_some_iff.mp h.last
  have hlen := h.length
  rw [hpre] at hlen ⊢
  have : pre.length = p0 := by simpa using hlen
  simp [← this]

/-- What a successful cycle does, `σ` and `σ'` the model's states around it: `accepted`
    drafts of `k`, the plain decode of `accepted + 1` tokens emitted and committed, and of the
    ring slots the verify wrote those of the rejected positions as they were before. -/
structure CycleSpec (C : model.Contract Row window next) (σ σ' : S) (p0 : Nat)
    (last_token : UInt32) (c : SpecCycle) (emitted : List UInt32) : Prop where
  k_pos : 1 ≤ c.k
  k_le : c.k ≤ kPositions
  accepted_le : c.accepted ≤ c.k
  emitted_eq : c.emitted = c.accepted + 1
  stream : emitted = plain_decode next (c.accepted + 1) (C.history σ)
  committed : C.history σ' = C.history σ ++ emitted
  rejected : ∀ s, InSlots window p0 (c.accepted + 1) (c.k + 1) s → C.ring σ' s = C.ring σ s
  accepted : ∃ σs rows σv drafts, drafts.length = c.k ∧ C.ring σs = C.ring σ ∧
    model.verify_forward σs p0 (last_token :: drafts) [] kDsVerifyMaxCand false =
      (.ok (), rows, σv) ∧
    ∀ s, ¬ InSlots window p0 (c.accepted + 1) (c.k + 1) s → C.ring σ' s = C.ring σv s
  untouched : ∀ s, ¬ InSlots window p0 0 (c.accepted + 1) s → C.ring σ' s = C.ring σ s

/-- The rollback as the contract has it: the slots of the rejected rows hold what was
    snapshotted, the others are left. -/
theorem roll_back_ring (C : model.Contract Row window next) {σ σ' : S} {p0 a k : Nat}
    {contents : Nat → Row} (ha : a ≤ k) (h : roll_back model σ p0 a k = (.ok (), σ'))
    (hsaved : ∀ j, j < k + 1 → C.saved σ j = contents ((p0 + j) % window)) :
    C.history σ' = C.history σ ∧
    (∀ s, InSlots window p0 (a + 1) (k + 1) s → C.ring σ' s = contents s) ∧
    ∀ s, ¬ InSlots window p0 (a + 1) (k + 1) s → C.ring σ' s = C.ring σ s := by
  unfold roll_back at h
  split at h
  · exact C.restore_undoes h hsaved
  · -- nothing was rejected, so there is no slot to undo
    cases h
    refine ⟨rfl, ?_, fun s _ => rfl⟩
    rintro s ⟨i, hlo, hhi, _⟩
    omega

/-- One cycle emits what plain decoding would. -/
theorem cycle_spec (C : model.Contract Row window next) {st st' : SpecRun S Lat D} {p0 : Nat}
    {last_token : UInt32} {c : SpecCycle} (hmode : st.sp.cfg.mode = .Greedy)
    (hat : AtPosition (C.history st.σ) p0 last_token)
    (h : cycle sc ops model st p0 last_token = (.ok c, st')) :
    st'.sp.cfg = st.sp.cfg ∧
    ∃ emitted, st'.out = st.out ++ emitted ∧ CycleSpec C st.σ st'.σ p0 last_token c emitted := by
  obtain ⟨hk1, hk5, hcfg, lat, conf, σ₀, emitted, hdraft, hout, hcalls⟩ := cycle_ok hmode h
  obtain ⟨σ₁, drafts, rows, σ₂, σ₃, hlen, hsnap, hverify, hacc, hroll, hcommit⟩ := hcalls
  obtain ⟨hhist₀, hring₀⟩ := C.draft_keeps hdraft
  obtain ⟨hhist₁, hring₁, hsaved₁⟩ := C.snapshot_saves hsnap
  obtain ⟨hhist₂, hsaved₂, hrows, hring₂⟩ := C.verify_answers hverify
  -- row `j` answers for the history and the drafts before it
  have hrow : ∀ j, j ≤ c.k → (rows j).argmax =
      next ((C.history st.σ).take p0 ++ (last_token :: drafts).take (j + 1)) := by
    intro j hj
    rw [hrows j (by rw [hhist₁, hhist₀, hat.length]) (by simp [hlen]; omega), hhist₁, hhist₀]
  have hplain := accept_greedy_plain hk5 hlen hrow
  have hgreedy := accept_greedy_spec (drafts.map UInt32.toInt32)
    ((List.range (c.k + 1)).map fun j => (rows j).argmax.toInt32) hk5
  dsimp only at hacc hplain
  generalize accept_greedy (drafts.map UInt32.toInt32)
    ((List.range (c.k + 1)).map fun j => (rows j).argmax.toInt32) c.k = acc at *
  obtain ⟨hca, hce, hem⟩ := hacc
  have hle : c.accepted ≤ c.k := hca ▸ hgreedy.upper
  have hsaved : ∀ j, j < c.k + 1 → C.saved σ₂ j = C.ring st.σ ((p0 + j) % window) := by
    intro j hj
    rw [hsaved₂, hsaved₁ j hj, hring₀]
  obtain ⟨hhist₃, hrejected, hkept⟩ := roll_back_ring C hle hroll hsaved
  obtain ⟨hhist₄, hring₄⟩ := C.commit_appends hcommit
  have hhist : C.history σ₃ = C.history st.σ := by rw [hhist₃, hhist₂, hhist₁, hhist₀]
  have hslots : ∀ s, ¬ InSlots window p0 0 (c.k + 1) s → C.ring σ₂ s = C.ring st.σ s := by
    intro s hs
    rw [hring₂ s (by simpa [hlen] using hs), hring₁, hring₀]
  refine ⟨hcfg, emitted, hout, hk1, hk5, hle, ?_, ?_, ?_, ?_, ?_, ?_⟩
  · rw [hce, hgreedy.emitted, hca]
  · rw [hem, hplain, hca, ← hat.split]
  · rw [hhist₄, hhist, List.take_of_length_le (Nat.le_of_eq hat.length)]
  · intro s hs
    rw [hring₄, hrejected s hs]
  · refine ⟨σ₁, rows, σ₂, drafts, hlen, by rw [hring₁, hring₀], hverify, ?_⟩
    intro s hs
    rw [hring₄, hkept s hs]
  · intro s hs
    rw [hring₄]
    by_cases hrej : InSlots window p0 (c.accepted + 1) (c.k + 1) s
    · exact hrejected s hrej
    · rw [hkept s hrej]
      apply hslots
      rintro ⟨i, _, hi, hslot⟩
      by_cases hia : i < c.accepted + 1
      · exact hs ⟨i, Nat.zero_le i, hia, hslot⟩
      · exact hrej ⟨i, by omega, hi, hslot⟩

section Next

variable {C : model.Contract Row window next} {σ σ' : S} {p0 : Nat} {last_token : UInt32}
  {c : SpecCycle} {emitted : List UInt32}

theorem CycleSpec.length_emitted (h : CycleSpec C σ σ' p0 last_token c emitted) :
    emitted.length = c.emitted := by
  rw [h.stream, h.emitted_eq, length_plain_decode]

theorem CycleSpec.ne_nil (h : CycleSpec C σ σ' p0 last_token c emitted) : emitted ≠ [] := by
  intro hnil
  have hlen := h.length_emitted
  rw [hnil, h.emitted_eq] at hlen
  simp at hlen

theorem CycleSpec.getLastD_append (h : CycleSpec C σ σ' p0 last_token c emitted)
    (out : List UInt32) : (out ++ emitted).getLastD last_token = emitted.getLastD last_token := by
  rw [List.getLastD_eq_getLast?, List.getLast?_append_of_ne_nil _ h.ne_nil,
    ← List.getLastD_eq_getLast?]

/-- Where the next cycle starts: after the committed tokens, at the last of them. -/
theorem CycleSpec.at_next (h : CycleSpec C σ σ' p0 last_token c emitted)
    (hat : AtPosition (C.history σ) p0 last_token) :
    AtPosition (C.history σ') (p0 + c.emitted) (emitted.getLastD last_token) := by
  refine ⟨?_, ?_⟩
  · rw [h.committed, List.length_append, hat.length, h.length_emitted]
    omega
  · rw [h.committed, List.getLast?_append_of_ne_nil _ h.ne_nil, List.getLastD_eq_getLast?,
      List.getLast?_eq_getLast_of_ne_nil h.ne_nil]
    rfl

end Next

theorem roll_back_succeeds {σ : S} {p0 a k : Nat}
    (h : (model.restore_ring σ p0 a (k + 1)).1 = .ok ()) :
    (roll_back model σ p0 a k).1 = .ok () := by
  unfold roll_back
  split
  · exact h
  · rfl

theorem ne_error_of_ok {α : Type} {r : Result Unit × α} {e : Status} {x : α}
    (h : r.1 = .ok ()) : r ≠ (.error e, x) := by
  intro heq
  rw [heq] at h
  cases h

/-- A cycle of a model whose calls succeed succeeds. -/
theorem cycle_succeeds (sc : Scalars F D) (ops : LatticeOps Lat F D) (hok : model.Succeeds)
    {st : SpecRun S Lat D} (p0 : Nat) (last_token : UInt32) (hmode : st.sp.cfg.mode ≠ .Off)
    (hlattice : 1 ≤ st.sp.cfg.lattice_k ∧ st.sp.cfg.lattice_k ≤ kDsVerifyMaxCand) :
    ∃ c st', cycle sc ops model st p0 last_token = (.ok c, st') := by
  rw [cycle, if_neg hmode, if_neg (by omega)]
  dsimp only
  split
  next hdraft => exact absurd hdraft (ne_error_of_ok (hok.draft _ _ _ _ _))
  next lat conf σ₀ hdraft =>
  rw [verify_cycle]
  dsimp only
  split
  next hsnap => exact absurd hsnap (ne_error_of_ok (hok.snapshot _ _ _))
  next σ₁ hsnap =>
  split
  next hverify => exact absurd hverify (ne_error_of_ok (hok.verify _ _ _ _ _ _))
  next rows σ₂ hverify =>
  rw [settle_cycle]
  dsimp only
  split
  next hroll => exact absurd hroll (ne_error_of_ok (roll_back_succeeds
      (hok.restore _ hsnap hverify)))
  next σ₃ hroll =>
  split
  next hcommit => exact absurd hcommit (ne_error_of_ok (hok.commit _ _ _))
  next σ₄ hcommit => exact ⟨_, _, rfl⟩

end OneCycle

/-! ### Whole decodes -/

section Decode

variable {S Lat F D Row : Type} {sc : Scalars F D} {ops : LatticeOps Lat F D}
  {model : SpecModel S Lat F} {window : Nat} {next : List UInt32 → UInt32}

/-- How many tokens a list of cycles emitted. -/
def emitted_total (cs : List SpecCycle) : Nat := (cs.map (·.emitted)).sum

/-- Cycle after cycle: each does what `CycleSpec` says, at the position and the token the one
    before it ended with. -/
inductive CycleChain (C : model.Contract Row window next) :
    S → Nat → UInt32 → List SpecCycle → S → Prop where
  | nil {σ p0 last_token} : CycleChain C σ p0 last_token [] σ
  | cons {σ σ' σ'' p0 last_token c cs emitted} :
      CycleSpec C σ σ' p0 last_token c emitted →
      CycleChain C σ' (p0 + c.accepted + 1) (emitted.getLastD last_token) cs σ'' →
      CycleChain C σ p0 last_token (c :: cs) σ''

theorem run_cycles_plain (C : model.Contract Row window next) {n : Nat}
    {st st' : SpecRun S Lat D} {p0 : Nat} {last_token : UInt32} {cs : List SpecCycle}
    (hmode : st.sp.cfg.mode = .Greedy) (hat : AtPosition (C.history st.σ) p0 last_token)
    (h : run_cycles sc ops model n st p0 last_token = (.ok cs, st')) :
    n ≤ emitted_total cs ∧
    st'.out = st.out ++ plain_decode next (emitted_total cs) (C.history st.σ) ∧
    C.history st'.σ = C.history st.σ ++ plain_decode next (emitted_total cs) (C.history st.σ) ∧
    CycleChain C st.σ p0 last_token cs st'.σ := by
  induction n generalizing st p0 last_token cs with
  | zero =>
    cases h
    simp [emitted_total, plain_decode, CycleChain.nil]
  | succ n ih =>
    rw [run_cycles] at h
    split at h
    · cases h
    next c st₁ hcycle =>
    split at h
    · cases h
    next cs' st₂ hrest =>
    cases h
    obtain ⟨hcfg, emitted, hout, hspec⟩ := cycle_spec C hmode hat hcycle
    have hlast : st₁.out.getLastD last_token = emitted.getLastD last_token := by
      rw [hout, hspec.getLastD_append]
    rw [hlast] at hrest
    obtain ⟨hn, hout', hhist', hchain⟩ := ih (by rw [hcfg, hmode]) (hspec.at_next hat) hrest
    have htotal : emitted_total (c :: cs') = (c.accepted + 1) + emitted_total cs' := by
      simp [emitted_total, hspec.emitted_eq]
    have hstream : plain_decode next (emitted_total (c :: cs')) (C.history st.σ) =
        emitted ++ plain_decode next (emitted_total cs') (C.history st₁.σ) := by
      rw [htotal, plain_decode_add, ← hspec.stream, hspec.committed]
    rw [hspec.emitted_eq] at hchain
    refine ⟨by omega, ?_, ?_, CycleChain.cons hspec hchain⟩
    · rw [hout', hout, hstream, List.append_assoc]
    · rw [hhist', hstream, ← List.append_assoc, ← hspec.committed]

theorem run_cycles_succeeds (C : model.Contract Row window next) (hok : model.Succeeds)
    (n : Nat) {st : SpecRun S Lat D} {p0 : Nat} {last_token : UInt32}
    (hmode : st.sp.cfg.mode = .Greedy)
    (hlattice : 1 ≤ st.sp.cfg.lattice_k ∧ st.sp.cfg.lattice_k ≤ kDsVerifyMaxCand)
    (hat : AtPosition (C.history st.σ) p0 last_token) :
    ∃ cs st', run_cycles sc ops model n st p0 last_token = (.ok cs, st') := by
  induction n generalizing st p0 last_token with
  | zero => exact ⟨[], st, rfl⟩
  | succ n ih =>
    have hnot : st.sp.cfg.mode ≠ .Off := by
      rw [hmode]
      decide
    obtain ⟨c, st₁, hcycle⟩ := cycle_succeeds sc ops hok p0 last_token hnot hlattice
    obtain ⟨hcfg, emitted, hout, hspec⟩ := cycle_spec C hmode hat hcycle
    have hlast : st₁.out.getLastD last_token = emitted.getLastD last_token := by
      rw [hout, hspec.getLastD_append]
    obtain ⟨cs, st', hrest⟩ := ih (by rw [hcfg, hmode]) (by rw [hcfg]; exact hlattice)
      (hspec.at_next hat)
    refine ⟨c :: cs, st', ?_⟩
    rw [run_cycles, hcycle]
    dsimp only
    rw [hlast, hrest]

/-- Greedy speculation is lossless. For a causal target `next`, any draft source, any draft
    length per cycle and any starting history, the stream of any number of cycles is the
    stream of plain argmax decoding, at least one token a cycle; along the run every cycle
    that accepts `a` drafts moves the position by `a + 1` and leaves the ring as the verify
    wrote it, except that the slots of the rejected positions hold what they held before. And
    the cycles do run, when the model's calls succeed. -/
theorem greedy_decode_lossless (sc : Scalars F D) (ops : LatticeOps Lat F D)
    (C : model.Contract Row window next) (st : SpecRun S Lat D)
    {p0 : Nat} {last_token : UInt32} (hmode : st.sp.cfg.mode = .Greedy)
    (hat : AtPosition (C.history st.σ) p0 last_token) (n : Nat) :
    (∀ cs st', run_cycles sc ops model n st p0 last_token = (.ok cs, st') →
      n ≤ emitted_total cs ∧
      st'.out = st.out ++ plain_decode next (emitted_total cs) (C.history st.σ) ∧
      C.history st'.σ = C.history st.σ ++ plain_decode next (emitted_total cs) (C.history st.σ) ∧
      CycleChain C st.σ p0 last_token cs st'.σ) ∧
    (model.Succeeds →
      1 ≤ st.sp.cfg.lattice_k ∧ st.sp.cfg.lattice_k ≤ kDsVerifyMaxCand →
      ∃ cs st', run_cycles sc ops model n st p0 last_token = (.ok cs, st')) := by
  refine ⟨?_, ?_⟩
  · intro cs st' h
    exact run_cycles_plain C hmode hat h
  · intro hok hlattice
    exact run_cycles_succeeds C hok n hmode hlattice hat

end Decode

/-! #### A model over a known stream

    `ReplayModel` of `tests/test_speculate.cpp`: the token at position `p` is `truth p`, the
    drafts are whatever they are, and a ring slot holds the position that wrote it. -/

structure ReplayState where
  committed : List UInt32
  ring : Nat → Nat
  saved : List (Nat → Nat)

/-- A loop over batch rows that writes row `j`'s value to its slot. -/
def write_slots (window p0 : Nat) (value : Nat → Nat) (rows : List Nat) (ring : Nat → Nat) :
    Nat → Nat :=
  rows.foldl (fun ring j => Function.update ring ((p0 + j) % window) (value j)) ring

def replay_model (truth : Nat → UInt32) (drafts : Nat → Vector Int32 kPositions) (window : Nat) :
    SpecModel ReplayState (Vector Int32 kPositions) Unit where
  draft_forward := fun σ p0 _ _ _ => (.ok (), drafts p0, Vector.replicate kPositions (), σ)
  verify_forward := fun σ p0 tokens _ _ _ =>
    let ring := write_slots window p0 (fun j => p0 + j) (List.range tokens.length) σ.ring
    (.ok (), fun j => { argmax := truth (p0 + j + 1), exact := { lse := () } }, { σ with ring })
  snapshot_ring := fun σ p0 _ =>
    (.ok (), { σ with saved := (fun j => σ.ring ((p0 + j) % window)) :: σ.saved })
  restore_ring := fun σ p0 accepted m =>
    match σ.saved with
    | [] => (fail .FailedPrecondition "restore without a snapshot", σ)
    | s :: _ =>
      let rejected := List.range' (accepted + 1) (m - (accepted + 1))
      (.ok (), { σ with ring := write_slots window p0 s rejected σ.ring })
  commit := fun σ p0 tokens =>
    (.ok (), { σ with committed := σ.committed.take (p0 + 1) ++ tokens, saved := σ.saved.tail })

/-- The target answers by position alone. -/
def replay_contract (truth : Nat → UInt32) (drafts : Nat → Vector Int32 kPositions)
    (window : Nat) :
    (replay_model truth drafts window).Contract Nat window fun history => truth history.length where
  history := ReplayState.committed
  ring := ReplayState.ring
  saved := fun σ => σ.saved.headD fun _ => 0
  draft_keeps := by
    intro σ p0 last_token lattice_k lat lat' conf σ' h
    cases h
    exact ⟨rfl, rfl⟩
  snapshot_saves := by
    intro σ p0 m σ' h
    cases h
    exact ⟨rfl, rfl, fun _ _ => rfl⟩
  verify_answers := by
    intro σ p0 tokens cand stride exact rows σ' h
    cases h
    refine ⟨rfl, rfl, ?_, ?_⟩
    · intro j hlen hj
      have hfed : (σ.committed.take p0 ++ tokens.take (j + 1)).length = p0 + j + 1 := by
        simp only [List.length_append, List.length_take]
        omega
      rw [hfed]
    · intro s hs
      apply PointUpdate.foldl_update_of_ne
      intro j hj hslot
      exact hs ⟨j, Nat.zero_le j, List.mem_range.mp hj, hslot⟩
  restore_undoes := by
    intro σ p0 accepted m σ' contents h hsaved
    cases hstack : σ.saved with
    | nil =>
      simp only [replay_model, hstack] at h
      cases h
    | cons saved rest =>
      simp only [replay_model, hstack] at h
      cases h
      rw [hstack] at hsaved
      have hmem : ∀ j, j ∈ List.range' (accepted + 1) (m - (accepted + 1)) ↔
          accepted + 1 ≤ j ∧ j < m := by
        intro j
        rw [List.mem_range'_1]
        omega
      refine ⟨rfl, ?_, ?_⟩
      · intro s hs
        obtain ⟨j, hlo, hhi, rfl⟩ := hs
        exact PointUpdate.foldl_update_of_agree _ ((hmem j).mpr ⟨hlo, hhi⟩)
          fun i hi => hsaved i ((hmem i).mp hi).2
      · intro s hs
        apply PointUpdate.foldl_update_of_ne
        intro j hj hslot
        exact hs ⟨j, ((hmem j).mp hj).1, ((hmem j).mp hj).2, hslot⟩
  commit_appends := by
    intro σ p0 tokens σ' h
    cases h
    exact ⟨rfl, rfl⟩

theorem replay_succeeds (truth : Nat → UInt32) (drafts : Nat → Vector Int32 kPositions)
    (window : Nat) : (replay_model truth drafts window).Succeeds where
  draft := fun _ _ _ _ _ => rfl
  snapshot := fun _ _ _ => rfl
  verify := fun _ _ _ _ _ _ => rfl
  restore := by
    intro σ p0 m σ₁ tokens cand stride exact rows σ₂ accepted hsnap hverify
    cases hsnap
    cases hverify
    rfl
  commit := fun _ _ _ => rfl

/-- Drafts that are right for two positions and wrong from the third. -/
def half_drafts (p0 : Nat) : Vector Int32 kPositions :=
  #v[(p0 + 1).toUInt32.toInt32, (p0 + 2).toUInt32.toInt32, 0, 0, 0]

def unit_scalars : Scalars Unit Unit where
  zero := ()
  one := ()
  mul := fun _ _ => ()
  lt := fun _ _ => false
  sigmoid := fun _ => ()
  uniform := fun _ => ()

/-- A lattice that is its own path. -/
def chain_lattice : LatticeOps (Vector Int32 kPositions) Unit Unit where
  path := fun _ _ => Vector.replicate kPositions 0
  sample := fun _ _ => Vector.replicate kPositions 0
  tokens := fun lat _ => lat
  token := fun lat i _ => lat.toList.getD i 0
  accept_sampling_exact := fun _ _ _ _ _ _ _ _ _ _ => {}

def counting_run : SpecRun ReplayState (Vector Int32 kPositions) Unit where
  sp := { cfg := { mode := .Greedy, k := 4, theta := () }, lat := Vector.replicate kPositions 0 }
  σ := { committed := [0, 1], ring := fun s => s, saved := [] }
  out := []

theorem greedy_decode_lossless_counting :
    ∃ cs st', run_cycles unit_scalars chain_lattice
        (replay_model Nat.toUInt32 half_drafts 4) 2 counting_run 1 1 = (.ok cs, st') ∧
      2 ≤ emitted_total cs ∧
      st'.out = plain_decode (fun history => history.length.toUInt32) (emitted_total cs) [0, 1] := by
  have hat : AtPosition [0, 1] 1 1 := ⟨rfl, rfl⟩
  have hlossless := greedy_decode_lossless unit_scalars chain_lattice
    (replay_contract Nat.toUInt32 half_drafts 4) counting_run rfl hat 2
  obtain ⟨cs, st', hrun⟩ := hlossless.2 (replay_succeeds _ _ _) (by decide)
  obtain ⟨hn, hout, _⟩ := hlossless.1 cs st' hrun
  exact ⟨cs, st', hrun, hn, hout⟩

end CachedMoe.Runtime
