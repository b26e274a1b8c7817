import CachedMoe.Core.Types
import CachedMoe.Framework.System
import Mathlib.Data.List.FinRange

/-! # The decoded weights of the prefill

    `b_.w16` of `gpu/vulkan/prefill_kernels.cpp`: four slots of fp16 weight decodes. `w16_slot`
    gives a weight the slot that is tagged with it, or the least recently used one, and tags that
    before anything is decoded; `op_gemm_coop` records the decode and submits it. Slot 0 is also
    the transit of sliced weights and of the experts of `run_moe`, which leave it without a tag.

    The answers of the kernels' table, of the command buffer and of the queue are inputs. Dispatches
    are followed as far as they write a slot; push constants, timestamps and times are left out. -/

namespace CachedMoe.Gpu

open CachedMoe LTS

/-! ### Weights and calls -/

inductive PfWeightFmt where
  | kPfFp8 | kPfBf16 | kPfFp32 | kPfFp4
  deriving Repr, DecidableEq

inductive PfActFmt where
  | kPfActF32 | kPfActQ
  deriving Repr, DecidableEq

def kPfRowSlack : Nat := 160

/-- A `PfWeight`, at its address. -/
structure PfWeight where
  fmt : PfWeightFmt := .kPfFp8
  rows : Nat := 0
  k : Nat := 0
  deriving Repr, DecidableEq

/-- The pinned store: a tensor has an address of its own and is always read in one format. -/
abbrev PinnedWeights := Nat → PfWeight

structure PfStageRope where
  head_dim : Nat
  prestaged : Bool := false
  deriving Repr, DecidableEq

/-- The sizes of the buffers and the switches `op_gemm_coop` reads. -/
structure CoopConfig where
  w16_slot_bytes : Nat
  x16_bytes : Nat
  num_attention_heads : Nat
  lds_gemm : Bool

/-- The arguments of `op_gemm_coop`; `data` is `w.data`. -/
structure CoopCall where
  data : Nat
  xfmt : PfActFmt
  n : Nat
  x_stride : Nat
  rows_per_group : Nat := 0
  rope : Option PfStageRope := none

/-- What the calls to the device answer. -/
structure CoopAnswer where
  /-- The three kernels. -/
  kernels : Result Unit := .ok ()
  cmd_open : Result Unit := .ok ()
  /-- Each dispatch with its barrier. -/
  record : Nat → Result Unit := fun _ => .ok ()
  cmd_end : Result Unit := .ok ()
  submit : Result Unit := .ok ()
  /-- `vkQueueWaitIdle`. -/
  wait : Result Unit := .ok ()
  /-- Dispatches that have run where the wait fails. -/
  ran : Nat := 0

/-! ### The slots -/

def kW16Slots : Nat := 4

structure WeightCache where
  /-- The weight each slot holds, 0 for nothing. -/
  w16_src : Fin kW16Slots → Nat := fun _ => 0
  /-- When it was last used. -/
  w16_used : Fin kW16Slots → Nat := fun _ => 0
  w16_clock : Nat := 0
  /-- The weight whose decode is in the slot. -/
  held : Fin kW16Slots → Option Nat

namespace WeightCache

/-- `std::min_element` of `w16_used_`. -/
def oldest (s : WeightCache) : Fin kW16Slots :=
  (List.finRange kW16Slots).foldl (fun i j => if s.w16_used j < s.w16_used i then j else i)
    ⟨0, by decide⟩

/-- The slot `w16_slot` gives `src`. -/
def slot_of (s : WeightCache) (src : Nat) : Fin kW16Slots :=
  if src = 0 then ⟨0, by decide⟩
  else (List.finRange kW16Slots).foldl (fun i j => if s.w16_src j = src then j else i) s.oldest

/-- Whether the slot still has to be decoded. -/
def undecoded (s : WeightCache) (src : Nat) : Bool := s.w16_src (s.slot_of src) ≠ src ∨ src = 0

/-- `w16_slot` tags the slot. -/
def tag (s : WeightCache) (src : Nat) : WeightCache :=
  { s with
    w16_src := Function.update s.w16_src (s.slot_of src) src
    w16_used := Function.update s.w16_used (s.slot_of src) (if src = 0 then 0 else s.w16_clock + 1)
    w16_clock := if src = 0 then s.w16_clock else s.w16_clock + 1 }

end WeightCache

/-! ### The dispatches of a call -/

/-- A dispatch, as far as the slots go. -/
inductive Dispatch where
  /-- A whole weight into a slot. -/
  | decode (slot : Fin kW16Slots) (data : Nat)
  /-- A slice of a weight, or an expert's matrix, into a slot. -/
  | scratch (slot : Fin kW16Slots)
  /-- Staging of x. -/
  | stage
  /-- A GEMM. -/
  | tiles
  deriving Repr, DecidableEq

def Dispatch.apply (held : Fin kW16Slots → Option Nat) : Dispatch → Fin kW16Slots → Option Nat
  | .decode slot data => Function.update held slot (some data)
  | .scratch slot => Function.update held slot none
  | .stage => held
  | .tiles => held

/-- `uint64_t(S) * K * 2 > w16_slot_bytes_`. -/
def CoopConfig.too_wide (cfg : CoopConfig) (S K : Nat) : Bool := S * K * 2 > cfg.w16_slot_bytes

/-- The search for equal slices of whole 128-row blocks, from `m` on. -/
@[grind =]
def find_slice (cfg : CoopConfig) (R K : Nat) : (fuel m S : Nat) → Nat
  | 0, _, S => S
  | fuel + 1, m, S =>
    if cfg.too_wide S K then
      find_slice cfg R K fuel (m + 1) (if R % m = 0 ∧ R / m % 128 = 0 then R / m else S)
    else S

/-- `rpg`. -/
def CoopCall.group_rows (c : CoopCall) (w : PfWeight) : Nat :=
  if c.rows_per_group ≠ 0 then c.rows_per_group else w.rows

/-- `S`: an ungrouped weight goes through in slices. -/
def slice_rows (cfg : CoopConfig) (w : PfWeight) (groups : Nat) : Nat :=
  if groups = 1 then find_slice cfg w.rows w.k 63 2 w.rows else w.rows

/-- How a call goes through: its groups, its slices and whether the LDS path takes the groups. -/
structure CoopPlan where
  groups : Nat
  slices : Nat
  fused : Bool
  deriving Repr, DecidableEq

/-- `pf_lds_geo` has a geometry for the shape. -/
def CoopConfig.lds_geo (cfg : CoopConfig) (rows k : Nat) : Bool :=
  cfg.lds_gemm && k % 64 = 0 && rows % 64 = 0

/-- What `op_gemm_coop` works out before it takes a slot; `none` is its `return false`. -/
def coop_plan (cfg : CoopConfig) (w : PfWeight) (c : CoopCall) : Option CoopPlan :=
  let R := w.rows
  let K := w.k
  let n32 := (c.n + 31) / 32 * 32
  if R = 0 ∨ R % 16 ≠ 0 ∨ K % 32 ≠ 0 ∨ w.fmt = .kPfFp32 then none
  else if c.rope.any fun rope => c.xfmt ≠ .kPfActF32 ∨ K % 8 ≠ 0 ∨ rope.head_dim % 8 ≠ 0 then none
  else
    let rpg := c.group_rows w
    let groups := R / rpg
    if rpg % 16 ≠ 0 ∨ groups * rpg ≠ R then none
    else if c.x_stride ≠ groups * K then none
    else if groups > 1 ∧ c.xfmt ≠ .kPfActF32 then none
    else
      let S := slice_rows cfg w groups
      if cfg.too_wide S K ∨ (n32 + kPfRowSlack) * K * 2 > cfg.x16_bytes then none
      else
        let slices := R / S
        let mrows := if slices > 1 then S else rpg
        some {
          groups, slices
          fused := cfg.lds_geo mrows K && 1 < groups && groups * n32 * K * 2 ≤ cfg.x16_bytes }

/-- x was staged by the attention, for a GEMM that does not take it so. -/
def prestaged_wrong (cfg : CoopConfig) (c : CoopCall) (p : CoopPlan) : Bool :=
  c.rope.any fun rope => rope.prestaged &&
    !(p.fused && rope.head_dim * p.groups * (cfg.num_attention_heads / p.groups) = c.x_stride)

/-- The dispatches of a call into slot `slot`. -/
def dispatches (c : CoopCall) (p : CoopPlan) (slot : Fin kW16Slots) (undecoded : Bool) :
    List Dispatch :=
  let prestaged := c.rope.any (·.prestaged)
  (if p.slices = 1 ∧ undecoded then [.decode slot c.data] else []) ++
    ((List.range p.groups).flatMap fun _ =>
      (if prestaged then [] else [.stage]) ++ if p.slices > 1 ∨ p.fused then [] else [.tiles]) ++
    (if p.fused then [.tiles] else []) ++
    if p.slices > 1 then (List.range p.slices).flatMap fun _ => [.scratch slot, .tiles] else []

/-- Records dispatches from ordinal `i` on. -/
@[grind =]
def record_all (record : Nat → Result Unit) : (i : Nat) → List Dispatch → Result Unit
  | _, [] => .ok ()
  | i, _ :: ds => do
    record i
    record_all record (i + 1) ds

/-- Everything between the slot and the queue. -/
def recorded (cfg : CoopConfig) (c : CoopCall) (p : CoopPlan) (ans : CoopAnswer)
    (ds : List Dispatch) : Result Unit := do
  if prestaged_wrong cfg c p then
    fail .Internal ("op_gemm_coop: x16 was staged by the attention but the grouped LDS path is " ++
      "not taken")
  ans.kernels
  ans.cmd_open
  record_all ans.record 0 ds
  ans.cmd_end
  ans.submit

/-- The dispatches the device has run. -/
def WeightCache.run (s : WeightCache) (ds : List Dispatch) : WeightCache :=
  { s with held := ds.foldl Dispatch.apply s.held }

def op_gemm_coop (cfg : CoopConfig) (weights : PinnedWeights) (s : WeightCache) (c : CoopCall)
    (ans : CoopAnswer) : Result Bool × WeightCache :=
  match coop_plan cfg (weights c.data) c with
  | none => (.ok false, s)
  | some p =>
    let src := if p.slices > 1 then 0 else c.data
    let ds := dispatches c p (s.slot_of src) (s.undecoded src)
    -- the tag is set here, whatever becomes of the decode
    let s := s.tag src
    match recorded cfg c p ans ds with
    | .error err => (.error err, s)
    | .ok () =>
      match ans.wait with
      | .error err => (.error err, s.run (ds.take ans.ran))
      | .ok () => (.ok true, s.run ds)

/-- `run_moe` gives slot 0 up before the experts' decodes, of which `decodes` run. -/
def run_moe_slot (s : WeightCache) (decodes : Nat) : WeightCache :=
  WeightCache.run
    { s with
      w16_src := Function.update s.w16_src ⟨0, by decide⟩ 0
      w16_used := Function.update s.w16_used ⟨0, by decide⟩ 0 }
    (List.replicate decodes (.scratch ⟨0, by decide⟩))

/-! ### Tags -/

namespace WeightCache

variable {s : WeightCache} {d : Nat}

/-- No weight is recorded in two slots. -/
def Distinct (s : WeightCache) : Prop :=
  ∀ i j, s.w16_src i = s.w16_src j → s.w16_src i ≠ 0 → i = j

/-- A slot that is reported as decoded holds the decode of the weight. -/
def Coherent (s : WeightCache) : Prop :=
  ∀ d, s.undecoded d = false → s.held (s.slot_of d) = some d

/-- The loop over the slots ends at one with the tag, or where it began. -/
theorem find_tag (s : WeightCache) (d : Nat) (l : List (Fin kW16Slots)) (i : Fin kW16Slots) :
    s.w16_src (l.foldl (fun i j => if s.w16_src j = d then j else i) i) = d ∨
      (∀ j ∈ l, s.w16_src j ≠ d) ∧
        l.foldl (fun i j => if s.w16_src j = d then j else i) i = i := by
  induction l generalizing i with
  | nil => exact .inr ⟨fun j hj => (List.not_mem_nil hj).elim, rfl⟩
  | cons k l ih =>
    rw [List.foldl_cons]
    by_cases hk : s.w16_src k = d
    · rw [if_pos hk]
      rcases ih k with hfound | ⟨-, hsame⟩
      · exact .inl hfound
      · rw [hsame]
        exact .inl hk
    · rw [if_neg hk]
      refine (ih i).imp_right fun h => ⟨?_, h.2⟩
      intro j hj
      rcases List.mem_cons.mp hj with rfl | hj
      · exact hk
      · exact h.1 j hj

theorem slot_of_tagged {j : Fin kW16Slots} (hd : d ≠ 0) (hj : s.w16_src j = d) :
    s.w16_src (s.slot_of d) = d := by
  rw [slot_of, if_neg hd]
  rcases find_tag s d (List.finRange kW16Slots) s.oldest with hfound | ⟨hnone, -⟩
  · exact hfound
  · exact absurd hj (hnone j (List.mem_finRange j))

theorem undecoded_eq_false : s.undecoded d = false ↔ s.w16_src (s.slot_of d) = d ∧ d ≠ 0 := by
  rw [undecoded, decide_eq_false_iff_not, not_or, not_not]

/-- Coherence, slot by slot. -/
theorem Distinct.coherent_iff (h : s.Distinct) :
    s.Coherent ↔ ∀ i, s.w16_src i ≠ 0 → s.held i = some (s.w16_src i) := by
  constructor
  · intro hcoh i hi
    have htag := slot_of_tagged hi rfl
    have hslot : s.slot_of (s.w16_src i) = i := h _ i htag (by rw [htag]; exact hi)
    have hheld := hcoh _ (undecoded_eq_false.mpr ⟨htag, hi⟩)
    rw [hslot] at hheld
    exact hheld
  · intro hslots d hd
    obtain ⟨htag, hne⟩ := undecoded_eq_false.mp hd
    have hheld := hslots (s.slot_of d) (by rw [htag]; exact hne)
    rw [htag] at hheld
    exact hheld

/-- A tag that no other slot has, or 0, keeps the tags distinct. -/
theorem Distinct.update {i : Fin kW16Slots} (h : s.Distinct)
    (hd : d ≠ 0 → ∀ j, s.w16_src j = d → j = i) {t : WeightCache}
    (ht : t.w16_src = Function.update s.w16_src i d) : t.Distinct := by
  intro j k hjk hne
  rw [ht] at hjk hne
  by_cases hj : j = i
  · by_cases hk : k = i
    · rw [hj, hk]
    · rw [hj, Function.update_self] at hne
      rw [hj, Function.update_self, Function.update_of_ne hk] at hjk
      rw [hj, hd hne k hjk.symm]
  · rw [Function.update_of_ne hj] at hjk hne
    by_cases hk : k = i
    · rw [hk, Function.update_self] at hjk
      rw [hd (hjk ▸ hne) j hjk, hk]
    · rw [Function.update_of_ne hk] at hjk
      exact h j k hjk hne

theorem Distinct.tag (h : s.Distinct) (d : Nat) : (s.tag d).Distinct := by
  apply h.update (i := s.slot_of d) (d := d) _ rfl
  intro hd j hj
  exact h j _ (hj.trans (slot_of_tagged hd hj).symm) (hj ▸ hd)

end WeightCache

/-! ### Dispatches -/

section Dispatches

variable {held : Fin kW16Slots → Option Nat} {ds : List Dispatch} {slot : Fin kW16Slots}

/-- Dispatches that write no slot. -/
theorem run_quiet (h : ∀ x ∈ ds, x = .stage ∨ x = .tiles) :
    ds.foldl Dispatch.apply held = held := by
  induction ds generalizing held with
  | nil => rfl
  | cons x ds ih =>
    rw [List.foldl_cons]
    rcases h x List.mem_cons_self with rfl | rfl
    · exact ih fun y hy => h y (List.mem_cons_of_mem _ hy)
    · exact ih fun y hy => h y (List.mem_cons_of_mem _ hy)

/-- The dispatch writes no other slot. -/
def Dispatch.OnlyInto (slot : Fin kW16Slots) (x : Dispatch) : Prop :=
  (∃ d, x = .decode slot d) ∨ x = .scratch slot ∨ x = .stage ∨ x = .tiles

theorem run_other {j : Fin kW16Slots} (hj : j ≠ slot) (h : ∀ x ∈ ds, x.OnlyInto slot) :
    ds.foldl Dispatch.apply held j = held j := by
  induction ds generalizing held with
  | nil => rfl
  | cons x ds ih =>
    rw [List.foldl_cons, ih fun y hy => h y (List.mem_cons_of_mem _ hy)]
    rcases h x List.mem_cons_self with ⟨d, rfl⟩ | rfl | rfl | rfl
    · exact Function.update_of_ne hj _ _
    · exact Function.update_of_ne hj _ _
    · rfl
    · rfl

/-- A whole weight is decoded first, if at all, and nothing else writes its slot. -/
theorem dispatches_whole {c : CoopCall} {p : CoopPlan} (hp : p.slices = 1) (slot : Fin kW16Slots)
    (undecoded : Bool) : ∃ rest, (∀ x ∈ rest, x = Dispatch.stage ∨ x = .tiles) ∧
      dispatches c p slot undecoded =
        (if undecoded then [.decode slot c.data] else []) ++ rest := by
  unfold dispatches
  simp only [hp, true_and, if_neg (show ¬ 1 > 1 by decide), List.append_nil, List.append_assoc]
  refine ⟨_, ?_, rfl⟩
  intro x hx
  rcases List.mem_append.mp hx with hx | hx
  · obtain ⟨g, -, hx⟩ := List.mem_flatMap.mp hx
    grind
  · grind

/-- A call writes no slot but its own. -/
theorem dispatches_into {c : CoopCall} {p : CoopPlan} (slot : Fin kW16Slots) (undecoded : Bool) :
    ∀ x ∈ dispatches c p slot undecoded, x.OnlyInto slot := by
  intro x hx
  unfold dispatches at hx
  simp only [List.mem_append, List.mem_flatMap] at hx
  unfold Dispatch.OnlyInto
  grind

end Dispatches

/-! ### The slices of a call -/

theorem find_slice_pos {cfg : CoopConfig} {R K fuel m S : Nat} (hR : 0 < R) (hm : 0 < m)
    (h : 0 < S ∧ S ≤ R) :
    0 < find_slice cfg R K fuel m S ∧ find_slice cfg R K fuel m S ≤ R := by
  induction fuel generalizing m S with
  | zero => exact h
  | succ fuel ih =>
    rw [find_slice]
    split
    · apply ih (Nat.succ_pos m)
      split
      next hdiv =>
        have hle : m ≤ R := Nat.le_of_dvd hR (Nat.dvd_of_mod_eq_zero hdiv.1)
        exact ⟨Nat.div_pos hle hm, Nat.div_le_self R m⟩
      · exact h
    · exact h

/-- A call that takes a slot has at least one slice. -/
theorem coop_plan_slices {cfg : CoopConfig} {w : PfWeight} {c : CoopCall} {p : CoopPlan}
    (h : coop_plan cfg w c = some p) : 0 < p.slices := by
  obtain ⟨hR, hslices⟩ : w.rows ≠ 0 ∧ p.slices = w.rows / slice_rows cfg w p.groups := by
    unfold coop_plan at h
    grind
  have hR := Nat.pos_of_ne_zero hR
  rw [hslices, slice_rows]
  split
  · obtain ⟨hpos, hle⟩ := @find_slice_pos cfg w.rows w.k 63 2 w.rows hR Nat.two_pos
      ⟨hR, Nat.le_refl _⟩
    exact Nat.div_pos hle hpos
  · exact Nat.div_pos (Nat.le_refl _) hR

/-! ### Runs of calls -/

inductive CacheStep where
  | gemm (call : CoopCall) (answer : CoopAnswer)
  | moe (decodes : Nat)

def cache_next (cfg : CoopConfig) (weights : PinnedWeights) (s : WeightCache) :
    CacheStep → Option WeightCache
  | .gemm c ans => some (op_gemm_coop cfg weights s c ans).2
  | .moe decodes => some (run_moe_slot s decodes)

def cache_system (cfg : CoopConfig) (weights : PinnedWeights) : System WeightCache CacheStep :=
  System.ofNext (fun s => ∀ i, s.w16_src i = 0) (cache_next cfg weights)

/-- The decode of a whole weight, the first dispatch of its call, has run. -/
def Decoded (cfg : CoopConfig) (s : WeightCache) (c : CoopCall) (p : CoopPlan) (ans : CoopAnswer) :
    Prop :=
  recorded cfg c p ans (dispatches c p (s.slot_of c.data) true) = .ok () ∧
    (ans.wait = .ok () ∨ 0 < ans.ran)

/-- A call that tags a slot for a whole weight runs its decode, unless the slot has held it all
    along. -/
def Approved (cfg : CoopConfig) (weights : PinnedWeights) (s : WeightCache) : CacheStep → Prop
  | .gemm c ans => ∀ p, coop_plan cfg (weights c.data) c = some p → p.slices = 1 → c.data ≠ 0 →
      s.undecoded c.data = true → Decoded cfg s c p ans ∨ s.held (s.slot_of c.data) = some c.data
  | .moe _ => True

/-- What a call does to the slots: some of its dispatches run, all of them where it succeeds, and
    none where it fails before the queue. -/
theorem op_gemm_coop_cases (cfg : CoopConfig) (weights : PinnedWeights) (s : WeightCache)
    (c : CoopCall) (ans : CoopAnswer) :
    (coop_plan cfg (weights c.data) c = none ∧ (op_gemm_coop cfg weights s c ans).2 = s) ∨
    ∃ p src ds, coop_plan cfg (weights c.data) c = some p ∧
      src = (if p.slices > 1 then 0 else c.data) ∧
      ds = dispatches c p (s.slot_of src) (s.undecoded src) ∧
      ∃ n, (op_gemm_coop cfg weights s c ans).2 = (s.tag src).run (ds.take n) ∧
        (0 < n ∧ ds ≠ [] ↔ (recorded cfg c p ans ds = .ok () ∧ (ans.wait = .ok () ∨ 0 < ans.ran)) ∧
          ds ≠ []) := by
  unfold op_gemm_coop
  cases hplan : coop_plan cfg (weights c.data) c with
  | none => exact .inl ⟨rfl, rfl⟩
  | some p =>
    refine .inr ⟨p, _, _, rfl, rfl, rfl, ?_⟩
    dsimp only
    generalize (if p.slices > 1 then 0 else c.data) = src
    generalize dispatches c p (s.slot_of src) (s.undecoded src) = ds
    cases hrec : recorded cfg c p ans ds with
    | error err =>
      refine ⟨0, rfl, ?_⟩
      simp
    | ok _ =>
      cases hwait : ans.wait with
      | error err =>
        refine ⟨ans.ran, rfl, ?_⟩
        simp
      | ok _ =>
        refine ⟨ds.length, by rw [List.take_length], ?_⟩
        simp [List.length_pos_iff]

/-- A whole weight that has no slot is tagged, and decoded if its first dispatch runs. -/
theorem coherent_decode {s : WeightCache} {d n : Nat} {rest : List Dispatch} (h : s.Distinct)
    (hcoh : s.Coherent) (hd : d ≠ 0) (hrest : ∀ x ∈ rest, x = Dispatch.stage ∨ x = .tiles) :
    ((s.tag d).run ((Dispatch.decode (s.slot_of d) d :: rest).take n)).Coherent ↔
      0 < n ∨ s.held (s.slot_of d) = some d := by
  have hheld : ((s.tag d).run ((Dispatch.decode (s.slot_of d) d :: rest).take n)).held =
      if 0 < n then Function.update s.held (s.slot_of d) (some d) else s.held := by
    cases n with
    | zero => rfl
    | succ n =>
      rw [if_pos (Nat.succ_pos n)]
      exact run_quiet fun x hx => hrest x (List.mem_of_mem_take hx)
  have hdistinct : ((s.tag d).run ((Dispatch.decode (s.slot_of d) d :: rest).take n)).Distinct :=
    h.tag d
  rw [hdistinct.coherent_iff, hheld]
  have hslots := h.coherent_iff.mp hcoh
  constructor
  · intro hall
    have hslot := hall (s.slot_of d) (by
      show Function.update s.w16_src (s.slot_of d) d (s.slot_of d) ≠ 0
      rw [Function.update_self]
      exact hd)
    by_cases hn : 0 < n
    · exact .inl hn
    · rw [if_neg hn] at hslot
      refine .inr (hslot.trans ?_)
      exact congrArg some (Function.update_self _ _ _)
  · intro hor i hi
    show _ = some (Function.update s.w16_src (s.slot_of d) d i)
    have hi' : Function.update s.w16_src (s.slot_of d) d i ≠ 0 := hi
    by_cases hslot : i = s.slot_of d
    · rw [hslot, Function.update_self]
      split
      · exact Function.update_self _ _ _
      next hn => exact hor.resolve_left hn
    · rw [Function.update_of_ne hslot] at hi' ⊢
      split
      · rw [Function.update_of_ne hslot]
        exact hslots i hi'
      · exact hslots i hi'

/-- A slot that is left without a tag may be overwritten. -/
theorem coherent_untagged {s t : WeightCache} {slot : Fin kW16Slots} (h : s.Distinct)
    (hcoh : s.Coherent) (hsrc : t.w16_src = Function.update s.w16_src slot 0)
    (hheld : ∀ j, j ≠ slot → t.held j = s.held j) : t.Coherent := by
  have hdistinct : t.Distinct := h.update (fun hd => absurd rfl hd) hsrc
  rw [hdistinct.coherent_iff]
  intro i hi
  have hne : i ≠ slot := by
    rintro rfl
    rw [hsrc, Function.update_self] at hi
    exact hi rfl
  rw [hsrc, Function.update_of_ne hne] at hi ⊢
  rw [hheld i hne]
  exact h.coherent_iff.mp hcoh i hi

/-- A product keeps the cache coherent exactly when it is approved. -/
theorem gemm_coherent_iff {cfg : CoopConfig} {weights : PinnedWeights} {s : WeightCache}
    (h : s.Distinct) (hcoh : s.Coherent) (c : CoopCall) (ans : CoopAnswer) :
    (op_gemm_coop cfg weights s c ans).2.Coherent ↔ Approved cfg weights s (.gemm c ans) := by
  rcases op_gemm_coop_cases cfg weights s c ans with
    ⟨hplan, heq⟩ | ⟨p, src, ds, hplan, hsrc, hds, n, heq, hn⟩
  · rw [heq]
    refine iff_of_true hcoh fun p hp => ?_
    rw [hplan] at hp
    cases hp
  have hinto : ∀ x ∈ ds.take n, x.OnlyInto (s.slot_of src) := by
    intro x hx
    rw [hds] at hx
    exact dispatches_into _ _ x (List.mem_of_mem_take hx)
  rw [heq]
  -- a sliced weight and the address 0 leave slot 0 without a tag
  by_cases hzero : src = 0
  · refine iff_of_true ?_ ?_
    · subst hzero
      exact coherent_untagged h hcoh rfl fun j hj => run_other hj hinto
    · intro p' hp' hone hdata
      rw [hplan] at hp'
      obtain rfl := Option.some.inj hp'
      rw [hone, if_neg (show ¬ 1 > 1 by decide)] at hsrc
      exact absurd (hsrc.symm.trans hzero) hdata
  have hone : p.slices = 1 := by
    have hpos := coop_plan_slices hplan
    by_contra hne
    rw [if_pos (by omega)] at hsrc
    exact hzero hsrc
  rw [hone, if_neg (show ¬ 1 > 1 by decide)] at hsrc
  subst hsrc
  obtain ⟨rest, hrest, hlist⟩ := dispatches_whole hone (s.slot_of c.data) (s.undecoded c.data)
    (c := c)
  rw [hlist] at hds
  cases hdec : s.undecoded c.data with
  | false =>
    rw [hdec] at hds
    refine iff_of_true ?_ ?_
    · have hheld : ((s.tag c.data).run (ds.take n)).held = s.held :=
        run_quiet fun x hx => hrest x (by rw [hds] at hx; exact List.mem_of_mem_take hx)
      have hsame : (s.tag c.data).w16_src = s.w16_src := by
        have htag := (WeightCache.undecoded_eq_false.mp hdec).1
        funext j
        show Function.update s.w16_src (s.slot_of c.data) c.data j = s.w16_src j
        by_cases hj : j = s.slot_of c.data
        · rw [hj, Function.update_self, htag]
        · rw [Function.update_of_ne hj]
      have hdistinct : ((s.tag c.data).run (ds.take n)).Distinct := h.tag c.data
      rw [hdistinct.coherent_iff, hheld]
      show ∀ i, (s.tag c.data).w16_src i ≠ 0 → s.held i = some ((s.tag c.data).w16_src i)
      rw [hsame]
      exact h.coherent_iff.mp hcoh
    · intro p' _ _ _ hbad
      rw [hdec] at hbad
      cases hbad
  | true =>
    rw [hdec, if_pos rfl, List.singleton_append] at hds
    have hne : ds ≠ [] := by
      rw [hds]
      exact List.cons_ne_nil _ _
    rw [and_iff_left hne, and_iff_left hne] at hn
    have hiff := coherent_decode (n := n) h hcoh hzero hrest
    rw [← hds] at hiff
    rw [hiff, hn]
    have hrecord : dispatches c p (s.slot_of c.data) true = ds := by
      rw [hds, ← hdec, hlist, hdec]
      rfl
    constructor
    · intro hor p' hp' _ _ _
      rw [hplan] at hp'
      obtain rfl := Option.some.inj hp'
      unfold Decoded
      rw [hrecord]
      exact hor
    · intro happroved
      have hdecoded := happroved p hplan hone hzero hdec
      unfold Decoded at hdecoded
      rw [hrecord] at hdecoded
      exact hdecoded

/-- Every step keeps the tags distinct, and an approved one the slots coherent. -/
theorem cache_step {cfg : CoopConfig} {weights : PinnedWeights} {s s' : WeightCache}
    {l : CacheStep} (h : s.Distinct) (hstep : cache_next cfg weights s l = some s') :
    s'.Distinct ∧ (s.Coherent → (s'.Coherent ↔ Approved cfg weights s l)) := by
  cases l with
  | gemm c ans =>
    obtain rfl := Option.some.inj hstep
    refine ⟨?_, fun hcoh => gemm_coherent_iff h hcoh c ans⟩
    rcases op_gemm_coop_cases cfg weights s c ans with ⟨-, heq⟩ | ⟨p, src, ds, -, -, -, n, heq, -⟩
    · rw [heq]
      exact h
    · rw [heq]
      exact h.tag src
  | moe decodes =>
    obtain rfl := Option.some.inj hstep
    refine ⟨h.update (fun hd => absurd rfl hd) rfl, fun hcoh => iff_of_true ?_ trivial⟩
    refine coherent_untagged h hcoh rfl fun j hj => run_other hj ?_
    intro x hx
    exact .inr (.inl (List.eq_of_mem_replicate hx))

/-- No weight is ever recorded in two slots. As long as every call that tags a slot for a whole
    weight runs its decode, a slot reported as decoded holds the weight; the first call that does
    not ends that. -/
theorem weight_cache_coherent (cfg : CoopConfig) (weights : PinnedWeights) (s : WeightCache) :
    (Reachable (cache_system cfg weights) s → s.Distinct) ∧
    (Reachable ((cache_system cfg weights).restrict (Approved cfg weights)) s →
      s.Coherent ∧ ∀ l s', cache_next cfg weights s l = some s' →
        (s'.Coherent ↔ Approved cfg weights s l)) := by
  have hempty : ∀ s : WeightCache, (∀ i, s.w16_src i = 0) → s.Distinct := by
    intro s hs i j _ hne
    exact absurd (hs i) hne
  constructor
  · intro h
    exact h.invariant hempty fun s l s' hs hstep => (cache_step hs hstep).1
  · intro h
    have hboth : s.Distinct ∧ s.Coherent := by
      apply h.invariant (P := fun s => s.Distinct ∧ s.Coherent)
      · intro s hs
        refine ⟨hempty s hs, (hempty s hs).coherent_iff.mpr fun i hi => absurd (hs i) hi⟩
      · rintro s l s' ⟨hs, hcoh⟩ ⟨hstep, happroved⟩
        obtain ⟨hdistinct, hiff⟩ := cache_step hs hstep
        exact ⟨hdistinct, (hiff hcoh).mpr happroved⟩
    exact ⟨hboth.2, fun l s' hstep => (cache_step hboth.1 hstep).2 hboth.2⟩

/-! #### A submission that fails -/

def small_coop : CoopConfig where
  w16_slot_bytes := 1024
  x16_bytes := 16384
  num_attention_heads := 1
  lds_gemm := false

/-- Sixteen rows of 32 columns at every address. -/
def small_weights : PinnedWeights := fun _ => { rows := 16, k := 32 }

def empty_cache : WeightCache where
  held := fun _ => none

def small_gemm : CoopCall where
  data := 7
  xfmt := .kPfActQ
  n := 1
  x_stride := 32

/-- The slot is tagged for weight 7, whose decode has never run. -/
theorem weight_cache_tag_ahead :
    ¬ ∀ (cfg : CoopConfig) (weights : PinnedWeights) (s : WeightCache),
      Reachable (cache_system cfg weights) s → s.Coherent := by
  intro h
  have hinit : Reachable (cache_system small_coop small_weights) empty_cache :=
    .of_init fun _ => rfl
  have hreach : Reachable (cache_system small_coop small_weights)
      (op_gemm_coop small_coop small_weights empty_cache small_gemm
        { submit := fail .Internal "vkQueueSubmit2 failed" }).2 :=
    hinit.step (l := .gemm small_gemm { submit := fail .Internal "vkQueueSubmit2 failed" }) rfl
  exact absurd (h _ _ _ hreach 7 (by decide)) (by decide)

/-- After a call that succeeds the slot holds the weight. -/
theorem weight_cache_holds_decoded :
    (op_gemm_coop small_coop small_weights empty_cache small_gemm {}).2.held
      ((op_gemm_coop small_coop small_weights empty_cache small_gemm {}).2.slot_of 7) = some 7 := by
  have hinit : Reachable ((cache_system small_coop small_weights).restrict
      (Approved small_coop small_weights)) empty_cache := .of_init fun _ => rfl
  have happroved : Approved small_coop small_weights empty_cache (.gemm small_gemm {}) := by
    intro p hp _ _ _
    obtain rfl := Option.some.inj hp
    exact .inl ⟨by decide, .inl rfl⟩
  have hreach : Reachable ((cache_system small_coop small_weights).restrict
      (Approved small_coop small_weights))
      (op_gemm_coop small_coop small_weights empty_cache small_gemm {}).2 :=
    hinit.step (l := .gemm small_gemm {}) ⟨rfl, happroved⟩
  exact ((weight_cache_coherent small_coop small_weights _).2 hreach).1 7 (by decide)

end CachedMoe.Gpu
