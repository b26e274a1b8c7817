import CachedMoe.Framework.CountingSort
import CachedMoe.Framework.Update
import CachedMoe.Gpu.Batches
import CachedMoe.Gpu.WeightCache

/-! # The jobs of a layer's routed experts

    The rest of `Prefill::run_moe` (`gpu/vulkan/prefill_kernels.cpp`): the assignments of
    tokens to experts are sorted by expert, and each batch of experts is turned into jobs,
    the small ones for the tiled path and the others for the cooperative one. What a job
    works on is its part of the sorted assignments; the batches are those of
    `Input.batches`. -/

namespace CachedMoe.Gpu

open CachedMoe

/-! ### The routing of a layer -/

/-- The ids and weights the gate gives `rows` tokens, `k6` each, row after row. -/
structure Routing (inp : Input) (L : Nat) where
  rows : Nat
  k6 : Nat
  /-- The weights' bits. -/
  wts : List UInt32
  length_ids : (inp.ids L).length = rows * k6
  ids_lt : ∀ e ∈ inp.ids L, e < inp.n_routed_experts

/-- A token and the rank of one of its experts. -/
structure Assignment where
  t : Nat
  s : Nat
  deriving Repr, DecidableEq

/-- The sorted assignments: token ids, weights, and where the next one of each expert goes. -/
structure Csr where
  csr : Nat → Nat
  rw : Nat → UInt32
  fill : Nat → Nat

def Csr.put (m : Csr) (e t : Nat) (w : UInt32) : Csr where
  csr := Function.update m.csr (m.fill e) t
  rw := Function.update m.rw (m.fill e) w
  fill := Function.update m.fill e (m.fill e + 1)

/-- `1.0f`. -/
def one_bits : UInt32 := 0x3F800000

namespace Routing

variable {inp : Input} {L : Nat} (rt : Routing inp L)

/-- The order of the loops over `t` and `s`. -/
def assignments : List Assignment :=
  (List.range rt.rows).flatMap fun t => (List.range rt.k6).map fun s => ⟨t, s⟩

/-- `ids[t * k6 + s]`. -/
def id (a : Assignment) : Nat := (inp.ids L).getD (a.t * rt.k6 + a.s) 0

/-- `wts[t * k6 + s]`. -/
def wt (a : Assignment) : UInt32 := rt.wts.getD (a.t * rt.k6 + a.s) 0

def count : Nat → Nat :=
  rt.assignments.foldl
    (fun count a => Function.update count (rt.id a) (count (rt.id a) + 1)) fun _ => 0

def start : Nat → Nat
  | 0 => 0
  | e + 1 => start e + rt.count e

/-- The rows of the shared expert stand behind those of the routed ones. -/
def shared_off : Nat := rt.rows * rt.k6

/-- The CSR by expert. -/
def csr_by_expert : Csr :=
  let m := rt.assignments.foldl (fun m a => m.put (rt.id a) a.t (rt.wt a))
    { csr := fun _ => 0, rw := fun _ => 0, fill := rt.start }
  (List.range rt.rows).foldl (fun m t =>
    { m with csr := Function.update m.csr (rt.shared_off + t) t
             rw := Function.update m.rw (rt.shared_off + t) one_bits }) m

end Routing

/-! ### Jobs -/

/-- An entry of the job table. -/
structure PfJob where
  w1 : Nat
  s1 : Nat
  w2 : Nat
  s2 : Nat
  w3 : Nat
  s3 : Nat
  rows_off : Nat
  n : Nat
  h_off : Nat
  fmt : PfWeightFmt
  deriving Repr, DecidableEq

/-- Where the experts' weights are: what the sink gave each of them, and the addresses of
    the slots of the cache and of the transit. -/
structure Places where
  dest : Nat → Dest
  cache_dev : Nat → Nat
  transit_dev : Nat → Nat

/-- The part's place in an expert's slot. -/
def Input.offset_of (inp : Input) (L e : Nat) (p : ExpertPart) : Nat :=
  match inp.require_expert L e with
  | .ok ent => ent.part_offset p
  | .error _ => 0

/-- `slot`: a read-ahead expert stays in its slot, the others of a batch fill its segment
    in order. -/
def slots (K : Nat) (ahead : Nat → Option Nat) (bts : List Batch) : Nat → Nat :=
  bts.foldl (fun slot bt => bt.experts.zipIdx.foldl
    (fun slot ei => Function.update slot ei.1 ((ahead ei.1).getD (bt.seg * K + ei.2))) slot)
    fun _ => 0

/-- The address of an expert's slot. -/
def Input.expert_base (inp : Input) (L : Nat) (pl : Places) (ahead : Nat → Option Nat) (e : Nat) :
    Nat :=
  if (pl.dest e).kind ≠ .Drop then pl.cache_dev (pl.dest e).slot
  else pl.transit_dev (slots inp.pcfg.transit_slots ahead (inp.batches L ahead) e)

/-- The locals of the loop that fills the job table; `jobs` are those from job 1 on. -/
structure JobTable where
  jobs : List PfJob := []
  h_off : Nat := 0
  n_small : Nat := 0
  h_small : Nat := 0

namespace Routing

variable {inp : Input} {L : Nat} (rt : Routing inp L) (pl : Places) (ahead : Nat → Option Nat)

def job (e h_off : Nat) : PfJob :=
  let base := inp.expert_base L pl ahead e
  { w1 := base + inp.offset_of L e .W1Weight
    s1 := base + inp.offset_of L e .W1Scale
    w2 := base + inp.offset_of L e .W2Weight
    s2 := base + inp.offset_of L e .W2Scale
    w3 := base + inp.offset_of L e .W3Weight
    s3 := base + inp.offset_of L e .W3Scale
    rows_off := rt.start e
    n := rt.count e
    h_off := h_off
    fmt := .kPfFp4 }

def small (e : Nat) : Bool := rt.count e < inp.pcfg.coopmat_min_rows

/-- `std::stable_partition` of a batch: the small experts first. -/
def order (bt : Batch) : List Nat :=
  bt.experts.filter rt.small ++ bt.experts.filter fun e => !rt.small e

def add_job (tb : JobTable) (e : Nat) : JobTable :=
  let h_off := tb.h_off + rt.count e
  { jobs := tb.jobs ++ [rt.job pl ahead e tb.h_off]
    h_off := h_off
    n_small := if rt.small e then tb.n_small + 1 else tb.n_small
    h_small := if rt.small e then h_off else tb.h_small }

def table (bt : Batch) : JobTable := (rt.order bt).foldl (rt.add_job pl ahead) {}

end Routing

/-- The two ways to compute jobs: the tiled one quantises `hrows` rows of h at once. -/
inductive Path where
  | tiled (hrows : Nat)
  | coop
  deriving Repr, DecidableEq

/-- What goes to the GPU in one submit: the jobs `[first, first + jobs.length)` of the
    table. -/
structure MoeDispatch where
  path : Path
  first : Nat
  jobs : List PfJob
  deriving Repr, DecidableEq

/-- How the steps of a layer's batches come out. -/
structure Outcomes where
  issue : Nat → Bool
  reads : Nat → Bool
  copies : Nat → Bool
  compute : Nat → Bool
  compute_coop : Nat → Bool

/-- Jobs `[j0, j1)` of a table. -/
def JobTable.range (tb : JobTable) (j0 j1 : Nat) : List PfJob :=
  (tb.jobs.drop (j0 - 1)).take (j1 - j0)

namespace Routing

variable {inp : Input} {L : Nat} (rt : Routing inp L) (pl : Places) (ahead : Nat → Option Nat)
  (out : Outcomes)

/-- `compute(1, 1 + n_small, h_small)`. -/
def compute (tb : JobTable) : List MoeDispatch :=
  if tb.n_small > 0 then [⟨.tiled tb.h_small, 1, tb.range 1 (1 + tb.n_small)⟩] else []

/-- `compute_coop(1 + n_small, 1 + count)`. -/
def compute_coop (tb : JobTable) (n : Nat) : List MoeDispatch :=
  if tb.n_small < n then [⟨.coop, 1 + tb.n_small, tb.range (1 + tb.n_small) (1 + n)⟩] else []

/-- `run_batch` of batch `i`: whether it succeeds, and what it submits. -/
def run_batch (i : Nat) (bt : Batch) : Bool × List MoeDispatch :=
  if out.reads i = false ∨ out.copies i = false then (false, [])
  else
    let tb := rt.table pl ahead bt
    let tiled := compute tb
    if tiled ≠ [] ∧ out.compute i = false then (false, tiled)
    else
      let coop := compute_coop tb bt.experts.length
      (coop = [] ∨ out.compute_coop i = true, tiled ++ coop)

/-- The loop over the batches: `batches[i]` is issued, then `batches[i - 1]` computed. -/
def batch_runs : Nat → Option Batch → List Batch → Bool × List MoeDispatch
  | _, none, [] => (true, [])
  | i, some prev, [] => rt.run_batch pl ahead out (i - 1) prev
  | i, none, bt :: bts =>
    if out.issue i then batch_runs (i + 1) (some bt) bts else (false, [])
  | i, some prev, bt :: bts =>
    if out.issue i = false then (false, [])
    else
      let r := rt.run_batch pl ahead out (i - 1) prev
      if r.1 = false then r
      else
        let rest := batch_runs (i + 1) (some bt) bts
        (rest.1, r.2 ++ rest.2)

/-- The routed half of `run_moe`: every expert's entry is found, then the batches run. -/
def run_moe : Bool × List MoeDispatch :=
  if ∃ e ∈ inp.used L ++ inp.blind_unused L ahead, (inp.require_expert L e).isOk = false then
    (false, [])
  else rt.batch_runs pl ahead out 0 none (inp.batches L ahead)

end Routing

/-! ### The sorted assignments -/

namespace Routing

variable {inp : Input} {L : Nat} (rt : Routing inp L)

/-- The assignments of one expert, in the order of the tokens. -/
def of_expert (e : Nat) : List Assignment := CountingSort.bucket rt.id rt.assignments e

/-- The positions of the matrix, row after row. -/
theorem assignments_index :
    rt.assignments.map (fun a => a.t * rt.k6 + a.s) = List.range (rt.rows * rt.k6) := by
  have hrows (n : Nat) : ((List.range n).flatMap fun t =>
      (List.range rt.k6).map fun s => (⟨t, s⟩ : Assignment)).map (fun a => a.t * rt.k6 + a.s) =
        List.range (n * rt.k6) := by
    induction n with
    | zero => rw [Nat.zero_mul]; rfl
    | succ n ih =>
      rw [List.range_succ, List.flatMap_append, List.map_append, ih, List.flatMap_singleton,
        List.map_map, Nat.succ_mul, List.range_add]
      rfl
  exact hrows rt.rows

theorem map_id : rt.assignments.map rt.id = inp.ids L := by
  have hmap : rt.assignments.map rt.id =
      (rt.assignments.map fun a => a.t * rt.k6 + a.s).map ((inp.ids L).getD · 0) := by
    rw [List.map_map]
    rfl
  rw [hmap, assignments_index, ← rt.length_ids, Region.map_getD_range]

theorem id_lt {a : Assignment} (ha : a ∈ rt.assignments) : rt.id a < inp.n_routed_experts := by
  apply rt.ids_lt
  rw [← rt.map_id]
  exact List.mem_map_of_mem ha

/-- The loop counts what the layer's routing has. -/
theorem count_eq (e : Nat) : rt.count e = inp.count L e := by
  have hlen : rt.count e = (rt.of_expert e).length := CountingSort.counts_eq rt.id rt.assignments e
  rw [hlen, Input.count, ← rt.map_id, of_expert, CountingSort.bucket, List.count, List.countP_map,
    List.countP_eq_length_filter]
  apply congrArg
  apply List.filter_congr
  intro a _
  exact (beq_eq_decide (rt.id a) e).symm

theorem length_of_expert (e : Nat) : (rt.of_expert e).length = rt.count e :=
  (CountingSort.counts_eq rt.id rt.assignments e).symm

theorem start_eq (e : Nat) : rt.start e = CountingSort.starts rt.count e := by
  induction e with
  | zero => rfl
  | succ e ih => rw [start, ih, CountingSort.starts]

theorem start_add_count_le {e : Nat} (he : e < inp.n_routed_experts) :
    rt.start e + rt.count e ≤ rt.shared_off := by
  have hall : (rt.assignments.filter fun a => rt.id a < inp.n_routed_experts) = rt.assignments := by
    rw [List.filter_eq_self]
    intro a ha
    exact decide_eq_true (rt.id_lt ha)
  have hlen : rt.assignments.length = rt.shared_off := by
    have hmap := congrArg List.length rt.assignments_index
    rwa [List.length_map, List.length_range] at hmap
  have hend : rt.start inp.n_routed_experts = rt.shared_off := by
    rw [rt.start_eq, ← hlen]
    exact (CountingSort.starts_counts rt.id rt.assignments _).trans (congrArg List.length hall)
  rw [← hend, rt.start_eq, rt.start_eq]
  change CountingSort.starts rt.count (e + 1) ≤ _
  exact CountingSort.starts_mono he

end Routing

/-- The two arrays as one of pairs. -/
def Csr.filled (m : Csr) : CountingSort.Fill (Nat × UInt32) where
  out := fun i => (m.csr i, m.rw i)
  next := m.fill

theorem Csr.filled_put (m : Csr) (e t : Nat) (w : UInt32) :
    (m.put e t w).filled = m.filled.put e (t, w) := by
  rw [filled, CountingSort.Fill.put, CountingSort.Fill.mk.injEq]
  constructor
  · funext i
    by_cases hi : i = m.fill e
    · subst hi
      rw [filled, Function.update_self, put]
      simp only [Function.update_self]
    · rw [filled, Function.update_of_ne hi, put]
      simp only [Function.update_of_ne hi]
  · rfl

namespace Routing

variable {inp : Input} {L : Nat} (rt : Routing inp L)

theorem filled_foldl (l : List Assignment) (m : Csr) :
    (l.foldl (fun m a => m.put (rt.id a) a.t (rt.wt a)) m).filled =
      CountingSort.fill rt.id (fun a => (a.t, rt.wt a)) m.filled l := by
  induction l generalizing m with
  | nil => rfl
  | cons a l ih =>
    rw [List.foldl_cons, ih, Csr.filled_put]
    rfl

theorem shared_rows_out (l : List Nat) (m : Csr) {i : Nat} (hi : i < rt.shared_off) :
    (l.foldl (fun m t => { m with
      csr := Function.update m.csr (rt.shared_off + t) t
      rw := Function.update m.rw (rt.shared_off + t) one_bits }) m).filled.out i =
      m.filled.out i := by
  induction l generalizing m with
  | nil => rfl
  | cons t l ih =>
    have hne : i ≠ rt.shared_off + t := by omega
    rw [List.foldl_cons, ih]
    simp only [Csr.filled, Function.update_of_ne hne]

/-- An expert's part of the CSR: its assignments in token order, with their weights. -/
theorem csr_of_expert {e : Nat} (he : e < inp.n_routed_experts) :
    Region.read rt.csr_by_expert.filled.out (rt.start e) (rt.count e) =
      (rt.of_expert e).map fun a => (a.t, rt.wt a) := by
  have hfilled := CountingSort.filled_fill rt.id (fun a => (a.t, rt.wt a)) rt.assignments
    fun _ => (0, 0)
  have hplaces := hfilled.places e
  have hend := rt.start_add_count_le he
  have hstart : rt.start = CountingSort.starts rt.count := funext rt.start_eq
  rw [← CountingSort.counts_eq] at hplaces
  rw [of_expert, ← hplaces]
  apply List.map_congr_left
  intro j hj
  have hj := List.mem_range.mp hj
  rw [csr_by_expert, rt.shared_rows_out _ _ (by omega), rt.filled_foldl, hstart]
  rfl

end Routing

/-! ### The job table of a batch -/

namespace Routing

variable {inp : Input} {L : Nat} (rt : Routing inp L) (pl : Places) (ahead : Nat → Option Nat)

/-- The jobs of some experts, the first with its h rows at `h`. -/
def jobs_from : Nat → List Nat → List PfJob
  | _, [] => []
  | h, e :: es => rt.job pl ahead e h :: jobs_from (h + rt.count e) es

theorem jobs_from_append (h : Nat) (es es' : List Nat) :
    rt.jobs_from pl ahead h (es ++ es') = rt.jobs_from pl ahead h es ++
      rt.jobs_from pl ahead (h + (es.map rt.count).sum) es' := by
  induction es generalizing h with
  | nil => rfl
  | cons e es ih =>
    rw [List.cons_append, jobs_from, ih, jobs_from, List.map_cons, List.sum_cons, Nat.add_assoc]
    rfl

theorem length_jobs_from (h : Nat) (es : List Nat) :
    (rt.jobs_from pl ahead h es).length = es.length := by
  induction es generalizing h with
  | nil => rfl
  | cons e es ih => rw [jobs_from, List.length_cons, ih, List.length_cons]

theorem foldl_add_job (es : List Nat) (tb : JobTable) :
    (es.foldl (rt.add_job pl ahead) tb).jobs = tb.jobs ++ rt.jobs_from pl ahead tb.h_off es ∧
    (es.foldl (rt.add_job pl ahead) tb).n_small = tb.n_small + (es.filter rt.small).length := by
  induction es generalizing tb with
  | nil => exact ⟨(List.append_nil _).symm, rfl⟩
  | cons e es ih =>
    obtain ⟨hjobs, hsmall⟩ := ih (rt.add_job pl ahead tb e)
    have hstep : (rt.add_job pl ahead tb e).n_small =
        if rt.small e then tb.n_small + 1 else tb.n_small := rfl
    rw [List.foldl_cons, hjobs, hsmall, jobs_from]
    constructor
    · rw [add_job, List.append_assoc, List.singleton_append]
    · rw [hstep, List.filter_cons]
      split
      · rw [List.length_cons]
        omega
      · rfl

theorem foldl_add_small {es : List Nat} (h : ∀ e ∈ es, rt.small e = true) (tb : JobTable)
    (htb : tb.h_small = tb.h_off) :
    (es.foldl (rt.add_job pl ahead) tb).h_small = tb.h_off + (es.map rt.count).sum := by
  induction es generalizing tb with
  | nil => exact htb
  | cons e es ih =>
    have hstep : (rt.add_job pl ahead tb e).h_small = (rt.add_job pl ahead tb e).h_off :=
      if_pos (h e List.mem_cons_self)
    have hrec := ih (fun e he => h e (List.mem_cons_of_mem _ he)) _ hstep
    rw [List.foldl_cons, hrec, List.map_cons, List.sum_cons, ← Nat.add_assoc]
    rfl

/-- Over the others it stays. -/
theorem foldl_add_large {es : List Nat} (h : ∀ e ∈ es, rt.small e = false) (tb : JobTable) :
    (es.foldl (rt.add_job pl ahead) tb).h_small = tb.h_small := by
  induction es generalizing tb with
  | nil => rfl
  | cons e es ih =>
    have hsmall : ¬ rt.small e = true := by
      rw [h e List.mem_cons_self]
      exact Bool.false_ne_true
    have hstep : (rt.add_job pl ahead tb e).h_small = tb.h_small := if_neg hsmall
    rw [List.foldl_cons, ih fun e he => h e (List.mem_cons_of_mem _ he), hstep]

/-- The small experts of a batch, and the others. -/
def smalls (bt : Batch) : List Nat := bt.experts.filter rt.small

def larges (bt : Batch) : List Nat := bt.experts.filter fun e => !rt.small e

theorem small_of_mem {bt : Batch} {e : Nat} (h : e ∈ rt.smalls bt) : rt.small e = true :=
  (List.mem_filter.mp h).2

theorem not_small_of_mem {bt : Batch} {e : Nat} (h : e ∈ rt.larges bt) : rt.small e = false := by
  have hnot := (List.mem_filter.mp h).2
  simpa using hnot

theorem length_smalls_add_larges (bt : Batch) :
    (rt.smalls bt).length + (rt.larges bt).length = bt.experts.length := by
  rw [← List.length_append]
  exact (List.filter_append_perm rt.small bt.experts).length_eq

theorem order_perm (bt : Batch) : (rt.order bt).Perm bt.experts :=
  List.filter_append_perm rt.small bt.experts

/-- The h row where the first large expert starts. -/
def h_large (bt : Batch) : Nat := ((rt.smalls bt).map rt.count).sum

theorem table_jobs (bt : Batch) : (rt.table pl ahead bt).jobs =
    rt.jobs_from pl ahead 0 (rt.smalls bt) ++
      rt.jobs_from pl ahead (rt.h_large bt) (rt.larges bt) := by
  have hjobs := (rt.foldl_add_job pl ahead (rt.order bt) {}).1
  rw [table, hjobs]
  have happend := rt.jobs_from_append pl ahead 0 (rt.smalls bt) (rt.larges bt)
  rw [Nat.zero_add] at happend
  exact happend

theorem table_n_small (bt : Batch) : (rt.table pl ahead bt).n_small = (rt.smalls bt).length := by
  have hsmall := (rt.foldl_add_job pl ahead (rt.order bt) {}).2
  have hfirst : (rt.smalls bt).filter rt.small = rt.smalls bt :=
    List.filter_eq_self.mpr fun e he => rt.small_of_mem he
  have hsecond : (rt.larges bt).filter rt.small = [] := by
    rw [List.filter_eq_nil_iff]
    intro e he
    rw [rt.not_small_of_mem he]
    exact Bool.false_ne_true
  have horder : (rt.order bt).filter rt.small = rt.smalls bt := by
    change (rt.smalls bt ++ rt.larges bt).filter rt.small = _
    rw [List.filter_append, hfirst, hsecond, List.append_nil]
  rw [table, hsmall, horder]
  exact Nat.zero_add _

theorem table_h_small (bt : Batch) : (rt.table pl ahead bt).h_small = rt.h_large bt := by
  have horder : rt.order bt = rt.smalls bt ++ rt.larges bt := rfl
  rw [table, horder, List.foldl_append,
    rt.foldl_add_large pl ahead fun e he => rt.not_small_of_mem he,
    rt.foldl_add_small pl ahead (fun e he => rt.small_of_mem he) _ rfl]
  exact Nat.zero_add _

/-- The jobs the tiled path gets. -/
theorem range_small (bt : Batch) :
    (rt.table pl ahead bt).range 1 (1 + (rt.table pl ahead bt).n_small) =
      rt.jobs_from pl ahead 0 (rt.smalls bt) := by
  rw [JobTable.range, rt.table_jobs, rt.table_n_small, Nat.sub_self, List.drop_zero,
    Nat.add_sub_cancel_left, List.take_left' (rt.length_jobs_from pl ahead _ _)]

/-- The jobs the cooperative path gets. -/
theorem range_large (bt : Batch) :
    (rt.table pl ahead bt).range (1 + (rt.table pl ahead bt).n_small) (1 + bt.experts.length) =
      rt.jobs_from pl ahead (rt.h_large bt) (rt.larges bt) := by
  have hlen := rt.length_smalls_add_larges bt
  rw [JobTable.range, rt.table_jobs, rt.table_n_small, Nat.add_sub_cancel_left,
    List.drop_left' (rt.length_jobs_from pl ahead _ _), List.take_of_length_le]
  rw [rt.length_jobs_from]
  omega

end Routing

/-! ### What is dispatched -/

/-- Jobs whose h rows follow each other from `h` on. -/
def Contiguous : Nat → List PfJob → Prop
  | _, [] => True
  | h, j :: js => j.h_off = h ∧ Contiguous (h + j.n) js

theorem Contiguous.le {h : Nat} {js : List PfJob} (hc : Contiguous h js) :
    ∀ j ∈ js, h ≤ j.h_off := by
  induction js generalizing h with
  | nil => exact fun _ hj => absurd hj List.not_mem_nil
  | cons j js ih =>
    intro j' hj'
    rcases List.mem_cons.mp hj' with rfl | hj'
    · exact hc.1.ge
    · exact (Nat.le_add_right h j.n).trans (ih hc.2 j' hj')

theorem Contiguous.apart {h : Nat} {js : List PfJob} (hc : Contiguous h js) :
    js.Pairwise fun j j' => j.h_off + j.n ≤ j'.h_off := by
  induction js generalizing h with
  | nil => exact .nil
  | cons j js ih =>
    refine .cons ?_ (ih hc.2)
    intro j' hj'
    rw [hc.1]
    exact hc.2.le j' hj'

namespace Routing

variable {inp : Input} {L : Nat} (rt : Routing inp L) (pl : Places) (ahead : Nat → Option Nat)
  (out : Outcomes)

theorem contiguous_jobs_from (h : Nat) (es : List Nat) :
    Contiguous h (rt.jobs_from pl ahead h es) := by
  induction es generalizing h with
  | nil => exact trivial
  | cons e es ih => exact ⟨rfl, ih _⟩

def small_jobs (bt : Batch) : List PfJob :=
  (rt.table pl ahead bt).jobs.filter fun j => j.n < inp.pcfg.coopmat_min_rows

def large_jobs (bt : Batch) : List PfJob :=
  (rt.table pl ahead bt).jobs.filter fun j => inp.pcfg.coopmat_min_rows ≤ j.n

/-- A dispatch of batch `bt`: the jobs below the threshold, numbered first, go to the tiled
    path, which quantises just their h rows, and the others to the cooperative one. -/
inductive OfBatch (bt : Batch) : MoeDispatch → Prop where
  | tiled : OfBatch bt ⟨.tiled ((rt.small_jobs pl ahead bt).map PfJob.n).sum, 1,
      rt.small_jobs pl ahead bt⟩
  | coop : OfBatch bt ⟨.coop, 1 + (rt.small_jobs pl ahead bt).length, rt.large_jobs pl ahead bt⟩

theorem map_n_jobs_from (h : Nat) (es : List Nat) :
    (rt.jobs_from pl ahead h es).map PfJob.n = es.map rt.count := by
  induction es generalizing h with
  | nil => rfl
  | cons e es ih =>
    rw [jobs_from, List.map_cons, ih, List.map_cons]
    rfl

theorem mem_jobs_from {h : Nat} {es : List Nat} {j : PfJob} (hj : j ∈ rt.jobs_from pl ahead h es) :
    ∃ e ∈ es, j.n = rt.count e := by
  have hn : j.n ∈ es.map rt.count := by
    rw [← rt.map_n_jobs_from pl ahead h]
    exact List.mem_map_of_mem hj
  obtain ⟨e, he, heq⟩ := List.mem_map.mp hn
  exact ⟨e, he, heq.symm⟩

theorem lt_of_small {h : Nat} {bt : Batch} {j : PfJob}
    (hj : j ∈ rt.jobs_from pl ahead h (rt.smalls bt)) : j.n < inp.pcfg.coopmat_min_rows := by
  obtain ⟨e, he, hn⟩ := rt.mem_jobs_from pl ahead hj
  rw [hn]
  exact of_decide_eq_true (rt.small_of_mem he)

theorem le_of_large {h : Nat} {bt : Batch} {j : PfJob}
    (hj : j ∈ rt.jobs_from pl ahead h (rt.larges bt)) : inp.pcfg.coopmat_min_rows ≤ j.n := by
  obtain ⟨e, he, hn⟩ := rt.mem_jobs_from pl ahead hj
  rw [hn]
  exact Nat.le_of_not_lt (of_decide_eq_false (rt.not_small_of_mem he))

theorem small_jobs_eq (bt : Batch) :
    rt.small_jobs pl ahead bt = rt.jobs_from pl ahead 0 (rt.smalls bt) := by
  rw [small_jobs, table_jobs, List.filter_append, List.filter_eq_self.mpr,
    List.filter_eq_nil_iff.mpr, List.append_nil]
  · intro j hj
    have hle := rt.le_of_large pl ahead hj
    simpa using hle
  · intro j hj
    exact decide_eq_true (rt.lt_of_small pl ahead hj)

theorem large_jobs_eq (bt : Batch) :
    rt.large_jobs pl ahead bt = rt.jobs_from pl ahead (rt.h_large bt) (rt.larges bt) := by
  rw [large_jobs, table_jobs, List.filter_append, List.filter_eq_nil_iff.mpr, List.nil_append,
    List.filter_eq_self.mpr]
  · intro j hj
    exact decide_eq_true (rt.le_of_large pl ahead hj)
  · intro j hj
    have hlt := rt.lt_of_small pl ahead hj
    simpa using hlt

/-- The jobs below the threshold are numbered first. -/
theorem table_split (bt : Batch) : (rt.table pl ahead bt).jobs =
    rt.small_jobs pl ahead bt ++ rt.large_jobs pl ahead bt := by
  rw [small_jobs_eq, large_jobs_eq, table_jobs]

theorem table_contiguous (bt : Batch) : Contiguous 0 (rt.table pl ahead bt).jobs := by
  have hjobs := (rt.foldl_add_job pl ahead (rt.order bt) {}).1
  rw [table, hjobs]
  exact rt.contiguous_jobs_from pl ahead 0 (rt.order bt)

theorem compute_jobs (bt : Batch) :
    (compute (rt.table pl ahead bt)).flatMap MoeDispatch.jobs = rt.small_jobs pl ahead bt ∧
    ∀ d ∈ compute (rt.table pl ahead bt), rt.OfBatch pl ahead bt d := by
  unfold compute
  split
  · have htiled : (⟨.tiled (rt.table pl ahead bt).h_small, 1, (rt.table pl ahead bt).range 1
        (1 + (rt.table pl ahead bt).n_small)⟩ : MoeDispatch) =
        ⟨.tiled ((rt.small_jobs pl ahead bt).map PfJob.n).sum, 1, rt.small_jobs pl ahead bt⟩ := by
      rw [range_small, table_h_small, small_jobs_eq, map_n_jobs_from, h_large]
    rw [htiled]
    constructor
    · exact List.append_nil _
    · intro d hd
      rw [List.mem_singleton.mp hd]
      exact .tiled
  · next hnone =>
    rw [table_n_small] at hnone
    have hempty : rt.smalls bt = [] := List.length_eq_zero_iff.mp (by omega)
    rw [small_jobs_eq, hempty]
    exact ⟨rfl, fun d hd => absurd hd List.not_mem_nil⟩

theorem compute_coop_jobs (bt : Batch) :
    (compute_coop (rt.table pl ahead bt) bt.experts.length).flatMap MoeDispatch.jobs =
      rt.large_jobs pl ahead bt ∧
    ∀ d ∈ compute_coop (rt.table pl ahead bt) bt.experts.length, rt.OfBatch pl ahead bt d := by
  have hlen := rt.length_smalls_add_larges bt
  unfold compute_coop
  split
  · have hcoop : (⟨.coop, 1 + (rt.table pl ahead bt).n_small, (rt.table pl ahead bt).range
        (1 + (rt.table pl ahead bt).n_small) (1 + bt.experts.length)⟩ : MoeDispatch) =
        ⟨.coop, 1 + (rt.small_jobs pl ahead bt).length, rt.large_jobs pl ahead bt⟩ := by
      rw [range_large, table_n_small, small_jobs_eq, large_jobs_eq, length_jobs_from]
    rw [hcoop]
    constructor
    · exact List.append_nil _
    · intro d hd
      rw [List.mem_singleton.mp hd]
      exact .coop
  · next hnone =>
    rw [table_n_small] at hnone
    have hempty : rt.larges bt = [] := List.length_eq_zero_iff.mp (by omega)
    rw [large_jobs_eq, hempty]
    exact ⟨rfl, fun d hd => absurd hd List.not_mem_nil⟩

/-- A run over `bts` submits the jobs of these batches in order, all of them if it
    succeeds, and nothing else. -/
structure Submits (bts : List Batch) (r : Bool × List MoeDispatch) : Prop where
  part : r.2.flatMap MoeDispatch.jobs <+: bts.flatMap fun bt => (rt.table pl ahead bt).jobs
  all : r.1 = true →
    r.2.flatMap MoeDispatch.jobs = bts.flatMap fun bt => (rt.table pl ahead bt).jobs
  each : ∀ d ∈ r.2, ∃ bt ∈ bts, rt.OfBatch pl ahead bt d

theorem Submits.failed (bts : List Batch) : rt.Submits pl ahead bts (false, []) where
  part := List.nil_prefix
  all := fun h => absurd h Bool.false_ne_true
  each := fun _ hd => absurd hd List.not_mem_nil

theorem submits_batch (i : Nat) (bt : Batch) :
    rt.Submits pl ahead [bt] (rt.run_batch pl ahead out i bt) := by
  obtain ⟨htiled, heach⟩ := rt.compute_jobs pl ahead bt
  obtain ⟨hcoop, heach'⟩ := rt.compute_coop_jobs pl ahead bt
  have hone : ([bt].flatMap fun bt => (rt.table pl ahead bt).jobs) =
      rt.small_jobs pl ahead bt ++ rt.large_jobs pl ahead bt := by
    rw [List.flatMap_singleton, table_split]
  unfold run_batch
  split
  · exact .failed rt pl ahead [bt]
  · dsimp only
    split
    · constructor
      · rw [htiled, hone]
        exact List.prefix_append _ _
      · exact fun h => absurd h Bool.false_ne_true
      · intro d hd
        exact ⟨bt, List.mem_singleton_self bt, heach d hd⟩
    · have hboth : (compute (rt.table pl ahead bt) ++ compute_coop (rt.table pl ahead bt)
          bt.experts.length).flatMap MoeDispatch.jobs =
          [bt].flatMap fun bt => (rt.table pl ahead bt).jobs := by
        rw [List.flatMap_append, htiled, hcoop, hone]
      constructor
      · rw [hboth]
      · exact fun _ => hboth
      · intro d hd
        refine ⟨bt, List.mem_singleton_self bt, ?_⟩
        rcases List.mem_append.mp hd with hd | hd
        · exact heach d hd
        · exact heach' d hd

variable {rt pl ahead}

/-- One batch after the other. -/
theorem Submits.append {bts bts' : List Batch} {ds : List MoeDispatch}
    {r : Bool × List MoeDispatch} (h : rt.Submits pl ahead bts (true, ds))
    (h' : rt.Submits pl ahead bts' r) : rt.Submits pl ahead (bts ++ bts') (r.1, ds ++ r.2) where
  part := by
    rw [List.flatMap_append, List.flatMap_append, h.all rfl, List.prefix_append_right_inj]
    exact h'.part
  all := by
    intro hr
    rw [List.flatMap_append, List.flatMap_append, h.all rfl, h'.all hr]
  each := by
    intro d hd
    rcases List.mem_append.mp hd with hd | hd
    · obtain ⟨bt, hbt, hof⟩ := h.each d hd
      exact ⟨bt, List.mem_append_left _ hbt, hof⟩
    · obtain ⟨bt, hbt, hof⟩ := h'.each d hd
      exact ⟨bt, List.mem_append_right _ hbt, hof⟩

/-- A failure leaves the batches behind it alone. -/
theorem Submits.stop {bts : List Batch} (bts' : List Batch) {ds : List MoeDispatch}
    (h : rt.Submits pl ahead bts (false, ds)) :
    rt.Submits pl ahead (bts ++ bts') (false, ds) where
  part := by
    rw [List.flatMap_append]
    exact h.part.trans (List.prefix_append _ _)
  all := fun h => absurd h Bool.false_ne_true
  each := by
    intro d hd
    obtain ⟨bt, hbt, hof⟩ := h.each d hd
    exact ⟨bt, List.mem_append_left _ hbt, hof⟩

variable (rt pl ahead)

/-- The loop, with the batch that is issued and not yet computed. -/
theorem submits_runs (i : Nat) (prev : Option Batch) (bts : List Batch) :
    rt.Submits pl ahead (prev.toList ++ bts) (rt.batch_runs pl ahead out i prev bts) := by
  induction bts generalizing i prev with
  | nil =>
    cases prev with
    | none => exact ⟨List.nil_prefix, fun _ => rfl, fun _ hd => absurd hd List.not_mem_nil⟩
    | some prev => exact rt.submits_batch pl ahead out (i - 1) prev
  | cons bt bts ih =>
    cases prev with
    | none =>
      rw [batch_runs]
      split
      · exact ih (i + 1) (some bt)
      · exact .failed rt pl ahead _
    | some prev =>
      rw [batch_runs]
      split
      · exact .failed rt pl ahead _
      · have hprev := rt.submits_batch pl ahead out (i - 1) prev
        dsimp only
        split
        · next hfail =>
          have hr : rt.run_batch pl ahead out (i - 1) prev =
              (false, (rt.run_batch pl ahead out (i - 1) prev).2) := Prod.ext hfail rfl
          rw [hr] at hprev ⊢
          exact hprev.stop (bt :: bts)
        · next hok =>
          have hr : rt.run_batch pl ahead out (i - 1) prev =
              (true, (rt.run_batch pl ahead out (i - 1) prev).2) :=
            Prod.ext (Bool.eq_true_of_not_eq_false hok) rfl
          rw [hr] at hprev
          exact hprev.append (ih (i + 1) (some bt))

theorem submits_moe :
    rt.Submits pl ahead (inp.batches L ahead) (rt.run_moe pl ahead out) := by
  unfold run_moe
  split
  · exact .failed rt pl ahead _
  · exact rt.submits_runs pl ahead out 0 none _

end Routing

/-! ### Every assignment, once -/

def PfJob.addr (j : PfJob) : ExpertPart → Nat
  | .W1Weight => j.w1
  | .W1Scale => j.s1
  | .W2Weight => j.w2
  | .W2Scale => j.s2
  | .W3Weight => j.w3
  | .W3Scale => j.s3

namespace Routing

variable {inp : Input} {L : Nat} (rt : Routing inp L) (pl : Places) (ahead : Nat → Option Nat)
  (out : Outcomes)

/-- Job `j` computes expert `e`: its weights are in that expert's slot, and its part of the
    CSR lists the expert's assignments with their own weights, tokens in order. -/
structure Serves (e : Nat) (j : PfJob) : Prop where
  weights : ∀ p, j.addr p = inp.expert_base L pl ahead e + inp.offset_of L e p
  rows : Region.read (fun i => (rt.csr_by_expert.csr i, rt.csr_by_expert.rw i)) j.rows_off j.n =
    (rt.of_expert e).map fun a => (a.t, rt.wt a)
  sorted : (rt.of_expert e).Pairwise fun a a' => a.t ≤ a'.t

theorem assignments_sorted : rt.assignments.Pairwise fun a a' => a.t ≤ a'.t := by
  rw [assignments, List.pairwise_flatMap]
  constructor
  · intro t _
    rw [List.pairwise_map]
    exact List.pairwise_of_forall fun _ _ => le_rfl
  · apply List.pairwise_lt_range.imp
    intro t t' hlt a ha a' ha'
    obtain ⟨s, -, rfl⟩ := List.mem_map.mp ha
    obtain ⟨s', -, rfl⟩ := List.mem_map.mp ha'
    exact hlt.le

theorem serves_jobs_from {es : List Nat} (hes : ∀ e ∈ es, e < inp.n_routed_experts) (h : Nat) :
    List.Forall₂ (rt.Serves pl ahead) es (rt.jobs_from pl ahead h es) := by
  induction es generalizing h with
  | nil => exact .nil
  | cons e es ih =>
    refine .cons ?_ (ih (fun e he => hes e (List.mem_cons_of_mem _ he)) _)
    constructor
    · intro p
      cases p with
      | _ => rfl
    · exact rt.csr_of_expert (hes e List.mem_cons_self)
    · exact rt.assignments_sorted.filter _

/-- The experts of some batches, in the order their jobs are numbered. -/
def computed (bts : List Batch) : List Nat := bts.flatMap rt.order

theorem serves_batches {bts : List Batch} (hes : ∀ e ∈ rt.computed bts, e < inp.n_routed_experts) :
    List.Forall₂ (rt.Serves pl ahead) (rt.computed bts)
      (bts.flatMap fun bt => (rt.table pl ahead bt).jobs) := by
  induction bts with
  | nil => exact .nil
  | cons bt bts ih =>
    rw [computed, List.flatMap_cons, List.flatMap_cons]
    apply List.rel_append
    · have hjobs := (rt.foldl_add_job pl ahead (rt.order bt) {}).1
      rw [table, hjobs]
      exact rt.serves_jobs_from pl ahead (fun e he => hes e (List.mem_append_left _ he)) 0
    · exact ih fun e he => hes e (List.mem_append_right _ he)

theorem computed_perm : (rt.computed (inp.batches L ahead)).Perm (inp.used L) := by
  have horder (bts : List Batch) : (rt.computed bts).Perm (experts_of bts) := by
    induction bts with
    | nil => exact .refl _
    | cons bt bts ih => exact (rt.order_perm bt).append ih
  refine (horder _).trans ?_
  rw [experts_batches, Input.used_ahead, Input.used_rest]
  exact (List.filter_append_perm _ _).trans (List.perm_insertionSort _ _)

theorem used_assignments : ((inp.used L).flatMap rt.of_expert).Perm rt.assignments := by
  have hused (l : List Nat) : (l.filter fun e => inp.count L e ≠ 0).flatMap rt.of_expert =
      l.flatMap rt.of_expert := by
    induction l with
    | nil => rfl
    | cons e l ih =>
      rw [List.filter_cons, List.flatMap_cons]
      split
      · rw [List.flatMap_cons, ih]
      · next hzero =>
        have hcount : inp.count L e = 0 := by simpa using hzero
        rw [← rt.count_eq, ← rt.length_of_expert, List.length_eq_zero_iff] at hcount
        rw [ih, hcount, List.nil_append]
  rw [Input.used, hused]
  refine (CountingSort.flatMap_bucket_perm rt.id rt.assignments _).trans (.of_eq ?_)
  rw [List.filter_eq_self]
  intro a ha
  exact decide_eq_true (rt.id_lt ha)

/-- What a layer's dispatches are to do: the jobs serve the experts `es`, whose assignments
    with the `rest` are the whole matrix, and nothing is left when the run succeeds. -/
structure JobsExact (r : Bool × List MoeDispatch) : Prop where
  assigned : ∃ es rest, List.Forall₂ (rt.Serves pl ahead) es (r.2.flatMap MoeDispatch.jobs) ∧
    (es.flatMap rt.of_expert ++ rest).Perm rt.assignments ∧ (r.1 = true → rest = [])
  dispatched : ∀ d ∈ r.2, ∃ bt ∈ inp.batches L ahead, rt.OfBatch pl ahead bt d
  small_first : ∀ bt, (rt.table pl ahead bt).jobs =
    rt.small_jobs pl ahead bt ++ rt.large_jobs pl ahead bt
  contiguous : ∀ bt, Contiguous 0 (rt.table pl ahead bt).jobs
  apart : ∀ bt, (rt.table pl ahead bt).jobs.Pairwise fun j j' => j.h_off + j.n ≤ j'.h_off

theorem jobs_exact : rt.JobsExact pl ahead (rt.run_moe pl ahead out) where
  assigned := by
    have hsub := rt.submits_moe pl ahead out
    have hperm := rt.computed_perm ahead
    have hlt : ∀ e ∈ rt.computed (inp.batches L ahead), e < inp.n_routed_experts := fun e he =>
      List.mem_range.mp (List.mem_filter.mp (hperm.subset he)).1
    have hserves := rt.serves_batches pl ahead hlt
    let n := ((rt.run_moe pl ahead out).2.flatMap MoeDispatch.jobs).length
    refine ⟨(rt.computed (inp.batches L ahead)).take n,
      ((rt.computed (inp.batches L ahead)).drop n).flatMap rt.of_expert, ?_, ?_, ?_⟩
    · rw [List.prefix_iff_eq_take.mp hsub.part]
      exact List.forall₂_take n hserves
    · rw [← List.flatMap_append, List.take_append_drop]
      exact (hperm.flatMap_right _).trans rt.used_assignments
    · intro hok
      have hlen : n = (rt.computed (inp.batches L ahead)).length := by
        rw [hserves.length_eq, ← hsub.all hok]
      rw [hlen, List.drop_length]
      rfl
  dispatched := (rt.submits_moe pl ahead out).each
  small_first := rt.table_split pl ahead
  contiguous := rt.table_contiguous pl ahead
  apart := fun bt => (rt.table_contiguous pl ahead bt).apart

variable (inp L) in
/-- Every expert that is asked for is in the manifest, and no step of a batch fails. -/
structure NothingFails : Prop where
  require_expert : ∀ e ∈ inp.used L ++ inp.blind_unused L ahead, (inp.require_expert L e).isOk = true
  issue : ∀ i, out.issue i = true
  reads : ∀ i, out.reads i = true
  copies : ∀ i, out.copies i = true
  compute : ∀ i, out.compute i = true
  compute_coop : ∀ i, out.compute_coop i = true

section Success

variable {ahead out} (h : NothingFails inp L ahead out)

include h

theorem run_batch_succeeds (i : Nat) (bt : Batch) : (rt.run_batch pl ahead out i bt).1 = true := by
  have hlanded : ¬ (out.reads i = false ∨ out.copies i = false) := by
    rw [h.reads, h.copies]
    decide
  have htiled : ¬ (compute (rt.table pl ahead bt) ≠ [] ∧ out.compute i = false) := by
    rw [h.compute]
    exact fun hfail => Bool.noConfusion hfail.2
  unfold run_batch
  rw [if_neg hlanded]
  dsimp only
  rw [if_neg htiled]
  exact decide_eq_true (.inr (h.compute_coop i))

theorem batch_runs_succeed (i : Nat) (prev : Option Batch) (bts : List Batch) :
    (rt.batch_runs pl ahead out i prev bts).1 = true := by
  induction bts generalizing i prev with
  | nil =>
    cases prev with
    | none => rfl
    | some prev => exact rt.run_batch_succeeds pl h (i - 1) prev
  | cons bt bts ih =>
    cases prev with
    | none =>
      rw [batch_runs, if_pos (h.issue i)]
      exact ih (i + 1) (some bt)
    | some prev =>
      have hprev := rt.run_batch_succeeds pl h (i - 1) prev
      rw [batch_runs, if_neg (by rw [h.issue]; decide)]
      dsimp only
      rw [if_neg (by rw [hprev]; decide)]
      exact ih (i + 1) (some bt)

theorem run_moe_succeeds : (rt.run_moe pl ahead out).1 = true := by
  have hfound : ¬ ∃ e ∈ inp.used L ++ inp.blind_unused L ahead,
      (inp.require_expert L e).isOk = false := by
    rintro ⟨e, he, hno⟩
    rw [h.require_expert e he] at hno
    cases hno
  rw [run_moe, if_neg hfound]
  exact rt.batch_runs_succeed pl h 0 none _

end Success

/-- The jobs compute each assignment once; where nothing fails, the layer succeeds, so that no
    assignment is left. -/
theorem moe_jobs_exact : rt.JobsExact pl ahead (rt.run_moe pl ahead out) ∧
    (NothingFails inp L ahead out → (rt.run_moe pl ahead out).1 = true) :=
  ⟨rt.jobs_exact pl ahead out, rt.run_moe_succeeds pl⟩

end Routing

/-! ### Three tokens and three experts -/

/-- Two experts for each token. Expert 1 is below the threshold; with two slots it is computed
    beside expert 0, and expert 2 in a batch of its own. -/
def three_tokens : Input where
  prompt_size := 3
  num_hidden_layers := 1
  n_routed_experts := 3
  pcfg := { transit_slots := 2, replay := 1, coopmat_min_rows := 2, transit_slots_pos := Nat.two_pos }
  ids := fun _ => [0, 1, 2, 0, 0, 2]
  require_expert := fun _ e =>
    .ok ⟨[⟨0, 4096 * e, 4096, 0⟩], 1, fun _ => 0, fun _ => 0, fun _ => Nat.one_pos⟩
  require_file := fun _ => .ok ()
  submit_future := fun _ => .ok ()
  result := fun _ => .ok ()
  resident := fun _ _ => false
  admit_streamed := fun _ _ => .ok {}
  ahead_segments := fun _ => 2
  op := fun _ => .ok ()

def three_routed : Routing three_tokens 0 where
  rows := 3
  k6 := 2
  wts := [10, 11, 12, 13, 14, 15]
  length_ids := rfl
  ids_lt := by decide

def no_places : Places := ⟨fun _ => {}, fun _ => 0, fun slot => 4096 * slot⟩

def all_well : Outcomes := ⟨fun _ => true, fun _ => true, fun _ => true, fun _ => true, fun _ => true⟩

/-- Three dispatches, one of them for the tiled path, compute all six assignments. -/
theorem moe_jobs_exact_three : ∃ es,
    List.Forall₂ (three_routed.Serves no_places fun _ => none) es
      ((three_routed.run_moe no_places (fun _ => none) all_well).2.flatMap MoeDispatch.jobs) ∧
    (es.flatMap three_routed.of_expert).Perm three_routed.assignments ∧
    (three_routed.run_moe no_places (fun _ => none) all_well).2.map MoeDispatch.path =
      [.tiled 1, .coop, .coop] := by
  obtain ⟨hexact, hsucceeds⟩ := three_routed.moe_jobs_exact no_places (fun _ => none) all_well
  obtain ⟨es, rest, hserves, hperm, hrest⟩ := hexact.assigned
  have hok := hsucceeds ⟨by decide +kernel, fun _ => rfl, fun _ => rfl, fun _ => rfl,
    fun _ => rfl, fun _ => rfl⟩
  rw [hrest hok, List.append_nil] at hperm
  exact ⟨es, hserves, hperm, by decide +kernel⟩

end CachedMoe.Gpu
