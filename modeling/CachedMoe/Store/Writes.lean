import CachedMoe.Store.Moves
import Mathlib.Logic.Relation

/-! # The writes of an operation

    What the operations of the store do to it, write by write: each operation that keeps the
    contents is a sequence of `Write`s (`apply_writes`). A property of the fields that the moves
    do not speak of is proved for one write at a time, and `apply_of_writes` carries it over to
    the operations. -/

namespace CachedMoe.Store

open CachedMoe ExpertStore

/-- The operation finds an expert in slot `i` and stamps it as used. -/
def Op.uses (st : ExpertStore) (i : Nat) : Op → Bool
  | .lookup key .. => st.index key = some i && (st.slots i).state = .Resident
  | .touch key _ include_filling => st.index key = some i &&
      ((st.slots i).state = .Resident || (include_filling && (st.slots i).state = .Filling))
  | _ => false

/-- One write of `op`, with what `op` has checked before it. -/
inductive Write : Op → ExpertStore → ExpertStore → Prop where
  | count (op : Op) (st : ExpertStore) (stats : ExpertStoreStats) :
      Write op st { st with stats := stats }
  | path_b (st : ExpertStore) (slab : Nat) :
      Write (.set_path_b_first_slab slab) st { st with path_b_first_slab := slab }
  | evict_path (st : ExpertStore) (path : EvictPath) :
      Write (.set_evict_path path) st { st with evict_path := path }
  | fix (st : ExpertStore) (enabled : Bool) :
      Write (.set_fixed_cache enabled) st (st.set_fixed_cache enabled)
  | complete (st : ExpertStore) (v : Nat) (later : st.completed_timeline < v) :
      Write (.set_completed_timeline v) st { st with completed_timeline := v }
  | guard_all (st : ExpertStore) (guard : Nat) :
      Write (.guarded_snapshot guard) st { st with slots := fun i =>
        let s := st.slots i
        if s.state = .Resident then { s with guard_timeline := max s.guard_timeline guard } else s }
  /-- An expert is used: its stamp, and its guard where the use has one. -/
  | stamp (op : Op) (st : ExpertStore) (i token guard : Nat) (uses : op.uses st i = true)
      (guarded : (st.slots i).guard_timeline ≤ guard) :
      Write op st (st.set_slot i
        { st.slots i with last_use_token := token, guard_timeline := guard })
  | guard (op : Op) (st : ExpertStore) (i guard : Nat)
      (guarded : (st.slots i).guard_timeline ≤ guard) :
      Write op st (st.set_slot i { st.slots i with guard_timeline := guard })
  | note (st : ExpertStore) (key : ExpertKey) (score alpha : ℚ) (i : Nat)
      (held : st.index key = some i) :
      Write (.note_heat key score alpha) st (st.set_slot i
        { st.slots i with heat := (1 - alpha) * (st.slots i).heat + alpha * score })
  | decay (st : ExpertStore) (factor : ℚ) (ages : factor < 1) (warm : 0 < st.heat_max) :
      Write (.decay_heat factor) st { st with slots := fun i =>
        { st.slots i with heat := (st.slots i).heat * (1 / st.heat_max) } }
  | pin (st : ExpertStore) (key : ExpertKey) (i : Nat) (held : st.index key = some i)
      (resident : (st.slots i).state = .Resident) :
      Write (.pin key) st (st.set_slot i { st.slots i with tier := .Pinned })
  | reserve (op : Op) (st : ExpertStore) (key : ExpertKey) (tier : Tier) (slot : Nat)
      (rest : List Nat) (begins : op.begins = some key) (absent : st.index key = none)
      (free : st.free_list = slot :: rest) :
      Write op st (taken st key tier slot rest)
  | lay_out (op : Op) (st : ExpertStore) (slot total : Nat)
      (part_offset part_bytes : ExpertPart → Nat) :
      Write op st (st.set_slot slot (laid_out (st.slots slot) total part_offset part_bytes))
  /-- Runs of a fill are reported. -/
  | land (op : Op) (st : ExpertStore) (slot done : Nat) (failed : Bool)
      (reports : op.finishes = some slot) (filling : (st.slots slot).state = .Filling) :
      Write op st (st.set_slot slot { st.slots slot with runs_done := done, run_failed := failed })
  | settle (op : Op) (st : ExpertStore) (slot : Nat) (ok : Bool) (token : Nat)
      (reports : op.finishes = some slot) (filling : (st.slots slot).state = .Filling) :
      Write op st (st.settle_locked slot ok token)
  | recycle (op : Op) (st : ExpertStore) (slot : Nat) (unfixed : st.fixed_cache = false)
      (lt : slot < st.slots_size) (evictable : st.is_evictable (st.slots slot) = true) :
      Write op st (st.recycle slot)

/-- The writes of `op`, one after the other. -/
def Writes (op : Op) : ExpertStore → ExpertStore → Prop := Relation.ReflTransGen (Write op)

variable {st st' : ExpertStore} {op : Op}

theorem Write.writes (h : Write op st st') : Writes op st st' :=
  .single h

theorem Write.counted {i : Nat} {s : ExpertSlot} (stats : ExpertStoreStats)
    (h : Write op st (st.set_slot i s)) : Writes op st (st.set_slot i s stats) :=
  .tail (.single h) (.count op (st.set_slot i s) stats)

/-! ### Each operation -/

theorem reserve_locked_writes (st : ExpertStore) {key : ExpertKey} (hop : op.begins = some key)
    (tier : Tier) : Writes op st (st.reserve_locked key tier).2 := by
  rcases reserve_locked_cases st key tier with ⟨e, he⟩ | ⟨slot, rest, addr, -, -, habsent, hfree,
    hres⟩
  · rw [he]
    exact .refl
  · rw [hres]
    exact (Write.reserve op st key tier slot rest hop habsent hfree).writes

theorem begin_fill_writes (st : ExpertStore) (key : ExpertKey) (entry : ExpertEntry)
    (tier : Tier) : Writes (.begin_fill key entry tier) st (st.begin_fill key entry tier).2 := by
  have hres := reserve_locked_writes st (show Op.begins (.begin_fill key entry tier) = some key from rfl) tier
  unfold ExpertStore.begin_fill
  dsimp only
  split
  · exact .refl
  split
  · exact .refl
  split
  · exact .refl
  split
  next heq =>
    rw [heq] at hres
    exact hres
  next heq =>
    rw [heq] at hres
    exact hres.trans (Write.counted _ (.lay_out _ _ _ _ _ _))

theorem begin_fill_synthetic_writes (st : ExpertStore) (key : ExpertKey) (tier : Tier) :
    Writes (.begin_fill_synthetic key tier) st (st.begin_fill_synthetic key tier).2 := by
  have hres := reserve_locked_writes st
    (show Op.begins (.begin_fill_synthetic key tier) = some key from rfl) tier
  unfold ExpertStore.begin_fill_synthetic
  split
  next heq =>
    rw [heq] at hres
    exact hres
  next heq =>
    rw [heq] at hres
    exact hres.trans (Write.counted _ (.lay_out _ _ _ _ _ _))

theorem finish_run_writes (st : ExpertStore) (slot : Nat) (ok : Bool) (token : Nat) :
    Writes (.finish_run slot ok token) st (st.finish_run slot ok token).2 := by
  unfold ExpertStore.finish_run
  dsimp only
  split
  · exact .refl
  split
  · exact .refl
  next hfill =>
  split
  · exact .refl
  have hland := Write.counted { st.stats with runs_done := st.stats.runs_done + 1 }
    (Write.land (.finish_run slot ok token) st slot ((st.slots slot).runs_done + 1)
      ((st.slots slot).run_failed || !ok) rfl (not_not.mp hfill))
  split
  · exact hland
  · refine hland.tail (.settle _ _ slot _ token rfl ?_)
    simpa [ExpertStore.set_slot] using hfill

theorem finish_fill_writes (st : ExpertStore) (slot : Nat) (ok : Bool) (token : Nat) :
    Writes (.finish_fill slot ok token) st (st.finish_fill slot ok token).2 := by
  unfold ExpertStore.finish_fill
  dsimp only
  split
  · exact .refl
  split
  · exact .refl
  next hfill =>
  have hland := Write.counted
    { st.stats with
      runs_done := st.stats.runs_done + ((st.slots slot).runs_total - (st.slots slot).runs_done) }
    (Write.land (.finish_fill slot ok token) st slot (st.slots slot).runs_total
      (st.slots slot).run_failed rfl (not_not.mp hfill))
  refine hland.tail (.settle _ _ slot _ token rfl ?_)
  simpa [ExpertStore.set_slot] using hfill

theorem evict_writes (st : ExpertStore) (slot : Nat) : Writes op st (st.evict slot).2 := by
  unfold ExpertStore.evict
  dsimp only
  split
  · exact .refl
  next hfixed =>
  split
  · exact .refl
  next hlt =>
  split
  · exact .refl
  next hres =>
  split
  · exact .refl
  next htier =>
  split
  · exact (Write.count op st _).writes
  next hguard =>
  refine (Write.recycle op st slot ?_ (Nat.not_le.mp hlt) ?_).writes
  · simpa using hfixed
  · simp [is_evictable, not_not.mp hres, htier, Nat.not_lt.mp hguard]

theorem evict_lru_writes (st : ExpertStore) : Writes op st st.evict_lru.2 := by
  unfold ExpertStore.evict_lru
  split
  · exact .refl
  next hfixed =>
  split
  · exact .refl
  next best hbest =>
  obtain ⟨hlt, hev⟩ := lru_victim_evictable hbest
  exact (Write.recycle op st best (by simpa using hfixed) hlt hev).writes

theorem lookup_writes (st : ExpertStore) (key : ExpertKey) (token guard : Nat) :
    Writes (.lookup key token guard) st (st.lookup key token guard).2 := by
  unfold ExpertStore.lookup
  dsimp only
  split
  · exact (Write.count _ st _).writes
  next i hheld =>
  split
  · exact (Write.count _ st _).writes
  next hres =>
    refine (Write.count _ st _).writes.trans (Write.counted _ ?_)
    refine .stamp _ _ i _ _ ?_ (le_max_left _ _)
    simp [Op.uses, hheld, not_not.mp hres]

/-- An operation that keeps the contents is a sequence of writes. -/
theorem apply_writes (st : ExpertStore) {op : Op} (hop : op.keeps_contents) :
    Writes op st (st.apply op) := by
  cases op with
  | init => cases hop
  | reset => cases hop
  | set_path_b_first_slab slab => exact (Write.path_b st slab).writes
  | set_evict_path path => exact (Write.evict_path st path).writes
  | set_fixed_cache enabled => exact (Write.fix st enabled).writes
  | reset_stats => exact (Write.count _ st _).writes
  | lookup key token guard => exact lookup_writes st key token guard
  | begin_fill key entry tier => exact begin_fill_writes st key entry tier
  | begin_fill_synthetic key tier => exact begin_fill_synthetic_writes st key tier
  | finish_run slot ok token => exact finish_run_writes st slot ok token
  | finish_fill slot ok token => exact finish_fill_writes st slot ok token
  | evict slot => exact evict_writes st slot
  | evict_key key =>
    simp only [ExpertStore.apply, ExpertStore.evict_key]
    split
    · exact .refl
    · exact evict_writes st _
  | evict_lru => exact evict_lru_writes st
  | set_completed_timeline v =>
    simp only [ExpertStore.apply, ExpertStore.set_completed_timeline]
    split
    next hlater => exact (Write.complete st v hlater).writes
    · exact .refl
  | guarded_snapshot guard =>
    simp only [ExpertStore.apply, ExpertStore.guarded_snapshot]
    split
    · exact .refl
    · exact (Write.guard_all st guard).writes
  | set_guard slot v =>
    simp only [ExpertStore.apply, ExpertStore.set_guard]
    split
    · exact .refl
    split
    next hlater =>
      exact (Write.guard _ st slot v hlater.le).writes
    · exact .refl
  | note_heat key score alpha =>
    simp only [ExpertStore.apply, ExpertStore.note_heat]
    split
    · exact .refl
    split
    · exact .refl
    next i hheld => exact (Write.note st key score alpha i hheld).writes
  | decay_heat factor =>
    simp only [ExpertStore.apply, ExpertStore.decay_heat]
    split
    · exact .refl
    next hages =>
    split
    · exact .refl
    next hwarm => exact (Write.decay st factor (not_le.mp hages) (not_le.mp hwarm)).writes
  | pin key =>
    simp only [ExpertStore.apply, ExpertStore.pin]
    split
    · exact .refl
    next i hheld =>
    split
    · exact .refl
    next hres =>
    split
    · exact Write.counted _ (.pin st key i hheld (not_not.mp hres))
    · exact .refl
  | touch key stamp include_filling =>
    simp only [ExpertStore.apply, ExpertStore.touch]
    split
    · exact .refl
    next i hheld =>
    split
    · exact .refl
    next hstate =>
    split
    · refine (Write.stamp _ st i stamp _ ?_ le_rfl).writes
      rw [not_and_or, not_not, not_not] at hstate
      simpa [Op.uses, hheld] using hstate
    · exact .refl

/-- What every write of an operation does, the operation does. -/
theorem apply_of_writes {R : ExpertStore → ExpertStore → Prop} (hrefl : ∀ st, R st st)
    (htrans : ∀ st st₁ st₂, R st st₁ → R st₁ st₂ → R st st₂) {op : Op}
    (hwrite : ∀ st st', Write op st st' → R st st') (hop : op.keeps_contents) :
    R st (st.apply op) := by
  have hwrites := apply_writes st hop
  generalize st.apply op = st' at hwrites ⊢
  induction hwrites with
  | refl => exact hrefl st
  | tail _ hlast ih => exact htrans _ _ _ ih (hwrite _ _ hlast)

end CachedMoe.Store
