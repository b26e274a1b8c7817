import CachedMoe.Store.Fill

/-! # A fill of several runs is atomic

    The runs of a fill land in any order, each with its own outcome, while the store goes
    on. The key's row of the pointer table stays zero until the last run is reported, and
    the slot is not given back before that, even when an earlier run has failed: a read
    that is still in flight must not land in another expert's slot. -/

namespace CachedMoe.Store

open CachedMoe ExpertStore

variable {st st' : ExpertStore}

/-! ### Reports -/

/-- What an operation adds to the reports on slot `i`, a fill of `n` runs: `finish_run`
    reports one run, `finish_fill` all that are outstanding. -/
def Op.report (i n : Nat) (reports : List Bool) : Op → List Bool
  | .finish_run slot ok _ => if slot = i then reports ++ [ok] else reports
  | .finish_fill slot ok _ =>
    if slot = i then reports ++ List.replicate (n - reports.length) ok else reports
  | _ => reports

/-- The outcomes reported for slot `i`, in the order of the operations. -/
def reported (i n : Nat) (ops : List Op) : List Bool :=
  ops.foldl (Op.report i n) []

theorem reported_append (i n : Nat) (ops : List Op) (op : Op) :
    reported i n (ops ++ [op]) = op.report i n (reported i n ops) := by
  simp [reported]

theorem Op.report_other {i n : Nat} {reports : List Bool} {op : Op} (h : op.finishes ≠ some i) :
    op.report i n reports = reports := by
  cases op with
  | finish_run slot ok token =>
    have hne : slot ≠ i := fun heq => h (heq ▸ rfl)
    simp [Op.report, hne]
  | finish_fill slot ok token =>
    have hne : slot ≠ i := fun heq => h (heq ▸ rfl)
    simp [Op.report, hne]
  | _ => rfl

theorem Op.length_le_report (i n : Nat) (reports : List Bool) (op : Op) :
    reports.length ≤ (op.report i n reports).length := by
  by_cases h : op.finishes = some i
  · cases op with
    | finish_run slot ok token =>
      obtain rfl : slot = i := Option.some.inj h
      simp [Op.report]
    | finish_fill slot ok token =>
      obtain rfl : slot = i := Option.some.inj h
      simp [Op.report]
    | _ => cases h
  · rw [Op.report_other h]

/-! ### The fill of a key -/

/-- Slot `i` is being filled with `key`, in `n` runs of which `reports` are reported. -/
structure FillOf (st : ExpertStore) (i : Nat) (key : ExpertKey) (n : Nat) (reports : List Bool) :
    Prop extends FillAt st i n reports.length where
  key : (st.slots i).key = key
  failed : (st.slots i).run_failed = !reports.all id

/-- A fill of `key` begins in the slot of `res`: over a manifest entry, or a synthetic one. -/
def Begins (st : ExpertStore) (key : ExpertKey) (res : Reservation) (st' : ExpertStore) : Prop :=
  (∃ entry tier, st.begin_fill key entry tier = (.ok res, st')) ∨
    ∃ tier, st.begin_fill_synthetic key tier = (.ok res, st')

/-- A slot that was reserved and laid out. -/
theorem taken_fill_of {key : ExpertKey} {tier : Tier} {slot : Nat} {rest : List Nat}
    (hlt : slot < st.slots_size) (n : Nat) (part_offset part_bytes : ExpertPart → Nat)
    (stats : ExpertStoreStats) :
    FillOf ((taken st key tier slot rest).set_slot slot
      (laid_out ((taken st key tier slot rest).slots slot) n part_offset part_bytes) stats)
      slot key n [] where
  lt := hlt
  filling := by simp [taken, set_slot, laid_out, reserved_slot]
  total := by simp [set_slot, laid_out]
  done := by simp [taken, set_slot, laid_out, reserved_slot]
  key := by simp [taken, set_slot, laid_out, reserved_slot]
  failed := by simp [taken, set_slot, laid_out, reserved_slot]

theorem Begins.fill_of (hinv : Inv st) {key : ExpertKey} {res : Reservation}
    (h : Begins st key res st') :
    0 < res.run_count ∧ FillOf st' res.slot key res.run_count [] ∧ res.slot ∈ st.free_list := by
  rcases h with ⟨entry, tier, h⟩ | ⟨tier, h⟩
  · have hpos := (begin_fill_ok hinv h).1
    unfold ExpertStore.begin_fill at h
    dsimp only at h
    split at h
    · cases h
    split at h
    · cases h
    split at h
    · cases h
    rcases reserve_locked_cases st key tier with ⟨e, he⟩ | ⟨slot, rest, addr, _, _, _, hfree, hres⟩
    · rw [he] at h
      cases h
    · rw [hres] at h
      cases h
      have hmem : slot ∈ st.free_list := hfree ▸ List.mem_cons_self
      exact ⟨hpos, taken_fill_of ((hinv.free_list.2 slot).mp hmem).1 _ _ _ _, hmem⟩
  · unfold ExpertStore.begin_fill_synthetic at h
    rcases reserve_locked_cases st key tier with ⟨e, he⟩ | ⟨slot, rest, addr, _, _, _, hfree, hres⟩
    · rw [he] at h
      cases h
    · rw [hres] at h
      cases h
      have hmem : slot ∈ st.free_list := hfree ▸ List.mem_cons_self
      exact ⟨Nat.one_pos, taken_fill_of ((hinv.free_list.2 slot).mp hmem).1 _ _ _ _, hmem⟩

theorem FillOf.index {i n : Nat} {key : ExpertKey} {reports : List Bool}
    (h : FillOf st i key n reports) (hinv : Inv st) : st.index key = some i := by
  rw [hinv.index]
  refine ⟨h.lt, ?_, h.key⟩
  rw [h.filling]
  decide

/-- While a fill is open, its key's row is zero and its slot is not free. -/
theorem FillOf.unpublished {i n : Nat} {key : ExpertKey} {reports : List Bool}
    (h : FillOf st i key n reports) (hinv : Inv st) :
    (∀ p, st.table (st.table_index key p) = 0) ∧ i ∉ st.free_list := by
  have hindex := h.index hinv
  refine ⟨?_, filling_not_free h.filling hinv⟩
  intro p
  refine hinv.row_absent (hinv.in_range key i hindex) ?_ p
  rw [resident_iff]
  rintro ⟨j, hj, hres⟩
  obtain rfl : i = j := Option.some.inj (hindex.symm.trans hj)
  rw [h.filling] at hres
  cases hres

/-! ### One operation -/

/-- How a fill ends: its slot is published, or given back. -/
structure Settled (st st' : ExpertStore) (i : Nat) (key : ExpertKey) (ok : Bool) : Prop where
  published : ok = true → st'.index key = some i ∧ (st'.slots i).state = .Resident
  given_back : ok = false → st'.index key = none ∧ st'.free_list = i :: st.free_list

theorem settle_locked_settled (st : ExpertStore) {i : Nat} {key : ExpertKey}
    (hindex : st.index key = some i) (hkey : (st.slots i).key = key) (ok : Bool) (token : Nat) :
    Settled st (st.settle_locked i ok token) i key ok := by
  cases ok with
  | true =>
    refine ⟨?_, by simp⟩
    intro _
    exact ⟨hindex, by simp [settle_locked, publish_locked, set_slot, settled_slot]⟩
  | false =>
    refine ⟨by simp, ?_⟩
    intro _
    simp [settle_locked, release_locked, set_slot, hkey]

theorem Settled.of_free_list {st₁ : ExpertStore} {i : Nat} {key : ExpertKey} {ok : Bool}
    (h : Settled st₁ st' i key ok) (hfree : st₁.free_list = st.free_list) :
    Settled st st' i key ok :=
  ⟨h.published, hfree ▸ h.given_back⟩

section Step

variable {i n : Nat} {key : ExpertKey} {reports : List Bool}

/-- A `finish_run` on the slot: the report counts, and the last one settles the slot. -/
theorem FillOf.finish_run (h : FillOf st i key n reports) (hlt : reports.length < n)
    (hindex : st.index key = some i) (ok : Bool) (token : Nat) :
    (reports.length + 1 < n → FillOf (st.finish_run i ok token).2 i key n (reports ++ [ok])) ∧
    (reports.length + 1 = n →
      Settled st (st.finish_run i ok token).2 i key ((reports ++ [ok]).all id)) := by
  unfold ExpertStore.finish_run
  dsimp only
  rw [if_neg (Nat.not_le.mpr h.lt), if_neg (not_not.mpr h.filling), h.total, h.done,
    if_neg (Nat.not_le.mpr hlt), h.failed]
  have hfailed : (!reports.all id || !ok) = !(reports ++ [ok]).all id := by
    simp [Bool.not_and]
  rw [hfailed, Bool.not_not]
  split
  next hmore =>
    refine ⟨?_, fun hlast => absurd hlast hmore.ne⟩
    intro _
    refine ⟨⟨h.lt, ?_, ?_, ?_⟩, ?_, ?_⟩
    · simpa [set_slot] using h.filling
    · simp [set_slot]
    · simp [set_slot]
    · simpa [set_slot] using h.key
    · simp [set_slot]
  next hmore =>
    refine ⟨fun hlt' => absurd hlt' hmore, ?_⟩
    intro _
    refine (settle_locked_settled _ ?_ ?_ _ token).of_free_list rfl
    · exact hindex
    · simpa [set_slot] using h.key

theorem FillOf.finish_fill (h : FillOf st i key n reports) (hlt : reports.length < n)
    (hindex : st.index key = some i) (ok : Bool) (token : Nat) :
    Settled st (st.finish_fill i ok token).2 i key
      ((reports ++ List.replicate (n - reports.length) ok).all id) := by
  unfold ExpertStore.finish_fill
  dsimp only
  rw [if_neg (Nat.not_le.mpr h.lt), if_neg (not_not.mpr h.filling), h.failed]
  have hpos : n - reports.length ≠ 0 := by omega
  have hok : (reports ++ List.replicate (n - reports.length) ok).all id =
      (ok && !!reports.all id) := by
    rw [List.all_append, List.all_replicate, if_neg hpos, Bool.not_not, id, Bool.and_comm]
  rw [hok]
  refine (settle_locked_settled _ ?_ ?_ _ token).of_free_list rfl
  · exact hindex
  · simpa [set_slot] using h.key

/-- One operation on a store with an open fill: the fill stays open until its last report,
    and that report settles it. -/
theorem FillOf.apply (h : FillOf st i key n reports) (hlt : reports.length < n) (hinv : Inv st)
    {op : Op} (hop : op.keeps_contents) :
    ((op.report i n reports).length < n → FillOf (st.apply op) i key n (op.report i n reports)) ∧
    ((op.report i n reports).length = n →
      Settled st (st.apply op) i key ((op.report i n reports).all id)) ∧
    (op.report i n reports).length ≤ n := by
  have hindex := h.index hinv
  by_cases hother : op.finishes = some i
  · cases op with
    | finish_run slot ok token =>
      obtain rfl : slot = i := Option.some.inj hother
      obtain ⟨hmore, hlast⟩ := h.finish_run hlt hindex ok token
      simp only [Op.report, if_true, List.length_append, List.length_singleton]
      exact ⟨hmore, hlast, hlt⟩
    | finish_fill slot ok token =>
      obtain rfl : slot = i := Option.some.inj hother
      have hlen : reports.length + (n - reports.length) = n := by omega
      simp only [Op.report, if_true, List.length_append, List.length_replicate, hlen]
      exact ⟨fun hno => absurd hno (lt_irrefl n), fun _ => h.finish_fill hlt hindex ok token,
        le_rfl⟩
    | _ => cases hother
  · rw [Op.report_other hother]
    refine ⟨?_, fun hno => absurd hno hlt.ne, hlt.le⟩
    intro _
    have hsame := apply_same_fill h.filling hinv hop hother
    exact ⟨h.toFillAt.apply hinv hop hother, hsame.key.trans h.key, hsame.failed.trans h.failed⟩

end Step

/-! ### After the fill -/

theorem release_locked_index (st : ExpertStore) (slot : Nat) (k : ExpertKey) :
    (st.release_locked slot).index k = st.index k ∨ (st.release_locked slot).index k = none := by
  by_cases hk : k = (st.slots slot).key
  · right
    simp [release_locked, hk]
  · left
    simp [release_locked, set_slot, Function.update_of_ne hk]

/-- Only a fill that begins brings a key in. -/
theorem apply_index {op : Op} (hop : op.keeps_contents) {k : ExpertKey} (hk : op.begins ≠ some k) :
    (st.apply op).index k = st.index k ∨ (st.apply op).index k = none := by
  refine apply_of_writes (R := fun st st' => st'.index k = st.index k ∨ st'.index k = none)
    (fun _ => .inl rfl) ?_ ?_ hop
  · rintro st st₁ st₂ hfirst (hsame | hgone)
    · rw [hsame]
      exact hfirst
    · exact .inr hgone
  intro st st' h
  cases h with
  | reserve _ _ key tier slot rest hkey =>
    have hne : k ≠ key := by
      rintro rfl
      exact hk hkey
    exact .inl (Function.update_of_ne hne _ _)
  | settle _ _ slot ok token =>
    cases ok with
    | true => exact .inl rfl
    | false => exact release_locked_index { st with stats := st.stats.fill_failed } slot k
  | recycle _ _ slot => exact release_locked_index (st.unpublish_locked slot) slot k
  | _ => exact .inl rfl

/-- The runs in which the store keeps its contents. -/
def keeping : LTS.System ExpertStore Op :=
  store_system.restrict fun _ op => op.keeps_contents

/-- The runs in which, besides, no fill of `key` is asked for. -/
def not_filling (key : ExpertKey) : LTS.System ExpertStore Op :=
  store_system.restrict fun _ op => op.keeps_contents ∧ op.begins ≠ some key

/-- The pointer table's row of a key. -/
def row (st : ExpertStore) (key : ExpertKey) (p : ExpertPart) : Nat :=
  st.table (st.table_index key p)

/-- A key that is not Resident does not become Resident unless a fill of it is open or
    begins: its row stays zero. -/
theorem absent_run {key : ExpertKey} {ops : List Op} (hinv : Inv st) (hrange : st.key_in_range key)
    (habsent : st.index key = none) (hrun : LTS.Run (not_filling key) st ops st') :
    Inv st' ∧ st'.key_in_range key ∧ st'.index key = none := by
  refine hrun.invariant (P := fun st' => Inv st' ∧ st'.key_in_range key ∧ st'.index key = none) ?_
    ⟨hinv, hrange, habsent⟩
  intro st₁ op st₂ h hstep
  obtain ⟨hinv₁, hrange₁, habsent₁⟩ := h
  obtain ⟨hnext, hop, hbegins⟩ := hstep
  obtain rfl : st₁.apply op = st₂ := Option.some.inj hnext
  refine ⟨hinv₁.apply op, ?_, ?_⟩
  · rw [key_in_range_eq (hinv₁.apply_geometry hop)]
    exact hrange₁
  · rcases apply_index hop hbegins with heq | heq
    · exact heq.trans habsent₁
    · exact heq

theorem Move.resident_slot (h : Move st st') (hinv : Inv st) {i : Nat}
    (hres : (st.slots i).state = .Resident) :
    (st'.slots i).state = .Resident ∨ (st'.slots i).state = .Free := by
  rcases h with rfl | ⟨j, k, s, h⟩ | ⟨j, s, h⟩ | ⟨j, s, h⟩ | ⟨j, s, h⟩
  · exact .inl hres
  · left
    have hij : i ≠ j := by
      intro heq
      have hfree := (h.was_free hinv).2
      rw [← heq, hres] at hfree
      cases hfree
    rw [h.slots, Function.update_of_ne hij, hres]
  · left
    have hij : i ≠ j := by
      intro heq
      have hfill := h.filling
      rw [← heq, hres] at hfill
      cases hfill
    rw [h.slots, Function.update_of_ne hij, hres]
  · by_cases hij : i = j
    · right
      rw [h.slots, hij, Function.update_self, h.state]
    · left
      rw [h.slots, Function.update_of_ne hij, hres]
  · left
    by_cases hij : i = j
    · rw [h.slots, hij, Function.update_self, h.state]
    · rw [h.slots, Function.update_of_ne hij, hres]

/-- A key is Resident or absent: no fill of it is open. -/
def NotFilling (st : ExpertStore) (key : ExpertKey) : Prop :=
  st.index key = none ∨ st.resident key

/-- No fill of a key opens unless one is asked for. -/
theorem NotFilling.run {key : ExpertKey} {ops : List Op} (h : NotFilling st key) (hinv : Inv st)
    (hrange : st.key_in_range key) (hrun : LTS.Run (not_filling key) st ops st') :
    NotFilling st' key ∧ Inv st' ∧ st'.key_in_range key := by
  refine hrun.invariant (P := fun st' => NotFilling st' key ∧ Inv st' ∧ st'.key_in_range key) ?_
    ⟨h, hinv, hrange⟩
  intro st₁ op st₂ h₁ hstep
  obtain ⟨hkey, hinv₁, hrange₁⟩ := h₁
  obtain ⟨hnext, hop, hbegins⟩ := hstep
  obtain rfl : st₁.apply op = st₂ := Option.some.inj hnext
  refine ⟨?_, hinv₁.apply op, key_in_range_eq (hinv₁.apply_geometry hop) key ▸ hrange₁⟩
  rcases apply_index hop hbegins with heq | heq
  · rcases hkey with hnone | hres
    · exact .inl (heq.trans hnone)
    -- the key kept its slot, so the slot was not dropped
    · obtain ⟨i, hi, hstate⟩ := resident_iff.mp hres
      have hheld := ((hinv₁.apply op).index key i).mp (heq.trans hi)
      obtain ⟨st₀, hkeep, hmove⟩ := hinv₁.apply_effect hop
      have hbefore : (st₀.slots i).state = .Resident := (hkeep.slots i).state.trans hstate
      have hafter := (hmove.resident_slot (hkeep.inv hinv₁) hbefore).resolve_right hheld.2.1
      exact .inr (resident_iff.mpr ⟨i, heq.trans hi, hafter⟩)
  · exact .inl heq

theorem free_run {i : Nat} {ops : List Op} (hinv : Inv st) (hi : i ∈ st.free_list)
    (hrun : LTS.Run (store_system.restrict fun _ op => op.keeps_contents ∧ op.begins = none)
      st ops st') : st'.free_list.count i = 1 := by
  have hboth : Inv st' ∧ i ∈ st'.free_list := by
    refine hrun.invariant (P := fun st' => Inv st' ∧ i ∈ st'.free_list) ?_ ⟨hinv, hi⟩
    intro st₁ op st₂ h₁ hstep
    obtain ⟨hinv₁, hi₁⟩ := h₁
    obtain ⟨hnext, hop, hbegins⟩ := hstep
    obtain rfl : st₁.apply op = st₂ := Option.some.inj hnext
    refine ⟨hinv₁.apply op, ?_⟩
    obtain ⟨hlt, hfree⟩ := (hinv₁.free_list.2 i).mp hi₁
    have hlt' : i < (st₁.apply op).slots_size := (hinv₁.apply_geometry hop).slots_size ▸ hlt
    rw [(hinv₁.apply op).free_list.2 i]
    refine ⟨hlt', ?_⟩
    by_contra hused
    -- a slot in use is in the index, where it would have been before
    have hindex := ((hinv₁.apply op).index _ i).mpr ⟨hlt', hused, rfl⟩
    have hno : op.begins ≠ some ((st₁.apply op).slots i).key := by rw [hbegins]; simp
    rcases apply_index hop hno with heq | heq
    · exact ((hinv₁.index _ i).mp (heq ▸ hindex)).2.1 hfree
    · rw [heq] at hindex
      cases hindex
  exact List.count_eq_one_of_mem hboth.1.free_list.1 hboth.2

/-! ### Every run -/

/-- While runs of a fill are outstanding, the fill is where its reports say. -/
theorem FillOf.run {i n : Nat} {key : ExpertKey} {ops : List Op} (h : FillOf st i key n [])
    (hinv : Inv st) (hrun : LTS.Run keeping st ops st') (hopen : (reported i n ops).length < n) :
    FillOf st' i key n (reported i n ops) ∧ Inv st' := by
  -- from the right: the last operation is the one that may have settled the fill
  induction ops using List.reverseRecOn generalizing st' with
  | nil =>
    cases hrun
    exact ⟨h, hinv⟩
  | append_singleton ops op ih =>
    obtain ⟨st₁, hfirst, hlast⟩ := hrun.of_append
    cases hlast with
    | cons hstep hnil =>
    cases hnil
    obtain ⟨hnext, hop⟩ := hstep
    obtain rfl : st₁.apply op = st' := Option.some.inj hnext
    rw [reported_append] at hopen ⊢
    by_cases hlt : (reported i n ops).length < n
    · obtain ⟨hfill, hinv₁⟩ := ih hfirst hlt
      exact ⟨(hfill.apply hlt hinv₁ hop).1 hopen, hinv₁.apply op⟩
    · exact absurd (lt_of_le_of_lt (Op.length_le_report i n _ op) hopen) hlt

theorem row_stays_zero {key : ExpertKey} {ops : List Op} (h : NotFilling st key) (hinv : Inv st)
    (hrange : st.key_in_range key) (hzero : ∀ p, row st key p = 0)
    (hrun : LTS.Run (not_filling key) st ops st') (p : ExpertPart) : row st' key p = 0 := by
  have habsent : st.index key = none := by
    refine h.resolve_right ?_
    intro hres
    obtain ⟨i, hi, hstate⟩ := resident_iff.mp hres
    exact (hinv.row_resident hi hstate p).2 (hzero p)
  obtain ⟨hinv', hrange', habsent'⟩ := absent_run hinv hrange habsent hrun
  refine hinv'.row_absent hrange' ?_ p
  simp [ExpertStore.resident, habsent']

/-- A fill is atomic. Whatever the order and the outcomes of its reports, and whatever else
    the store does meanwhile: until all runs are reported the key's row is zero and the slot
    is neither free nor taken again; the last report publishes the row if all runs were ok,
    and returns the slot to the free list if one was not; and until the next fill of the key
    the row does not become nonzero again, nor does the slot return a second time. -/
theorem fill_atomic (h : LTS.Reachable store_system st) {key : ExpertKey} {res : Reservation}
    {st₁ st₂ : ExpertStore} {ops : List Op} (hbegin : Begins st key res st₁)
    (hrun : LTS.Run keeping st₁ ops st₂)
    (hopen : (reported res.slot res.run_count ops).length < res.run_count) :
    ((∀ p, row st₂ key p = 0) ∧ res.slot ∉ st₂.free_list ∧
      ∀ key' res' st', Begins st₂ key' res' st' → res'.slot ≠ res.slot) ∧
    ∀ op reports, op.keeps_contents → reports = reported res.slot res.run_count (ops ++ [op]) →
      reports.length = res.run_count →
      (reports.all id = true → ∀ p, row (st₂.apply op) key p ≠ 0) ∧
      (reports.all id = false → (∀ p, row (st₂.apply op) key p = 0) ∧
        (st₂.apply op).free_list = res.slot :: st₂.free_list ∧
        ∀ ops' st', LTS.Run
          (store_system.restrict fun _ op => op.keeps_contents ∧ op.begins = none)
          (st₂.apply op) ops' st' → st'.free_list.count res.slot = 1) ∧
      ∀ ops₁ ops₂ st₃ st₄, LTS.Run (not_filling key) (st₂.apply op) ops₁ st₃ →
        LTS.Run (not_filling key) st₃ ops₂ st₄ →
        (∀ p, row st₃ key p = 0) → ∀ p, row st₄ key p = 0 := by
  have hinv := reachable_inv h
  obtain ⟨_, hfill₁, _⟩ := hbegin.fill_of hinv
  have hinv₁ : Inv st₁ := by
    rcases hbegin with ⟨entry, tier, heq⟩ | ⟨tier, heq⟩
    · have hnext := hinv.apply (.begin_fill key entry tier)
      rwa [ExpertStore.apply, heq] at hnext
    · have hnext := hinv.apply (.begin_fill_synthetic key tier)
      rwa [ExpertStore.apply, heq] at hnext
  obtain ⟨hfill, hinv₂⟩ := hfill₁.run hinv₁ hrun hopen
  obtain ⟨hzero, hnotfree⟩ := hfill.unpublished hinv₂
  refine ⟨⟨hzero, hnotfree, ?_⟩, ?_⟩
  · intro key' res' st' hbegin' heq
    exact hnotfree (heq ▸ (hbegin'.fill_of hinv₂).2.2)
  intro op reports hop hreports hall
  have hinv₃ := hinv₂.apply op
  rw [reported_append] at hreports
  -- the report that completes them settles the slot
  have hsettled : Settled st₂ (st₂.apply op) res.slot key (reports.all id) := by
    have hlast := (hfill.apply hopen hinv₂ hop).2.1
    rw [← hreports] at hlast
    exact hlast hall
  have hrange : (st₂.apply op).key_in_range key := by
    rw [key_in_range_eq (hinv₂.apply_geometry hop)]
    exact hinv₂.in_range key _ (hfill.index hinv₂)
  refine ⟨?_, ?_, ?_⟩
  · intro hok p
    obtain ⟨hindex, hres⟩ := hsettled.published hok
    exact (hinv₃.row_resident hindex hres p).2
  · intro hbad
    obtain ⟨hindex, hfree⟩ := hsettled.given_back hbad
    refine ⟨?_, hfree, ?_⟩
    · intro p
      refine hinv₃.row_absent hrange ?_ p
      simp [ExpertStore.resident, hindex]
    · intro ops' st' hrun'
      exact free_run hinv₃ (hfree ▸ List.mem_cons_self) hrun'
  · intro ops₁ ops₂ st₃ st₄ hrun₃ hrun₄ hzero₃
    have hnot : NotFilling (st₂.apply op) key := by
      cases hok : reports.all id with
      | true => exact .inr (resident_iff.mpr ⟨_, hsettled.published hok⟩)
      | false => exact .inl (hsettled.given_back hok).1
    obtain ⟨hnot₃, hinv₃', hrange₃⟩ := hnot.run hinv₃ hrange hrun₃
    exact row_stays_zero hnot₃ hinv₃' hrange₃ hzero₃ hrun₄

/-- Two runs of expert 5, the first of them failed. -/
theorem fill_atomic_poisoned :
    (((small_store.begin_fill ⟨0, 5⟩ two_runs .Cached).2.apply (.finish_run 0 false 7)).apply
      (.finish_run 0 true 7)).free_list.count 0 = 1 := by
  have hreach : LTS.Reachable store_system small_store :=
    .of_init ⟨{}, _, _, _, _, small_store_init⟩
  have hbegin : ∃ res, Begins small_store ⟨0, 5⟩ res
      (small_store.begin_fill ⟨0, 5⟩ two_runs .Cached).2 ∧ res.slot = 0 ∧ res.run_count = 2 :=
    ⟨_, .inl ⟨two_runs, .Cached, rfl⟩, rfl, rfl⟩
  obtain ⟨res, hbegin, hslot, hcount⟩ := hbegin
  have hrun : LTS.Run keeping (small_store.begin_fill ⟨0, 5⟩ two_runs .Cached).2
      [.finish_run 0 false 7] _ := .single ⟨rfl, rfl⟩
  have hall := fill_atomic hreach hbegin hrun (by rw [hslot, hcount]; decide)
  rw [hslot, hcount] at hall
  have hlast := hall.2 (.finish_run 0 true 7) [false, true] rfl rfl rfl
  exact (hlast.2.1 rfl).2.2 [] _ (.nil _)

/-- `finish_fill` publishes a fill none of whose runs was reported, and `init` hands its
    slot out again. -/
theorem finish_fill_and_init_end_a_fill :
    (¬ ∀ st key res st₁ ops st₂, LTS.Reachable store_system st → Begins st key res st₁ →
      LTS.Run store_system st₁ ops st₂ →
      (∀ ok token, Op.finish_run res.slot ok token ∉ ops) → ∀ p, row st₂ key p = 0) ∧
    ¬ ∀ st key res st₁ ops st₂, LTS.Reachable store_system st → Begins st key res st₁ →
      LTS.Run store_system st₁ ops st₂ →
      (∀ ok token, Op.finish_run res.slot ok token ∉ ops) → res.slot ∉ st₂.free_list := by
  have hreach : LTS.Reachable store_system small_store :=
    .of_init ⟨{}, _, _, _, _, small_store_init⟩
  have hbegin : ∃ res, Begins small_store ⟨0, 5⟩ res
      (small_store.begin_fill ⟨0, 5⟩ two_runs .Cached).2 ∧ res.slot = 0 :=
    ⟨_, .inl ⟨two_runs, .Cached, rfl⟩, rfl⟩
  obtain ⟨res, hbegin, hslot⟩ := hbegin
  constructor
  · intro hclaim
    have hzero := hclaim _ _ _ _ [.finish_fill 0 true 7] _ hreach hbegin (.single rfl)
      (by intro ok token hmem; cases hmem with | tail _ hmem => cases hmem) .W1Weight
    revert hzero
    decide +kernel
  · intro hclaim
    have hnotfree := hclaim _ _ _ _ [.init (some host_backing) { slots_per_slab := 3 } 1 8] _ hreach
      hbegin (.single rfl) (by intro ok token hmem; cases hmem with | tail _ hmem => cases hmem)
    rw [hslot] at hnotfree
    revert hnotfree
    decide

end CachedMoe.Store
