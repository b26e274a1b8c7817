import CachedMoe.Model.ManifestCheck
import CachedMoe.Store.Moves
import CachedMoe.Text.Loaded

/-! # What a validated manifest promises

    The checks compare 64-bit sums. For an expert none of whose sums wraps they say, in unbounded
    integers, that its runs tile its part of a slot, that its parts stay inside their runs, and
    that its reads stay inside the slot and inside the sectors of their files; `begin_fill` hands
    out no other reads. -/

namespace CachedMoe.Model

open CachedMoe Text

/-! ### Bounds in unbounded integers -/

/-- The runs follow each other from `cursor` up to `stop`. -/
def Tiles : (cursor : Nat) → List Run → (stop : Nat) → Prop
  | cursor, [], stop => cursor = stop
  | cursor, r :: rs, stop => r.slot_offset = cursor ∧ Tiles (cursor + r.aligned_bytes) rs stop

/-- `align_up`, without its wrap. -/
def sectors (bytes : Nat) : Nat := (bytes + (kPageSize - 1)) / kPageSize * kPageSize

/-- The run lies inside its file. -/
def Run.in_file (r : Run) (f : FileEntry) : Prop :=
  r.aligned_off + r.aligned_bytes ≤ f.bytes ∧
    ∀ p ∈ r.parts, r.aligned_off + p.skew + p.bytes ≤ f.bytes

/-- The payload lies inside the file, if its size is listed; the read starts inside it and ends in
    its last sector. -/
def Run.in_sectors (r : Run) (f : FileEntry) : Prop :=
  f.bytes ≠ 0 →
    r.aligned_off < f.bytes ∧ r.aligned_off + r.aligned_bytes ≤ sectors f.bytes ∧
      ∀ p ∈ r.parts, r.aligned_off + p.skew + p.bytes ≤ f.bytes

/-- A part of a run, with its place in a slot of which `slot_bytes` bytes are used. -/
structure PartInside (slot_bytes : Nat) (r : Run) (p : RunPart) : Prop where
  run : p.skew + p.bytes ≤ r.aligned_bytes
  place : p.slot_offset = r.slot_offset + p.skew
  slot : p.slot_offset + p.bytes ≤ slot_bytes

structure InBounds (within : Run → FileEntry → Prop) (m : Manifest) (e : ExpertEntry) : Prop where
  tiles : Tiles 0 e.runs e.slot_bytes
  aligned : ∀ r ∈ e.runs,
    is_aligned r.slot_offset ∧ is_aligned r.aligned_off ∧ is_aligned r.aligned_bytes
  slot : e.slot_bytes ≤ m.expert_slot_bytes ∧ m.expert_slot_bytes = layout.kExpertSlotBytes
  parts : ∀ r ∈ e.runs, ∀ p ∈ r.parts, PartInside e.slot_bytes r p
  table : ∀ q, ∃ r ∈ e.runs, ∃ p ∈ r.parts,
    p.part = q ∧ e.part_offset q = p.slot_offset ∧ e.part_bytes q = p.bytes ∧ p.bytes ≠ 0
  files : ∀ r ∈ e.runs, ∃ f, m.file r.file = some f ∧ within r f

/-- None of the sums that the checks form for `e` reaches `2 ^ 64`. -/
structure Unwrapped (e : ExpertEntry) : Prop where
  slot : (e.runs.map Run.aligned_bytes).sum < 2 ^ 64
  reads : ∀ r ∈ e.runs, r.aligned_off + r.aligned_bytes < 2 ^ 64
  parts : ∀ r ∈ e.runs, ∀ p ∈ r.parts, p.skew + p.bytes < 2 ^ 64

theorem Tiles.le : ∀ {rs : List Run} {cursor stop : Nat}, Tiles cursor rs stop → cursor ≤ stop
  | [], _, _, h => Nat.le_of_eq h
  | _ :: _, _, _, h => Nat.le_trans (Nat.le_add_right _ _) h.2.le

theorem Tiles.within {rs : List Run} {cursor stop : Nat} (h : Tiles cursor rs stop) :
    ∀ r ∈ rs, r.slot_offset + r.aligned_bytes ≤ stop := by
  induction rs generalizing cursor with
  | nil => exact fun r hr => absurd hr List.not_mem_nil
  | cons r rs ih =>
    obtain ⟨hplace, hrest⟩ := h
    intro r' hr'
    rcases List.mem_cons.mp hr' with rfl | hmem
    · rw [hplace]
      exact hrest.le
    · exact ih hrest r' hmem

theorem align_up_le (v : Nat) : align_up v ≤ sectors v := by
  unfold align_up sectors add64
  have hmod : (v + (kPageSize - 1)) % 2 ^ 64 ≤ v + (kPageSize - 1) := Nat.mod_le _ _
  exact Nat.mul_le_mul_right _ (Nat.div_le_div_right hmod)

/-! ### What the checks say where nothing wraps -/

section Checks

variable {m : Manifest} {what : String}

theorem check_range_ok {fi off bytes : Nat} (h : m.check_range what fi off bytes = []) :
    ∃ f, m.file fi = some f ∧ (f.bytes ≠ 0 → add64 off bytes ≤ f.bytes) := by
  unfold Manifest.check_range at h
  cases hf : m.file fi with
  | none =>
    rw [hf] at h
    cases h
  | some f =>
    rw [hf] at h
    refine ⟨f, rfl, fun hsize => ?_⟩
    have hno := of_report h
    omega

theorem check_read_ok {fi aligned_off aligned_bytes : Nat}
    (h : m.check_read what fi aligned_off aligned_bytes = []) :
    ∃ f, m.file fi = some f ∧
      (f.bytes ≠ 0 → aligned_off < f.bytes ∧ add64 aligned_off aligned_bytes ≤ sectors f.bytes) := by
  unfold Manifest.check_read at h
  cases hf : m.file fi with
  | none =>
    rw [hf] at h
    cases h
  | some f =>
    rw [hf] at h
    refine ⟨f, rfl, fun hsize => ?_⟩
    dsimp only at h
    rw [if_neg hsize] at h
    split at h
    · cases h
    next hstart =>
    have hno := of_report h
    have hup := align_up_le f.bytes
    omega

theorem check_part_ok {r : Run} {p : RunPart} {stop : Nat} (h : m.check_part what r p = [])
    (hslot : r.slot_offset + r.aligned_bytes ≤ stop) (hstop : stop < 2 ^ 64)
    (hread : r.aligned_off + r.aligned_bytes < 2 ^ 64) (hpart : p.skew + p.bytes < 2 ^ 64) :
    PartInside stop r p ∧ ∃ f, m.file r.file = some f ∧
      (f.bytes ≠ 0 → r.aligned_off + p.skew + p.bytes ≤ f.bytes) := by
  unfold Manifest.check_part at h
  obtain ⟨⟨hrange, hspill⟩, hplace⟩ := List.append_eq_nil_iff.mp h |>.imp_left List.append_eq_nil_iff.mp
  have hrun := of_report hspill
  rw [add64_eq hpart] at hrun
  have hplace := of_report hplace
  rw [add64_eq (by omega)] at hplace
  obtain ⟨f, hf, hend⟩ := check_range_ok hrange
  have hoff : add64 r.aligned_off p.skew = r.aligned_off + p.skew := add64_eq (by omega)
  rw [hoff, add64_eq (by omega)] at hend
  exact ⟨⟨by omega, by omega, by omega⟩, f, hf, hend⟩

theorem check_run_ok {r : Run} {cursor stop : Nat} (h : m.check_run what cursor r = [])
    (hslot : cursor + r.aligned_bytes ≤ stop) (hstop : stop < 2 ^ 64)
    (hread : r.aligned_off + r.aligned_bytes < 2 ^ 64)
    (hparts : ∀ p ∈ r.parts, p.skew + p.bytes < 2 ^ 64) :
    r.slot_offset = cursor ∧
      (is_aligned r.slot_offset ∧ is_aligned r.aligned_off ∧ is_aligned r.aligned_bytes) ∧
      (∀ p ∈ r.parts, PartInside stop r p) ∧ ∃ f, m.file r.file = some f ∧ r.in_sectors f := by
  unfold Manifest.check_run at h
  simp only [List.append_eq_nil_iff] at h
  obtain ⟨⟨⟨⟨haligned, hcursor⟩, hslot_aligned⟩, hfile⟩, hall⟩ := h
  have hcursor : r.slot_offset = cursor := not_not.mp (of_report hcursor)
  have haligned := not_not.mp (of_report haligned)
  have hslot_aligned := not_not.mp (of_report hslot_aligned)
  have hpart : ∀ p ∈ r.parts, PartInside stop r p ∧ ∃ f, m.file r.file = some f ∧
      (f.bytes ≠ 0 → r.aligned_off + p.skew + p.bytes ≤ f.bytes) := fun p hp =>
    check_part_ok (List.flatMap_eq_nil_iff.mp hall p hp) (hcursor ▸ hslot) hstop hread (hparts p hp)
  obtain ⟨f, hf, hin⟩ := check_read_ok hfile
  rw [add64_eq hread] at hin
  refine ⟨hcursor, ⟨hslot_aligned, haligned⟩, fun p hp => (hpart p hp).1, f, hf, fun hsize => ?_⟩
  refine ⟨(hin hsize).1, (hin hsize).2, fun p hp => ?_⟩
  obtain ⟨f', hf', hend⟩ := (hpart p hp).2
  obtain rfl : f = f' := Option.some.inj (hf.symm.trans hf')
  exact hend hsize

/-- The loop over the runs; `stop` is the sum it ends with. -/
theorem check_runs_ok {rs : List Run} {cursor stop : Nat} (h : m.check_runs what cursor rs = [])
    (hstop : cursor + (rs.map Run.aligned_bytes).sum = stop) (hslot : stop < 2 ^ 64)
    (hreads : ∀ r ∈ rs, r.aligned_off + r.aligned_bytes < 2 ^ 64)
    (hparts : ∀ r ∈ rs, ∀ p ∈ r.parts, p.skew + p.bytes < 2 ^ 64) :
    Tiles cursor rs stop ∧ ∀ r ∈ rs,
      (is_aligned r.slot_offset ∧ is_aligned r.aligned_off ∧ is_aligned r.aligned_bytes) ∧
        (∀ p ∈ r.parts, PartInside stop r p) ∧ ∃ f, m.file r.file = some f ∧ r.in_sectors f := by
  induction rs generalizing cursor with
  | nil => exact ⟨hstop, fun r hr => absurd hr List.not_mem_nil⟩
  | cons r rs ih =>
    obtain ⟨hrun, hrest⟩ := List.append_eq_nil_iff.mp h
    rw [List.map_cons, List.sum_cons] at hstop
    have hfits : cursor + r.aligned_bytes ≤ stop := by omega
    obtain ⟨hplace, hchecked⟩ := check_run_ok hrun hfits hslot
      (hreads r List.mem_cons_self) (hparts r List.mem_cons_self)
    rw [add64_eq (by omega)] at hrest
    obtain ⟨htiles, hall⟩ := ih hrest (by omega)
      (fun r' hr' => hreads r' (List.mem_cons_of_mem _ hr'))
      (fun r' hr' => hparts r' (List.mem_cons_of_mem _ hr'))
    refine ⟨⟨hplace, htiles⟩, fun r' hr' => ?_⟩
    rcases List.mem_cons.mp hr' with rfl | hmem
    · exact hchecked
    · exact hall r' hmem

/-- `cursor` of the source is the sum of the runs. -/
theorem foldl_add64 (rs : List Run) (cursor : Nat)
    (h : cursor + (rs.map Run.aligned_bytes).sum < 2 ^ 64) :
    rs.foldl (fun c r => add64 c r.aligned_bytes) cursor =
      cursor + (rs.map Run.aligned_bytes).sum := by
  induction rs generalizing cursor with
  | nil => rfl
  | cons r rs ih =>
    rw [List.map_cons, List.sum_cons] at h ⊢
    rw [List.foldl_cons, add64_eq (by omega), ih _ (by omega), Nat.add_assoc]

end Checks

/-! ### Entries of the table -/

/-- An entry as `parse` builds it, run by run. -/
def Built (e : ExpertEntry) : Prop := e = e.runs.foldl add_run {}

/-- The offset and the size recorded for a part are those of a part of some run. -/
def Recorded (parts : List RunPart) (offset bytes : ExpertPart → Nat) : Prop :=
  ∀ q, bytes q ≠ 0 → ∃ p ∈ parts, p.part = q ∧ offset q = p.slot_offset ∧ bytes q = p.bytes

theorem Recorded.update {parts : List RunPart} {offset bytes : ExpertPart → Nat}
    (h : Recorded parts offset bytes) (p : RunPart) :
    Recorded (parts ++ [p]) (Function.update offset p.part p.slot_offset)
      (Function.update bytes p.part p.bytes) := by
  intro q hq
  by_cases hpq : q = p.part
  · subst hpq
    refine ⟨p, List.mem_append_right _ (List.mem_singleton.mpr rfl), rfl, ?_, ?_⟩
    · exact Function.update_self ..
    · exact Function.update_self ..
  · rw [Function.update_of_ne hpq] at hq ⊢
    rw [Function.update_of_ne hpq]
    obtain ⟨p', hmem, hp'⟩ := h q hq
    exact ⟨p', List.mem_append_left _ hmem, hp'⟩

theorem Recorded.foldl {parts : List RunPart} {offset bytes : ExpertPart → Nat}
    (h : Recorded parts offset bytes) (ps : List RunPart) :
    Recorded (parts ++ ps) (ps.foldl (fun f p => Function.update f p.part p.slot_offset) offset)
      (ps.foldl (fun f p => Function.update f p.part p.bytes) bytes) := by
  induction ps generalizing parts offset bytes with
  | nil =>
    rw [List.append_nil]
    exact h
  | cons p ps ih =>
    have hnext := ih (h.update p)
    rw [List.append_assoc] at hnext
    exact hnext

theorem recorded_runs {e : ExpertEntry} (rs : List Run)
    (h : Recorded (e.runs.flatMap Run.parts) e.part_offset e.part_bytes) :
    Recorded ((rs.foldl add_run e).runs.flatMap Run.parts) (rs.foldl add_run e).part_offset
      (rs.foldl add_run e).part_bytes := by
  induction rs generalizing e with
  | nil => exact h
  | cons r rs ih =>
    refine ih (e := add_run e r) ?_
    have hparts : (add_run e r).runs.flatMap Run.parts = e.runs.flatMap Run.parts ++ r.parts := by
      show (e.runs ++ [r]).flatMap Run.parts = _
      rw [List.flatMap_append, List.flatMap_singleton]
    rw [hparts]
    exact h.foldl r.parts

theorem runs_foldl (rs : List Run) (e : ExpertEntry) :
    (rs.foldl add_run e).runs = e.runs ++ rs := by
  induction rs generalizing e with
  | nil => exact (List.append_nil _).symm
  | cons r rs ih =>
    rw [List.foldl_cons, ih]
    exact List.append_assoc ..

theorem built_foldl (rs : List Run) : Built (rs.foldl add_run {}) := by
  unfold Built
  rw [runs_foldl]
  rfl

theorem Built.recorded {e : ExpertEntry} (h : Built e) :
    Recorded (e.runs.flatMap Run.parts) e.part_offset e.part_bytes := by
  rw [h]
  exact recorded_runs e.runs fun q hq => absurd rfl hq

theorem parse_expert_built {layer index : Nat} {xv : JsonValue} {e : ExpertEntry}
    (h : parse_expert layer index xv = .ok e) : Built e := by
  unfold parse_expert at h
  cases ha : xv.as_array with
  | error _ =>
    rw [ha] at h
    cases h
  | ok runs =>
    rw [ha] at h
    dsimp only at h
    cases hr : runs.mapM parse_run with
    | error _ =>
      rw [hr] at h
      cases h
    | ok rs =>
      rw [hr] at h
      cases h
      exact built_foldl rs

theorem parse_row_built {layer index : Nat} {xvs : List JsonValue} {row : List ExpertEntry}
    (h : parse_row layer index xvs = .ok row) : ∀ e ∈ row, Built e := by
  induction xvs generalizing index row with
  | nil =>
    cases h
    exact fun e he => absurd he List.not_mem_nil
  | cons xv xvs ih =>
    rw [parse_row] at h
    cases he : parse_expert layer index xv with
    | error _ =>
      rw [he] at h
      cases h
    | ok e =>
      cases hes : parse_row layer (index + 1) xvs with
      | error _ =>
        rw [he, hes] at h
        cases h
      | ok es =>
        rw [he, hes] at h
        cases h
        intro e' he'
        rcases List.mem_cons.mp he' with rfl | hmem
        · exact parse_expert_built he
        · exact ih hes e' hmem

/-- Every entry of the table was built run by run. -/
def AllBuilt (experts : List (List ExpertEntry)) : Prop := ∀ row ∈ experts, ∀ e ∈ row, Built e

theorem AllBuilt.put_row {experts : List (List ExpertEntry)} (h : AllBuilt experts) (layer : Nat)
    {row : List ExpertEntry} (hrow : ∀ e ∈ row, Built e) : AllBuilt (put_row experts layer row) := by
  intro row' hrow' e he
  rcases List.mem_or_eq_of_mem_set hrow' with hmem | rfl
  · rcases List.mem_append.mp hmem with hold | hnew
    · exact h row' hold e he
    · rw [List.eq_of_mem_replicate hnew] at he
      exact absurd he List.not_mem_nil
  · exact hrow e he

theorem parse_layer_built {experts experts' : List (List ExpertEntry)} {lv : JsonValue}
    (h : AllBuilt experts) (hl : parse_layer experts lv = .ok experts') : AllBuilt experts' := by
  unfold parse_layer at hl
  dsimp only at hl
  cases hf : lv.find (utf8 "experts") with
  | none =>
    rw [hf] at hl
    cases hl
  | some ev =>
    rw [hf] at hl
    dsimp only at hl
    cases ha : ev.as_array with
    | error _ =>
      rw [ha] at hl
      cases hl
    | ok earr =>
      rw [ha] at hl
      dsimp only at hl
      split at hl
      · cases hl
      cases hr : parse_row (to_uint32 (lv.int_or (utf8 "layer") 0)) 0 earr with
      | error _ =>
        rw [hr] at hl
        cases hl
      | ok row =>
        rw [hr] at hl
        cases hl
        exact h.put_row _ (parse_row_built hr)

theorem parse_layers_built {lvs : List JsonValue} {experts experts' : List (List ExpertEntry)}
    (h : AllBuilt experts) (hl : lvs.foldlM parse_layer experts = .ok experts') :
    AllBuilt experts' := by
  induction lvs generalizing experts with
  | nil =>
    cases hl
    exact h
  | cons lv lvs ih =>
    rw [List.foldlM_cons] at hl
    cases hnext : parse_layer experts lv with
    | error _ =>
      rw [hnext] at hl
      cases hl
    | ok next =>
      rw [hnext] at hl
      exact ih (parse_layer_built h hnext) hl

theorem parse_experts_built {doc : JsonValue} {experts : List (List ExpertEntry)}
    (h : parse_experts doc = .ok experts) : AllBuilt experts := by
  have hnone : AllBuilt [] := fun row hrow => absurd hrow List.not_mem_nil
  unfold parse_experts at h
  cases hf : doc.find (utf8 "experts") with
  | none =>
    rw [hf] at h
    cases h
    exact hnone
  | some ep =>
    rw [hf] at h
    dsimp only at h
    cases ha : ep.as_array with
    | error _ =>
      rw [ha] at h
      cases h
    | ok arr =>
      rw [ha] at h
      exact parse_layers_built hnone h

theorem parse_built {strtod : Bytes → Double} {json_text : Bytes} {m : Manifest}
    (h : Manifest.parse strtod json_text = .ok m) : AllBuilt m.experts := by
  obtain ⟨doc, _, hdoc⟩ := bind_eq_ok h
  cases doc with
  | object o =>
    unfold Manifest.of_json at hdoc
    dsimp only at hdoc
    split at hdoc
    · cases hdoc
    obtain ⟨files, _, hdoc⟩ := bind_eq_ok hdoc
    obtain ⟨tensors, _, hdoc⟩ := bind_eq_ok hdoc
    obtain ⟨experts, hexperts, hdoc⟩ := bind_eq_ok hdoc
    obtain ⟨engram, _, hdoc⟩ := bind_eq_ok hdoc
    cases hdoc
    exact parse_experts_built hexperts
  | null => cases hdoc
  | bool b => cases hdoc
  | number n => cases hdoc
  | string s => cases hdoc
  | array a => cases hdoc

/-! ### The checks of an expert -/

theorem validate_ok {m : Manifest} (h : m.validate = .ok ()) : m.bad = [] := by
  unfold Manifest.validate at h
  split at h
  · assumption
  · cases h

/-- Each entry of the table is checked, under some name. -/
theorem check_experts_ok {m : Manifest} (h : m.check_experts = []) {row : List ExpertEntry}
    (hrow : row ∈ m.experts) {e : ExpertEntry} (he : e ∈ row) :
    ∃ layer id, m.check_expert layer id e = [] := by
  obtain ⟨layer, hlayer, rfl⟩ := List.mem_iff_getElem.mp hrow
  obtain ⟨id, hid, rfl⟩ := List.mem_iff_getElem.mp he
  have hrow_mem : (m.experts[layer], layer) ∈ m.experts.zipIdx :=
    List.mk_mem_zipIdx_iff_getElem?.mpr (List.getElem?_eq_getElem hlayer)
  have hmem : (m.experts[layer][id], id) ∈ m.experts[layer].zipIdx :=
    List.mk_mem_zipIdx_iff_getElem?.mpr (List.getElem?_eq_getElem hid)
  have hchecks := List.flatMap_eq_nil_iff.mp h _ hrow_mem
  exact ⟨layer, id, List.flatMap_eq_nil_iff.mp hchecks _ hmem⟩

/-- A table with an entry has the slot size of the layout. -/
theorem check_slot_bytes_ok {m : Manifest} (h : m.check_slot_bytes = []) {row : List ExpertEntry}
    (hrow : row ∈ m.experts) : m.expert_slot_bytes = layout.kExpertSlotBytes := by
  unfold Manifest.check_slot_bytes at h
  simp only [List.append_eq_nil_iff] at h
  obtain ⟨⟨hmissing, _⟩, hlayout⟩ := h
  have hlisted : m.experts.length ≠ 0 := fun hzero => by
    rw [List.eq_nil_of_length_eq_zero hzero] at hrow
    exact absurd hrow List.not_mem_nil
  have hmissing := of_report hmissing
  have hlayout := of_report hlayout
  by_contra hne
  exact hlayout ⟨fun hzero => hmissing ⟨hzero, hlisted⟩, hne⟩

theorem check_expert_ok {m : Manifest} {layer id : Nat} {e : ExpertEntry}
    (h : m.check_expert layer id e = []) (hbuilt : Built e) (hsums : Unwrapped e)
    (hsize : m.expert_slot_bytes = layout.kExpertSlotBytes) : InBounds Run.in_sectors m e := by
  unfold Manifest.check_expert at h
  dsimp only at h
  split at h
  · cases h
  simp only [List.append_eq_nil_iff] at h
  obtain ⟨⟨⟨⟨⟨_, hslot⟩, hruns⟩, htotal⟩, _⟩, hmissing⟩ := h
  have hslot := of_report hslot
  have htotal : Manifest.run_total e.runs = e.slot_bytes := not_not.mp (of_report htotal)
  have hstop : 0 + (e.runs.map Run.aligned_bytes).sum = e.slot_bytes := by
    rw [← htotal]
    exact (foldl_add64 e.runs 0 (by rw [Nat.zero_add]; exact hsums.slot)).symm
  obtain ⟨htiles, hall⟩ := check_runs_ok hruns hstop
    (by rw [← hstop, Nat.zero_add]; exact hsums.slot) hsums.reads hsums.parts
  refine ⟨htiles, fun r hr => (hall r hr).1, ⟨Nat.le_of_not_lt hslot, hsize⟩,
    fun r hr => (hall r hr).2.1, fun q => ?_, fun r hr => (hall r hr).2.2⟩
  have hq : e.part_bytes q ≠ 0 :=
    of_report (List.flatMap_eq_nil_iff.mp hmissing q (ExpertPart.mem_all q))
  obtain ⟨p, hmem, hpart, hoffset, hbytes⟩ := hbuilt.recorded q hq
  obtain ⟨r, hr, hp⟩ := List.mem_flatMap.mp hmem
  exact ⟨r, hr, p, hp, hpart, hoffset, hbytes, hbytes ▸ hq⟩

theorem validated_in_bounds {strtod : Bytes → Double} {json_text : Bytes} {m : Manifest}
    (hparse : Manifest.parse strtod json_text = .ok m) (hvalid : m.validate = .ok ())
    {row : List ExpertEntry} (hrow : row ∈ m.experts) {e : ExpertEntry} (he : e ∈ row)
    (hsums : Unwrapped e) : InBounds Run.in_sectors m e := by
  have hbad := validate_ok hvalid
  unfold Manifest.bad at hbad
  simp only [List.append_eq_nil_iff] at hbad
  obtain ⟨⟨⟨_, hslot_bytes⟩, hexperts⟩, _⟩ := hbad
  obtain ⟨layer, id, hcheck⟩ := check_experts_ok hexperts hrow he
  exact check_expert_ok hcheck (parse_built hparse row hrow e he) hsums
    (check_slot_bytes_ok hslot_bytes hrow)

/-! ### The reads of `begin_fill` -/

def Run.to_store (r : Run) : Store.Run :=
  { file := r.file
    aligned_off := r.aligned_off
    aligned_bytes := r.aligned_bytes
    slot_offset := r.slot_offset }

/-- The entry that `begin_fill` is called with. -/
def ExpertEntry.to_store (e : ExpertEntry) (h : ∀ q, e.part_offset q < e.slot_bytes) :
    Store.ExpertEntry :=
  { runs := e.runs.map Run.to_store
    slot_bytes := e.slot_bytes
    part_offset := e.part_offset
    part_bytes := e.part_bytes
    part_in_slot := h }

theorem InBounds.parts_in_slot {within : Run → FileEntry → Prop} {m : Manifest} {e : ExpertEntry}
    (h : InBounds within m e) (q : ExpertPart) : e.part_offset q < e.slot_bytes := by
  obtain ⟨r, hr, p, hp, _, hoffset, _, hbytes⟩ := h.table q
  have hin := (h.parts r hr p hp).slot
  omega

/-- A read into slot `s` of `slot_bytes` bytes: it lands inside the slot, and it reads a listed
    file, whose last sector it stays within when the size is listed. -/
structure ReadInside (m : Manifest) (s : Store.ExpertSlot) (slot_bytes : Nat)
    (f : Store.FillRun) : Prop where
  lands : ∃ off, off + f.bytes ≤ slot_bytes ∧
    f.dst = (if s.host_ptr ≠ 0 then add64 s.host_ptr off else 0) ∧
    f.dev_dst = (if s.dev_addr ≠ 0 then add64 s.dev_addr off else kNoDeviceAddress)
  reads : ∃ file, m.file f.file = some file ∧
    (file.bytes ≠ 0 → f.file_off < file.bytes ∧ f.file_off + f.bytes ≤ sectors file.bytes)

/-- The reads of a `begin_fill` are the runs of its entry, which fits the slot. -/
theorem begin_fill_runs {st st' : Store.ExpertStore} {key : ExpertKey} {entry : Store.ExpertEntry}
    {tier : Tier} {res : Store.Reservation} (h : st.begin_fill key entry tier = (.ok res, st')) :
    entry.slot_bytes ≤ st.pool.cfg.slot_bytes ∧
      res.runs = entry.runs.map (Store.ExpertStore.fill_run (st'.slots res.slot)) := by
  unfold Store.ExpertStore.begin_fill at h
  dsimp only at h
  split at h
  · cases h
  split at h
  · cases h
  split at h
  · cases h
  next hfits =>
  rcases Store.reserve_locked_cases st key tier with ⟨e, he⟩ | ⟨slot, rest, addr, _, _, _, _, hres⟩
  · rw [he] at h
    cases h
  · rw [hres] at h
    cases h
    refine ⟨Nat.le_of_not_lt hfits, ?_⟩
    simp only [Store.ExpertStore.set_slot, Function.update_self]

theorem InBounds.reads_inside {m : Manifest} {e : ExpertEntry} (h : InBounds Run.in_sectors m e)
    {st st' : Store.ExpertStore} {key : ExpertKey} {tier : Tier} {res : Store.Reservation}
    (hfill : st.begin_fill key (e.to_store h.parts_in_slot) tier = (.ok res, st')) :
    ∀ f ∈ res.runs, ReadInside m (st'.slots res.slot) st.pool.cfg.slot_bytes f := by
  obtain ⟨hfits, hruns⟩ := begin_fill_runs hfill
  intro f hf
  rw [hruns] at hf
  obtain ⟨run, hrun, rfl⟩ := List.mem_map.mp hf
  obtain ⟨r, hr, rfl⟩ := List.mem_map.mp hrun
  obtain ⟨file, hfile, hin⟩ := h.files r hr
  have hslot : r.slot_offset + r.aligned_bytes ≤ e.slot_bytes := h.tiles.within r hr
  refine ⟨⟨r.slot_offset, Nat.le_trans hslot hfits, rfl, rfl⟩, file, hfile, fun hsize => ?_⟩
  exact ⟨(hin hsize).1, (hin hsize).2.1⟩

/-- In a manifest that is parsed and validated, an expert whose sums do not wrap is in bounds, and so
    are the reads that `begin_fill` hands out for it. -/
theorem validated_manifest_reads_in_bounds {strtod : Bytes → Double} {json_text : Bytes}
    {m : Manifest} (hparse : Manifest.parse strtod json_text = .ok m) (hvalid : m.validate = .ok ())
    {row : List ExpertEntry} (hrow : row ∈ m.experts) {e : ExpertEntry} (he : e ∈ row)
    (hsums : Unwrapped e) :
    ∃ h : InBounds Run.in_sectors m e,
      ∀ (st st' : Store.ExpertStore) (key : ExpertKey) (tier : Tier) (res : Store.Reservation),
        st.begin_fill key (e.to_store h.parts_in_slot) tier = (.ok res, st') →
        ∀ f ∈ res.runs, ReadInside m (st'.slots res.slot) st.pool.cfg.slot_bytes f := by
  have hin := validated_in_bounds hparse hvalid hrow he hsums
  refine ⟨hin, ?_⟩
  intro st st' key tier res hfill
  exact hin.reads_inside hfill

/-! ### A manifest of one expert -/

/-- The text of a part. -/
def part_text (tensor skew bytes : String) : String :=
  "\x7b\"tensor\":\"" ++ tensor ++ "\",\"skew\":" ++ skew ++ ",\"bytes\":" ++ bytes ++ "\x7d"

/-- The six parts, one behind the other. -/
def parts_text : String :=
  part_text "w1.weight" "0" "18800635" ++ "," ++ part_text "w1.scale" "18800635" "1" ++ "," ++
    part_text "w2.weight" "18800636" "1" ++ "," ++ part_text "w2.scale" "18800637" "1" ++ "," ++
    part_text "w3.weight" "18800638" "1" ++ "," ++ part_text "w3.scale" "18800639" "1"

def run_text (aligned_off aligned_bytes slot_offset parts : String) : String :=
  "\x7b\"aligned_off\":" ++ aligned_off ++ ",\"aligned_bytes\":" ++ aligned_bytes ++
    ",\"slot_offset\":" ++ slot_offset ++ ",\"parts\":[" ++ parts ++ "]\x7d"

/-- The text of a manifest with one file, of 4590 sectors and a byte, and one expert. -/
def one_expert (runs : String) : Bytes :=
  utf8 ("\x7b\"version\":2,\"expert_slot_bytes\":18808832," ++
    "\"files\":[\x7b\"path\":\"a\",\"bytes\":18800641\x7d],\"tensors\":\x7b\x7d," ++
    "\"experts\":[\x7b\"layer\":0,\"experts\":[[" ++ runs ++ "]]\x7d]\x7d")

def no_double (_ : Bytes) : Double := .finite 0

/-- The file, read whole. -/
def whole_run : Run :=
  { aligned_bytes := 18804736
    parts :=
      [{ part := .W1Weight, skew := 0, bytes := 18800635, slot_offset := 0 },
        { part := .W1Scale, skew := 18800635, bytes := 1, slot_offset := 18800635 },
        { part := .W2Weight, skew := 18800636, bytes := 1, slot_offset := 18800636 },
        { part := .W2Scale, skew := 18800637, bytes := 1, slot_offset := 18800637 },
        { part := .W3Weight, skew := 18800638, bytes := 1, slot_offset := 18800638 },
        { part := .W3Scale, skew := 18800639, bytes := 1, slot_offset := 18800639 }] }

/-- A read whose end wraps to 0, and the cursor with it. -/
def wrapping_run : Run :=
  { aligned_off := 4096, aligned_bytes := 2 ^ 64 - 4096, slot_offset := 18804736 }

/-- The runs of the experts and the sizes of the files, when the manifest is validated. -/
def approved : Load Manifest → Option (List (List (List Run)) × List Nat)
  | .ok m =>
    if m.bad = [] then
      some (m.experts.map fun row => row.map ExpertEntry.runs, m.files.map FileEntry.bytes)
    else none
  | .error _ => none

theorem whole_run_approved :
    approved (Manifest.parse no_double (one_expert (run_text "0" "18804736" "0" parts_text))) =
      some ([[[whole_run]]], [18800641]) := by
  decide +kernel

theorem wrapping_run_approved :
    approved (Manifest.parse no_double (one_expert (run_text "0" "18804736" "0" parts_text ++ "," ++
      run_text "4096" "18446744073709547520" "18804736" ""))) =
      some ([[[whole_run, wrapping_run]]], [18800641]) := by
  decide +kernel

theorem approved_expert {json_text : Bytes} {runs : List Run} {size : Nat}
    (h : approved (Manifest.parse no_double json_text) = some ([[runs]], [size])) :
    ∃ m e, Manifest.parse no_double json_text = .ok m ∧ m.validate = .ok () ∧ [e] ∈ m.experts ∧
      e.runs = runs ∧ ∀ f, m.file 0 = some f → f.bytes = size := by
  cases hm : Manifest.parse no_double json_text with
  | error _ =>
    rw [hm] at h
    cases h
  | ok m =>
    rw [hm] at h
    unfold approved at h
    dsimp only at h
    split at h
    · next hbad =>
      obtain ⟨hexperts, hfiles⟩ := Prod.mk.inj (Option.some.inj h)
      obtain ⟨row, hrows, hrow⟩ := List.map_eq_singleton_iff.mp hexperts
      obtain ⟨e, hes, hruns⟩ := List.map_eq_singleton_iff.mp hrow
      obtain ⟨file, hfile, hsize⟩ := List.map_eq_singleton_iff.mp hfiles
      refine ⟨m, e, rfl, if_pos hbad, ?_, hruns, fun f hf => ?_⟩
      · rw [hrows, hes]
        exact List.mem_singleton.mpr rfl
      · unfold Manifest.file at hf
        rw [hfile] at hf
        cases hf
        exact hsize
    · cases h

theorem whole_run_unwrapped {e : ExpertEntry} (h : e.runs = [whole_run]) : Unwrapped e := by
  constructor
  all_goals rw [h]
  · decide
  · decide
  · decide

/-- A store of one free slot. -/
def one_slot : Store.ExpertStore :=
  { layers := 1, experts_per_layer := 1, slots_size := 1, free_list := [0] }

theorem one_slot_fill {entry : Store.ExpertEntry} (htwo : entry.runs.length = 2)
    (hfits : entry.slot_bytes ≤ layout.kExpertSlotBytes) :
    ∃ res st', one_slot.begin_fill ⟨0, 0⟩ entry .Cached = (.ok res, st') := by
  have hmax : ¬ 2 > layout.kMaxExpertRuns := by decide
  have hbytes : ¬ entry.slot_bytes > one_slot.pool.cfg.slot_bytes := Nat.not_lt.mpr hfits
  unfold Store.ExpertStore.begin_fill
  dsimp only
  rw [htwo, if_neg two_ne_zero, if_neg hmax, if_neg hbytes]
  exact ⟨_, _, rfl⟩

/-- The first sector of the file. -/
def first_run : Run :=
  { aligned_bytes := 4096
    parts := [{ part := .W1Weight, skew := 0, bytes := 4096, slot_offset := 0 }] }

/-- The others, behind it in the slot. -/
def last_run : Run :=
  { aligned_off := 4096, aligned_bytes := 18800640, slot_offset := 4096
    parts :=
      [{ part := .W1Scale, skew := 0, bytes := 18796540, slot_offset := 4096 },
        { part := .W2Weight, skew := 18796540, bytes := 1, slot_offset := 18800636 },
        { part := .W2Scale, skew := 18796541, bytes := 1, slot_offset := 18800637 },
        { part := .W3Weight, skew := 18796542, bytes := 1, slot_offset := 18800638 },
        { part := .W3Scale, skew := 18796543, bytes := 1, slot_offset := 18800639 }] }

def two_runs_text : Bytes :=
  one_expert (run_text "0" "4096" "0" (part_text "w1.weight" "0" "4096") ++ "," ++
    run_text "4096" "18800640" "4096"
      (part_text "w1.scale" "0" "18796540" ++ "," ++ part_text "w2.weight" "18796540" "1" ++ "," ++
        part_text "w2.scale" "18796541" "1" ++ "," ++ part_text "w3.weight" "18796542" "1" ++
        "," ++ part_text "w3.scale" "18796543" "1"))

theorem two_runs_approved : approved (Manifest.parse no_double two_runs_text) =
    some ([[[first_run, last_run]]], [18800641]) := by
  decide +kernel

theorem two_runs_unwrapped {e : ExpertEntry} (h : e.runs = [first_run, last_run]) :
    Unwrapped e := by
  constructor
  all_goals rw [h]
  · decide
  · decide
  · decide

/-- Two reads side by side in the slot, of a file that ends a byte into its last sector. -/
theorem validated_manifest_reads_in_bounds_tiled :
    ∃ m e, Manifest.parse no_double two_runs_text = .ok m ∧
      e.runs = [first_run, last_run] ∧ InBounds Run.in_sectors m e ∧
      ∃ (res : Store.Reservation) (st' : Store.ExpertStore), res.runs.length = 2 ∧
        ∀ f ∈ res.runs, ReadInside m (st'.slots res.slot) one_slot.pool.cfg.slot_bytes f := by
  obtain ⟨m, e, hparse, hvalid, hrow, hruns, _⟩ := approved_expert two_runs_approved
  obtain ⟨hin, hreads⟩ := validated_manifest_reads_in_bounds hparse hvalid hrow
    (List.mem_singleton.mpr rfl) (two_runs_unwrapped hruns)
  have htwo : (e.to_store hin.parts_in_slot).runs.length = 2 := by
    show (e.runs.map Run.to_store).length = 2
    rw [hruns]
    rfl
  obtain ⟨res, st', hfill⟩ := one_slot_fill htwo (hin.slot.2 ▸ hin.slot.1)
  refine ⟨m, e, hparse, hruns, hin, res, st', ?_, hreads _ _ _ _ _ hfill⟩
  rw [(begin_fill_runs hfill).2, List.length_map, htwo]

/-- The last sector of a file is read past the end of the file; and a sum that wraps lets a read of
    almost `2 ^ 64` bytes pass. -/
theorem validated_manifest_reads_out_of_bounds :
    (¬ ∀ (strtod : Bytes → Double) (json_text : Bytes) (m : Manifest),
      Manifest.parse strtod json_text = .ok m → m.validate = .ok () →
        ∀ row ∈ m.experts, ∀ e ∈ row, InBounds Run.in_file m e) ∧
    (¬ ∀ (strtod : Bytes → Double) (json_text : Bytes) (m : Manifest),
      Manifest.parse strtod json_text = .ok m → m.validate = .ok () →
        ∀ row ∈ m.experts, ∀ e ∈ row, Unwrapped e → InBounds Run.in_file m e) ∧
    ¬ ∀ (strtod : Bytes → Double) (json_text : Bytes) (m : Manifest),
      Manifest.parse strtod json_text = .ok m → m.validate = .ok () →
        ∀ row ∈ m.experts, ∀ e ∈ row, InBounds Run.in_sectors m e := by
  have hsector : ¬ ∀ (strtod : Bytes → Double) (json_text : Bytes) (m : Manifest),
      Manifest.parse strtod json_text = .ok m → m.validate = .ok () →
        ∀ row ∈ m.experts, ∀ e ∈ row, Unwrapped e → InBounds Run.in_file m e := by
    intro hall
    obtain ⟨m, e, hparse, hvalid, hrow, hruns, hsize⟩ := approved_expert whole_run_approved
    have hin := hall _ _ m hparse hvalid [e] hrow e (List.mem_singleton.mpr rfl)
      (whole_run_unwrapped hruns)
    obtain ⟨f, hf, hwithin⟩ := hin.files whole_run (hruns ▸ List.mem_singleton.mpr rfl)
    have hend : 0 + 18804736 ≤ f.bytes := hwithin.1
    rw [hsize f hf] at hend
    exact absurd hend (by decide)
  refine ⟨fun hall => hsector ?_, hsector, fun hall => ?_⟩
  · intro strtod json_text m hparse hvalid row hrow e he _
    exact hall strtod json_text m hparse hvalid row hrow e he
  · obtain ⟨m, e, hparse, hvalid, hrow, hruns, _⟩ := approved_expert wrapping_run_approved
    have hin := hall _ _ m hparse hvalid [e] hrow e (List.mem_singleton.mpr rfl)
    have hmem : wrapping_run ∈ e.runs := by
      rw [hruns]
      exact List.mem_cons_of_mem _ (List.mem_singleton.mpr rfl)
    have hslot : 18804736 + (2 ^ 64 - 4096) ≤ e.slot_bytes := hin.tiles.within _ hmem
    have hlayout : e.slot_bytes ≤ layout.kExpertSlotBytes := hin.slot.2 ▸ hin.slot.1
    unfold layout.kExpertSlotBytes at hlayout
    omega

end CachedMoe.Model
