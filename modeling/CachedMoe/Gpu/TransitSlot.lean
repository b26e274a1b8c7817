import CachedMoe.Gpu.TransitRing

/-! # A slot of the transit

    What a layer does to one slot of the transit. Its blind read, if it has one, is waited for
    by the batch that computes the expert or by the one that refills the segment; a batch that
    refills the segment finds every expert that was read into it computed, because the batch
    before and the last one of the read-ahead sit in other segments. -/

namespace CachedMoe.Gpu

open CachedMoe CachedMoe.Store Transfer

variable {inp : Input} {L : Nat} {A : AheadSlots}
  {image : Weights → Fin layout.kExpertSlotBytes → UInt8}

/-! ### A transit slot -/

/-- The batch of the expert reads it into its transit slot. -/
def Input.reads_in (inp : Input) (L : Nat) (A : AheadSlots) (e : Nat) : Prop :=
  (inp.dest L e).kind = .Drop ∧ A.slot e = none

/-- Transit slot `t` in the middle of a layer: `landed` tells whether its blind reads were waited
    for, `out` are the placed experts whose batch has not waited for their reads yet, `running` the
    placed experts of the batches issued and not yet computed, and `due` all experts still to be
    computed. -/
structure InSlot (inp : Input) (L : Nat) (A : AheadSlots) (t : Nat) (landed : Bool)
    (out running : List (Nat × Nat)) (due : List Nat) (c : Cell Weights Nat) : Prop where
  mine : c.mine = true
  flight : ∀ x, x ∈ c.flight ↔
    (∃ e, A.slot e = some t ∧ landed = false ∧ x ∈ parts_of inp L e) ∨
      ∃ e, (e, t) ∈ out ∧ inp.reads_in L A e ∧ x ∈ parts_of inp L e
  /-- What was read ahead stays until it is computed. -/
  kept : ∀ e ∈ due, A.slot e = some t → landed = true → parts_of inp L e ⊆ c.landed
  settled : ∀ j ∈ c.started, inp.needed j → j ∈ c.done ∨
    ∃ e ∈ due, j = (L, e) ∧ (A.slot e = some t ∨ (e, t) ∈ running ∧ inp.reads_in L A e)

/-- The slot's blind reads, if it had any, were waited for. -/
def Landed (A : AheadSlots) (slot : Nat) (landed : Nat → Bool) : Prop :=
  ∀ e, A.slot e = some slot → landed slot = true

theorem Landed.land {landed : Nat → Bool} {slot slot' : Nat} (h : Landed A slot landed) :
    Landed A slot (inp.land L A slot' landed).2 := by
  intro e he
  have hold := h e he
  unfold Input.land
  cases A.order[slot']? with
  | none => exact hold
  | some e' =>
    dsimp only
    split
    · by_cases hslot : slot = slot'
      · rw [hslot]
        exact Function.update_self ..
      · rw [← hold]
        exact Function.update_of_ne hslot ..
    · exact hold

section TransitSlot

variable {t : Nat} {b : Bool} {out running : List (Nat × Nat)} {due : List Nat}
  {c : Cell Weights Nat}

theorem land_landed (slot : Nat) (landed : Nat → Bool) :
    Landed A slot (inp.land L A slot landed).2 := by
  intro e he
  rw [AheadSlots.slot_eq_some] at he
  unfold Input.land
  rw [he]
  dsimp only
  split
  · exact Function.update_self ..
  · rename_i h
    simpa using h

/-- The blind reads of slot `t` have been waited for. -/
theorem InSlot.land (h : InSlot inp L A t false out running due c) {e : Nat}
    (he : A.slot e = some t) : InSlot inp L A t true out running due
      { c with
        flight := c.flight \ parts_of inp L e
        landed := c.landed ∪ parts_of inp L e } where
  mine := h.mine
  flight x := by
    constructor
    · rintro ⟨hx, hnot⟩
      rcases (h.flight x).mp hx with ⟨e', he', -, hx'⟩ | hx'
      · rw [A.slot_inj he' he] at hx'
        exact absurd hx' hnot
      · exact .inr hx'
    · rintro (⟨e', -, hfalse, -⟩ | ⟨e', hout, hreads, hx⟩)
      · cases hfalse
      · refine ⟨(h.flight x).mpr (.inr ⟨e', hout, hreads, hx⟩), fun hmem => ?_⟩
        rw [← parts_of_inj hx hmem, hreads.2] at he
        cases he
  kept e' _ he' _ x hx := by
    rw [A.slot_inj he' he] at hx
    exact .inr hx
  settled := h.settled

theorem land_meets (slot : Nat) : Meets (inp.weights image) (.transit t)
    (fun landed c => InSlot inp L A t (landed t) out running due c) (inp.land L A slot)
    fun landed c => InSlot inp L A t (landed t) out running due c ∧ Landed A slot landed := by
  intro landed c hc
  refine wp_mono ?_ fun c' hc' => ⟨hc', land_landed slot landed⟩
  unfold Input.land
  cases horder : A.order[slot]? with
  | none => exact hc
  | some e =>
    have he : A.slot e = some slot := AheadSlots.slot_eq_some.mpr horder
    by_cases hfresh : landed slot = false
    · dsimp only
      rw [if_pos hfresh]
      by_cases hslot : slot = t
      · subst hslot
        rw [hfresh] at hc
        apply wp_awaits List.nodup_range
        · intro run hrun
          exact (hc.flight _).mpr (.inl ⟨e, he, rfl, rfl, hrun⟩)
        · dsimp only
          rw [Function.update_self]
          exact hc.land he
      · apply wp_elsewhere
        · intro ev hev
          obtain ⟨run, -, rfl⟩ := List.mem_map.mp hev
          exact elsewhere_await fun heq => hslot (Dst.transit.inj heq)
        · dsimp only
          rw [Function.update_of_ne (Ne.symm hslot)]
          exact hc
    · dsimp only
      rw [if_neg hfresh]
      exact hc

theorem land_all_meets (slots : List Nat) : Meets (inp.weights image) (.transit t)
    (fun landed c => InSlot inp L A t (landed t) out running due c) (.each (inp.land L A) slots)
    fun landed c => InSlot inp L A t (landed t) out running due c ∧
      ∀ slot ∈ slots, Landed A slot landed :=
  Meets.each (fun slot _ => land_meets slot) fun _ _ _ h => h.land

/-! #### Issuing a batch -/

theorem starts_elsewhere {e : Nat} {dst : Dst} (h : dst ≠ .transit t) :
    ∀ ev ∈ inp.starts L e dst, Elsewhere (inp.weights image) (.transit t) ev := by
  intro ev hev
  obtain ⟨run, -, rfl⟩ := List.mem_map.mp hev
  exact elsewhere_start h

theorem awaits_elsewhere {e : Nat} {dst : Dst} (h : dst ≠ .transit t) :
    ∀ ev ∈ inp.awaits L e dst, Elsewhere (inp.weights image) (.transit t) ev := by
  intro ev hev
  obtain ⟨run, -, rfl⟩ := List.mem_map.mp hev
  exact elsewhere_await h

/-- What the sink lends is no slot of the transit. -/
theorem takes_elsewhere {e : Nat} :
    ∀ ev ∈ inp.takes L e, Elsewhere (inp.weights image) (.transit t) ev := by
  intro ev hev
  unfold Input.takes at hev
  split at hev
  · cases hev
  · obtain rfl := List.mem_singleton.mp hev
    exact elsewhere_take fun heq => by cases heq
  · obtain rfl := List.mem_singleton.mp hev
    exact elsewhere_take fun heq => by cases heq

/-- A batch's read goes into the transit slot just where the slot is the expert's. -/
theorem target_transit {p : Nat × Nat} (hstream : inp.streams L A p.1)
    (h : inp.target L p = .transit t) : p.2 = t ∧ inp.reads_in L A p.1 := by
  unfold Input.target at h
  split at h
  · cases h
  · rename_i hfill
    refine ⟨Dst.transit.inj h, ?_, hstream.2⟩
    cases hkind : (inp.dest L p.1).kind with
    | Drop => rfl
    | Fill => exact absurd hkind hfill
    | Resident => exact absurd hkind hstream.1

theorem Input.reads_in.streams {e : Nat} (h : inp.reads_in L A e) : inp.streams L A e := by
  refine ⟨?_, h.2⟩
  rw [h.1]
  decide

theorem Input.reads_in.target {p : Nat × Nat} (h : inp.reads_in L A p.1) :
    inp.target L p = .transit p.2 := by
  unfold Input.target
  rw [h.1]
  rfl

/-- The events of an expert that is issued, seen from a slot that is not read into. -/
theorem issued_elsewhere {p : Nat × Nat} (h : p.2 = t → ¬ inp.reads_in L A p.1) :
    ∀ ev ∈ inp.reads L A p, Elsewhere (inp.weights image) (.transit t) ev := by
  intro ev hev
  rcases List.mem_append.mp hev with hev | hev
  · exact takes_elsewhere ev hev
  · split at hev
    · rename_i hstream
      refine starts_elsewhere (fun heq => ?_) ev hev
      obtain ⟨hslot, hreads⟩ := target_transit hstream heq
      exact h hslot hreads
    · cases hev

/-- No expert of the batch is read into the slot. -/
theorem InSlot.issue_none {ps : List (Nat × Nat)} (h : InSlot inp L A t b out running due c)
    (hnone : ∀ p ∈ ps, p.2 = t → ¬ inp.reads_in L A p.1) :
    InSlot inp L A t b (out ++ ps) (running ++ ps) due c where
  mine := h.mine
  flight x := by
    rw [h.flight]
    refine or_congr_right ⟨?_, ?_⟩
    · rintro ⟨e, hout, hrest⟩
      exact ⟨e, List.mem_append_left _ hout, hrest⟩
    · rintro ⟨e, hout, hreads, hx⟩
      rcases List.mem_append.mp hout with hout | hps
      · exact ⟨e, hout, hreads, hx⟩
      · exact absurd hreads (hnone _ hps rfl)
  kept := h.kept
  settled j hj hneeded := by
    refine (h.settled j hj hneeded).imp_right ?_
    rintro ⟨e, he, rfl, hwhy⟩
    exact ⟨e, he, rfl, hwhy.imp_right fun hrun => ⟨List.mem_append_left _ hrun.1, hrun.2⟩⟩

/-- No expert to be computed is in the slot, and no read into it is out. -/
structure Vacant (inp : Input) (L : Nat) (A : AheadSlots) (t : Nat) (out running : List (Nat × Nat))
    (due : List Nat) : Prop where
  clear : ∀ e ∈ due, A.slot e ≠ some t
  unread : ∀ e, (e, t) ∈ out → ¬ inp.reads_in L A e
  unused : ∀ e, (e, t) ∈ running → ¬ inp.reads_in L A e

theorem InSlot.idle_flight (h : InSlot inp L A t b out running due c)
    (hidle : Vacant inp L A t out running due) (hlanded : ∀ e, A.slot e = some t → b = true) :
    c.flight = ∅ := by
  ext x
  refine ⟨fun hx => ?_, fun hx => hx.elim⟩
  rcases (h.flight x).mp hx with ⟨e, he, hfalse, -⟩ | ⟨e, hout, hreads, -⟩
  · rw [hlanded e he] at hfalse
    cases hfalse
  · exact absurd hreads (hidle.unread e hout)

theorem InSlot.idle_settled (h : InSlot inp L A t b out running due c)
    (hidle : Vacant inp L A t out running due) {j : Weights} (hj : j ∈ c.started)
    (hneeded : inp.needed j) : j ∈ c.done := by
  rcases h.settled j hj hneeded with hdone | ⟨e, he, -, hslot | ⟨hrun, hreads⟩⟩
  · exact hdone
  · exact absurd hslot (hidle.clear e he)
  · exact absurd hreads (hidle.unused e hrun)

/-- An expert of a batch is read into a slot that nothing needs any more. -/
theorem InSlot.issue_one {ps : List (Nat × Nat)} {e : Nat}
    (h : InSlot inp L A t b out running due c) (hidle : Vacant inp L A t out running due)
    (hlanded : ∀ e, A.slot e = some t → b = true) (hmem : (e, t) ∈ ps)
    (hone : ∀ e', (e', t) ∈ ps → e' = e) (hreads : inp.reads_in L A e) (hdue : e ∈ due)
    {c' : Cell Weights Nat} (hmine : c'.mine = true)
    (hflight : c'.flight = c.flight ∪ parts_of inp L e)
    (hstarted : c'.started ⊆ insert (L, e) c.started) (hdone : c'.done = c.done) :
    InSlot inp L A t b (out ++ ps) (running ++ ps) due c' where
  mine := hmine
  flight x := by
    rw [hflight, h.idle_flight hidle hlanded]
    constructor
    · rintro (hx | hx)
      · exact hx.elim
      · exact .inr ⟨e, List.mem_append_right _ hmem, hreads, hx⟩
    · rintro (⟨e', he', hfalse, -⟩ | ⟨e', hout, hreads', hx⟩)
      · rw [hlanded e' he'] at hfalse
        cases hfalse
      · rcases List.mem_append.mp hout with hout | hps
        · exact absurd hreads' (hidle.unread e' hout)
        · rw [hone e' hps] at hx
          exact .inr hx
  kept e' he' hslot := absurd hslot (hidle.clear e' he')
  settled j hj hneeded := by
    rw [hdone]
    rcases hstarted hj with rfl | hj
    · exact .inr ⟨e, hdue, rfl, .inr ⟨List.mem_append_right _ hmem, hreads⟩⟩
    · exact .inl (h.idle_settled hidle hj hneeded)

theorem placed_in_segment {bt : Batch} (h : Refill A inp.pcfg.transit_slots bt) {p : Nat × Nat}
    (hp : p ∈ inp.placed A bt) : p.2 ∈ slots_of inp.pcfg.transit_slots bt.seg := by
  obtain ⟨j, hj, hslot⟩ := placed_fresh hp (h.fresh _ (mem_placed hp))
  have hlt := (List.getElem?_eq_some_iff.mp hj).1
  have hfits := h.fits
  rw [hslot, slots_of, List.mem_range'_1]
  omega

theorem placed_slot_inj {bt : Batch} (h : Refill A inp.pcfg.transit_slots bt) {p q : Nat × Nat}
    (hp : p ∈ inp.placed A bt) (hq : q ∈ inp.placed A bt) (hslot : p.2 = q.2) : p = q := by
  obtain ⟨j, hj, hp₂⟩ := placed_fresh hp (h.fresh _ (mem_placed hp))
  obtain ⟨k, hk, hq₂⟩ := placed_fresh hq (h.fresh _ (mem_placed hq))
  obtain rfl : j = k := by omega
  exact Prod.ext (Option.some.inj (hj.symm.trans hk)) hslot

/-- A batch is issued: its refill waits for the blind reads of its segment, and then goes over
    slots that nothing needs any more. -/
theorem issue_meets {bt : Batch} {ps : List (Nat × Nat)} (hbt : bt ∈ inp.batches L A.slot)
    (hnodup : bt.experts.Nodup) (hdue : ∀ e ∈ bt.experts, e ∈ due)
    (hidle : bt.refills A.slot → t ∈ slots_of inp.pcfg.transit_slots bt.seg →
      Vacant inp L A t ps ps due) :
    Meets (inp.weights image) (.transit t)
      (fun landed c => InSlot inp L A t (landed t) ps ps due c) (inp.issue L A bt)
      fun landed c => InSlot inp L A t (landed t) (ps ++ inp.placed A bt) (ps ++ inp.placed A bt)
        due c := by
  rcases batch_cases hbt with ⟨hno, hsome⟩ | ⟨hyes, hrefill⟩
  · -- a batch of the read-ahead reads nothing itself
    have hquiet : ∀ p ∈ inp.placed A bt, p.2 = t → ¬ inp.reads_in L A p.1 := by
      rintro p hp - ⟨-, hnone⟩
      have hyes := hsome p.1 (mem_placed hp)
      rw [hnone] at hyes
      cases hyes
    rw [Input.issue, if_neg hno]
    refine Meets.andThen (Meets.emit fun landed c hc => hc) (Meets.emit fun landed c hc => ?_)
    exact wp_none (fun p hp => issued_elsewhere (hquiet p hp)) (hc.issue_none hquiet)
  · rw [Input.issue, if_pos hyes]
    refine Meets.andThen (land_all_meets _) (Meets.emit fun landed c hc => ?_)
    obtain ⟨hc, hlanded⟩ := hc
    by_cases hread : ∃ p ∈ inp.placed A bt, p.2 = t ∧ inp.reads_in L A p.1
    · obtain ⟨⟨e, t'⟩, hp, rfl, hreads⟩ := hread
      have hslot := placed_in_segment hrefill hp
      have hidle := hidle hyes hslot
      have hall : ∀ e', A.slot e' = some t' → landed t' = true := hlanded t' hslot
      apply wp_only (nodup_placed hnodup) hp
      · intro q hq hne
        apply issued_elsewhere
        rintro hq₂ -
        exact hne (placed_slot_inj hrefill hq hp hq₂)
      · have htakes : inp.takes L e = [] := by
          unfold Input.takes
          rw [hreads.1]
        rw [Input.reads, htakes, if_pos hreads.streams, hreads.target (p := (e, t')),
          List.nil_append]
        apply wp_starts List.nodup_range hc.mine
        · intro x hx
          rw [hc.idle_flight hidle hall] at hx
          exact hx.elim
        · intro j hj _ hneeded
          exact hc.idle_settled hidle hj hneeded
        · intro c' hmine hflight hstarted hdone
          refine hc.issue_one hidle hall hp (fun e' he' => ?_) hreads (hdue e (mem_placed hp)) hmine
            hflight hstarted hdone
          exact congrArg Prod.fst (placed_slot_inj hrefill he' hp rfl)
    · have hquiet : ∀ p ∈ inp.placed A bt, p.2 = t → ¬ inp.reads_in L A p.1 :=
        fun p hp hslot hreads => hread ⟨p, hp, hslot, hreads⟩
      exact wp_none (fun p hp => issued_elsewhere (hquiet p hp)) (hc.issue_none hquiet)

/-! #### Computing a batch -/

/-- The reads of the batch before were waited for. -/
theorem InSlot.await_none {ps : List (Nat × Nat)}
    (h : InSlot inp L A t b (ps ++ out) running due c)
    (hnone : ∀ p ∈ ps, p.2 = t → ¬ inp.reads_in L A p.1) :
    InSlot inp L A t b out running due c where
  mine := h.mine
  flight x := by
    rw [h.flight]
    refine or_congr_right ⟨?_, ?_⟩
    · rintro ⟨e, hout, hreads, hx⟩
      rcases List.mem_append.mp hout with hps | hout
      · exact absurd hreads (hnone _ hps rfl)
      · exact ⟨e, hout, hreads, hx⟩
    · rintro ⟨e, hout, hrest⟩
      exact ⟨e, List.mem_append_right _ hout, hrest⟩
  kept := h.kept
  settled := h.settled

theorem InSlot.await_one {ps : List (Nat × Nat)} {e : Nat}
    (h : InSlot inp L A t b (ps ++ out) running due c) (hnone : A.slot e = none)
    (hone : ∀ e', (e', t) ∈ ps → inp.reads_in L A e' → e' = e) (hout : (e, t) ∉ out) :
    InSlot inp L A t b out running due { c with
      flight := c.flight \ parts_of inp L e
      landed := c.landed ∪ parts_of inp L e } where
  mine := h.mine
  flight x := by
    constructor
    · rintro ⟨hx, hnot⟩
      rcases (h.flight x).mp hx with hblind | ⟨e', hmem, hreads, hx'⟩
      · exact .inl hblind
      · rcases List.mem_append.mp hmem with hps | hmem
        · rw [hone e' hps hreads] at hx'
          exact absurd hx' hnot
        · exact .inr ⟨e', hmem, hreads, hx'⟩
    · rintro (⟨e', he', hfalse, hx⟩ | ⟨e', hmem, hreads, hx⟩)
      · refine ⟨(h.flight x).mpr (.inl ⟨e', he', hfalse, hx⟩), fun hx' => ?_⟩
        rw [parts_of_inj hx hx', hnone] at he'
        cases he'
      · refine ⟨(h.flight x).mpr (.inr ⟨e', List.mem_append_right _ hmem, hreads, hx⟩),
          fun hx' => ?_⟩
        rw [parts_of_inj hx hx'] at hmem
        exact hout hmem
  kept e' he' hslot hlanded x hx := .inl (h.kept e' he' hslot hlanded hx)
  settled := h.settled

/-- The experts of the batch that are computed from the slot are there. -/
def AllThere (inp : Input) (L : Nat) (A : AheadSlots) (t : Nat) (ps : List (Nat × Nat))
    (c : Cell Weights Nat) : Prop :=
  ∀ p ∈ ps, p.2 = t → inp.reads_in L A p.1 ∨ A.slot p.1 = some t → parts_of inp L p.1 ⊆ c.landed

/-- An expert's address is in the transit when its slot is used. -/
theorem base_transit {bt : Batch} {p : Nat × Nat} (hp : p ∈ inp.placed A bt)
    (h : inp.base L p = .transit t) : p.2 = t ∧ (inp.reads_in L A p.1 ∨ A.slot p.1 = some t) := by
  unfold Input.base at h
  split at h
  · cases h
  · rename_i hdrop
    have hslot := Dst.transit.inj h
    refine ⟨hslot, ?_⟩
    cases hahead : A.slot p.1 with
    | none => exact .inl ⟨not_not.mp hdrop, hahead⟩
    | some slot => exact .inr (by rw [← hslot, placed_ahead hp hahead])

theorem copies_passive {bt : Batch} (hmine : c.mine = true)
    (hready : AllThere inp L A t (inp.placed A bt) c) :
    ∀ ev ∈ inp.copies L A bt, c.Allows (inp.weights image) (.transit t) ev ∧
      c.apply (inp.weights image) (.transit t) ev = c := by
  intro ev hev
  obtain ⟨p, hp, hev⟩ := List.mem_flatMap.mp hev
  split at hev
  · rename_i hahead
    obtain rfl := List.mem_singleton.mp hev
    have hcache : Dst.cache (inp.dest L p.1).slot ≠ .transit t := fun heq => by cases heq
    refine copy_passive hcache fun hslot => ⟨hmine, ?_⟩
    obtain ⟨slot, hsome⟩ := Option.isSome_iff_exists.mp hahead.1
    have hplace := placed_ahead hp hsome
    have heq := Dst.transit.inj hslot
    exact whole_of_parts (hready p hp heq (.inr (by rw [hsome, ← hplace, heq])))
  · cases hev

theorem gives_elsewhere {e : Nat} :
    ∀ ev ∈ inp.gives L e, Elsewhere (inp.weights image) (.transit t) ev := by
  intro ev hev
  unfold Input.gives at hev
  split at hev
  · cases hev
  · obtain rfl := List.mem_singleton.mp hev
    exact elsewhere_give fun heq => by cases heq

/-- After its dispatches nothing needs the batch's experts. -/
theorem InSlot.computed {bt : Batch} {due' : List Nat} {done : Set Weights}
    (h : InSlot inp L A t b out (inp.placed A bt ++ out) (bt.experts ++ due') c)
    (hdone : ∀ e ∈ bt.experts, (L, e) ∈ done) :
    InSlot inp L A t b out out due' { c with done := c.done ∪ done } where
  mine := h.mine
  flight := h.flight
  kept e he := h.kept e (List.mem_append_right _ he)
  settled j hj hneeded := by
    rcases h.settled j hj hneeded with hold | ⟨e, he, rfl, hwhy⟩
    · exact .inl (.inl hold)
    · by_cases hexp : e ∈ bt.experts
      · exact .inl (.inr (hdone e hexp))
      · have he' : e ∈ due' := (List.mem_append.mp he).resolve_left hexp
        refine .inr ⟨e, he', rfl, hwhy.imp_right ?_⟩
        rintro ⟨hrun, hreads⟩
        refine ⟨(List.mem_append.mp hrun).resolve_left fun hp => hexp (mem_placed hp), hreads⟩

/-- The batch waits for the reads of its own experts. -/
theorem awaits_meets {bt : Batch} {landed : Nat → Bool} (hbt : bt ∈ inp.batches L A.slot)
    (hnodup : bt.experts.Nodup) (hout : ∀ p ∈ out, p.1 ∉ bt.experts)
    (hdue : ∀ e ∈ bt.experts, e ∈ due) (hlanded : ∀ e ∈ bt.experts, ∀ slot, A.slot e = some slot →
      landed slot = true)
    (hc : InSlot inp L A t (landed t) (inp.placed A bt ++ out) running due c) :
    wp (inp.weights image) (.transit t) (inp.futures L A bt)
      (fun c => InSlot inp L A t (landed t) out running due c ∧
        AllThere inp L A t (inp.placed A bt) c) c := by
  -- what was read ahead into the slot is there already
  have hkept : ∀ p ∈ inp.placed A bt, A.slot p.1 = some t → parts_of inp L p.1 ⊆ c.landed :=
    fun p hp hslot => hc.kept p.1 (hdue _ (mem_placed hp)) hslot (hlanded _ (mem_placed hp) t hslot)
  have helse : ∀ p ∈ inp.placed A bt, (p.2 = t → ¬ inp.reads_in L A p.1) →
      ∀ ev ∈ if inp.streams L A p.1 then inp.awaits L p.1 (inp.target L p) else [],
        Elsewhere (inp.weights image) (.transit t) ev := by
    intro p _ hno ev hev
    split at hev
    · rename_i hstream
      refine awaits_elsewhere (fun heq => ?_) ev hev
      obtain ⟨hslot, hreads⟩ := target_transit hstream heq
      exact hno hslot hreads
    · cases hev
  by_cases hread : ∃ p ∈ inp.placed A bt, p.2 = t ∧ inp.reads_in L A p.1
  · obtain ⟨⟨e, t'⟩, hp, rfl, hreads⟩ := hread
    have hrefill : Refill A inp.pcfg.transit_slots bt := by
      rcases batch_cases hbt with ⟨-, hsome⟩ | ⟨-, hrefill⟩
      · have hyes := hsome e (mem_placed hp)
        rw [hreads.2] at hyes
        cases hyes
      · exact hrefill
    apply wp_only (nodup_placed hnodup) hp
    · intro q hq hne
      apply helse q hq
      rintro hq₂ -
      exact hne (placed_slot_inj hrefill hq hp hq₂)
    · dsimp only
      rw [if_pos hreads.streams, hreads.target (p := (e, t'))]
      apply wp_awaits List.nodup_range
      · intro run hrun
        exact (hc.flight _).mpr (.inr ⟨e, List.mem_append_left _ hp, hreads, rfl, hrun⟩)
      · refine ⟨hc.await_one hreads.2 (fun e' he' _ => ?_)
          fun hmem => hout _ hmem (mem_placed hp), ?_⟩
        · exact congrArg Prod.fst (placed_slot_inj hrefill he' hp rfl)
        · intro q hq hq₂ _ x hx
          rw [placed_slot_inj hrefill hq hp hq₂] at hx
          exact .inr hx
  · have hquiet : ∀ p ∈ inp.placed A bt, p.2 = t → ¬ inp.reads_in L A p.1 :=
      fun p hp hslot hreads => hread ⟨p, hp, hslot, hreads⟩
    refine wp_none (fun p hp => helse p hp (hquiet p hp)) ⟨hc.await_none hquiet, ?_⟩
    rintro p hp hslot (hreads | hahead)
    · exact absurd hreads (hquiet p hp hslot)
    · exact hkept p hp hahead

theorem run_batch_meets {bt : Batch} {due' : List Nat} (hbt : bt ∈ inp.batches L A.slot)
    (hnodup : bt.experts.Nodup) (hout : ∀ p ∈ out, p.1 ∉ bt.experts) :
    Meets (inp.weights image) (.transit t)
      (fun landed c => InSlot inp L A t (landed t) (inp.placed A bt ++ out)
        (inp.placed A bt ++ out) (bt.experts ++ due') c) (inp.run_batch L A bt)
      fun landed c => InSlot inp L A t (landed t) out out due' c := by
  refine Meets.andThen (land_all_meets _) (Meets.emit fun landed c hc => ?_)
  obtain ⟨hc, hlanded⟩ := hc
  have hahead : ∀ e ∈ bt.experts, ∀ slot, A.slot e = some slot → landed slot = true :=
    fun e he slot hslot => hlanded slot (List.mem_filterMap.mpr ⟨e, he, hslot⟩) e hslot
  rw [wp_append]
  refine wp_mono (awaits_meets hbt hnodup hout (fun e he => List.mem_append_left _ he) hahead hc)
    fun c hc => ?_
  obtain ⟨hc, hready⟩ := hc
  rw [wp_append]
  refine wp_passive (copies_passive hc.mine hready) ?_
  rw [wp_append]
  refine jobs_wp (fun p hp hbase => ?_) fun done hdone => ?_
  · obtain ⟨hslot, hwhy⟩ := base_transit hp hbase
    exact ⟨hc.mine, hready p hp hslot hwhy⟩
  · exact wp_none (fun p _ => gives_elsewhere) (hc.computed hdone)

/-! #### The loop over the batches -/

/-- A refill goes over slots that neither the batch being computed nor a later one is in. -/
theorem InLoop.idle {prev : Option Batch} {bt : Batch} {bts : List Batch}
    (h : InLoop inp L A prev (bt :: bts)) (hrefill : bt.refills A.slot)
    (ht : t ∈ slots_of inp.pcfg.transit_slots bt.seg) :
    Vacant inp L A t (prev.toList.flatMap (inp.placed A)) (prev.toList.flatMap (inp.placed A))
      (experts_of (prev.toList ++ bt :: bts)) := by
  have hunread : ∀ e, (e, t) ∈ prev.toList.flatMap (inp.placed A) → ¬ inp.reads_in L A e := by
    intro e he hreads
    obtain ⟨b, hb, hp⟩ := List.mem_flatMap.mp he
    obtain rfl : prev = some b := Option.mem_toList.mp hb
    rcases batch_cases (h.mem b List.mem_cons_self) with ⟨-, hsome⟩ | ⟨hyes, hfresh⟩
    · have hahead := hsome e (mem_placed hp)
      rw [hreads.2] at hahead
      cases hahead
    · -- a slot has one segment, and the two refills have different ones
      have hseg := mem_slots_of (placed_in_segment hfresh hp)
      rw [mem_slots_of ht] at hseg
      have hapart : Apart A b bt := (List.isChain_cons.mp h.apart).1 bt rfl
      exact hapart hyes hrefill hseg.symm
  refine ⟨fun e he hslot => ?_, hunread, hunread⟩
  rw [experts_of_append] at he
  exact h.safe.1 hrefill e he t hslot ht

theorem batch_loop_meets {prev : Option Batch} {bts : List Batch} (h : InLoop inp L A prev bts) :
    Meets (inp.weights image) (.transit t)
      (fun landed c => InSlot inp L A t (landed t) (prev.toList.flatMap (inp.placed A))
        (prev.toList.flatMap (inp.placed A)) (experts_of (prev.toList ++ bts)) c)
      (inp.batch_loop L A prev bts) fun landed c => InSlot inp L A t (landed t) [] [] [] c := by
  induction bts generalizing prev with
  | nil =>
    cases prev with
    | none => exact Meets.emit fun landed c hc => hc
    | some prev =>
      have hmem := List.mem_append_left [] (Option.mem_toList.mpr (rfl : some prev = some prev))
      exact run_batch_meets (h.mem prev hmem) (h.nodup_experts hmem) fun p hp => by cases hp
  | cons bt bts ih =>
    have hmem : bt ∈ prev.toList ++ bt :: bts := List.mem_append_right _ List.mem_cons_self
    have hdue : ∀ e ∈ bt.experts, e ∈ experts_of (prev.toList ++ bt :: bts) :=
      fun e he => List.mem_flatMap.mpr ⟨bt, hmem, he⟩
    have hissue : Meets (inp.weights image) (.transit t) _ (inp.issue L A bt) _ :=
      issue_meets (h.mem bt hmem) (h.nodup_experts hmem) hdue h.idle
    have hrest := ih h.next
    cases prev with
    | none =>
      refine hissue.andThen (hrest.conseq (fun landed c hc => ?_) fun landed c hc => hc)
      simpa using hc
    | some prev =>
      have hprev : prev ∈ (some prev).toList ++ bt :: bts :=
        List.mem_append_left _ (Option.mem_toList.mpr rfl)
      have hout := h.placed_apart
      have hrun : Meets (inp.weights image) (.transit t)
          (fun landed c => InSlot inp L A t (landed t) (inp.placed A prev ++ inp.placed A bt)
            (inp.placed A prev ++ inp.placed A bt)
            (prev.experts ++ (bt.experts ++ experts_of bts)) c) (inp.run_batch L A prev)
          fun landed c => InSlot inp L A t (landed t) (inp.placed A bt) (inp.placed A bt)
            (bt.experts ++ experts_of bts) c :=
        run_batch_meets (h.mem prev hprev) (h.nodup_experts hprev) hout
      refine hissue.andThen (Meets.andThen
        (hrun.conseq (fun landed c hc => ?_) fun landed c hc => hc)
        (hrest.conseq (fun landed c hc => ?_) fun landed c hc => hc))
      · simpa using hc
      · simpa using hc

/-! #### A layer -/

/-- Between layers: nothing is on its way into the slot, and nothing that was read into it is
    still needed. -/
structure Rested (inp : Input) (c : Cell Weights Nat) : Prop where
  mine : c.mine = true
  flight : c.flight = ∅
  settled : ∀ j ∈ c.started, inp.needed j → j ∈ c.done

theorem mem_experts_batches {e : Nat} (h : inp.needed (L, e)) :
    e ∈ experts_of (inp.batches L A.slot) := by
  have hsorted : e ∈ inp.shard_sort L (inp.used L) := (List.perm_insertionSort _ _).mem_iff.mpr h
  rw [experts_batches, List.mem_append]
  cases hslot : A.slot e with
  | none => exact .inr (List.mem_filter.mpr ⟨hsorted, by simp [hslot]⟩)
  | some slot => exact .inl (List.mem_filter.mpr ⟨hsorted, by simp [hslot]⟩)

theorem Rested.ahead (h : Rested inp c) : wp (inp.weights image) (.transit t) (inp.ahead_events L A)
    (InSlot inp L A t false [] [] (experts_of (inp.batches L A.slot))) c := by
  -- at most one expert is read ahead into the slot
  cases horder : A.order[t]? with
  | some e =>
    have hslot : A.slot e = some t := AheadSlots.slot_eq_some.mpr horder
    have hmem : (e, t) ∈ A.order.zipIdx := List.mem_zipIdx_iff_getElem?.mpr horder
    have hnodup : A.order.zipIdx.Nodup := by
      apply List.Nodup.of_map Prod.fst
      rw [List.zipIdx_map_fst]
      exact A.nodup
    apply wp_only hnodup hmem
    · rintro ⟨e', i⟩ hi hne
      refine starts_elsewhere fun heq => hne ?_
      obtain rfl := Dst.transit.inj heq
      have hi' : A.order[i]? = some e' := List.mem_zipIdx_iff_getElem?.mp hi
      rw [Option.some.inj (hi'.symm.trans horder)]
    · apply wp_starts List.nodup_range h.mine
      · intro x hx
        rw [h.flight] at hx
        exact hx.elim
      · exact fun j hj _ hneeded => h.settled j hj hneeded
      · intro c' hmine hflight hstarted hdone
        refine ⟨hmine, fun x => ?_, fun _ _ _ hfalse => (by cases hfalse), fun j hj hneeded => ?_⟩
        · rw [hflight, h.flight]
          constructor
          · rintro (hx | hx)
            · exact hx.elim
            · exact .inl ⟨e, hslot, rfl, hx⟩
          · rintro (⟨e', he', -, hx⟩ | ⟨e', hout, -⟩)
            · rw [A.slot_inj he' hslot] at hx
              exact .inr hx
            · cases hout
        · rw [hdone]
          rcases hstarted hj with rfl | hj
          · exact .inr ⟨e, mem_experts_batches hneeded, rfl, .inl hslot⟩
          · exact .inl (h.settled j hj hneeded)
  | none =>
    refine wp_none ?_ ⟨h.mine, fun x => ?_, fun _ _ _ hfalse => (by cases hfalse),
      fun j hj hneeded => .inl (h.settled j hj hneeded)⟩
    · rintro ⟨e', i⟩ hi
      refine starts_elsewhere fun heq => ?_
      obtain rfl := Dst.transit.inj heq
      have hi' : A.order[i]? = some e' := List.mem_zipIdx_iff_getElem?.mp hi
      rw [horder] at hi'
      cases hi'
    · rw [h.flight]
      constructor
      · intro hx
        exact hx.elim
      · rintro (⟨e', he', -⟩ | ⟨e', hout, -⟩)
        · rw [AheadSlots.slot_eq_some, horder] at he'
          cases he'
        · cases hout

theorem InSlot.rested {landed : Nat → Bool} (h : InSlot inp L A t (landed t) [] [] [] c)
    (hlanded : ∀ slot ∈ List.range A.order.length, Landed A slot landed) : Rested inp c where
  mine := h.mine
  flight := by
    ext x
    refine ⟨fun hx => ?_, fun hx => hx.elim⟩
    rcases (h.flight x).mp hx with ⟨e, he, hfalse, -⟩ | ⟨e, hout, -⟩
    · have hlt := (List.getElem?_eq_some_iff.mp (AheadSlots.slot_eq_some.mp he)).1
      rw [hlanded t (List.mem_range.mpr hlt) e he] at hfalse
      cases hfalse
    · cases hout
  settled j hj hneeded := by
    rcases h.settled j hj hneeded with hdone | ⟨e, he, -⟩
    · exact hdone
    · cases he

/-- A layer leaves a slot of the transit as it found it. -/
theorem Rested.layer (h : Rested inp c) : wp (inp.weights image) (.transit t)
    (inp.ahead_events L A ++ inp.moe_events L A) (Rested inp) c := by
  rw [wp_append]
  refine wp_mono h.ahead fun c hc => ?_
  have hmoe : Meets (inp.weights image) (.transit t)
      (fun landed c => InSlot inp L A t (landed t) [] [] (experts_of (inp.batches L A.slot)) c)
      (inp.run_moe L A) fun _ c => Rested inp c :=
    Meets.andThen (batch_loop_meets .start) ((land_all_meets _).conseq (fun _ _ h => h)
      fun landed c h => h.1.rested h.2)
  exact hmoe (fun _ => false) c hc

end TransitSlot

end CachedMoe.Gpu
